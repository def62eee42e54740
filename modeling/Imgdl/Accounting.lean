import Imgdl.Assembly
import Mathlib.Algebra.Order.BigOperators.Group.List
import Mathlib.Algebra.Order.Monoid.NatCast
import Mathlib.Algebra.Order.Group.Nat
import Mathlib.Data.Finset.Card

/-!
# The accounts of a summary

`write_batch_summary` counts twice : running totals over the results, and per host in a
second pass over the entries it grouped. `SummaryLoop` is the first pass as the source runs
it, and both passes account for every result once (`Conserves`).
-/

set_option linter.unusedSectionVars false

namespace Imgdl

open Transition Interleaving

/-! ## The loop -/

/-- What the loop over the results has counted and collected so far. -/
structure SummaryLoop where
  successful : ℕ
  failed : ℕ
  totalBytes : ℕ
  hostData : List (String × List HostEntry)
  resultSummaries : List ResultSummary

/-- The loop over one result. -/
def SummaryLoop.next (acc : SummaryLoop) (r : DownloadResult) : SummaryLoop :=
  let host := extractHost r.url
  match r.outcome with
  | .success _ sizeBytes _ elapsed => { acc with
      successful := acc.successful + 1
      totalBytes := (acc.totalBytes + sizeBytes) % 2 ^ 64
      hostData := Grouping.push host ⟨true, sizeBytes, elapsed⟩ acc.hostData
      resultSummaries := acc.resultSummaries ++ [⟨r.url, true, some sizeBytes, elapsed, none⟩] }
  | .failure error elapsed _ => { acc with
      failed := acc.failed + 1
      hostData := Grouping.push host ⟨false, 0, elapsed⟩ acc.hostData
      resultSummaries := acc.resultSummaries ++
        [⟨r.url, false, none, elapsed, some error.toText⟩] }

/-- The loop over the results. -/
def summaryLoop (results : List DownloadResult) : SummaryLoop :=
  results.foldl SummaryLoop.next ⟨0, 0, 0, [], []⟩

/-- The summary that `write_batch_summary` serializes. -/
def writeBatchSummary (config : Config) (results : List DownloadResult)
    (totalUrls uniqueUrls : ℕ) (batchElapsed : Duration) : BatchSummary :=
  let acc := summaryLoop results
  { config
    totalUrls
    uniqueUrls
    successful := acc.successful
    failed := acc.failed
    totalBytes := acc.totalBytes
    totalElapsed := batchElapsed
    perHostStats := acc.hostData.map fun h => (h.1, hostStats h.2)
    results := acc.resultSummaries }

theorem sumBytes_concat (entries : List HostEntry) (e : HostEntry) :
    sumBytes (entries ++ [e]) = (sumBytes entries + e.bytes) % 2 ^ 64 := by
  simp [sumBytes]

/-- The loop has counted and grouped the entries so far. -/
theorem summaryLoop_eq (results : List DownloadResult) : summaryLoop results =
    { successful := ((results.map fun r => r.outcome.entry).filter HostEntry.success).length
      failed := ((results.map fun r => r.outcome.entry).filter fun e => !e.success).length
      totalBytes := sumBytes (results.map fun r => r.outcome.entry)
      hostData := Grouping.groups (results.map fun r => (extractHost r.url, r.outcome.entry))
      resultSummaries := results.map DownloadResult.summarize } := by
  induction results using List.reverseRecOn with
  | nil => rfl
  | append_singleton results r ih =>
    rw [summaryLoop, List.foldl_append, ← summaryLoop, ih]
    simp only [List.foldl_cons, List.foldl_nil, SummaryLoop.next, List.map_append, List.map_cons,
      List.map_nil, Grouping.groups_concat, sumBytes_concat, List.filter_append]
    cases hr : r.outcome with
    | success path sizeBytes hash elapsed =>
      simp [DownloadOutcome.entry, DownloadResult.summarize, hr]
    | failure error elapsed n =>
      simp [DownloadOutcome.entry, DownloadResult.summarize, hr, sumBytes]

theorem writeBatchSummary_eq (config : Config) (results : List DownloadResult)
    (totalUrls uniqueUrls : ℕ) (elapsed : Duration) :
    writeBatchSummary config results totalUrls uniqueUrls elapsed =
      batchSummary config results totalUrls uniqueUrls elapsed := by
  rw [writeBatchSummary, summaryLoop_eq]
  rfl

/-! ## Accounts -/

/-- A result is a success. -/
def DownloadResult.succeeded (r : DownloadResult) : Bool :=
  r.outcome.entry.success

/-- The size of a result, which is 0 for a failure. -/
def DownloadResult.sizeBytes (r : DownloadResult) : ℕ :=
  r.outcome.entry.bytes

/-- The results of a host. -/
def ofHost (host : String) (results : List DownloadResult) : List DownloadResult :=
  results.filter fun r => extractHost r.url = host

/-- Statistics are those of a list of results. -/
structure HostStats.Counts (stats : HostStats) (results : List DownloadResult) : Prop where
  requests : stats.requests = results.length
  successful : stats.successful = (results.filter DownloadResult.succeeded).length
  failed : stats.failed = (results.filter fun r => !r.succeeded).length
  totalBytes : stats.totalBytes = (results.map DownloadResult.sizeBytes).sum

/-- A summary accounts for every result once, in its totals, under one host and in its list. -/
structure Conserves (results : List DownloadResult) (summary : BatchSummary) : Prop where
  total : summary.successful + summary.failed = results.length
  successful : summary.successful = (results.filter DownloadResult.succeeded).length
  totalBytes : summary.totalBytes = (results.map DownloadResult.sizeBytes).sum
  nodup : (summary.perHostStats.map Prod.fst).Nodup
  hosts : ∀ host, host ∈ summary.perHostStats.map Prod.fst ↔
    ∃ r ∈ results, extractHost r.url = host
  host : ∀ host stats, (host, stats) ∈ summary.perHostStats →
    stats.requests = stats.successful + stats.failed ∧ stats.Counts (ofHost host results)
  requests_sum : (summary.perHostStats.map fun h => h.2.requests).sum =
    summary.successful + summary.failed
  successful_sum : (summary.perHostStats.map fun h => h.2.successful).sum = summary.successful
  failed_sum : (summary.perHostStats.map fun h => h.2.failed).sum = summary.failed
  bytes_sum : (summary.perHostStats.map fun h => h.2.totalBytes).sum = summary.totalBytes
  lines : summary.results.map (fun l => (l.url, l.success)) =
    results.map fun r => (r.url, r.succeeded)

section Counts

variable {results : List DownloadResult}

theorem length_filter_entries (p : HostEntry → Bool) :
    ((results.map fun r => r.outcome.entry).filter p).length =
      (results.filter fun r => p r.outcome.entry).length := by
  rw [List.filter_map, List.length_map]
  rfl

theorem sumBytes_entries (h : (results.map DownloadResult.sizeBytes).sum < 2 ^ 64) :
    sumBytes (results.map fun r => r.outcome.entry) =
      (results.map DownloadResult.sizeBytes).sum := by
  rw [sumBytes, List.map_map]
  exact Nat.mod_eq_of_lt h

theorem hostStats_failed (entries : List HostEntry) :
    (hostStats entries).failed = (entries.filter fun e => !e.success).length := by
  have hsplit := List.length_eq_length_filter_add (l := entries) HostEntry.success
  unfold hostStats
  dsimp only
  omega

/-- The statistics of the entries of results, whose sizes do not overflow. -/
theorem hostStats_counts (h : (results.map DownloadResult.sizeBytes).sum < 2 ^ 64) :
    (hostStats (results.map fun r => r.outcome.entry)).Counts results where
  requests := List.length_map _
  successful := length_filter_entries HostEntry.success
  failed := (hostStats_failed _).trans (length_filter_entries fun e => !e.success)
  totalBytes := sumBytes_entries h

/-- The sizes of the results of a host. -/
theorem sum_ofHost_le (host : String) : ((ofHost host results).map DownloadResult.sizeBytes).sum ≤
    (results.map DownloadResult.sizeBytes).sum :=
  (List.filter_sublist.map _).sum_le_sum fun _ _ => Nat.zero_le _

/-- The entries of the results by host. -/
def hostEntries (results : List DownloadResult) : List (String × List HostEntry) :=
  Grouping.groups (results.map fun r => (extractHost r.url, r.outcome.entry))

/-- The entries of a host are those of its results. -/
theorem mem_hostEntries {host : String} {entries : List HostEntry} :
    (host, entries) ∈ hostEntries results ↔ (∃ r ∈ results, extractHost r.url = host) ∧
      entries = (ofHost host results).map fun r => r.outcome.entry := by
  rw [hostEntries, Grouping.mem_groups, Grouping.valuesOf_map, List.map_map, List.mem_map]
  rfl

/-- What is additive on entries is the sum over the hosts. -/
theorem sum_hostEntries {f : List HostEntry → ℕ} (h0 : f [] = 0)
    (hf : ∀ vs ws, f (vs ++ ws) = f vs + f ws) :
    ((hostEntries results).map fun g => f g.2).sum = f (results.map fun r => r.outcome.entry) := by
  rw [hostEntries, Grouping.sum_groups h0 hf, List.map_map]
  rfl

variable (config : Config) (totalUrls uniqueUrls : ℕ) (elapsed : Duration)

theorem perHostStats_eq :
    (batchSummary config results totalUrls uniqueUrls elapsed).perHostStats =
      (hostEntries results).map fun h => (h.1, hostStats h.2) := rfl

theorem hosts_eq :
    (batchSummary config results totalUrls uniqueUrls elapsed).perHostStats.map Prod.fst =
      (hostEntries results).map Prod.fst := by
  rw [perHostStats_eq, List.map_map]
  rfl

theorem sum_perHostStats (g : HostStats → ℕ) :
    ((batchSummary config results totalUrls uniqueUrls elapsed).perHostStats.map
      fun h => g h.2).sum = ((hostEntries results).map fun h => g (hostStats h.2)).sum := by
  rw [perHostStats_eq, List.map_map]
  rfl

theorem counts_of_mem (h : (results.map DownloadResult.sizeBytes).sum < 2 ^ 64) {host : String}
    {stats : HostStats} (hmem : (host, stats) ∈
      (batchSummary config results totalUrls uniqueUrls elapsed).perHostStats) :
    stats.Counts (ofHost host results) := by
  rw [perHostStats_eq, List.mem_map] at hmem
  obtain ⟨⟨host', entries⟩, hentries, heq⟩ := hmem
  obtain ⟨rfl, rfl⟩ := Prod.mk.inj heq
  obtain ⟨-, rfl⟩ := mem_hostEntries.1 hentries
  exact hostStats_counts ((sum_ofHost_le _).trans_lt h)

/-- The bytes of the hosts add up, as those of no host overflow. -/
theorem sum_hostEntries_bytes (h : (results.map DownloadResult.sizeBytes).sum < 2 ^ 64) :
    ((hostEntries results).map fun g => sumBytes g.2).sum =
      (results.map DownloadResult.sizeBytes).sum := by
  have hexact : (hostEntries results).map (fun g => sumBytes g.2) =
      (hostEntries results).map fun g => (g.2.map HostEntry.bytes).sum := by
    refine List.map_congr_left fun g hg => ?_
    obtain ⟨host, entries⟩ := g
    obtain ⟨-, rfl⟩ := mem_hostEntries.1 hg
    rw [sumBytes_entries ((sum_ofHost_le _).trans_lt h), List.map_map]
    rfl
  have hsum : ((hostEntries results).map fun g => (g.2.map HostEntry.bytes).sum).sum =
      ((results.map fun r => r.outcome.entry).map HostEntry.bytes).sum :=
    sum_hostEntries (f := fun entries => (entries.map HostEntry.bytes).sum) rfl
      fun vs ws => by rw [List.map_append, List.sum_append]
  rw [hexact, hsum, List.map_map]
  rfl

theorem batchSummary_total :
    (batchSummary config results totalUrls uniqueUrls elapsed).successful +
      (batchSummary config results totalUrls uniqueUrls elapsed).failed = results.length := by
  have htotal := List.length_eq_length_filter_add (l := results.map fun r => r.outcome.entry)
    HostEntry.success
  rw [List.length_map] at htotal
  exact htotal.symm

end Counts

/-- The line of a result has its URL and says whether it is a success. -/
theorem summarize_line (r : DownloadResult) :
    (r.summarize.url, r.summarize.success) = (r.url, r.succeeded) := by
  unfold DownloadResult.summarize DownloadResult.succeeded
  cases r.outcome <;> rfl

/-- A summary conserves the results if their sizes do not overflow. -/
theorem batchSummary_conserves (config : Config) {results : List DownloadResult}
    (totalUrls uniqueUrls : ℕ) (elapsed : Duration)
    (h : (results.map DownloadResult.sizeBytes).sum < 2 ^ 64) :
    Conserves results (batchSummary config results totalUrls uniqueUrls elapsed) := by
  exact {
    total := batchSummary_total config totalUrls uniqueUrls elapsed
    successful := length_filter_entries _
    totalBytes := sumBytes_entries h
    nodup := by
      rw [hosts_eq]
      exact Grouping.nodup_groups _
    hosts := fun host => by
      rw [hosts_eq, hostEntries, Grouping.mem_keys_groups, List.map_map, List.mem_map]
      rfl
    host := fun host stats hmem => by
      have hcounts := counts_of_mem config totalUrls uniqueUrls elapsed h hmem
      refine ⟨?_, hcounts⟩
      rw [hcounts.requests, hcounts.successful, hcounts.failed]
      exact List.length_eq_length_filter_add _
    requests_sum := by
      rw [sum_perHostStats]
      refine (sum_hostEntries (f := List.length) rfl fun _ _ => List.length_append).trans ?_
      rw [List.length_map]
      exact (batchSummary_total config totalUrls uniqueUrls elapsed).symm
    successful_sum := by
      rw [sum_perHostStats]
      exact sum_hostEntries (f := fun entries => (entries.filter HostEntry.success).length) rfl
        fun vs ws => by rw [List.filter_append, List.length_append]
    failed_sum := by
      rw [sum_perHostStats]
      simp only [hostStats_failed]
      exact sum_hostEntries (f := fun entries => (entries.filter fun e => !e.success).length) rfl
        fun vs ws => by rw [List.filter_append, List.length_append]
    bytes_sum := by
      rw [sum_perHostStats]
      exact (sum_hostEntries_bytes h).trans (sumBytes_entries h).symm
    lines := by
      rw [batchSummary, List.map_map]
      exact List.map_congr_left fun r _ => summarize_line r }

/-! ## The summary of a call -/

/-- The summary that a call writes, at the end of its collection. -/
def Batch.summary (config : Config) (b : Batch) (elapsed : ℕ → Duration) (total : Duration) :
    BatchSummary :=
  writeBatchSummary config (assemble config b.resultMap b.urls elapsed) b.urls.length
    (dedup b.urls).length total

variable {env : Env} {config : Config} {p p' : PoolState} {b b' : Batch}

/-- There are as many tasks as distinct URLs. -/
theorem length_dedup (urls : List String) : (dedup urls).length = urls.toFinset.card := by
  have hkeys : ((dedup urls).map Prod.fst).toFinset = urls.toFinset := by
    ext url
    rw [List.mem_toFinset, List.mem_toFinset, dedup, Grouping.mem_keys_groups,
      List.zipIdx_map_fst]
  have hnodup : ((dedup urls).map Prod.fst).Nodup := Grouping.nodup_groups _
  rw [← hkeys, List.toFinset_card_of_nodup hnodup, List.length_map]

/-- A summary that waits to be written is that of the results of the call. -/
def Summarized (env : Env) (config : Config) (b : Batch) : Prop :=
  ∀ call, b.summaryJob = .queued call → ∃ elapsed total,
    b.phase = .summarizing (assemble config b.resultMap b.urls elapsed) ∧
    env.summaryJson (b.summary config elapsed total) = .ok call.content

theorem summarized_start {urls : List String} {outputDir : String} {mkdir : Except String Unit}
    (hs : Started config urls outputDir mkdir b) : Summarized env config b := by
  cases hs <;> exact fun _ h => (nomatch h)

theorem Summarized.close (h : Summarized env config b) (hph : b.phase = .collecting)
    (elapsed : ℕ → Duration) (total : Duration) :
    Summarized env config (b.close env config elapsed total) := by
  have hidle : ∀ call, b.summaryJob ≠ .queued call := by
    intro call hcall
    obtain ⟨_, _, hsum, -⟩ := h call hcall
    cases hph.symm.trans hsum
  intro call hcall
  unfold Batch.close at hcall ⊢
  simp only at hcall ⊢
  split_ifs at hcall ⊢
  · cases hjson : env.summaryJson (batchSummary config (assemble config b.resultMap b.urls elapsed)
        b.urls.length (dedup b.urls).length total) with
    | error e =>
      simp only [hjson] at hcall
      exact absurd hcall (hidle call)
    | ok json =>
      simp only [hjson, Job.queued.injEq] at hcall ⊢
      subst hcall
      refine ⟨elapsed, total, rfl, ?_⟩
      rw [Batch.summary, writeBatchSummary_eq]
      exact hjson
  · exact absurd hcall (hidle call)

theorem Summarized.step {e : BatchEvent} (h : Summarized env config b)
    (hm : BatchMove env config p b e p' b') : Summarized env config b' := by
  cases hm with
  | task => exact h
  | joined hph | joinedPanic hph =>
    intro call hcall
    obtain ⟨_, _, hsum, -⟩ := h call hcall
    cases hph.symm.trans hsum
  | closed hph => exact h.close hph _ _
  | summaryPerformed => exact fun _ hcall => (nomatch hcall)
  | summarized _ hdone =>
    intro call hcall
    cases hdone.symm.trans hcall

/-- The results of a call have the URLs of the call. -/
theorem Batch.summary_urls (h : Collected b) (elapsed : ℕ → Duration) (total : Duration) :
    (b.summary config elapsed total).totalUrls = (b.summary config elapsed total).successful +
      (b.summary config elapsed total).failed ∧
    (b.summary config elapsed total).uniqueUrls = ((assemble config b.resultMap b.urls
      elapsed).map DownloadResult.url).toFinset.card := by
  have hurls : (assemble config b.resultMap b.urls elapsed).map DownloadResult.url = b.urls :=
    assemble_urls h elapsed
  rw [Batch.summary, writeBatchSummary_eq, hurls, ← length_dedup]
  refine ⟨?_, rfl⟩
  have hlength := congrArg List.length hurls
  rw [List.length_map] at hlength
  rw [batchSummary_total]
  exact hlength.symm

/-- Every summary conserves its results, if the sizes do not overflow. That of a call counts the
URLs it was given and the distinct ones, and is what it writes. -/
theorem writeBatchSummary_conserves :
    (∀ (config : Config) (results : List DownloadResult) (totalUrls uniqueUrls : ℕ)
      (elapsed : Duration), (results.map DownloadResult.sizeBytes).sum < 2 ^ 64 →
      Conserves results (writeBatchSummary config results totalUrls uniqueUrls elapsed)) ∧
    ∀ (env : Env) (config : Config) (s : Downloader.State) (k : ℕ) (b : Batch),
      Reaches (Downloader.step env config) Downloader.init s → s.locals k = some b →
      (∀ elapsed total,
        (b.summary config elapsed total).totalUrls = (b.summary config elapsed total).successful +
          (b.summary config elapsed total).failed ∧
        (b.summary config elapsed total).uniqueUrls = ((assemble config b.resultMap b.urls
          elapsed).map DownloadResult.url).toFinset.card) ∧
      ∀ call, b.summaryJob = .queued call → ∃ elapsed total,
        b.phase = .summarizing (assemble config b.resultMap b.urls elapsed) ∧
        env.summaryJson (b.summary config elapsed total) = .ok call.content := by
  refine ⟨fun config results totalUrls uniqueUrls elapsed h => ?_,
    fun env config s k b hreach hb => ⟨?_, ?_⟩⟩
  · rw [writeBatchSummary_eq]
    exact batchSummary_conserves config totalUrls uniqueUrls elapsed h
  · exact Batch.summary_urls (collected_of_reaches hreach hb).1
  · exact Downloader.batch_invariant (I := Summarized env config)
      (fun _ _ _ _ hs => summarized_start hs) (fun _ _ _ _ _ h hm => h.step hm) hreach hb

/-- Two hosts, one of them with a failure. -/
def twoHosts : List DownloadResult :=
  [⟨"http://a/1.png", .success ⟨"out", "1.png"⟩ 7 none 1⟩,
    ⟨"http://b/2.png", .success ⟨"out", "2.png"⟩ 5 none 1⟩,
    ⟨"http://a/3.png", .failure .timeout 1 0⟩]

/-- An environment whose summaries have a text. -/
def textEnv : Env :=
  { Env.ofTable [] with summaryJson := fun _ => .ok [] }

theorem writeBatchSummary_conserves_rejectedRun :
    Conserves twoHosts (writeBatchSummary {} twoHosts 3 3 0) ∧
    ∃ s b call, run (Downloader.step textEnv { writeSummary := true }) Downloader.init
        rejectedRun = some s ∧ s.locals 0 = some b ∧ b.summaryJob = .queued call ∧
      (∀ elapsed total, (b.summary { writeSummary := true } elapsed total).totalUrls =
        (b.summary { writeSummary := true } elapsed total).successful +
          (b.summary { writeSummary := true } elapsed total).failed) ∧
      ∃ elapsed total, textEnv.summaryJson (b.summary { writeSummary := true } elapsed total) =
        .ok call.content := by
  refine ⟨writeBatchSummary_conserves.1 {} twoHosts 3 3 0 (by decide), ?_⟩
  obtain ⟨s, b, call, hr, hb, hcall⟩ : ∃ s b call,
      run (Downloader.step textEnv { writeSummary := true }) Downloader.init rejectedRun = some s ∧
      s.locals 0 = some b ∧ b.summaryJob = .queued call :=
    ⟨_, _, _, rfl, rfl, rfl⟩
  obtain ⟨hcounts, htext⟩ := writeBatchSummary_conserves.2 textEnv { writeSummary := true } s 0 b
    ⟨_, hr⟩ hb
  obtain ⟨elapsed, total, -, hjson⟩ := htext call hcall
  exact ⟨s, b, call, hr, hb, hcall, fun elapsed total => (hcounts elapsed total).1,
    elapsed, total, hjson⟩

end Imgdl
