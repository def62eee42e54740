import Imgdl.Assembly

/-!
# Why a result is missing

A call reports a URL without a result by its configuration alone : as a timeout if it has a
batch timeout, else as a panic. `Closing` is the state in which its collection ended, and what
ended it.

The report is right in the runs of a call with a batch timeout exactly if every task whose
result is missing was still running then (`missing_blamed_iff`). A task that panicked before is
reported as late.
-/

set_option linter.unusedSectionVars false

namespace Imgdl

open Transition Interleaving

/-- The batch whose collection ended, and whether it was the deadline that ended it. -/
structure Closing where
  byDeadline : Bool
  batch : Batch

/-- The error reported of every URL whose result was not collected : it is a timeout only if the
deadline fired before the task ended, and that of a panic if the task had panicked. -/
def Closing.Blamed (c : Closing) (results : List DownloadResult) : Prop :=
  ∀ (j i : ℕ) (t : Task) (e : DownloadError) (d : Duration) (n : UInt32),
    c.batch.tasks j = some t → c.batch.resultMap t.url = none → c.batch.urls[i]? = some t.url →
    results[i]? = some ⟨t.url, .failure e d n⟩ →
      (e = .timeout → c.byDeadline = true ∧ t.stage.alive = true) ∧
      (t.stage = .panicked → e = .connectionFailed "task panicked")

/-- The tasks without a collected result are still running. -/
def Closing.OnlyLate (c : Closing) : Prop :=
  ∀ j t, c.batch.tasks j = some t → c.batch.resultMap t.url = none → t.stage.alive = true

variable {env : Env} {config : Config} {p p' : PoolState} {b b' : Batch} {c : Closing}

/-- How a collection ends. -/
structure Closing.Ends (config : Config) (c : Closing) : Prop where
  collected : Collected c.batch
  drained : c.byDeadline = false → c.batch.joinSet = []
  deadline : c.byDeadline = true → config.batchTimeout.isSome = true

/-- When the join set is empty, no task is running. -/
theorem Closing.Ends.ended (h : c.Ends config) (hc : c.byDeadline = false) {j : ℕ} {t : Task}
    (ht : c.batch.tasks j = some t) : t.stage.alive = false := by
  have hj : j ∉ c.batch.joinSet := by
    rw [h.drained hc]
    exact List.not_mem_nil
  rcases h.collected.ended j t ht hj with ⟨r, hr⟩ | hp
  · rw [hr]
    rfl
  · rw [hp]
    rfl

/-- The error of a missing result, at every position of its URL. -/
theorem getElem?_assemble_missing {resultMap : String → Option DownloadResult} {url : String}
    {urls : List String} {elapsed : ℕ → Duration} {i : ℕ} (hi : urls[i]? = some url)
    (hmissing : resultMap url = none) : (assemble config resultMap urls elapsed)[i]? =
      some ⟨url, .failure (missingError config) (elapsed i) 0⟩ := by
  rw [getElem?_assemble, hi, Option.map_some, assembleOne, hmissing]

/-- The reports of a collection that has ended. -/
theorem Closing.Ends.blamed_assemble (h : c.Ends config) (elapsed : ℕ → Duration) :
    c.Blamed (assemble config c.batch.resultMap c.batch.urls elapsed) ↔
      config.batchTimeout = none ∨ c.OnlyLate := by
  constructor
  · intro hblamed
    rw [or_iff_not_imp_left]
    intro htimeout j t ht hmissing
    have herror : missingError config = .timeout :=
      if_pos (Option.isSome_iff_ne_none.2 htimeout)
    obtain ⟨t₀, h₀, hurl, -⟩ := h.collected.spawned j t ht
    obtain ⟨i, hi⟩ := List.mem_iff_getElem?.1 (hurl ▸ (spawnTasks_eq_some h₀).1)
    exact ((hblamed j i t _ _ _ ht hmissing hi (getElem?_assemble_missing hi hmissing)).1 herror).2
  · intro hcond j i t e d n ht hmissing hi hr
    rw [getElem?_assemble_missing hi hmissing] at hr
    obtain ⟨rfl, -, -⟩ := DownloadOutcome.failure.inj (DownloadResult.mk.inj (Option.some.inj hr)).2
    rcases hcond with hnone | hlate
    · have herror : missingError config = .connectionFailed "task panicked" :=
        if_neg (by rw [hnone]; decide)
      rw [herror]
      exact ⟨fun he => (nomatch he), fun _ => rfl⟩
    · have halive := hlate j t ht hmissing
      refine ⟨fun _ => ⟨?_, halive⟩, fun hp => ?_⟩
      · by_contra hc
        rw [h.ended (Bool.eq_false_iff.2 hc) ht] at halive
        cases halive
      · rw [hp] at halive
        cases halive

namespace Downloader

variable {k : ℕ} {s s' : State}

/-- The end of the collection of the call `k`. -/
def noteClosing (k : ℕ) (s : State) (ev : ℕ × DownloaderEvent) (c : Option Closing) :
    Option Closing :=
  match ev, s.locals k with
  | (k', .batch (.drained _ _)), some b => if k' = k then some ⟨false, b⟩ else c
  | (k', .batch (.deadline _ _)), some b => if k' = k then some ⟨true, b⟩ else c
  | _, _ => c

/-- How the collection of the call `k` ended in a run, if it has. -/
def closingOf (env : Env) (config : Config) (k : ℕ) (es : List (ℕ × DownloaderEvent)) :
    Option Closing :=
  record (step env config) (noteClosing k) init es none

/-- What is known of the call `k` in a state, and of the end of its collection. -/
structure Watched (config : Config) (k : ℕ) (c : Option Closing) (s : State) : Prop where
  unstarted : s.locals k = none → c = none
  collecting : ∀ b, s.locals k = some b → b.phase = .collecting → c = none
  collected : ∀ b, s.locals k = some b → Collected b
  closed : ∀ b c', s.locals k = some b → c = some c' → c'.Ends config ∧
    ∃ elapsed, b.phase.results = some (assemble config c'.batch.resultMap c'.batch.urls elapsed)

/-- Only the end of the collection is noted. -/
theorem noteClosing_of_ne {k : ℕ} {s : State} {k' : ℕ} {e : DownloaderEvent} {c : Option Closing}
    (h : k' ≠ k ∨ ∀ elapsed total,
      e ≠ .batch (.drained elapsed total) ∧ e ≠ .batch (.deadline elapsed total)) :
    noteClosing k s (k', e) c = c := by
  unfold noteClosing
  split
  case h_1 heq _ =>
    obtain ⟨rfl, rfl⟩ := Prod.mk.inj heq
    exact if_neg (h.resolve_right fun hall => (hall _ _).1 rfl)
  case h_2 heq _ =>
    obtain ⟨rfl, rfl⟩ := Prod.mk.inj heq
    exact if_neg (h.resolve_right fun hall => (hall _ _).2 rfl)
  case h_3 => rfl

/-- The end of a collection is noted. -/
theorem noteClosing_closed {e : BatchEvent} {elapsed : ℕ → Duration} {total : Duration}
    {o : Option Closing} (hb : s.locals k = some b)
    (he : (e = .drained elapsed total ∧ b.joinSet = []) ∨
      (e = .deadline elapsed total ∧ config.batchTimeout.isSome = true))
    (hcol : Collected b) : ∃ byDeadline, noteClosing k s (k, .batch e) o = some ⟨byDeadline, b⟩ ∧
      Closing.Ends config ⟨byDeadline, b⟩ := by
  rcases he with ⟨rfl, hempty⟩ | ⟨rfl, hsome⟩
  · exact ⟨false, by simp [noteClosing, hb], hcol, fun _ => hempty, fun h => (nomatch h)⟩
  · exact ⟨true, by simp [noteClosing, hb], hcol, fun h => (nomatch h), fun _ => hsome⟩

theorem results_close (env : Env) (config : Config) (b : Batch) (elapsed : ℕ → Duration)
    (total : Duration) : (b.close env config elapsed total).phase.results =
      some (assemble config b.resultMap b.urls elapsed) := by
  rcases close_cases env config b elapsed total with hc | ⟨json, -, hc⟩ <;> rw [hc] <;> rfl

/-- A step of the call keeps what is known of it. -/
theorem Watched.move {o : Option Closing} {e : BatchEvent} (h : Watched config k o s)
    (hb : s.locals k = some b) (hb' : s'.locals k = some b')
    (hm : BatchMove env config s.shared b e s'.shared b') :
    Watched config k (noteClosing k s (k, .batch e) o) s' := by
  have hcol' := (h.collected b hb).step hm
  have same : (∀ elapsed total, e ≠ .drained elapsed total ∧ e ≠ .deadline elapsed total) →
      (b'.phase = .collecting → b.phase = .collecting) →
      (b.phase ≠ .collecting → b'.phase.results = b.phase.results) →
      Watched config k (noteClosing k s (k, .batch e) o) s' := by
    intro hne hback hsame
    rw [noteClosing_of_ne (Or.inr fun _ _ => by simpa using hne _ _)]
    refine ⟨fun hnone => by simp [hb'] at hnone, fun u hu hph => ?_, fun u hu => ?_,
      fun u c' hu hc => ?_⟩
    · obtain rfl := Option.some.inj (hb'.symm.trans hu)
      exact h.collecting b hb (hback hph)
    · obtain rfl := Option.some.inj (hb'.symm.trans hu)
      exact hcol'
    · obtain rfl := Option.some.inj (hb'.symm.trans hu)
      rw [hsame fun hph => by simp [h.collecting b hb hph] at hc]
      exact h.closed b c' hb hc
  generalize s'.shared = q at hm
  cases hm with
  | task | summaryPerformed => exact same (fun _ _ => ⟨nofun, nofun⟩) id fun _ => rfl
  | joined hph | joinedPanic hph =>
    exact same (fun _ _ => ⟨nofun, nofun⟩) (fun _ => hph) fun hne => absurd hph hne
  | summarized hph => exact same (fun _ _ => ⟨nofun, nofun⟩) nofun fun _ => by rw [hph]; rfl
  | @closed _ elapsed total _ he =>
    obtain ⟨byDeadline, hnote, hends⟩ := noteClosing_closed (o := o) hb he (h.collected b hb)
    rw [hnote]
    refine ⟨fun hnone => by simp [hb'] at hnone, fun u hu hph => ?_, fun u hu => ?_,
      fun u c' hu hc => ?_⟩
    · obtain rfl := Option.some.inj (hb'.symm.trans hu)
      have hres := results_close env config b elapsed total
      simp [hph, Phase.results] at hres
    · obtain rfl := Option.some.inj (hb'.symm.trans hu)
      exact hcol'
    · obtain rfl := Option.some.inj (hb'.symm.trans hu)
      obtain rfl := Option.some.inj hc
      exact ⟨hends, elapsed, results_close env config b elapsed total⟩

theorem watched_step {ev : ℕ × DownloaderEvent} {o : Option Closing} (h : Watched config k o s)
    (hs : step env config s ev = some s') : Watched config k (noteClosing k s ev o) s' := by
  obtain ⟨k', e⟩ := ev
  rcases eq_or_ne k' k with rfl | hk
  · cases hb : s.locals k' with
    | some b =>
      obtain ⟨be, b', rfl, hb', hm⟩ := step_some hs hb
      exact h.move hb hb' hm
    | none =>
      obtain ⟨o', hp, hl⟩ := Par.step_eq_some.1 hs
      cases e with
      | batch be => simp [hb, callStep] at hp
      | call urls outputDir mkdir =>
        obtain ⟨-, rfl⟩ : _ ∧ _ := by simpa [hb, callStep] using hp
        rw [noteClosing_of_ne (Or.inr fun _ _ => by simp), h.unstarted hb]
        refine ⟨fun _ => rfl, fun _ _ _ => rfl, fun b hb' => ?_, fun _ _ _ hc => by cases hc⟩
        rw [hl, Function.update_self] at hb'
        obtain rfl := Option.some.inj hb'
        exact Collected.start (start_cases config urls outputDir mkdir)
  · have hsame : s'.locals k = s.locals k := Par.step_other hs hk.symm
    rw [noteClosing_of_ne (Or.inl hk)]
    exact ⟨hsame ▸ h.unstarted, hsame ▸ h.collecting, hsame ▸ h.collected, hsame ▸ h.closed⟩

/-- In every run, the error of every URL whose result was not collected is that of its cause,
exactly if there is no batch timeout or every task without a collected result was still running
when the collection ended. -/
theorem missing_blamed_iff {es : List (ℕ × DownloaderEvent)} {results : List DownloadResult}
    (hr : run (step env config) init es = some s) (hb : s.locals k = some b)
    (hres : b.phase.results = some results) (hc : closingOf env config k es = some c) :
    c.Blamed results ↔ config.batchTimeout = none ∨ c.OnlyLate := by
  have hinit : Watched config k none init :=
    ⟨fun _ => rfl, fun _ _ _ => rfl, fun _ h => (nomatch h), fun _ _ h => (nomatch h)⟩
  have hwatched : Watched config k (closingOf env config k es) s := by
    refine run_record ?_ hinit hr
    exact fun _ _ _ _ h hs => watched_step h hs
  obtain ⟨hends, elapsed, hassembled⟩ := hwatched.closed b c hb hc
  obtain rfl := Option.some.inj (hres.symm.trans hassembled)
  exact hends.blamed_assemble elapsed

/-- The only task of a call with a batch timeout panics, and the call returns before the
deadline. -/
def panickedRun : List (ℕ × DownloaderEvent) :=
  (0, .call ["http://h/a.png"] "out" (.ok ())) :: taskSteps 0 [.poll 0, .panic] ++
    [(0, .batch (.join 0)), (0, .batch (.drained (fun _ => 1) 1))]

/-- It is reported as a timeout. -/
theorem missing_blamed_panickedRun : ¬∀ (es : List (ℕ × DownloaderEvent)) (s : State) (b : Batch)
    (results : List DownloadResult) (c : Closing), run (step oneUrl timed) init es = some s →
    s.locals 0 = some b → b.phase.results = some results →
    closingOf oneUrl timed 0 es = some c → c.Blamed results := by
  intro h
  have hblamed := h panickedRun _ _ _ _ rfl rfl rfl rfl
  have htimeout := (hblamed 0 0 _ .timeout 1 0 rfl rfl rfl rfl).1 rfl
  exact absurd htimeout.1 (by decide)

/-- Without a batch timeout it is reported as a panic. -/
theorem missing_blamed_untimed : ∃ c results,
    closingOf oneUrl {} 0 panickedRun = some c ∧ c.Blamed results ∧
      results.length = 1 := by
  obtain ⟨s, b, results, c, hr, hb, hres, hc, hlen⟩ : ∃ s b results c,
      run (step oneUrl {}) init panickedRun = some s ∧ s.locals 0 = some b ∧
      b.phase.results = some results ∧ closingOf oneUrl {} 0 panickedRun = some c ∧
      results.length = 1 := ⟨_, _, _, _, rfl, rfl, rfl, rfl, rfl⟩
  exact ⟨c, results, hc, (missing_blamed_iff hr hb hres hc).2 (Or.inl rfl), hlen⟩

end Downloader

end Imgdl
