import Imgdl.Batch

/-!
# Assembly of the results

The tasks of a batch are the distinct URLs with their first positions (`spawned`), a task
returns a result for its own URL, and the result map holds exactly the results of the
joined tasks that returned (`Collected`). The phase of the call is the assembly of that
map, so every position carries the outcome of the task of its URL, or a failure
(`batch_assembly`).
-/

set_option linter.unusedSectionVars false

namespace Imgdl

open Transition Interleaving

/-! ## Deduplication -/

/-- The positions of a URL start with its first one. -/
theorem head?_valuesOf_zipIdx {url : String} : ∀ {urls : List String} {n : ℕ}, url ∈ urls →
    (Grouping.valuesOf url (urls.zipIdx n)).head? = some (n + urls.idxOf url)
  | u :: urls, n, h => by
    unfold Grouping.valuesOf
    rw [List.zipIdx_cons, List.idxOf_cons]
    by_cases hu : u = url
    · simp [hu]
    · have hmem : url ∈ urls := (List.mem_cons.1 h).resolve_left (Ne.symm hu)
      have ih := head?_valuesOf_zipIdx (n := n + 1) hmem
      unfold Grouping.valuesOf at ih
      have hbeq : (u == url) = false := by simpa using hu
      rw [List.filter_cons_of_neg (by simpa using hu), ih, hbeq, cond_false]
      exact congrArg some (by omega)

/-- The tasks of a batch : one for each URL, with its first position. -/
theorem spawnTasks_eq_some {urls : List String} {outputDir : String} {j : ℕ} {t : Task}
    (h : spawnTasks urls outputDir j = some t) :
    t.url ∈ urls ∧ t = Task.spawn t.url (urls.idxOf t.url) outputDir := by
  obtain ⟨⟨url, indices⟩, he, rfl⟩ := Option.map_eq_some_iff.1 h
  obtain ⟨hkey, rfl⟩ := (Grouping.mem_groups _).1 (List.mem_of_getElem? he)
  have hmem : url ∈ urls := by simpa using hkey
  refine ⟨hmem, ?_⟩
  have hhead := head?_valuesOf_zipIdx (n := 0) hmem
  rw [Nat.zero_add] at hhead
  simp [Task.spawn, List.headD_eq_head?_getD, hhead]

/-- Every URL has exactly one task. -/
theorem spawnTasks_unique {urls : List String} {outputDir : String} {i j : ℕ} {t u : Task}
    (hi : spawnTasks urls outputDir i = some t) (hj : spawnTasks urls outputDir j = some u)
    (h : t.url = u.url) : i = j := by
  obtain ⟨e, he, rfl⟩ := Option.map_eq_some_iff.1 hi
  obtain ⟨f, hf, rfl⟩ := Option.map_eq_some_iff.1 hj
  have hn : ((dedup urls).map Prod.fst).Nodup := Grouping.nodup_groups _
  have hlen : i < ((dedup urls).map Prod.fst).length := by
    rw [List.length_map]
    exact (List.getElem?_eq_some_iff.1 he).1
  refine (List.getElem?_inj hlen hn).1 ?_
  rw [List.getElem?_map, List.getElem?_map, he, hf]
  exact congrArg some h

theorem exists_spawnTasks {urls : List String} {url : String} (outputDir : String)
    (h : url ∈ urls) :
    ∃ j, spawnTasks urls outputDir j = some (Task.spawn url (urls.idxOf url) outputDir) := by
  have hkey : url ∈ (dedup urls).map Prod.fst := by
    rw [dedup, Grouping.mem_keys_groups]
    simpa using h
  obtain ⟨e, he, rfl⟩ := List.mem_map.1 hkey
  obtain ⟨j, hj⟩ := List.mem_iff_getElem?.1 he
  have hs : spawnTasks urls outputDir j = some (Task.spawn e.1 (e.2.headD 0) outputDir) := by
    rw [spawnTasks, hj]
    rfl
  exact ⟨j, by rw [hs, (spawnTasks_eq_some hs).2]; rfl⟩

/-! ## Collection -/

variable {env : Env} {config : Config} {p p' : PoolState} {b b' : Batch}

/-- The tasks are those spawned, and the result map holds what the joined ones returned. -/
structure Collected (b : Batch) : Prop where
  spawned : ∀ j t, b.tasks j = some t → ∃ t₀, spawnTasks b.urls b.outputDir j = some t₀ ∧
    t.url = t₀.url ∧ t.firstIndex = t₀.firstIndex ∧ t.outputDir = t₀.outputDir
  complete : b.mkdir = .ok () → ∀ j t₀, spawnTasks b.urls b.outputDir j = some t₀ →
    (b.tasks j).isSome
  nodup : b.joinSet.Nodup
  ended : ∀ j t, b.tasks j = some t → j ∉ b.joinSet →
    (∃ r, t.stage = .returned r) ∨ t.stage = .panicked
  own : ∀ j t r, b.tasks j = some t → t.stage = .returned r → ∃ outcome, r = t.result outcome
  map : ∀ url r, b.resultMap url = some r ↔
    ∃ j t, b.tasks j = some t ∧ j ∉ b.joinSet ∧ t.stage = .returned (url, r)

namespace Collected

/-- A URL has one task. -/
theorem unique (h : Collected b) {i j : ℕ} {t u : Task} (hi : b.tasks i = some t)
    (hj : b.tasks j = some u) (hu : t.url = u.url) : i = j := by
  obtain ⟨t₀, ht₀, htu, -⟩ := h.spawned i t hi
  obtain ⟨u₀, hu₀, huu, -⟩ := h.spawned j u hj
  exact spawnTasks_unique ht₀ hu₀ (htu.symm.trans (hu.trans huu))

theorem start {urls : List String} {outputDir : String} {mkdir : Except String Unit}
    (hs : Started config urls outputDir mkdir b) : Collected b := by
  cases hs with
  | empty hurls =>
    subst hurls
    exact ⟨fun _ _ h => (nomatch h), fun _ _ _ h => (nomatch h), List.nodup_nil,
      fun _ _ h => (nomatch h), fun _ _ _ h => (nomatch h), fun _ _ => by simp⟩
  | failed =>
    exact ⟨fun _ _ h => (nomatch h), fun h => (nomatch h), List.nodup_nil,
      fun _ _ h => (nomatch h), fun _ _ _ h => (nomatch h), fun _ _ => by simp⟩
  | spawned =>
    have inSet : ∀ j t, spawnTasks urls outputDir j = some t →
        j ∈ List.range (dedup urls).length := by
      intro j t h
      obtain ⟨e, he, -⟩ := Option.map_eq_some_iff.1 h
      exact List.mem_range.2 (List.getElem?_eq_some_iff.1 he).1
    refine ⟨fun j t h => ⟨t, h, rfl, rfl, rfl⟩, fun _ j t h => by simp [h], List.nodup_range,
      fun j t h hj => absurd (inSet j t h) hj, fun j t r h hs => ?_, fun url r => ?_⟩
    · rw [(spawnTasks_eq_some h).2] at hs
      cases hs
    · refine ⟨fun h => (nomatch h), ?_⟩
      rintro ⟨j, t, h, hj, -⟩
      exact absurd (inSet j t h) hj

theorem task {j : ℕ} {e : TaskEvent} {t t' : Task} {sc' : Scope} (h : Collected b)
    (ht : b.tasks j = some t) (hm : TaskMove env config p b.scope t e p' sc' t') :
    Collected { b with scope := sc', tasks := Function.update b.tasks j (some t') } := by
  obtain ⟨hurl, hindex, hdir⟩ := hm.ident
  have stays : j ∉ b.joinSet → t'.stage = t.stage := fun hj => hm.stage_of_ended <| by
    rcases h.ended j t ht hj with ⟨r, hr⟩ | hr <;> rw [hr] <;> rfl
  refine ⟨fun i u hu => ?_, fun hok i t₀ h₀ => ?_, h.nodup, fun i u hu hi => ?_,
    fun i u r hu hr => ?_, fun url r => ?_⟩
  · rcases update_eq_some hu with ⟨rfl, rfl⟩ | ⟨-, hu⟩
    · obtain ⟨t₀, h₀, h1, h2, h3⟩ := h.spawned i t ht
      exact ⟨t₀, h₀, hurl.trans h1, hindex.trans h2, hdir.trans h3⟩
    · exact h.spawned i u hu
  · rcases eq_or_ne i j with rfl | hij
    · simp
    · simpa [hij] using h.complete hok i t₀ h₀
  · rcases update_eq_some hu with ⟨rfl, rfl⟩ | ⟨-, hu⟩
    · rw [stays hi]
      exact h.ended i t ht hi
    · exact h.ended i u hu hi
  · rcases update_eq_some hu with ⟨rfl, rfl⟩ | ⟨-, hu⟩
    · have hres : ∀ outcome, u.result outcome = t.result outcome := fun outcome => by
        rw [Task.result, Task.result, hurl]
      rcases hm.returned hr with hold | ⟨outcome, rfl⟩
      · obtain ⟨outcome, rfl⟩ := h.own i t r ht hold
        exact ⟨outcome, (hres outcome).symm⟩
      · exact ⟨outcome, (hres outcome).symm⟩
    · exact h.own i u r hu hr
  · rw [h.map url r]
    constructor
    · rintro ⟨i, u, hu, hi, hs⟩
      rcases eq_or_ne i j with rfl | hij
      · obtain rfl : t = u := Option.some.inj (ht.symm.trans hu)
        exact ⟨i, t', by simp, hi, (stays hi).trans hs⟩
      · exact ⟨i, u, by simpa [hij] using hu, hi, hs⟩
    · rintro ⟨i, u, hu, hi, hs⟩
      rcases update_eq_some hu with ⟨rfl, rfl⟩ | ⟨-, hu⟩
      · exact ⟨i, t, ht, hi, (stays hi).symm.trans hs⟩
      · exact ⟨i, u, hu, hi, hs⟩

/-- The result of a joined task enters the map. -/
theorem join {j : ℕ} {t : Task} {r : String × DownloadResult} (h : Collected b)
    (ht : b.tasks j = some t) (hj : j ∈ b.joinSet) (hr : t.stage = .returned r) :
    Collected { b with
      joinSet := b.joinSet.erase j
      resultMap := Function.update b.resultMap r.1 (some r.2) } := by
  obtain ⟨outcome, rfl⟩ := h.own j t r ht hr
  have hmem : ∀ {i}, i ∉ b.joinSet.erase j ↔ i = j ∨ i ∉ b.joinSet := fun {i} => by
    rw [h.nodup.mem_erase_iff]
    tauto
  refine ⟨h.spawned, h.complete, h.nodup.erase j, fun i u hu hi => ?_, h.own, fun url dr => ?_⟩
  · rcases hmem.1 hi with rfl | hi
    · obtain rfl : t = u := Option.some.inj (ht.symm.trans hu)
      exact Or.inl ⟨_, hr⟩
    · exact h.ended i u hu hi
  · constructor
    · intro hdr
      rcases eq_or_ne url (t.result outcome).1 with rfl | hne
      · obtain rfl : (t.result outcome).2 = dr := by simpa using hdr
        exact ⟨j, t, ht, hmem.2 (Or.inl rfl), hr⟩
      · obtain ⟨i, u, hu, hi, hs⟩ := (h.map url dr).1 (by simpa [hne] using hdr)
        exact ⟨i, u, hu, hmem.2 (Or.inr hi), hs⟩
    · rintro ⟨i, u, hu, hi, hs⟩
      obtain ⟨outcome', hu'⟩ := h.own i u _ hu hs
      obtain ⟨rfl, rfl⟩ := Prod.mk.inj hu'
      by_cases hij : i = j
      · subst hij
        obtain rfl : t = u := Option.some.inj (ht.symm.trans hu)
        have hsame := Stage.returned.inj (hr.symm.trans hs)
        simp [hsame]
      · have hne : u.url ≠ (t.result outcome).1 := fun he => hij (h.unique hu ht he)
        have hi' : i ∉ b.joinSet := (hmem.1 hi).resolve_left hij
        simpa [hne] using (h.map u.url ⟨u.url, outcome'⟩).2 ⟨i, u, hu, hi', hs⟩

/-- A joined task that panicked leaves the map as it is. -/
theorem joinPanic {j : ℕ} {t : Task} (h : Collected b) (ht : b.tasks j = some t)
    (hp : t.stage = .panicked) : Collected { b with joinSet := b.joinSet.erase j } := by
  have hmem : ∀ {i}, i ∉ b.joinSet.erase j ↔ i = j ∨ i ∉ b.joinSet := fun {i} => by
    rw [h.nodup.mem_erase_iff]
    tauto
  refine ⟨h.spawned, h.complete, h.nodup.erase j, fun i u hu hi => ?_, h.own, fun url r => ?_⟩
  · rcases hmem.1 hi with rfl | hi
    · obtain rfl : t = u := Option.some.inj (ht.symm.trans hu)
      exact Or.inr hp
    · exact h.ended i u hu hi
  · rw [h.map url r]
    constructor
    · rintro ⟨i, u, hu, hi, hs⟩
      exact ⟨i, u, hu, hmem.2 (Or.inr hi), hs⟩
    · rintro ⟨i, u, hu, hi, hs⟩
      rcases hmem.1 hi with rfl | hi
      · obtain rfl : t = u := Option.some.inj (ht.symm.trans hu)
        rw [hp] at hs
        cases hs
      · exact ⟨i, u, hu, hi, hs⟩

theorem step {e : BatchEvent} (h : Collected b) (hm : BatchMove env config p b e p' b') :
    Collected b' := by
  cases hm with
  | task ht _ hm => exact h.task ht hm
  | joined _ ht hj hr => exact h.join ht hj hr
  | joinedPanic _ ht _ hp => exact h.joinPanic ht hp
  | closed =>
    rw [close_eq]
    exact ⟨h.spawned, h.complete, h.nodup, h.ended, h.own, h.map⟩
  | summaryPerformed | summarized =>
    exact ⟨h.spawned, h.complete, h.nodup, h.ended, h.own, h.map⟩

end Collected

/-! ## Assembly -/

/-- The results of a call, once the collection has ended. -/
def Phase.results : Phase → Option (List DownloadResult)
  | .collecting => none
  | .summarizing results => some results
  | .returned results => some results

/-- The results are the assembly of the map, or the failure to create the directory. -/
structure Assembled (config : Config) (b : Batch) : Prop where
  created : b.phase = .collecting → b.mkdir = .ok ()
  failed : ∀ e results, b.mkdir = .error e → b.phase.results = some results →
    results = b.urls.map (mkdirFailure e)
  assembled : ∀ results, b.mkdir = .ok () → b.phase.results = some results →
    ∃ elapsed, results = assemble config b.resultMap b.urls elapsed

namespace Assembled

theorem start {urls : List String} {outputDir : String} {mkdir : Except String Unit}
    (hs : Started config urls outputDir mkdir b) : Assembled config b := by
  cases hs with
  | empty hurls =>
    subst hurls
    exact ⟨fun h => (nomatch h), fun _ _ _ h => (Option.some.inj h).symm,
      fun _ _ h => ⟨fun _ => 0, (Option.some.inj h).symm⟩⟩
  | @failed e =>
    refine ⟨fun h => (nomatch h), fun e' _ he h => ?_, fun _ he => (nomatch he)⟩
    obtain rfl := Except.error.inj he
    exact (Option.some.inj h).symm
  | spawned => exact ⟨fun _ => rfl, fun _ _ _ h => (nomatch h), fun _ _ h => (nomatch h)⟩

theorem step {e : BatchEvent} (h : Assembled config b)
    (hm : BatchMove env config p b e p' b') : Assembled config b' := by
  cases hm with
  | task | summaryPerformed => exact ⟨h.created, h.failed, h.assembled⟩
  | joined hph | joinedPanic hph =>
    exact ⟨h.created, fun _ _ _ hr => by simp [hph, Phase.results] at hr,
      fun _ _ hr => by simp [hph, Phase.results] at hr⟩
  | @closed _ elapsed total hph _ =>
    have hok := h.created hph
    rcases close_cases env config b elapsed total with hc | ⟨json, -, hc⟩ <;> rw [hc] <;>
      exact ⟨fun h => (nomatch h), fun e _ he => by simp [hok] at he,
        fun _ _ hr => ⟨elapsed, (Option.some.inj hr).symm⟩⟩
  | summarized hph _ =>
    exact ⟨fun h => (nomatch h), fun e r he hr => h.failed e r he (hph ▸ hr),
      fun r hok hr => h.assembled r hok (hph ▸ hr)⟩

end Assembled

theorem getElem?_assemble {resultMap : String → Option DownloadResult} {urls : List String}
    {elapsed : ℕ → Duration} {i : ℕ} : (assemble config resultMap urls elapsed)[i]? =
      urls[i]?.map fun url => assembleOne config resultMap url (elapsed i) := by
  rw [assemble, List.getElem?_map, List.getElem?_zipIdx, Option.map_map, Nat.zero_add]
  rfl

/-- Every collected result is one of its URL. -/
theorem Collected.url_eq (h : Collected b) {url : String} {r : DownloadResult}
    (hr : b.resultMap url = some r) : r.url = url := by
  obtain ⟨j, t, ht, -, hs⟩ := (h.map url r).1 hr
  obtain ⟨outcome, ho⟩ := h.own j t _ ht hs
  obtain ⟨rfl, rfl⟩ := Prod.mk.inj ho
  rfl

theorem assembleOne_url (h : Collected b) (url : String) (elapsed : Duration) :
    (assembleOne config b.resultMap url elapsed).url = url := by
  unfold assembleOne
  split
  · rename_i hr
    exact h.url_eq hr
  · rfl

theorem assemble_urls (h : Collected b) (elapsed : ℕ → Duration) :
    (assemble config b.resultMap b.urls elapsed).map DownloadResult.url = b.urls := by
  refine List.ext_getElem? fun i => ?_
  rw [List.getElem?_map, getElem?_assemble, Option.map_map]
  simp [Function.comp_def, assembleOne_url h]

theorem collected_of_reaches {s : Downloader.State} {k : ℕ}
    (h : Reaches (Downloader.step env config) Downloader.init s) (hb : s.locals k = some b) :
    Collected b ∧ Assembled config b := by
  refine Downloader.batch_invariant (I := fun b => Collected b ∧ Assembled config b)
    (fun _ _ _ _ hs => ⟨Collected.start hs, Assembled.start hs⟩)
    (fun _ _ _ _ _ hI hm => ⟨hI.1.step hm, hI.2.step hm⟩) h hb

/-- There is one task for each distinct URL. -/
theorem Collected.lt_length (h : Collected b) {j : ℕ} {t : Task} (ht : b.tasks j = some t) :
    j < (dedup b.urls).length := by
  obtain ⟨t₀, h₀, -⟩ := h.spawned j t ht
  obtain ⟨e, he, -⟩ := Option.map_eq_some_iff.1 h₀
  exact (List.getElem?_eq_some_iff.1 he).1

/-- A task writes to the directory of its batch. -/
theorem Collected.outputDir_eq (h : Collected b) {j : ℕ} {t : Task} (ht : b.tasks j = some t) :
    t.outputDir = b.outputDir := by
  obtain ⟨t₀, h₀, -, -, hdir⟩ := h.spawned j t ht
  rw [hdir, (spawnTasks_eq_some h₀).2]
  rfl

/-- A result is taken from the map, or says that the directory could not be created. -/
theorem Assembled.mem_results (h : Assembled config b) (hcol : Collected b)
    {results : List DownloadResult} (hres : b.phase.results = some results) {r : DownloadResult}
    (hr : r ∈ results) : (∃ e, r.outcome = .failure (.writeError e) 0 0) ∨
      ∃ elapsed, r = assembleOne config b.resultMap r.url elapsed := by
  cases hmk : b.mkdir with
  | error e =>
    rw [h.failed e results hmk hres] at hr
    obtain ⟨url, -, rfl⟩ := List.mem_map.1 hr
    exact Or.inl ⟨_, rfl⟩
  | ok u =>
    obtain ⟨elapsed, rfl⟩ := h.assembled results hmk hres
    obtain ⟨x, -, rfl⟩ := List.mem_map.1 hr
    exact Or.inr ⟨elapsed x.2, by rw [assembleOne_url hcol]⟩

/-- A success in the results is that of a task that returned it. -/
theorem Assembled.success_task (h : Assembled config b) (hcol : Collected b)
    {results : List DownloadResult} (hres : b.phase.results = some results) {r : DownloadResult}
    (hr : r ∈ results) {path : FilePath} {size : ℕ} {hash : Option String} {elapsed : Duration}
    (hsuccess : r.outcome = .success path size hash elapsed) :
    ∃ j t, b.tasks j = some t ∧ t.url = r.url ∧ t.stage = .returned (t.url, r) := by
  rcases h.mem_results hcol hres hr with ⟨msg, hfail⟩ | ⟨d, heq⟩
  · cases hfail.symm.trans hsuccess
  · unfold assembleOne at heq
    split at heq
    case h_2 =>
      rw [heq] at hsuccess
      cases hsuccess
    case h_1 result hmap =>
      obtain rfl : r = result := heq
      obtain ⟨j, t, ht, -, hs⟩ := (hcol.map r.url r).1 hmap
      obtain ⟨outcome, ho⟩ := hcol.own j t _ ht hs
      have hurl : r.url = t.url := (Prod.mk.inj ho).1
      exact ⟨j, t, ht, hurl.symm, hurl ▸ hs⟩

/-- The result map has the results of the joined tasks. -/
theorem Collected.resultMap_eq (h : Collected b) {j : ℕ} {t : Task} {outcome : DownloadOutcome}
    (ht : b.tasks j = some t) (hj : j ∉ b.joinSet) (hs : t.stage = .returned (t.result outcome)) :
    b.resultMap t.url = some ⟨t.url, outcome⟩ :=
  (h.map t.url _).2 ⟨j, t, ht, hj, hs⟩

/-- What the positions of a task's URL carry : the outcome the task returned, if it was
joined, and else a failure. -/
def Carries (config : Config) (b : Batch) (results : List DownloadResult) (j : ℕ) (t : Task) :
    Prop :=
  (∃ outcome, j ∉ b.joinSet ∧ t.stage = .returned (t.url, ⟨t.url, outcome⟩) ∧
    ∀ i : ℕ, b.urls[i]? = some t.url → results[i]? = some ⟨t.url, outcome⟩) ∨
  ((j ∈ b.joinSet ∨ t.stage = .panicked) ∧ ∃ elapsed : ℕ → Duration,
    ∀ i : ℕ, b.urls[i]? = some t.url →
      results[i]? = some ⟨t.url, .failure (missingError config) (elapsed i) 0⟩)

theorem carries_assemble (h : Collected b) (elapsed : ℕ → Duration) {j : ℕ} {t : Task}
    (ht : b.tasks j = some t) :
    Carries config b (assemble config b.resultMap b.urls elapsed) j t := by
  have hat : ∀ i : ℕ, b.urls[i]? = some t.url →
      (assemble config b.resultMap b.urls elapsed)[i]? =
        some (assembleOne config b.resultMap t.url (elapsed i)) := fun i hi => by
    rw [getElem?_assemble, hi]
    rfl
  have missing : (j ∈ b.joinSet ∨ t.stage = .panicked) → b.resultMap t.url = none := by
    intro hj
    refine Option.eq_none_iff_forall_ne_some.2 fun r hr => ?_
    obtain ⟨i, u, hu, hi, hs⟩ := (h.map t.url r).1 hr
    obtain ⟨outcome, ho⟩ := h.own i u _ hu hs
    obtain rfl := h.unique ht hu (Prod.mk.inj ho).1
    obtain rfl : t = u := Option.some.inj (ht.symm.trans hu)
    rcases hj with hj | hj
    · exact hi hj
    · rw [hs] at hj
      cases hj
  by_cases hj : j ∈ b.joinSet ∨ t.stage = .panicked
  · refine Or.inr ⟨hj, elapsed, fun i hi => ?_⟩
    rw [hat i hi, assembleOne, missing hj]
  · rw [not_or] at hj
    obtain ⟨r, hr⟩ := (h.ended j t ht hj.1).resolve_right hj.2
    obtain ⟨outcome, rfl⟩ := h.own j t r ht hr
    refine Or.inl ⟨outcome, hj.1, hr, fun i hi => ?_⟩
    rw [hat i hi, assembleOne, h.resultMap_eq ht hj.1 hr]

/-- Two positions of one URL have the same outcome, up to the time of a missing result. -/
theorem assembleOne_same (resultMap : String → Option DownloadResult) (url : String)
    (d d' : Duration) :
    assembleOne config resultMap url d = assembleOne config resultMap url d' ∨
      ∃ e n, (assembleOne config resultMap url d).outcome = .failure e d n ∧
        (assembleOne config resultMap url d').outcome = .failure e d' n := by
  unfold assembleOne
  cases resultMap url with
  | some r => exact Or.inl rfl
  | none => exact Or.inr ⟨_, _, rfl, rfl⟩

/-- Once the join set is empty, or the deadline comes, the collection ends with the results : the
call returns them, or writes the summary first. -/
theorem collection_ends {s : Downloader.State} {k : ℕ} (hb : s.locals k = some b)
    (hph : b.phase = .collecting) {elapsed : ℕ → Duration} {total : Duration} {e : BatchEvent}
    (he : (e = .drained elapsed total ∧ b.joinSet = []) ∨
      (e = .deadline elapsed total ∧ config.batchTimeout.isSome = true)) :
    ∃ s' b', Downloader.step env config s (k, .batch e) = some s' ∧ s'.locals k = some b' ∧
      (b'.phase = .returned (assemble config b.resultMap b.urls elapsed) ∨
        b'.phase = .summarizing (assemble config b.resultMap b.urls elapsed) ∧
          ∃ call, b'.summaryJob = .queued call) := by
  have hstep : batchStep env config s.shared b e =
      some (s.shared, b.close env config elapsed total) := by
    rcases he with ⟨rfl, hempty⟩ | ⟨rfl, htimeout⟩
    · simp only [batchStep, hph, hempty, if_true]
    · simp only [batchStep, hph, htimeout, if_true]
  refine ⟨⟨s.shared, Function.update s.locals k (some (b.close env config elapsed total))⟩, _,
    Par.step_eq_some.2 ⟨_, ?_, rfl⟩, Function.update_self .., ?_⟩
  · simp only [hb, Downloader.callStep, hstep, Option.map_some]
  · rcases close_cases env config b elapsed total with hc | ⟨json, -, hc⟩ <;> rw [hc]
    · exact Or.inl rfl
    · exact Or.inr ⟨rfl, _, rfl⟩

/-- A call that has returned has one result for each position, in input order. If the
directory could be created, every distinct URL had one task, with its first position, and
every position carries the outcome of its task if that was joined, else a failure. A call that
has joined all tasks, or whose deadline comes, ends the collection with its results. -/
theorem batch_assembly {s : Downloader.State} {k : ℕ}
    (h : Reaches (Downloader.step env config) Downloader.init s) (hb : s.locals k = some b) :
    (∀ results, b.phase = .returned results →
      results.map DownloadResult.url = b.urls ∧
      (∀ e, b.mkdir = .error e → results = b.urls.map (mkdirFailure e)) ∧
      (b.mkdir = .ok () →
        (∀ url ∈ b.urls, ∃! j, ∃ t, b.tasks j = some t ∧ t.url = url) ∧
        ∀ j t, b.tasks j = some t → t.url ∈ b.urls ∧ t.firstIndex = b.urls.idxOf t.url ∧
          Carries config b results j t) ∧
      ∀ (i i' : ℕ) (r r' : DownloadResult), b.urls[i]? = b.urls[i']? → results[i]? = some r →
        results[i']? = some r' → r.outcome = r'.outcome ∨
          ∃ e d d' n, r.outcome = .failure e d n ∧ r'.outcome = .failure e d' n) ∧
    ∀ elapsed total e, b.phase = .collecting →
      (e = .drained elapsed total ∧ b.joinSet = []) ∨
        (e = .deadline elapsed total ∧ config.batchTimeout.isSome = true) →
      ∃ s' b', Downloader.step env config s (k, .batch e) = some s' ∧ s'.locals k = some b' ∧
        (b'.phase = .returned (assemble config b.resultMap b.urls elapsed) ∨
          b'.phase = .summarizing (assemble config b.resultMap b.urls elapsed) ∧
            ∃ call, b'.summaryJob = .queued call) := by
  refine ⟨fun results hph => ?_, fun elapsed total e hph he => collection_ends hb hph he⟩
  obtain ⟨hcol, hasm⟩ := collected_of_reaches h hb
  have hres : b.phase.results = some results := by rw [hph, Phase.results]
  refine ⟨?_, fun e he => hasm.failed e results he hres, fun hok => ⟨fun url hurl => ?_,
    fun j t ht => ?_⟩, fun i i' r r' hi hr hr' => ?_⟩
  · cases hmk : b.mkdir with
    | error e =>
      rw [hasm.failed e results hmk hres]
      simp [mkdirFailure, Function.comp_def]
    | ok u =>
      obtain ⟨elapsed, rfl⟩ := hasm.assembled results hmk hres
      exact assemble_urls hcol elapsed
  · obtain ⟨j, hj⟩ := exists_spawnTasks b.outputDir hurl
    obtain ⟨t, ht⟩ := Option.isSome_iff_exists.1 (hcol.complete hok j _ hj)
    obtain ⟨t₀, h₀, hu, -⟩ := hcol.spawned j t ht
    obtain rfl := Option.some.inj (hj.symm.trans h₀)
    refine ⟨j, ⟨t, ht, hu⟩, ?_⟩
    rintro i ⟨u, hui, huu⟩
    exact hcol.unique hui ht (huu.trans hu.symm)
  · obtain ⟨t₀, h₀, hu, hi, -⟩ := hcol.spawned j t ht
    obtain ⟨hmem, heq⟩ := spawnTasks_eq_some h₀
    obtain ⟨elapsed, rfl⟩ := hasm.assembled results hok hres
    refine ⟨hu ▸ hmem, ?_, carries_assemble hcol elapsed ht⟩
    rw [hi, hu, heq]
    rfl
  · cases hmk : b.mkdir with
    | error e =>
      rw [hasm.failed e results hmk hres, List.getElem?_map] at hr hr'
      rw [hi] at hr
      exact Or.inl (by rw [Option.some.inj (hr.symm.trans hr')])
    | ok u =>
      obtain ⟨elapsed, rfl⟩ := hasm.assembled results hmk hres
      rw [getElem?_assemble] at hr hr'
      rw [hi] at hr
      obtain ⟨url, hu, rfl⟩ := Option.map_eq_some_iff.1 hr
      obtain ⟨url', hu', rfl⟩ := Option.map_eq_some_iff.1 hr'
      obtain rfl := Option.some.inj (hu.symm.trans hu')
      rcases assembleOne_same b.resultMap url (elapsed i) (elapsed i') with he | ⟨e, n, he, he'⟩
      · exact Or.inl (by rw [he])
      · exact Or.inr ⟨e, _, _, n, he, he'⟩

/-- Two tasks for three positions : both URLs are rejected. -/
def rejectedRun : List (ℕ × DownloaderEvent) :=
  [(0, .call ["http://a b", "http://c d", "http://a b"] "out" (.ok ())),
    (0, .batch (.task 1 (.poll 7))), (0, .batch (.task 0 (.poll 8))), (0, .batch (.join 1)),
    (0, .batch (.join 0)), (0, .batch (.drained (fun _ => 9) 9))]

theorem batch_assembly_rejectedRun : ∃ s b results,
    run (Downloader.step (Env.ofTable []) {}) Downloader.init rejectedRun = some s ∧
    s.locals 0 = some b ∧ b.phase = .returned results ∧
    results.map DownloadResult.url = ["http://a b", "http://c d", "http://a b"] := by
  obtain ⟨s, b, results, hr, hb, hph, hurls⟩ : ∃ s b results,
      run (Downloader.step (Env.ofTable []) {}) Downloader.init rejectedRun = some s ∧
      s.locals 0 = some b ∧ b.phase = .returned results ∧
      b.urls = ["http://a b", "http://c d", "http://a b"] :=
    ⟨_, _, _, rfl, rfl, rfl, rfl⟩
  exact ⟨s, b, results, hr, hb, hph, hurls ▸ ((batch_assembly ⟨_, hr⟩ hb).1 results hph).1⟩

end Imgdl
