import Imgdl.Download
import Imgdl.Grouping
import Imgdl.Interleaving

/-!
# Batches

`Batch` is one `download_batch` call : the tasks it spawned, the join set, the results
collected so far and the phase it is in. `batchStep` takes one step of a task or of the
call itself. The deadline may fire at any moment of the collection if a batch timeout is
set; dropping the join set then cancels the tasks, each at some later await point. Calls start
within the limits of the machine : `Semaphore::new` panics above `MAX_PERMITS` permits and
`Instant::now() + batch_timeout` where the clock ends, and a call that panics so returns nothing.

A `Downloader` runs any number of calls over one pool, one after the other or at the same
time.
-/

set_option linter.unusedSectionVars false

namespace Imgdl

open Transition Interleaving

/-- The positions of every distinct URL, in the order of their first positions. -/
def dedup (urls : List String) : List (String × List ℕ) :=
  Grouping.groups urls.zipIdx

/-- The tasks of a batch, by their place in `dedup`. -/
def spawnTasks (urls : List String) (outputDir : String) (j : ℕ) : Option Task :=
  (dedup urls)[j]?.map fun e => Task.spawn e.1 (e.2.headD 0) outputDir

/-- Where a call stands : collecting, writing the summary, or returned. -/
inductive Phase where
  | collecting
  | summarizing (results : List DownloadResult)
  | returned (results : List DownloadResult)
  deriving DecidableEq

/-- A `download_batch` call. `mkdir` is what creating the output directory came to. -/
structure Batch where
  urls : List String
  outputDir : String
  mkdir : Except String Unit
  scope : Scope
  tasks : ℕ → Option Task
  joinSet : List ℕ
  resultMap : String → Option DownloadResult
  summaryJob : Job
  phase : Phase

/-- What a call waits for. The clock readings are those of the positions without a
result, and that of the whole batch. -/
inductive BatchEvent where
  | task (j : ℕ) (e : TaskEvent)
  | join (j : ℕ)
  /-- The join set is empty. -/
  | drained (elapsed : ℕ → Duration) (total : Duration)
  | deadline (elapsed : ℕ → Duration) (total : Duration)
  | performSummary (w : WriteEnd)
  | summaryWritten

/-- The scope of a new batch. -/
def Scope.new (config : Config) : Scope :=
  ⟨config.maxConcurrentGlobal, fun _ => none, fun _ => 0, 0, fun _ => none, []⟩

/-- The result of every position when the output directory cannot be created. -/
def mkdirFailure (e url : String) : DownloadResult :=
  ⟨url, .failure (.writeError s!"failed to create output directory: {e}") 0 0⟩

/-- A call up to its first await after the fan-out. -/
def Batch.start (config : Config) (urls : List String) (outputDir : String)
    (mkdir : Except String Unit) : Batch :=
  let b : Batch := ⟨urls, outputDir, mkdir, Scope.new config, fun _ => none, [],
    fun _ => none, .idle, .collecting⟩
  if urls = [] then { b with phase := .returned [] }
  else match mkdir with
    | .error e => { b with phase := .returned (urls.map (mkdirFailure e)) }
    | .ok () => { b with
        tasks := spawnTasks urls outputDir
        joinSet := List.range (dedup urls).length }

/-- How a call starts. -/
inductive Started (config : Config) (urls : List String) (outputDir : String) :
    Except String Unit → Batch → Prop where
  | empty {mkdir : Except String Unit} : urls = [] → Started config urls outputDir mkdir
    ⟨urls, outputDir, mkdir, Scope.new config, fun _ => none, [], fun _ => none, .idle,
      .returned []⟩
  | failed {e : String} : Started config urls outputDir (.error e)
    ⟨urls, outputDir, .error e, Scope.new config, fun _ => none, [], fun _ => none, .idle,
      .returned (urls.map (mkdirFailure e))⟩
  | spawned : Started config urls outputDir (.ok ())
    ⟨urls, outputDir, .ok (), Scope.new config, spawnTasks urls outputDir,
      List.range (dedup urls).length, fun _ => none, .idle, .collecting⟩

theorem start_cases (config : Config) (urls : List String) (outputDir : String)
    (mkdir : Except String Unit) :
    Started config urls outputDir mkdir (Batch.start config urls outputDir mkdir) := by
  unfold Batch.start
  simp only
  split_ifs with h
  · exact .empty h
  · cases mkdir with
    | error e => exact .failed
    | ok u => exact .spawned

/-- The tasks of a call that starts are new. -/
theorem Started.task_eq {config : Config} {urls : List String} {outputDir : String}
    {mkdir : Except String Unit} {b : Batch} (hs : Started config urls outputDir mkdir b) {j : ℕ}
    {t : Task} (ht : b.tasks j = some t) :
    ∃ url firstIndex, t = Task.spawn url firstIndex outputDir := by
  cases hs with
  | empty | failed => cases ht
  | spawned =>
    obtain ⟨e, -, rfl⟩ := Option.map_eq_some_iff.1 ht
    exact ⟨_, _, rfl⟩

section Step

variable (env : Env) (config : Config)

/-- The error of a URL without a collected result. -/
def missingError : DownloadError :=
  if config.batchTimeout.isSome then .timeout else .connectionFailed "task panicked"

/-- The result of a position. -/
def assembleOne (resultMap : String → Option DownloadResult) (url : String)
    (elapsed : Duration) : DownloadResult :=
  match resultMap url with
  | some result => result
  | none => ⟨url, .failure (missingError config) elapsed 0⟩

/-- The results in input order. -/
def assemble (resultMap : String → Option DownloadResult) (urls : List String)
    (elapsed : ℕ → Duration) : List DownloadResult :=
  urls.zipIdx.map fun u => assembleOne config resultMap u.1 (elapsed u.2)

/-- From the end of the collection to the next await. -/
def Batch.close (b : Batch) (elapsed : ℕ → Duration) (total : Duration) : Batch :=
  let results := assemble config b.resultMap b.urls elapsed
  if config.writeSummary then
    match env.summaryJson
        (batchSummary config results b.urls.length (dedup b.urls).length total) with
    | .error _ => { b with phase := .returned results }
    | .ok json => { b with
        phase := .summarizing results
        summaryJob := .queued ⟨summaryName, json, .summary⟩ }
  else { b with phase := .returned results }

/-- The next step of a call or of one of its tasks. -/
def batchStep (p : PoolState) (b : Batch) : BatchEvent → Option (PoolState × Batch)
  | .task j e => match b.tasks j, b.phase, e with
    -- tasks are cancelled by `drop(join_set)` only
    | some _, .collecting, .cancel => none
    | some t, _, e => (taskStep env config p b.scope t e).map fun r =>
      (r.1, { b with scope := r.2.1, tasks := Function.update b.tasks j (some r.2.2) })
    | none, _, _ => none
  | .join j => match b.phase, b.tasks j with
    | .collecting, some t =>
      if j ∈ b.joinSet then
        match t.stage with
        | .returned r => some (p, { b with
            joinSet := b.joinSet.erase j
            resultMap := Function.update b.resultMap r.1 (some r.2) })
        | .panicked => some (p, { b with joinSet := b.joinSet.erase j })
        | _ => none
      else none
    | _, _ => none
  | .drained elapsed total => match b.phase with
    | .collecting => if b.joinSet = [] then some (p, b.close env config elapsed total) else none
    | _ => none
  | .deadline elapsed total => match b.phase with
    | .collecting =>
      if config.batchTimeout.isSome then some (p, b.close env config elapsed total) else none
    | _ => none
  | .performSummary w => match b.summaryJob with
    | .queued call => some (p, { b with
        scope := { b.scope with files := w.apply b.scope.files call }
        summaryJob := .done w.result })
    | _ => none
  | .summaryWritten => match b.phase, b.summaryJob with
    | .summarizing results, .done _ => some (p, { b with phase := .returned results })
    | _, _ => none

/-- What a step of a call can be. -/
inductive BatchMove (p : PoolState) (b : Batch) : BatchEvent → PoolState → Batch → Prop where
  | task {j : ℕ} {e : TaskEvent} {t t' : Task} {p' : PoolState} {sc' : Scope} :
    b.tasks j = some t → (e = .cancel → b.phase ≠ .collecting) →
    TaskMove env config p b.scope t e p' sc' t' →
    BatchMove p b (.task j e) p'
      { b with scope := sc', tasks := Function.update b.tasks j (some t') }
  | joined {j : ℕ} {t : Task} {r : String × DownloadResult} : b.phase = .collecting →
    b.tasks j = some t → j ∈ b.joinSet → t.stage = .returned r →
    BatchMove p b (.join j) p
      { b with
        joinSet := b.joinSet.erase j
        resultMap := Function.update b.resultMap r.1 (some r.2) }
  | joinedPanic {j : ℕ} {t : Task} : b.phase = .collecting → b.tasks j = some t →
    j ∈ b.joinSet → t.stage = .panicked →
    BatchMove p b (.join j) p { b with joinSet := b.joinSet.erase j }
  | closed {e : BatchEvent} {elapsed : ℕ → Duration} {total : Duration} :
    b.phase = .collecting →
    (e = .drained elapsed total ∧ b.joinSet = []) ∨
      (e = .deadline elapsed total ∧ config.batchTimeout.isSome = true) →
    BatchMove p b e p (b.close env config elapsed total)
  | summaryPerformed {call : WriteCall} {w : WriteEnd} : b.summaryJob = .queued call →
    BatchMove p b (.performSummary w) p
      { b with
        scope := { b.scope with files := w.apply b.scope.files call }
        summaryJob := .done w.result }
  | summarized {results : List DownloadResult} {r : Except String Unit} :
    b.phase = .summarizing results → b.summaryJob = .done r →
    BatchMove p b .summaryWritten p { b with phase := .returned results }

variable {env config} {p p' : PoolState} {b b' : Batch}

/-- Every step of a call is one of the moves. -/
theorem batchStep_cases {e : BatchEvent} (h : batchStep env config p b e = some (p', b')) :
    BatchMove env config p b e p' b' := by
  cases e with
  | task j e =>
    unfold batchStep at h
    simp only at h
    split at h
    case h_1 => cases h
    case h_3 => cases h
    case h_2 t htask hcancel =>
      obtain ⟨⟨q, sc', t'⟩, hstep, heq⟩ := Option.map_eq_some_iff.1 h
      obtain ⟨rfl, rfl⟩ : _ ∧ _ := by simpa using heq
      exact .task htask (fun he hph => hcancel hph he) (taskStep_cases hstep)
  | join j =>
    unfold batchStep at h
    simp only at h
    split at h
    case h_2 => cases h
    case h_1 t hphase htask =>
      split_ifs at h with hj
      split at h
      case h_1 r hstage =>
        obtain ⟨rfl, rfl⟩ : _ ∧ _ := by simpa using h
        exact .joined hphase htask hj hstage
      case h_2 hstage =>
        obtain ⟨rfl, rfl⟩ : _ ∧ _ := by simpa using h
        exact .joinedPanic hphase htask hj hstage
      case h_3 => cases h
  | drained elapsed total =>
    unfold batchStep at h
    simp only at h
    split at h
    case h_2 => cases h
    case h_1 hphase =>
      split_ifs at h with hempty
      obtain ⟨rfl, rfl⟩ : _ ∧ _ := by simpa using h
      exact .closed hphase (Or.inl ⟨rfl, hempty⟩)
  | deadline elapsed total =>
    unfold batchStep at h
    simp only at h
    split at h
    case h_2 => cases h
    case h_1 hphase =>
      split_ifs at h with htimeout
      obtain ⟨rfl, rfl⟩ : _ ∧ _ := by simpa using h
      exact .closed hphase (Or.inr ⟨rfl, htimeout⟩)
  | performSummary w =>
    unfold batchStep at h
    simp only at h
    split at h
    case h_2 => cases h
    case h_1 call hjob =>
      obtain ⟨rfl, rfl⟩ : _ ∧ _ := by simpa using h
      exact .summaryPerformed hjob
  | summaryWritten =>
    unfold batchStep at h
    simp only at h
    split at h
    case h_2 => cases h
    case h_1 results r hphase hjob =>
      obtain ⟨rfl, rfl⟩ : _ ∧ _ := by simpa using h
      exact .summarized hphase hjob

/-- The section of a task that a step of it is. -/
theorem batchStep_task {j : ℕ} {e : TaskEvent}
    (h : batchStep env config p b (.task j e) = some (p', b')) : ∃ t sc' t',
      b.tasks j = some t ∧ taskStep env config p b.scope t e = some (p', sc', t') ∧
      b' = { b with scope := sc', tasks := Function.update b.tasks j (some t') } := by
  unfold batchStep at h
  simp only at h
  split at h
  case h_1 => cases h
  case h_3 => cases h
  case h_2 t ht _ =>
    obtain ⟨⟨q, sc', t'⟩, hstep, heq⟩ := Option.map_eq_some_iff.1 h
    obtain ⟨rfl, rfl⟩ := Prod.mk.inj heq
    exact ⟨t, sc', t', ht, hstep, rfl⟩

/-- The two phases that the end of the collection can lead to. -/
theorem close_cases (env : Env) (config : Config) (b : Batch) (elapsed : ℕ → Duration)
    (total : Duration) :
    (b.close env config elapsed total = { b with
      phase := .returned (assemble config b.resultMap b.urls elapsed) }) ∨
    ∃ json, config.writeSummary = true ∧ b.close env config elapsed total = { b with
      phase := .summarizing (assemble config b.resultMap b.urls elapsed)
      summaryJob := .queued ⟨summaryName, json, .summary⟩ } := by
  unfold Batch.close
  simp only
  split_ifs with hw
  · split
    · exact Or.inl rfl
    case h_2 json _ => exact Or.inr ⟨json, hw, rfl⟩
  · exact Or.inl rfl

/-- The end of the collection changes nothing else. -/
theorem close_eq (env : Env) (config : Config) (b : Batch) (elapsed : ℕ → Duration)
    (total : Duration) : b.close env config elapsed total = { b with
      phase := (b.close env config elapsed total).phase
      summaryJob := (b.close env config elapsed total).summaryJob } := by
  rcases close_cases env config b elapsed total with hc | ⟨json, -, hc⟩ <;> rw [hc]

/-- A call keeps its URLs. -/
theorem BatchMove.urls_eq {e : BatchEvent} (hm : BatchMove env config p b e p' b') :
    b'.urls = b.urls := by
  cases hm with
  | closed => rw [close_eq]
  | _ => rfl

/-- A call keeps its output directory. -/
theorem BatchMove.outputDir_eq {e : BatchEvent} (hm : BatchMove env config p b e p' b') :
    b'.outputDir = b.outputDir := by
  cases hm with
  | closed => rw [close_eq]
  | _ => rfl

/-- What a call has returned stays. -/
theorem BatchMove.returned {e : BatchEvent} (hm : BatchMove env config p b e p' b')
    {results : List DownloadResult} (h : b.phase = .returned results) :
    b'.phase = .returned results := by
  cases hm with
  | closed hph | summarized hph => cases h.symm.trans hph
  | _ => exact h

end Step

/-- A property of tasks that holds of new ones and that their sections keep. -/
structure TaskInvariant (env : Env) (config : Config) (P : Task → Prop) : Prop where
  spawn : ∀ url firstIndex outputDir, P (Task.spawn url firstIndex outputDir)
  step : ∀ {p p' : PoolState} {sc sc' : Scope} {t t' : Task} {e : TaskEvent}, P t →
    TaskMove env config p sc t e p' sc' t' → P t'

namespace TaskInvariant

variable {env : Env} {config : Config} {p p' : PoolState} {b b' : Batch} {P : Task → Prop}

theorem start (h : TaskInvariant env config P) {urls : List String} {outputDir : String}
    {mkdir : Except String Unit} (hs : Started config urls outputDir mkdir b) {j : ℕ} {t : Task}
    (ht : b.tasks j = some t) : P t := by
  obtain ⟨url, firstIndex, rfl⟩ := hs.task_eq ht
  exact h.spawn url firstIndex outputDir

theorem move (h : TaskInvariant env config P) {e : BatchEvent}
    (hb : ∀ j t, b.tasks j = some t → P t) (hm : BatchMove env config p b e p' b') :
    ∀ j t, b'.tasks j = some t → P t := by
  cases hm with
  | @task i _ t t' _ _ ht _ hm =>
    intro j u hu
    rcases update_eq_some hu with ⟨rfl, rfl⟩ | ⟨-, hu⟩
    · exact h.step (hb j t ht) hm
    · exact hb j u hu
  | joined | joinedPanic | summaryPerformed | summarized => exact hb
  | closed =>
    rw [close_eq]
    exact hb

end TaskInvariant

/-- An attempt stays with the connection key of its target. -/
def Keyed (t : Task) : Prop :=
  ∀ home sem leg n c key, t.stage = .working home sem (.attempt leg n c) →
    c.key = some key → key = (leg.target home).key

theorem keyed_invariant {env : Env} {config : Config} : TaskInvariant env config Keyed := by
  refine ⟨fun _ _ _ _ _ _ _ _ _ h => (nomatch h), fun {p p' sc sc' t t' e} hk hm => ?_⟩
  intro home sem leg n c key hs hc
  cases hm with
  | perform => exact hk home sem leg n c key hs hc
  | acquireHost | resume =>
    obtain ⟨rfl, -, hw⟩ := Stage.working.inj hs
    obtain ⟨rfl, -, rfl⟩ := Work.attempt.inj hw
    exact (Option.some.inj hc).symm
  | redirect =>
    obtain ⟨rfl, -, hw⟩ := Stage.working.inj hs
    obtain ⟨rfl, -, rfl⟩ := Work.attempt.inj hw
    exact (Option.some.inj hc).symm
  | pool hst hin hstep =>
    obtain ⟨rfl, -, hw⟩ := Stage.working.inj hs
    obtain ⟨rfl, -, rfl⟩ := Work.attempt.inj hw
    refine hk _ _ _ _ _ key hst (clientStep_key _ hstep (fun k he => ?_) hc)
    rw [he] at hin
    cases hin
  | answered hst _ =>
    obtain ⟨rfl, -, hw⟩ := Stage.working.inj hs
    obtain ⟨rfl, -, rfl⟩ := Work.attempt.inj hw
    exact hk _ _ _ _ _ key hst hc
  | stopped _ he _ => rcases he with ⟨-, rfl⟩ | ⟨-, rfl⟩ <;> cases hs
  | _ => cases hs

/-! ## The downloader -/

/-- A call starts, or one of its steps. -/
inductive DownloaderEvent where
  | call (urls : List String) (outputDir : String) (mkdir : Except String Unit)
  | batch (e : BatchEvent)

namespace Downloader

variable (env : Env) (config : Config)

/-- The next step of a call, from before it starts. -/
def callStep (p : PoolState) : Option Batch → DownloaderEvent →
    Option (PoolState × Option Batch)
  | none, .call urls outputDir mkdir => some (p, some (Batch.start config urls outputDir mkdir))
  | some b, .batch e => (batchStep env config p b e).map fun r => (r.1, some r.2)
  | _, _ => none

/-- The pool, and the calls of `download_batch`. -/
abbrev State := Par PoolState ℕ (Option Batch)

/-- Any call takes its next step. -/
abbrev step : State → ℕ × DownloaderEvent → Option State :=
  Par.step (callStep env config)

/-- A new downloader. -/
def init : State :=
  ⟨PoolState.new, fun _ => none⟩

variable {env config}

/-- A call that has started takes one of its steps. -/
theorem step_some {s s' : State} {k : ℕ} {e : DownloaderEvent} {b : Batch}
    (hs : step env config s (k, e) = some s') (hb : s.locals k = some b) :
    ∃ be b', e = .batch be ∧ s'.locals k = some b' ∧
      BatchMove env config s.shared b be s'.shared b' := by
  obtain ⟨o, hp, hl⟩ := Par.step_eq_some.1 hs
  cases e with
  | call urls outputDir mkdir => simp [hb, callStep] at hp
  | batch be =>
    have hp' : (batchStep env config s.shared b be).map (fun r => (r.1, some r.2)) =
        some (s'.shared, o) := by simpa [hb, callStep] using hp
    obtain ⟨⟨q, b'⟩, hstep, heq⟩ := Option.map_eq_some_iff.1 hp'
    obtain ⟨rfl, rfl⟩ := Prod.mk.inj heq
    exact ⟨be, b', rfl, by rw [hl, Function.update_self], batchStep_cases hstep⟩

/-- Where a call comes from : it is another one, it has just started, or it took a step. -/
theorem step_local {s s' : State} {k k' : ℕ} {e : DownloaderEvent} {b' : Batch}
    (hs : step env config s (k, e) = some s') (hb : s'.locals k' = some b') :
    (k' ≠ k ∧ s.locals k' = some b') ∨
    (k' = k ∧ ∃ urls outputDir mkdir, e = .call urls outputDir mkdir ∧
      Started config urls outputDir mkdir b') ∨
    (k' = k ∧ ∃ b be, s.locals k = some b ∧ e = .batch be ∧
      BatchMove env config s.shared b be s'.shared b') := by
  rcases eq_or_ne k' k with rfl | hk
  · obtain ⟨o, hp, hl⟩ := Par.step_eq_some.1 hs
    obtain rfl : o = some b' := by simpa [hl] using hb
    cases hloc : s.locals k' with
    | none =>
      cases e with
      | call urls outputDir mkdir =>
        obtain ⟨-, rfl⟩ : _ ∧ _ := by simpa [hloc, callStep] using hp
        exact Or.inr (Or.inl ⟨rfl, _, _, _, rfl, start_cases config urls outputDir mkdir⟩)
      | batch e => simp [hloc, callStep] at hp
    | some b =>
      obtain ⟨be, b'', rfl, hb'', hm⟩ := step_some hs hloc
      obtain rfl := Option.some.inj (hb.symm.trans hb'')
      exact Or.inr (Or.inr ⟨rfl, b, be, rfl, rfl, hm⟩)
  · exact Or.inl ⟨hk, Par.step_other hs hk ▸ hb⟩

/-- A step of the call `k` is taken in a state of the call that meets `C`. -/
def OnSteps (k : ℕ) (C : Batch → BatchEvent → Prop) (s : State) (e : ℕ × DownloaderEvent) :
    Prop :=
  e.1 = k → ∀ b be, s.locals k = some b → e.2 = .batch be → C b be

/-- A property of batches that holds at their start, and that steps which meet a
condition keep, holds of a batch after every run whose steps of that batch meet it. -/
theorem batchStep_run_invariant {I : Batch → Prop} {C : Batch → BatchEvent → Prop} {k : ℕ}
    (h0 : ∀ urls outputDir mkdir b, Started config urls outputDir mkdir b → I b)
    (hstep : ∀ p b e p' b', I b → C b e → batchStep env config p b e = some (p', b') → I b')
    {s : State} {es : List (ℕ × DownloaderEvent)}
    (hm : Meets (step env config) (OnSteps k C) init es)
    (hr : run (step env config) init es = some s) : ∀ b, s.locals k = some b → I b := by
  refine Par.local_run_invariant (I := fun o => ∀ b, o = some b → I b)
    (C := fun o e => ∀ b be, o = some b → e = .batch be → C b be) (fun p o e p' o' hI hok hs => ?_)
    (fun b hb => by cases hb) hm hr
  cases o with
  | none =>
    cases e with
    | call urls outputDir mkdir =>
      obtain ⟨-, rfl⟩ := Prod.mk.inj (Option.some.inj hs)
      rintro _ ⟨⟩
      exact h0 urls outputDir mkdir _ (start_cases config urls outputDir mkdir)
    | batch e => cases hs
  | some b =>
    cases e with
    | call urls outputDir mkdir => cases hs
    | batch e =>
      obtain ⟨⟨q, b'⟩, hb, heq⟩ := Option.map_eq_some_iff.1 hs
      obtain ⟨-, rfl⟩ := Prod.mk.inj heq
      rintro _ ⟨⟩
      exact hstep p b e q b' (hI b rfl) (hok b e rfl rfl) hb

/-- The same, with what a step can be. -/
theorem batch_run_invariant {I : Batch → Prop} {C : Batch → BatchEvent → Prop} {k : ℕ}
    (h0 : ∀ urls outputDir mkdir b, Started config urls outputDir mkdir b → I b)
    (hstep : ∀ p b e p' b', I b → C b e → BatchMove env config p b e p' b' → I b')
    {s : State} {es : List (ℕ × DownloaderEvent)}
    (hm : Meets (step env config) (OnSteps k C) init es)
    (hr : run (step env config) init es = some s) : ∀ b, s.locals k = some b → I b :=
  batchStep_run_invariant h0
    (fun p b e p' b' hI hok hs => hstep p b e p' b' hI hok (batchStep_cases hs)) hm hr

/-- A property of batches that holds at their start and that every step keeps. -/
theorem batch_invariant {I : Batch → Prop}
    (h0 : ∀ urls outputDir mkdir b, Started config urls outputDir mkdir b → I b)
    (hstep : ∀ p b e p' b', I b → BatchMove env config p b e p' b' → I b')
    {s : State} (h : Reaches (step env config) init s) {k : ℕ} {b : Batch}
    (hb : s.locals k = some b) : I b := by
  obtain ⟨es, hr⟩ := h
  exact batch_run_invariant (C := fun _ _ => True) (k := k) h0
    (fun p b e p' b' hI _ hm => hstep p b e p' b' hI hm)
    (Meets.of_forall (fun _ _ _ _ _ _ _ => trivial) init es) hr b hb

/-- A property of tasks that their sections keep holds of every task after a step. -/
theorem tasks_step {P : Task → Prop} (h : TaskInvariant env config P) {s s' : State}
    {e : ℕ × DownloaderEvent}
    (hall : ∀ k b j t, s.locals k = some b → b.tasks j = some t → P t)
    (hs : step env config s e = some s') :
    ∀ k b j t, s'.locals k = some b → b.tasks j = some t → P t := by
  obtain ⟨k, e⟩ := e
  intro k' b' j t hb ht
  rcases step_local hs hb with ⟨-, hb⟩ | ⟨-, _, _, _, -, hst⟩ | ⟨rfl, b, be, hb, -, hm⟩
  · exact hall k' b' j t hb ht
  · exact h.start hst ht
  · exact h.move (hall k' b · · hb) hm j t ht

/-- Steps of the task `j` of the call 0. -/
def taskSteps (j : ℕ) (es : List TaskEvent) : List (ℕ × DownloaderEvent) :=
  es.map fun e => (0, .batch (.task j e))

/-- A task opens an HTTP/2 connection and runs a request on it. -/
def opensH2 : List TaskEvent :=
  [.pool (.decide (fun _ => .ready) fun _ => .ready), .pool (.connect (.ok .http2)), .pool .insert]

/-- A task from its first poll to a request on a connection it opens. -/
def toRequest : List TaskEvent :=
  [.poll 0, .acquireGlobal, .lockHostSems, .acquireHost] ++ opensH2

/-- A task from its first poll to the end of its image write. -/
def toWritten (bytes : Bytes) : List TaskEvent :=
  toRequest ++ [.request [.image bytes], .pool .finish, .settle 0 0, .perform .ok]

/-- The phase of the call 0. -/
def phaseOf (s : State) : Option Phase :=
  (s.locals 0).map Batch.phase

/-- One URL at the host `h`. -/
def oneUrl : Env :=
  Env.ofTable [("http://h/a.png", ⟨some "http", some ⟨"h", none⟩, some "/a.png"⟩)]

/-- A batch timeout of five seconds. -/
def timed : Config :=
  { batchTimeout := some (Duration.fromSecs 5) }

end Downloader

end Imgdl
