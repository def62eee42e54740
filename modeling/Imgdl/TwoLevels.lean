import Imgdl.Semaphores

/-!
# The two levels of semaphores

A task waits for a permit of the semaphore of its host while it holds a global one. The
holders of host permits wait for no semaphore, so among the tasks that have not ended there
is always one that can go on (`exists_canStep`). `TwoLevels` says this together with the
balance of every semaphore, and holds of a batch in every run (`two_levels`).
-/

set_option linter.unusedSectionVars false

namespace Imgdl

open Transition Interleaving

variable {env : Env} {config : Config} {p p' : PoolState} {b b' : Batch}

/-! ## The global semaphore -/

/-- The balance of the global semaphore. -/
def GlobalSem (config : Config) (sc : Scope) (tasks : ℕ → Option Task) : Prop :=
  Permits config.maxConcurrentGlobal sc.globalSem (AtStage fun st => st.holdsGlobal = true) tasks

/-- What a section does to the global semaphore. -/
inductive GlobalMove (sc : Scope) (st : Stage) (sc' : Scope) (st' : Stage) : Prop
  | keep : sc'.globalSem = sc.globalSem → st'.holdsGlobal = st.holdsGlobal →
    GlobalMove sc st sc' st'
  | take : 0 < sc.globalSem → st.holdsGlobal = false → sc'.globalSem = sc.globalSem - 1 →
    st'.holdsGlobal = true → GlobalMove sc st sc' st'
  | give : sc'.globalSem = (if st.holdsGlobal then sc.globalSem + 1 else sc.globalSem) →
    st'.holdsGlobal = false → GlobalMove sc st sc' st'

theorem TaskMove.global {sc sc' : Scope} {t t' : Task} {e : TaskEvent}
    (hm : TaskMove env config p sc t e p' sc' t') : GlobalMove sc t.stage sc' t'.stage := by
  cases hm with
  | rejected hs | accepted hs | lockFound hs | lockFresh hs | acquireHost hs | pool hs
  | answered hs | retry hs | redirect hs | store hs | resume hs | sidecar hs =>
    exact .keep rfl (by rw [hs]; rfl)
  | perform => exact .keep rfl rfl
  | acquireGlobal hs hfree => exact .take hfree (by rw [hs]; rfl) rfl rfl
  | burst | failed | unnamed | imageFailed | imageDone | sidecarDone => exact .give rfl rfl
  | stopped _ he _ => rcases he with ⟨-, rfl⟩ | ⟨-, rfl⟩ <;> exact .give rfl rfl

namespace GlobalSem

variable {sc sc' : Scope} {tasks : ℕ → Option Task} {j : ℕ} {t t' : Task}

theorem start {urls : List String} {outputDir : String} {mkdir : Except String Unit}
    (hs : Started config urls outputDir mkdir b) : GlobalSem config b.scope b.tasks := by
  have hnone : ∀ i, ¬AtStage (fun st => st.holdsGlobal = true) (b.tasks i) := by
    rintro i ⟨t, ht, hholds⟩
    obtain ⟨url, firstIndex, rfl⟩ := hs.task_eq ht
    cases hholds
  cases hs with
  | empty | failed | spawned => exact .full hnone

theorem task (h : GlobalSem config sc tasks) (ht : tasks j = some t)
    (hm : GlobalMove sc t.stage sc' t'.stage) :
    GlobalSem config sc' (Function.update tasks j (some t')) := by
  unfold GlobalSem
  cases hm with
  | keep hfree hholds =>
    rw [hfree]
    refine h.same ?_
    rw [ht, atStage_some, atStage_some, hholds]
  | take hfree hout hsc hin =>
    rw [hsc]
    exact h.take hfree (by rw [ht, atStage_some, hout]; decide) (atStage_some.2 hin)
  | give hsc hout =>
    rw [hsc]
    have hnot : ¬AtStage (fun st => st.holdsGlobal = true) (some t') := by
      rw [atStage_some, hout]
      decide
    split_ifs with hin
    · exact h.give (by rw [ht]; exact atStage_some.2 hin) hnot
    · exact h.same (iff_of_false hnot (by rw [ht, atStage_some]; exact hin))

theorem step {e : BatchEvent} (h : GlobalSem config b.scope b.tasks)
    (hm : BatchMove env config p b e p' b') : GlobalSem config b'.scope b'.tasks := by
  cases hm with
  | task ht _ hm => exact h.task ht hm.global
  | joined | joinedPanic | summarized | summaryPerformed => exact h
  | closed =>
    rw [close_eq]
    exact h

end GlobalSem

/-! ## Some task can go on -/

/-- The task is in the retry-wrapped request. -/
def Stage.inRequest : Stage → Bool
  | working _ _ (.attempt _ _ _) => true
  | working _ _ (.backoff _ _ _) => true
  | _ => false

/-- The event ends a task where it is. -/
def TaskEvent.stops : TaskEvent → Bool
  | panic => true
  | cancel => true
  | _ => false

/-- The task is in its request, or its next section can run. -/
def CanStep (env : Env) (config : Config) (p : PoolState) (sc : Scope) (t : Task) : Prop :=
  t.stage.inRequest = true ∨
    ∃ e : TaskEvent, e.stops = false ∧ (taskStep env config p sc t e).isSome = true

/-- A task at a write has started it. -/
def WriteStarted (t : Task) : Prop :=
  ∀ home sem work, t.stage = .working home sem work → t.stage.inRequest = true ∨ t.job ≠ .idle

theorem writeStarted_invariant : TaskInvariant env config WriteStarted := by
  refine ⟨fun _ _ _ _ _ _ h => (nomatch h), fun {p p' sc sc' t t' e} hw hm => ?_⟩
  intro home sem work hs
  cases hm with
  | acquireHost | pool | answered | retry | redirect | resume => exact Or.inl rfl
  | store | sidecar | perform => exact Or.inr (by simp [Task.write])
  | stopped _ he _ => rcases he with ⟨-, rfl⟩ | ⟨-, rfl⟩ <;> cases hs
  | _ => cases hs

theorem canStep_of_working {sc : Scope} {t : Task} {home : Target} {sem : SemId} {work : Work}
    (hw : WriteStarted t) (hs : t.stage = .working home sem work) : CanStep env config p sc t := by
  rcases hw home sem work hs with hin | hjob
  · exact Or.inl hin
  · cases hj : t.job with
    | idle => exact absurd hj hjob
    | queued call =>
      exact Or.inr ⟨.perform .ok, rfl, by rw [taskStep, hj]; rfl⟩
    | done r =>
      cases work with
      | attempt | backoff => exact Or.inl (by rw [hs]; rfl)
      | imageWrite | sidecarWrite =>
        exact Or.inr ⟨.written 0 "", rfl, by simp only [taskStep, hs, hj]; rfl⟩

/-- Among the tasks that have not ended is one that can go on. -/
theorem exists_canStep {sc : Scope} {tasks : ℕ → Option Task} (p : PoolState)
    (hglobal : GlobalSem config sc tasks) (hhost : HostSems config sc tasks)
    (hwrite : ∀ j t, tasks j = some t → WriteStarted t) (hg : 1 ≤ config.maxConcurrentGlobal)
    (hh : 1 ≤ config.maxConcurrentPerHost) {j : ℕ} {t : Task} (ht : tasks j = some t)
    (halive : t.stage.alive = true) :
    ∃ i u, tasks i = some u ∧ u.stage.alive = true ∧ CanStep env config p sc u := by
  -- a holder of a host permit waits for no semaphore
  have working : ∀ {i : ℕ} {u : Task} {home : Target} {sem : SemId} {work : Work},
      tasks i = some u → u.stage = .working home sem work →
        ∃ i u, tasks i = some u ∧ u.stage.alive = true ∧ CanStep env config p sc u :=
    fun hu hs => ⟨_, _, hu, by rw [hs]; rfl, canStep_of_working (hwrite _ _ hu) hs⟩
  -- a holder of a global permit waits for a permit of its host at most
  have holder : ∀ {i : ℕ} {u : Task}, tasks i = some u → u.stage.holdsGlobal = true →
      ∃ i u, tasks i = some u ∧ u.stage.alive = true ∧ CanStep env config p sc u := by
    intro i u hu hholds
    cases hs : u.stage with
    | working home sem work => exact working hu hs
    | hostLock home =>
      refine ⟨i, u, hu, by rw [hs]; rfl, Or.inr ⟨.lockHostSems, rfl, ?_⟩⟩
      simp only [taskStep, hs]
      cases sc.hostSems home.host <;> rfl
    | hostWait home sem =>
      by_cases hfree : 0 < sc.permits sem
      · refine ⟨i, u, hu, by rw [hs]; rfl, Or.inr ⟨.acquireHost, rfl, ?_⟩⟩
        simp only [taskStep, hs, if_pos hfree]
        rfl
      · have hown := hhost.own i u home sem hu (by rw [hs]; rfl)
        have hpermits := hhost.permits home.host sem hown
        rw [Nat.eq_zero_of_not_pos hfree] at hpermits
        obtain ⟨k, v, hv, hsem⟩ := hpermits.exists_holds hh
        cases hst : v.stage with
        | working home' sem' work => exact working hv hst
        | _ => simp [hst, Stage.holdsHost] at hsem
    | _ => simp [hs, Stage.holdsGlobal] at hholds
  cases hs : t.stage with
  | spawned =>
    refine ⟨j, t, ht, halive, Or.inr ⟨.poll 0, rfl, ?_⟩⟩
    simp only [taskStep, hs]
    cases parseTarget env.http config t.url <;> rfl
  | globalWait home =>
    by_cases hfree : 0 < sc.globalSem
    · refine ⟨j, t, ht, halive, Or.inr ⟨.acquireGlobal, rfl, ?_⟩⟩
      simp only [taskStep, hs, if_pos hfree]
      rfl
    · unfold GlobalSem at hglobal
      rw [Nat.eq_zero_of_not_pos hfree] at hglobal
      obtain ⟨k, v, hv, hholds⟩ := hglobal.exists_holds hg
      exact holder hv hholds
  | hostLock | hostWait | working => exact holder ht (by rw [hs]; rfl)
  | returned | panicked | cancelled => simp [hs, Stage.alive] at halive

/-! ## The scheme -/

/-- The target of the URL of a task that has been parsed. -/
def Stage.home : Stage → Option Target
  | globalWait home => some home
  | hostLock home => some home
  | hostWait home _ => some home
  | working home _ _ => some home
  | _ => none

/-- A task is at the target of its URL. -/
def AtHome (env : Env) (config : Config) (t : Task) : Prop :=
  ∀ home, t.stage.home = some home → parseTarget env.http config t.url = .ok home

theorem atHome_invariant : TaskInvariant env config (AtHome env config) := by
  refine ⟨fun _ _ _ _ h => (nomatch h), fun {p p' sc sc' t t' e} hh hm => ?_⟩
  intro home hs
  cases hm with
  | accepted _ hparse =>
    obtain rfl := Option.some.inj hs
    exact hparse
  | acquireGlobal hst | lockFound hst | lockFresh hst | acquireHost hst | pool hst | answered hst
  | retry hst | redirect hst | store hst | resume hst | sidecar hst =>
    exact hh home (by rw [hst]; exact hs)
  | perform => exact hh home hs
  | stopped _ he _ => rcases he with ⟨-, rfl⟩ | ⟨-, rfl⟩ <;> cases hs
  | _ => cases hs

/-- What the two levels of semaphores guarantee in a state of a batch. -/
structure TwoLevels (env : Env) (config : Config) (p : PoolState) (b : Batch) : Prop where
  /-- At most `max_concurrent_global` tasks are past the global semaphore. -/
  bounded : ∃ n, Count (AtStage fun st => st.holdsGlobal = true) b.tasks n ∧
    n ≤ config.maxConcurrentGlobal
  /-- The tasks of one host share its semaphore. -/
  shared : ∀ i j t u home home' atHome atHome' sem sem', b.tasks i = some t → b.tasks j = some u →
    parseTarget env.http config t.url = .ok home → parseTarget env.http config u.url = .ok home' →
    home.host = home'.host → t.stage.hostSem = some (atHome, sem) →
    u.stage.hostSem = some (atHome', sem') → sem = sem'
  global : GlobalSem config b.scope b.tasks
  host : ∀ host sem, b.scope.hostSems host = some sem →
    Permits config.maxConcurrentPerHost (b.scope.permits sem)
      (AtStage fun st => st.holdsHost = some sem) b.tasks
  progress : ∀ j t, b.tasks j = some t → t.stage.alive = true →
    ∃ i u, b.tasks i = some u ∧ u.stage.alive = true ∧ CanStep env config p b.scope u

namespace TwoLevels

theorem of_invariants (p : PoolState) (hglobal : GlobalSem config b.scope b.tasks)
    (hhost : HostSems config b.scope b.tasks) (hwrite : ∀ j t, b.tasks j = some t → WriteStarted t)
    (hhome : ∀ j t, b.tasks j = some t → AtHome env config t) (hg : 1 ≤ config.maxConcurrentGlobal)
    (hh : 1 ≤ config.maxConcurrentPerHost) : TwoLevels env config p b where
  bounded := by
    obtain ⟨n, hn, hsum⟩ := hglobal
    exact ⟨n, hn, by omega⟩
  shared := by
    intro i j t u home home' target target' sem sem' ht hu hparse hparse' heq hsem hsem'
    have at_home : ∀ {st : Stage} {home sem}, st.hostSem = some (home, sem) →
        st.home = some home := by
      intro st home sem h
      cases st with
      | hostWait | working =>
        obtain ⟨rfl, -⟩ := Prod.mk.inj (Option.some.inj h)
        rfl
      | _ => cases h
    obtain rfl := Except.ok.inj (hparse.symm.trans (hhome i t ht _ (at_home hsem)))
    obtain rfl := Except.ok.inj (hparse'.symm.trans (hhome j u hu _ (at_home hsem')))
    have hown := hhost.own i t _ sem ht hsem
    have hown' := hhost.own j u _ sem' hu hsem'
    rw [heq] at hown
    exact Option.some.inj (hown.symm.trans hown')
  global := hglobal
  host := hhost.permits
  progress _ _ ht halive := exists_canStep p hglobal hhost hwrite hg hh ht halive

end TwoLevels

namespace Downloader

/-- The two levels of semaphores neither overshoot nor deadlock, in any state of a batch. -/
theorem two_levels {s : State} (h : Reaches (step env config) init s)
    (hg : 1 ≤ config.maxConcurrentGlobal) (hh : 1 ≤ config.maxConcurrentPerHost) {k : ℕ}
    (hb : s.locals k = some b) : TwoLevels env config s.shared b := by
  have hwrite : TaskInvariant env config WriteStarted := writeStarted_invariant
  have hhome : TaskInvariant env config (AtHome env config) := atHome_invariant
  have hinv := batch_invariant (I := fun b => GlobalSem config b.scope b.tasks ∧
      HostSems config b.scope b.tasks ∧ (∀ j t, b.tasks j = some t → WriteStarted t) ∧
      ∀ j t, b.tasks j = some t → AtHome env config t)
    (fun _ _ _ _ hs => ⟨GlobalSem.start hs, HostSems.start hs, fun _ _ => hwrite.start hs,
      fun _ _ => hhome.start hs⟩)
    (fun _ _ _ _ _ hI hm => ⟨hI.1.step hm, hI.2.1.step hm, hwrite.move hI.2.2.1 hm,
      hhome.move hI.2.2.2 hm⟩) h hb
  exact .of_invariants _ hinv.1 hinv.2.1 hinv.2.2.1 hinv.2.2.2 hg hh

/-- One permit of each kind. -/
def single : Config :=
  { maxConcurrentGlobal := 1, maxConcurrentPerHost := 1 }

/-- Two URLs at the host `h`. -/
def contended : Env :=
  Env.ofTable [("http://h/1.png", ⟨some "http", some ⟨"h", none⟩, some "/1.png"⟩),
    ("http://h/2.png", ⟨some "http", some ⟨"h", none⟩, some "/2.png"⟩)]

/-- The first task has both permits when the second one wants the global one. -/
def singleRun : List (ℕ × DownloaderEvent) :=
  (0, .call ["http://h/1.png", "http://h/2.png"] "out" (.ok ())) ::
    taskSteps 0 [.poll 0, .acquireGlobal, .lockHostSems, .acquireHost] ++ taskSteps 1 [.poll 0]

theorem two_levels_singleRun : ∃ s b, run (step contended single) init singleRun = some s ∧
    s.locals 0 = some b ∧ b.scope.globalSem = 0 ∧ TwoLevels contended single s.shared b := by
  have heval : (run (step contended single) init singleRun).map
      (fun s => (s.locals 0).map fun b => b.scope.globalSem) = some (some 0) := by
    decide +kernel
  obtain ⟨s, hr, hs⟩ := Option.map_eq_some_iff.1 heval
  obtain ⟨b, hb, hfree⟩ := Option.map_eq_some_iff.1 hs
  exact ⟨s, b, hr, hb, hfree, two_levels ⟨_, hr⟩ (by decide) (by decide) hb⟩

end Downloader

end Imgdl
