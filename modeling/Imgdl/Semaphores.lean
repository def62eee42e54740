import Imgdl.Batch

/-!
# The semaphores of the hosts

A batch has one semaphore for each host string, created when the first task of the host
asks for it. `SemMove` is what a section of a task does to these semaphores, and
`HostSems` the invariant of a batch : every host has a semaphore of its own, a task waits
for or holds a permit of the semaphore of its own host, and the free permits of each
semaphore and the tasks that hold one of its permits make up `max_concurrent_per_host`.
-/

set_option linter.unusedSectionVars false

namespace Imgdl

open Transition Interleaving

/-- There is a task, and it is at a stage that satisfies `P`. -/
def AtStage (P : Stage → Prop) (o : Option Task) : Prop :=
  ∃ t, o = some t ∧ P t.stage

@[simp] theorem atStage_some {P : Stage → Prop} {t : Task} : AtStage P (some t) ↔ P t.stage := by
  simp [AtStage]

@[simp] theorem atStage_none {P : Stage → Prop} : ¬AtStage P none := by
  simp [AtStage]

/-- The target of the URL of a task, and the semaphore the task waits for or has a permit
of. -/
def Stage.hostSem : Stage → Option (Target × SemId)
  | hostWait home sem => some (home, sem)
  | working home sem _ => some (home, sem)
  | _ => none

theorem Stage.hostSem_of_holdsHost {st : Stage} {sem : SemId} (h : st.holdsHost = some sem) :
    ∃ home, st.hostSem = some (home, sem) := by
  cases st with
  | working home sem' work =>
    obtain rfl := Option.some.inj h
    exact ⟨home, rfl⟩
  | _ => cases h

/-- What a section does to the semaphores of the hosts. -/
inductive SemMove (config : Config) (sc : Scope) (st : Stage) : Scope → Stage → Prop
  | keep {sc' : Scope} {st' : Stage} : sc'.hostSems = sc.hostSems → sc'.permits = sc.permits →
    sc'.nextSem = sc.nextSem → st'.hostSem = st.hostSem → st'.holdsHost = st.holdsHost →
    SemMove config sc st sc' st'
  | found {home : Target} {sem : SemId} : st = .hostLock home →
    sc.hostSems home.host = some sem → SemMove config sc st sc (.hostWait home sem)
  | fresh {home : Target} : st = .hostLock home → sc.hostSems home.host = none →
    SemMove config sc st
      { sc with
        hostSems := Function.update sc.hostSems home.host (some sc.nextSem)
        permits := Function.update sc.permits sc.nextSem config.maxConcurrentPerHost
        nextSem := sc.nextSem + 1 }
      (.hostWait home sc.nextSem)
  | take {home : Target} {sem : SemId} {work : Work} : st = .hostWait home sem →
    0 < sc.permits sem →
    SemMove config sc st { sc with permits := Function.update sc.permits sem (sc.permits sem - 1) }
      (.working home sem work)
  | give {sc₀ : Scope} {st' : Stage} : sc₀.hostSems = sc.hostSems → sc₀.permits = sc.permits →
    sc₀.nextSem = sc.nextSem → st'.hostSem = none → SemMove config sc st (sc₀.release st) st'

variable {env : Env} {config : Config} {p p' : PoolState} {b b' : Batch}

theorem TaskMove.sem {sc sc' : Scope} {t t' : Task} {e : TaskEvent}
    (hm : TaskMove env config p sc t e p' sc' t') : SemMove config sc t.stage sc' t'.stage := by
  cases hm with
  | rejected hs | accepted hs | acquireGlobal hs | pool hs | answered hs | retry hs | redirect hs
  | store hs | resume hs | sidecar hs =>
    exact .keep rfl rfl rfl (by rw [hs]; rfl) (by rw [hs]; rfl)
  | perform => exact .keep rfl rfl rfl rfl rfl
  | lockFound hs hsem => exact .found hs hsem
  | lockFresh hs hsem => exact .fresh hs hsem
  | acquireHost hs hfree => exact .take hs hfree
  | burst | failed | unnamed | imageFailed | imageDone | sidecarDone =>
    exact .give rfl rfl rfl rfl
  | stopped _ he _ => rcases he with ⟨-, rfl⟩ | ⟨-, rfl⟩ <;> exact .give rfl rfl rfl rfl

/-- Every host has a semaphore of its own, whose permits are free or held. -/
structure HostSems (config : Config) (sc : Scope) (tasks : ℕ → Option Task) : Prop where
  lt_next : ∀ host sem, sc.hostSems host = some sem → sem < sc.nextSem
  inj : ∀ host host' sem, sc.hostSems host = some sem → sc.hostSems host' = some sem →
    host = host'
  own : ∀ j t home sem, tasks j = some t → t.stage.hostSem = some (home, sem) →
    sc.hostSems home.host = some sem
  permits : ∀ host sem, sc.hostSems host = some sem →
    Permits config.maxConcurrentPerHost (sc.permits sem)
      (AtStage fun st => st.holdsHost = some sem) tasks

namespace HostSems

variable {sc sc' : Scope} {tasks : ℕ → Option Task} {j : ℕ} {t t' : Task}

/-- Nobody holds a permit of a semaphore that is yet to be created. -/
theorem not_holdsHost_next (h : HostSems config sc tasks) (i : ℕ) :
    ¬AtStage (fun st => st.holdsHost = some sc.nextSem) (tasks i) := by
  rintro ⟨u, hu, hsem⟩
  obtain ⟨home, hhome⟩ := Stage.hostSem_of_holdsHost hsem
  exact absurd (h.lt_next _ _ (h.own i u home _ hu hhome)) (lt_irrefl _)

theorem start {urls : List String} {outputDir : String} {mkdir : Except String Unit}
    (hs : Started config urls outputDir mkdir b) : HostSems config b.scope b.tasks := by
  have hown : ∀ j t home sem, b.tasks j = some t → t.stage.hostSem = some (home, sem) →
      b.scope.hostSems home.host = some sem := by
    intro j t home sem ht hsem
    obtain ⟨url, firstIndex, rfl⟩ := hs.task_eq ht
    cases hsem
  cases hs with
  | empty | failed | spawned =>
    exact ⟨fun _ _ h => (nomatch h), fun _ _ _ h => (nomatch h), hown, fun _ _ h => (nomatch h)⟩

/-- Every task is at the semaphore of its own host if this holds of the moved one. -/
theorem own_update (h : HostSems config sc tasks) {hostSems : String → Option SemId}
    (hold : ∀ host sem, sc.hostSems host = some sem → hostSems host = some sem)
    (hnew : ∀ home sem, t'.stage.hostSem = some (home, sem) → hostSems home.host = some sem) :
    ∀ i u home sem, Function.update tasks j (some t') i = some u →
      u.stage.hostSem = some (home, sem) → hostSems home.host = some sem := by
  intro i u home sem hu hsem
  rcases update_eq_some hu with ⟨rfl, rfl⟩ | ⟨-, hu⟩
  · exact hnew home sem hsem
  · exact hold _ _ (h.own i u home sem hu hsem)

/-- The balance of a semaphore of which the moved task neither takes nor gives a permit. -/
theorem permits_same (h : HostSems config sc tasks) (ht : tasks j = some t) {host : String}
    {sem : SemId} (hhost : sc.hostSems host = some sem)
    (hsame : t'.stage.holdsHost = some sem ↔ t.stage.holdsHost = some sem) :
    Permits config.maxConcurrentPerHost (sc.permits sem)
      (AtStage fun st => st.holdsHost = some sem) (Function.update tasks j (some t')) := by
  refine (h.permits host sem hhost).same ?_
  rwa [ht, atStage_some, atStage_some]

theorem found {home : Target} {sem₀ : SemId} (h : HostSems config sc tasks)
    (ht : tasks j = some t) (hs : t.stage = .hostLock home)
    (hs' : t'.stage = .hostWait home sem₀) (hhome : sc.hostSems home.host = some sem₀) :
    HostSems config sc (Function.update tasks j (some t')) := by
  refine ⟨h.lt_next, h.inj, h.own_update (fun _ _ => id) fun home' sem hsem => ?_,
    fun host sem hhost => h.permits_same ht hhost ?_⟩
  · rw [hs'] at hsem
    obtain ⟨rfl, rfl⟩ := Prod.mk.inj (Option.some.inj hsem)
    exact hhome
  · rw [hs, hs']
    rfl

/-- The semaphore of a host is created. -/
theorem fresh {home : Target} (h : HostSems config sc tasks) (ht : tasks j = some t)
    (hs : t.stage = .hostLock home) (hs' : t'.stage = .hostWait home sc.nextSem)
    (hnone : sc.hostSems home.host = none) : HostSems config
      { sc with
        hostSems := Function.update sc.hostSems home.host (some sc.nextSem)
        permits := Function.update sc.permits sc.nextSem config.maxConcurrentPerHost
        nextSem := sc.nextSem + 1 }
      (Function.update tasks j (some t')) := by
  have old : ∀ host sem, sc.hostSems host = some sem →
      Function.update sc.hostSems home.host (some sc.nextSem) host = some sem := by
    intro host sem hhost
    have hne : host ≠ home.host := by
      rintro rfl
      rw [hnone] at hhost
      cases hhost
    rw [Function.update_of_ne hne, hhost]
  refine ⟨fun host sem hhost => ?_, fun host host' sem hhost hhost' => ?_,
    h.own_update old fun home' sem hsem => ?_, fun host sem hhost => ?_⟩
  · rcases update_eq_some hhost with ⟨-, rfl⟩ | ⟨-, hhost⟩
    · exact Nat.lt_succ_self _
    · exact Nat.lt_succ_of_lt (h.lt_next host sem hhost)
  · rcases update_eq_some hhost with ⟨rfl, rfl⟩ | ⟨-, hhost⟩ <;>
      rcases update_eq_some hhost' with ⟨rfl, hsem⟩ | ⟨-, hhost'⟩
    · rfl
    · exact absurd (h.lt_next _ _ hhost') (lt_irrefl _)
    · exact absurd (hsem ▸ h.lt_next _ _ hhost) (lt_irrefl _)
    · exact h.inj host host' sem hhost hhost'
  · rw [hs'] at hsem
    obtain ⟨rfl, rfl⟩ := Prod.mk.inj (Option.some.inj hsem)
    exact Function.update_self ..
  · rcases update_eq_some hhost with ⟨rfl, rfl⟩ | ⟨-, hhost⟩
    · simp only [Function.update_self]
      refine (Permits.full h.not_holdsHost_next).same ?_
      rw [ht, atStage_some, atStage_some, hs', hs]
      rfl
    · simp only [Function.update_of_ne (h.lt_next host sem hhost).ne]
      refine h.permits_same ht hhost ?_
      rw [hs', hs]
      rfl

/-- A permit is taken. -/
theorem take {home : Target} {sem₀ : SemId} {work : Work} (h : HostSems config sc tasks)
    (ht : tasks j = some t) (hs : t.stage = .hostWait home sem₀)
    (hs' : t'.stage = .working home sem₀ work) (hfree : 0 < sc.permits sem₀) : HostSems config
      { sc with permits := Function.update sc.permits sem₀ (sc.permits sem₀ - 1) }
      (Function.update tasks j (some t')) := by
  refine ⟨h.lt_next, h.inj, h.own_update (fun _ _ => id) fun home' sem hsem => ?_,
    fun host sem hhost => ?_⟩
  · rw [hs'] at hsem
    obtain ⟨rfl, rfl⟩ := Prod.mk.inj (Option.some.inj hsem)
    exact h.own j t home sem₀ ht (by rw [hs]; rfl)
  · rcases eq_or_ne sem sem₀ with rfl | hne
    · simp only [Function.update_self]
      refine (h.permits host sem hhost).take hfree ?_ ?_
      · rw [ht, atStage_some, hs]
        simp [Stage.holdsHost]
      · rw [atStage_some, hs']
        rfl
    · simp only [Function.update_of_ne hne]
      refine h.permits_same ht hhost ?_
      rw [hs', hs]
      simp [Stage.holdsHost, hne.symm]

/-- The permit of the task, if it has one, goes back. -/
theorem give (h : HostSems config sc tasks) (ht : tasks j = some t)
    (hnone : t'.stage.hostSem = none) :
    HostSems config (sc.release t.stage) (Function.update tasks j (some t')) := by
  have hholds : t'.stage.holdsHost = none := by
    refine Option.eq_none_iff_forall_ne_some.2 fun sem hsem => ?_
    obtain ⟨home, hhome⟩ := Stage.hostSem_of_holdsHost hsem
    rw [hnone] at hhome
    cases hhome
  refine ⟨h.lt_next, h.inj, h.own_update (fun _ _ => id) fun home sem hhome => ?_,
    fun host sem hhost => ?_⟩
  · rw [hnone] at hhome
    cases hhome
  · by_cases hmine : t.stage.holdsHost = some sem
    · simp only [Scope.release, hmine, Function.update_self]
      refine (h.permits host sem hhost).give ?_ ?_
      · rwa [ht, atStage_some]
      · simp [hholds]
    · have hsame : (sc.release t.stage).permits sem = sc.permits sem := by
        unfold Scope.release
        cases hold : t.stage.holdsHost with
        | none => rfl
        | some sem' =>
          have hne : sem ≠ sem' := fun heq => hmine (by rw [hold, heq])
          simp [hne]
      rw [hsame]
      refine h.permits_same ht hhost ?_
      simp [hholds, hmine]

/-- A section of a task keeps the semaphores and their permits. -/
theorem task (h : HostSems config sc tasks) (ht : tasks j = some t)
    (hm : SemMove config sc t.stage sc' t'.stage) :
    HostSems config sc' (Function.update tasks j (some t')) := by
  -- the invariant reads only the fields that the equations of `keep` and `give` fix
  have congr : ∀ {sc₁ sc₂ : Scope} {f : ℕ → Option Task}, sc₁.hostSems = sc₂.hostSems →
      sc₁.permits = sc₂.permits → sc₁.nextSem = sc₂.nextSem → HostSems config sc₂ f →
        HostSems config sc₁ f := by
    rintro sc₁ sc₂ f h1 h2 h3 ⟨ha, hb, hc, hd⟩
    exact ⟨by rwa [h1, h3], by rwa [h1], by rwa [h1], by rwa [h1, h2]⟩
  generalize hst' : t'.stage = st' at hm
  cases hm with
  | keep hsems hpermits hnext hsem hholds =>
    refine congr hsems hpermits hnext ⟨h.lt_next, h.inj, h.own_update (fun _ _ => id) ?_, ?_⟩
    · intro home sem hhome
      exact h.own j t home sem ht (by rw [← hsem, ← hst', hhome])
    · intro host sem hhost
      exact h.permits_same ht hhost (by rw [hst', hholds])
  | found hs hhome => exact h.found ht hs hst' hhome
  | fresh hs hnone => exact h.fresh ht hs hst' hnone
  | take hs hfree => exact h.take ht hs hst' hfree
  | give hsems hpermits hnext hnone =>
    exact (congr hsems hpermits hnext h).give ht (by rw [hst', hnone])

/-- The other steps of a call leave the semaphores and the tasks alone. -/
theorem step {e : BatchEvent} (h : HostSems config b.scope b.tasks)
    (hm : BatchMove env config p b e p' b') : HostSems config b'.scope b'.tasks := by
  cases hm with
  | task ht _ hm => exact h.task ht hm.sem
  | joined | joinedPanic | summarized => exact h
  | summaryPerformed => exact ⟨h.lt_next, h.inj, h.own, h.permits⟩
  | closed =>
    rw [close_eq]
    exact h

end HostSems

end Imgdl
