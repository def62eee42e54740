import Imgdl.Cancellation
import Imgdl.Leftovers
import Imgdl.TwoLevels

/-!
# What a call leaves behind

A call whose deadline does not fire returns once its join set is empty, so none of its tasks goes
on : they have ended, every permit is back in its semaphore, and none of them is in the pool. All
that can still happen is a blocking write that a panicked task did not wait for
(`Downloader.returned_quiet`).
-/

set_option linter.unusedSectionVars false

namespace Imgdl

open Transition Interleaving

variable {env : Env} {config : Config} {p p' : PoolState} {b b' : Batch}

/-- A task that returned has no write under way. -/
structure Written (env : Env) (config : Config) (t : Task) : Prop where
  storing : Storing env config t
  done : ∀ r, t.stage = .returned r → ∀ call, t.job ≠ .queued call

theorem written_invariant : TaskInvariant env config (Written env config) := by
  refine ⟨fun url firstIndex outputDir => ⟨storing_invariant.spawn url firstIndex outputDir,
    fun _ h => (nomatch h)⟩, fun {p p' sc sc' t t' e} h hm => ⟨storing_invariant.step h.storing hm,
    fun r hr call => ?_⟩⟩
  have fetching : t.stage.fetching = true → t.job ≠ .queued call := fun hf => by
    rw [(h.storing.fetch hf).2]
    simp
  cases hm with
  | rejected hs | failed hs => exact fetching (by rw [hs]; rfl)
  | imageFailed _ hjob | imageDone _ hjob | sidecarDone _ hjob =>
    change t.job ≠ _
    simp [hjob]
  | perform => simp
  | stopped _ he _ => rcases he with ⟨-, rfl⟩ | ⟨-, rfl⟩ <;> cases hr
  | _ => cases hr

namespace Downloader

variable {s s' : State} {k : ℕ}

/-- The deadline does not fire. -/
def InTime (_ : Batch) (e : BatchEvent) : Prop :=
  ∀ elapsed total, e ≠ .deadline elapsed total

/-- A call leaves the collection with an empty join set, and returns without a write of its
own under way. -/
structure Drained (b : Batch) : Prop where
  joined : b.phase ≠ .collecting → b.joinSet = []
  collecting : b.phase = .collecting → b.summaryJob = .idle
  returned : ∀ results, b.phase = .returned results → ∀ call, b.summaryJob ≠ .queued call

theorem drained_start {urls : List String} {outputDir : String} {mkdir : Except String Unit}
    (hs : Started config urls outputDir mkdir b) : Drained b := by
  cases hs with
  | empty | failed => exact ⟨fun _ => rfl, fun h => (nomatch h), fun _ _ _ h => (nomatch h)⟩
  | spawned => exact ⟨fun h => absurd rfl h, fun _ => rfl, fun _ h => (nomatch h)⟩

theorem drained_step {e : BatchEvent} (h : Drained b) (he : InTime b e)
    (hm : BatchMove env config p b e p' b') : Drained b' := by
  cases hm with
  | task => exact ⟨h.joined, h.collecting, h.returned⟩
  | joined hph | joinedPanic hph =>
    exact ⟨fun hne => absurd hph hne, h.collecting, h.returned⟩
  | @closed _ elapsed total hph hcause =>
    have hempty : b.joinSet = [] := by
      rcases hcause with ⟨-, hempty⟩ | ⟨heq, -⟩
      · exact hempty
      · exact absurd heq (he elapsed total)
    rcases close_cases env config b elapsed total with hc | ⟨json, -, hc⟩ <;> rw [hc]
    · exact ⟨fun _ => hempty, fun hcol => (nomatch hcol), fun _ _ call => by
        simp [h.collecting hph]⟩
    · exact ⟨fun _ => hempty, fun hcol => (nomatch hcol), fun _ hret => (nomatch hret)⟩
  | summaryPerformed hjob =>
    refine ⟨h.joined, fun hcol => ?_, fun _ _ call => by simp⟩
    rw [h.collecting hcol] at hjob
    cases hjob
  | summarized hph hjob =>
    exact ⟨fun _ => h.joined (by simp [hph]), fun hcol => (nomatch hcol), fun _ _ call => by
      simp [hjob]⟩

/-- What a task that has ended can still do. -/
theorem perform_of_ended {sc sc' : Scope} {t t' : Task} {e : TaskEvent}
    (hw : Written env config t) (hended : t.stage.alive = false)
    (hpanic : (∃ r, t.stage = .returned r) ∨ t.stage = .panicked)
    (hm : TaskMove env config p sc t e p' sc' t') :
    (∃ w, e = .perform w) ∧ t.stage = .panicked ∧ p' = p := by
  cases hm with
  | @perform call w hjob =>
    refine ⟨⟨w, rfl⟩, hpanic.resolve_left ?_, rfl⟩
    rintro ⟨r, hr⟩
    exact hw.done r hr call hjob
  | stopped halive => simp [hended] at halive
  | rejected hs | accepted hs | acquireGlobal hs | lockFound hs | lockFresh hs | acquireHost hs
  | pool hs | answered hs | burst hs | retry hs | redirect hs | failed hs | store hs
  | unnamed hs | resume hs | imageFailed hs | imageDone hs | sidecar hs | sidecarDone hs =>
    simp [hs, Stage.alive] at hended

/-- In every run in which the deadline of a call does not fire, once it has returned its tasks
have ended, all permits of its semaphores are back, none of its tasks is in the pool, and no step
of it is left but the write of a panicked task, which leaves the pool alone. -/
theorem returned_quiet {es : List (ℕ × DownloaderEvent)}
    (hr : run (step env config) init es = some s)
    (hm : Meets (step env config) (OnSteps k InTime) init es) (hb : s.locals k = some b)
    {results : List DownloadResult} (hph : b.phase = .returned results) :
    (∀ j t, b.tasks j = some t → t.stage.alive = false) ∧
    b.scope.globalSem = config.maxConcurrentGlobal ∧
    (∀ host sem, b.scope.hostSems host = some sem →
      b.scope.permits sem = config.maxConcurrentPerHost) ∧
    (∀ j, clientOf s (k, j) = .idle) ∧
    ∀ e s', step env config s (k, e) = some s' → s'.shared = s.shared ∧ ∃ j t w,
      e = .batch (.task j (.perform w)) ∧ b.tasks j = some t ∧ t.stage = .panicked := by
  have hreach : Reaches (step env config) init s := ⟨es, hr⟩
  have hdrained : Drained b := batch_run_invariant (fun _ _ _ _ hs => drained_start hs)
    (fun _ _ _ _ _ h he hm => drained_step h he hm) hm hr b hb
  have hwritten : ∀ j t, b.tasks j = some t → Written env config t :=
    batch_invariant (fun _ _ _ _ hs _ _ => written_invariant.start hs)
      (fun _ _ _ _ _ h hm => written_invariant.move h hm) hreach hb
  have hglobal : GlobalSem config b.scope b.tasks :=
    batch_invariant (fun _ _ _ _ hs => GlobalSem.start hs) (fun _ _ _ _ _ h hm => h.step hm)
      hreach hb
  have hhost : HostSems config b.scope b.tasks :=
    batch_invariant (fun _ _ _ _ hs => HostSems.start hs) (fun _ _ _ _ _ h hm => h.step hm)
      hreach hb
  have hcol := (collected_of_reaches hreach hb).1
  have hends : ∀ j t, b.tasks j = some t → (∃ r, t.stage = .returned r) ∨ t.stage = .panicked :=
    fun j t ht => hcol.ended j t ht (by simp [hdrained.joined (by simp [hph])])
  have hended : ∀ j t, b.tasks j = some t → t.stage.alive = false := fun j t ht => by
    rcases hends j t ht with ⟨r, hr⟩ | hr <;> rw [hr] <;> rfl
  refine ⟨hended, hglobal.free_eq ?_, fun host sem hsem => (hhost.permits host sem hsem).free_eq ?_,
    fun j => ?_, fun e s' hs => ?_⟩
  · rintro j ⟨t, ht, hholds⟩
    rcases hends j t ht with ⟨r, hr⟩ | hr <;> rw [hr] at hholds <;> cases hholds
  · rintro j ⟨t, ht, hholds⟩
    rcases hends j t ht with ⟨r, hr⟩ | hr <;> rw [hr] at hholds <;> cases hholds
  · cases ht : b.tasks j with
    | none => simp [clientOf, taskClient, hb, ht]
    | some t =>
      rw [clientOf_eq hb ht]
      rcases hends j t ht with ⟨r, hr⟩ | hr <;> rw [hr] <;> rfl
  · obtain ⟨be, b', rfl, -, hmove⟩ := step_some hs hb
    generalize s'.shared = q at hmove ⊢
    cases hmove with
    | @task j te t t' _ _ ht _ htask =>
      obtain ⟨⟨w, rfl⟩, hpanicked, rfl⟩ :=
        perform_of_ended (hwritten j t ht) (hended j t ht) (hends j t ht) htask
      exact ⟨rfl, j, t, w, rfl, ht, hpanicked⟩
    | joined hcol | joinedPanic hcol | closed hcol => cases hph.symm.trans hcol
    | summaryPerformed hjob => exact absurd hjob (hdrained.returned results hph _)
    | summarized hsum => cases hph.symm.trans hsum

/-- Of two tasks one is rejected, and one took permits of both kinds and opened a connection. -/
theorem returned_quiet_storedRun : ∃ s b results sem hp,
    run (step oneUrl {}) init storedRun = some s ∧ s.locals 0 = some b ∧
    b.phase = .returned results ∧ b.scope.hostSems "h" = some sem ∧
    s.shared.hostPools ("h", 80) = some hp ∧ hp.totalCount = 1 ∧
    b.scope.globalSem = 200 ∧ b.scope.permits sem = 100 ∧ ∀ j, clientOf s (0, j) = .idle := by
  have heval : (run (step oneUrl {}) init storedRun).map (fun s =>
      (phaseOf s, (s.locals 0).map fun b => b.scope.hostSems "h",
        (s.shared.hostPools ("h", 80)).map HostPool.totalCount)) =
      some (some (.returned [⟨"http://h/a.png", .success ⟨"out", "a.png"⟩ 1 none 3⟩,
        ⟨"http://a b", .failure (.connectionFailed "invalid URL: invalid uri character") 4 0⟩]),
        some (some 0), some 1) := by
    decide +kernel
  obtain ⟨s, hr, hs⟩ := Option.map_eq_some_iff.1 heval
  obtain ⟨hph, hsem, hpool⟩ : _ ∧ _ ∧ _ := by simpa only [Prod.mk.injEq] using hs
  obtain ⟨b, hb, hph⟩ := Option.map_eq_some_iff.1 hph
  obtain ⟨hp, hhp, hcount⟩ := Option.map_eq_some_iff.1 hpool
  rw [hb, Option.map_some, Option.some.injEq] at hsem
  have hm : Meets (step oneUrl {}) (OnSteps 0 InTime) init storedRun := by
    refine Meets.of_events (p := fun e => ∀ elapsed total, e.2 ≠ .batch (.deadline elapsed total))
      (fun t e he _ b be _ heq elapsed total hbe => ?_)
      (by simp [storedRun, taskSteps, toWritten, toRequest, opensH2])
    exact he elapsed total (by rw [heq, hbe])
  obtain ⟨-, hglobal, hhost, hidle, -⟩ := returned_quiet hr hm hb hph
  exact ⟨s, b, _, 0, hp, hr, hb, hph, hsem, hhp, hcount, hglobal, hhost "h" 0 hsem, hidle⟩

end Downloader

end Imgdl
