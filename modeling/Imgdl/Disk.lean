import Imgdl.Files

/-!
# The files on the disk

The files of a batch (`Scope.files`) are those it wrote itself. On the disk, two calls whose
output directories are one directory write the same files, over each other and over what was
there before. `diskOf` is what a run leaves on the disk, whatever directory a path leads to.

If no other call writes under a name once a call has started (`Spares`), the file of that name in
its directory is the one it wrote, and what was there at its start if it wrote none
(`disk_of_run`).
-/

set_option linter.unusedSectionVars false

namespace Imgdl

open Transition Interleaving

variable {env : Env} {config : Config} {p p' : PoolState} {b b' : Batch}

/-! ## The write of a step -/

/-- The write that ends so. -/
def Job.performed (w : WriteEnd) : Job → Option (WriteCall × WriteEnd)
  | .queued call => some (call, w)
  | _ => none

/-- The write that a section of a task performs. -/
def Task.performed (t : Task) : TaskEvent → Option (WriteCall × WriteEnd)
  | .perform w => t.job.performed w
  | _ => none

/-- The write that a step of a call performs. -/
def Batch.performed (b : Batch) : BatchEvent → Option (WriteCall × WriteEnd)
  | .task j e => (b.tasks j).bind fun t => t.performed e
  | .performSummary w => b.summaryJob.performed w
  | _ => none

/-- The files after a write, if there is one. -/
def applyWrite (files : Files) : Option (WriteCall × WriteEnd) → Files
  | some (call, w) => w.apply files call
  | none => files

theorem TaskMove.files_eq {sc sc' : Scope} {t t' : Task} {e : TaskEvent}
    (hm : TaskMove env config p sc t e p' sc' t') :
    sc'.files = applyWrite sc.files (t.performed e) := by
  cases hm with
  | perform hq => simp only [Task.performed, hq, Job.performed, applyWrite]
  | stopped _ he => rcases he with ⟨rfl, -⟩ | ⟨rfl, -⟩ <;> rfl
  | _ => rfl

/-- The files of a call are those of its own writes. -/
theorem BatchMove.files_eq {e : BatchEvent} (hm : BatchMove env config p b e p' b') :
    b'.scope.files = applyWrite b.scope.files (b.performed e) := by
  cases hm with
  | task ht _ hm =>
    rw [Batch.performed, ht, Option.bind_some]
    exact hm.files_eq
  | joined | joinedPanic | summarized => rfl
  | closed _ he =>
    rw [close_eq]
    rcases he with ⟨rfl, -⟩ | ⟨rfl, -⟩ <;> rfl
  | summaryPerformed hq => simp only [Batch.performed, hq, Job.performed, applyWrite]

/-- A write goes to the upper of two files. -/
theorem applyWrite_or {files new : Files} {old : Option File} {name : String}
    (h : files name = (new name).or old) (o : Option (WriteCall × WriteEnd)) :
    applyWrite files o name = (applyWrite new o name).or old := by
  -- the file that a write leaves hides the one under it
  have hides : ∀ f : File, Function.update files name (some f) name =
      (Function.update new name (some f) name).or old := by
    intro f
    rw [Function.update_self, Function.update_self, Option.some_or]
  cases o with
  | none => exact h
  | some write =>
    obtain ⟨call, w⟩ := write
    by_cases hname : name = call.name
    · subst hname
      cases w with
      | ok => exact hides _
      | failed e left =>
        cases left with
        | none => exact h
        | some bytes => exact hides _
    · exact (w.apply_of_ne hname).trans (h.trans (by rw [applyWrite, w.apply_of_ne hname]))

/-! ## The disk -/

namespace Downloader

variable {D : Type*} [DecidableEq D] (dirOf : String → D)

/-- The disk after a step : a write goes to the directory that the output directory of its call
leads to. -/
def noteDisk (s : State) (ev : ℕ × DownloaderEvent) (disk : D → Files) : D → Files :=
  match s.locals ev.1, ev.2 with
  | some b, .batch e => Function.update disk (dirOf b.outputDir)
      (applyWrite (disk (dirOf b.outputDir)) (b.performed e))
  | _, _ => disk

/-- The disk after a run. -/
def diskOf (env : Env) (config : Config) (disk : D → Files)
    (es : List (ℕ × DownloaderEvent)) : D → Files :=
  record (step env config) (noteDisk dirOf) init es disk

/-- The step is no write of another call under this name in the directory of the call `k`, once
that has started. -/
def Spares (k : ℕ) (name : String) (s : State) (ev : ℕ × DownloaderEvent) : Prop :=
  ∀ b b' e call w, s.locals k = some b → ev.1 ≠ k → s.locals ev.1 = some b' → ev.2 = .batch e →
    dirOf b'.outputDir = dirOf b.outputDir → b'.performed e = some (call, w) → name ≠ call.name

/-- A step spares the name : a check of it that can be evaluated. -/
def spares (k : ℕ) (name : String) (s : State) (ev : ℕ × DownloaderEvent) : Bool :=
  ev.1 == k || match s.locals ev.1, ev.2 with
    | some b, .batch e => (b.performed e).all fun write => name != write.1.name
    | _, _ => true

/-- The call has the output directory `dir`, in which there is its file of this name, or else
`old`. -/
def OnDisk (k : ℕ) (dir name : String) (old : Option File) (disk : D → Files) (s : State) :
    Prop :=
  ∃ b, s.locals k = some b ∧ b.outputDir = dir ∧
    disk (dirOf dir) name = (b.scope.files name).or old

/-- What was on the disk under this name when the call `k` started. -/
def Found (env : Env) (config : Config) (disk : D → Files) (k : ℕ)
    (es : List (ℕ × DownloaderEvent)) (dir name : String) (old : Option File) : Prop :=
  ∃ pre urls mkdir post, es = pre ++ (k, .call urls dir mkdir) :: post ∧
    diskOf dirOf env config disk pre (dirOf dir) name = old

variable {dirOf} {disk : D → Files} {s s' : State} {k : ℕ} {ev : ℕ × DownloaderEvent}
  {es : List (ℕ × DownloaderEvent)} {dir name : String} {old : Option File}

theorem spares_of_check (h : spares k name s ev = true) : Spares dirOf k name s ev := by
  intro b b' e call w _ hk hb' he _ hw
  rw [spares, hb', he, Bool.or_eq_true, beq_iff_eq] at h
  rcases h with h | h
  · exact absurd h hk
  · simpa [hw] using h

theorem noteDisk_batch {b : Batch} {e : BatchEvent} (hb : s.locals k = some b) :
    noteDisk dirOf s (k, .batch e) disk = Function.update disk (dirOf b.outputDir)
      (applyWrite (disk (dirOf b.outputDir)) (b.performed e)) := by
  rw [noteDisk, hb]

/-- The start of a call writes nothing. -/
theorem noteDisk_call {urls : List String} {outputDir : String} {mkdir : Except String Unit} :
    noteDisk dirOf s (k, .call urls outputDir mkdir) disk = disk := by
  unfold noteDisk
  cases s.locals k <;> rfl

/-- A call that takes a step has started. -/
theorem exists_of_batch {e : BatchEvent} (hs : step env config s (k, .batch e) = some s') :
    ∃ b, s.locals k = some b := by
  obtain ⟨o, hp, -⟩ := Par.step_eq_some.1 hs
  cases hloc : s.locals k with
  | none =>
    rw [hloc] at hp
    cases hp
  | some b => exact ⟨b, rfl⟩

/-- A step that spares the name leaves the file to the call. -/
theorem OnDisk.step (h : OnDisk dirOf k dir name old disk s) (hok : Spares dirOf k name s ev)
    (hs : step env config s ev = some s') :
    OnDisk dirOf k dir name old (noteDisk dirOf s ev disk) s' := by
  obtain ⟨b, hb, rfl, hdisk⟩ := h
  obtain ⟨k', e⟩ := ev
  rcases eq_or_ne k' k with rfl | hk
  · -- a step of the call itself
    obtain ⟨be, b', rfl, hb', hm⟩ := step_some hs hb
    refine ⟨b', hb', hm.outputDir_eq, ?_⟩
    rw [noteDisk_batch hb, Function.update_self, hm.files_eq]
    exact applyWrite_or hdisk _
  · refine ⟨b, (Par.step_other hs (Ne.symm hk)).trans hb, rfl, ?_⟩
    rw [← hdisk]
    cases e with
    | call urls outputDir mkdir => rw [noteDisk_call]
    | batch e =>
      obtain ⟨b', hloc⟩ := exists_of_batch hs
      rw [noteDisk_batch hloc]
      rcases eq_or_ne (dirOf b.outputDir) (dirOf b'.outputDir) with hdir | hdir
      · -- a write in the same directory is under another name
        rw [hdir, Function.update_self]
        cases hw : b'.performed e with
        | none => rfl
        | some write =>
          exact write.2.apply_of_ne (hok b b' e write.1 write.2 hb hk hloc rfl hdir.symm hw)
      · rw [Function.update_of_ne hdir]

/-- If other calls spare a name, the file of that name in the directory of a call is the one the
call wrote, and what was there at its start if it wrote none. -/
theorem disk_of_run (disk : D → Files) {b : Batch} (hr : run (step env config) init es = some s)
    (hb : s.locals k = some b) (hm : Meets (step env config) (Spares dirOf k name) init es) :
    ∃ old, Found dirOf env config disk k es b.outputDir name old ∧
      diskOf dirOf env config disk es (dirOf b.outputDir) name = (b.scope.files name).or old := by
  -- the step at which the call starts
  obtain ⟨pre, ⟨k', e⟩, post, t, t', rfl, hpre, hstep, hpost, hnone, hsome⟩ :=
    exists_entered (P := fun s => (s.locals k).isSome) hr (by simp [init]) (by rw [hb]; rfl)
  obtain ⟨b₀, hb₀⟩ := Option.isSome_iff_exists.1 hsome
  rw [Bool.not_eq_true, Option.isSome_eq_false_iff, Option.isNone_iff_eq_none] at hnone
  obtain ⟨rfl, urls, dir, mkdir, rfl, hstart⟩ : k = k' ∧ ∃ urls dir mkdir,
      e = .call urls dir mkdir ∧ Started config urls dir mkdir b₀ := by
    rcases step_local hstep hb₀ with ⟨-, h⟩ | ⟨rfl, h⟩ | ⟨rfl, b₁, -, h, -⟩
    · cases hnone.symm.trans h
    · exact ⟨rfl, h⟩
    · cases hnone.symm.trans h
  -- from there on it keeps to its own files
  have h₀ : OnDisk dirOf k dir name (diskOf dirOf env config disk pre (dirOf dir) name)
      (diskOf dirOf env config disk pre) t' := by
    refine ⟨b₀, hb₀, ?_, ?_⟩
    · cases hstart <;> rfl
    · cases hstart <;> rfl
  have hrest := (hm.suffix hpre).2 t' hstep
  obtain ⟨b', hb', rfl, h⟩ : OnDisk dirOf k dir name _ (record (step env config) (noteDisk dirOf)
      t' post (diskOf dirOf env config disk pre)) s := by
    refine run_record_meets (fun _ _ _ _ h hok hs => ?_) h₀ hrest hpost
    exact OnDisk.step h hok hs
  obtain rfl := Option.some.inj (hb.symm.trans hb')
  refine ⟨_, ⟨pre, urls, mkdir, post, rfl, rfl⟩, ?_⟩
  simp only [diskOf, record_append hpre, record, hstep, noteDisk_call]
  exact h

end Downloader

end Imgdl
