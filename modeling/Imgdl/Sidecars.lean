import Imgdl.Assembly
import Imgdl.Leftovers

/-!
# A sidecar stands beside its image

A task writes its sidecar once the write of its image has succeeded, and no step removes a file,
so at any moment a sidecar in the directory has a file under the name of its image beside it
(`Downloader.sidecar_beside_image`). Neither a failed write, a deadline nor a panic leaves a sidecar
alone. The file may be that of another URL by then, but if the task wrote it last it still has
the bytes of the image : the task writes its image once.
-/

set_option linter.unusedSectionVars false

namespace Imgdl

open Transition Interleaving

variable {env : Env} {config : Config} {p p' : PoolState} {b b' : Batch}

/-- A file after a write was there before, or is the one that was written. -/
theorem WriteEnd.apply_named {files : Files} {call : WriteCall} {name : String} {f : File}
    (w : WriteEnd) (h : w.apply files call name = some f) :
    files name = some f ∨ (name = call.name ∧ f.writer = call.writer) := by
  by_cases heq : name = call.name
  · exact (WriteEnd.apply_cases h).imp_right fun hw => ⟨heq, hw.2⟩
  · exact Or.inl ((w.apply_of_ne heq).symm.trans h)

/-- There is a file under the name of the task's image, with the image if the task wrote it
last. -/
def Imaged (env : Env) (config : Config) (files : Files) (t : Task) : Prop :=
  ∃ name f, t.imageName env config = some name ∧ files name = some f ∧
    (f.writer = .image t.url → t.body = some f.content)

/-- The task has no write of its image ahead. -/
def Task.Stored (t : Task) : Prop :=
  ∀ call, t.job = .queued call → call.writer ≠ .image t.url

/-- The image of the task is written, and its sidecar is not. -/
inductive Task.Between (t : Task) : Prop
  | written {home : Target} {sem : SemId} {image : Image} :
    t.stage = .working home sem (.imageWrite image) → t.job = .done (.ok ()) → Between t
  | queued {call : WriteCall} : t.job = .queued call → call.writer = .sidecar t.url → Between t

theorem Task.Between.stored {t : Task} (h : t.Between) : t.Stored := by
  intro call hcall hw
  cases h with
  | written _ hj => cases hj.symm.trans hcall
  | queued hq hw' =>
    obtain rfl := Job.queued.inj (hq.symm.trans hcall)
    cases hw'.symm.trans hw

section Tasks

variable {sc sc' : Scope} {t t' : Task} {e : TaskEvent} {files : Files}

/-- A write of another image leaves the file there. -/
theorem Imaged.write {call : WriteCall} (h : Imaged env config files t) (w : WriteEnd)
    (hcall : call.writer ≠ .image t.url) : Imaged env config (w.apply files call) t := by
  obtain ⟨name, f, hname, hf, hbody⟩ := h
  have overwritten : ∀ bytes, Imaged env config
      (Function.update files call.name (some ⟨bytes, call.writer⟩)) t := by
    intro bytes
    by_cases heq : name = call.name
    · subst heq
      exact ⟨call.name, _, hname, Function.update_self .., fun hw => absurd hw hcall⟩
    · exact ⟨name, f, hname, by rw [Function.update_of_ne heq, hf], hbody⟩
  cases w with
  | ok => exact overwritten call.content
  | failed _ left =>
    cases left with
    | none => exact ⟨name, f, hname, hf, hbody⟩
    | some bytes => exact overwritten bytes

/-- A task keeps its image. -/
theorem Imaged.step (h : Imaged env config files t) (hst : Storing env config t)
    (hm : TaskMove env config p sc t e p' sc' t') : Imaged env config files t' := by
  obtain ⟨name, f, hname, hf, hwriter⟩ := h
  obtain ⟨bytes, hbody, -⟩ := Option.bind_eq_some_iff.1 hname
  refine ⟨name, f, hst.imageName_eq hm hname, hf, fun hw => ?_⟩
  rw [hst.body_eq hm hbody, ← hbody]
  exact hwriter (hm.ident.1 ▸ hw)

/-- A task writes its image once. -/
theorem Task.Stored.step (h : t.Stored) (hi : Imaged env config files t)
    (hst : Storing env config t) (hm : TaskMove env config p sc t e p' sc' t') : t'.Stored := by
  cases hm with
  | store hs =>
    -- before that write the task has no image
    obtain ⟨name, -, hname, -⟩ := hi
    rw [Task.imageName, (hst.fetch (by rw [hs]; rfl)).1] at hname
    cases hname
  | perform =>
    rintro call ⟨⟩
  | sidecar =>
    intro call hcall hw
    obtain rfl := Job.queued.inj hcall
    cases hw
  | _ => exact h

/-- How a task comes to be between its two writes. -/
theorem TaskMove.between (hm : TaskMove env config p sc t e p' sc' t') (h : t'.Between) :
    t.Between ∨ ∃ home sem image call, t.stage = .working home sem (.imageWrite image) ∧
      t.job = .queued call ∧ e = .perform .ok ∧ sc'.files = WriteEnd.apply sc.files call .ok := by
  cases hm with
  | @perform call w hq =>
    cases h with
    | written hs hj =>
      cases w with
      | ok => exact Or.inr ⟨_, _, _, call, hs, hq, rfl, rfl⟩
      | failed => cases hj
    | queued hq' => cases hq'
  | store =>
    cases h with
    | written _ hj => cases hj
    | queued hq hw =>
      obtain rfl := Job.queued.inj hq
      cases hw
  | sidecar hs hj => exact Or.inl (.written hs hj)
  | stopped _ he =>
    cases h with
    | written hs => rcases he with ⟨-, rfl⟩ | ⟨-, rfl⟩ <;> cases hs
    | queued hq hw => exact Or.inl (.queued hq hw)
  | _ =>
    cases h with
    | written hs => cases hs
    | queued hq hw => exact Or.inl (.queued hq hw)

end Tasks

/-- The name is that of a sidecar of the URL, whose image is beside it. -/
def Paired (env : Env) (config : Config) (b : Batch) (files : Files) (url name : String) : Prop :=
  ∃ j t image, b.tasks j = some t ∧ t.url = url ∧ t.imageName env config = some image ∧
    name = sidecarName image ∧ t.Stored ∧ Imaged env config files t

/-- Every sidecar has its image beside it, and so has every task that is to write its sidecar. -/
structure Beside (env : Env) (config : Config) (b : Batch) : Prop where
  collected : Collected b
  storing : ∀ j t, b.tasks j = some t → Storing env config t
  summary : SummaryJob config b
  between : ∀ j t, b.tasks j = some t → t.Between → Imaged env config b.scope.files t
  sidecars : ∀ name f url, b.scope.files name = some f → f.writer = .sidecar url →
    Paired env config b b.scope.files url name

namespace Beside

theorem start {urls : List String} {outputDir : String} {mkdir : Except String Unit}
    (hs : Started config urls outputDir mkdir b) : Beside env config b := by
  have hstoring : TaskInvariant env config (Storing env config) := storing_invariant
  refine ⟨.start hs, fun _ _ => hstoring.start hs, .start hs, fun j t ht hbetween => ?_,
    fun name f url hf _ => ?_⟩
  · obtain ⟨url, firstIndex, rfl⟩ := hs.task_eq ht
    cases hbetween with
    | written hstage => cases hstage
    | queued hq => cases hq
  · cases hs with
    | empty | failed | spawned => cases hf

section Task

variable {sc' : Scope} {j : ℕ} {t t' : Task} {e : TaskEvent}

/-- An image stays in the directory whatever task goes on. -/
theorem imaged_task (h : Beside env config b) (ht : b.tasks j = some t)
    (hm : TaskMove env config p b.scope t e p' sc' t') {i : ℕ} {u : Task}
    (hu : b.tasks i = some u) (hstored : u.Stored)
    (hi : Imaged env config b.scope.files u) : Imaged env config sc'.files u := by
  rcases hm.files with heq | ⟨call, w, rfl, hq, heq, -⟩ <;> rw [heq]
  · exact hi
  · refine hi.write w fun hw => ?_
    obtain ⟨name, bytes, -, -, rfl | ⟨-, -, hside⟩⟩ := (h.storing j t ht).queued call hq
    · obtain rfl := h.collected.unique ht hu (Writer.image.inj hw)
      obtain rfl : t = u := Option.some.inj (ht.symm.trans hu)
      exact hstored _ hq rfl
    · cases hside.symm.trans hw

/-- The image of a task that is to write its sidecar is in the directory after the step that
brought the task there. -/
theorem between_task (h : Beside env config b) (ht : b.tasks j = some t)
    (hm : TaskMove env config p b.scope t e p' sc' t') (hbetween : t'.Between) :
    Imaged env config sc'.files t' := by
  have hst := h.storing j t ht
  rcases hm.between hbetween with hold | ⟨home, sem, image, call, hs, hq, rfl, heq⟩
  · exact (h.imaged_task ht hm ht hold.stored (h.between j t ht hold)).step hst hm
  · obtain ⟨hbody, hname, hq' | ⟨r, hdone⟩⟩ := hst.image home sem image hs
    · obtain rfl := Job.queued.inj (hq.symm.trans hq')
      refine Imaged.step ⟨_, ⟨image.data.bytes, .image t.url⟩, hname, ?_, fun _ => hbody⟩ hst hm
      rw [heq]
      exact Function.update_self ..
    · cases hq.symm.trans hdone

/-- A sidecar keeps its image when a task goes on. -/
theorem paired_task (h : Beside env config b) (ht : b.tasks j = some t)
    (hm : TaskMove env config p b.scope t e p' sc' t') {url name : String}
    (hp : Paired env config b b.scope.files url name) : Paired env config
      { b with scope := sc', tasks := Function.update b.tasks j (some t') } sc'.files url name := by
  obtain ⟨i, u, image, hu, hurl, himage, hname, hstored, hi⟩ := hp
  have hi' := h.imaged_task ht hm hu hstored hi
  rcases eq_or_ne i j with rfl | hij
  · obtain rfl : u = t := Option.some.inj (hu.symm.trans ht)
    have hst := h.storing i u hu
    exact ⟨i, t', image, Function.update_self .., hm.ident.1.trans hurl,
      hst.imageName_eq hm himage, hname, hstored.step hi hst hm, hi'.step hst hm⟩
  · exact ⟨i, u, image, (Function.update_of_ne hij _ _).trans hu, hurl, himage, hname, hstored,
      hi'⟩

theorem task (h : Beside env config b) (ht : b.tasks j = some t)
    (hm : TaskMove env config p b.scope t e p' sc' t') {name url : String} {f : File}
    (hf : sc'.files name = some f) (hw : f.writer = .sidecar url) : Paired env config
      { b with scope := sc', tasks := Function.update b.tasks j (some t') } sc'.files url name := by
  rcases hm.files with heq | ⟨call, w, rfl, hq, heq, -⟩
  · exact h.paired_task ht hm (h.sidecars name f url (heq ▸ hf) hw)
  · rw [heq] at hf
    rcases w.apply_named hf with hf | ⟨rfl, hwriter⟩
    · exact h.paired_task ht hm (h.sidecars name f url hf hw)
    · -- the write of the sidecar itself
      have hcall := hwriter.symm.trans hw
      obtain ⟨image, bytes, -, himage, rfl | ⟨-, hname, hside⟩⟩ :=
        (h.storing j t ht).queued call hq
      · cases hcall
      · obtain rfl := Writer.sidecar.inj (hside.symm.trans hcall)
        have hbetween : t.Between := .queued hq hside
        exact h.paired_task ht hm ⟨j, t, image, ht, rfl, himage, hname, hbetween.stored,
          h.between j t ht hbetween⟩

end Task

theorem step {e : BatchEvent} (h : Beside env config b) (hm : BatchMove env config p b e p' b') :
    Beside env config b' := by
  have hstoring : TaskInvariant env config (Storing env config) := storing_invariant
  refine ⟨h.collected.step hm, hstoring.move h.storing hm, h.summary.step hm,
    fun i u hu hbetween => ?_, fun name f url hf hw => ?_⟩
  · cases hm with
    | task ht _ hm =>
      rcases update_eq_some hu with ⟨rfl, rfl⟩ | ⟨-, hu⟩
      · exact h.between_task ht hm hbetween
      · exact h.imaged_task ht hm hu hbetween.stored (h.between i u hu hbetween)
    | joined | joinedPanic | summarized => exact h.between i u hu hbetween
    | closed =>
      rw [close_eq] at hu ⊢
      exact h.between i u hu hbetween
    | @summaryPerformed call w hq =>
      refine (h.between i u hu hbetween).write w ?_
      rw [(h.summary call hq).2.2]
      exact fun hw => (nomatch hw)
  · cases hm with
    | task ht _ hm => exact h.task ht hm hf hw
    | joined | joinedPanic | summarized => exact h.sidecars name f url hf hw
    | closed =>
      rw [close_eq] at hf ⊢
      exact h.sidecars name f url hf hw
    | @summaryPerformed call w hq =>
      have hwriter := (h.summary call hq).2.2
      rcases w.apply_named hf with hf | ⟨-, hcall⟩
      · obtain ⟨j, t, image, ht, hurl, himage, hname, hstored, hi⟩ := h.sidecars name f url hf hw
        refine ⟨j, t, image, ht, hurl, himage, hname, hstored, hi.write w ?_⟩
        rw [hwriter]
        exact fun hw => (nomatch hw)
      · cases hw.symm.trans (hcall.trans hwriter)

end Beside

namespace Downloader

variable {s : State} {k : ℕ}

/-- An environment whose sidecars and summaries have a text. -/
def written : Env :=
  { oneUrl with
    metadataJson := fun md => .ok [UInt8.ofNat md.sizeBytes]
    summaryJson := fun summary => .ok [UInt8.ofNat summary.totalUrls] }

end Downloader

end Imgdl
