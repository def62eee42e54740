import Imgdl.Files

/-!
# Files of failed downloads

A task reports a success or a write error once the write of its image is over, so an image
in the directory belongs to a task that reports one of the two (`Accounted`). The report
counts only if it is collected : a deadline that fires after the write, a write that ends
after the deadline, or a panic after the write leave an image behind for which another
failure is reported (`timeout_leaves_image`). In the other runs there is none
(`failure_leaves_no_image`).
-/

set_option linter.unusedSectionVars false

namespace Imgdl

open Transition Interleaving

/-- The write leaves a file. -/
def WriteEnd.leaves : WriteEnd → Bool
  | .ok => true
  | .failed _ left => left.isSome

/-- A file after a write was there before, or the write left it. -/
theorem WriteEnd.apply_cases {files : Files} {call : WriteCall} {w : WriteEnd} {name : String}
    {f : File} (h : w.apply files call name = some f) :
    files name = some f ∨ (w.leaves = true ∧ f.writer = call.writer) := by
  cases w with
  | ok =>
    rcases update_eq_some h with ⟨-, rfl⟩ | ⟨-, h⟩
    · exact Or.inr ⟨rfl, rfl⟩
    · exact Or.inl h
  | failed e left =>
    cases left with
    | none => exact Or.inl h
    | some bytes =>
      rcases update_eq_some h with ⟨-, rfl⟩ | ⟨-, h⟩
      · exact Or.inr ⟨rfl, rfl⟩
      · exact Or.inl h

/-- The directory has an image that the task of the URL wrote. -/
def HasImage (files : Files) (url : String) : Prop :=
  ∃ name f, files name = some f ∧ f.writer = .image url

/-- The outcomes of a task whose write is over. -/
def Reported : DownloadOutcome → Prop
  | .success _ _ _ _ => True
  | .failure (.writeError _) _ _ => True
  | _ => False

/-- A step that leaves no image without its report : the deadline fires only when every
uncollected task is without an image, an image is written only while its task can still
report it, and no task panics after it wrote one. -/
structure NoLeftover (b : Batch) (e : BatchEvent) : Prop where
  deadline : ∀ elapsed total j t, e = .deadline elapsed total → j ∈ b.joinSet →
    b.tasks j = some t → ¬HasImage b.scope.files t.url
  perform : ∀ j t call w, e = .task j (.perform w) → b.tasks j = some t → t.job = .queued call →
    call.writer = .image t.url → w.leaves = true → b.phase = .collecting ∧ t.stage.alive = true
  panic : ∀ j t, e = .task j .panic → b.tasks j = some t → ¬HasImage b.scope.files t.url

variable {env : Env} {config : Config} {p p' : PoolState} {b b' : Batch}

/-- A task whose image is written stays one that reports it, unless it stops. -/
theorem TaskMove.reports {sc sc' : Scope} {t t' : Task} {e : TaskEvent}
    (hm : TaskMove env config p sc t e p' sc' t') (h : t.ImageDone Reported) (hpanic : e ≠ .panic)
    (hcancel : e ≠ .cancel) : t'.ImageDone Reported := by
  have hfetch := h.fetching
  cases hm with
  | rejected hs | accepted hs | acquireGlobal hs | lockFound hs | lockFresh hs | acquireHost hs
  | pool hs | answered hs | burst hs | retry hs | redirect hs | failed hs | store hs | unnamed hs
  | resume hs =>
    rw [hs] at hfetch
    cases hfetch
  | perform hq =>
    cases h with
    | written hs hj =>
      rw [hj] at hq
      cases hq
    | sidecar hs hk => exact .sidecar hs hk
    | returned hs hk => exact .returned hs hk
  | imageFailed hs hj => exact .returned rfl trivial
  | imageDone hs hj => exact .returned rfl trivial
  | sidecar hs hj => exact .sidecar rfl trivial
  | sidecarDone hs hj =>
    cases h with
    | written hs' | returned hs' =>
      rw [hs] at hs'
      cases hs'
    | sidecar hs' hk =>
      rw [hs] at hs'
      obtain ⟨-, -, hw⟩ := Stage.working.inj hs'
      obtain rfl := Work.sidecarWrite.inj hw
      exact .returned rfl hk
  | stopped _ he _ =>
    rcases he with ⟨he, -⟩ | ⟨he, -⟩
    · exact absurd he hpanic
    · exact absurd he hcancel

/-- Every image in the directory has a task that reports it, and that has done so once the
collection is over. -/
structure Accounted (env : Env) (config : Config) (b : Batch) : Prop where
  collected : Collected b
  storing : ∀ j t, b.tasks j = some t → Storing env config t
  summary : SummaryJob config b
  images : ∀ url, HasImage b.scope.files url → ∃ j t, b.tasks j = some t ∧ t.url = url ∧
    t.ImageDone Reported ∧ (b.phase ≠ .collecting → j ∉ b.joinSet)

namespace Accounted

theorem start {urls : List String} {outputDir : String} {mkdir : Except String Unit}
    (hs : Started config urls outputDir mkdir b) : Accounted env config b := by
  have hstoring : TaskInvariant env config (Storing env config) := storing_invariant
  refine ⟨.start hs, fun _ _ => hstoring.start hs, .start hs, ?_⟩
  rintro url ⟨name, f, hf, -⟩
  cases hs with
  | empty | failed | spawned => cases hf

/-- An image after a section of the task `j` was there before, or is that of the task. -/
theorem hasImage_cases (h : Accounted env config b) {sc' : Scope} {j : ℕ} {t t' : Task}
    {e : TaskEvent} (ht : b.tasks j = some t)
    (hm : TaskMove env config p b.scope t e p' sc' t') {url : String}
    (hi : HasImage sc'.files url) : HasImage b.scope.files url ∨
      ∃ call w, e = .perform w ∧ t.job = .queued call ∧ call.writer = .image t.url ∧
        w.leaves = true ∧ t'.stage = t.stage ∧ t'.job = .done w.result ∧ url = t.url := by
  obtain ⟨name, f, hf, hw⟩ := hi
  rcases hm.files with heq | ⟨call, w, rfl, hq, heq, rfl⟩
  · exact Or.inl ⟨name, f, heq ▸ hf, hw⟩
  · rw [heq] at hf
    rcases WriteEnd.apply_cases hf with hf | ⟨hleaves, hwriter⟩
    · exact Or.inl ⟨name, f, hf, hw⟩
    · obtain ⟨_, _, -, -, rfl | ⟨-, -, hside⟩⟩ := (h.storing j t ht).queued call hq
      · exact Or.inr ⟨_, w, rfl, hq, rfl, hleaves, rfl, rfl,
          Writer.image.inj (hw.symm.trans hwriter)⟩
      · rw [hwriter, hside] at hw
        cases hw

theorem task_images (h : Accounted env config b) {sc' : Scope} {j : ℕ} {t t' : Task}
    {e : TaskEvent} (hok : NoLeftover b (.task j e)) (ht : b.tasks j = some t)
    (hcol : e = .cancel → b.phase ≠ .collecting)
    (hm : TaskMove env config p b.scope t e p' sc' t') {url : String}
    (hi : HasImage sc'.files url) : ∃ i u, Function.update b.tasks j (some t') i = some u ∧
      u.url = url ∧ u.ImageDone Reported ∧ (b.phase ≠ .collecting → i ∉ b.joinSet) := by
  rcases h.hasImage_cases ht hm hi with hold | ⟨call, w, rfl, hq, hwriter, hleaves, hs', hj', rfl⟩
  · obtain ⟨i, u, hu, rfl, hdone, hjoined⟩ := h.images url hold
    rcases eq_or_ne i j with rfl | hij
    · obtain rfl : t = u := Option.some.inj (ht.symm.trans hu)
      refine ⟨i, t', Function.update_self .., hm.ident.1, hm.reports hdone ?_ ?_, hjoined⟩
      · rintro rfl
        exact hok.panic i t rfl ht hold
      · -- only tasks that are not joined are cancelled, and those have no image
        rintro rfl
        have hstay : t'.stage = t.stage := by
          refine hm.stage_of_ended ?_
          rcases h.collected.ended i t ht (hjoined (hcol rfl)) with ⟨r, hr⟩ | hr <;> rw [hr] <;> rfl
        cases hm with
        | stopped halive he _ =>
          rcases he with ⟨he, -⟩ | ⟨-, rfl⟩
          · cases he
          · change Stage.cancelled = t.stage at hstay
            rw [← hstay] at halive
            cases halive
    · exact ⟨i, u, by rw [Function.update_of_ne hij, hu], rfl, hdone, hjoined⟩
  · obtain ⟨hphase, halive⟩ := hok.perform j t call w rfl ht hq hwriter hleaves
    refine ⟨j, t', Function.update_self .., hm.ident.1, ?_, fun hne => absurd hphase hne⟩
    have hst := h.storing j t ht
    cases hstage : t.stage with
    | working home sem work =>
      cases work with
      | imageWrite image => exact .written (hs'.trans hstage) hj'
      | sidecarWrite outcome =>
        have hside := (hst.sidecar home sem outcome hstage).2 call hq
        rw [hwriter] at hside
        cases hside
      | _ =>
        have hidle := (hst.fetch (by rw [hstage]; rfl)).2
        rw [hq] at hidle
        cases hidle
    | returned | panicked | cancelled =>
      rw [hstage] at halive
      cases halive
    | _ =>
      have hidle := (hst.fetch (by rw [hstage]; rfl)).2
      rw [hq] at hidle
      cases hidle

theorem step {e : BatchEvent} (h : Accounted env config b) (hok : NoLeftover b e)
    (hm : BatchMove env config p b e p' b') : Accounted env config b' := by
  have hstoring : TaskInvariant env config (Storing env config) := storing_invariant
  refine ⟨h.collected.step hm, hstoring.move h.storing hm, h.summary.step hm, fun url hi => ?_⟩
  cases hm with
  | task ht hcol hm => exact h.task_images hok ht hcol hm hi
  | joined hphase | joinedPanic hphase =>
    obtain ⟨i, u, hu, hurl, hdone, -⟩ := h.images url hi
    exact ⟨i, u, hu, hurl, hdone, fun hne => absurd hphase hne⟩
  | @closed _ elapsed total hphase he =>
    have hb' : (b.close env config elapsed total).tasks = b.tasks ∧
        (b.close env config elapsed total).scope = b.scope ∧
        (b.close env config elapsed total).joinSet = b.joinSet := by
      rw [close_eq]
      exact ⟨rfl, rfl, rfl⟩
    rw [hb'.2.1] at hi
    obtain ⟨i, u, hu, hurl, hdone, -⟩ := h.images url hi
    refine ⟨i, u, by rw [hb'.1, hu], hurl, hdone, fun _ hin => ?_⟩
    rw [hb'.2.2] at hin
    rcases he with ⟨-, hempty⟩ | ⟨rfl, -⟩
    · rw [hempty] at hin
      cases hin
    · exact hok.deadline elapsed total i u rfl hin hu (hurl ▸ hi)
  | @summaryPerformed call w hq =>
    refine h.images url ?_
    obtain ⟨name, f, hf, hw⟩ := hi
    rcases WriteEnd.apply_cases hf with hf | ⟨-, hwriter⟩
    · exact ⟨name, f, hf, hw⟩
    · rw [hwriter, (h.summary call hq).2.2] at hw
      cases hw
  | summarized hphase =>
    obtain ⟨i, u, hu, hurl, hdone, hjoined⟩ := h.images url hi
    exact ⟨i, u, hu, hurl, hdone, fun _ => hjoined (by rw [hphase]; exact nofun)⟩

end Accounted

/-- The write has not ended. -/
def Job.pending : Job → Bool
  | .queued _ => true
  | _ => false

/-- All tasks have stopped, and so have their writes. -/
def Stopped (b : Batch) : Prop :=
  ∀ j t, b.tasks j = some t → t.stage.alive = false ∧ t.job.pending = false

namespace Downloader

variable {s : State} {es : List (ℕ × DownloaderEvent)} {k : ℕ}

/-- In the runs whose steps leave no image without its report, a URL that failed for
another reason than a write error has no image in the directory. -/
theorem failure_leaves_no_image (hr : run (step env config) init es = some s)
    (hm : Meets (step env config) (OnSteps k NoLeftover) init es) (hb : s.locals k = some b)
    {results : List DownloadResult} (hph : b.phase = .returned results) {r : DownloadResult}
    (hmem : r ∈ results) {e : DownloadError} {elapsed : Duration} {n : UInt32}
    (hfail : r.outcome = .failure e elapsed n) (he : ∀ msg, e ≠ .writeError msg) :
    ¬HasImage b.scope.files r.url := by
  intro hi
  obtain ⟨hacc, hasm⟩ := batch_run_invariant
    (I := fun b => Accounted env config b ∧ Assembled config b)
    (fun _ _ _ _ hs => ⟨.start hs, .start hs⟩)
    (fun _ _ _ _ _ hI hok hm => ⟨hI.1.step hok hm, hI.2.step hm⟩) hm hr b hb
  obtain ⟨j, t, ht, hurl, hdone, hj⟩ := hacc.images r.url hi
  have hjoined := hj (by rw [hph]; exact nofun)
  -- a joined task has ended, so the report is its outcome
  obtain ⟨outcome, hs, hk⟩ : ∃ outcome, t.stage = .returned (t.result outcome) ∧
      Reported outcome := by
    cases hdone with
    | returned hs hk => exact ⟨_, hs, hk⟩
    | written hs | sidecar hs =>
      rcases hacc.collected.ended j t ht hjoined with ⟨_, hend⟩ | hend <;> rw [hs] at hend <;>
        cases hend
  have hmap := hacc.collected.resultMap_eq ht hjoined hs
  rcases hasm.mem_results hacc.collected (by rw [hph]; rfl) hmem with ⟨msg, hw⟩ | ⟨d, heq⟩
  · obtain ⟨rfl, -⟩ := DownloadOutcome.failure.inj (hfail.symm.trans hw)
    exact he _ rfl
  · rw [← hurl, assembleOne, hmap] at heq
    rw [heq] at hfail
    obtain rfl : outcome = _ := hfail
    cases e with
    | writeError msg => exact he msg rfl
    | _ => exact hk

/-- Neither a deadline nor a panic, and writes only of live tasks during the collection. -/
def quiet (s : State) : ℕ × DownloaderEvent → Bool
  | (_, .batch (.deadline _ _)) => false
  | (_, .batch (.task _ .panic)) => false
  | (k, .batch (.task j (.perform _))) => match s.locals k with
    | some b => b.phase = .collecting && ((b.tasks j).map fun t => t.stage.alive) = some true
    | none => true
  | _ => true

theorem noLeftover_of_quiet (s : State) (e : ℕ × DownloaderEvent) (h : quiet s e = true) :
    OnSteps k NoLeftover s e := by
  rintro rfl b be hb he
  obtain ⟨k, de⟩ := e
  obtain rfl : de = .batch be := he
  refine ⟨?_, ?_, ?_⟩
  · rintro elapsed total j t rfl
    cases h
  · rintro j t call w rfl ht - - -
    simpa [quiet, hb, ht] using h
  · rintro j t rfl
    cases h

/-- One URL is stored, another one is rejected. -/
def storedRun : List (ℕ × DownloaderEvent) :=
  (0, .call ["http://h/a.png", "http://a b"] "out" (.ok ())) ::
    taskSteps 0 (toWritten [0xFF] ++ [.written 3 ""]) ++ taskSteps 1 [.poll 4] ++
    [(0, .batch (.join 1)), (0, .batch (.join 0)), (0, .batch (.drained (fun _ => 9) 9))]

theorem failure_leaves_no_image_storedRun : ∃ s b, run (step oneUrl {}) init storedRun = some s ∧
    s.locals 0 = some b ∧ ¬HasImage b.scope.files "http://a b" := by
  have heval : (run (step oneUrl {}) init storedRun).map phaseOf =
      some (some (.returned [⟨"http://h/a.png", .success ⟨"out", "a.png"⟩ 1 none 3⟩,
        ⟨"http://a b", .failure (.connectionFailed "invalid URL: invalid uri character")
          4 0⟩])) := by
    decide +kernel
  have hm : Meets (step oneUrl {}) (OnSteps 0 NoLeftover) init storedRun :=
    .of_checks noLeftover_of_quiet (by decide +kernel : checks _ quiet init storedRun = true)
  obtain ⟨s, hr, hs⟩ := Option.map_eq_some_iff.1 heval
  obtain ⟨b, hb, hph⟩ := Option.map_eq_some_iff.1 hs
  exact ⟨s, b, hr, hb, failure_leaves_no_image hr hm hb hph
    (List.mem_cons_of_mem _ List.mem_cons_self) rfl nofun⟩

/-- The deadline fires between the write of the image and its report. -/
def lateRun : List (ℕ × DownloaderEvent) :=
  (0, .call ["http://h/a.png"] "out" (.ok ())) :: taskSteps 0 (toWritten [0xFF]) ++
    [(0, .batch (.deadline (fun _ => 5) 5)), (0, .batch (.task 0 .cancel))]

/-- The first task of the call 0 : whether it runs, and whether it writes. -/
def firstTask (s : State) : Option (Bool × Bool) :=
  (s.locals 0).bind fun b => (b.tasks 0).map fun t => (t.stage.alive, t.job.pending)

/-- The writer of a file of the call 0. -/
def writerOf (name : String) (s : State) : Option Writer :=
  (s.locals 0).bind fun b => (b.scope.files name).map File.writer

/-- The URL is reported as timed out, and its image stays. -/
theorem timeout_leaves_image : ∃ s b, run (step oneUrl timed) init lateRun = some s ∧
    s.locals 0 = some b ∧ Stopped b ∧
    b.phase = .returned [⟨"http://h/a.png", .failure .timeout 5 0⟩] ∧
    HasImage b.scope.files "http://h/a.png" := by
  have hphase : (run (step oneUrl timed) init lateRun).map phaseOf =
      some (some (.returned [⟨"http://h/a.png", .failure .timeout 5 0⟩])) := by decide +kernel
  have hrest : (run (step oneUrl timed) init lateRun).map
      (fun s => ((s.locals 0).map Batch.urls, firstTask s, writerOf "a.png" s)) =
      some (some ["http://h/a.png"], some (false, false), some (.image "http://h/a.png")) := by
    decide +kernel
  obtain ⟨s, hr, hph⟩ := Option.map_eq_some_iff.1 hphase
  rw [hr, Option.map_some] at hrest
  simp only [Option.some.injEq, Prod.mk.injEq] at hrest
  obtain ⟨hurls, hfirst, hwriter⟩ := hrest
  obtain ⟨b, hb, hph⟩ := Option.map_eq_some_iff.1 hph
  simp only [hb, Option.map_some, Option.some.injEq] at hurls
  simp only [firstTask, hb, Option.bind_some] at hfirst
  simp only [writerOf, hb, Option.bind_some] at hwriter
  obtain ⟨f, hf, hw⟩ := Option.map_eq_some_iff.1 hwriter
  refine ⟨s, b, hr, hb, fun j t ht => ?_, hph, "a.png", f, hf, hw⟩
  have hlt := (collected_of_reaches ⟨_, hr⟩ hb).1.lt_length ht
  rw [hurls] at hlt
  obtain rfl : j = 0 := Nat.lt_one_iff.1 hlt
  simpa [ht] using hfirst

end Downloader

end Imgdl
