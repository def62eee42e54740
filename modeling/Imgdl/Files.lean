import Imgdl.Assembly

/-!
# The files of a batch

What the tasks of a batch write, and when. `Storing` is the invariant of a task : up to its
response it has no image and no write, then it writes its image under the name generated
for it, then its sidecar. `TaskMove.files` lists the sections that change a file.

`Task.ImageDone K` says that the write of the image is over, and that the outcome of the
task, once there is one, satisfies `K`.
-/

set_option linter.unusedSectionVars false

namespace Imgdl

open Transition Interleaving

variable {env : Env} {config : Config}

/-- The file name generated for the image of a task. -/
def Task.imageName (env : Env) (config : Config) (t : Task) : Option String :=
  t.body.bind fun bytes =>
    generateFilename env.overflowChecks env.sha256 t.url t.firstIndex bytes config.namingStrategy

/-- The stages before the response of a task is accepted. -/
def Stage.fetching : Stage → Bool
  | spawned => true
  | globalWait _ => true
  | hostLock _ => true
  | hostWait _ _ => true
  | working _ _ (.attempt _ _ _) => true
  | working _ _ (.backoff _ _ _) => true
  | _ => false

/-- A success names the image of the task. -/
def Task.Names (env : Env) (config : Config) (t : Task) (outcome : DownloadOutcome) : Prop :=
  ∀ path size hash elapsed, outcome = .success path size hash elapsed →
    path.dir = t.outputDir ∧ t.imageName env config = some path.fileName

/-- The image of a task, and its writes. -/
structure Storing (env : Env) (config : Config) (t : Task) : Prop where
  fetch : t.stage.fetching = true → t.body = none ∧ t.job = .idle
  image : ∀ home sem image, t.stage = .working home sem (.imageWrite image) →
    t.body = some image.data.bytes ∧ t.imageName env config = some image.filename ∧
      (t.job = .queued (t.imageCall image) ∨ ∃ r, t.job = .done r)
  sidecar : ∀ home sem outcome, t.stage = .working home sem (.sidecarWrite outcome) →
    t.Names env config outcome ∧ ∀ call, t.job = .queued call → call.writer = .sidecar t.url
  returned : ∀ outcome, t.stage = .returned (t.result outcome) → t.Names env config outcome
  queued : ∀ call, t.job = .queued call → ∃ name bytes, t.body = some bytes ∧
    t.imageName env config = some name ∧ (call = ⟨name, bytes, .image t.url⟩ ∨
      (config.writeMetadata = true ∧ call.name = sidecarName name ∧
        call.writer = .sidecar t.url))

/-- The name in a decision to store an image. -/
theorem settleAttempt_write {url : String} {firstIndex : ℕ} {leg : Leg} {n : UInt32}
    {subsecNanos : ℕ} {result : Except DownloadError TransportResult} {image : Image}
    (h : settleAttempt env config url firstIndex leg n subsecNanos result = .write image) :
    generateFilename env.overflowChecks env.sha256 url firstIndex image.data.bytes
      config.namingStrategy = some image.filename := by
  have response : ∀ {data : ResponseData} {retries : UInt32},
      settleResponse env config url firstIndex data retries = .write image →
        generateFilename env.overflowChecks env.sha256 url firstIndex image.data.bytes
          config.namingStrategy = some image.filename := by
    intro data retries h
    unfold settleResponse at h
    split at h
    · cases h
    · split at h
      · cases h
      case h_2 filename hname =>
        obtain rfl := Settled.write.inj h
        exact hname
  unfold settleAttempt at h
  split at h
  · cases h
  · unfold settleResult at h
    split at h
    · exact response h
    · split at h <;> cases h
    · cases h
    · exact response h
    · cases h
    · cases h

namespace Storing

variable {t : Task}

/-- A task without an image and without a write. -/
theorem of_idle (hbody : t.body = none) (hjob : t.job = .idle)
    (himage : ∀ home sem image, t.stage ≠ .working home sem (.imageWrite image))
    (hsidecar : ∀ home sem outcome, t.stage ≠ .working home sem (.sidecarWrite outcome))
    (hreturned : ∀ outcome, t.stage = .returned (t.result outcome) →
      t.Names env config outcome) : Storing env config t where
  fetch _ := ⟨hbody, hjob⟩
  image home sem image h := absurd h (himage home sem image)
  sidecar home sem outcome h := absurd h (hsidecar home sem outcome)
  returned := hreturned
  queued call h := by
    rw [hjob] at h
    cases h

/-- The task ends : its outcome, if it has one, names its image. -/
theorem ends {stage : Stage} (h : Storing env config t) (halive : stage.alive = false)
    (hreturned : ∀ outcome, stage = .returned (t.result outcome) → t.Names env config outcome) :
    Storing env config (t.goto stage) where
  fetch hf := by
    change stage.fetching = true at hf
    cases stage <;> simp [Stage.alive, Stage.fetching] at halive hf
  image home sem image hs := by
    obtain rfl : stage = _ := hs
    cases halive
  sidecar home sem outcome hs := by
    obtain rfl : stage = _ := hs
    cases halive
  returned := hreturned
  queued := h.queued

theorem spawn (url : String) (firstIndex : ℕ) (outputDir : String) :
    Storing env config (Task.spawn url firstIndex outputDir) :=
  of_idle rfl rfl (fun _ _ _ h => (nomatch h)) (fun _ _ _ h => (nomatch h))
    fun _ h => (nomatch h)

/-- A failure names nothing. -/
theorem names_failure (t : Task) (e : DownloadError) (elapsed : Duration) (n : UInt32) :
    t.Names env config (.failure e elapsed n) :=
  fun _ _ _ _ h => (nomatch h)

/-- A task that has its image names it in its outcome. -/
theorem names_outcome {home : Target} {sem : SemId} {image : Image} (h : Storing env config t)
    (hs : t.stage = .working home sem (.imageWrite image)) (elapsed : Duration) :
    t.Names env config (image.outcome env config t.outputDir elapsed) := by
  rintro path size hash elapsed' heq
  obtain ⟨rfl, -⟩ := DownloadOutcome.success.inj heq
  exact ⟨rfl, (h.image home sem image hs).2.1⟩

end Storing

theorem storing_invariant : TaskInvariant env config (Storing env config) := by
  refine ⟨Storing.spawn, fun {p p' sc sc' t t' e} h hm => ?_⟩
  have idle : ∀ {stage : Stage}, t.stage.fetching = true → stage.fetching = true →
      Storing env config (t.goto stage) := by
    intro stage hf hf'
    obtain ⟨hbody, hjob⟩ := h.fetch hf
    refine .of_idle hbody hjob ?_ ?_ ?_
    · rintro _ _ _ rfl
      cases hf'
    · rintro _ _ _ rfl
      cases hf'
    · intro outcome heq
      have hst : stage = .returned (t.result outcome) := heq
      rw [hst] at hf'
      cases hf'
  have names : ∀ {outcome : DownloadOutcome}, t.Names env config outcome →
      Storing env config (t.finish outcome) := by
    intro outcome hn
    refine h.ends rfl fun outcome' heq => ?_
    obtain ⟨-, heq⟩ := Prod.mk.inj (Stage.returned.inj heq)
    exact (DownloadResult.mk.inj heq).2 ▸ hn
  cases hm with
  | accepted hs | acquireGlobal hs | lockFound hs | lockFresh hs | acquireHost hs | pool hs
  | answered hs | retry hs | redirect hs | resume hs => exact idle (by rw [hs]; rfl) rfl
  | rejected | failed | imageFailed => exact names (Storing.names_failure _ _ _ _)
  | burst | unnamed => exact h.ends rfl fun _ heq => (nomatch heq)
  | stopped _ he _ =>
    rcases he with ⟨-, rfl⟩ | ⟨-, rfl⟩ <;> exact h.ends rfl fun _ heq => (nomatch heq)
  | imageDone hs _ => exact names (h.names_outcome hs _)
  | sidecarDone hs _ => exact names (h.sidecar _ _ _ hs).1
  | @store home sem leg n elapsed subsecNanos result image hs hset =>
    have hname := settleAttempt_write hset
    refine ⟨fun hf => (nomatch hf), fun home' sem' image' hs' => ?_, fun _ _ _ hs' => (nomatch hs'),
      fun _ hs' => (nomatch hs'), fun call hcall => ?_⟩
    · obtain ⟨-, -, hw⟩ := Stage.working.inj hs'
      obtain rfl := Work.imageWrite.inj hw
      exact ⟨rfl, hname, Or.inl rfl⟩
    · obtain rfl := Job.queued.inj hcall
      exact ⟨image.filename, image.data.bytes, rfl, hname, Or.inl rfl⟩
  | perform hq =>
    refine ⟨fun hf => ?_, fun home sem image hs => ?_, fun home sem outcome hs => ?_, h.returned,
      fun _ hcall => (nomatch hcall)⟩
    · rw [(h.fetch hf).2] at hq
      cases hq
    · obtain ⟨hbody, hname, -⟩ := h.image home sem image hs
      exact ⟨hbody, hname, Or.inr ⟨_, rfl⟩⟩
    · exact ⟨(h.sidecar home sem outcome hs).1, fun _ hcall => (nomatch hcall)⟩
  | @sidecar home sem image elapsed now json hs _ hmeta =>
    obtain ⟨hbody, hname, -⟩ := h.image home sem image hs
    refine ⟨fun hf => (nomatch hf), fun _ _ _ hs' => (nomatch hs'),
      fun home' sem' outcome hs' => ?_, fun _ hs' => (nomatch hs'), fun call hcall => ?_⟩
    · obtain ⟨-, -, hw⟩ := Stage.working.inj hs'
      obtain rfl := Work.sidecarWrite.inj hw
      refine ⟨h.names_outcome hs elapsed, fun call hcall => ?_⟩
      obtain rfl := Job.queued.inj hcall
      rfl
    · obtain rfl := Job.queued.inj hcall
      exact ⟨image.filename, image.data.bytes, hbody, hname, Or.inr ⟨hmeta, rfl, rfl⟩⟩

/-- A task keeps its image. -/
theorem Storing.body_eq {p p' : PoolState} {sc sc' : Scope} {t t' : Task} {e : TaskEvent}
    (h : Storing env config t) (hm : TaskMove env config p sc t e p' sc' t') {bytes : Bytes}
    (hbody : t.body = some bytes) : t'.body = some bytes := by
  cases hm with
  | store hs _ =>
    rw [(h.fetch (by rw [hs]; rfl)).1] at hbody
    cases hbody
  | _ => exact hbody

/-- A task keeps the name of its image. -/
theorem Storing.imageName_eq {p p' : PoolState} {sc sc' : Scope} {t t' : Task} {e : TaskEvent}
    (h : Storing env config t) (hm : TaskMove env config p sc t e p' sc' t') {name : String}
    (hname : t.imageName env config = some name) : t'.imageName env config = some name := by
  obtain ⟨bytes, hbody, -⟩ := Option.bind_eq_some_iff.1 hname
  rw [Task.imageName, h.body_eq hm hbody, hm.ident.1, hm.ident.2.1, ← hbody]
  exact hname

/-! ## The steps that change a file -/

/-- A write under another name. -/
theorem WriteEnd.apply_of_ne {files : Files} {call : WriteCall} {name : String}
    (h : name ≠ call.name) (w : WriteEnd) : w.apply files call name = files name := by
  cases w with
  | ok => exact Function.update_of_ne h _ _
  | failed e left =>
    cases left with
    | none => rfl
    | some bytes => exact Function.update_of_ne h _ _

/-- The write of the image is over, and the outcome of the task satisfies `K`. -/
inductive Task.ImageDone (K : DownloadOutcome → Prop) (t : Task) : Prop
  | written {home : Target} {sem : SemId} {image : Image} {r : Except String Unit} :
    t.stage = .working home sem (.imageWrite image) → t.job = .done r → ImageDone K t
  | sidecar {home : Target} {sem : SemId} {outcome : DownloadOutcome} :
    t.stage = .working home sem (.sidecarWrite outcome) → K outcome → ImageDone K t
  | returned {outcome : DownloadOutcome} : t.stage = .returned (t.result outcome) →
    K outcome → ImageDone K t

theorem Task.ImageDone.fetching {K : DownloadOutcome → Prop} {t : Task} (h : t.ImageDone K) :
    t.stage.fetching = false := by
  cases h with
  | written hs | sidecar hs | returned hs => rw [hs]; rfl

theorem Task.ImageDone.of_finish {K : DownloadOutcome → Prop} {t : Task}
    {outcome : DownloadOutcome} (h : (t.finish outcome).ImageDone K) : K outcome := by
  cases h with
  | written hs | sidecar hs => cases hs
  | returned hs hk =>
    obtain ⟨-, hr⟩ := Prod.mk.inj (Stage.returned.inj hs)
    exact (DownloadResult.mk.inj hr).2 ▸ hk

/-- The summary is written under its own name. -/
def SummaryJob (config : Config) (b : Batch) : Prop :=
  ∀ call, b.summaryJob = .queued call →
    config.writeSummary = true ∧ call.name = summaryName ∧ call.writer = .summary

variable {p p' : PoolState} {b b' : Batch}

theorem TaskMove.files {sc sc' : Scope} {t t' : Task} {e : TaskEvent}
    (hm : TaskMove env config p sc t e p' sc' t') : sc'.files = sc.files ∨
      ∃ call w, e = .perform w ∧ t.job = .queued call ∧ sc'.files = w.apply sc.files call ∧
        t' = { t with job := .done w.result } := by
  cases hm with
  | perform hq => exact Or.inr ⟨_, _, rfl, hq, rfl, rfl⟩
  | _ => exact Or.inl rfl

namespace SummaryJob

theorem start {urls : List String} {outputDir : String} {mkdir : Except String Unit}
    (hs : Started config urls outputDir mkdir b) : SummaryJob config b := by
  cases hs with
  | empty | failed | spawned => exact fun _ h => (nomatch h)

theorem step {e : BatchEvent} (h : SummaryJob config b)
    (hm : BatchMove env config p b e p' b') : SummaryJob config b' := by
  cases hm with
  | task | joined | joinedPanic | summarized => exact h
  | summaryPerformed => exact fun _ hq => (nomatch hq)
  | @closed _ elapsed total _ _ =>
    rcases close_cases env config b elapsed total with hc | ⟨json, hw, hc⟩ <;> rw [hc]
    · exact h
    · rintro call hq
      obtain rfl := Job.queued.inj hq
      exact ⟨hw, rfl, rfl⟩

end SummaryJob

end Imgdl
