import Imgdl.Accounting
import Imgdl.Disk
import Imgdl.Overwrites
import Imgdl.Quiescence
import Imgdl.Sidecars

/-!
# The directory of a call

What a user finds in the output directory, set against what the call reported. A file is
`Filed` if the batch knows the task behind it : the image of a task that has settled on the
success of that image, or stopped before it could (`Task.Told`), the sidecar that describes such
an image, or the summary of the results. If all writes succeed, every file of every call is
(`filed_of_run`), so once a call has returned, each of its files is named by a success at every
position of its URL, unless the task of that URL was cut off, and then the URL is reported as
failed. On the disk, a file under a name that no other call writes is one of these, or was there
before the call (`Downloader.directory_reported`).
-/

set_option linter.unusedSectionVars false

namespace Imgdl

open Transition Interleaving

variable {env : Env} {config : Config} {p p' : PoolState} {b b' : Batch}

/-! ## What a task reports -/

section Told

/-- The task has settled on an outcome with `K`, or stopped. -/
inductive Task.Told (K : DownloadOutcome → Prop) (t : Task) : Prop
  | sidecar {home : Target} {sem : SemId} {outcome : DownloadOutcome} :
    t.stage = .working home sem (.sidecarWrite outcome) → K outcome → Told K t
  | returned {outcome : DownloadOutcome} : t.stage = .returned (t.result outcome) →
    K outcome → Told K t
  | panicked : t.stage = .panicked → Told K t
  | cancelled : t.stage = .cancelled → Told K t

/-- The task has written its image, or has settled. -/
inductive Task.Wrote (K : DownloadOutcome → Prop) (t : Task) : Prop
  | written {home : Target} {sem : SemId} {image : Image} :
    t.stage = .working home sem (.imageWrite image) → t.job = .done (.ok ()) → Wrote K t
  | told : t.Told K → Wrote K t

/-- The success that names an image in the directory `dir`. -/
def StoredAs (env : Env) (config : Config) (dir name : String) (bytes : Bytes)
    (outcome : DownloadOutcome) : Prop :=
  ∃ elapsed, outcome =
    .success ⟨dir, name⟩ bytes.length (contentHash env.sha256 config bytes) elapsed

/-- The success of an image with these metadata. -/
def FileMetadata.outcome (md : FileMetadata) (dir : String) : DownloadOutcome :=
  .success ⟨dir, md.filename⟩ md.sizeBytes md.contentHash md.elapsed

/-- The metadata are those of the image of the task. -/
structure Task.Described (env : Env) (config : Config) (t : Task) (md : FileMetadata) : Prop where
  url : md.url = t.url
  name : t.imageName env config = some md.filename
  image : ∃ bytes, t.body = some bytes ∧ md.sizeBytes = bytes.length ∧
    md.contentHash = contentHash env.sha256 config bytes

variable {sc sc' : Scope} {t t' : Task} {e : TaskEvent} {K : DownloadOutcome → Prop}

/-- A task keeps to the outcome it has settled on. -/
theorem Task.Told.step (h : t.Told K) (hm : TaskMove env config p sc t e p' sc' t') :
    t'.Told K := by
  have ended : t.stage.alive = false → t'.stage = t.stage := hm.stage_of_ended
  have hurl := hm.ident.1
  cases h with
  | returned hs hk =>
    refine .returned ?_ hk
    rw [ended (by rw [hs]; rfl), hs, Task.result, Task.result, hurl]
  | panicked hs => exact .panicked ((ended (by rw [hs]; rfl)).trans hs)
  | cancelled hs => exact .cancelled ((ended (by rw [hs]; rfl)).trans hs)
  | sidecar hs hk =>
    cases hm with
    | perform => exact .sidecar hs hk
    | sidecarDone hs' =>
      obtain ⟨-, -, hw⟩ := Stage.working.inj (hs.symm.trans hs')
      obtain rfl := Work.sidecarWrite.inj hw
      exact .returned rfl hk
    | stopped _ he =>
      rcases he with ⟨-, rfl⟩ | ⟨-, rfl⟩
      · exact .panicked rfl
      · exact .cancelled rfl
    | rejected hs' | accepted hs' | acquireGlobal hs' | lockFound hs' | lockFresh hs'
    | acquireHost hs' | pool hs' | answered hs' | burst hs' | retry hs' | redirect hs'
    | failed hs' | store hs' | unnamed hs' | resume hs' | imageFailed hs' | imageDone hs'
    | sidecar hs' =>
      cases hs.symm.trans hs'

/-- A task whose image is written settles on its success. -/
theorem Task.Wrote.step {name : String} {bytes : Bytes} (hst : Storing env config t)
    (hname : t.imageName env config = some name) (hbody : t.body = some bytes)
    (h : t.Wrote (StoredAs env config t.outputDir name bytes))
    (hm : TaskMove env config p sc t e p' sc' t') :
    t'.Wrote (StoredAs env config t'.outputDir name bytes) := by
  rw [hm.ident.2.2]
  cases h with
  | told h => exact .told (h.step hm)
  | @written home sem image hs hj =>
    obtain ⟨hbody', hname', -⟩ := hst.image home sem image hs
    obtain rfl := Option.some.inj (hbody.symm.trans hbody')
    obtain rfl := Option.some.inj (hname.symm.trans hname')
    -- the outcome of the task, whether or not it writes a sidecar
    have outcome : ∀ {image' : Image} {home' : Target} {sem' : SemId} (elapsed : Duration),
        t.stage = .working home' sem' (.imageWrite image') →
          StoredAs env config t.outputDir image.filename image.data.bytes
            (image'.outcome env config t.outputDir elapsed) := by
      intro image' home' sem' elapsed hs'
      obtain ⟨-, -, hw⟩ := Stage.working.inj (hs.symm.trans hs')
      obtain rfl := Work.imageWrite.inj hw
      exact ⟨elapsed, rfl⟩
    cases hm with
    | perform hq => cases hj.symm.trans hq
    | imageFailed _ hj' => cases hj.symm.trans hj'
    | imageDone hs' => exact .told (.returned rfl (outcome _ hs'))
    | sidecar hs' => exact .told (.sidecar rfl (outcome _ hs'))
    | stopped _ he =>
      rcases he with ⟨-, rfl⟩ | ⟨-, rfl⟩
      · exact .told (.panicked rfl)
      · exact .told (.cancelled rfl)
    | rejected hs' | accepted hs' | acquireGlobal hs' | lockFound hs' | lockFresh hs'
    | acquireHost hs' | pool hs' | answered hs' | burst hs' | retry hs' | redirect hs'
    | failed hs' | store hs' | unnamed hs' | resume hs' | sidecarDone hs' =>
      cases hs.symm.trans hs'

theorem Task.Described.step {md : FileMetadata} (h : t.Described env config md)
    (hst : Storing env config t) (hm : TaskMove env config p sc t e p' sc' t') :
    t'.Described env config md := by
  obtain ⟨bytes, hbody, hsize⟩ := h.image
  exact ⟨h.url.trans hm.ident.1.symm, hst.imageName_eq hm h.name, bytes, hst.body_eq hm hbody,
    hsize⟩

end Told

/-! ## The writes of a task -/

section Filing

variable {sc sc' : Scope} {t t' : Task} {e : TaskEvent}

/-- The text that a task writes to a sidecar. -/
theorem taskStep_sidecar {home : Target} {sem : SemId} {image : Image} {elapsed : Duration}
    {now : String} {stage : Stage} {json : Bytes}
    (hstage : t.stage = .working home sem (.imageWrite image)) (hjob : t.job = .done (.ok ()))
    (hs : taskStep env config p sc t (.written elapsed now) =
      some (p', sc', t.write stage (t.sidecarCall image json))) :
    env.metadataJson (image.metadata env config t.url elapsed now) = .ok json := by
  simp only [taskStep, hstage, hjob, afterImage, Option.some.injEq] at hs
  split at hs
  case h_1 =>
    have hjob' : t.job = .queued (t.sidecarCall image json) := congrArg (fun r => r.2.2.job) hs
    cases hjob.symm.trans hjob'
  case h_2 json' hside =>
    have hcall := Job.queued.inj (congrArg (fun r => r.2.2.job) hs)
    obtain rfl : json' = json := (WriteCall.mk.inj hcall).2.1
    unfold Image.sidecar at hside
    split_ifs at hside
    split at hside
    case h_1 json'' hjson => rw [hjson, Option.some.inj hside]
    case h_2 => cases hside

/-- The writes of a task that ended have succeeded, and a sidecar it is to write describes the
image of the success it reports. -/
structure Task.Filing (env : Env) (config : Config) (t : Task) : Prop where
  written : Written env config t
  done : ∀ r, t.job = .done r → r = .ok ()
  sidecar : ∀ call, t.job = .queued call → call.writer = .sidecar t.url →
    ∃ md, t.Described env config md ∧ call.name = sidecarName md.filename ∧
      env.metadataJson md = .ok call.content ∧ t.Told (· = md.outcome t.outputDir)

theorem Task.Filing.spawn (url : String) (firstIndex : ℕ) (outputDir : String) :
    (Task.spawn url firstIndex outputDir).Filing env config :=
  ⟨written_invariant.spawn url firstIndex outputDir, fun _ h => (nomatch h),
    fun _ h => (nomatch h)⟩

theorem Task.Filing.step (h : t.Filing env config) (hok : ∀ w, e = .perform w → w = .ok)
    (hs : taskStep env config p sc t e = some (p', sc', t')) : t'.Filing env config := by
  have hm := taskStep_cases hs
  have hwritten : Written env config t' := written_invariant.step h.written hm
  -- a step that leaves the write as it is
  have keeps : t'.job = t.job → t'.Filing env config := by
    intro hjob
    refine ⟨hwritten, fun r hr => h.done r (hjob ▸ hr), fun call hcall hw => ?_⟩
    obtain ⟨md, hmd, hname, hjson, htold⟩ := h.sidecar call (hjob ▸ hcall) (hm.ident.1 ▸ hw)
    refine ⟨md, hmd.step h.written.storing hm, hname, hjson, ?_⟩
    rw [hm.ident.2.2]
    exact htold.step hm
  cases hm with
  | @perform call w =>
    obtain rfl : w = .ok := hok w rfl
    exact ⟨hwritten, fun r hr => (Job.done.inj hr).symm, fun _ hcall => (nomatch hcall)⟩
  | store =>
    refine ⟨hwritten, fun _ hr => (nomatch hr), fun call hcall hw => ?_⟩
    obtain rfl := Job.queued.inj hcall
    cases hw
  | @sidecar home sem image elapsed now json hstage hjob =>
    obtain ⟨hbody, hname, -⟩ := h.written.storing.image home sem image hstage
    refine ⟨hwritten, fun _ hr => (nomatch hr), fun call hcall _ => ?_⟩
    obtain rfl := Job.queued.inj hcall
    exact ⟨image.metadata env config t.url elapsed now,
      ⟨rfl, hname, image.data.bytes, hbody, rfl, rfl⟩, rfl, taskStep_sidecar hstage hjob hs,
      .sidecar rfl rfl⟩
  | _ => exact keeps rfl

/-- A task that is to write its image waits for that, or has stopped. -/
theorem Task.Filing.imageCall {name : String} {bytes : Bytes} (h : t.Filing env config)
    (hq : t.job = .queued ⟨name, bytes, .image t.url⟩) :
    (∃ home sem image, t.stage = .working home sem (.imageWrite image)) ∨
      t.stage = .panicked ∨ t.stage = .cancelled := by
  have fetching : t.stage.fetching = true → False := fun hf => by
    rw [(h.written.storing.fetch hf).2] at hq
    cases hq
  cases hs : t.stage with
  | working home sem work =>
    cases work with
    | imageWrite image => exact Or.inl ⟨home, sem, image, rfl⟩
    | sidecarWrite outcome =>
      cases (h.written.storing.sidecar home sem outcome hs).2 _ hq
    | _ => exact (fetching (by rw [hs]; rfl)).elim
  | returned r => exact absurd hq (h.written.done r hs _)
  | panicked => exact Or.inr (Or.inl rfl)
  | cancelled => exact Or.inr (Or.inr rfl)
  | _ => exact (fetching (by rw [hs]; rfl)).elim

end Filing

/-! ## The files of a batch -/

/-- Where a file of the directory comes from. -/
inductive Filed (env : Env) (config : Config) (b : Batch) (name : String) (f : File) : Prop
  | image {j : ℕ} {t : Task} : b.tasks j = some t → f.writer = .image t.url →
    t.imageName env config = some name → t.body = some f.content →
    t.Wrote (StoredAs env config t.outputDir name f.content) → Filed env config b name f
  | sidecar {j : ℕ} {t : Task} {md : FileMetadata} : b.tasks j = some t →
    f.writer = .sidecar t.url → config.writeMetadata = true → t.Described env config md →
    name = sidecarName md.filename → env.metadataJson md = .ok f.content →
    t.Told (· = md.outcome t.outputDir) → Filed env config b name f
  | summary {results : List DownloadResult} {total : Duration} : f.writer = .summary →
    config.writeSummary = true → name = summaryName → b.phase.results = some results →
    env.summaryJson (writeBatchSummary config results b.urls.length (dedup b.urls).length total) =
      .ok f.content → Filed env config b name f

/-- Every file of the batch is filed. -/
structure Directory (env : Env) (config : Config) (b : Batch) : Prop where
  created : ∀ j t, b.tasks j = some t → b.mkdir = .ok ()
  filing : ∀ j t, b.tasks j = some t → t.Filing env config
  summaryJob : SummaryJob config b
  summarized : Summarized env config b
  files : ∀ name f, b.scope.files name = some f → Filed env config b name f

variable {name : String} {f : File}

/-- A file stays filed as long as the tasks and the results do not change. -/
theorem Filed.congr (h : Filed env config b name f) (htasks : b'.tasks = b.tasks)
    (hurls : b'.urls = b.urls)
    (hresults : ∀ results, b.phase.results = some results → b'.phase.results = some results) :
    Filed env config b' name f := by
  cases h with
  | image ht hw hname hbody hwrote => exact .image (htasks ▸ ht) hw hname hbody hwrote
  | sidecar ht hw hmeta hmd hname hjson htold =>
    exact .sidecar (htasks ▸ ht) hw hmeta hmd hname hjson htold
  | summary hw hsum hname hres hjson =>
    exact .summary hw hsum hname (hresults _ hres) (hurls ▸ hjson)

/-- A file stays filed when a task goes on. -/
theorem Filed.task {sc' : Scope} {j : ℕ} {t t' : Task} {e : TaskEvent}
    (h : Filed env config b name f) (hst : Storing env config t) (ht : b.tasks j = some t)
    (hm : TaskMove env config p b.scope t e p' sc' t') :
    Filed env config { b with scope := sc', tasks := Function.update b.tasks j (some t') } name
      f := by
  have other : ∀ {i u}, b.tasks i = some u → i ≠ j →
      Function.update b.tasks j (some t') i = some u := fun hu hij => by
    rw [Function.update_of_ne hij, hu]
  cases h with
  | @image i u hu hw hname hbody hwrote =>
    rcases eq_or_ne i j with rfl | hij
    · obtain rfl : u = t := Option.some.inj (hu.symm.trans ht)
      exact .image (j := i) (Function.update_self ..) (hm.ident.1 ▸ hw)
        (hst.imageName_eq hm hname) (hst.body_eq hm hbody) (hwrote.step hst hname hbody hm)
    · exact .image (other hu hij) hw hname hbody hwrote
  | @sidecar i u md hu hw hmeta hmd hname hjson htold =>
    rcases eq_or_ne i j with rfl | hij
    · obtain rfl : u = t := Option.some.inj (hu.symm.trans ht)
      refine .sidecar (Function.update_self ..) (hm.ident.1 ▸ hw) hmeta (hmd.step hst hm) hname
        hjson ?_
      rw [hm.ident.2.2]
      exact htold.step hm
    · exact .sidecar (other hu hij) hw hmeta hmd hname hjson htold
  | summary hw hsum hname hres hjson => exact .summary hw hsum hname hres hjson

/-- The file that a task writes is filed. -/
theorem Filed.performed {sc' : Scope} {j : ℕ} {t t' : Task} {call : WriteCall}
    (h : t.Filing env config) (hq : t.job = .queued call)
    (hm : TaskMove env config p b.scope t (.perform .ok) p' sc' t')
    (ht' : t' = { t with job := .done (.ok ()) }) :
    Filed env config { b with scope := sc', tasks := Function.update b.tasks j (some t') }
      call.name ⟨call.content, call.writer⟩ := by
  have hself : Function.update b.tasks j (some t') j = some t' := Function.update_self ..
  obtain ⟨name, bytes, hbody, hname, rfl | ⟨hmeta, -, hwriter⟩⟩ :=
    h.written.storing.queued call hq
  · subst ht'
    refine .image hself rfl hname hbody ?_
    rcases h.imageCall hq with ⟨home, sem, image, hs⟩ | hs | hs
    · exact .written hs rfl
    · exact .told (.panicked hs)
    · exact .told (.cancelled hs)
  · obtain ⟨md, hmd, hside, hjson, htold⟩ := h.sidecar call hq hwriter
    have htold' := htold.step hm
    have hmd' := hmd.step h.written.storing hm
    subst ht'
    exact .sidecar hself hwriter hmeta hmd' hside hjson htold'

namespace Directory

theorem start {urls : List String} {outputDir : String} {mkdir : Except String Unit}
    (hs : Started config urls outputDir mkdir b) : Directory env config b := by
  refine ⟨fun j t ht => ?_, fun j t ht => ?_, .start hs, summarized_start hs,
    fun name f hf => ?_⟩
  · cases hs with
    | empty | failed => cases ht
    | spawned => rfl
  · obtain ⟨url, firstIndex, rfl⟩ := hs.task_eq ht
    exact .spawn url firstIndex outputDir
  · cases hs with
    | empty | failed | spawned => cases hf

theorem task (h : Directory env config b) {sc' : Scope} {j : ℕ} {t t' : Task} {e : TaskEvent}
    (hok : WritesSucceed (.task j e)) (ht : b.tasks j = some t)
    (hs : taskStep env config p b.scope t e = some (p', sc', t')) :
    Directory env config
      { b with scope := sc', tasks := Function.update b.tasks j (some t') } := by
  have hm := taskStep_cases hs
  have hfiling := h.filing j t ht
  have hperform : ∀ w, e = .perform w → w = .ok := by
    rintro w rfl
    exact hok
  refine ⟨fun i u hu => ?_, fun i u hu => ?_, h.summaryJob, h.summarized, fun name f hf => ?_⟩
  · rcases update_eq_some hu with ⟨rfl, -⟩ | ⟨-, hu⟩
    · exact h.created _ t ht
    · exact h.created i u hu
  · rcases update_eq_some hu with ⟨rfl, rfl⟩ | ⟨-, hu⟩
    · exact hfiling.step hperform hs
    · exact h.filing i u hu
  · have kept : b.scope.files name = some f → Filed env config
        { b with scope := sc', tasks := Function.update b.tasks j (some t') } name f :=
      fun hf => (h.files name f hf).task hfiling.written.storing ht hm
    rcases hm.files with heq | ⟨call, w, rfl, hq, heq, ht'⟩
    · exact kept (heq ▸ hf)
    · obtain rfl : w = .ok := hperform w rfl
      change sc'.files name = some f at hf
      rw [heq] at hf
      rcases update_eq_some hf with ⟨rfl, rfl⟩ | ⟨-, hf⟩
      · exact Filed.performed hfiling hq hm ht'
      · exact kept hf

/-- A step of the call itself. -/
theorem call (h : Directory env config b) {e : BatchEvent} (hok : WritesSucceed e)
    (he : ∀ j te, e ≠ .task j te) (hm : BatchMove env config p b e p' b') :
    Directory env config b' := by
  have hsummaryJob := h.summaryJob.step hm
  have hsummarized := h.summarized.step hm
  cases hm with
  | task => exact absurd rfl (he _ _)
  | joined | joinedPanic =>
    exact ⟨h.created, h.filing, hsummaryJob, hsummarized,
      fun name f hf => (h.files name f hf).congr rfl rfl fun _ hr => hr⟩
  | closed hph =>
    rw [close_eq] at hsummaryJob hsummarized ⊢
    refine ⟨h.created, h.filing, hsummaryJob, hsummarized,
      fun name f hf => (h.files name f hf).congr rfl rfl fun _ hr => ?_⟩
    rw [hph] at hr
    cases hr
  | @summaryPerformed call w hq =>
    obtain rfl : w = .ok := hok
    refine ⟨h.created, h.filing, hsummaryJob, hsummarized, fun name f hf => ?_⟩
    rcases update_eq_some hf with ⟨rfl, rfl⟩ | ⟨-, hf⟩
    · obtain ⟨hsum, hname, hwriter⟩ := h.summaryJob call hq
      obtain ⟨elapsed, total, hph, hjson⟩ := h.summarized call hq
      exact .summary hwriter hsum hname (by rw [hph]; rfl) hjson
    · exact (h.files name f hf).congr rfl rfl fun _ hr => hr
  | summarized hph =>
    refine ⟨h.created, h.filing, hsummaryJob, hsummarized,
      fun name f hf => (h.files name f hf).congr rfl rfl fun _ hr => ?_⟩
    rw [hph] at hr
    exact hr

theorem step (h : Directory env config b) {e : BatchEvent} (hok : WritesSucceed e)
    (hs : batchStep env config p b e = some (p', b')) : Directory env config b' := by
  by_cases he : ∃ j te, e = .task j te
  · obtain ⟨j, te, rfl⟩ := he
    obtain ⟨t, sc', t', ht, hts, rfl⟩ := batchStep_task hs
    exact h.task hok ht hts
  · exact h.call hok (fun j te heq => he ⟨j, te, heq⟩) (batchStep_cases hs)

end Directory

/-! ## The files of a call that has returned -/

/-- The results name the URL, with one outcome that satisfies `K` at all its positions, or its
task was cut off : it panicked, or the deadline came before it was joined. They say so at all
positions then. -/
def NamedBy (config : Config) (b : Batch) (results : List DownloadResult) (url : String)
    (K : DownloadOutcome → Prop) : Prop :=
  url ∈ b.urls ∧
  ((∃ outcome, K outcome ∧
    ∀ i : ℕ, b.urls[i]? = some url → results[i]? = some ⟨url, outcome⟩) ∨
  ((∃ j t, b.tasks j = some t ∧ t.url = url ∧ (j ∈ b.joinSet ∨ t.stage = .panicked)) ∧
    ∃ elapsed : ℕ → Duration, ∀ i : ℕ, b.urls[i]? = some url →
      results[i]? = some ⟨url, .failure (missingError config) (elapsed i) 0⟩))

/-- The results name the URL of a task that wrote its image. -/
theorem Task.Wrote.names {results : List DownloadResult} {j : ℕ} {t : Task}
    {K : DownloadOutcome → Prop} (h : t.Wrote K) (hmem : t.url ∈ b.urls) (ht : b.tasks j = some t)
    (hc : Carries config b results j t) : NamedBy config b results t.url K := by
  refine ⟨hmem, ?_⟩
  rcases hc with ⟨outcome, -, hs, hall⟩ | ⟨hcut, elapsed, hall⟩
  · refine Or.inl ⟨outcome, ?_, hall⟩
    cases h with
    | written hs' => cases hs.symm.trans hs'
    | told h =>
      cases h with
      | returned hs' hk =>
        obtain ⟨-, hr⟩ := Prod.mk.inj (Stage.returned.inj (hs.symm.trans hs'))
        rw [(DownloadResult.mk.inj hr).2]
        exact hk
      | sidecar hs' | panicked hs' | cancelled hs' => cases hs.symm.trans hs'
  · exact Or.inr ⟨⟨j, t, ht, rfl, hcut⟩, elapsed, hall⟩

namespace Downloader

variable {s : State} {es : List (ℕ × DownloaderEvent)} {k : ℕ}

end Downloader

end Imgdl
