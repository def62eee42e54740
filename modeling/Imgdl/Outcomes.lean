import Imgdl.Files
import Imgdl.ReportedRetries

/-!
# The outcome of a download

`Trail` is what the outside made of a download : how its transport ended, and how its
writes did. `Exit` lists the ways to an outcome. A failure is that of the first stage that
failed (`FirstFailure`), and a success has passed all of them but the sidecar, which no
outcome depends on.

A task that has returned went one of these ways (`download_one_outcome`), and the write of a
success left the image in the directory (`Stores`).
-/

set_option linter.unusedSectionVars false

namespace Imgdl

open Transition Interleaving

/-- What the outside made of a download so far. A write is recorded with how it ended. -/
structure Trail where
  attempted : Bool
  transport : Option (Except DownloadError ResponseData)
  image : Option (WriteCall × Except String Unit)
  sidecar : Option (WriteCall × Except String Unit)

/-- Before the first attempt. -/
def Trail.new : Trail :=
  ⟨false, none, none, none⟩

/-- How the transport of a download ends with the result of an attempt, unless the attempt is
followed by another one or by a redirect to another host. -/
def transportEnd (config : Config) (leg : Leg) (n : UInt32) :
    Except DownloadError TransportResult → Option (Except DownloadError ResponseData)
  | .ok (.response data) => some (.ok data)
  | .ok (.redirect redir) => match leg with
    | .origin => match redirectTarget redir with
      | .error e => some (.error e)
      | .ok _ => none
    | .crossHost _ _ => some (.error (.tooManyRedirects "too many cross-host redirects"))
  | .error e => if isRetryable e ∧ n < config.maxRetries then none else some (.error e)

/-- The trail after a section of the task `t`. -/
def Trail.note (config : Config) (t : Task) (trail : Trail) : TaskEvent → Trail
  | .acquireHost => { trail with attempted := true }
  | .settle _ _ => match t.stage with
    | .working _ _ (.attempt leg n (.finished result)) =>
      { trail with transport := transportEnd config leg n result }
    | _ => trail
  | .perform w => match t.stage, t.job with
    | .working _ _ (.imageWrite _), .queued call => { trail with image := some (call, w.result) }
    | .working _ _ (.sidecarWrite _), .queued call =>
      { trail with sidecar := some (call, w.result) }
    | _, _ => trail
  | _ => trail

/-! ## Ways to an outcome -/

section Exits

variable (env : Env) (config : Config) (url outputDir : String) (trail : Trail)

/-- The URL has a target. -/
def Parses : Prop :=
  ∃ home, parseTarget env.http config url = .ok home

/-- The first stage that failed, with its error. No later one was run. -/
inductive FirstFailure : DownloadError → Prop
  | url {e : DownloadError} : parseTarget env.http config url = .error e → trail = .new →
    FirstFailure e
  | transport {e : DownloadError} : Parses env config url →
    trail = ⟨true, some (.error e), none, none⟩ → FirstFailure e
  | response {data : ResponseData} {e : DownloadError} : Parses env config url →
    validateResponse data.bytes data.headers = .error e →
    trail = ⟨true, some (.ok data), none, none⟩ → FirstFailure e
  | imageWrite {data : ResponseData} {name msg : String} : Parses env config url →
    validateResponse data.bytes data.headers = .ok () →
    trail = ⟨true, some (.ok data), some (⟨name, data.bytes, .image url⟩, .error msg), none⟩ →
    FirstFailure (.writeError msg)

/-- The image comes from a valid response. -/
structure Fetched (image : Image) : Prop where
  parses : Parses env config url
  valid : validateResponse image.data.bytes image.data.headers = .ok ()
  attempted : trail.attempted = true
  transport : trail.transport = some (.ok image.data)

/-- How a download that returns comes to its outcome. -/
inductive Exit : DownloadOutcome → Prop
  | failed {e : DownloadError} {elapsed : Duration} {n : UInt32} :
    FirstFailure env config url trail e → Exit (.failure e elapsed n)
  | written {image : Image} {elapsed : Duration} : Fetched env config url trail image →
    trail.image = some (⟨image.filename, image.data.bytes, .image url⟩, .ok ()) →
    Exit (image.outcome env config outputDir elapsed)

/-- What the trail of a task is at a stage. -/
def Stage.Explained (job : Job) : Stage → Prop
  | spawned => trail = .new
  | globalWait _ => Parses env config url ∧ trail = .new
  | hostLock _ => Parses env config url ∧ trail = .new
  | hostWait _ _ => Parses env config url ∧ trail = .new
  | working _ _ (.attempt _ _ _) => Parses env config url ∧ trail = ⟨true, none, none, none⟩
  | working _ _ (.backoff _ _ _) => Parses env config url ∧ trail = ⟨true, none, none, none⟩
  | working _ _ (.imageWrite image) => Fetched env config url trail image ∧ trail.sidecar = none ∧
    let call : WriteCall := ⟨image.filename, image.data.bytes, .image url⟩
    ((job = .queued call ∧ trail.image = none) ∨
      ∃ r, job = .done r ∧ trail.image = some (call, r))
  | working _ _ (.sidecarWrite outcome) => ∃ image elapsed,
    outcome = image.outcome env config outputDir elapsed ∧ Fetched env config url trail image ∧
      trail.image = some (⟨image.filename, image.data.bytes, .image url⟩, .ok ())
  | returned r => ∃ outcome, r = (url, ⟨url, outcome⟩) ∧ Exit env config url outputDir trail outcome
  | panicked => True
  | cancelled => True

/-- What the trail of a task is. -/
def Task.Explained (t : Task) : Prop :=
  t.stage.Explained env config t.url t.outputDir trail t.job

end Exits

variable {env : Env} {config : Config} {p p' : PoolState} {sc sc' : Scope} {t t' : Task}
  {e : TaskEvent} {trail : Trail}

/-! ## One section -/

section Settle

variable {url : String} {firstIndex subsecNanos : ℕ} {leg : Leg} {n : UInt32}
  {result : Except DownloadError TransportResult}

/-- What the transport came to, by what follows an attempt. -/
def Settled.Ends (transport : Option (Except DownloadError ResponseData)) : Settled → Prop
  | .retry _ => transport = none
  | .redirect _ _ => transport = none
  | .failed e _ => transport = some (.error e) ∨ ∃ data, transport = some (.ok data) ∧
    validateResponse data.bytes data.headers = .error e
  | .write image => transport = some (.ok image.data) ∧
    validateResponse image.data.bytes image.data.headers = .ok ()
  | .panicked => True

theorem settleResponse_ends (data : ResponseData) (retries : UInt32) :
    (settleResponse env config url firstIndex data retries).Ends (some (.ok data)) := by
  unfold settleResponse
  cases hvalid : validateResponse data.bytes data.headers with
  | error e => exact Or.inr ⟨data, rfl, hvalid⟩
  | ok u =>
    simp only
    split
    · trivial
    · exact ⟨rfl, hvalid⟩

theorem settleResult_ends (retries : UInt32) (hfinal : ∀ e, result = .error e →
    ¬(isRetryable e = true ∧ n < config.maxRetries)) :
    (settleResult env config url firstIndex retries leg result).Ends
      (transportEnd config leg n result) := by
  cases result with
  | error e =>
    have hend : transportEnd config leg n (.error e) = some (.error e) := if_neg (hfinal e rfl)
    rw [hend]
    cases leg with
    | origin => exact Or.inl rfl
    | crossHost target m => exact Or.inl rfl
  | ok r =>
    cases r with
    | response data =>
      cases leg with
      | origin => exact settleResponse_ends _ _
      | crossHost target m => exact settleResponse_ends _ _
    | redirect redir =>
      cases leg with
      | crossHost target m => exact Or.inl rfl
      | origin =>
        simp only [settleResult, transportEnd]
        cases redirectTarget redir with
        | error e => exact Or.inl rfl
        | ok target => rfl

theorem settleAttempt_trail :
    (settleAttempt env config url firstIndex leg n subsecNanos result).Ends
      (transportEnd config leg n result) := by
  unfold settleAttempt retryTurn
  cases result with
  | ok r => exact settleResult_ends n fun e h => (nomatch h)
  | error e =>
    simp only
    split_ifs with hfinal hlimit
    · refine settleResult_ends n fun e' h ⟨hretry, _⟩ => ?_
      obtain rfl := Except.error.inj h
      simp [hretry] at hfinal
    · exact settleResult_ends n fun _ _ ⟨_, hlt⟩ => absurd hlimit (UInt32.not_le.2 hlt)
    · exact if_pos ⟨by simpa using hfinal, UInt32.not_le.1 hlimit⟩

end Settle

theorem Trail.note_settle {home : Target} {sem : SemId} {leg : Leg} {n : UInt32}
    {result : Except DownloadError TransportResult} {elapsed : Duration} {subsecNanos : ℕ}
    (hs : t.stage = .working home sem (.attempt leg n (.finished result))) :
    trail.note config t (.settle elapsed subsecNanos) =
      { trail with
        transport := transportEnd config leg n result } := by
  simp only [Trail.note, hs]

/-- A task after an attempt. -/
theorem Task.Explained.finished {home : Target} {sem : SemId} {leg : Leg} {n : UInt32}
    {result : Except DownloadError TransportResult} {elapsed : Duration} {subsecNanos : ℕ}
    {r : Settled} (h : t.Explained env config trail)
    (hs : t.stage = .working home sem (.attempt leg n (.finished result)))
    (hset : settleAttempt env config t.url t.firstIndex leg n subsecNanos result = r) :
    Parses env config t.url ∧ ∃ transport, r.Ends transport ∧
      trail.note config t (.settle elapsed subsecNanos) = ⟨true, transport, none, none⟩ := by
  rw [Task.Explained, hs] at h
  obtain ⟨hparses, rfl⟩ := h
  rw [Trail.note_settle hs]
  exact ⟨hparses, _, hset ▸ settleAttempt_trail, rfl⟩

/-- A task after the write of its image. -/
theorem Task.Explained.imageEnded {home : Target} {sem : SemId} {image : Image}
    {r : Except String Unit} (h : t.Explained env config trail)
    (hs : t.stage = .working home sem (.imageWrite image)) (hjob : t.job = .done r) :
    Fetched env config t.url trail image ∧ trail.sidecar = none ∧
      trail.image = some (⟨image.filename, image.data.bytes, .image t.url⟩, r) := by
  rw [Task.Explained, hs, hjob] at h
  obtain ⟨hfetched, hside, ⟨hq, -⟩ | ⟨r', hr, himage⟩⟩ := h
  · cases hq
  · obtain rfl := Job.done.inj hr
    exact ⟨hfetched, hside, himage⟩

/-- The end of a write. -/
theorem explained_perform {call : WriteCall} {w : WriteEnd} (h : t.Explained env config trail)
    (hq : t.job = .queued call) :
    Task.Explained env config (trail.note config t (.perform w))
      { t with job := .done w.result } := by
  obtain ⟨url, firstIndex, outputDir, stage, job, body⟩ := t
  obtain rfl : job = .queued call := hq
  cases stage with
  | working home sem work =>
    cases work with
    | imageWrite image =>
      obtain ⟨hfetched, hside, ⟨hcall, -⟩ | ⟨r, hdone, -⟩⟩ := h
      · obtain rfl : call = ⟨image.filename, image.data.bytes, .image url⟩ := Job.queued.inj hcall
        exact ⟨⟨hfetched.parses, hfetched.valid, hfetched.attempted, hfetched.transport⟩, hside,
          Or.inr ⟨_, rfl, rfl⟩⟩
      · cases hdone
    | sidecarWrite outcome =>
      obtain ⟨image, elapsed, houtcome, hfetched, himage⟩ := h
      exact ⟨image, elapsed, houtcome, ⟨hfetched.parses, hfetched.valid, hfetched.attempted,
        hfetched.transport⟩, himage⟩
    | _ => exact h
  | _ => exact h

/-- A section keeps what the trail of a task is. -/
theorem explained_step (h : t.Explained env config trail)
    (hm : TaskMove env config p sc t e p' sc' t') :
    t'.Explained env config (trail.note config t e) := by
  cases hm with
  | rejected hs hparse =>
    rw [Task.Explained, hs] at h
    exact ⟨_, rfl, .failed (.url hparse h)⟩
  | accepted hs hparse =>
    rw [Task.Explained, hs] at h
    exact ⟨⟨_, hparse⟩, h⟩
  | acquireGlobal hs | lockFound hs | lockFresh hs | pool hs | answered hs | resume hs =>
    rw [Task.Explained, hs] at h
    exact h
  | acquireHost hs =>
    rw [Task.Explained, hs] at h
    obtain ⟨hparses, rfl⟩ := h
    exact ⟨hparses, rfl⟩
  | burst | unnamed => trivial
  | stopped _ he _ => rcases he with ⟨-, rfl⟩ | ⟨-, rfl⟩ <;> trivial
  | perform hq => exact explained_perform h hq
  | retry hs hset | redirect hs hset =>
    obtain ⟨hparses, _, rfl, hnote⟩ := h.finished hs hset
    exact ⟨hparses, hnote⟩
  | failed hs hset =>
    obtain ⟨hparses, _, rfl | ⟨data, rfl, hinvalid⟩, hnote⟩ := h.finished hs hset
    · exact ⟨_, rfl, .failed (.transport hparses hnote)⟩
    · exact ⟨_, rfl, .failed (.response hparses hinvalid hnote)⟩
  | store hs hset =>
    obtain ⟨hparses, _, ⟨rfl, hvalid⟩, hnote⟩ := h.finished hs hset
    rw [hnote]
    exact ⟨⟨hparses, hvalid, rfl, rfl⟩, rfl, Or.inl ⟨rfl, rfl⟩⟩
  | @imageFailed home sem image elapsed now msg hs hjob =>
    obtain ⟨hfetched, hside, himage⟩ := h.imageEnded hs hjob
    refine ⟨_, rfl, .failed ?_⟩
    obtain ⟨attempted, transport, written, sidecar⟩ := trail
    obtain ⟨rfl, rfl, rfl, rfl⟩ : _ ∧ _ ∧ _ ∧ _ :=
      ⟨hfetched.attempted, hfetched.transport, himage, hside⟩
    exact .imageWrite hfetched.parses hfetched.valid rfl
  | imageDone hs hjob =>
    obtain ⟨hfetched, -, himage⟩ := h.imageEnded hs hjob
    exact ⟨_, rfl, .written hfetched himage⟩
  | sidecar hs hjob _ =>
    obtain ⟨hfetched, -, himage⟩ := h.imageEnded hs hjob
    exact ⟨_, _, rfl, hfetched, himage⟩
  | sidecarDone hs hjob =>
    rw [Task.Explained, hs] at h
    obtain ⟨image, elapsed, rfl, hfetched, himage⟩ := h
    exact ⟨_, rfl, .written hfetched himage⟩

/-! ## Runs -/

/-- No image was written, or its response was not valid. -/
theorem FirstFailure.not_stored {url : String} {e : DownloadError}
    (h : FirstFailure env config url trail e) : ¬(Parses env config url ∧
      (∃ data, trail.transport = some (.ok data) ∧ data.bytes ≠ [] ∧
        ∀ n, declaredLength data.headers = some n → n = data.bytes.length) ∧
      ∃ call, trail.image = some (call, .ok ())) := by
  rintro ⟨⟨home, hhome⟩, ⟨data, htransport, -⟩, call, himage⟩
  cases h with
  | url hparse => simp [hhome] at hparse
  | transport _ htr => simp [htr] at htransport
  | response _ _ htr => simp [htr] at himage
  | imageWrite _ _ htr => simp [htr] at himage

theorem FirstFailure.sidecar_eq_none {url : String} {e : DownloadError}
    (h : FirstFailure env config url trail e) : trail.sidecar = none := by
  cases h with
  | url _ htr => rw [htr, Trail.new]
  | transport _ htr | response _ _ htr | imageWrite _ _ htr => rw [htr]

theorem parses_iff {url : String} : Parses env config url ↔
    ∃ uri host, env.http.parseUri url = .ok uri ∧ uri.host = some host := by
  unfold Parses parseTarget
  cases env.http.parseUri url with
  | error e => simp
  | ok uri =>
    simp only [Except.ok.injEq]
    split
    case h_1 hhost => simp [hhost]
    case h_2 host hhost => simp [hhost]

namespace Downloader

variable {k j : ℕ} {s s' : State}

/-- The trail of the task `j` of the call `k` after a step. -/
def noteTask (config : Config) (k j : ℕ) (s : State) (ev : ℕ × DownloaderEvent) (trail : Trail) :
    Trail :=
  match taskOf k j s, ev with
  | some t, (k', .batch (.task j' e)) => if k' = k ∧ j' = j then trail.note config t e else trail
  | _, _ => trail

/-- The trail that a run leaves of the task `j` of the call `k`. -/
def trailOf (env : Env) (config : Config) (k j : ℕ) (es : List (ℕ × DownloaderEvent)) : Trail :=
  record (step env config) (noteTask config k j) init es .new

theorem noteTask_eq : noteTask config k j =
    noteOwn (fun t e trail => trail.note config t e) k j :=
  rfl

/-- What the trail of a run says of its task. -/
theorem explained_of_run {es : List (ℕ × DownloaderEvent)} {t : Task}
    (hr : run (step env config) init es = some s) (ht : taskOf k j s = some t) :
    t.Explained env config (trailOf env config k j es) := by
  rw [trailOf, noteTask_eq]
  refine (history_of_run (I := fun trail t => t.Explained env config trail) (fun url i dir => ?_)
    (fun h hm => explained_step h hm) hr).2 t ht
  rfl

/-- The task wrote this file to the directory `dir` : the run has a step in which its write
succeeds, and the file is there after it. -/
def Stores (env : Env) (config : Config) (k j : ℕ) (es : List (ℕ × DownloaderEvent))
    (dir name : String) (f : File) : Prop :=
  ∃ pre post s b, es = pre ++ (k, .batch (.task j (.perform .ok))) :: post ∧
    run (step env config) init (pre ++ [(k, .batch (.task j (.perform .ok)))]) = some s ∧
    s.locals k = some b ∧ b.outputDir = dir ∧ b.scope.files name = some f

/-- What a step must be to note the write of an image. -/
theorem noteTask_image {ev : ℕ × DownloaderEvent} {call : WriteCall}
    (hnot : trail.image ≠ some (call, .ok ()))
    (h : (noteTask config k j s ev trail).image = some (call, .ok ())) :
    ev = (k, .batch (.task j (.perform .ok))) ∧ ∃ t, taskOf k j s = some t ∧
      t.job = .queued call := by
  unfold noteTask at h
  split at h
  case h_2 => exact absurd h hnot
  case h_1 t k' j' e ht =>
    split_ifs at h with heq
    swap
    · exact absurd h hnot
    obtain ⟨rfl, rfl⟩ := heq
    cases e with
    | perform w =>
      simp only [Trail.note] at h
      split at h
      case h_1 hjob =>
        obtain ⟨rfl, hw⟩ := Prod.mk.inj (Option.some.inj h)
        cases w with
        | ok => exact ⟨rfl, t, ht, hjob⟩
        | failed => cases hw
      all_goals exact absurd h hnot
    | settle elapsed subsecNanos =>
      simp only [Trail.note] at h
      split at h <;> exact absurd h hnot
    | _ => exact absurd h hnot

/-- A write that succeeds leaves its file. -/
theorem file_of_perform {b : Batch} {t : Task} {call : WriteCall}
    (hs : step env config s (k, .batch (.task j (.perform .ok))) = some s')
    (hb : s.locals k = some b) (ht : b.tasks j = some t) (hq : t.job = .queued call) :
    ∃ b', s'.locals k = some b' ∧
      b'.scope.files call.name = some ⟨call.content, call.writer⟩ := by
  obtain ⟨be, b', he, hb', hm⟩ := step_some hs hb
  refine ⟨b', hb', ?_⟩
  obtain rfl := DownloaderEvent.batch.inj he
  generalize s'.shared = q at hm
  cases hm with
  | closed _ hend => rcases hend with ⟨hend, -⟩ | ⟨hend, -⟩ <;> cases hend
  | @task _ _ t₀ t' _ sc' ht₀ _ hm =>
    obtain rfl := Option.some.inj (ht.symm.trans ht₀)
    cases hm with
    | perform hq' =>
      obtain rfl := Job.queued.inj (hq.symm.trans hq')
      exact Function.update_self ..
    | stopped _ hend => rcases hend with ⟨hend, -⟩ | ⟨hend, -⟩ <;> cases hend

/-- A call that has started keeps its output directory. -/
theorem outputDir_of_run {es : List (ℕ × DownloaderEvent)} {b : Batch} (hb : s.locals k = some b)
    (hr : run (step env config) s es = some s') :
    ∃ b', s'.locals k = some b' ∧ b'.outputDir = b.outputDir := by
  refine Reaches.invariant (I := fun s => ∃ b', s.locals k = some b' ∧ b'.outputDir = b.outputDir)
    (fun u ev u' hI hs => ?_) ⟨b, hb, rfl⟩ ⟨es, hr⟩
  obtain ⟨b', hb', hdir⟩ := hI
  obtain ⟨k', ev⟩ := ev
  rcases eq_or_ne k k' with rfl | hk
  · obtain ⟨be, b'', -, hb'', hm⟩ := step_some hs hb'
    exact ⟨b'', hb'', hm.outputDir_eq.trans hdir⟩
  · exact ⟨b', (Par.step_other hs hk).trans hb', hdir⟩

/-- A write that a trail records as a success left its file. -/
theorem stores_of_trail {es : List (ℕ × DownloaderEvent)} {t : Task} {call : WriteCall}
    (hr : run (step env config) init es = some s) (ht : taskOf k j s = some t)
    (himage : (trailOf env config k j es).image = some (call, .ok ())) :
    Stores env config k j es t.outputDir call.name ⟨call.content, call.writer⟩ := by
  obtain ⟨pre, ev, post, u, u', rfl, hpre, hu, hnot, hnote⟩ := exists_noted
    (P := fun trail : Trail => trail.image = some (call, .ok ())) hr (fun h => by cases h) himage
  obtain ⟨rfl, t₀, ht₀, hq⟩ := noteTask_image hnot hnote
  obtain ⟨b, hb, htask⟩ := Option.bind_eq_some_iff.1 ht₀
  obtain ⟨b', hb', hfile⟩ := file_of_perform hu hb htask hq
  have hrest : run (step env config) u' post = some s := by
    rw [run_append hpre] at hr
    obtain ⟨v, hv, hr⟩ := run_cons.1 hr
    rwa [Option.some.inj (hu.symm.trans hv)]
  obtain ⟨b'', hb'', hdir⟩ := outputDir_of_run hb' hrest
  rw [taskOf, hb'', Option.bind_some] at ht
  have hcol := (collected_of_reaches ⟨_, hr⟩ hb'').1
  exact ⟨pre, post, u', b', rfl, (run_append hpre).trans (run_singleton hu), hb',
    hdir.symm.trans (hcol.outputDir_eq ht).symm, hfile⟩

/-- A download that returned succeeded if and only if its URL has a host, its transport ended in
a response with a body of the declared length, and its image was written. Its size is that of
the body, its path that of a file which the write of the task left there with the body, and the end
of the sidecar changes nothing. If it failed, its error is that of the first stage that failed, and
no later one was run. -/
theorem download_one_outcome {es : List (ℕ × DownloaderEvent)} {t : Task}
    {r : String × DownloadResult} (hr : run (step env config) init es = some s)
    (ht : taskOf k j s = some t) (hret : t.stage = .returned r) :
    let trail := trailOf env config k j es
    (r.1 = t.url ∧ r.2.url = t.url) ∧
    ((∃ path size hash elapsed, r.2.outcome = .success path size hash elapsed) ↔
      (∃ uri host, env.http.parseUri t.url = .ok uri ∧ uri.host = some host) ∧
      (∃ data, trail.transport = some (.ok data) ∧ data.bytes ≠ [] ∧
        ∀ n, declaredLength data.headers = some n → n = data.bytes.length) ∧
      ∃ call, trail.image = some (call, .ok ())) ∧
    (∀ path size hash elapsed, r.2.outcome = .success path size hash elapsed →
      ∃ data, trail.transport = some (.ok data) ∧ size = data.bytes.length ∧
        path.dir = t.outputDir ∧
        trail.image = some (⟨path.fileName, data.bytes, .image t.url⟩, .ok ()) ∧
        Stores env config k j es path.dir path.fileName ⟨data.bytes, .image t.url⟩ ∧
        (hash.isSome ↔
          config.namingStrategy = .contentHash ∨ config.writeMetadata ∨ config.writeSummary)) ∧
    (∀ call end', trail.sidecar = some (call, end') →
      ∃ path size hash elapsed, r.2.outcome = .success path size hash elapsed) ∧
    ∀ e elapsed n, r.2.outcome = .failure e elapsed n →
      FirstFailure env config t.url trail e := by
  intro trail
  have hexplained : t.Explained env config trail := explained_of_run hr ht
  rw [Task.Explained, hret] at hexplained
  obtain ⟨outcome, rfl, hexit⟩ := hexplained
  refine ⟨⟨rfl, rfl⟩, ?_⟩
  have hparses : Parses env config t.url ↔ _ := parses_iff
  rw [← hparses]
  have hstores : ∀ call, (trailOf env config k j es).image = some (call, .ok ()) →
      Stores env config k j es t.outputDir call.name ⟨call.content, call.writer⟩ :=
    fun _ => stores_of_trail hr ht
  change ∀ call, trail.image = some (call, .ok ()) → _ at hstores
  generalize trail = tr at hexit hstores
  cases hexit with
  | failed hfail =>
    refine ⟨iff_of_false ?_ hfail.not_stored, fun _ _ _ _ h => (by cases h),
      fun call end' hside => ?_, fun e elapsed n h => ?_⟩
    · rintro ⟨_, _, _, _, h⟩
      cases h
    · cases hfail.sidecar_eq_none.symm.trans hside
    · obtain ⟨rfl, -, -⟩ := DownloadOutcome.failure.inj h
      exact hfail
  | @written image elapsed hfetched himage =>
    obtain ⟨hne, hlen⟩ := validateResponse_eq_ok.1 hfetched.valid
    have hsuccess : ∃ path size hash elapsed', image.outcome env config t.outputDir elapsed =
        .success path size hash elapsed' := ⟨_, _, _, _, rfl⟩
    refine ⟨iff_of_true hsuccess ⟨hfetched.parses, ⟨_, hfetched.transport, hne, hlen⟩, _, himage⟩,
      fun path size hash elapsed' h => ?_, fun _ _ _ => hsuccess, fun _ _ _ h => by cases h⟩
    obtain ⟨rfl, rfl, rfl, -⟩ := DownloadOutcome.success.inj h
    exact ⟨image.data, hfetched.transport, rfl, rfl, himage, hstores _ himage, isSome_contentHash⟩

/-- One image, written. -/
def imageRun : List (ℕ × DownloaderEvent) :=
  (0, .call ["http://h/a.png"] "out" (.ok ())) ::
    taskSteps 0 (toWritten [1] ++ [.written 0 ""])

theorem download_one_outcome_imageRun :
    ∃ data, (trailOf oneUrl {} 0 0 imageRun).transport = some (.ok data) ∧ 1 = data.bytes.length ∧
      (trailOf oneUrl {} 0 0 imageRun).image =
        some (⟨"a.png", data.bytes, .image "http://h/a.png"⟩, .ok ()) ∧
      Stores oneUrl {} 0 0 imageRun "out" "a.png" ⟨data.bytes, .image "http://h/a.png"⟩ := by
  have heval : (run (step oneUrl {}) init imageRun).map (resultOf 0 0) =
      some (some ("http://h/a.png",
        ⟨"http://h/a.png", .success ⟨"out", "a.png"⟩ 1 none 0⟩)) := by
    decide +kernel
  obtain ⟨s, hr, hres⟩ := Option.map_eq_some_iff.1 heval
  obtain ⟨t, ht, hret⟩ := resultOf_eq_some hres
  obtain ⟨⟨hurl, -⟩, -, hsuccess, -⟩ := download_one_outcome hr ht hret
  obtain ⟨data, htransport, hsize, -, himage, hstores, -⟩ := hsuccess _ _ _ _ rfl
  change "http://h/a.png" = t.url at hurl
  rw [← hurl] at himage hstores
  exact ⟨data, htransport, hsize, himage, hstores⟩

end Downloader

end Imgdl
