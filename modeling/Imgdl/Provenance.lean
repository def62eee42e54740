import Imgdl.CrossHost
import Imgdl.Disk
import Imgdl.Outcomes
import Imgdl.Overwrites
import Imgdl.TwoLevels

/-!
# Where the bytes of an image come from

A URL is `Served` by the answered requests of a download if one of them, at the end of a chain
of answered redirects from that URL (`Moved`), was answered with a success, whose body and
headers are the data. The request loop ends with data only if its URL is served
(`executeWithRedirects_ends`), and over both phases the chain goes on at the other host.

So the file of a success has the bytes a server sent for its URL (`image_served`). It is still on
the disk when the call returns if the names of the images are apart and no other call writes
under its name in the same directory (`stored_served`).
-/

set_option linter.unusedSectionVars false

namespace Imgdl

open Transition Interleaving Relation

/-- An answered request. -/
structure Exchange where
  url : Uri
  response : HttpResponse

/-- The answered requests of a loop. -/
def exchanges : List Uri → List Reply → List Exchange
  | url :: sent, .response r :: replies => ⟨url, r⟩ :: exchanges sent replies
  | _, _ => []

section Chain

variable (http : Http) (E : List Exchange)

/-- A request for `url` was answered with a redirect to `next`. -/
def Moved (url next : Uri) : Prop :=
  ∃ r, ⟨url, r⟩ ∈ E ∧ RedirectsTo http r url next

/-- A chain of redirects from `url` ends in a success with this data. -/
def Served (url : Uri) (data : ResponseData) : Prop :=
  ∃ last r, ReflTransGen (Moved http E) url last ∧ ⟨last, r⟩ ∈ E ∧ isSuccess r.status = true ∧
    r.body = .bytes data.bytes ∧ r.headers = data.headers

/-- What a chain of redirects from `url` ends in. -/
def EndsIn (url : Uri) : TransportResult → Prop
  | .response data => Served http E url data
  | .redirect redir => ReflTransGen (Moved http E) url redir.newUri

end Chain

variable {http : Http} {E E' : List Exchange} {url next : Uri} {data : ResponseData}

theorem Moved.mono (h : Moved http E url next) (hsub : E ⊆ E') : Moved http E' url next := by
  obtain ⟨r, hr, hto⟩ := h
  exact ⟨r, hsub hr, hto⟩

theorem chain_mono (h : ReflTransGen (Moved http E) url next) (hsub : E ⊆ E') :
    ReflTransGen (Moved http E') url next :=
  ReflTransGen.mono (fun _ _ hm => Moved.mono hm hsub) url next h

theorem Served.mono (h : Served http E url data) (hsub : E ⊆ E') : Served http E' url data := by
  obtain ⟨last, r, hchain, hr, hend⟩ := h
  exact ⟨last, r, chain_mono hchain hsub, hsub hr, hend⟩

theorem EndsIn.mono {result : TransportResult} (h : EndsIn http E url result) (hsub : E ⊆ E') :
    EndsIn http E' url result := by
  cases result with
  | response data => exact Served.mono h hsub
  | redirect redir => exact chain_mono h hsub

/-- A chain goes on where a redirect led. -/
theorem EndsIn.head {result : TransportResult} (h : EndsIn http E next result)
    (hmoved : ReflTransGen (Moved http E) url next) : EndsIn http E url result := by
  cases result with
  | response data =>
    obtain ⟨last, r, hchain, hend⟩ := h
    exact ⟨last, r, hmoved.trans hchain, hend⟩
  | redirect redir => exact hmoved.trans h

/-! ## One request loop -/

section Loop

variable {overflowChecks : Bool} {config : RequestConfig} {host : String} {redirects : UInt8}
  {r : HttpResponse}

theorem redirectsTo_follow {redirects' : UInt8}
    (h : onResponse http overflowChecks config host url redirects r = .follow next redirects') :
    RedirectsTo http r url next := by
  unfold onResponse at h
  repeat' split at h
  all_goals cases h
  exact ⟨‹_›, ‹_›, _, _, ‹_›, ‹_›, ‹_›⟩

theorem redirectsTo_handover {redir : CrossHostRedirect}
    (h : onResponse http overflowChecks config host url redirects r =
      .stop (.done (.ok (.redirect redir)))) : RedirectsTo http r url redir.newUri := by
  unfold onResponse at h
  repeat' split at h
  all_goals cases h
  exact ⟨‹_›, ‹_›, _, _, ‹_›, ‹_›, ‹_›⟩

theorem success_of_response
    (h : onResponse http overflowChecks config host url redirects r =
      .stop (.done (.ok (.response data)))) :
    isSuccess r.status = true ∧ r.body = .bytes data.bytes ∧ r.headers = data.headers := by
  unfold onResponse at h
  repeat' split at h
  all_goals cases h
  case h_3.refl hsuccess _ b hb => exact ⟨by simpa using hsuccess, hb, rfl⟩

/-- A result of the loop is what the answers to its requests lead to. -/
theorem executeWithRedirects_ends {result : TransportResult} : ∀ (replies : List Reply) (url : Uri)
    (redirects : UInt8),
    (executeWithRedirects http overflowChecks config host replies url redirects).2 =
      .done (.ok result) →
    EndsIn http (exchanges
      (executeWithRedirects http overflowChecks config host replies url redirects).1 replies) url
      result := by
  intro replies
  induction replies with
  | nil =>
    intro url redirects h
    by_cases hb : Buildable http config host url
    · rw [executeWithRedirects_nil hb] at h
      cases h
    · obtain ⟨e, he⟩ := executeWithRedirects_of_not_buildable hb
      rw [he] at h
      cases h
  | cons reply replies ih =>
    intro url redirects h
    by_cases hb : Buildable http config host url
    swap
    · obtain ⟨e, he⟩ := executeWithRedirects_of_not_buildable hb
      rw [he] at h
      cases h
    by_cases hr : ∃ r, reply = .response r
    swap
    · obtain ⟨p, hp, hnot⟩ := executeWithRedirects_of_no_response hb
        fun r rest heq => hr ⟨r, (List.cons.inj heq).1⟩
      rw [hp] at h
      exact absurd h (hnot _)
    obtain ⟨r, rfl⟩ := hr
    cases hnext : onResponse http overflowChecks config host url redirects r with
    | stop p =>
      rw [executeWithRedirects_stop hb hnext] at h ⊢
      obtain rfl : p = .done (.ok result) := h
      have hmem : ⟨url, r⟩ ∈ exchanges [url] (.response r :: replies) := List.mem_cons_self ..
      cases result with
      | response data => exact ⟨url, r, .refl, hmem, success_of_response hnext⟩
      | redirect redir => exact .single ⟨r, hmem, redirectsTo_handover hnext⟩
    | follow url' redirects' =>
      rw [executeWithRedirects_follow hb hnext] at h ⊢
      have hmem : ⟨url, r⟩ ∈ exchanges (url ::
          (executeWithRedirects http overflowChecks config host replies url' redirects').1)
          (.response r :: replies) := List.mem_cons_self ..
      exact ((ih url' redirects' h).mono (List.subset_cons_self ..)).head
        (.single ⟨r, hmem, redirectsTo_follow hnext⟩)

end Loop

variable {env : Env} {config : Config} {p p' : PoolState} {sc sc' : Scope} {t t' : Task}
  {e : TaskEvent}

theorem executeTarget_ends {target : Target} {replies : List Reply} {sent : List Uri}
    {result : TransportResult}
    (h : executeTarget env config target replies = (sent, some (.ok result))) :
    EndsIn env.http (exchanges sent replies) target.uri result := by
  rw [executeTarget, executeRequest] at h
  obtain ⟨rfl, hresult⟩ := Prod.mk.inj h
  refine executeWithRedirects_ends replies target.uri 0 ?_
  split at hresult
  · cases hresult
  · cases hresult
  case h_3 hp => rw [hp, Option.some.inj hresult]

/-! ## One download -/

/-- The requests that a section of the task gets answered. -/
def Task.exchanges (env : Env) (config : Config) (t : Task) : TaskEvent → List Exchange
  | .request replies => match t.stage with
    | .working home _ (.attempt leg _ (.requesting _ _)) =>
      Imgdl.exchanges (executeTarget env config (leg.target home) replies).1 replies
    | _ => []
  | _ => []

section Sources

variable (env : Env) (config : Config) (E : List Exchange) (t : Task)

/-- The image is a valid response that a server sent for the URL. -/
structure FromServer (url : String) (firstIndex : ℕ) (image : Image) : Prop where
  served : ∃ home, parseTarget env.http config url = .ok home ∧
    Served env.http E home.uri image.data
  valid : validateResponse image.data.bytes image.data.headers = .ok ()
  name : generateFilename env.overflowChecks env.sha256 url firstIndex image.data.bytes
    config.namingStrategy = some image.filename

/-- A success reports an image that a server sent. -/
def Delivered (outcome : DownloadOutcome) : Prop :=
  Succeeded outcome → ∃ image elapsed, FromServer env config E t.url t.firstIndex image ∧
    outcome = image.outcome env config t.outputDir elapsed ∧ t.body = some image.data.bytes

/-- Where a stage comes from. -/
def Stage.From : Stage → Prop
  | working home _ (.attempt leg _ c) =>
    ReflTransGen (Moved env.http E) home.uri (leg.target home).uri ∧
      ∀ result, c.settled = some (.ok result) → EndsIn env.http E home.uri result
  | working home _ (.backoff leg _ _) =>
    ReflTransGen (Moved env.http E) home.uri (leg.target home).uri
  | working _ _ (.imageWrite image) => FromServer env config E t.url t.firstIndex image ∧
    t.body = some image.data.bytes
  | working _ _ (.sidecarWrite outcome) => Delivered env config E t outcome
  | returned r => ∃ outcome, r = t.result outcome ∧ Delivered env config E t outcome
  | _ => True

/-- Where the image of a task comes from. -/
structure Sourced : Prop where
  home : AtHome env config t
  stage : t.stage.From env config E t

end Sources

theorem FromServer.mono {url : String} {firstIndex : ℕ} {image : Image}
    (h : FromServer env config E url firstIndex image) (hsub : E ⊆ E') :
    FromServer env config E' url firstIndex image := by
  obtain ⟨home, hparse, hserved⟩ := h.served
  exact ⟨⟨home, hparse, hserved.mono hsub⟩, h.valid, h.name⟩

theorem Delivered.mono {outcome : DownloadOutcome} (h : Delivered env config E t outcome)
    (hsub : E ⊆ E') : Delivered env config E' t outcome := by
  intro hs
  obtain ⟨image, elapsed, hfrom, hout⟩ := h hs
  exact ⟨image, elapsed, hfrom.mono hsub, hout⟩

theorem delivered_failure (e : DownloadError) (elapsed : Duration) (n : UInt32) :
    Delivered env config E t (.failure e elapsed n) := by
  rintro ⟨_, _, _, _, h⟩
  cases h

theorem Stage.From.mono {st : Stage} (h : st.From env config E t) (hsub : E ⊆ E') :
    st.From env config E' t := by
  cases st with
  | working home sem work =>
    cases work with
    | attempt leg n c =>
      exact ⟨chain_mono h.1 hsub, fun result hc => (h.2 result hc).mono hsub⟩
    | backoff leg n delay => exact chain_mono h hsub
    | imageWrite image => exact ⟨FromServer.mono h.1 hsub, h.2⟩
    | sidecarWrite outcome => exact Delivered.mono h hsub
  | returned r =>
    obtain ⟨outcome, hr, hdone⟩ := h
    exact ⟨outcome, hr, hdone.mono hsub⟩
  | _ => trivial

/-- What an attempt that leads to an image was answered. -/
theorem settleAttempt_image {url : String} {firstIndex subsecNanos : ℕ} {leg : Leg} {n : UInt32}
    {result : Except DownloadError TransportResult} {image : Image}
    (h : settleAttempt env config url firstIndex leg n subsecNanos result = .write image) :
    result = .ok (.response image.data) ∧
      validateResponse image.data.bytes image.data.headers = .ok () := by
  have hends : (settleAttempt env config url firstIndex leg n subsecNanos result).Ends
      (transportEnd config leg n result) := settleAttempt_trail
  rw [h] at hends
  obtain ⟨hend, hvalid⟩ := hends
  refine ⟨?_, hvalid⟩
  unfold transportEnd at hend
  split at hend
  · rw [Except.ok.inj (Option.some.inj hend)]
  · split at hend
    · split at hend <;> cases hend
    · cases hend
  · split at hend <;> cases hend

/-- A section keeps where its task comes from. -/
theorem Sourced.step (h : Sourced env config E t) (hm : TaskMove env config p sc t e p' sc' t') :
    Sourced env config (E ++ t.exchanges env config e) t' := by
  have hhome : AtHome env config t' := atHome_invariant.step h.home hm
  have hsub : E ⊆ E ++ t.exchanges env config e := List.subset_append_left ..
  refine ⟨hhome, ?_⟩
  have hfrom := h.stage
  cases hm with
  | rejected | failed | imageFailed => exact ⟨_, rfl, delivered_failure _ _ _⟩
  | burst | unnamed | accepted | acquireGlobal | lockFound | lockFresh => trivial
  | stopped _ he _ => rcases he with ⟨-, rfl⟩ | ⟨-, rfl⟩ <;> trivial
  | acquireHost hs => exact ⟨.refl, fun _ hc => (nomatch hc)⟩
  | pool hs he hstep =>
    rw [hs] at hfrom
    refine ⟨chain_mono hfrom.1 hsub, fun result hc => ?_⟩
    rcases clientStep_settled he hstep with hsame | ⟨-, err, herr⟩
    · exact (hfrom.2 result (hsame ▸ hc)).mono hsub
    · cases herr.symm.trans hc
  | @answered home sem leg n key handle replies urls result hs hx =>
    rw [hs] at hfrom
    refine ⟨chain_mono hfrom.1 hsub, ?_⟩
    rintro answer hc
    obtain rfl : result = .ok answer := Option.some.inj hc
    have hexch : t.exchanges env config (.request replies) = Imgdl.exchanges urls replies := by
      simp only [Task.exchanges, hs, hx]
    rw [hexch] at hsub ⊢
    exact ((executeTarget_ends hx).mono (List.subset_append_right ..)).head
      (chain_mono hfrom.1 hsub)
  | retry hs =>
    rw [hs] at hfrom
    exact chain_mono hfrom.1 hsub
  | resume hs =>
    rw [hs] at hfrom
    exact ⟨chain_mono hfrom hsub, fun _ hc => (nomatch hc)⟩
  | redirect hs hset =>
    rw [hs] at hfrom
    obtain ⟨rfl, redir, rfl, htarget⟩ := settleAttempt_redirect hset
    refine ⟨?_, fun _ hc => (nomatch hc)⟩
    rw [Leg.target, (redirectTarget_eq_ok htarget).1]
    exact EndsIn.mono (hfrom.2 _ rfl) hsub
  | @store home sem leg n elapsed subsecNanos result image hs hset =>
    rw [hs] at hfrom
    obtain ⟨rfl, hvalid⟩ := settleAttempt_image hset
    refine ⟨⟨⟨home, h.home home (by rw [hs]; rfl), ?_⟩, hvalid, settleAttempt_write hset⟩, rfl⟩
    exact Served.mono (hfrom.2 _ rfl) hsub
  | perform hq =>
    exact Stage.From.mono (t := t) hfrom hsub
  | imageDone hs hjob =>
    rw [hs] at hfrom
    exact ⟨_, rfl, fun _ => ⟨_, _, hfrom.1.mono hsub, rfl, hfrom.2⟩⟩
  | sidecar hs =>
    rw [hs] at hfrom
    exact fun _ => ⟨_, _, hfrom.1.mono hsub, rfl, hfrom.2⟩
  | sidecarDone hs =>
    rw [hs] at hfrom
    have hdone := Delivered.mono (t := t) hfrom hsub
    exact ⟨_, rfl, hdone⟩

/-! ## Runs -/

namespace Downloader

variable {k j : ℕ} {s s' : State}

/-- The answered requests of the task `j` of the call `k` after a step. -/
def noteExchanges (env : Env) (config : Config) (k j : ℕ) (s : State) (ev : ℕ × DownloaderEvent)
    (E : List Exchange) : List Exchange :=
  match taskOf k j s, ev with
  | some t, (k', .batch (.task j' e)) =>
    if k' = k ∧ j' = j then E ++ t.exchanges env config e else E
  | _, _ => E

/-- The answered requests of the task `j` of the call `k` in a run. -/
def exchangesOf (env : Env) (config : Config) (k j : ℕ) (es : List (ℕ × DownloaderEvent)) :
    List Exchange :=
  record (step env config) (noteExchanges env config k j) init es []

theorem noteExchanges_eq : noteExchanges env config k j =
    noteOwn (fun t e E => E ++ t.exchanges env config e) k j :=
  rfl

theorem sourced_of_run {es : List (ℕ × DownloaderEvent)} {t : Task}
    (hr : run (step env config) init es = some s) (ht : taskOf k j s = some t) :
    Sourced env config (exchangesOf env config k j es) t := by
  rw [exchangesOf, noteExchanges_eq]
  exact (history_of_run (I := fun E t => Sourced env config E t)
    (fun url i dir => ⟨atHome_invariant.spawn url i dir, trivial⟩)
    (fun h hm => h.step hm) hr).2 t ht

/-- A success is the outcome of an image that a server sent. -/
theorem delivered_of_run {es : List (ℕ × DownloaderEvent)} {t : Task} {r : String × DownloadResult}
    (hr : run (step env config) init es = some s) (ht : taskOf k j s = some t)
    (hret : t.stage = .returned r) (hsuccess : Succeeded r.2.outcome) :
    ∃ image elapsed,
      FromServer env config (exchangesOf env config k j es) t.url t.firstIndex image ∧
      r.2.outcome = image.outcome env config t.outputDir elapsed ∧
      t.body = some image.data.bytes := by
  have hfrom := (sourced_of_run hr ht).stage
  rw [hret] at hfrom
  obtain ⟨outcome, rfl, hdone⟩ := hfrom
  exact hdone hsuccess

/-- The path, the size and the hash of a success are those of an image that a server sent : the
body of a success at the end of a chain of answered redirects from its URL. -/
theorem image_served {es : List (ℕ × DownloaderEvent)} {t : Task} {r : String × DownloadResult}
    {path : FilePath} {size : ℕ} {hash : Option String} {elapsed : Duration}
    (hr : run (step env config) init es = some s) (ht : taskOf k j s = some t)
    (hret : t.stage = .returned r) (hsuccess : r.2.outcome = .success path size hash elapsed) :
    ∃ home data, parseTarget env.http config t.url = .ok home ∧
      Served env.http (exchangesOf env config k j es) home.uri data ∧
      validateResponse data.bytes data.headers = .ok () ∧ path.dir = t.outputDir ∧
      generateFilename env.overflowChecks env.sha256 t.url t.firstIndex data.bytes
        config.namingStrategy = some path.fileName ∧
      size = data.bytes.length ∧ hash = contentHash env.sha256 config data.bytes := by
  obtain ⟨image, elapsed', hfrom, hout, -⟩ :=
    delivered_of_run hr ht hret ⟨_, _, _, _, hsuccess⟩
  obtain ⟨rfl, rfl, rfl, -⟩ := DownloadOutcome.success.inj (hsuccess.symm.trans hout)
  obtain ⟨home, hparse, hserved⟩ := hfrom.served
  exact ⟨home, image.data, hparse, hserved, hfrom.valid, rfl, hfrom.name, rfl, rfl⟩

/-- `http://a/1.png` redirects to `http://h/3.png`, which is stored. -/
def movedImage : List (ℕ × DownloaderEvent) :=
  (0, .call ["http://a/1.png"] "out" (.ok ())) ::
    taskSteps 0 (toRequest ++ [.request [.found "http://h/3.png"], .pool .finish, .settle 0 0] ++
      opensH2 ++ [.request [.image [1]], .pool .finish, .settle 0 0, .perform .ok,
        .written 0 ""]) ++
    [(0, .batch (.join 0)), (0, .batch (.drained (fun _ => 9) 9))]

theorem image_served_movedImage : ∃ home data,
    parseTarget moved.http {} "http://a/1.png" = .ok home ∧
    Served moved.http (exchangesOf moved {} 0 0 movedImage) home.uri data ∧
    1 = data.bytes.length := by
  have heval : (run (step moved {}) init movedImage).map (resultOf 0 0) =
      some (some ("http://a/1.png",
        ⟨"http://a/1.png", .success ⟨"out", "1.png"⟩ 1 none 0⟩)) := by
    decide +kernel
  have hurl : (run (step moved {}) init movedImage).map (fun s => (taskOf 0 0 s).map Task.url) =
      some (some "http://a/1.png") := by
    decide +kernel
  obtain ⟨s, hr, hres⟩ := Option.map_eq_some_iff.1 heval
  rw [hr, Option.map_some, Option.some.injEq] at hurl
  obtain ⟨t, ht, hret⟩ := resultOf_eq_some hres
  rw [ht, Option.map_some, Option.some.injEq] at hurl
  obtain ⟨home, data, hparse, hserved, -, -, -, hsize, -⟩ := image_served hr ht hret rfl
  exact ⟨home, data, hurl ▸ hparse, hserved, hsize⟩

/-- If all writes of a call succeed and the names of its images are apart, every success it
returns names a file on the disk whose bytes a server sent for its URL, as long as no other call
writes under that name in the same directory. -/
theorem stored_served {D : Type*} [DecidableEq D] (dirOf : String → D) (disk : D → Files)
    {es : List (ℕ × DownloaderEvent)} {b : Batch} {results : List DownloadResult}
    (hr : run (step env config) init es = some s)
    (hm : Meets (step env config) (OnSteps k fun _ e => WritesSucceed e) init es)
    (hb : s.locals k = some b) (hph : b.phase = .returned results)
    (hn : NamesApart env config b) :
    ∀ r ∈ results, ∀ path size hash elapsed, r.outcome = .success path size hash elapsed →
      Meets (step env config) (Spares dirOf k path.fileName) init es →
        ∃ j home data, parseTarget env.http config r.url = .ok home ∧
          Served env.http (exchangesOf env config k j es) home.uri data ∧
          path.dir = b.outputDir ∧
          HasFile (diskOf dirOf env config disk es (dirOf path.dir)) path.fileName data.bytes := by
  intro r hmem path size hash elapsed hsuccess hspared
  obtain ⟨hcol, hasm⟩ := collected_of_reaches ⟨es, hr⟩ hb
  obtain ⟨j, t, ht, hurl, hret⟩ := hasm.success_task hcol (by rw [hph]; rfl) hmem hsuccess
  have htask : taskOf k j s = some t := by rw [taskOf, hb, Option.bind_some, ht]
  obtain ⟨image, elapsed', hfrom, -, hbody⟩ :=
    delivered_of_run hr htask hret ⟨_, _, _, _, hsuccess⟩
  obtain ⟨home, hparse, hserved⟩ := hfrom.served
  obtain ⟨j', t', bytes, ht', hurl', hbody', hdir, f, hfile, hcontent⟩ :=
    imagesKept_of_run hr hb hph (safe_of_run hr hm hb hn) r hmem _ _ _ _ hsuccess
  obtain rfl := hcol.unique ht ht' (hurl.trans hurl'.symm)
  obtain rfl : t = t' := Option.some.inj (ht.symm.trans ht')
  obtain rfl : bytes = image.data.bytes := Option.some.inj (hbody'.symm.trans hbody)
  -- the file of the call is the one on the disk
  obtain ⟨old, -, hdisk⟩ := disk_of_run disk hr hb hspared
  rw [hfile, Option.some_or] at hdisk
  exact ⟨j, home, image.data, hurl ▸ hparse, hserved, hdir, f, hdir ▸ hdisk, hcontent⟩

/-- The call 1 stores `3.png` in the same directory while the call 0 runs. -/
def sharedImages : List (ℕ × DownloaderEvent) :=
  (0, .call ["http://a/1.png"] "out" (.ok ())) ::
    (1, .call ["http://h/3.png"] "./out" (.ok ())) ::
    (toWritten [2] ++ [TaskEvent.written 0 ""]).map (fun e => (1, .batch (.task 0 e))) ++
    taskSteps 0 (toRequest ++ [.request [.found "http://h/3.png"], .pool .finish, .settle 0 0,
      .pool (.decide (fun _ => .ready) fun _ => .ready), .request [.image [1]], .pool .finish,
      .settle 0 0, .perform .ok, .written 0 ""]) ++
    [(0, .batch (.join 0)), (0, .batch (.drained (fun _ => 9) 9))]

theorem stored_served_sharedImages : ∃ j home data,
    parseTarget moved.http {} "http://a/1.png" = .ok home ∧
    Served moved.http (exchangesOf moved {} 0 j sharedImages) home.uri data ∧
    HasFile (diskOf (fun _ => ()) moved {} (fun _ _ => some ⟨[9], .summary⟩) sharedImages ())
      "1.png" data.bytes := by
  have hphase : (run (step moved {}) init sharedImages).map phaseOf =
      some (some (.returned [⟨"http://a/1.png", .success ⟨"out", "1.png"⟩ 1 none 0⟩])) := by
    decide +kernel
  have hurls : (run (step moved {}) init sharedImages).map
      (fun s => (s.locals 0).map Batch.urls) = some (some ["http://a/1.png"]) := by
    decide +kernel
  have hm : Meets (step moved {}) (OnSteps 0 fun _ e => WritesSucceed e) init sharedImages :=
    .of_checks writesSucceed_of_writes (by decide +kernel : checks _ writes init _ = true)
  have hspared : Meets (step moved {}) (Spares (fun _ => ()) 0 "1.png") init sharedImages :=
    .of_checks (fun _ _ => spares_of_check) (by decide +kernel :
      checks _ (spares 0 "1.png") init _ = true)
  obtain ⟨s, hr, hph⟩ := Option.map_eq_some_iff.1 hphase
  rw [hr, Option.map_some, Option.some.injEq] at hurls
  obtain ⟨b, hb, hph⟩ := Option.map_eq_some_iff.1 hph
  rw [hb, Option.map_some, Option.some.injEq] at hurls
  have one : ∀ j t, b.tasks j = some t → j = 0 := by
    intro j t ht
    have hlt := (collected_of_reaches ⟨_, hr⟩ hb).1.lt_length ht
    rw [hurls] at hlt
    have : (dedup ["http://a/1.png"]).length = 1 := by decide
    omega
  have hn : NamesApart moved {} b := by
    refine ⟨fun i j t u name ht hu _ _ => ?_, fun hw => (nomatch hw), fun hw => (nomatch hw)⟩
    obtain rfl := one i t ht
    obtain rfl := one j u hu
    rw [Option.some.inj (ht.symm.trans hu)]
  obtain ⟨j, home, data, hparse, hserved, -, hfile⟩ :=
    stored_served (fun _ => ()) (fun _ _ => some ⟨[9], .summary⟩) hr hm hb hph hn _
      (List.mem_singleton.2 rfl) _ _ _ _ rfl hspared
  exact ⟨j, home, data, hparse, hserved, hfile⟩

end Downloader

end Imgdl
