import Imgdl.Output
import Imgdl.PoolRun
import Imgdl.Retry
import Imgdl.Summary

/-!
# One download

`Task` is a `download_one` task at its await points and `taskStep` the section between
two of them, with everything the section shares : the pool, and the `Scope` of the batch
(semaphores, files, log). A request phase has a `Target`, whose connection key is the
host and effective port of its URL by construction.

A file write runs as a blocking job of its own. The task waits for it, but the job goes
on if the task is cancelled, and a job that fails may leave a partial file.

`TaskMove` lists what a section can do, and `taskStep_cases` is the one place the step
function is unfolded.
-/

namespace Imgdl

/-- What the program relies on outside itself. -/
structure Env where
  http : Http
  sha256 : Bytes → Bytes
  /-- `serde_json::to_string_pretty` of the metadata. -/
  metadataJson : FileMetadata → Except String Bytes
  /-- `serde_json::to_string_pretty` of the summary. -/
  summaryJson : BatchSummary → Except String Bytes
  overflowChecks : Bool

/-- An instance for runs that neither hash nor serialize. -/
def Env.ofTable (table : List (String × Uri)) : Env :=
  ⟨Http.ofTable table, fun _ => [], fun _ => .error "", fun _ => .error "", true⟩

/-! ## Request phases -/

/-- The URL a request phase starts with, and the connection key derived from it. -/
structure Target where
  uri : Uri
  host : String
  port : UInt16
  maxRedirects : UInt8
  host_eq : uri.host = some host
  port_eq : uri.effectivePort = port

/-- The connection key. -/
def Target.key (t : Target) : HostKey :=
  (t.host, t.port)

/-- The target of a URL. -/
def parseTarget (http : Http) (config : Config) (url : String) : Except DownloadError Target :=
  match http.parseUri url with
  | .error e => .error (.connectionFailed s!"invalid URL: {e}")
  | .ok uri => match h : uri.host with
    | none => .error (.connectionFailed "URL missing host")
    | some host => .ok ⟨uri, host, uri.effectivePort, config.maxRedirects, h, rfl⟩

/-- The target of a cross-host redirect. -/
def redirectTarget (redir : CrossHostRedirect) : Except DownloadError Target :=
  match h : redir.newUri.host with
  | none => .error (.tooManyRedirects "redirect to URL without host")
  | some host =>
    .ok ⟨redir.newUri, host, redir.newUri.effectivePort, redir.redirectsRemaining, h, rfl⟩

/-- Which request phase a download is in : that of its own URL, or that of a cross-host
redirect, with the retries of the first. -/
inductive Leg where
  | origin
  | crossHost (target : Target) (retriesAttempted : UInt32)

/-- The target of a phase of a download of `home`. -/
def Leg.target (home : Target) : Leg → Target
  | .origin => home
  | .crossHost target _ => target

/-- A valid response on its way to the disk. -/
structure Image where
  data : ResponseData
  filename : String
  retriesAttempted : UInt32

/-- What follows an attempt. -/
inductive Settled where
  | retry (delay : Duration)
  | redirect (target : Target) (retriesAttempted : UInt32)
  | failed (e : DownloadError) (retriesAttempted : UInt32)
  | write (image : Image)
  | panicked

section Settle

variable (env : Env) (config : Config) (url : String) (firstIndex : ℕ)

/-- From a response to the write of its image. -/
def settleResponse (data : ResponseData) (retriesAttempted : UInt32) : Settled :=
  match validateResponse data.bytes data.headers with
  | .error e => .failed e retriesAttempted
  | .ok () =>
    match generateFilename env.overflowChecks env.sha256 url firstIndex data.bytes
        config.namingStrategy with
    | none => .panicked
    | some filename => .write ⟨data, filename, retriesAttempted⟩

/-- From the result of a request phase. -/
def settleResult (retriesAttempted : UInt32) :
    Leg → Except DownloadError TransportResult → Settled
  | .origin, .ok (.response data) => settleResponse env config url firstIndex data retriesAttempted
  | .origin, .ok (.redirect redir) => match redirectTarget redir with
    | .error e => .failed e retriesAttempted
    | .ok target => .redirect target retriesAttempted
  | .origin, .error e => .failed e retriesAttempted
  | .crossHost _ retries, .ok (.response data) =>
    settleResponse env config url firstIndex data retries
  | .crossHost _ retries, .ok (.redirect _) =>
    .failed (.tooManyRedirects "too many cross-host redirects") retries
  | .crossHost _ retries, .error e => .failed e retries

/-- From the result of attempt `n` of a request phase. -/
def settleAttempt (leg : Leg) (n : UInt32) (subsecNanos : ℕ)
    (result : Except DownloadError TransportResult) : Settled :=
  match retryTurn config.maxRetries config.retryBaseDelay n subsecNanos result with
  | .sleep delay => .retry delay
  | .done result retriesAttempted =>
    settleResult env config url firstIndex retriesAttempted leg result

/-- The outcome of a download whose image was written. -/
def Image.outcome (image : Image) (outputDir : String) (elapsed : Duration) : DownloadOutcome :=
  .success ⟨outputDir, image.filename⟩ image.data.bytes.length
    (contentHash env.sha256 config image.data.bytes) elapsed

/-- The metadata of an image. -/
def Image.metadata (image : Image) (elapsed : Duration) (downloadedAt : String) :
    FileMetadata where
  url := url
  filename := image.filename
  sizeBytes := image.data.bytes.length
  contentHash := contentHash env.sha256 config image.data.bytes
  contentType := (image.data.headers.get "content-type").bind HeaderValue.toStr
  elapsed := elapsed
  downloadedAt := downloadedAt
  headers := headersMap image.data.headers

/-- The text of the sidecar, if one is to be written and can be serialized. -/
def Image.sidecar (image : Image) (elapsed : Duration) (downloadedAt : String) : Option Bytes :=
  if config.writeMetadata then
    match env.metadataJson (image.metadata env config url elapsed downloadedAt) with
    | .ok json => some json
    | .error _ => none
  else none

end Settle

/-! ## Tasks -/

/-- A semaphore of the map of hosts. -/
abbrev SemId := ℕ

/-- What a task does while it holds both permits. -/
inductive Work where
  | attempt (leg : Leg) (n : UInt32) (client : Client)
  | backoff (leg : Leg) (n : UInt32) (delay : Duration)
  | imageWrite (image : Image)
  | sidecarWrite (outcome : DownloadOutcome)

/-- A task at its await points. -/
inductive Stage where
  | spawned
  | globalWait (home : Target)
  /-- Waiting for the mutex of the map of semaphores. -/
  | hostLock (home : Target)
  | hostWait (home : Target) (sem : SemId)
  | working (home : Target) (sem : SemId) (work : Work)
  | returned (r : String × DownloadResult)
  | panicked
  | cancelled

/-- Who wrote a file : the task of a URL its image or its sidecar, or the batch. -/
inductive Writer where
  | image (url : String)
  | sidecar (url : String)
  | summary
  deriving DecidableEq

/-- A call of `tokio::fs::write`. -/
structure WriteCall where
  name : String
  content : Bytes
  writer : Writer

/-- How a write ends. A failed one may leave a file with other content. -/
inductive WriteEnd where
  | ok
  | failed (e : String) (leaves : Option Bytes)

/-- The write a task or a batch waits for. -/
inductive Job where
  | idle
  | queued (call : WriteCall)
  | done (r : Except String Unit)

/-- A file, with its last writer. -/
structure File where
  content : Bytes
  writer : Writer

/-- The files of a directory by name. -/
abbrev Files := String → Option File

/-- The files after a write. -/
def WriteEnd.apply (files : Files) (call : WriteCall) : WriteEnd → Files
  | .ok => Function.update files call.name (some ⟨call.content, call.writer⟩)
  | .failed _ (some b) => Function.update files call.name (some ⟨b, call.writer⟩)
  | .failed _ none => files

/-- What the writer is told. -/
def WriteEnd.result : WriteEnd → Except String Unit
  | .ok => .ok ()
  | .failed e _ => .error e

/-- A request handed to a connection of the pool key `key`. -/
structure Sent where
  key : HostKey
  url : Uri
  deriving DecidableEq, Repr

/-- What the tasks of a batch share : the free permits of the semaphores, the map of
hosts to semaphores, the files they have written so far and the log of requests. The files are
those of this batch alone, none at its start : what was in the directory before, and what other
batches write there, is not among them. -/
structure Scope where
  globalSem : ℕ
  hostSems : String → Option SemId
  permits : SemId → ℕ
  nextSem : SemId
  files : Files
  sent : List Sent

/-- A `download_one` task with its write. `body` records the bytes of the image it is
to write. -/
structure Task where
  url : String
  firstIndex : ℕ
  outputDir : String
  stage : Stage
  job : Job
  body : Option Bytes

namespace Stage

/-- The task has not ended. -/
def alive : Stage → Bool
  | returned _ => false
  | panicked => false
  | cancelled => false
  | _ => true

/-- The task holds a permit of the global semaphore. -/
def holdsGlobal : Stage → Bool
  | hostLock _ => true
  | hostWait _ _ => true
  | working _ _ _ => true
  | _ => false

/-- The semaphore of which the task holds a permit. -/
def holdsHost : Stage → Option SemId
  | working _ sem _ => some sem
  | _ => none

/-- The attempt of the task on the pool. -/
def client : Stage → Client
  | working _ _ (.attempt _ _ c) => c
  | _ => .idle

end Stage

/-- The permits of a stage go back. -/
def Scope.release (sc : Scope) (stage : Stage) : Scope :=
  { sc with
    globalSem := if stage.holdsGlobal then sc.globalSem + 1 else sc.globalSem
    permits := match stage.holdsHost with
      | some sem => Function.update sc.permits sem (sc.permits sem + 1)
      | none => sc.permits }

/-- Log the requests of an `execute_request` call. -/
def Scope.log (sc : Scope) (key : HostKey) (urls : List Uri) : Scope :=
  { sc with sent := sc.sent ++ urls.map fun url => ⟨key, url⟩ }

namespace Task

variable (t : Task)

/-- What `download_one` returns. -/
def result (outcome : DownloadOutcome) : String × DownloadResult :=
  (t.url, ⟨t.url, outcome⟩)

/-- The task returns. -/
def finish (outcome : DownloadOutcome) : Task :=
  { t with stage := .returned (t.result outcome) }

/-- The task goes on. -/
def goto (stage : Stage) : Task :=
  { t with stage := stage }

/-- The task starts a write. -/
def write (stage : Stage) (call : WriteCall) : Task :=
  { t with stage := stage, job := .queued call }

/-- The write of an image. -/
def imageCall (image : Image) : WriteCall :=
  ⟨image.filename, image.data.bytes, .image t.url⟩

/-- The write of a sidecar. -/
def sidecarCall (image : Image) (json : Bytes) : WriteCall :=
  ⟨sidecarName image.filename, json, .sidecar t.url⟩

/-- A task that is yet to run. -/
def spawn (url : String) (firstIndex : ℕ) (outputDir : String) : Task :=
  ⟨url, firstIndex, outputDir, .spawned, .idle, none⟩

end Task

/-- What a task waits for. -/
inductive TaskEvent where
  /-- First poll. -/
  | poll (elapsed : Duration)
  | acquireGlobal
  | lockHostSems
  | acquireHost
  | pool (e : ClientEvent)
  | request (replies : List Reply)
  /-- The attempt is over. -/
  | settle (elapsed : Duration) (subsecNanos : ℕ)
  /-- The backoff is over. -/
  | resume
  /-- The job of the write ends. -/
  | perform (w : WriteEnd)
  /-- The task sees the end of its write. -/
  | written (elapsed : Duration) (now : String)
  | panic
  | cancel

/-- The events of `acquire` and `finish_connection`. -/
def ClientEvent.inPool : ClientEvent → Bool
  | .decide _ _ => true
  | .register => true
  | .wake => true
  | .timer => true
  | .connect _ => true
  | .insert => true
  | .finish => true
  | _ => false

section Step

variable (env : Env) (config : Config)

/-- `execute_request` of an attempt on `target`. -/
def executeTarget (target : Target) (replies : List Reply) :
    List Uri × Option (Except DownloadError TransportResult) :=
  executeRequest env.http env.overflowChecks ⟨config.userAgent, target.maxRedirects⟩ target.host
    replies target.uri

/-- The task stops where it is : its attempt leaves the pool as a cancelled one. -/
def unwind (p : PoolState) (sc : Scope) (t : Task) (stage : Stage) :
    Option (PoolState × Scope × Task) :=
  (clientStep config.connectionsPerHost p t.stage.client .cancel).map fun r =>
    (r.1, sc.release t.stage, t.goto stage)

/-- The section after an attempt. -/
def afterAttempt (p : PoolState) (sc : Scope) (t : Task) (home : Target) (sem : SemId)
    (leg : Leg) (n : UInt32) (elapsed : Duration) : Settled → PoolState × Scope × Task
  | .retry delay => (p, sc, t.goto (.working home sem (.backoff leg n delay)))
  | .redirect target retries =>
    (p, sc, t.goto (.working home sem (.attempt (.crossHost target retries) 0
      (.locking target.key 0))))
  | .failed e retries => (p, sc.release t.stage, t.finish (.failure e elapsed retries))
  | .write image => (p, sc,
    { t.write (.working home sem (.imageWrite image)) (t.imageCall image) with
      body := some image.data.bytes })
  | .panicked => (p, sc.release t.stage, t.goto .panicked)

/-- The section after the write of an image. -/
def afterImage (p : PoolState) (sc : Scope) (t : Task) (home : Target) (sem : SemId)
    (image : Image) (elapsed : Duration) (now : String) :
    Except String Unit → PoolState × Scope × Task
  | .error e => (p, sc.release t.stage,
    t.finish (.failure (.writeError e) elapsed image.retriesAttempted))
  | .ok () =>
    let outcome := image.outcome env config t.outputDir elapsed
    match image.sidecar env config t.url elapsed now with
    | none => (p, sc.release t.stage, t.finish outcome)
    | some json =>
      (p, sc, t.write (.working home sem (.sidecarWrite outcome)) (t.sidecarCall image json))

/-- The next section of a task. -/
def taskStep (p : PoolState) (sc : Scope) (t : Task) :
    TaskEvent → Option (PoolState × Scope × Task)
  | .poll elapsed => match t.stage with
    | .spawned => match parseTarget env.http config t.url with
      | .error e => some (p, sc, t.finish (.failure e elapsed 0))
      | .ok home => some (p, sc, t.goto (.globalWait home))
    | _ => none
  | .acquireGlobal => match t.stage with
    | .globalWait home =>
      if 0 < sc.globalSem then
        some (p, { sc with globalSem := sc.globalSem - 1 }, t.goto (.hostLock home))
      else none
    | _ => none
  | .lockHostSems => match t.stage with
    | .hostLock home => match sc.hostSems home.host with
      | some sem => some (p, sc, t.goto (.hostWait home sem))
      | none => some (p,
        { sc with
          hostSems := Function.update sc.hostSems home.host (some sc.nextSem)
          permits := Function.update sc.permits sc.nextSem config.maxConcurrentPerHost
          nextSem := sc.nextSem + 1 },
        t.goto (.hostWait home sc.nextSem))
    | _ => none
  | .acquireHost => match t.stage with
    | .hostWait home sem =>
      if 0 < sc.permits sem then
        some (p, { sc with permits := Function.update sc.permits sem (sc.permits sem - 1) },
          t.goto (.working home sem (.attempt .origin 0 (.locking home.key 0))))
      else none
    | _ => none
  | .pool e => match t.stage with
    | .working home sem (.attempt leg n c) =>
      if e.inPool then
        (clientStep config.connectionsPerHost p c e).map fun r =>
          (r.1, sc, t.goto (.working home sem (.attempt leg n r.2)))
      else none
    | _ => none
  | .request replies => match t.stage with
    | .working home sem (.attempt leg n (.requesting key handle)) =>
      match executeTarget env config (leg.target home) replies with
      | (urls, some result) => some (p, sc.log key urls,
        t.goto (.working home sem (.attempt leg n (.finishing key handle result))))
      | (urls, none) => unwind config p (sc.log key urls) t .panicked
    | _ => none
  | .settle elapsed subsecNanos => match t.stage with
    | .working home sem (.attempt leg n (.finished result)) =>
      some (afterAttempt p sc t home sem leg n elapsed
        (settleAttempt env config t.url t.firstIndex leg n subsecNanos result))
    | _ => none
  | .resume => match t.stage with
    | .working home sem (.backoff leg n _) => some (p, sc,
      t.goto (.working home sem (.attempt leg (n + 1) (.locking (leg.target home).key 0))))
    | _ => none
  | .perform w => match t.job with
    | .queued call => some (p, { sc with files := w.apply sc.files call },
      { t with job := .done w.result })
    | _ => none
  | .written elapsed now => match t.stage, t.job with
    | .working home sem (.imageWrite image), .done r =>
      some (afterImage env config p sc t home sem image elapsed now r)
    | .working _ _ (.sidecarWrite outcome), .done _ =>
      some (p, sc.release t.stage, t.finish outcome)
    | _, _ => none
  | .panic => if t.stage.alive then unwind config p sc t .panicked else none
  | .cancel => if t.stage.alive then unwind config p sc t .cancelled else none

/-! ## What a section can do -/

/-- What a section of the task `t` can do. -/
inductive TaskMove (p : PoolState) (sc : Scope) (t : Task) :
    TaskEvent → PoolState → Scope → Task → Prop where
  | rejected {elapsed : Duration} {e : DownloadError} : t.stage = .spawned →
    parseTarget env.http config t.url = .error e →
    TaskMove p sc t (.poll elapsed) p sc (t.finish (.failure e elapsed 0))
  | accepted {elapsed : Duration} {home : Target} : t.stage = .spawned →
    parseTarget env.http config t.url = .ok home →
    TaskMove p sc t (.poll elapsed) p sc (t.goto (.globalWait home))
  | acquireGlobal {home : Target} : t.stage = .globalWait home → 0 < sc.globalSem →
    TaskMove p sc t .acquireGlobal p { sc with globalSem := sc.globalSem - 1 }
      (t.goto (.hostLock home))
  | lockFound {home : Target} {sem : SemId} : t.stage = .hostLock home →
    sc.hostSems home.host = some sem →
    TaskMove p sc t .lockHostSems p sc (t.goto (.hostWait home sem))
  | lockFresh {home : Target} : t.stage = .hostLock home → sc.hostSems home.host = none →
    TaskMove p sc t .lockHostSems p
      { sc with
        hostSems := Function.update sc.hostSems home.host (some sc.nextSem)
        permits := Function.update sc.permits sc.nextSem config.maxConcurrentPerHost
        nextSem := sc.nextSem + 1 }
      (t.goto (.hostWait home sc.nextSem))
  | acquireHost {home : Target} {sem : SemId} : t.stage = .hostWait home sem →
    0 < sc.permits sem →
    TaskMove p sc t .acquireHost p
      { sc with permits := Function.update sc.permits sem (sc.permits sem - 1) }
      (t.goto (.working home sem (.attempt .origin 0 (.locking home.key 0))))
  | pool {home : Target} {sem : SemId} {leg : Leg} {n : UInt32} {c c' : Client}
    {e : ClientEvent} {p' : PoolState} : t.stage = .working home sem (.attempt leg n c) →
    e.inPool → clientStep config.connectionsPerHost p c e = some (p', c') →
    TaskMove p sc t (.pool e) p' sc (t.goto (.working home sem (.attempt leg n c')))
  | answered {home : Target} {sem : SemId} {leg : Leg} {n : UInt32} {key : HostKey}
    {handle : PoolHandle} {replies : List Reply} {urls : List Uri}
    {result : Except DownloadError TransportResult} :
    t.stage = .working home sem (.attempt leg n (.requesting key handle)) →
    executeTarget env config (leg.target home) replies = (urls, some result) →
    TaskMove p sc t (.request replies) p (sc.log key urls)
      (t.goto (.working home sem (.attempt leg n (.finishing key handle result))))
  /-- The request loop panics. -/
  | burst {home : Target} {sem : SemId} {leg : Leg} {n : UInt32} {key : HostKey}
    {handle : PoolHandle} {replies : List Reply} {urls : List Uri} :
    t.stage = .working home sem (.attempt leg n (.requesting key handle)) →
    executeTarget env config (leg.target home) replies = (urls, none) →
    TaskMove p sc t (.request replies) p ((sc.log key urls).release t.stage)
      (t.goto .panicked)
  | retry {home : Target} {sem : SemId} {leg : Leg} {n : UInt32} {elapsed delay : Duration}
    {subsecNanos : ℕ} {result : Except DownloadError TransportResult} :
    t.stage = .working home sem (.attempt leg n (.finished result)) →
    settleAttempt env config t.url t.firstIndex leg n subsecNanos result = .retry delay →
    TaskMove p sc t (.settle elapsed subsecNanos) p sc
      (t.goto (.working home sem (.backoff leg n delay)))
  | redirect {home target : Target} {sem : SemId} {leg : Leg} {n retries : UInt32}
    {elapsed : Duration} {subsecNanos : ℕ} {result : Except DownloadError TransportResult} :
    t.stage = .working home sem (.attempt leg n (.finished result)) →
    settleAttempt env config t.url t.firstIndex leg n subsecNanos result =
      .redirect target retries →
    TaskMove p sc t (.settle elapsed subsecNanos) p sc
      (t.goto (.working home sem (.attempt (.crossHost target retries) 0
        (.locking target.key 0))))
  | failed {home : Target} {sem : SemId} {leg : Leg} {n retries : UInt32} {elapsed : Duration}
    {subsecNanos : ℕ} {result : Except DownloadError TransportResult} {e : DownloadError} :
    t.stage = .working home sem (.attempt leg n (.finished result)) →
    settleAttempt env config t.url t.firstIndex leg n subsecNanos result = .failed e retries →
    TaskMove p sc t (.settle elapsed subsecNanos) p (sc.release t.stage)
      (t.finish (.failure e elapsed retries))
  | store {home : Target} {sem : SemId} {leg : Leg} {n : UInt32} {elapsed : Duration}
    {subsecNanos : ℕ} {result : Except DownloadError TransportResult} {image : Image} :
    t.stage = .working home sem (.attempt leg n (.finished result)) →
    settleAttempt env config t.url t.firstIndex leg n subsecNanos result = .write image →
    TaskMove p sc t (.settle elapsed subsecNanos) p sc
      { t.write (.working home sem (.imageWrite image)) (t.imageCall image) with
        body := some image.data.bytes }
  /-- The file name panics. -/
  | unnamed {home : Target} {sem : SemId} {leg : Leg} {n : UInt32} {elapsed : Duration}
    {subsecNanos : ℕ} {result : Except DownloadError TransportResult} :
    t.stage = .working home sem (.attempt leg n (.finished result)) →
    settleAttempt env config t.url t.firstIndex leg n subsecNanos result = .panicked →
    TaskMove p sc t (.settle elapsed subsecNanos) p (sc.release t.stage) (t.goto .panicked)
  | resume {home : Target} {sem : SemId} {leg : Leg} {n : UInt32} {delay : Duration} :
    t.stage = .working home sem (.backoff leg n delay) →
    TaskMove p sc t .resume p sc
      (t.goto (.working home sem (.attempt leg (n + 1) (.locking (leg.target home).key 0))))
  | perform {call : WriteCall} {w : WriteEnd} : t.job = .queued call →
    TaskMove p sc t (.perform w) p { sc with files := w.apply sc.files call }
      { t with job := .done w.result }
  | imageFailed {home : Target} {sem : SemId} {image : Image} {elapsed : Duration}
    {now e : String} : t.stage = .working home sem (.imageWrite image) →
    t.job = .done (.error e) →
    TaskMove p sc t (.written elapsed now) p (sc.release t.stage)
      (t.finish (.failure (.writeError e) elapsed image.retriesAttempted))
  | imageDone {home : Target} {sem : SemId} {image : Image} {elapsed : Duration}
    {now : String} : t.stage = .working home sem (.imageWrite image) → t.job = .done (.ok ()) →
    TaskMove p sc t (.written elapsed now) p (sc.release t.stage)
      (t.finish (image.outcome env config t.outputDir elapsed))
  | sidecar {home : Target} {sem : SemId} {image : Image} {elapsed : Duration} {now : String}
    {json : Bytes} : t.stage = .working home sem (.imageWrite image) →
    t.job = .done (.ok ()) → config.writeMetadata = true →
    TaskMove p sc t (.written elapsed now) p sc
      (t.write (.working home sem (.sidecarWrite (image.outcome env config t.outputDir elapsed)))
        (t.sidecarCall image json))
  | sidecarDone {home : Target} {sem : SemId} {outcome : DownloadOutcome}
    {elapsed : Duration} {now : String} {r : Except String Unit} :
    t.stage = .working home sem (.sidecarWrite outcome) → t.job = .done r →
    TaskMove p sc t (.written elapsed now) p (sc.release t.stage) (t.finish outcome)
  | stopped {e : TaskEvent} {stage : Stage} {p' : PoolState} : t.stage.alive →
    (e = .panic ∧ stage = .panicked) ∨ (e = .cancel ∧ stage = .cancelled) →
    clientStep config.connectionsPerHost p t.stage.client .cancel = some (p', .idle) →
    TaskMove p sc t e p' (sc.release t.stage) (t.goto stage)

variable {env config} {p p' : PoolState} {sc sc' : Scope} {t t' : Task}

/-- The sections of the pool lead to no result but a failure. -/
theorem clientStep_settled {connectionsPerHost : ℕ} {c c' : Client} {e : ClientEvent}
    (he : e.inPool = true) (h : clientStep connectionsPerHost p c e = some (p', c')) :
    c'.settled = c.settled ∨ c.settled = none ∧ ∃ err, c'.settled = some (.error err) := by
  have next : ∀ (key : HostKey) (n : ℕ), (nextAttempt key n).settled = none ∨
      none = (none : Option (Except DownloadError TransportResult)) ∧
        ∃ err, (nextAttempt key n).settled = some (.error err) := by
    intro key n
    unfold nextAttempt
    split_ifs
    · exact Or.inl rfl
    · exact Or.inr ⟨rfl, _, rfl⟩
  cases e with
  | start | respond | leave | cancel => cases he
  | decide poll poll' =>
    cases c <;> simp only [clientStep, reduceCtorEq, Option.some.injEq, Prod.mk.injEq] at h
    obtain ⟨-, rfl⟩ := h
    generalize (determineAction _ _ _ _ _ _).2 = a
    cases a <;> exact Or.inl rfl
  | register =>
    cases c <;> simp only [clientStep, reduceCtorEq] at h
    split_ifs at h <;> obtain ⟨-, rfl⟩ := Prod.mk.inj (Option.some.inj h)
    · exact next _ _
    · exact Or.inl rfl
  | wake | timer =>
    cases c <;> simp only [clientStep, reduceCtorEq] at h
    split_ifs at h
    obtain ⟨-, rfl⟩ := Prod.mk.inj (Option.some.inj h)
    exact next _ _
  | connect r =>
    cases c <;> cases r <;> simp only [clientStep, reduceCtorEq, Option.some.injEq,
      Prod.mk.injEq] at h <;> obtain ⟨-, rfl⟩ := h <;> exact Or.inl rfl
  | insert =>
    cases c <;> simp only [clientStep, reduceCtorEq] at h <;> split at h <;>
      obtain ⟨-, rfl⟩ := Prod.mk.inj (Option.some.inj h) <;>
      first | exact Or.inl rfl | exact Or.inr ⟨rfl, _, rfl⟩
  | finish =>
    cases c <;> simp only [clientStep, reduceCtorEq, Option.some.injEq, Prod.mk.injEq] at h
    obtain ⟨-, rfl⟩ := h
    exact Or.inl rfl

/-- A cancelled client is idle. -/
theorem clientStep_cancel (connectionsPerHost : ℕ) (p : PoolState) (c : Client) :
    ∃ p', clientStep connectionsPerHost p c .cancel = some (p', .idle) := by
  cases c <;> exact ⟨_, rfl⟩

theorem unwind_eq (config : Config) (p : PoolState) (sc : Scope) (t : Task) (stage : Stage) :
    ∃ q, clientStep config.connectionsPerHost p t.stage.client .cancel = some (q, .idle) ∧
      unwind config p sc t stage = some (q, sc.release t.stage, t.goto stage) := by
  obtain ⟨q, hq⟩ := clientStep_cancel config.connectionsPerHost p t.stage.client
  exact ⟨q, hq, by rw [unwind, hq]; rfl⟩

theorem taskStep_settle {elapsed : Duration} {subsecNanos : ℕ}
    (h : taskStep env config p sc t (.settle elapsed subsecNanos) = some (p', sc', t')) :
    TaskMove env config p sc t (.settle elapsed subsecNanos) p' sc' t' := by
  unfold taskStep at h
  simp only at h
  split at h
  case h_1 home sem leg n result hstage =>
    generalize hset : settleAttempt env config t.url t.firstIndex leg n subsecNanos result = r at h
    cases r <;> obtain ⟨rfl, rfl, rfl⟩ : _ ∧ _ ∧ _ := by simpa [afterAttempt] using h
    · exact .retry hstage hset
    · exact .redirect hstage hset
    · exact .failed hstage hset
    · exact .store hstage hset
    · exact .unnamed hstage hset
  case h_2 => cases h

theorem taskStep_written {elapsed : Duration} {now : String}
    (h : taskStep env config p sc t (.written elapsed now) = some (p', sc', t')) :
    TaskMove env config p sc t (.written elapsed now) p' sc' t' := by
  unfold taskStep at h
  simp only at h
  split at h
  case h_1 home sem image r hstage hjob =>
    cases r with
    | error e =>
      obtain ⟨rfl, rfl, rfl⟩ : _ ∧ _ ∧ _ := by simpa [afterImage] using h
      exact .imageFailed hstage hjob
    | ok u =>
      simp only [afterImage] at h
      cases hside : image.sidecar env config t.url elapsed now with
      | none =>
        obtain ⟨rfl, rfl, rfl⟩ : _ ∧ _ ∧ _ := by simpa [hside] using h
        exact .imageDone hstage hjob
      | some json =>
        obtain ⟨rfl, rfl, rfl⟩ : _ ∧ _ ∧ _ := by simpa [hside] using h
        refine .sidecar hstage hjob ?_
        unfold Image.sidecar at hside
        split_ifs at hside with hw
        exact hw
  case h_2 home sem outcome r hstage hjob =>
    obtain ⟨rfl, rfl, rfl⟩ : _ ∧ _ ∧ _ := by simpa using h
    exact .sidecarDone hstage hjob
  case h_3 => cases h

theorem taskStep_request {replies : List Reply}
    (h : taskStep env config p sc t (.request replies) = some (p', sc', t')) :
    TaskMove env config p sc t (.request replies) p' sc' t' := by
  unfold taskStep at h
  simp only at h
  split at h
  case h_1 home sem leg n key handle hstage =>
    split at h
    case h_1 urls result hexec =>
      obtain ⟨rfl, rfl, rfl⟩ : _ ∧ _ ∧ _ := by simpa using h
      exact .answered hstage hexec
    case h_2 urls hexec =>
      obtain ⟨rfl, rfl, rfl⟩ : _ ∧ _ ∧ _ := by
        simpa [unwind, hstage, Stage.client, clientStep] using h
      exact hstage ▸ .burst hstage hexec
  case h_2 => cases h

theorem taskStep_stop {e : TaskEvent} {stage : Stage}
    (he : (e = .panic ∧ stage = .panicked) ∨ (e = .cancel ∧ stage = .cancelled))
    (halive : t.stage.alive = true) (h : unwind config p sc t stage = some (p', sc', t')) :
    TaskMove env config p sc t e p' sc' t' := by
  obtain ⟨q, hq, hu⟩ := unwind_eq config p sc t stage
  obtain ⟨rfl, rfl, rfl⟩ : _ ∧ _ ∧ _ := by simpa using hu.symm.trans h
  exact .stopped halive he hq

/-- Every section of a task is one of the moves. -/
theorem taskStep_cases {e : TaskEvent} (h : taskStep env config p sc t e = some (p', sc', t')) :
    TaskMove env config p sc t e p' sc' t' := by
  cases e with
  | settle elapsed subsecNanos => exact taskStep_settle h
  | written elapsed now => exact taskStep_written h
  | request replies => exact taskStep_request h
  | panic =>
    obtain ⟨halive, h⟩ : _ ∧ _ := by simpa [taskStep] using h
    exact taskStep_stop (Or.inl ⟨rfl, rfl⟩) halive h
  | cancel =>
    obtain ⟨halive, h⟩ : _ ∧ _ := by simpa [taskStep] using h
    exact taskStep_stop (Or.inr ⟨rfl, rfl⟩) halive h
  | poll elapsed =>
    unfold taskStep at h
    simp only at h
    split at h
    case h_2 => cases h
    case h_1 hstage =>
      cases hparse : parseTarget env.http config t.url with
      | error e =>
        obtain ⟨rfl, rfl, rfl⟩ : _ ∧ _ ∧ _ := by simpa [hparse] using h
        exact .rejected hstage hparse
      | ok home =>
        obtain ⟨rfl, rfl, rfl⟩ : _ ∧ _ ∧ _ := by simpa [hparse] using h
        exact .accepted hstage hparse
  | acquireGlobal =>
    unfold taskStep at h
    simp only at h
    split at h
    case h_2 => cases h
    case h_1 home hstage =>
      split_ifs at h with hfree
      obtain ⟨rfl, rfl, rfl⟩ : _ ∧ _ ∧ _ := by simpa using h
      exact .acquireGlobal hstage hfree
  | lockHostSems =>
    unfold taskStep at h
    simp only at h
    split at h
    case h_2 => cases h
    case h_1 home hstage =>
      cases hsem : sc.hostSems home.host with
      | none =>
        obtain ⟨rfl, rfl, rfl⟩ : _ ∧ _ ∧ _ := by simpa [hsem] using h
        exact .lockFresh hstage hsem
      | some sem =>
        obtain ⟨rfl, rfl, rfl⟩ : _ ∧ _ ∧ _ := by simpa [hsem] using h
        exact .lockFound hstage hsem
  | acquireHost =>
    unfold taskStep at h
    simp only at h
    split at h
    case h_2 => cases h
    case h_1 home sem hstage =>
      split_ifs at h with hfree
      obtain ⟨rfl, rfl, rfl⟩ : _ ∧ _ ∧ _ := by simpa using h
      exact .acquireHost hstage hfree
  | pool e =>
    unfold taskStep at h
    simp only at h
    split at h
    case h_2 => cases h
    case h_1 home sem leg n c hstage =>
      split_ifs at h with hin
      obtain ⟨⟨q, c'⟩, hstep, heq⟩ := Option.map_eq_some_iff.1 h
      obtain ⟨rfl, rfl, rfl⟩ : _ ∧ _ ∧ _ := by simpa using heq
      exact .pool hstage hin hstep
  | resume =>
    unfold taskStep at h
    simp only at h
    split at h
    case h_2 => cases h
    case h_1 home sem leg n delay hstage =>
      obtain ⟨rfl, rfl, rfl⟩ : _ ∧ _ ∧ _ := by simpa using h
      exact .resume hstage
  | perform w =>
    unfold taskStep at h
    simp only at h
    split at h
    case h_2 => cases h
    case h_1 call hjob =>
      obtain ⟨rfl, rfl, rfl⟩ : _ ∧ _ ∧ _ := by simpa using h
      exact .perform hjob

namespace TaskMove

variable {e : TaskEvent}

/-- A task keeps its URL, its index and its directory. -/
theorem ident (hm : TaskMove env config p sc t e p' sc' t') :
    t'.url = t.url ∧ t'.firstIndex = t.firstIndex ∧ t'.outputDir = t.outputDir := by
  cases hm <;> exact ⟨rfl, rfl, rfl⟩

/-- A task that has ended stays where it is. -/
theorem stage_of_ended (hm : TaskMove env config p sc t e p' sc' t')
    (h : t.stage.alive = false) : t'.stage = t.stage := by
  cases hm with
  | perform => rfl
  | stopped halive => simp [h] at halive
  | rejected hs | accepted hs | acquireGlobal hs | lockFound hs | lockFresh hs | acquireHost hs
  | pool hs | answered hs | burst hs | retry hs | redirect hs | failed hs | store hs
  | unnamed hs | resume hs | imageFailed hs | imageDone hs | sidecar hs | sidecarDone hs =>
    simp [hs, Stage.alive] at h

/-- A task returns a result of its own URL. -/
theorem returned (hm : TaskMove env config p sc t e p' sc' t') {r : String × DownloadResult}
    (h : t'.stage = .returned r) : t.stage = .returned r ∨ ∃ outcome, r = t.result outcome := by
  cases hm with
  | perform => exact Or.inl h
  | rejected | failed | imageFailed | imageDone | sidecarDone =>
    exact Or.inr ⟨_, (Stage.returned.inj h).symm⟩
  | stopped _ he _ => rcases he with ⟨-, rfl⟩ | ⟨-, rfl⟩ <;> cases h
  | _ => cases h

end TaskMove

end Step

end Imgdl
