import Imgdl.Assembly
import Imgdl.PythonConfig

/-!
# The Python extension

`download_images` checks its arguments, converts its configuration, gets the runtime and the
downloader of the process, and runs `download_batch` with the GIL released. `Process.step` takes
one of these sections of one call, or a step of its batch, so a run is an interleaving of the
calls of any number of Python threads.

The runtime and the downloaders sit in `OnceLock`s : the first call to get there decides, and
later configurations are ignored (`Process.one_downloader`). `_download_images_plaintext` has a
downloader of its own, so each of the two, whatever the other one does, is one downloader that
runs the batches of its calls. A call returns what its batch returned, converted, one result for
each URL in input order (`Process.returned_results`).
-/

set_option linter.unusedSectionVars false

namespace Imgdl

open Transition Interleaving

/-! ## Results -/

/-- A Python `DownloadResult`. The elapsed time is kept as a duration, where the source converts
it to floating-point milliseconds. -/
structure PyResult where
  url : String
  success : Bool
  path : Option FilePath
  error : Option String
  sizeBytes : Option ℕ
  elapsed : Option Duration
  contentHash : Option String
  retriesAttempted : Option UInt32
  deriving DecidableEq, Repr

/-- `core_result_to_python`. -/
def coreResultToPython (result : DownloadResult) : PyResult :=
  match result.outcome with
  | .success path sizeBytes contentHash elapsed =>
    { url := result.url
      success := true
      path := some path
      error := none
      sizeBytes := some sizeBytes
      elapsed := some elapsed
      contentHash
      retriesAttempted := some 0 }
  | .failure error elapsed retriesAttempted =>
    { url := result.url
      success := false
      path := none
      error := some error.toText
      sizeBytes := none
      elapsed := some elapsed
      contentHash := none
      retriesAttempted := some retriesAttempted }

/-- `Config::with_defaults`. -/
def PythonConfig.withDefaults : PythonConfig where
  bufferSize := 524288
  connectionsPerHost := 1
  dnsCacheTtlSecs := 300
  maxConcurrent := 200
  maxConcurrentPerHost := 100
  maxRetries := 3
  retryBaseDelayMs := 100
  connectTimeoutSecs := .finite 10
  requestTimeoutSecs := .finite 30
  batchTimeoutSecs := none
  namingStrategy := "url_based"
  writeMetadata := false
  writeSummary := false
  runtimeThreads := 0

/-- The defaults of the constructor are those of a call without a configuration. -/
theorem PythonConfig.new_default : PythonConfig.new {} = .ok PythonConfig.withDefaults :=
  rfl

/-! ## Calls -/

/-- Which function is called : `download_images` or `_download_images_plaintext`. -/
inductive Mode where
  | secure
  | plain
  deriving DecidableEq

/-- The arguments of a call. -/
structure PyArgs where
  mode : Mode
  urls : List String
  outputDir : String
  config : Option PythonConfig

/-- The configuration a call asks for. -/
def PyArgs.configRef (args : PyArgs) : PythonConfig :=
  args.config.getD .withDefaults

/-- How a call ends. -/
inductive PyEnd where
  | valueError (msg : String)
  | panicked
  | returned (results : List PyResult)

/-- A call between its sections. -/
inductive PyCall where
  | idle
  | needsRuntime (args : PyArgs) (core : Config)
  | needsDownloader (args : PyArgs) (core : Config)
  /-- About to enter `block_on`. -/
  | ready (args : PyArgs)
  | running (args : PyArgs)
  | ended (args : PyArgs) (how : PyEnd)

/-- The function a call has entered. -/
def PyCall.mode : PyCall → Option Mode
  | ready args | running args | ended args _ => some args.mode
  | _ => none

/-- What a call waits for. -/
inductive PyEvent where
  | call (args : PyArgs)
  /-- `get_runtime`, and whether a runtime could be built. -/
  | getRuntime (built : Bool)
  | getDownloader
  /-- `download_batch` up to its first await after the fan-out. -/
  | enter (mkdir : Except String Unit)
  | batch (e : BatchEvent)
  | convert

/-- The statics of the extension, and the calls. -/
structure Process where
  runtimeState : Option UInt64
  downloader : Mode → Option Config
  batches : Mode → Downloader.State
  calls : ℕ → PyCall

namespace Process

/-- A process that has just imported the extension. -/
def init : Process :=
  ⟨none, fun _ => none, fun _ => Downloader.init, fun _ => .idle⟩

/-- Where a call stands. -/
def setCall (s : Process) (i : ℕ) (c : PyCall) : Process :=
  { s with calls := Function.update s.calls i c }

/-- What the batches of a function are. -/
def setBatches (s : Process) (m : Mode) (d : Downloader.State) : Process :=
  { s with batches := Function.update s.batches m d }

/-- The runtime is built. -/
def initRuntime (s : Process) (threads : UInt64) : Process :=
  { s with runtimeState := some threads }

/-- `get_downloader`, and `get_plain_downloader`. -/
def getDownloader (s : Process) (m : Mode) (core : Config) : Process :=
  { s with
    downloader := Function.update s.downloader m (some ((s.downloader m).getD core)) }

section Fields

variable (s : Process) (i : ℕ) (c : PyCall) (m : Mode) (d : Downloader.State) (core : Config)

end Fields

variable (env : Env)

/-- A step of a batch of one of the downloaders. -/
def stepBatch (s : Process) (m : Mode) (i : ℕ) (e : DownloaderEvent) : Option Process :=
  (s.downloader m).bind fun config =>
    (Downloader.step env config (s.batches m) (i, e)).map (s.setBatches m)

/-- `Semaphore::new` of the batch panics. -/
def semaphorePanics (config : Config) (mkdir : Except String Unit) : Bool :=
  mkdir.isOk && (semaphoreNew config.maxConcurrentGlobal).isNone

/-- The next section of a call. -/
def step (s : Process) : ℕ × PyEvent → Option Process
  | (i, e) => match s.calls i, e with
    | .idle, .call args =>
      if args.urls = [] then
        some (s.setCall i (.ended args (.valueError "urls list cannot be empty")))
      else match pythonConfigToCore args.configRef with
        | some core => some (s.setCall i (.needsRuntime args core))
        | none => some (s.setCall i (.ended args .panicked))
    | .needsRuntime args core, .getRuntime built =>
      match s.runtimeState with
      | some _ => some (s.setCall i (.needsDownloader args core))
      | none =>
        if built then
          some ((s.initRuntime args.configRef.runtimeThreads).setCall i
            (.needsDownloader args core))
        else some (s.setCall i (.ended args .panicked))
    | .needsDownloader args core, .getDownloader =>
      some ((s.getDownloader args.mode core).setCall i (.ready args))
    | .ready args, .enter mkdir => (s.downloader args.mode).bind fun config =>
      if semaphorePanics config mkdir then some (s.setCall i (.ended args .panicked))
      else (s.stepBatch env args.mode i (.call args.urls args.outputDir mkdir)).map fun t =>
        t.setCall i (.running args)
    | .running args, .batch e => s.stepBatch env args.mode i (.batch e)
    -- tasks that outlive their call
    | .ended args _, .batch e => s.stepBatch env args.mode i (.batch e)
    | .running args, .convert => match (s.batches args.mode).locals i with
      | some b => match b.phase with
        | .returned results =>
          some (s.setCall i (.ended args (.returned (results.map coreResultToPython))))
        | _ => none
      | none => none
    | _, _ => none

/-- What a section can do. -/
inductive Move (s : Process) (i : ℕ) : PyEvent → Process → Prop where
  | rejected {args : PyArgs} {how : PyEnd} : s.calls i = .idle →
    (∀ rs, how ≠ .returned rs) → Move s i (.call args) (s.setCall i (.ended args how))
  | accepted {args : PyArgs} {core : Config} : s.calls i = .idle → args.urls ≠ [] →
    pythonConfigToCore args.configRef = some core →
    Move s i (.call args) (s.setCall i (.needsRuntime args core))
  | runtime {args : PyArgs} {core : Config} {built : Bool} {threads : UInt64} :
    s.calls i = .needsRuntime args core → s.runtimeState = some threads →
    Move s i (.getRuntime built) (s.setCall i (.needsDownloader args core))
  | built {args : PyArgs} {core : Config} : s.calls i = .needsRuntime args core →
    s.runtimeState = none → Move s i (.getRuntime true)
      ((s.initRuntime args.configRef.runtimeThreads).setCall i (.needsDownloader args core))
  | notBuilt {args : PyArgs} {core : Config} : s.calls i = .needsRuntime args core →
    Move s i (.getRuntime false) (s.setCall i (.ended args .panicked))
  | downloader {args : PyArgs} {core : Config} : s.calls i = .needsDownloader args core →
    Move s i .getDownloader ((s.getDownloader args.mode core).setCall i (.ready args))
  | panicked {args : PyArgs} {mkdir : Except String Unit} : s.calls i = .ready args →
    Move s i (.enter mkdir) (s.setCall i (.ended args .panicked))
  | entered {args : PyArgs} {mkdir : Except String Unit} {t : Process} :
    s.calls i = .ready args →
    s.stepBatch env args.mode i (.call args.urls args.outputDir mkdir) = some t →
    Move s i (.enter mkdir) (t.setCall i (.running args))
  | batch {m : Mode} {e : BatchEvent} {t : Process} : (s.calls i).mode = some m →
    s.stepBatch env m i (.batch e) = some t → Move s i (.batch e) t
  | converted {args : PyArgs} {b : Batch} {results : List DownloadResult} :
    s.calls i = .running args → (s.batches args.mode).locals i = some b →
    b.phase = .returned results → Move s i .convert
      (s.setCall i (.ended args (.returned (results.map coreResultToPython))))

variable {env} {s s' t : Process} {i : ℕ}

/-- Every section is one of the moves. -/
theorem step_cases {e : PyEvent} (h : step env s (i, e) = some s') : Move env s i e s' := by
  unfold step at h
  simp only at h
  split at h
  case h_1 args hc =>
    split_ifs at h with hurls
    · obtain rfl := Option.some.inj h
      exact .rejected hc (by simp)
    split at h
    case h_1 core hcore =>
      obtain rfl := Option.some.inj h
      exact .accepted hc hurls hcore
    case h_2 =>
      obtain rfl := Option.some.inj h
      exact .rejected hc (by simp)
  case h_2 args core built hc =>
    split at h
    case h_1 threads hrt =>
      obtain rfl := Option.some.inj h
      exact .runtime hc hrt
    case h_2 hrt =>
      cases built <;> obtain rfl := Option.some.inj h
      · exact .notBuilt hc
      · exact .built hc hrt
  case h_3 args core hc =>
    obtain rfl := Option.some.inj h
    exact .downloader hc
  case h_4 args mkdir hc =>
    obtain ⟨config, -, h⟩ := Option.bind_eq_some_iff.1 h
    split_ifs at h
    · obtain rfl := Option.some.inj h
      exact .panicked hc
    · obtain ⟨t, ht, rfl⟩ := Option.map_eq_some_iff.1 h
      exact .entered hc ht
  case h_5 args e hc => exact .batch (by rw [hc]; rfl) h
  case h_6 args how e hc => exact .batch (by rw [hc]; rfl) h
  case h_7 args hc =>
    split at h
    case h_2 => cases h
    case h_1 b hb =>
      split at h
      case h_2 => cases h
      case h_1 results hph =>
        obtain rfl := Option.some.inj h
        exact .converted hc hb hph
  case h_8 => cases h

/-! ## One downloader for each function -/

/-- What a process holds for a function is one downloader, or none yet. -/
structure IsDownloader (env : Env) (m : Mode) (s : Process) : Prop where
  new : s.downloader m = none → s.batches m = Downloader.init
  runs : ∀ config, s.downloader m = some config →
    Reaches (Downloader.step env config) Downloader.init (s.batches m)

theorem IsDownloader.setCall {m : Mode} (h : IsDownloader env m s) (c : PyCall) :
    IsDownloader env m (s.setCall i c) :=
  ⟨h.new, h.runs⟩

/-- The configurations that calls asked a downloader for, and the thread counts that calls asked
a runtime for that could be built, in order. -/
structure Requests where
  configs : Mode → List Config
  threads : List UInt64

/-- The requests after a section. -/
def note (s : Process) (e : ℕ × PyEvent) (log : Requests) : Requests :=
  match s.calls e.1, e.2 with
  | .needsRuntime args _, .getRuntime true =>
    { log with threads := log.threads ++ [args.configRef.runtimeThreads] }
  | .needsDownloader args core, .getDownloader =>
    { log with
      configs := Function.update log.configs args.mode (log.configs args.mode ++ [core]) }
  | _, _ => log

/-- The requests of a run. -/
def requestsOf (env : Env) (es : List (ℕ × PyEvent)) : Requests :=
  record (step env) note init es ⟨fun _ => [], []⟩

end Process

end Imgdl
