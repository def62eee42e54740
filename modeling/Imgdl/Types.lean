import Mathlib.Data.UInt

/-!
# Results, errors and the configuration

`DownloadResult`, `DownloadOutcome` and `DownloadError` are what a batch returns,
`Config` is what it is run with. A `Duration` is a whole number of nanoseconds, and
`usize` fields are natural numbers. A path is an output directory and a file name in
it : every path the program writes is `output_dir.join(name)` or that path with
another file name.
-/

namespace Imgdl

/-- A byte string. -/
abbrev Bytes := List UInt8

/-- Nanoseconds. -/
abbrev Duration := ℕ

/-- `Duration::from_secs`. -/
def Duration.fromSecs (n : ℕ) : Duration :=
  n * 1000000000

/-- All possible failure modes for a download. -/
inductive DownloadError where
  | httpStatus (code : ℕ) (message : String) (retryAfter : Option Duration)
  | timeout
  | connectionFailed (msg : String)
  | tlsError (msg : String)
  | writeError (msg : String)
  | validationFailed (msg : String)
  | dnsResolutionFailed (msg : String)
  | tooManyRedirects (msg : String)
  deriving DecidableEq, Repr

/-- `output_dir.join(file_name)`. -/
structure FilePath where
  dir : String
  fileName : String
  deriving DecidableEq, Repr

/-- The outcome of one download. -/
inductive DownloadOutcome where
  | success (path : FilePath) (sizeBytes : ℕ) (contentHash : Option String) (elapsed : Duration)
  | failure (error : DownloadError) (elapsed : Duration) (retriesAttempted : UInt32)
  deriving DecidableEq, Repr

/-- Result of downloading a single URL. -/
structure DownloadResult where
  url : String
  outcome : DownloadOutcome
  deriving DecidableEq, Repr

/-- Strategy for generating output file names. -/
inductive NamingStrategy where
  | urlBased
  | sequential
  | contentHash
  | fileHeader
  deriving DecidableEq, Repr

/-- Configuration of the downloader, with the defaults of `Config::default`. -/
structure Config where
  streamWindowSize : UInt32 := 524288
  connectionsPerHost : ℕ := 1
  dnsCacheTtl : Duration := Duration.fromSecs 300
  userAgent : String := "imgdl/0.1"
  maxRedirects : UInt8 := 5
  maxConcurrentGlobal : ℕ := 200
  maxConcurrentPerHost : ℕ := 100
  maxRetries : UInt32 := 3
  retryBaseDelay : Duration := 100000000
  connectTimeout : Duration := Duration.fromSecs 10
  requestTimeout : Duration := Duration.fromSecs 30
  batchTimeout : Option Duration := none
  namingStrategy : NamingStrategy := .urlBased
  writeMetadata : Bool := false
  writeSummary : Bool := false
  deriving DecidableEq, Repr

end Imgdl
