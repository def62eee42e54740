import Imgdl.Grouping
import Imgdl.Types
import Mathlib.Data.Rat.Init

/-!
# The batch summary

`batchSummary` is what `write_batch_summary` builds from the results of a batch. Times
are kept as durations, where the source converts them to floating-point milliseconds, and
the average of a host is exact. Sums of sizes are `u64` and wrap.
-/

namespace Imgdl

/-- The text of an error. -/
def DownloadError.toText : DownloadError → String
  | .httpStatus code message _ => s!"HTTP error {code}: {message}"
  | .timeout => "request timed out"
  | .connectionFailed msg => s!"connection failed: {msg}"
  | .tlsError msg => s!"TLS error: {msg}"
  | .writeError msg => s!"write error: {msg}"
  | .validationFailed msg => s!"validation failed: {msg}"
  | .dnsResolutionFailed msg => s!"DNS resolution failed: {msg}"
  | .tooManyRedirects msg => s!"too many redirects: {msg}"

/-- Per-host aggregate statistics. -/
structure HostStats where
  requests : ℕ
  successful : ℕ
  failed : ℕ
  totalBytes : ℕ
  avgElapsed : ℚ
  deriving DecidableEq, Repr

/-- Compact per-URL result. -/
structure ResultSummary where
  url : String
  success : Bool
  sizeBytes : Option ℕ
  elapsed : Duration
  error : Option String
  deriving DecidableEq, Repr

/-- Summary of a batch. -/
structure BatchSummary where
  config : Config
  totalUrls : ℕ
  uniqueUrls : ℕ
  successful : ℕ
  failed : ℕ
  totalBytes : ℕ
  totalElapsed : Duration
  perHostStats : List (String × HostStats)
  results : List ResultSummary
  deriving DecidableEq, Repr

/-- `str::split("//")`. -/
def splitDoubleSlash : List Char → List (List Char)
  | '/' :: '/' :: s => [] :: splitDoubleSlash s
  | [] => [[]]
  | c :: s => match splitDoubleSlash s with
    | part :: parts => (c :: part) :: parts
    | [] => [[c]]

/-- The host of a URL, "unknown" as the fallback. -/
def extractHost (url : String) : String :=
  match (splitDoubleSlash url.toList)[1]? with
  | some s => String.ofList ((s.takeWhile (· ≠ '/')).takeWhile (· ≠ ':'))
  | none => "unknown"

/-- One result as the statistics of its host see it : success, size and time. -/
structure HostEntry where
  success : Bool
  bytes : ℕ
  elapsed : Duration

/-- The entry of a result. -/
def DownloadOutcome.entry : DownloadOutcome → HostEntry
  | .success _ sizeBytes _ elapsed => ⟨true, sizeBytes, elapsed⟩
  | .failure _ elapsed _ => ⟨false, 0, elapsed⟩

/-- The line of a result. -/
def DownloadResult.summarize (r : DownloadResult) : ResultSummary :=
  match r.outcome with
  | .success _ sizeBytes _ elapsed => ⟨r.url, true, some sizeBytes, elapsed, none⟩
  | .failure error elapsed _ => ⟨r.url, false, none, elapsed, some error.toText⟩

/-- A sum of sizes. -/
def sumBytes (es : List HostEntry) : ℕ :=
  (es.map HostEntry.bytes).sum % 2 ^ 64

/-- The statistics of a host. -/
def hostStats (entries : List HostEntry) : HostStats :=
  let requests := entries.length
  let successful := (entries.filter HostEntry.success).length
  { requests
    successful
    failed := requests - successful
    totalBytes := sumBytes entries
    avgElapsed := if 0 < requests then (entries.map HostEntry.elapsed).sum / requests else 0 }

/-- The summary of a batch. -/
def batchSummary (config : Config) (results : List DownloadResult) (totalUrls uniqueUrls : ℕ)
    (elapsed : Duration) : BatchSummary :=
  let entries := results.map fun r => r.outcome.entry
  let hostData := Grouping.groups (results.map fun r => (extractHost r.url, r.outcome.entry))
  { config
    totalUrls
    uniqueUrls
    successful := (entries.filter HostEntry.success).length
    failed := (entries.filter fun e => !e.success).length
    totalBytes := sumBytes entries
    totalElapsed := elapsed
    perHostStats := hostData.map fun h => (h.1, hostStats h.2)
    results := results.map DownloadResult.summarize }

example : extractHost "https://cdn.example.com:8080/a//b" = "cdn.example.com" := by decide

end Imgdl
