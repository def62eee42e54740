import Imgdl.Naming
import Imgdl.Transport

/-!
# What a download writes

The check of a response, the metadata of a sidecar, and the two file names that are not
generated : `<image>.json` and `summary.json`. The JSON texts come from a serializer that
is not part of the program.
-/

namespace Imgdl

/-- `str::parse` at `usize`. -/
def parseUsize (s : String) : Option ℕ :=
  parseUnsigned (2 ^ 64) s

/-- Check a body against its headers. -/
def validateResponse (bytes : Bytes) (headers : HeaderMap) : Except DownloadError Unit :=
  if bytes.isEmpty then .error (.validationFailed "empty response body")
  else match headers.get "content-length" with
    | none => .ok ()
    | some cl => match parseUsize ((HeaderValue.toStr cl).getD "") with
      | none => .ok ()
      | some expected =>
        if expected ≠ bytes.length then
          .error (.validationFailed
            s!"content-length mismatch: expected {expected}, got {bytes.length}")
        else .ok ()

/-- The length that the headers give a body, if they give one that fits a `usize`. -/
def declaredLength (headers : HeaderMap) : Option ℕ :=
  (headers.get "content-length").bind fun cl => parseUsize ((HeaderValue.toStr cl).getD "")

theorem validateResponse_eq_ok {bytes : Bytes} {headers : HeaderMap} :
    validateResponse bytes headers = .ok () ↔
      bytes ≠ [] ∧ ∀ n, declaredLength headers = some n → n = bytes.length := by
  unfold validateResponse declaredLength
  cases bytes with
  | nil => simp
  | cons b bytes =>
    cases headers.get "content-length" with
    | none => simp
    | some cl =>
      cases hparse : parseUsize ((HeaderValue.toStr cl).getD "") with
      | none => simp [hparse]
      | some expected => by_cases hlen : expected = bytes.length + 1 <;> simp [hparse, hlen]

/-- The content hash of an image, when something needs it. -/
def contentHash (sha256 : Bytes → Bytes) (config : Config) (bytes : Bytes) : Option String :=
  if config.namingStrategy = .contentHash ∨ config.writeMetadata ∨ config.writeSummary then
    some (String.ofList (hexPrefix sha256 16 bytes))
  else none

theorem isSome_contentHash {sha256 : Bytes → Bytes} {config : Config} {bytes : Bytes} :
    (contentHash sha256 config bytes).isSome ↔
      config.namingStrategy = .contentHash ∨ config.writeMetadata ∨ config.writeSummary := by
  unfold contentHash
  split_ifs with h <;> simp [h]

/-- Metadata about a downloaded file. -/
structure FileMetadata where
  url : String
  filename : String
  sizeBytes : ℕ
  contentHash : Option String
  contentType : Option String
  elapsed : Duration
  downloadedAt : String
  headers : List (String × String)
  deriving DecidableEq, Repr

/-- The headers as a map of texts : of a repeated name the last value stays. -/
def headersMap (headers : HeaderMap) : List (String × String) :=
  headers.foldl (fun m e =>
    m.filter (fun f => f.1 ≠ e.1) ++ [(e.1, (HeaderValue.toStr e.2).getD "")]) []

/-- The file name of the sidecar of an image. -/
def sidecarName (filename : String) : String :=
  filename ++ ".json"

/-- The file name of the batch summary. -/
def summaryName : String :=
  "summary.json"

end Imgdl
