import Imgdl.Strings
import Imgdl.Types

/-!
# File names

`generateFilename` by strategy. `none` is a panic : of a slice off a character boundary, or
of the `usize` subtraction in `truncate_filename` with overflow checks.

SHA-256 is a parameter.
-/

namespace Imgdl

/-! ## Parts of a name -/

/-- `str::as_bytes`. -/
def asBytes (s : String) : Bytes :=
  s.toUTF8.toList

/-- Image format by magic bytes, as a file extension. -/
def detectExtensionFromMagicBytes (bytes : Bytes) : String :=
  if 3 ≤ bytes.length ∧ bytes.take 3 = [0xFF, 0xD8, 0xFF] then ".jpg"
  else if 4 ≤ bytes.length ∧ bytes.take 4 = [0x89, 0x50, 0x4E, 0x47] then ".png"
  else if 4 ≤ bytes.length ∧ bytes.take 4 = [0x47, 0x49, 0x46, 0x38] then ".gif"
  else if 12 ≤ bytes.length ∧ bytes.take 4 = [0x52, 0x49, 0x46, 0x46] ∧
      (bytes.drop 8).take 4 = [0x57, 0x45, 0x42, 0x50] then ".webp"
  else if 8 ≤ bytes.length ∧ (bytes.drop 4).take 4 = [0x66, 0x74, 0x79, 0x70] then ".avif"
  else ".bin"

/-- The URL without query and fragment. -/
def stripUrlQueryAndFragment (url : List Char) : List Char :=
  (url.takeWhile (· ≠ '?')).takeWhile (· ≠ '#')

/-- The extension of the last segment of a URL, in lower case, if it has one. -/
def extensionFromUrl (url : List Char) : Option (Option (List Char)) :=
  let lastSegment := rsplitHead '/' (stripUrlQueryAndFragment url)
  match rfind '.' lastSegment with
  | none => some none
  | some dotPos => (splitAtByte (dotPos + 1) lastSegment).map fun (_, ext) =>
    if ext = [] ∨ 10 < byteLen ext then none
    else if ext.all Char.isAlphanum then some (ext.map Char.toLower)
    else none

/-- Replace special characters with underscores. -/
def sanitize (name : List Char) : List Char :=
  name.map fun c => if c.isAlphanum ∨ c = '.' ∨ c = '-' then c else '_'

/-- `format!("{b:02x}")`. -/
def hexByte (b : UInt8) : List Char :=
  [Nat.digitChar (b.toNat / 16), Nat.digitChar (b.toNat % 16)]

variable (overflowChecks : Bool) (sha256 : Bytes → Bytes)

/-- The first `n` bytes of the SHA-256 of `bytes`, in hexadecimal. -/
def hexPrefix (n : ℕ) (bytes : Bytes) : List Char :=
  ((sha256 bytes).take n).flatMap hexByte

/-- Truncate a name to 200 characters, preserving the extension. -/
def truncateFilename (name : List Char) : Option (List Char) :=
  if name.length ≤ 200 then some name
  else
    let cut := (splitAtByte (((charIndices 0 name)[200]?.map Prod.fst).getD (byteLen name))
      name).map Prod.fst
    match rfind '.' name with
    | none => cut
    | some dotPos => do
      let (_, ext) ← splitAtByte dotPos name
      -- `200 - ext_chars` : a panic with overflow checks, a wrap without them
      if 200 < ext.length ∧ overflowChecks then none
      else
        let maxStemChars := (2 ^ 64 + 200 - ext.length) % 2 ^ 64
        if 0 < maxStemChars then
          let stemEnd := ((charIndices 0 name)[maxStemChars]?.map Prod.fst).getD dotPos
          let (stem, _) ← splitAtByte (min stemEnd dotPos) name
          some (stem ++ ext)
        else cut

/-! ## Strategies -/

/-- `url_based_name`. -/
def urlBasedName (url : String) : List Char :=
  let segment := rsplitHead '/' (stripUrlQueryAndFragment url.toList)
  if segment = [] ∨ '.' ∉ segment then hexPrefix sha256 16 (asBytes url) ++ ".bin".toList
  else sanitize segment

/-- The extension of a URL, or the one of the magic bytes without its dot. -/
def extensionOrMagic (url : String) (bytes : Bytes) : Option (List Char) :=
  (extensionFromUrl url.toList).map fun ext =>
    ext.getD ((detectExtensionFromMagicBytes bytes).toList.dropWhile (· = '.'))

/-- `sequential_name`. -/
def sequentialName (index : ℕ) (url : String) (bytes : Bytes) : Option (List Char) :=
  (extensionOrMagic url bytes).map fun ext =>
    (Nat.toDigits 10 index).leftpad 3 '0' ++ '.' :: ext

/-- `content_hash_name`. -/
def contentHashName (bytes : Bytes) (url : String) : Option (List Char) :=
  (extensionOrMagic url bytes).map fun ext => hexPrefix sha256 16 bytes ++ '.' :: ext

/-- `file_header_name`. -/
def fileHeaderName (url : String) (bytes : Bytes) : Option (List Char) :=
  let detectedExt := (detectExtensionFromMagicBytes bytes).toList
  let segment := rsplitHead '/' (stripUrlQueryAndFragment url.toList)
  if segment = [] ∨ '.' ∉ segment then some (hexPrefix sha256 8 (asBytes url) ++ detectedExt)
  else
    let sanitized := sanitize segment
    match rfind '.' sanitized with
    | some dotPos => (splitAtByte dotPos sanitized).map fun (stem, _) => stem ++ detectedExt
    | none => some (sanitized ++ detectedExt)

/-- Generate a file name for a downloaded image. -/
def generateFilename (url : String) (index : ℕ) (bytes : Bytes) (strategy : NamingStrategy) :
    Option String := do
  let raw ← match strategy with
    | .urlBased => some (urlBasedName sha256 url)
    | .sequential => sequentialName index url bytes
    | .contentHash => contentHashName sha256 bytes url
    | .fileHeader => fileHeaderName sha256 url bytes
  let name ← truncateFilename overflowChecks raw
  return String.ofList name

example : generateFilename true (fun _ => []) "https://example.com/photo (1).jpg?w=2" 0 []
    .urlBased = some "photo__1_.jpg" := by decide

example : generateFilename true (fun _ => []) "https://example.com/a/" 7 [0xFF, 0xD8, 0xFF]
    .sequential = some "007.jpg" := by decide

end Imgdl
