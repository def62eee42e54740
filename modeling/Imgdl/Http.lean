import Imgdl.Types

/-!
# URIs, header maps and responses

What the program reads of the `http` crate. `Uri` is a parsed URI by its components.
The crate's parsers are not part of the program : `Http` is the interface the model
takes as a parameter, one field for each call. Header values are bytes, and
`HeaderValue.toStr` is the crate's visible-ASCII test.

`Reply` is what the connection does with one request. A body that stalls, or a request
that is never answered, leaves the caller waiting until its timeout.
-/

namespace Imgdl

/-- The authority of a URI. -/
structure Authority where
  host : String
  port : Option UInt16
  deriving DecidableEq, Repr

/-- `http::Uri`, and its `Parts`. -/
structure Uri where
  scheme : Option String
  authority : Option Authority
  pathAndQuery : Option String
  deriving DecidableEq, Repr

namespace Uri

variable (u : Uri)

/-- `Uri::host`. -/
def host : Option String :=
  u.authority.map Authority.host

/-- `Uri::port_u16`. -/
def portU16 : Option UInt16 :=
  u.authority.bind Authority.port

/-- `uri.port_u16().unwrap_or(if scheme is "http" then 80 else 443)`. -/
def effectivePort : UInt16 :=
  u.portU16.getD (if u.scheme = some "http" then 80 else 443)

end Uri

/-- The calls into the `http` crate. -/
structure Http where
  /-- `str::parse::<Uri>`. -/
  parseUri : String → Except String Uri
  /-- `str::parse::<PathAndQuery>`. -/
  parsePathAndQuery : String → Except String String
  /-- `Uri::from_parts`. -/
  fromParts : Uri → Except String Uri
  /-- The error of `Request::builder()` with this path, `Host` and `User-Agent`, if any. -/
  requestError : (path host userAgent : String) → Option String

/-- An instance that knows the URIs of a table, takes any path, and builds any request. -/
def Http.ofTable (table : List (String × Uri)) : Http where
  parseUri s := match table.find? fun e => e.1 = s with
    | some e => .ok e.2
    | none => .error "invalid uri character"
  parsePathAndQuery s := .ok s
  fromParts u := .ok u
  requestError _ _ _ := none

/-- `str::eq_ignore_ascii_case`. -/
def eqIgnoreAsciiCase (a b : String) : Bool :=
  a.toList.map Char.toLower = b.toList.map Char.toLower

/-! ## Headers -/

/-- The bytes of a header value. -/
abbrev HeaderValue := Bytes

/-- `HeaderValue::to_str` : only visible ASCII and tabs. -/
def HeaderValue.toStr (v : HeaderValue) : Option String :=
  if v.all fun b => (32 ≤ b && b < 127) || b = 9 then
    some (String.ofList (v.map fun b => Char.ofNat b.toNat))
  else none

/-- Header names, in lower case, with their values in order. -/
abbrev HeaderMap := List (String × HeaderValue)

/-- `HeaderMap::get` : the first value of a name. -/
def HeaderMap.get (m : HeaderMap) (name : String) : Option HeaderValue :=
  (m.find? fun e => e.1 = name).map Prod.snd

/-- The value of a decimal digit. -/
def digitValue (c : Char) : Option ℕ :=
  if '0' ≤ c ∧ c ≤ '9' then some (c.toNat - '0'.toNat) else none

/-- `str::parse` at an unsigned type with values below `bound` : an optional `+`, then
at least one decimal digit. -/
def parseUnsigned (bound : ℕ) (s : String) : Option ℕ :=
  let digits := match s.toList with
    | '+' :: rest => rest
    | cs => cs
  if digits = [] then none
  else do
    let n ← digits.foldlM (fun n c => (digitValue c).map fun d => 10 * n + d) 0
    if n < bound then some n else none

/-! ## Bodies as text -/

/-- The character that replaces ill-formed UTF-8. -/
def replacementChar : Char :=
  Char.ofNat 0xFFFD

/-- A UTF-8 continuation byte. -/
def isContinuation (b : UInt8) : Bool :=
  0x80 ≤ b && b < 0xC0

/-- The bytes allowed after a lead byte of a three- or four-byte sequence. -/
def isSecondByte (b b₁ : UInt8) : Bool :=
  if b = 0xE0 then 0xA0 ≤ b₁ && b₁ < 0xC0
  else if b = 0xED then 0x80 ≤ b₁ && b₁ < 0xA0
  else if b = 0xF0 then 0x90 ≤ b₁ && b₁ < 0xC0
  else if b = 0xF4 then 0x80 ≤ b₁ && b₁ < 0x90
  else isContinuation b₁

/-- The character that starts with the byte `b`, and how many of the bytes after `b`
belong to it or to its ill-formed prefix. -/
def utf8Decode (b : UInt8) (bs : Bytes) : Char × ℕ :=
  let b₁ := bs.getD 0 0
  let b₂ := bs.getD 1 0
  let b₃ := bs.getD 2 0
  let bits (n : ℕ) (c : UInt8) : ℕ := c.toNat % 2 ^ n
  if b < 0x80 then (Char.ofNat b.toNat, 0)
  else if 0xC2 ≤ b ∧ b < 0xE0 then
    if isContinuation b₁ then (Char.ofNat (bits 5 b * 64 + bits 6 b₁), 1)
    else (replacementChar, 0)
  else if 0xE0 ≤ b ∧ b < 0xF0 then
    if !isSecondByte b b₁ then (replacementChar, 0)
    else if !isContinuation b₂ then (replacementChar, 1)
    else (Char.ofNat ((bits 4 b * 64 + bits 6 b₁) * 64 + bits 6 b₂), 2)
  else if 0xF0 ≤ b ∧ b < 0xF5 then
    if !isSecondByte b b₁ then (replacementChar, 0)
    else if !isContinuation b₂ then (replacementChar, 1)
    else if !isContinuation b₃ then (replacementChar, 2)
    else (Char.ofNat (((bits 3 b * 64 + bits 6 b₁) * 64 + bits 6 b₂) * 64 + bits 6 b₃), 3)
  else (replacementChar, 0)

/-- `String::from_utf8_lossy`, by at most `fuel` characters. -/
def fromUtf8Lossy : (fuel : ℕ) → Bytes → List Char
  | 0, _ => []
  | _, [] => []
  | fuel + 1, b :: bs =>
    let (c, k) := utf8Decode b bs
    c :: fromUtf8Lossy fuel (bs.drop k)

/-! ## Responses -/

/-- What collecting a response body comes to. -/
inductive Body where
  | bytes (b : Bytes)
  | failed (e : String)
  /-- The rest of the body never arrives. -/
  | stalled
  deriving DecidableEq, Repr

/-- A response head and its body. -/
structure HttpResponse where
  status : ℕ
  headers : HeaderMap
  body : Body
  deriving DecidableEq, Repr

/-- What a connection does with one request. -/
inductive Reply where
  | notReady (e : String)
  | sendFailed (e : String)
  | response (r : HttpResponse)
  deriving DecidableEq, Repr

/-- A redirect to a location. -/
def Reply.found (location : String) : Reply :=
  .response ⟨302, [("location", location.toList.map fun c => UInt8.ofNat c.toNat)], .bytes []⟩

/-- A response with an image. -/
def Reply.image (bytes : Bytes) : Reply :=
  .response ⟨200, [], .bytes bytes⟩

end Imgdl
