import Imgdl.Naming
import Mathlib.Data.List.TakeWhile
import Mathlib.Tactic.IntervalCases

/-!
# What a generated name is

A raw name is a stem and a short alphanumeric extension (`Dotted`), or, under
`NamingStrategy.urlBased`, the last segment of the URL with its special characters replaced
(`rawName_cases`). `truncateFilename_dotted` computes its truncation.

The text of the URL reaches the name only through that segment, and there two checks are
missing : the part after its last dot may be longer than the limit
(`generateFilename_limit_iff`), and the segment may be `.` or `..`
(`generateFilename_ordinary_iff`).
-/

namespace Imgdl

variable {overflowChecks : Bool} {sha256 : Bytes → Bytes}

/-! ## Truncation -/

theorem truncateFilename_of_le {name : List Char} (h : name.length ≤ 200) :
    truncateFilename overflowChecks name = some name :=
  if_pos h

/-- The truncation of a long name : the extension stays, unless it is too long. -/
theorem truncateFilename_dotted {pre post : List Char} (hpost : '.' ∉ post)
    (hlong : 200 < (pre ++ '.' :: post).length) :
    truncateFilename overflowChecks (pre ++ '.' :: post) =
      if 200 < post.length + 1 ∧ overflowChecks then none
      else if 0 < (2 ^ 64 + 200 - (post.length + 1)) % 2 ^ 64 then
        some (pre.take ((2 ^ 64 + 200 - (post.length + 1)) % 2 ^ 64) ++ '.' :: post)
      else some ((pre ++ '.' :: post).take 200) := by
  have hext : splitAtByte (byteLen pre) (pre ++ '.' :: post) = some (pre, '.' :: post) :=
    splitAtByte_append _ _
  have hcut : (splitAtByte (((charIndices 0 (pre ++ '.' :: post))[200]?.map Prod.fst).getD
      (byteLen (pre ++ '.' :: post))) (pre ++ '.' :: post)).map Prod.fst =
      some ((pre ++ '.' :: post).take 200) := by
    rw [charIndices_getD, if_pos hlong, splitAtByte_take]
    rfl
  -- the end of the stem is before the dot
  have hstem : ∀ m, min (((charIndices 0 (pre ++ '.' :: post))[m]?.map Prod.fst).getD
      (byteLen pre)) (byteLen pre) = byteLen (pre.take m) := by
    intro m
    rw [charIndices_getD]
    rcases Nat.lt_or_ge m pre.length with hm | hm
    · have hle := byteLen_take_le m pre
      rw [if_pos (by rw [List.length_append]; omega), List.take_append_of_le_length hm.le]
      omega
    · rw [List.take_of_length_le hm]
      split_ifs
      · rw [List.take_append, List.take_of_length_le hm, byteLen_append]
        omega
      · exact Nat.min_self _
  have hsplit : ∀ m, splitAtByte (byteLen (pre.take m)) (pre ++ '.' :: post) =
      some (pre.take m, pre.drop m ++ '.' :: post) := by
    intro m
    have h := splitAtByte_append (pre.drop m ++ '.' :: post) (pre.take m)
    rwa [← List.append_assoc, List.take_append_drop] at h
  unfold truncateFilename
  rw [if_neg (by omega)]
  simp only [hcut, rfind_append hpost, hext, hstem, hsplit, Option.bind_eq_bind,
    Option.bind_some, List.length_cons]

/-- A name with a short extension keeps it, and the limit. -/
theorem truncateFilename_of_short {pre post : List Char} (hpost : '.' ∉ post)
    (hshort : post.length < 200) : ∃ name, truncateFilename overflowChecks (pre ++ '.' :: post) =
      some name ∧ name.length ≤ 200 := by
  rcases Nat.lt_or_ge 200 (pre ++ '.' :: post).length with hlong | hle
  · have hmod : (2 ^ 64 + 200 - (post.length + 1)) % 2 ^ 64 = 200 - (post.length + 1) := by
      omega
    rw [truncateFilename_dotted hpost hlong, if_neg (by omega), hmod]
    split_ifs
    · refine ⟨_, rfl, ?_⟩
      rw [List.length_append, List.length_take, List.length_cons]
      omega
    · exact ⟨_, rfl, by simp⟩
  · exact ⟨_, truncateFilename_of_le hle, hle⟩

/-- A name with a long extension stays as it is, or the subtraction overflows. -/
theorem truncateFilename_of_long {pre post : List Char} (hpost : '.' ∉ post)
    (hlong : 200 ≤ post.length) (hlen : (pre ++ '.' :: post).length < 2 ^ 63) :
    truncateFilename overflowChecks (pre ++ '.' :: post) =
      if overflowChecks then none else some (pre ++ '.' :: post) := by
  rw [List.length_append, List.length_cons] at hlen
  have hmod : (2 ^ 64 + 200 - (post.length + 1)) % 2 ^ 64 = 2 ^ 64 + 200 - (post.length + 1) :=
    Nat.mod_eq_of_lt (by omega)
  have hall : pre.take (2 ^ 64 + 200 - (post.length + 1)) = pre :=
    List.take_of_length_le (by omega)
  rw [truncateFilename_dotted hpost (by rw [List.length_append, List.length_cons]; omega), hmod,
    hall]
  cases overflowChecks with
  | true => rw [if_pos ⟨by omega, rfl⟩, if_pos rfl]
  | false => rw [if_neg (by simp), if_pos (by omega), if_neg (by simp)]

/-- A truncated name is long, and made of the characters of the name. -/
theorem truncateFilename_eq_some {name r : List Char} (hdot : '.' ∈ name)
    (h : truncateFilename overflowChecks name = some r) :
    r = name ∨ (200 ≤ r.length ∧ ∀ c ∈ r, c ∈ name) := by
  rcases Nat.lt_or_ge 200 name.length with hlong | hle
  · obtain ⟨pre, post, hpost, rfl⟩ := exists_last hdot
    rw [truncateFilename_dotted hpost hlong] at h
    rw [List.length_append, List.length_cons] at hlong
    refine Or.inr ?_
    split_ifs at h with h1 h2
    · obtain rfl := Option.some.inj h
      refine ⟨?_, fun c hc => ?_⟩
      · rw [List.length_append, List.length_take, List.length_cons]
        omega
      · rw [List.mem_append] at hc ⊢
        exact hc.imp_left fun hc => List.mem_of_mem_take hc
    · obtain rfl := Option.some.inj h
      refine ⟨?_, fun c hc => List.mem_of_mem_take hc⟩
      rw [List.length_take, List.length_append, List.length_cons]
      omega
  · rw [truncateFilename_of_le hle] at h
    exact Or.inl (Option.some.inj h).symm

/-! ## Characters of a name -/

/-- A letter, a digit, a dot, a hyphen or an underscore. -/
def IsNameChar (c : Char) : Prop :=
  c.isAlphanum = true ∨ c = '.' ∨ c = '-' ∨ c = '_'

/-- A file extension without its dot. -/
structure IsExtension (ext : List Char) : Prop where
  ne_nil : ext ≠ []
  length_le : ext.length ≤ 10
  alphanum : ∀ c ∈ ext, c.isAlphanum = true

theorem IsExtension.dot_not_mem {ext : List Char} (h : IsExtension ext) : '.' ∉ ext :=
  fun hdot => absurd (h.alphanum _ hdot) (by decide)

theorem toNat_lt_of_isAlphanum {c : Char} (h : c.isAlphanum = true) : c.toNat < 128 := by
  change ((decide (c.val ≥ 'A'.val ∧ c.val ≤ 'Z'.val) ||
    decide (c.val ≥ 'a'.val) && decide (c.val ≤ 'z'.val)) ||
    decide (c.val ≥ '0'.val) && decide (c.val ≤ '9'.val)) = true at h
  simp only [Bool.or_eq_true, Bool.and_eq_true, decide_eq_true_eq, ge_iff_le,
    UInt32.le_iff_toNat_le] at h
  change c.val.toNat < 128
  rcases h with (⟨-, h⟩ | ⟨-, h⟩) | ⟨-, h⟩ <;> exact Nat.lt_of_le_of_lt h (by decide)

theorem toNat_lt_of_isHexDigit {c : Char} (h : c.isHexDigit = true) : c.toNat < 128 := by
  simp only [Char.isHexDigit, Char.isDigit, Bool.or_eq_true, Bool.and_eq_true,
    decide_eq_true_eq, ge_iff_le, UInt32.le_iff_toNat_le] at h
  change c.val.toNat < 128
  rcases h with (⟨-, h⟩ | ⟨-, h⟩) | ⟨-, h⟩ <;> exact Nat.lt_of_le_of_lt h (by decide)

/-- What holds of every ASCII character. -/
theorem forall_ascii {P : Char → Prop} (h : ∀ n < 128, P (Char.ofNat n)) {c : Char}
    (hc : c.toNat < 128) : P c := by
  have hP := h c.toNat hc
  rwa [Char.ofNat_toNat] at hP

theorem isAlphanum_toLower {c : Char} (h : c.isAlphanum = true) : c.toLower.isAlphanum = true :=
  forall_ascii (P := fun c => c.isAlphanum = true → c.toLower.isAlphanum = true) (by decide)
    (toNat_lt_of_isAlphanum h) h

theorem isAlphanum_of_isHexDigit {c : Char} (h : c.isHexDigit = true) : c.isAlphanum = true :=
  forall_ascii (P := fun c => c.isHexDigit = true → c.isAlphanum = true) (by decide)
    (toNat_lt_of_isHexDigit h) h

theorem isHexDigit_digitChar {n : ℕ} (h : n < 16) : n.digitChar.isHexDigit = true := by
  interval_cases n <;> rfl

theorem isHexDigit_hexPrefix {n : ℕ} {bytes : Bytes} :
    ∀ c ∈ hexPrefix sha256 n bytes, c.isHexDigit = true := by
  intro c hc
  obtain ⟨b, -, hc⟩ := List.mem_flatMap.1 hc
  have hb := b.toNat_lt
  simp only [hexByte, List.mem_cons, List.not_mem_nil, or_false] at hc
  rcases hc with rfl | rfl <;> exact isHexDigit_digitChar (by omega)

theorem length_hexPrefix_le (n : ℕ) (bytes : Bytes) :
    (hexPrefix sha256 n bytes).length ≤ 2 * n := by
  have hlen : ∀ s : Bytes, (s.flatMap hexByte).length = 2 * s.length := fun s => by
    induction s with
    | nil => rfl
    | cons b s ih =>
      rw [List.flatMap_cons, List.length_append, ih, List.length_cons]
      simp only [hexByte, List.length_cons, List.length_nil]
      omega
  rw [hexPrefix, hlen, List.length_take]
  omega

theorem isExtension_magic (bytes : Bytes) : ∃ ext, IsExtension ext ∧
    (detectExtensionFromMagicBytes bytes).toList = '.' :: ext := by
  unfold detectExtensionFromMagicBytes
  split_ifs <;> exact ⟨_, ⟨by decide, by decide, List.all_eq_true.1 rfl⟩, rfl⟩

theorem extensionFromUrl_spec (url : List Char) : ∃ o, extensionFromUrl url = some o ∧
    ∀ ext, o = some ext → IsExtension ext := by
  unfold extensionFromUrl
  generalize rsplitHead '/' (stripUrlQueryAndFragment url) = lastSegment
  by_cases hdot : '.' ∈ lastSegment
  · obtain ⟨pre, post, hpost, rfl⟩ := exists_last hdot
    have hsplit :
        splitAtByte (byteLen pre + 1) (pre ++ '.' :: post) = some (pre ++ ['.'], post) := by
      have h := splitAtByte_append post (pre ++ ['.'])
      rwa [List.append_assoc, byteLen_append] at h
    simp only [rfind_append hpost, hsplit, Option.map_some]
    refine ⟨_, rfl, fun ext h => ?_⟩
    split_ifs at h with h1 h2
    obtain rfl := Option.some.inj h
    have hlen := length_le_byteLen post
    refine ⟨fun h => h1 (Or.inl (List.map_eq_nil_iff.1 h)), ?_, fun c hc => ?_⟩
    · rw [List.length_map]
      omega
    · obtain ⟨d, hd, rfl⟩ := List.mem_map.1 hc
      exact isAlphanum_toLower (List.all_eq_true.1 h2 d hd)
  · simp only [rfind_eq_none hdot]
    exact ⟨none, rfl, fun _ h => (nomatch h)⟩

theorem extensionOrMagic_spec (url : String) (bytes : Bytes) :
    ∃ ext, extensionOrMagic url bytes = some ext ∧ IsExtension ext := by
  obtain ⟨o, ho, hext⟩ := extensionFromUrl_spec url.toList
  cases o with
  | some ext => exact ⟨ext, by rw [extensionOrMagic, ho]; rfl, hext ext rfl⟩
  | none =>
    obtain ⟨ext, hmagic, heq⟩ := isExtension_magic bytes
    refine ⟨ext, ?_, hmagic⟩
    have hdrop : ('.' :: ext).dropWhile (· = '.') = ext := by
      rw [List.dropWhile_cons_of_pos (by simp), List.dropWhile_eq_self_iff]
      intro hlen hd
      exact hmagic.dot_not_mem (of_decide_eq_true hd ▸ List.getElem_mem hlen)
    rw [extensionOrMagic, ho, heq, Option.map_some, Option.getD_none, hdrop]

/-! ## Sanitised segments -/

@[simp]
theorem length_sanitize (s : List Char) : (sanitize s).length = s.length :=
  List.length_map _

theorem sanitize_dotted (pre post : List Char) :
    sanitize (pre ++ '.' :: post) = sanitize pre ++ '.' :: sanitize post := by
  rw [sanitize, List.map_append, List.map_cons]
  rfl

theorem dot_mem_sanitize {s : List Char} : '.' ∈ sanitize s ↔ '.' ∈ s := by
  constructor
  · intro h
    obtain ⟨c, hc, heq⟩ := List.mem_map.1 h
    split_ifs at heq
    · exact heq ▸ hc
    · exact absurd heq (by decide)
  · intro h
    obtain ⟨pre, post, -, rfl⟩ := exists_last h
    rw [sanitize_dotted]
    simp

theorem isNameChar_sanitize {s : List Char} : ∀ c ∈ sanitize s, IsNameChar c := by
  intro c hc
  obtain ⟨d, -, rfl⟩ := List.mem_map.1 hc
  split_ifs with h
  · rcases h with h | h | h
    · exact Or.inl h
    · exact Or.inr (Or.inl h)
    · exact Or.inr (Or.inr (Or.inl h))
  · exact Or.inr (Or.inr (Or.inr rfl))

/-- A name of dots only is that of a segment of dots only. -/
theorem sanitize_eq_replicate {s : List Char} {n : ℕ} :
    sanitize s = List.replicate n '.' ↔ s = List.replicate n '.' := by
  constructor
  · intro h
    rw [List.eq_replicate_iff] at h ⊢
    refine ⟨by rw [← h.1, length_sanitize], fun c hc => ?_⟩
    have hdot := h.2 _ (List.mem_map.2 ⟨c, hc, rfl⟩)
    split_ifs at hdot
    · exact hdot
    · exact absurd hdot (by decide)
  · rintro rfl
    rw [sanitize, List.map_replicate]
    rfl

/-! ## Raw names -/

/-- The name before its truncation. -/
def rawName (sha256 : Bytes → Bytes) (url : String) (index : ℕ) (bytes : Bytes) :
    NamingStrategy → Option (List Char)
  | .urlBased => some (urlBasedName sha256 url)
  | .sequential => sequentialName index url bytes
  | .contentHash => contentHashName sha256 bytes url
  | .fileHeader => fileHeaderName sha256 url bytes

theorem generateFilename_eq (url : String) (index : ℕ) (bytes : Bytes)
    (strategy : NamingStrategy) :
    generateFilename overflowChecks sha256 url index bytes strategy =
      (rawName sha256 url index bytes strategy).bind fun raw =>
        (truncateFilename overflowChecks raw).map String.ofList := by
  cases strategy <;>
    simp [generateFilename, rawName, Option.map_eq_bind]

/-- The last segment of the path of a URL. -/
def lastSegment (url : String) : List Char :=
  rsplitHead '/' (stripUrlQueryAndFragment url.toList)

theorem stripUrlQueryAndFragment_eq_self {url : List Char} (h : ∀ c ∈ url, c ≠ '?' ∧ c ≠ '#') :
    stripUrlQueryAndFragment url = url := by
  have hquery : url.takeWhile (· ≠ '?') = url :=
    List.takeWhile_eq_self_iff.2 fun c hc => decide_eq_true (h c hc).1
  rw [stripUrlQueryAndFragment, hquery]
  exact List.takeWhile_eq_self_iff.2 fun c hc => decide_eq_true (h c hc).2

/-- A stem, a dot and an extension. -/
def Dotted (raw : List Char) : Prop :=
  ∃ stem ext, raw = stem ++ '.' :: ext ∧ IsExtension ext ∧ ∀ c ∈ stem, IsNameChar c

/-- The index in the name of an image, with at least three digits. -/
def paddedIndex (index : ℕ) : List Char :=
  (Nat.toDigits 10 index).leftpad 3 '0'

theorem isHexDigit_paddedIndex {index : ℕ} : ∀ c ∈ paddedIndex index, c.isHexDigit = true := by
  intro c hc
  have hdigit : c.isDigit = true := by
    rw [paddedIndex, List.leftpad, List.mem_append] at hc
    rcases hc with hc | hc
    · rw [(List.mem_replicate.1 hc).2]
      rfl
    · exact Nat.isDigit_of_mem_toDigits (by decide) (by decide) hc
  rw [Char.isHexDigit, hdigit, Bool.true_or, Bool.true_or]

theorem sequentialName_spec (index : ℕ) (url : String) (bytes : Bytes) : ∃ ext, IsExtension ext ∧
    sequentialName index url bytes = some (paddedIndex index ++ '.' :: ext) := by
  obtain ⟨ext, heq, hext⟩ := extensionOrMagic_spec url bytes
  exact ⟨ext, hext, by rw [sequentialName, heq]; rfl⟩

theorem contentHashName_spec (sha256 : Bytes → Bytes) (bytes : Bytes) (url : String) :
    ∃ ext, IsExtension ext ∧
      contentHashName sha256 bytes url = some (hexPrefix sha256 16 bytes ++ '.' :: ext) := by
  obtain ⟨ext, heq, hext⟩ := extensionOrMagic_spec url bytes
  exact ⟨ext, hext, by rw [contentHashName, heq]; rfl⟩

/-- A stem of digits. -/
theorem Dotted.of_isHexDigit {stem ext : List Char} (hext : IsExtension ext)
    (h : ∀ c ∈ stem, c.isHexDigit = true) : Dotted (stem ++ '.' :: ext) :=
  ⟨stem, ext, rfl, hext, fun c hc => Or.inl (isAlphanum_of_isHexDigit (h c hc))⟩

/-- Without a dot in the last segment, a name by URL is the hash of the URL. -/
theorem urlBasedName_hash {url : String} (h : '.' ∉ lastSegment url) (sha256 : Bytes → Bytes) :
    urlBasedName sha256 url = hexPrefix sha256 16 (asBytes url) ++ ".bin".toList := by
  unfold urlBasedName
  rw [← lastSegment, if_pos (Or.inr h)]

/-- With one, it is the segment. -/
theorem urlBasedName_segment {url : String} (h : '.' ∈ lastSegment url) (sha256 : Bytes → Bytes) :
    urlBasedName sha256 url = sanitize (lastSegment url) := by
  unfold urlBasedName
  rw [← lastSegment, if_neg]
  rintro (hnil | hdot)
  · rw [hnil] at h
    cases h
  · exact hdot h

/-- Without a dot in the last segment, a name by header is the hash of the URL. -/
theorem fileHeaderName_hash {url : String} (h : '.' ∉ lastSegment url) (sha256 : Bytes → Bytes)
    (bytes : Bytes) : fileHeaderName sha256 url bytes =
      some (hexPrefix sha256 8 (asBytes url) ++ (detectExtensionFromMagicBytes bytes).toList) := by
  unfold fileHeaderName
  rw [← lastSegment, if_pos (Or.inr h)]

/-- With one, it is the segment with another extension. -/
theorem fileHeaderName_segment {url : String} {pre post : List Char} (hpost : '.' ∉ post)
    (h : sanitize (lastSegment url) = pre ++ '.' :: post) (sha256 : Bytes → Bytes)
    (bytes : Bytes) : fileHeaderName sha256 url bytes =
      some (pre ++ (detectExtensionFromMagicBytes bytes).toList) := by
  have hdot : '.' ∈ lastSegment url := by
    rw [← dot_mem_sanitize, h]
    simp
  unfold fileHeaderName
  rw [← lastSegment, if_neg (by rintro (h | h); exacts [by simp [h] at hdot, h hdot])]
  simp only [h, rfind_append hpost, splitAtByte_append, Option.map_some]

theorem fileHeaderName_spec (sha256 : Bytes → Bytes) (url : String) (bytes : Bytes) :
    ∃ raw, fileHeaderName sha256 url bytes = some raw ∧ Dotted raw := by
  obtain ⟨ext, hext, hmagic⟩ := isExtension_magic bytes
  by_cases hdot : '.' ∈ lastSegment url
  · obtain ⟨pre, post, hpost, heq⟩ := exists_last (dot_mem_sanitize.2 hdot)
    rw [fileHeaderName_segment hpost heq, hmagic]
    refine ⟨_, rfl, pre, ext, rfl, hext, fun c hc => ?_⟩
    have hc' : c ∈ sanitize (lastSegment url) := heq ▸ List.mem_append_left _ hc
    exact isNameChar_sanitize c hc'
  · rw [fileHeaderName_hash hdot, hmagic]
    exact ⟨_, rfl, .of_isHexDigit hext isHexDigit_hexPrefix⟩

/-- A raw name is dotted, or the last segment of the URL. -/
theorem rawName_cases (sha256 : Bytes → Bytes) (url : String) (index : ℕ) (bytes : Bytes)
    (strategy : NamingStrategy) :
    (∃ raw, rawName sha256 url index bytes strategy = some raw ∧ Dotted raw ∧
      (strategy = .urlBased → '.' ∉ lastSegment url)) ∨
    (strategy = .urlBased ∧ '.' ∈ lastSegment url ∧
      rawName sha256 url index bytes strategy = some (sanitize (lastSegment url))) := by
  cases strategy with
  | urlBased =>
    by_cases hdot : '.' ∈ lastSegment url
    · exact Or.inr ⟨rfl, hdot, congrArg some (urlBasedName_segment hdot sha256)⟩
    · have hraw := congrArg some (urlBasedName_hash hdot sha256)
      have hbin : IsExtension "bin".toList := ⟨by decide, by decide, List.all_eq_true.1 rfl⟩
      exact Or.inl ⟨_, hraw, .of_isHexDigit hbin isHexDigit_hexPrefix, fun _ => hdot⟩
  | sequential =>
    obtain ⟨ext, hext, heq⟩ := sequentialName_spec index url bytes
    exact Or.inl ⟨_, heq, .of_isHexDigit hext isHexDigit_paddedIndex, fun h => (nomatch h)⟩
  | contentHash =>
    obtain ⟨ext, hext, heq⟩ := contentHashName_spec sha256 bytes url
    exact Or.inl ⟨_, heq, .of_isHexDigit hext isHexDigit_hexPrefix, fun h => (nomatch h)⟩
  | fileHeader =>
    obtain ⟨raw, heq, hraw⟩ := fileHeaderName_spec sha256 url bytes
    exact Or.inl ⟨raw, heq, hraw, fun h => (nomatch h)⟩

/-! ## The limit -/

theorem length_lastSegment_le (url : String) : (lastSegment url).length ≤ byteLen url.toList := by
  have h1 : (lastSegment url).length ≤ (stripUrlQueryAndFragment url.toList).length := by
    have h := (List.takeWhile_sublist (· ≠ '/')
      (l := (stripUrlQueryAndFragment url.toList).reverse)).length_le
    rwa [List.length_reverse, ← List.length_reverse] at h
  have h2 : (stripUrlQueryAndFragment url.toList).length ≤ url.toList.length :=
    (List.takeWhile_sublist _).length_le.trans (List.takeWhile_sublist _).length_le
  have h3 := length_le_byteLen url.toList
  omega

/-- A name of at most 200 characters. -/
def IsShort (name : Option String) : Prop :=
  ∃ s, name = some s ∧ s.length ≤ 200

theorem isShort_map {name : Option (List Char)} :
    IsShort (name.map String.ofList) ↔ ∃ s, name = some s ∧ s.length ≤ 200 := by
  cases name with
  | none => exact ⟨fun ⟨_, h, _⟩ => (nomatch h), fun ⟨_, h, _⟩ => (nomatch h)⟩
  | some s => simp [IsShort]

/-- The truncation of a last segment with a dot. -/
theorem truncateFilename_sanitize {s : List Char} (hdot : '.' ∈ s) (hlen : s.length < 2 ^ 63) :
    (∃ name, truncateFilename overflowChecks (sanitize s) = some name ∧ name.length ≤ 200) ↔
      (rsplitHead '.' s).length < 200 := by
  obtain ⟨pre, hs, hpost⟩ := exists_rsplit hdot
  have hpost' : '.' ∉ sanitize (rsplitHead '.' s) := fun h => hpost (dot_mem_sanitize.1 h)
  have hsan : sanitize s = sanitize pre ++ '.' :: sanitize (rsplitHead '.' s) := by
    conv_lhs => rw [hs]
    exact sanitize_dotted _ _
  rw [← length_sanitize, hsan] at hlen
  rcases Nat.lt_or_ge (rsplitHead '.' s).length 200 with hshort | hlong
  · rw [hsan]
    exact iff_of_true (truncateFilename_of_short hpost' (by rwa [length_sanitize])) hshort
  · rw [hsan, truncateFilename_of_long hpost' (by rwa [length_sanitize]) hlen]
    refine iff_of_false ?_ (Nat.not_lt.2 hlong)
    rintro ⟨name, heq, hle⟩
    split_ifs at heq
    obtain rfl := Option.some.inj heq
    rw [List.length_append, List.length_cons, length_sanitize, length_sanitize] at hle
    omega

/-- A name keeps the limit unless it is taken from a last segment with 200 or more
characters after its last dot. A `str` has less than `2 ^ 63` bytes. -/
theorem generateFilename_limit_iff (url : String) (index : ℕ) (bytes : Bytes)
    (strategy : NamingStrategy) (hurl : byteLen url.toList < 2 ^ 63) :
    IsShort (generateFilename overflowChecks sha256 url index bytes strategy) ↔
      (strategy = .urlBased → '.' ∈ lastSegment url →
        (rsplitHead '.' (lastSegment url)).length < 200) := by
  have hlen := length_lastSegment_le url
  rw [generateFilename_eq]
  rcases rawName_cases sha256 url index bytes strategy with
    ⟨raw, hraw, ⟨stem, ext, rfl, hext, -⟩, hnot⟩ | ⟨hstrat, hdot, hraw⟩
  · rw [hraw, Option.bind_some, isShort_map]
    have hle := hext.length_le
    exact iff_of_true (truncateFilename_of_short hext.dot_not_mem (by omega))
      fun hstrat hdot => absurd hdot (hnot hstrat)
  · rw [hraw, Option.bind_some, isShort_map, truncateFilename_sanitize hdot (by omega)]
    exact ⟨fun h _ _ => h, fun h => h hstrat hdot⟩

theorem generateFilename_limit_photo : IsShort
    (generateFilename true (fun _ => []) "https://h/a.b/photo.jpg?x=1" 0 [] .urlBased) :=
  (generateFilename_limit_iff _ _ _ _ (by decide)).2 (by decide)

/-- A URL with an extension of `n` characters. -/
def longExtension (n : ℕ) : String :=
  String.ofList (['h', 't', 't', 'p', ':', '/', '/', 'h'] ++ '/' :: 'a' :: '.' ::
    List.replicate n 'x')

theorem lastSegment_longExtension (n : ℕ) :
    lastSegment (longExtension n) = ['a'] ++ '.' :: List.replicate n 'x' := by
  have hall : ∀ c ∈ ['h', 't', 't', 'p', ':', '/', '/', 'h'] ++ '/' :: 'a' :: '.' ::
      List.replicate n 'x', c ≠ '?' ∧ c ≠ '#' := by
    intro c hc
    simp only [List.mem_append, List.mem_cons, List.mem_replicate, List.not_mem_nil,
      or_false] at hc
    rcases hc with (rfl | rfl | rfl | rfl | rfl | rfl | rfl | rfl) | rfl | rfl | rfl | ⟨-, rfl⟩ <;>
      decide
  rw [lastSegment, longExtension, String.toList_ofList, stripUrlQueryAndFragment_eq_self hall,
    rsplitHead_append]
  · rfl
  · simp [List.mem_replicate]

/-- The extension of 200 characters makes the subtraction overflow, or the name of 202
characters stays as it is. -/
theorem generateFilename_longExtension :
    generateFilename true (fun _ => []) (longExtension 200) 0 [] .urlBased = none ∧
      (generateFilename false (fun _ => []) (longExtension 200) 0 [] .urlBased).map
        String.length = some 202 := by
  have hraw : ∀ n, rawName (fun _ => []) (longExtension n) 0 [] .urlBased =
      some (['a'] ++ '.' :: List.replicate n 'x') := by
    intro n
    have hdot : '.' ∈ lastSegment (longExtension n) := by
      rw [lastSegment_longExtension]
      simp
    rcases rawName_cases (fun _ => []) (longExtension n) 0 [] .urlBased with
      ⟨_, _, _, hnot⟩ | ⟨-, -, hraw⟩
    · exact absurd hdot (hnot rfl)
    · rw [hraw, lastSegment_longExtension, sanitize_dotted, sanitize, sanitize, List.map_replicate]
      rfl
  have hname : ∀ o n, 200 ≤ n → n < 2 ^ 62 → generateFilename o (fun _ => []) (longExtension n) 0
      [] .urlBased = (if o then none else some (['a'] ++ '.' :: List.replicate n 'x')).map
        String.ofList := by
    intro o n h h'
    rw [generateFilename_eq, hraw, Option.bind_some, truncateFilename_of_long]
    · simp [List.mem_replicate]
    · rwa [List.length_replicate]
    · simp only [List.length_append, List.length_cons, List.length_replicate, List.length_nil]
      omega
  have hlen : ∀ n, (String.ofList (['a'] ++ '.' :: List.replicate n 'x')).length = n + 2 := by
    intro n
    rw [String.length_ofList]
    simp
  rw [hname true 200 (by decide) (by decide), hname false 200 (by decide) (by decide)]
  exact ⟨rfl, congrArg some (hlen 200)⟩

/-! ## One path component -/

/-- A file name that is one ordinary path component. -/
structure OrdinaryName (name : String) : Prop where
  ne_empty : name ≠ ""
  chars : ∀ c ∈ name.toList, IsNameChar c
  ne_dot : name ≠ "."
  ne_dotdot : name ≠ ".."

theorem ordinaryName_ofList {s : List Char} : OrdinaryName (String.ofList s) ↔
    (∀ c ∈ s, IsNameChar c) ∧ ∀ n < 3, s ≠ List.replicate n '.' := by
  have hne : ∀ t : List Char, String.ofList s ≠ String.ofList t ↔ s ≠ t := fun t =>
    not_congr String.ofList_inj
  constructor
  · rintro ⟨h0, hchars, h1, h2⟩
    rw [String.toList_ofList] at hchars
    refine ⟨hchars, fun n hn => ?_⟩
    interval_cases n
    · exact (hne []).1 h0
    · exact (hne ['.']).1 h1
    · exact (hne ['.', '.']).1 h2
  · rintro ⟨hchars, hdots⟩
    exact ⟨(hne []).2 (hdots 0 (by decide)), by rwa [String.toList_ofList],
      (hne ['.']).2 (hdots 1 (by decide)), (hne ['.', '.']).2 (hdots 2 (by decide))⟩

/-- A truncation is as ordinary as the name. -/
theorem truncateFilename_ordinary {name r : List Char} (hdot : '.' ∈ name)
    (h : truncateFilename overflowChecks name = some r) (hchars : ∀ c ∈ name, IsNameChar c)
    (hdots : ∀ n < 3, name ≠ List.replicate n '.') : OrdinaryName (String.ofList r) := by
  rcases truncateFilename_eq_some hdot h with rfl | ⟨hlong, hsub⟩
  · exact ordinaryName_ofList.2 ⟨hchars, hdots⟩
  · refine ordinaryName_ofList.2 ⟨fun c hc => hchars c (hsub c hc), fun n hn heq => ?_⟩
    rw [heq, List.length_replicate] at hlong
    omega

theorem Dotted.ne_replicate {raw : List Char} (h : Dotted raw) (n : ℕ) :
    raw ≠ List.replicate n '.' := by
  obtain ⟨stem, ext, rfl, hext, -⟩ := h
  intro heq
  obtain ⟨c, hc⟩ := List.exists_mem_of_ne_nil ext hext.ne_nil
  have hmem : c ∈ stem ++ '.' :: ext := List.mem_append_right _ (List.mem_cons_of_mem _ hc)
  rw [heq] at hmem
  obtain rfl := (List.mem_replicate.1 hmem).2
  exact hext.dot_not_mem hc

theorem Dotted.isNameChar {raw : List Char} (h : Dotted raw) : ∀ c ∈ raw, IsNameChar c := by
  obtain ⟨stem, ext, rfl, hext, hstem⟩ := h
  intro c hc
  rcases List.mem_append.1 hc with hc | hc
  · exact hstem c hc
  · rcases List.mem_cons.1 hc with rfl | hc
    · exact Or.inr (Or.inl rfl)
    · exact Or.inl (hext.alphanum c hc)

theorem Dotted.dot_mem {raw : List Char} (h : Dotted raw) : '.' ∈ raw := by
  obtain ⟨stem, ext, rfl, -⟩ := h
  simp

/-- A name is an ordinary path component unless it is the last segment `.` or `..` of the
URL. -/
theorem generateFilename_ordinary_iff (url : String) (index : ℕ) (bytes : Bytes)
    (strategy : NamingStrategy) :
    (∀ name, generateFilename overflowChecks sha256 url index bytes strategy = some name →
      OrdinaryName name) ↔
      (strategy = .urlBased → lastSegment url ≠ ['.'] ∧ lastSegment url ≠ ['.', '.']) := by
  simp only [generateFilename_eq]
  rcases rawName_cases sha256 url index bytes strategy with
    ⟨raw, hraw, hdotted, hnot⟩ | ⟨hstrat, hdot, hraw⟩ <;> rw [hraw, Option.bind_some]
  · refine iff_of_true (fun name h => ?_) fun hstrat => ?_
    · obtain ⟨r, hr, rfl⟩ := Option.map_eq_some_iff.1 h
      exact truncateFilename_ordinary hdotted.dot_mem hr hdotted.isNameChar
        fun n _ => hdotted.ne_replicate n
    · have hdot := hnot hstrat
      exact ⟨fun h => hdot (by simp [h]), fun h => hdot (by simp [h])⟩
  · constructor
    · intro h _
      -- such a segment is the name
      have hself : ∀ n < 3, lastSegment url ≠ List.replicate n '.' := by
        intro n hn heq
        rw [heq, sanitize_eq_replicate.2 rfl, truncateFilename_of_le (by
          rw [List.length_replicate]; omega)] at h
        exact (ordinaryName_ofList.1 (h _ rfl)).2 n hn rfl
      exact ⟨hself 1 (by decide), hself 2 (by decide)⟩
    · intro h name hname
      obtain ⟨r, hr, rfl⟩ := Option.map_eq_some_iff.1 hname
      refine truncateFilename_ordinary (dot_mem_sanitize.2 hdot) hr isNameChar_sanitize
        fun n hn heq => ?_
      have hseg := sanitize_eq_replicate.1 heq
      interval_cases n
      · rw [hseg] at hdot
        cases hdot
      · exact (h hstrat).1 hseg
      · exact (h hstrat).2 hseg

theorem generateFilename_dotdot :
    generateFilename true (fun _ => []) "https://h/a/.." 0 [] .urlBased = some ".." ∧
      ¬OrdinaryName ".." :=
  ⟨by decide, fun h => h.ne_dotdot rfl⟩

end Imgdl
