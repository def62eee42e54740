import Imgdl.GeneratedNames

/-!
# Names by file header

Under `NamingStrategy.fileHeader` a name ends with the extension of the magic bytes, also when it
is truncated. What stands before it is the hash of the URL, or the longest prefix that fits of the
last segment up to its last dot (`generateFilename_fileHeader`).
-/

namespace Imgdl

variable {overflowChecks : Bool}

/-! ## Offsets -/

/-- The offset of the `n`-th character of a name, or `d` past its end. -/
def charOffset (name : List Char) (n d : ℕ) : ℕ :=
  ((charIndices 0 name)[n]?.map Prod.fst).getD d

/-- `stem_end`. -/
def stemEnd (name : List Char) (maxStemChars dotPos : ℕ) : ℕ :=
  min (charOffset name maxStemChars dotPos) dotPos

/-- The slices of a truncation are at these offsets. -/
theorem truncateFilename_eq (overflowChecks : Bool) (name : List Char) :
    truncateFilename overflowChecks name =
      if name.length ≤ 200 then some name
      else
        let cut := (splitAtByte (charOffset name 200 (byteLen name)) name).map Prod.fst
        match rfind '.' name with
        | none => cut
        | some dotPos => (splitAtByte dotPos name).bind fun r =>
          if 200 < r.2.length ∧ overflowChecks then none
          else
            let maxStemChars := (2 ^ 64 + 200 - r.2.length) % 2 ^ 64
            if 0 < maxStemChars then
              (splitAtByte (stemEnd name maxStemChars dotPos) name).bind fun s =>
                some (s.1 ++ r.2)
            else cut := by
  rfl

/-- The offsets of a truncation are at character boundaries, and the stem ends before the dot. -/
structure SlicesAtBoundaries (name : List Char) : Prop where
  cut : IsCharBoundary name (charOffset name 200 (byteLen name))
  dot : ∀ dotPos, rfind '.' name = some dotPos → IsCharBoundary name dotPos
  stem : ∀ dotPos maxStemChars, rfind '.' name = some dotPos →
    IsCharBoundary name (charOffset name maxStemChars dotPos) ∧
    IsCharBoundary name (stemEnd name maxStemChars dotPos) ∧
    stemEnd name maxStemChars dotPos ≤ dotPos

theorem slicesAtBoundaries (name : List Char) : SlicesAtBoundaries name := by
  have hend : IsCharBoundary name (byteLen name) := ⟨name, [], (List.append_nil name).symm, rfl⟩
  refine ⟨isCharBoundary_charIndices hend 200, fun _ => isCharBoundary_rfind,
    fun dotPos maxStemChars hdot => ?_⟩
  have hpos := isCharBoundary_rfind hdot
  have hoffset : IsCharBoundary name (charOffset name maxStemChars dotPos) :=
    isCharBoundary_charIndices hpos maxStemChars
  refine ⟨hoffset, ?_, min_le_right _ _⟩
  rw [stemEnd]
  rcases le_total (charOffset name maxStemChars dotPos) dotPos with hle | hle
  · rwa [min_eq_left hle]
  · rwa [min_eq_right hle]

/-- The subtraction of a truncation overflows. -/
def SubtractionPanics (overflowChecks : Bool) (name : List Char) : Prop :=
  overflowChecks = true ∧ ∃ dotPos r, rfind '.' name = some dotPos ∧
    splitAtByte dotPos name = some r ∧ 200 < r.2.length

/-- A truncation panics only in the subtraction. -/
theorem truncateFilename_isSome_or (overflowChecks : Bool) (name : List Char) :
    (truncateFilename overflowChecks name).isSome ∨ SubtractionPanics overflowChecks name := by
  have hslices := slicesAtBoundaries name
  obtain ⟨cut, hcut⟩ := hslices.cut.exists_split
  rw [truncateFilename_eq]
  simp only [hcut, Option.map_some]
  split_ifs with hshort
  · exact Or.inl rfl
  cases hdot : rfind '.' name with
  | none => exact Or.inl rfl
  | some dotPos =>
    obtain ⟨r, hr⟩ := (hslices.dot dotPos hdot).exists_split
    obtain ⟨stem, hstem⟩ := (hslices.stem dotPos ((2 ^ 64 + 200 - r.2.length) % 2 ^ 64)
      hdot).2.1.exists_split
    simp only [hr, hstem, Option.bind_some]
    split_ifs with hover
    · exact Or.inr ⟨hover.2, dotPos, r, hdot, hr, hover.1⟩
    · exact Or.inl rfl
    · exact Or.inl rfl

/-! ## Stems -/

/-- The longest prefix of `s` of at most `n` characters. -/
structure LongestPrefix (n : ℕ) (s p : List Char) : Prop where
  isPrefix : p <+: s
  length_le : p.length ≤ n
  longest : ∀ q, q <+: s → q.length ≤ n → q <+: p

theorem longestPrefix_take (n : ℕ) (s : List Char) : LongestPrefix n s (s.take n) :=
  ⟨List.take_prefix n s, List.length_take_le n s, fun _ hq hn => List.prefix_take_iff.2 ⟨hq, hn⟩⟩

/-- A name with a short extension is truncated before the extension. -/
theorem truncateFilename_take {pre post : List Char} (hpost : '.' ∉ post)
    (hshort : post.length + 1 < 200) : truncateFilename overflowChecks (pre ++ '.' :: post) =
      some (pre.take (200 - (post.length + 1)) ++ '.' :: post) := by
  rcases Nat.lt_or_ge 200 (pre ++ '.' :: post).length with hlong | hle
  · have hmod : (2 ^ 64 + 200 - (post.length + 1)) % 2 ^ 64 = 200 - (post.length + 1) := by
      omega
    rw [truncateFilename_dotted hpost hlong, if_neg (by omega), hmod, if_pos (by omega)]
  · rw [truncateFilename_of_le hle, List.take_of_length_le]
    rw [List.length_append, List.length_cons] at hle
    omega

/-- What stands before the extension : the hash of the URL if its last segment has no dot, else
the longest prefix that fits of the segment up to its last dot. -/
inductive HeaderStem (sha256 : Bytes → Bytes) (url : String) (limit : ℕ) : List Char → Prop where
  | hash : '.' ∉ lastSegment url →
    HeaderStem sha256 url limit (hexPrefix sha256 8 (asBytes url))
  | segment {pre post stem : List Char} : sanitize (lastSegment url) = pre ++ '.' :: post →
    '.' ∉ post → LongestPrefix limit pre stem → HeaderStem sha256 url limit stem

/-- A name by header is a stem and the extension of the magic bytes. No truncation slices a name
off a character boundary : its only panic is that of the subtraction. -/
theorem generateFilename_fileHeader (overflowChecks : Bool) (sha256 : Bytes → Bytes) :
    (∀ (url : String) (index : ℕ) (bytes : Bytes), ∃ stem,
      generateFilename overflowChecks sha256 url index bytes .fileHeader =
        some (String.ofList (stem ++ (detectExtensionFromMagicBytes bytes).toList)) ∧
      HeaderStem sha256 url (200 - (detectExtensionFromMagicBytes bytes).toList.length) stem) ∧
    ∀ name, SlicesAtBoundaries name ∧
      ((truncateFilename overflowChecks name).isSome ∨ SubtractionPanics overflowChecks name) := by
  refine ⟨fun url index bytes => ?_, fun name =>
    ⟨slicesAtBoundaries name, truncateFilename_isSome_or overflowChecks name⟩⟩
  obtain ⟨ext, hext, hmagic⟩ := isExtension_magic bytes
  have hshort : ext.length + 1 < 200 := by
    have hle := hext.length_le
    omega
  rw [hmagic, List.length_cons]
  have hname : ∀ stem, fileHeaderName sha256 url bytes = some (stem ++ '.' :: ext) →
      generateFilename overflowChecks sha256 url index bytes .fileHeader =
        some (String.ofList (stem.take (200 - (ext.length + 1)) ++ '.' :: ext)) := by
    intro stem hraw
    rw [generateFilename_eq, rawName, hraw, Option.bind_some,
      truncateFilename_take hext.dot_not_mem hshort, Option.map_some]
  by_cases hdot : '.' ∈ lastSegment url
  · obtain ⟨pre, post, hpost, hsplit⟩ := exists_last (dot_mem_sanitize.2 hdot)
    refine ⟨_, hname pre ?_, .segment hsplit hpost (longestPrefix_take _ _)⟩
    rw [fileHeaderName_segment hpost hsplit, hmagic]
  · have hlen : (hexPrefix sha256 8 (asBytes url)).length ≤ 2 * 8 := length_hexPrefix_le 8 _
    refine ⟨_, ?_, .hash hdot⟩
    rw [hname _ (by rw [fileHeaderName_hash hdot, hmagic]), List.take_of_length_le]
    have hle := hext.length_le
    omega

end Imgdl
