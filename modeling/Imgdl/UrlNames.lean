import Imgdl.AbsoluteUrls
import Imgdl.GeneratedNames

/-!
# Names from the path of a URL

The code does not parse the URL of an image. It cuts it at `?` and `#` and takes what follows
the last `/`. That is the last segment of the path, whatever the other components contain,
unless the path is empty : then it is the authority (`namedByPath_iff`).
-/

namespace Imgdl

open References

/-- The text of a URL. -/
def urlText (u : AbsoluteUrl) : String :=
  String.ofList u.text

/-- The last segment of the path. -/
def pathSegment (u : AbsoluteUrl) : List Char :=
  rsplitHead '/' u.path

/-- The path names no file : it is empty or ends in `/`, or its last segment has no dot. -/
def NamesNoFile (u : AbsoluteUrl) : Prop :=
  u.path = [] ∨ (∃ dir, u.path = dir ++ ['/']) ∨ '.' ∉ pathSegment u

/-- The names that do not use the URL : a hash, and the extension of the magic bytes. -/
structure FallsBack (url : String) : Prop where
  urlBased : ∀ sha256, urlBasedName sha256 url = hexPrefix sha256 16 (asBytes url) ++ ".bin".toList
  fileHeader : ∀ sha256 bytes, fileHeaderName sha256 url bytes =
    some (hexPrefix sha256 8 (asBytes url) ++ (detectExtensionFromMagicBytes bytes).toList)
  sequential : ∀ index bytes, sequentialName index url bytes =
    some (paddedIndex index ++ (detectExtensionFromMagicBytes bytes).toList)
  contentHash : ∀ sha256 bytes, contentHashName sha256 bytes url =
    some (hexPrefix sha256 16 bytes ++ (detectExtensionFromMagicBytes bytes).toList)

/-- Names and extensions come from the path only. -/
structure NamedByPath (u : AbsoluteUrl) : Prop where
  segment : lastSegment (urlText u) = pathSegment u
  fallsBack : NamesNoFile u → FallsBack (urlText u)

/-- A segment without a dot is not used. -/
theorem fallsBack_of_no_dot {url : String} (h : '.' ∉ lastSegment url) : FallsBack url := by
  have hext : ∀ bytes, extensionOrMagic url bytes =
      some ((detectExtensionFromMagicBytes bytes).toList.dropWhile (· = '.')) := by
    intro bytes
    have hnone : extensionFromUrl url.toList = some none := by
      unfold extensionFromUrl
      rw [← lastSegment]
      simp only [rfind_eq_none h]
    rw [extensionOrMagic, hnone]
    rfl
  have hmagic : ∀ bytes, '.' :: (detectExtensionFromMagicBytes bytes).toList.dropWhile (· = '.') =
      (detectExtensionFromMagicBytes bytes).toList := by
    intro bytes
    unfold detectExtensionFromMagicBytes
    split_ifs <;> rfl
  refine ⟨urlBasedName_hash h, fileHeaderName_hash h, fun index bytes => ?_,
    fun sha256 bytes => ?_⟩
  · rw [sequentialName, hext, Option.map_some, hmagic]
    rfl
  · rw [contentHashName, hext, Option.map_some, hmagic]

/-! ## The segment -/

/-- A path without a file has no dot in its last segment. -/
theorem NamesNoFile.no_dot {u : AbsoluteUrl} (h : NamesNoFile u) : '.' ∉ pathSegment u := by
  rcases h with hempty | ⟨dir, hdir⟩ | hdot
  · rw [pathSegment, hempty]
    exact List.not_mem_nil
  · rw [pathSegment, hdir, rsplitHead_append List.not_mem_nil]
    exact List.not_mem_nil
  · exact hdot

/-- The code takes what follows the last `/` before the query and the fragment. -/
theorem lastSegment_urlText (u : AbsoluteUrl) :
    lastSegment (urlText u) = rsplitHead '/' u.toReference.hierText := by
  rw [lastSegment, urlText, String.toList_ofList, stripUrlQueryAndFragment, u.takeWhile_text]

/-- Without a path this is the authority. -/
theorem lastSegment_of_no_path {u : AbsoluteUrl} (h : u.path = []) :
    lastSegment (urlText u) = u.authority := by
  have hslash : '/' ∉ u.authority := fun hm => u.authority_apart _ hm (by decide)
  rw [lastSegment_urlText, u.hierText_eq, h, List.append_nil, rsplitHead_append hslash]

/-- With one, it is its last segment. -/
theorem lastSegment_of_path {u : AbsoluteUrl} (h : u.path ≠ []) :
    lastSegment (urlText u) = pathSegment u := by
  obtain ⟨rest, hpath⟩ := u.rooted.resolve_left h
  have hslash : '/' ∈ u.path := by
    rw [hpath]
    exact List.mem_cons_self
  obtain ⟨pre, hsplit, hnot⟩ := exists_rsplit hslash
  have hwhole : u.toReference.hierText = (u.scheme ++ [':', '/'] ++ '/' :: (u.authority ++ pre)) ++
      '/' :: rsplitHead '/' u.path := by
    rw [u.hierText_eq]
    conv_lhs => rw [hsplit]
    simp
  rw [lastSegment_urlText, hwhole, rsplitHead_append hnot, pathSegment]

/-- Without a path the names fall back exactly if there is no dot in the authority. -/
theorem fallsBack_iff_of_no_path {u : AbsoluteUrl} (h : u.path = []) :
    FallsBack (urlText u) ↔ '.' ∉ u.authority := by
  rw [← lastSegment_of_no_path h]
  refine ⟨fun hfalls hdot => ?_, fallsBack_of_no_dot⟩
  -- the name does not depend on the hash
  have h0 := hfalls.urlBased fun _ => []
  have h1 := hfalls.urlBased fun _ => [0]
  rw [urlBasedName_segment hdot] at h0 h1
  exact absurd (h0.symm.trans h1) (by simp [hexPrefix, hexByte])

/-- Names and extensions come from the path only, exactly if there is a path or no authority. -/
theorem namedByPath_iff (u : AbsoluteUrl) : NamedByPath u ↔ u.path ≠ [] ∨ u.authority = [] := by
  constructor
  · intro h
    rw [or_iff_not_imp_left, not_not]
    intro hempty
    have hsegment := h.segment
    rwa [lastSegment_of_no_path hempty, pathSegment, hempty] at hsegment
  · intro h
    have hsegment : lastSegment (urlText u) = pathSegment u := by
      by_cases hempty : u.path = []
      · rw [lastSegment_of_no_path hempty, h.resolve_left (not_not.2 hempty), pathSegment, hempty]
        rfl
      · exact lastSegment_of_path hempty
    exact ⟨hsegment, fun hno => fallsBack_of_no_dot (hsegment ▸ hno.no_dot)⟩

/-- `https://a.com`. -/
def bareHost : AbsoluteUrl where
  scheme := ['h', 't', 't', 'p', 's']
  authority := ['a', '.', 'c', 'o', 'm']
  path := []
  query := none
  fragment := none
  scheme_apart := forall_mem_of_all rfl
  authority_apart := forall_mem_of_all rfl
  path_apart _ h := (nomatch h)
  query_apart := query_apart_none
  rooted := Or.inl rfl

/-- The image of a bare host is named after the host, and has the extension `.com`. -/
theorem namedByPath_bareHost : ¬(∀ u, NamedByPath u) ∧
    urlBasedName (fun _ => []) (urlText bareHost) = ['a', '.', 'c', 'o', 'm'] ∧
    sequentialName 0 (urlText bareHost) [] = some ['0', '0', '0', '.', 'c', 'o', 'm'] := by
  refine ⟨fun h => ?_, by decide, by decide⟩
  exact absurd (h bareHost).segment (by decide)

end Imgdl
