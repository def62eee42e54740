import Imgdl.Strings
import Mathlib.Data.List.TakeWhile

/-!
# URI references

A reference by its components, its text, and the URI it stands for against a base
(`Reference.target`, the standard's transformation of references). Authorities are of any
type, read off their text by a function.

The components of a valid reference are apart in its text, so the text without its fragment
determines the query (`queryOf_text`) and everything before it (`pathOf_text`).
-/

namespace References

open Imgdl

variable {α : Type*}

/-- The components of a URI. The scheme is in lower case. -/
structure UriParts (α : Type*) where
  scheme : Option (List Char)
  authority : Option α
  path : List Char
  query : Option (List Char)

/-- The components of a reference, as they stand in its text. -/
structure Reference where
  scheme : Option (List Char)
  authority : Option (List Char)
  path : List Char
  query : Option (List Char)
  fragment : Option (List Char)

/-! ## Paths and queries -/

/-- The empty path after an authority is the root. -/
def orRoot : List Char → List Char
  | [] => ['/']
  | path => path

/-- The path of a text of path and query. -/
def pathOf (s : List Char) : List Char :=
  orRoot (s.takeWhile (· ≠ '?'))

/-- The query of a text of path and query. -/
def queryOf (s : List Char) : Option (List Char) :=
  match s.dropWhile (· ≠ '?') with
  | [] => none
  | _ :: query => some query

/-- The text before the fragment. -/
def withoutFragment (s : List Char) : List Char :=
  s.takeWhile (· ≠ '#')

/-- The segments of a path without `.`, and without `..` and what it leads back over. The
segments kept so far come last one first. -/
def removeDots : List (List Char) → List (List Char) → List (List Char)
  | kept, [] => kept
  | kept, segment :: segments =>
    if segment = ['.'] then removeDots (if segments = [] then [] :: kept else kept) segments
    else if segment = ['.', '.'] then
      removeDots (if segments = [] then [] :: kept.tail else kept.tail) segments
    else removeDots (segment :: kept) segments

/-- A path without dot segments. -/
def removeDotSegments : List Char → List Char
  | '/' :: path => '/' :: List.intercalate ['/'] (removeDots [] (path.splitOn '/')).reverse
  | path => path

/-- A relative path in the directory of a base path. -/
def merge (base path : List Char) : List Char :=
  base.take (base.length - (rsplitHead '/' base).length) ++ path

/-! ## References -/

namespace Reference

variable (r : Reference)

/-- The text before the query. -/
def hierText : List Char :=
  (match r.scheme with
    | some scheme => scheme ++ [':']
    | none => []) ++
  (match r.authority with
    | some authority => '/' :: '/' :: authority
    | none => []) ++ r.path

/-- The text of the query. -/
def queryText : List Char :=
  match r.query with
  | some query => '?' :: query
  | none => []

/-- The text of the fragment. -/
def fragmentText : List Char :=
  match r.fragment with
  | some fragment => '#' :: fragment
  | none => []

/-- The text of the reference. -/
def text : List Char :=
  r.hierText ++ r.queryText ++ r.fragmentText

/-- The components are apart in the text, and the path has no dot segments. -/
structure Valid : Prop where
  scheme : ∀ s, r.scheme = some s → s ≠ [] ∧ ∀ c ∈ s, c ∉ [':', '/', '?', '#']
  authority : ∀ a, r.authority = some a → ∀ c ∈ a, c ∉ ['/', '?', '#']
  path : ∀ c ∈ r.path, c ∉ ['?', '#']
  query : ∀ q, r.query = some q → '#' ∉ q
  rooted : r.authority.isSome → r.path = [] ∨ ∃ path, r.path = '/' :: path
  oneSlash : r.authority = none → ∀ path, r.path ≠ '/' :: '/' :: path
  noColon : r.scheme = none → r.authority = none → ':' ∉ r.path.takeWhile (· ≠ '/')
  noDots : ['.'] ∉ r.path.splitOn '/' ∧ ['.', '.'] ∉ r.path.splitOn '/'

/-- The URI a reference stands for, with the base `base`. -/
def target (authorityOf : List Char → α) (base : UriParts α) : UriParts α :=
  match r.scheme, r.authority, r.path with
  | some scheme, some authority, path =>
    ⟨some (scheme.map Char.toLower), some (authorityOf authority),
      orRoot (removeDotSegments path), r.query⟩
  | some scheme, none, path =>
    ⟨some (scheme.map Char.toLower), none, removeDotSegments path, r.query⟩
  | none, some authority, path =>
    ⟨base.scheme, some (authorityOf authority), orRoot (removeDotSegments path), r.query⟩
  | none, none, [] =>
    ⟨base.scheme, base.authority, base.path, if r.query.isSome then r.query else base.query⟩
  | none, none, '/' :: path =>
    ⟨base.scheme, base.authority, removeDotSegments ('/' :: path), r.query⟩
  | none, none, path =>
    ⟨base.scheme, base.authority, removeDotSegments (merge base.path path), r.query⟩

/-- A reference that only replaces the path and the query of the base. With no path of its own
that is so where the path of the base is the root. -/
def ReplacesPath (base : UriParts α) : Prop :=
  r.scheme = none ∧ r.authority = none ∧ ((∃ path, r.path = '/' :: path) ∨
    r.path = [] ∧ base.path = ['/'] ∧ (r.query.isSome ∨ base.query = none))

end Reference

/-! ## What a text determines -/

theorem removeDots_eq_append : ∀ {segments : List (List Char)} (kept : List (List Char)),
    ['.'] ∉ segments → ['.', '.'] ∉ segments →
    removeDots kept segments = segments.reverse ++ kept
  | [], _, _, _ => rfl
  | segment :: segments, kept, h, h' => by
    rw [List.mem_cons, not_or] at h h'
    rw [removeDots, if_neg (Ne.symm h.1), if_neg (Ne.symm h'.1),
      removeDots_eq_append (segment :: kept) h.2 h'.2, List.reverse_cons, List.append_assoc]
    rfl

/-- Without dot segments there is nothing to remove. -/
theorem removeDotSegments_eq_self {path : List Char} (h : ['.'] ∉ path.splitOn '/')
    (h' : ['.', '.'] ∉ path.splitOn '/') : removeDotSegments path = path := by
  unfold removeDotSegments
  split
  case h_1 path =>
    have hsplit : ('/' :: path).splitOn '/' = [] :: path.splitOn '/' :=
      List.splitOn_append_cons_self_of_not_mem (List.not_mem_nil (a := '/')) path
    rw [hsplit, List.mem_cons, not_or] at h h'
    rw [removeDots_eq_append [] h.2 h'.2, List.append_nil, List.reverse_reverse,
      List.intercalate_splitOn]
  case h_2 => rfl

namespace Reference

variable {r : Reference}

/-- There is no query and no fragment before the query. -/
theorem Valid.hierText (h : r.Valid) : ∀ c ∈ r.hierText, c ∉ ['?', '#'] := by
  intro c hc
  simp only [Reference.hierText, List.mem_append] at hc
  rcases hc with (hc | hc) | hc
  · cases hs : r.scheme with
    | none => simp [hs] at hc
    | some scheme =>
      simp only [hs, List.mem_append, List.mem_singleton] at hc
      rcases hc with hc | rfl
      · exact fun hm => (h.scheme _ hs).2 c hc (List.mem_cons_of_mem _ (List.mem_cons_of_mem _ hm))
      · decide
  · cases ha : r.authority with
    | none => simp [ha] at hc
    | some authority =>
      simp only [ha, List.mem_cons] at hc
      rcases hc with rfl | rfl | hc
      · decide
      · decide
      · exact fun hm => h.authority _ ha c hc (List.mem_cons_of_mem _ hm)
  · exact h.path c hc

theorem Valid.queryText (h : r.Valid) : '#' ∉ r.queryText := by
  unfold Reference.queryText
  cases hq : r.query with
  | none => exact List.not_mem_nil
  | some query =>
    rw [List.mem_cons, not_or]
    exact ⟨by decide, h.query query hq⟩

theorem withoutFragment_text (h : r.Valid) :
    withoutFragment r.text = r.hierText ++ r.queryText := by
  have hnot : '#' ∉ r.hierText ++ r.queryText := by
    rw [List.mem_append, not_or]
    exact ⟨fun hm => h.hierText _ hm (by decide), h.queryText⟩
  unfold text withoutFragment Reference.fragmentText
  cases r.fragment with
  | none => rw [List.append_nil, takeWhile_of_not_mem hnot]
  | some fragment => exact takeWhile_append_cons hnot fragment

theorem pathOf_text (h : r.Valid) : pathOf (withoutFragment r.text) = orRoot r.hierText := by
  have hnot : '?' ∉ r.hierText := fun hm => h.hierText _ hm (by decide)
  rw [withoutFragment_text h, pathOf, Reference.queryText]
  cases r.query with
  | none => rw [List.append_nil, takeWhile_of_not_mem hnot]
  | some query => rw [takeWhile_append_cons hnot]

theorem queryOf_text (h : r.Valid) : queryOf (withoutFragment r.text) = r.query := by
  have hnot : '?' ∉ r.hierText := fun hm => h.hierText _ hm (by decide)
  rw [withoutFragment_text h, queryOf, Reference.queryText]
  cases r.query with
  | none =>
    rw [List.append_nil, List.dropWhile_eq_nil_iff.2 (decide_ne_of_not_mem hnot)]
  | some query => rw [dropWhile_append_cons hnot]

/-- What follows the path begins with a separator of its own. -/
theorem tail_cases (r : Reference) : r.queryText ++ r.fragmentText = [] ∨
    ∃ c s, r.queryText ++ r.fragmentText = c :: s ∧ c ∈ ['?', '#'] := by
  unfold queryText fragmentText
  cases r.query with
  | some query => exact Or.inr ⟨'?', _, rfl, by decide⟩
  | none =>
    cases r.fragment with
    | some fragment => exact Or.inr ⟨'#', _, rfl, by decide⟩
    | none => exact Or.inl rfl

/-- The first segment of the path is what precedes the first separator. -/
theorem takeWhile_path {path tail : List Char} (hpath : ∀ c ∈ path, c ∉ ['?', '#'])
    (htail : tail = [] ∨ ∃ c s, tail = c :: s ∧ c ∈ ['?', '#']) :
    (path ++ tail).takeWhile (· ∉ ['/', '?', '#']) = path.takeWhile (· ≠ '/') := by
  induction path with
  | nil =>
    rcases htail with rfl | ⟨c, s, rfl, hc⟩
    · rfl
    · have hmem : c ∈ ['/', '?', '#'] := List.mem_cons_of_mem _ hc
      have hneg : decide (c ∉ ['/', '?', '#']) = false := decide_eq_false fun hd => hd hmem
      rw [List.nil_append, List.takeWhile_cons, hneg]
      rfl
  | cons c path ih =>
    have ih := ih fun d hd => hpath d (List.mem_cons_of_mem _ hd)
    have hc := hpath c List.mem_cons_self
    by_cases hslash : c = '/'
    · rw [hslash, List.cons_append, List.takeWhile_cons_of_neg (by decide),
        List.takeWhile_cons_of_neg (by decide)]
    · rw [List.cons_append, List.takeWhile_cons_of_pos, ih, List.takeWhile_cons_of_pos]
      · exact decide_eq_true hslash
      · exact decide_eq_true (by rw [List.mem_cons, not_or]; exact ⟨hslash, hc⟩)

/-- Only a reference with a scheme and an authority begins as such. -/
theorem Valid.text_ne (h : r.Valid) (hnone : r.scheme = none ∨ r.authority = none)
    {scheme rest : List Char} (hscheme : ∀ c ∈ scheme, c ∉ [':', '/', '?', '#']) :
    r.text ≠ scheme ++ ':' :: '/' :: '/' :: rest := by
  intro heq
  have htail := tail_cases r
  have hcolon : ':' ∉ scheme := fun hm => hscheme _ hm (by decide)
  cases hs : r.scheme with
  | some s =>
    have ha : r.authority = none := hnone.resolve_left (by simp [hs])
    have htext : r.text = s ++ ':' :: (r.path ++ (r.queryText ++ r.fragmentText)) := by
      simp [Reference.text, Reference.hierText, hs, ha]
    have hcolon' : ':' ∉ s := fun hm => (h.scheme s hs).2 _ hm (by decide)
    have hsame : s = scheme := by
      rw [← takeWhile_append_cons hcolon' (r.path ++ (r.queryText ++ r.fragmentText)), ← htext, heq,
        takeWhile_append_cons hcolon]
    rw [htext, hsame, List.append_cancel_left_eq, List.cons.injEq] at heq
    have hslash := h.oneSlash ha
    generalize r.queryText ++ r.fragmentText = tail at heq htail
    -- the two slashes belong to the path
    match hpath : r.path, heq.2 with
    | [], htail' =>
      rcases htail with rfl | ⟨c, t, rfl, hc⟩
      · cases htail'
      · obtain ⟨rfl, -⟩ := List.cons.inj htail'
        exact absurd hc (by decide)
    | [c], htail' =>
      rcases htail with rfl | ⟨d, t, rfl, hd⟩
      · cases htail'
      · obtain ⟨-, htail'⟩ := List.cons.inj htail'
        obtain ⟨rfl, -⟩ := List.cons.inj htail'
        exact absurd hd (by decide)
    | c :: d :: path, htail' =>
      obtain ⟨hc, htail'⟩ := List.cons.inj htail'
      obtain ⟨hd, -⟩ := List.cons.inj htail'
      exact hslash path (hpath.trans (by rw [hc, hd]))
  | none =>
    cases ha : r.authority with
    | some a =>
      have htext : r.text = '/' :: '/' :: (a ++ r.path ++ (r.queryText ++ r.fragmentText)) := by
        simp [Reference.text, Reference.hierText, hs, ha]
      rw [htext] at heq
      cases scheme with
      | nil => exact absurd (List.cons.inj heq).1 (by decide)
      | cons c scheme =>
        exact hscheme c List.mem_cons_self ((List.cons.inj heq).1 ▸ by decide)
    | none =>
      have htext : r.text = r.path ++ (r.queryText ++ r.fragmentText) := by
        simp [Reference.text, Reference.hierText, hs, ha]
      have hfirst : ':' ∈ r.text.takeWhile (· ∉ ['/', '?', '#']) := by
        have hpos : ∀ c ∈ scheme, decide (c ∉ ['/', '?', '#']) = true := fun c hc =>
          decide_eq_true fun hm => hscheme c hc (List.mem_cons_of_mem _ hm)
        rw [heq, List.takeWhile_append_of_pos hpos, List.takeWhile_cons_of_pos (by decide)]
        simp
      rw [htext, takeWhile_path h.path htail] at hfirst
      exact h.noColon hs ha hfirst

/-! ## References that only replace path and query -/

/-- What a relative path replaces is the last segment. -/
theorem merge_append {last : List Char} (h : '/' ∉ last) (pre path : List Char) :
    merge (pre ++ '/' :: last) path = pre ++ '/' :: path := by
  have hlen : (pre ++ '/' :: last).length - last.length = (pre ++ ['/']).length := by
    rw [List.length_append, List.length_append, List.length_cons, List.length_singleton]
    omega
  have hsplit : pre ++ '/' :: last = (pre ++ ['/']) ++ last := by simp
  rw [merge, rsplitHead_append h, hlen, hsplit, List.take_left', List.append_assoc]
  · rfl
  · rfl

/-- A merged path is rooted. -/
theorem merge_root {base : List Char} (h : ∃ path, base = '/' :: path) (path : List Char) :
    ∃ merged, merge base path = '/' :: merged := by
  obtain ⟨rest, rfl⟩ := h
  obtain ⟨pre, hsplit, hlast⟩ := exists_rsplit (List.mem_cons_self (a := '/') (l := rest))
  rw [hsplit, merge_append hlast]
  cases pre with
  | nil => exact ⟨path, rfl⟩
  | cons c pre =>
    obtain ⟨rfl, -⟩ := List.cons.inj hsplit
    exact ⟨_, rfl⟩

/-- The target of a relative path is rooted. -/
theorem removeDotSegments_merge_root {base : List Char} (h : ∃ path, base = '/' :: path)
    (path : List Char) : ∃ merged, removeDotSegments (merge base path) = '/' :: merged := by
  obtain ⟨merged, hmerged⟩ := merge_root h path
  rw [hmerged]
  exact ⟨_, rfl⟩

/-- With an authority, the text before the query is longer than the path. -/
theorem length_hierText {authority : List Char} (h : r.authority = some authority) :
    r.path.length + 2 ≤ r.hierText.length := by
  simp only [Reference.hierText, h, List.length_append, List.length_cons]
  omega

theorem orRoot_cons (c : Char) (path : List Char) : orRoot (c :: path) = c :: path := rfl

theorem length_orRoot_le (path : List Char) :
    path.length ≤ (orRoot path).length ∧ (orRoot path).length ≤ path.length + 1 := by
  cases path with
  | nil => decide
  | cons c path => exact ⟨le_refl _, Nat.le_succ _⟩

/-- The base with the path and query of the text is the target of these references only. -/
theorem Valid.target_iff (h : r.Valid) (authorityOf : List Char → α) (base : UriParts α)
    (hauthority : base.authority.isSome) (hroot : ∃ path, base.path = '/' :: path) :
    ⟨base.scheme, base.authority, orRoot r.hierText, r.query⟩ = r.target authorityOf base ↔
      r.ReplacesPath base := by
  unfold ReplacesPath
  have hdots := removeDotSegments_eq_self h.noDots.1 h.noDots.2
  cases ha : r.authority with
  | some authority =>
    refine iff_of_false (fun heq => ?_) (by simp)
    have htarget : (r.target authorityOf base).path = orRoot r.path := by
      cases hs : r.scheme with
      | some scheme => simp only [Reference.target, hs, ha, hdots]
      | none => simp only [Reference.target, hs, ha, hdots]
    have hlen : (orRoot r.hierText).length = (orRoot r.path).length := by rw [← htarget, ← heq]
    have := length_hierText ha
    have := (length_orRoot_le r.hierText).1
    have := (length_orRoot_le r.path).2
    omega
  | none =>
    cases hs : r.scheme with
    | some scheme =>
      refine iff_of_false (fun heq => ?_) (by simp)
      have hsame := congrArg UriParts.authority heq
      simp only [Reference.target, hs, ha] at hsame
      rw [show base.authority = none from hsame] at hauthority
      cases hauthority
    | none =>
      have hhier : r.hierText = r.path := by simp [Reference.hierText, hs, ha]
      rw [hhier]
      match hpath : r.path with
      | [] =>
        have hquery : r.query = (if r.query.isSome then r.query else base.query) ↔
            r.query.isSome ∨ base.query = none := by
          cases r.query with
          | some query => simp
          | none => simpa using eq_comm
        simp [Reference.target, hs, ha, hpath, orRoot, hquery, eq_comm (a := ['/'])]
      | '/' :: path =>
        rw [hpath] at hdots
        simp [Reference.target, hs, ha, hpath, hdots, orRoot_cons]
      | c :: path =>
        by_cases hc : c = '/'
        · subst hc
          rw [hpath] at hdots
          simp [Reference.target, hs, ha, hpath, hdots, orRoot_cons]
        · obtain ⟨merged, hmerged⟩ := removeDotSegments_merge_root hroot (c :: path)
          simp [Reference.target, hs, ha, hpath, hmerged, orRoot_cons, hc]

end Reference

end References
