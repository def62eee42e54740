import Mathlib.Algebra.Ring.Nat
import Mathlib.Data.List.Basic

/-!
# Strings by bytes

Strings are lists of characters, and offsets into them are in bytes : `splitAtByte` is
slicing, and `none` is the panic of a slice off a character boundary. The offsets of
`rfind` and `charIndices` are the byte lengths of prefixes, and slicing at the byte length
of a prefix returns that prefix (`splitAtByte_append`).
-/

namespace Imgdl

/-- `str::len`. -/
def byteLen (s : List Char) : ℕ :=
  (s.map Char.utf8Size).sum

/-- `str::rfind` of a character : the offset of its last occurrence. -/
def rfind (c : Char) : List Char → Option ℕ
  | [] => none
  | d :: s => match rfind c s with
    | some n => some (d.utf8Size + n)
    | none => if d = c then some 0 else none

/-- `str::char_indices`, of the rest of a string from the offset `i`. -/
def charIndices : (i : ℕ) → List Char → List (ℕ × Char)
  | _, [] => []
  | i, c :: s => (i, c) :: charIndices (i + c.utf8Size) s

/-- `(&s[..i], &s[i..])`. -/
def splitAtByte : (i : ℕ) → List Char → Option (List Char × List Char)
  | 0, s => some ([], s)
  | _, [] => none
  | i, c :: s =>
    if c.utf8Size ≤ i then (splitAtByte (i - c.utf8Size) s).map fun r => (c :: r.1, r.2)
    else none

/-- `str::is_char_boundary` : the offset of the end of a prefix. -/
def IsCharBoundary (s : List Char) (i : ℕ) : Prop :=
  ∃ pre post, s = pre ++ post ∧ byteLen pre = i

/-- The segment of `s` after the last `c` : `s.rsplit(c).next()`. -/
def rsplitHead (c : Char) (s : List Char) : List Char :=
  (s.reverse.takeWhile (· ≠ c)).reverse

/-! ## Lengths -/

@[simp]
theorem byteLen_nil : byteLen [] = 0 := rfl

@[simp]
theorem byteLen_cons (c : Char) (s : List Char) : byteLen (c :: s) = c.utf8Size + byteLen s := by
  simp [byteLen]

@[simp]
theorem byteLen_append (s t : List Char) : byteLen (s ++ t) = byteLen s + byteLen t := by
  simp [byteLen]

theorem length_le_byteLen : ∀ s : List Char, s.length ≤ byteLen s
  | [] => Nat.le_refl 0
  | c :: s => by
    have ih := length_le_byteLen s
    have hc := c.utf8Size_pos
    rw [List.length_cons, byteLen_cons]
    omega

theorem byteLen_take_le (k : ℕ) (s : List Char) : byteLen (s.take k) ≤ byteLen s := by
  have h : byteLen (s.take k) + byteLen (s.drop k) = byteLen s := by
    rw [← byteLen_append, List.take_append_drop]
  omega

/-! ## Slices -/

/-- A slice at the end of a prefix. -/
@[simp]
theorem splitAtByte_append (t : List Char) : ∀ s : List Char,
    splitAtByte (byteLen s) (s ++ t) = some (s, t)
  | [] => by simp [splitAtByte]
  | c :: s => by
    have hc := c.utf8Size_pos
    obtain ⟨n, hn⟩ : ∃ n, c.utf8Size + byteLen s = n + 1 := ⟨c.utf8Size + byteLen s - 1, by omega⟩
    have hle : c.utf8Size ≤ n + 1 := by omega
    have hsub : n + 1 - c.utf8Size = byteLen s := by omega
    rw [byteLen_cons, hn, List.cons_append, splitAtByte, if_pos hle, hsub, splitAtByte_append t s]
    · rfl
    · omega

/-- A slice at a character boundary does not panic. -/
theorem IsCharBoundary.exists_split {s : List Char} {i : ℕ} (h : IsCharBoundary s i) :
    ∃ r, splitAtByte i s = some r := by
  obtain ⟨pre, post, rfl, rfl⟩ := h
  exact ⟨_, splitAtByte_append _ _⟩

theorem splitAtByte_take (k : ℕ) (s : List Char) :
    splitAtByte (byteLen (s.take k)) s = some (s.take k, s.drop k) := by
  have h := splitAtByte_append (s.drop k) (s.take k)
  rwa [List.take_append_drop] at h

/-! ## Offsets -/

theorem rfind_eq_none {c : Char} : ∀ {s : List Char}, c ∉ s → rfind c s = none
  | [], _ => rfl
  | d :: s, h => by
    rw [List.mem_cons, not_or] at h
    rw [rfind, rfind_eq_none h.2]
    exact if_neg (Ne.symm h.1)

/-- The last occurrence of `c` is after a prefix, and no other follows it. -/
theorem rfind_append {c : Char} {post : List Char} (h : c ∉ post) : ∀ pre : List Char,
    rfind c (pre ++ c :: post) = some (byteLen pre)
  | [] => by
    rw [List.nil_append, rfind, rfind_eq_none h]
    exact if_pos rfl
  | d :: pre => by rw [List.cons_append, rfind, rfind_append h pre, byteLen_cons]

theorem getElem?_charIndices : ∀ (s : List Char) (i k : ℕ),
    (charIndices i s)[k]? = s[k]?.map fun c => (i + byteLen (s.take k), c)
  | [], _, _ => rfl
  | c :: s, i, 0 => by simp [charIndices]
  | c :: s, i, k + 1 => by
    rw [charIndices, List.getElem?_cons_succ, getElem?_charIndices s, List.getElem?_cons_succ,
      List.take_succ_cons, byteLen_cons, Nat.add_assoc]

/-- The offset of the `k`-th character, or `d` past the end. -/
theorem charIndices_getD (s : List Char) (k d : ℕ) :
    ((charIndices 0 s)[k]?.map Prod.fst).getD d =
      if k < s.length then byteLen (s.take k) else d := by
  rw [getElem?_charIndices, Option.map_map]
  split_ifs with h
  · simp [List.getElem?_eq_getElem h]
  · simp [List.getElem?_eq_none (Nat.not_lt.1 h)]

theorem isCharBoundary_charIndices {s : List Char} {d : ℕ} (h : IsCharBoundary s d) (k : ℕ) :
    IsCharBoundary s (((charIndices 0 s)[k]?.map Prod.fst).getD d) := by
  rw [charIndices_getD]
  split_ifs
  · exact ⟨s.take k, s.drop k, (List.take_append_drop k s).symm, rfl⟩
  · exact h

/-- A property of every character of a string, by evaluation. -/
theorem forall_mem_of_all {p : Char → Prop} [DecidablePred p] {s : List Char}
    (h : (s.all fun c => decide (p c)) = true) : ∀ c ∈ s, p c :=
  fun c hc => of_decide_eq_true (List.all_eq_true.1 h c hc)

/-! ## Segments -/

theorem decide_ne_of_not_mem {c : Char} {s : List Char} (h : c ∉ s) :
    ∀ d ∈ s, decide (d ≠ c) = true :=
  fun _ hd => decide_eq_true fun he => h (he ▸ hd)

/-- The segment of a string before the first `c`. -/
theorem takeWhile_append_cons {c : Char} {s : List Char} (h : c ∉ s) (t : List Char) :
    (s ++ c :: t).takeWhile (· ≠ c) = s := by
  rw [List.takeWhile_append_of_pos (decide_ne_of_not_mem h), List.takeWhile_cons_of_neg (by simp),
    List.append_nil]

theorem takeWhile_of_not_mem {c : Char} {s : List Char} (h : c ∉ s) :
    s.takeWhile (· ≠ c) = s := by
  rw [← List.append_nil s, List.takeWhile_append_of_pos, List.takeWhile_nil]
  exact decide_ne_of_not_mem h

theorem dropWhile_append_cons {c : Char} {s : List Char} (h : c ∉ s) (t : List Char) :
    (s ++ c :: t).dropWhile (· ≠ c) = c :: t := by
  rw [List.dropWhile_append_of_pos (decide_ne_of_not_mem h),
    List.dropWhile_cons_of_neg (by simp)]

theorem rsplitHead_append {c : Char} {post : List Char} (h : c ∉ post) (pre : List Char) :
    rsplitHead c (pre ++ c :: post) = post := by
  have hpost : c ∉ post.reverse := fun hm => h (List.mem_reverse.1 hm)
  have hsplit : (pre ++ c :: post).reverse = post.reverse ++ c :: pre.reverse := by simp
  rw [rsplitHead, hsplit, takeWhile_append_cons hpost, List.reverse_reverse]

/-- The last occurrence of `c`. -/
theorem exists_last {c : Char} : ∀ {s : List Char}, c ∈ s →
    ∃ pre post, c ∉ post ∧ s = pre ++ c :: post
  | d :: s, h => by
    by_cases hs : c ∈ s
    · obtain ⟨pre, post, hpost, rfl⟩ := exists_last hs
      exact ⟨d :: pre, post, hpost, rfl⟩
    · obtain rfl : c = d := (List.mem_cons.1 h).resolve_right hs
      exact ⟨[], s, hs, rfl⟩

/-- The last occurrence of a character is at a character boundary. -/
theorem isCharBoundary_rfind {c : Char} {s : List Char} {i : ℕ} (h : rfind c s = some i) :
    IsCharBoundary s i := by
  by_cases hc : c ∈ s
  · obtain ⟨pre, post, hpost, rfl⟩ := exists_last hc
    rw [rfind_append hpost] at h
    exact ⟨pre, c :: post, rfl, Option.some.inj h⟩
  · rw [rfind_eq_none hc] at h
    cases h

/-- A string that contains `c` is what comes before its last segment, `c`, and that segment. -/
theorem exists_rsplit {c : Char} {s : List Char} (h : c ∈ s) :
    ∃ pre, s = pre ++ c :: rsplitHead c s ∧ c ∉ rsplitHead c s := by
  obtain ⟨pre, post, hpost, rfl⟩ := exists_last h
  rw [rsplitHead_append hpost]
  exact ⟨pre, rfl, hpost⟩

end Imgdl
