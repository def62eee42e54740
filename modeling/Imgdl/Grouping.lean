import Mathlib.Algebra.BigOperators.Group.List.Basic
import Mathlib.Data.List.Induction
import Mathlib.Data.List.Nodup

/-!
# Values grouped by key

`push` appends a value to the list of its key, after the last key if it is new, and
`groups` pushes the entries of a list in order. Every key of the list has one group, its
values in order (`mem_groups`, `nodup_groups`), and what is additive on lists of values has
the sum over the groups that it has on all values (`sum_groups`).
-/

namespace Grouping

variable {κ β : Type*} [DecidableEq κ]

/-- Append a value to the list of its key. -/
def push (k : κ) (v : β) : List (κ × List β) → List (κ × List β)
  | [] => [(k, [v])]
  | (k', vs) :: m => if k' = k then (k', vs ++ [v]) :: m else (k', vs) :: push k v m

/-- Group the entries of a list. -/
def groups (xs : List (κ × β)) : List (κ × List β) :=
  xs.foldl (fun m x => push x.1 x.2 m) []

/-- The values of a key. -/
def valuesOf (k : κ) (xs : List (κ × β)) : List β :=
  (xs.filter fun x => x.1 = k).map Prod.snd

theorem mem_keys_push {k k' : κ} {v : β} : ∀ {m : List (κ × List β)},
    k' ∈ (push k v m).map Prod.fst ↔ k' = k ∨ k' ∈ m.map Prod.fst
  | [] => by simp [push]
  | (k₀, vs) :: m => by
    unfold push
    split_ifs with h
    · simp [h]
    · simp only [List.map_cons, List.mem_cons, mem_keys_push]
      tauto

theorem nodup_push {k : κ} {v : β} : ∀ {m : List (κ × List β)}, (m.map Prod.fst).Nodup →
    ((push k v m).map Prod.fst).Nodup
  | [], _ => by simp [push]
  | (k₀, vs) :: m, h => by
    rw [List.map_cons, List.nodup_cons] at h
    unfold push
    split_ifs with hk
    · exact List.nodup_cons.2 h
    · refine List.nodup_cons.2 ⟨fun hm => ?_, nodup_push h.2⟩
      rcases mem_keys_push.1 hm with he | hm
      · exact hk he
      · exact h.1 hm

/-- The groups after a push : the other groups, and that of the key with the value. -/
theorem mem_push {k k' : κ} {v : β} {ws : List β} : ∀ {m : List (κ × List β)},
    (m.map Prod.fst).Nodup → ((k', ws) ∈ push k v m ↔ (k' ≠ k ∧ (k', ws) ∈ m) ∨
      (k' = k ∧ ((k ∉ m.map Prod.fst ∧ ws = [v]) ∨ ∃ vs, (k, vs) ∈ m ∧ ws = vs ++ [v])))
  | [], _ => by simp [push]
  | (k₀, vs) :: m, h => by
    rw [List.map_cons, List.nodup_cons] at h
    have hnot : ∀ us, (k₀, us) ∉ m := fun us hm => h.1 (List.mem_map.2 ⟨_, hm, rfl⟩)
    unfold push
    split_ifs with hk
    · subst hk
      by_cases hk' : k' = k₀
      · subst hk'
        simp [hnot]
      · simp [hk']
    · rw [List.mem_cons, mem_push h.2]
      by_cases hk' : k' = k
      · subst hk'
        simp [Ne.symm hk]
      · simp [hk']

theorem groups_concat (xs : List (κ × β)) (x : κ × β) :
    groups (xs ++ [x]) = push x.1 x.2 (groups xs) := by
  simp [groups]

theorem nodup_groups (xs : List (κ × β)) : ((groups xs).map Prod.fst).Nodup := by
  induction xs using List.reverseRecOn with
  | nil => exact List.nodup_nil
  | append_singleton xs x ih =>
    rw [groups_concat]
    exact nodup_push ih

theorem mem_keys_groups {k : κ} (xs : List (κ × β)) :
    k ∈ (groups xs).map Prod.fst ↔ k ∈ xs.map Prod.fst := by
  induction xs using List.reverseRecOn with
  | nil => simp [groups]
  | append_singleton xs x ih =>
    rw [groups_concat, mem_keys_push, ih]
    simp [or_comm]

/-- The group of a key is its values, in order. -/
theorem mem_groups {k : κ} {ws : List β} (xs : List (κ × β)) :
    (k, ws) ∈ groups xs ↔ k ∈ xs.map Prod.fst ∧ ws = valuesOf k xs := by
  induction xs using List.reverseRecOn generalizing ws with
  | nil => simp [groups]
  | append_singleton xs x ih =>
    obtain ⟨k₀, v⟩ := x
    rw [groups_concat, mem_push (nodup_groups xs), mem_keys_groups]
    simp only [ih, valuesOf, List.filter_append, List.map_append, List.mem_append]
    rcases eq_or_ne k k₀ with rfl | hk
    · by_cases hmem : k ∈ xs.map Prod.fst
      · simp [hmem, ih, valuesOf]
      · have hnil : xs.filter (fun x => x.1 = k) = [] := by
          refine List.filter_eq_nil_iff.2 fun y hy he => hmem ?_
          exact List.mem_map.2 ⟨y, hy, by simpa using he⟩
        simp [hmem, hnil, ih]
    · simp [hk, hk.symm]

theorem sum_push {M : Type*} [AddCommMonoid M] {f : List β → M}
    (hf : ∀ vs ws, f (vs ++ ws) = f vs + f ws) (k : κ) (v : β) : ∀ m : List (κ × List β),
    ((push k v m).map fun g => f g.2).sum = (m.map fun g => f g.2).sum + f [v]
  | [] => by simp [push]
  | (k', vs) :: m => by
    unfold push
    split_ifs with h
    · rw [List.map_cons, List.sum_cons, List.map_cons, List.sum_cons, hf, add_right_comm]
    · rw [List.map_cons, List.sum_cons, List.map_cons, List.sum_cons, sum_push hf k v m, add_assoc]

/-- What is additive on lists of values is the sum of what it is on the groups. -/
theorem sum_groups {M : Type*} [AddCommMonoid M] {f : List β → M} (h0 : f [] = 0)
    (hf : ∀ vs ws, f (vs ++ ws) = f vs + f ws) (xs : List (κ × β)) :
    ((groups xs).map fun g => f g.2).sum = f (xs.map Prod.snd) := by
  induction xs using List.reverseRecOn with
  | nil => exact h0.symm
  | append_singleton xs x ih =>
    rw [groups_concat, sum_push hf, ih, List.map_append, hf]
    rfl

/-- The values of a key, in a list of keyed values. -/
theorem valuesOf_map {α : Type*} (key : α → κ) (value : α → β) (k : κ) (l : List α) :
    valuesOf k (l.map fun a => (key a, value a)) =
      (l.filter fun a => key a = k).map value := by
  simp [valuesOf, List.filter_map, Function.comp_def]

end Grouping
