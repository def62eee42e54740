import Mathlib.Logic.Function.Basic

/-!
# Tokens in places

`c : π → Option τ` says which token, if any, is in each place. `Exclusive c` : no token is
in two places. `Gone c t` : the token is nowhere.

A `Move` changes one token : it is minted into an empty place, carried from one place to
an empty one, or dropped. A move overwrites nothing, keeps custody exclusive, and a token
that is gone stays gone unless it is minted.
-/

namespace Custody

variable {π τ : Type*} [DecidableEq π]

/-- No token is in two places. -/
def Exclusive (c : π → Option τ) : Prop :=
  ∀ p q t, c p = some t → c q = some t → p = q

/-- The token is in no place. -/
def Gone (c : π → Option τ) (t : τ) : Prop :=
  ∀ p, c p ≠ some t

/-- What one step may do to the tokens. -/
inductive Move (minted : τ → Prop) (c : π → Option τ) : (π → Option τ) → Prop where
  | stay : Move minted c c
  | mint {p : π} {t : τ} : minted t → Gone c t → c p = none →
    Move minted c (Function.update c p (some t))
  | carry {p q : π} {t : τ} : c p = some t → c q = none →
    Move minted c (Function.update (Function.update c p none) q (some t))
  | drop {p : π} : Move minted c (Function.update c p none)

variable {minted : τ → Prop} {c c' : π → Option τ} {t : τ}

theorem update_none_eq_some {p r : π} :
    Function.update c p none r = some t ↔ r ≠ p ∧ c r = some t := by
  rcases eq_or_ne r p with rfl | h <;> simp_all [Function.update_of_ne]

theorem update_some_eq_some {p r : π} {u : τ} :
    Function.update c p (some u) r = some t ↔ (r = p ∧ u = t) ∨ (r ≠ p ∧ c r = some t) := by
  rcases eq_or_ne r p with rfl | h <;> simp_all [Function.update_of_ne]

/-- Where a token is after a move, unless it was minted : it was there, or it was carried
there. -/
theorem Move.source (m : Move minted c c') {r : π} (h : c' r = some t) (ht : ¬minted t) :
    ∃ p, c p = some t := by
  cases m with
  | stay => exact ⟨r, h⟩
  | mint hm _ _ =>
    rcases update_some_eq_some.1 h with ⟨-, rfl⟩ | ⟨-, h'⟩
    · exact absurd hm ht
    · exact ⟨r, h'⟩
  | carry hu _ =>
    rcases update_some_eq_some.1 h with ⟨-, rfl⟩ | ⟨-, h'⟩
    · exact ⟨_, hu⟩
    · exact ⟨r, (update_none_eq_some.1 h').2⟩
  | drop => exact ⟨r, (update_none_eq_some.1 h).2⟩

theorem Exclusive.move (h : Exclusive c) (m : Move minted c c') : Exclusive c' := by
  intro p q t hp hq
  cases m with
  | stay => exact h p q t hp hq
  | mint _ hg _ =>
    rcases update_some_eq_some.1 hp with ⟨hpr, hu⟩ | ⟨-, hp'⟩ <;>
      rcases update_some_eq_some.1 hq with ⟨hqr, hu'⟩ | ⟨-, hq'⟩
    · exact hpr.trans hqr.symm
    · exact absurd (hu ▸ hq') (hg q)
    · exact absurd (hu' ▸ hp') (hg p)
    · exact h p q t hp' hq'
  | carry ht _ =>
    -- the carried token was in the source place only, which is empty now
    rcases update_some_eq_some.1 hp with ⟨hpr, hu⟩ | ⟨-, hp'⟩ <;>
      rcases update_some_eq_some.1 hq with ⟨hqr, hu'⟩ | ⟨-, hq'⟩
    · exact hpr.trans hqr.symm
    · obtain ⟨hne, hq'⟩ := update_none_eq_some.1 hq'
      exact absurd (h _ _ _ hq' (hu ▸ ht)) hne
    · obtain ⟨hne, hp'⟩ := update_none_eq_some.1 hp'
      exact absurd (h _ _ _ hp' (hu' ▸ ht)) hne
    · exact h p q t (update_none_eq_some.1 hp').2 (update_none_eq_some.1 hq').2
  | drop => exact h p q t (update_none_eq_some.1 hp).2 (update_none_eq_some.1 hq).2

/-- A token that is nowhere comes back only by being minted. -/
theorem Gone.move (h : Gone c t) (ht : ¬minted t) (m : Move minted c c') : Gone c' t := by
  intro p hp
  obtain ⟨q, hq⟩ := m.source hp ht
  exact h q hq

end Custody
