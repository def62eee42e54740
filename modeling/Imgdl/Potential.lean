import Imgdl.Interleaving
import Mathlib.Algebra.BigOperators.Group.Finset.Basic
import Mathlib.Algebra.Order.BigOperators.Group.Finset
import Mathlib.Algebra.Group.Action.Defs
import Mathlib.Order.Interval.Finset.Nat
import Mathlib.Order.OrderIsoNat

/-!
# Potentials

A potential is a number of a state that every step lowers by at least what it costs, so
the steps of a run cost at most the potential of its first state (`spent_add_le`). If every
step lowers it, and a system that is not done has a step, then a run no longer than the
potential leads to a state in which it is done (`exists_run_done`).

Where one step may open any number of further ones, the potential is in a well-founded order
(`exists_run_descent`), and of an infinite run only finitely many steps lower it
(`Endless.finite_lowering`).

The potential of a family of local states is the `total` of theirs. A step that changes one
of them trades its share (`total_update`).
-/

namespace Transition

variable {S E : Type*} {step : S → E → Option S}

/-- What the steps of the run from `s` cost. -/
def spent (step : S → E → Option S) (cost : S → E → ℕ) (s : S) (es : List E) : ℕ :=
  record step (fun s e n => n + cost s e) s es 0

/-- A run costs at most what it takes off the potential. -/
theorem spent_add_le (I : S → Prop) (cost : S → E → ℕ) (pot : S → ℕ)
    (hstep : ∀ s e s', I s → step s e = some s' → I s' ∧ cost s e + pot s' ≤ pot s) {s s' : S}
    {es : List E} (h0 : I s) (hr : run step s es = some s') :
    spent step cost s es + pot s' ≤ pot s := by
  have hrun : I s' ∧ spent step cost s es + pot s' ≤ pot s := by
    refine run_record (I := fun n t => I t ∧ n + pot t ≤ pot s) (fun n t e t' h hs => ?_)
      ⟨h0, by omega⟩ hr
    obtain ⟨hI, hpay⟩ := hstep t e t' h.1 hs
    exact ⟨hI, by omega⟩
  exact hrun.2

/-- At a cost of one for each event that `p` picks, a run costs the number of these. -/
theorem spent_countP {p : E → Bool} {s s' : S} {es : List E} (hr : run step s es = some s') :
    spent step (fun _ e => if p e then 1 else 0) s es = es.countP p := by
  have count : ∀ {es : List E} {s : S} (n : ℕ), run step s es = some s' →
      record step (fun _ e n => n + if p e then 1 else 0) s es n = n + es.countP p := by
    intro es
    induction es with
    | nil => intros; rfl
    | cons e es ih =>
      intro s n hr
      obtain ⟨t, ht, hr⟩ := run_cons.1 hr
      simp only [record, ht]
      rw [ih _ hr, List.countP_cons]
      omega
  rw [spent, count 0 hr, Nat.zero_add]

/-- Steps that lower the potential lead to a state in which the system is done. -/
theorem exists_run_done (I done : S → Prop) (ok : S → E → Prop) (pot : S → ℕ)
    (hstep : ∀ s e s', I s → ok s e → step s e = some s' → I s' ∧ pot s' < pot s)
    (hgo : ∀ s, I s → ¬done s → ∃ e s', ok s e ∧ step s e = some s') {s : S} (h0 : I s) :
    ∃ es s', run step s es = some s' ∧ Meets step ok s es ∧ es.length ≤ pot s ∧ I s' ∧
      done s' := by
  induction hn : pot s using Nat.strong_induction_on generalizing s with
  | _ n ih =>
    by_cases hd : done s
    · exact ⟨[], s, rfl, trivial, Nat.zero_le _, h0, hd⟩
    · obtain ⟨e, t, he, ht⟩ := hgo s h0 hd
      obtain ⟨hI, hlt⟩ := hstep s e t h0 he ht
      obtain ⟨es, s', hr, hall, hlen, hI', hdone⟩ := ih (pot t) (hn ▸ hlt) hI rfl
      refine ⟨e :: es, s', run_cons.2 ⟨t, ht, hr⟩, .cons ht he hall, ?_, hI', hdone⟩
      rw [List.length_cons]
      omega

/-- An infinite run, with its events. -/
def Endless (step : S → E → Option S) (s : ℕ → S) (e : ℕ → E) : Prop :=
  ∀ n, step (s n) (e n) = some (s (n + 1))

section WellFounded

variable {β : Type*} [PartialOrder β] [WellFoundedLT β]

/-- The same for a potential in a well-founded order, which bounds no length. -/
theorem exists_run_descent (I done : S → Prop) (ok : S → E → Prop) (pot : S → β)
    (hstep : ∀ s e s', I s → ok s e → step s e = some s' → I s' ∧ pot s' < pot s)
    (hgo : ∀ s, I s → ¬done s → ∃ e s', ok s e ∧ step s e = some s') {s : S} (h0 : I s) :
    ∃ es s', run step s es = some s' ∧ Meets step ok s es ∧ I s' ∧ done s' := by
  induction hn : pot s using WellFoundedLT.induction generalizing s with
  | _ n ih =>
    by_cases hd : done s
    · exact ⟨[], s, rfl, trivial, h0, hd⟩
    · obtain ⟨e, t, he, ht⟩ := hgo s h0 hd
      obtain ⟨hI, hlt⟩ := hstep s e t h0 he ht
      obtain ⟨es, s', hr, hall, hI', hdone⟩ := ih (pot t) (hn ▸ hlt) hI rfl
      exact ⟨e :: es, s', run_cons.2 ⟨t, ht, hr⟩, .cons ht he hall, hI', hdone⟩

namespace Endless

variable {s : ℕ → S} {e : ℕ → E}

theorem invariant {I : S → Prop} (hstep : ∀ s e s', I s → step s e = some s' → I s')
    (h0 : I (s 0)) (hs : Endless step s e) : ∀ n, I (s n)
  | 0 => h0
  | n + 1 => hstep _ _ _ (invariant hstep h0 hs n) (hs n)

theorem tail (hs : Endless step s e) (n : ℕ) :
    Endless step (fun i => s (n + i)) fun i => e (n + i) :=
  fun i => hs (n + i)

/-- A run and an infinite run from its end are an infinite run. -/
theorem of_run : ∀ {es : List E} {s₀ : S}, run step s₀ es = some (s 0) → Endless step s e →
    ∃ s' e', Endless step s' e' ∧ s' 0 = s₀ ∧ ∀ n, s' (es.length + n) = s n ∧
      e' (es.length + n) = e n
  | [], _, hr, hs => ⟨s, e, hs, (Option.some.inj hr).symm, fun n => by simp⟩
  | e₀ :: es, s₀, hr, hs => by
    obtain ⟨t, ht, hr⟩ := run_cons.1 hr
    obtain ⟨s', e', hs', h0, hall⟩ := of_run hr hs
    refine ⟨fun n => n.casesOn (motive := fun _ => S) s₀ s',
      fun n => n.casesOn (motive := fun _ => E) e₀ e', fun n => ?_, rfl, fun n => ?_⟩
    · cases n with
      | zero => exact ht.trans (congrArg some h0.symm)
      | succ n => exact hs' n
    · have hn := hall n
      rw [List.length_cons, Nat.add_right_comm]
      exact hn

/-- If no step raises the potential, only finitely many lower it. -/
theorem finite_lowering (I : S → Prop) (p : E → Prop) (pot : S → β)
    (hstep : ∀ s e s', I s → step s e = some s' →
      I s' ∧ pot s' ≤ pot s ∧ (p e → pot s' < pot s)) (h0 : I (s 0)) (hs : Endless step s e) :
    {n | p (e n)}.Finite := by
  have hI := hs.invariant (fun s e s' h hs => (hstep s e s' h hs).1) h0
  have hanti : Antitone (pot ∘ s) := antitone_nat_of_succ_le fun n =>
    (hstep _ _ _ (hI n) (hs n)).2.1
  obtain ⟨n, hconst⟩ := WellFoundedLT.antitone_chain_condition hanti
  refine (Set.finite_Iio n).subset fun m hm => ?_
  by_contra hle
  have hnm : n ≤ m := not_lt.1 hle
  have hlt : pot (s (m + 1)) < pot (s m) := (hstep _ _ _ (hI m) (hs m)).2.2 hm
  have heq : pot (s m) = pot (s (m + 1)) := (hconst m hnm).symm.trans (hconst _ (by omega))
  exact hlt.ne' heq

end Endless

end WellFounded

end Transition

namespace Interleaving

variable {l : Type*} {w : l → ℕ} {f : ℕ → l} {n : ℕ}

/-- What the first `n` local states come to. -/
def total (w : l → ℕ) (f : ℕ → l) (n : ℕ) : ℕ :=
  ∑ i ∈ Finset.range n, w (f i)

/-- A step of one local state trades its share. -/
theorem total_update {i : ℕ} (hi : i < n) (c : l) :
    total w (Function.update f i c) n + w (f i) = total w f n + w c := by
  have hmem : i ∈ Finset.range n := Finset.mem_range.2 hi
  have hrest : ∑ j ∈ (Finset.range n).erase i, w (Function.update f i c j) =
      ∑ j ∈ (Finset.range n).erase i, w (f j) :=
    Finset.sum_congr rfl fun j hj => by rw [Function.update_of_ne (Finset.ne_of_mem_erase hj)]
  rw [total, total, ← Finset.add_sum_erase _ _ hmem, ← Finset.add_sum_erase _ _ hmem, hrest,
    Function.update_self]
  omega

theorem total_le {B : ℕ} (h : ∀ i < n, w (f i) ≤ B) : total w f n ≤ n * B := by
  have hle := Finset.sum_le_card_nsmul (Finset.range n) (fun i => w (f i)) B fun i hi =>
    h i (Finset.mem_range.1 hi)
  rwa [Finset.card_range, smul_eq_mul] at hle

end Interleaving
