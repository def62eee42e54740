import Imgdl.Transition
import Mathlib.Data.Finset.Card
import Mathlib.Data.Finset.Option
import Mathlib.Logic.Function.Basic

/-!
# Processes interleaved over a shared state

`Par` is a shared state and one local state for each index. A process is a step
function on the shared state and one local state; `Par.step` lets any index take its
next step, so a run is an interleaving of any number of processes.

`Count p f n` says that exactly `n` of the local states `f` satisfy `p`. One local
state changes at a time (`Function.update`), and the three rules `Count.same`,
`Count.enter` and `Count.leave` say what that does to a count. `Permits` is the balance of
a semaphore : its free permits and the local states that hold one.

`logOf` is what a log of all processes says of one of them, and `Since` what it says of it after
a mark.
-/

set_option linter.unusedSectionVars false

namespace Interleaving

open Transition

variable {σ ι l ε : Type*} [DecidableEq ι]

/-- A shared state and the local states. -/
structure Par (σ ι l : Type*) where
  shared : σ
  locals : ι → l

/-- The process at an index takes a step. -/
def Par.step (proc : σ → l → ε → Option (σ × l)) (s : Par σ ι l) (e : ι × ε) :
    Option (Par σ ι l) :=
  (proc s.shared (s.locals e.1) e.2).map fun r => ⟨r.1, Function.update s.locals e.1 r.2⟩

/-- What a step of the interleaving is. -/
theorem Par.step_eq_some {proc : σ → l → ε → Option (σ × l)} {s s' : Par σ ι l} {i : ι}
    {e : ε} : Par.step proc s (i, e) = some s' ↔ ∃ c, proc s.shared (s.locals i) e =
      some (s'.shared, c) ∧ s'.locals = Function.update s.locals i c := by
  constructor
  · intro h
    obtain ⟨⟨t, c⟩, hp, rfl⟩ := Option.map_eq_some_iff.1 h
    exact ⟨c, hp, rfl⟩
  · rintro ⟨c, hp, hl⟩
    obtain ⟨t, f⟩ := s'
    obtain rfl : f = _ := hl
    exact Option.map_eq_some_iff.2 ⟨_, hp, rfl⟩

/-- Steps of one index leave the other local states alone. -/
theorem Par.step_other {proc : σ → l → ε → Option (σ × l)} {s s' : Par σ ι l} {i j : ι} {e : ε}
    (h : Par.step proc s (i, e) = some s') (hij : j ≠ i) : s'.locals j = s.locals j := by
  obtain ⟨c, -, hl⟩ := Par.step_eq_some.1 h
  rw [hl, Function.update_of_ne hij]

/-- A run of one process is a run of the interleaving. -/
theorem Par.run_local {proc : σ → l → ε → Option (σ × l)} {i : ι} {t : σ} {c : l} :
    ∀ {es : List ε} {s : Par σ ι l},
      run (fun (x : σ × l) e => proc x.1 x.2 e) (s.shared, s.locals i) es = some (t, c) →
        run (Par.step proc) s (es.map fun e => (i, e)) = some ⟨t, Function.update s.locals i c⟩
  | [], s, h => by
    obtain ⟨rfl, rfl⟩ := Prod.mk.inj (Option.some.inj h)
    rw [Function.update_eq_self]
    rfl
  | e :: es, s, h => by
    obtain ⟨⟨t', c'⟩, hs, h⟩ := run_cons.1 h
    have hstep : Par.step proc s (i, e) = some ⟨t', Function.update s.locals i c'⟩ :=
      Par.step_eq_some.2 ⟨c', hs, rfl⟩
    have ih : run (Par.step proc) ⟨t', Function.update s.locals i c'⟩ (es.map fun e => (i, e)) =
        some ⟨t, Function.update (Function.update s.locals i c') i c⟩ :=
      Par.run_local (by simpa using h)
    rw [Function.update_idem] at ih
    exact run_cons.2 ⟨_, hstep, ih⟩

/-- A property of one local state that the steps of its process keep, whatever the shared
state, in the runs whose steps of its index meet a condition. -/
theorem Par.local_run_invariant {proc : σ → l → ε → Option (σ × l)} {I : l → Prop}
    {C : l → ε → Prop} {i : ι}
    (hproc : ∀ t c e t' c', I c → C c e → proc t c e = some (t', c') → I c')
    {s s' : Par σ ι l} (h0 : I (s.locals i)) {es : List (ι × ε)}
    (hm : Meets (Par.step proc) (fun s e => e.1 = i → C (s.locals i) e.2) s es)
    (hr : run (Par.step proc) s es = some s') : I (s'.locals i) := by
  refine run_invariant (I := fun s => I (s.locals i)) (fun s e s' hI hok hs => ?_) h0 hm hr
  obtain ⟨j, e⟩ := e
  rcases eq_or_ne i j with rfl | hij
  · obtain ⟨c, hp, hl⟩ := Par.step_eq_some.1 hs
    rw [hl, Function.update_self]
    exact hproc _ _ _ _ _ hI (hok rfl) hp
  · rw [Par.step_other hs hij]
    exact hI

/-- An entry of an updated family is the new one or one of the others. -/
theorem update_eq_some {α : Type*} {f : ι → Option α} {i j : ι} {a b : α}
    (h : Function.update f i (some a) j = some b) : (j = i ∧ b = a) ∨ (j ≠ i ∧ f j = some b) := by
  rcases eq_or_ne j i with rfl | hj
  · exact Or.inl ⟨rfl, by simpa [eq_comm] using h⟩
  · exact Or.inr ⟨hj, by simpa [hj] using h⟩

/-- Exactly `n` of the local states satisfy `p`. -/
def Count (p : l → Prop) (f : ι → l) (n : ℕ) : Prop :=
  ∃ t : Finset ι, (∀ i, i ∈ t ↔ p (f i)) ∧ t.card = n

namespace Count

variable {p q : l → Prop} {f : ι → l} {i : ι} {c : l} {n m : ℕ}

theorem zero (h : ∀ i, ¬p (f i)) : Count p f 0 :=
  ⟨∅, fun i => by simp [h i], rfl⟩

theorem eq_zero_iff : Count p f 0 ↔ ∀ i, ¬p (f i) := by
  refine ⟨?_, zero⟩
  rintro ⟨t, ht, h0⟩ i hi
  rw [Finset.card_eq_zero.1 h0] at ht
  exact absurd ((ht i).2 hi) (by simp)

theorem pos (h : Count p f n) (hi : p (f i)) : 0 < n := by
  obtain ⟨t, ht, rfl⟩ := h
  exact Finset.card_pos.2 ⟨i, (ht i).2 hi⟩

theorem two_le {j : ι} (h : Count p f n) (hij : i ≠ j) (hi : p (f i)) (hj : p (f j)) : 2 ≤ n := by
  obtain ⟨t, ht, rfl⟩ := h
  exact Finset.one_lt_card.2 ⟨i, (ht i).2 hi, j, (ht j).2 hj, hij⟩

theorem unique (h : Count p f n) (h' : Count p f m) : n = m := by
  obtain ⟨t, ht, rfl⟩ := h
  obtain ⟨u, hu, rfl⟩ := h'
  rw [Finset.ext fun i => (ht i).trans (hu i).symm]

/-- A step that keeps `p` of its own local state keeps the count. -/
theorem same (h : Count p f n) (hc : p c ↔ p (f i)) : Count p (Function.update f i c) n := by
  obtain ⟨t, ht, hn⟩ := h
  refine ⟨t, fun j => ?_, hn⟩
  rcases eq_or_ne j i with rfl | hj
  · rw [Function.update_self, ht, hc]
  · rw [Function.update_of_ne hj, ht]

/-- A step into `p` adds one. -/
theorem enter (h : Count p f n) (hi : ¬p (f i)) (hc : p c) :
    Count p (Function.update f i c) (n + 1) := by
  obtain ⟨t, ht, rfl⟩ := h
  refine ⟨insert i t, fun j => ?_, Finset.card_insert_of_notMem fun hit => hi ((ht i).1 hit)⟩
  rcases eq_or_ne j i with rfl | hj
  · simp [hc]
  · simp [hj, ht]

/-- A step out of `p` removes one. -/
theorem leave (h : Count p f n) (hi : p (f i)) (hc : ¬p c) :
    Count p (Function.update f i c) (n - 1) := by
  obtain ⟨t, ht, rfl⟩ := h
  refine ⟨t.erase i, fun j => ?_, Finset.card_erase_of_mem ((ht i).2 hi)⟩
  rcases eq_or_ne j i with rfl | hj
  · simp [hc]
  · simp [hj, ht]

/-- A step adds at most one, and nothing if it does not lead into `p`. -/
theorem update_le (h : Count p f n) (i : ι) (c : l) :
    ∃ m, Count p (Function.update f i c) m ∧ m ≤ n + 1 ∧ ((p c → p (f i)) → m ≤ n) := by
  by_cases hi : p (f i) <;> by_cases hc : p c
  · exact ⟨n, h.same (iff_of_true hc hi), Nat.le_succ n, fun _ => le_refl n⟩
  · exact ⟨n - 1, h.leave hi hc, by omega, fun _ => Nat.sub_le n 1⟩
  · exact ⟨n + 1, h.enter hi hc, le_refl _, fun hpc => absurd (hpc hc) hi⟩
  · exact ⟨n, h.same (iff_of_false hc hi), Nat.le_succ n, fun _ => le_refl n⟩

/-- A step trades what its local state was for what it becomes. -/
theorem update [DecidablePred p] (h : Count p f n) (i : ι) (c : l) :
    ∃ m, Count p (Function.update f i c) m ∧
      m + (if p (f i) then 1 else 0) = n + if p c then 1 else 0 := by
  by_cases hi : p (f i) <;> by_cases hc : p c
  · exact ⟨n, h.same (iff_of_true hc hi), by simp [hi, hc]⟩
  · have := h.pos hi
    exact ⟨n - 1, h.leave hi hc, by simp only [hi, hc, if_true, if_false]; omega⟩
  · exact ⟨n + 1, h.enter hi hc, by simp [hi, hc]⟩
  · exact ⟨n, h.same (iff_of_false hc hi), by simp [hi, hc]⟩

theorem exists_of_pos (h : Count p f n) (hn : 0 < n) : ∃ i, p (f i) := by
  by_contra hnone
  push Not at hnone
  exact hn.ne' (h.unique (.zero hnone))

/-- What satisfies a stronger property can be counted too. -/
theorem exists_of_imp (h : Count q f m) (hpq : ∀ i, p (f i) → q (f i)) :
    ∃ n, Count p f n ∧ n ≤ m := by
  classical
  obtain ⟨u, hu, rfl⟩ := h
  refine ⟨(u.filter fun i => p (f i)).card, ⟨_, fun i => ?_, rfl⟩, Finset.card_filter_le _ _⟩
  rw [Finset.mem_filter, hu]
  exact ⟨fun h => h.2, fun h => ⟨hpq _ h, h⟩⟩

/-- Local states that each have a place of their own in `places` can be counted, and are no more
than the places. -/
theorem exists_of_places {β : Type*} (places : Finset β) (at_ : ι → β → Prop)
    (hplace : ∀ i, p (f i) → ∃ b ∈ places, at_ i b)
    (hown : ∀ i j b, p (f i) → p (f j) → at_ i b → at_ j b → i = j) :
    ∃ n, Count p f n ∧ n ≤ places.card := by
  classical
  let tenant : β → Option ι := fun b =>
    if h : ∃ i, p (f i) ∧ at_ i b then some h.choose else none
  have htenant : ∀ b i, tenant b = some i ↔ p (f i) ∧ at_ i b := by
    intro b i
    by_cases h : ∃ i, p (f i) ∧ at_ i b
    · simp only [tenant, dif_pos h, Option.some.injEq]
      constructor
      · rintro rfl
        exact h.choose_spec
      · rintro ⟨hi, hb⟩
        exact hown _ _ b h.choose_spec.1 hi h.choose_spec.2 hb
    · simp only [tenant, dif_neg h, reduceCtorEq, false_iff]
      exact fun hi => h ⟨i, hi⟩
  refine ⟨(places.image tenant).eraseNone.card, ⟨_, fun i => ?_, rfl⟩, ?_⟩
  · simp only [Finset.mem_eraseNone, Finset.mem_image, htenant]
    constructor
    · rintro ⟨b, -, hi, -⟩
      exact hi
    · intro hi
      obtain ⟨b, hb, hat⟩ := hplace i hi
      exact ⟨b, hb, hi, hat⟩
  · exact (Finset.card_eraseNone_le _).trans Finset.card_image_le

end Count

/-- Of `cap` permits, `free` are free, and each local state that satisfies `holds` has
one of the others. -/
def Permits (cap free : ℕ) (holds : l → Prop) (f : ι → l) : Prop :=
  ∃ n, Count holds f n ∧ free + n = cap

namespace Permits

variable {holds : l → Prop} {f : ι → l} {i : ι} {c : l} {cap free n : ℕ}

/-- Nobody holds a permit yet. -/
theorem full (h : ∀ i, ¬holds (f i)) : Permits cap cap holds f :=
  ⟨0, .zero h, rfl⟩

theorem same (h : Permits cap free holds f) (hc : holds c ↔ holds (f i)) :
    Permits cap free holds (Function.update f i c) := by
  obtain ⟨n, hn, hsum⟩ := h
  exact ⟨n, hn.same hc, hsum⟩

/-- A free permit is taken. -/
theorem take (h : Permits cap free holds f) (hfree : 0 < free) (hi : ¬holds (f i))
    (hc : holds c) : Permits cap (free - 1) holds (Function.update f i c) := by
  obtain ⟨n, hn, hsum⟩ := h
  exact ⟨n + 1, hn.enter hi hc, by omega⟩

/-- A permit goes back. -/
theorem give (h : Permits cap free holds f) (hi : holds (f i)) (hc : ¬holds c) :
    Permits cap (free + 1) holds (Function.update f i c) := by
  obtain ⟨n, hn, hsum⟩ := h
  have hpos := hn.pos hi
  exact ⟨n - 1, hn.leave hi hc, by omega⟩

/-- With no permit free, somebody holds one. -/
theorem exists_holds (h : Permits cap 0 holds f) (hcap : 0 < cap) : ∃ i, holds (f i) := by
  obtain ⟨n, hn, hsum⟩ := h
  exact hn.exists_of_pos (by omega)

/-- With nobody to hold one, every permit is free. -/
theorem free_eq (h : Permits cap free holds f) (hnone : ∀ i, ¬holds (f i)) : free = cap := by
  obtain ⟨n, hn, hsum⟩ := h
  rwa [hn.unique (.zero hnone)] at hsum

end Permits

section Logs

variable {α : Type*} {i j : ι} {L : List (ι × α)} {mark : α} {before : List (ι × α)}
  {own : List α}

/-- The entries of one index, in order. -/
def logOf (i : ι) (L : List (ι × α)) : List α :=
  (L.filter fun e => e.1 = i).map Prod.snd

/-- The log says `own` of the index `i` after a mark of that index, which it has after
`before`. -/
def Since (L : List (ι × α)) (i : ι) (mark : α) (before : List (ι × α)) (own : List α) : Prop :=
  ∃ after, L = before ++ (i, mark) :: after ∧ logOf i after = own

theorem logOf_append (i : ι) (L L' : List (ι × α)) :
    logOf i (L ++ L') = logOf i L ++ logOf i L' := by
  rw [logOf, List.filter_append, List.map_append, logOf, logOf]

theorem logOf_self (i : ι) (l : List α) : logOf i (l.map fun x => (i, x)) = l := by
  induction l with
  | nil => rfl
  | cons x l ih =>
    rw [logOf] at ih ⊢
    rw [List.map_cons, List.filter_cons_of_pos (by simp), List.map_cons, ih]

theorem logOf_other (h : i ≠ j) (l : List α) : logOf i (l.map fun x => (j, x)) = [] := by
  induction l with
  | nil => rfl
  | cons x l ih =>
    rw [logOf] at ih ⊢
    rw [List.map_cons, List.filter_cons_of_neg (by simpa using Ne.symm h), ih]

theorem mem_of_mem_logOf {x : α} (h : x ∈ logOf i L) : (i, x) ∈ L := by
  obtain ⟨⟨j, y⟩, hmem, rfl⟩ := List.mem_map.1 h
  obtain ⟨hL, hj⟩ := List.mem_filter.1 hmem
  obtain rfl : j = i := of_decide_eq_true hj
  exact hL

namespace Since

theorem start (L : List (ι × α)) (i : ι) (mark : α) : Since (L ++ [(i, mark)]) i mark L [] :=
  ⟨[], rfl, rfl⟩

/-- The index itself goes on. -/
theorem self (h : Since L i mark before own) (l : List α) :
    Since (L ++ l.map fun x => (i, x)) i mark before (own ++ l) := by
  obtain ⟨after, rfl, rfl⟩ := h
  refine ⟨after ++ l.map fun x => (i, x), by rw [List.append_assoc, List.cons_append], ?_⟩
  rw [logOf_append, logOf_self]

/-- Another index goes on. -/
theorem other (h : Since L i mark before own) (hij : i ≠ j) (l : List α) :
    Since (L ++ l.map fun x => (j, x)) i mark before own := by
  obtain ⟨after, rfl, rfl⟩ := h
  refine ⟨after ++ l.map fun x => (j, x), by rw [List.append_assoc, List.cons_append], ?_⟩
  rw [logOf_append, logOf_other hij, List.append_nil]

theorem mem (h : Since L i mark before own) {x : α} (hx : x ∈ own) : (i, x) ∈ L := by
  obtain ⟨after, rfl, rfl⟩ := h
  exact List.mem_append_right _ (List.mem_cons_of_mem _ (mem_of_mem_logOf hx))

end Since

end Logs

end Interleaving
