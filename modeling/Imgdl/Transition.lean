import Mathlib.Data.Nat.Notation
import Mathlib.Data.Option.Basic
import Mathlib.Logic.Relation

/-!
# Runs of a labelled step function

A system is a partial step function `step : S → E → Option S`. The event says
everything the environment decides, so a run is a list of events and can be
evaluated. `run` folds the step function, `Reaches` forgets the events, and `Meets`
is the run-wide form of a condition on the state before a step, `checks` one that can be
evaluated. `record` keeps what an observer of a run notes at its steps.

`run_invariant` is the induction every invariant of a system goes through :
preserved by the steps that meet a condition, it holds after every run whose steps
all meet it. `run_simulates` carries a run along a map of states, one step to a run, and
`run_simulates_record` its record with it.
-/

namespace Transition

variable {S T E E' H : Type*} {step : S → E → Option S} {step' : T → E' → Option T}

/-- Take the events in order, from `s`. -/
def run (step : S → E → Option S) : S → List E → Option S
  | s, [] => some s
  | s, e :: es => (step s e).bind fun s' => run step s' es

/-- Some run leads from `s` to `s'`. -/
def Reaches (step : S → E → Option S) (s s' : S) : Prop :=
  ∃ es, run step s es = some s'

/-- Every step of the run from `s` is taken in a state that meets `ok`. -/
def Meets (step : S → E → Option S) (ok : S → E → Prop) : S → List E → Prop
  | _, [] => True
  | s, e :: es => ok s e ∧ ∀ s', step s e = some s' → Meets step ok s' es

/-- A record of the run from `s`, with a note of each step in the state before it. -/
def record (step : S → E → Option S) (note : S → E → H → H) : S → List E → H → H
  | _, [], h => h
  | s, e :: es, h => match step s e with
    | some s' => record step note s' es (note s e h)
    | none => h

/-- A check of every step of the run from `s`. -/
def checks (step : S → E → Option S) (check : S → E → Bool) : S → List E → Bool
  | _, [] => true
  | s, e :: es => check s e && match step s e with
    | some s' => checks step check s' es
    | none => true

@[simp] theorem run_nil (s : S) : run step s [] = some s :=
  rfl

theorem run_cons {s s' : S} {e : E} {es : List E} :
    run step s (e :: es) = some s' ↔ ∃ t, step s e = some t ∧ run step t es = some s' := by
  simp [run, Option.bind_eq_some_iff]

theorem run_singleton {s s' : S} {e : E} (h : step s e = some s') :
    run step s [e] = some s' := by
  simp [run, h]

theorem run_append {s t : S} : ∀ {es es' : List E}, run step s es = some t →
    run step s (es ++ es') = run step t es'
  | [], _, h => by
    obtain rfl := Option.some.inj h
    rfl
  | e :: es, es', h => by
    obtain ⟨u, hu, h⟩ := run_cons.1 h
    rw [List.cons_append, run, hu]
    exact run_append h

namespace Reaches

theorem refl (s : S) : Reaches step s s :=
  ⟨[], rfl⟩

theorem single {s s' : S} {e : E} (h : step s e = some s') : Reaches step s s' :=
  ⟨[e], run_singleton h⟩

theorem trans {s t u : S} : Reaches step s t → Reaches step t u → Reaches step s u := by
  rintro ⟨es, h⟩ ⟨es', h'⟩
  exact ⟨es ++ es', (run_append h).trans h'⟩

end Reaches

namespace Meets

variable {ok ok' : S → E → Prop}

theorem cons {s t : S} {e : E} {es : List E} (ht : step s e = some t) (he : ok s e)
    (h : Meets step ok t es) : Meets step ok s (e :: es) :=
  ⟨he, fun _ hs => Option.some.inj (ht.symm.trans hs) ▸ h⟩

theorem mono (h : ∀ s e, ok s e → ok' s e) : ∀ {s : S} {es : List E},
    Meets step ok s es → Meets step ok' s es
  | _, [], _ => trivial
  | _, _ :: _, hm => ⟨h _ _ hm.1, fun s' hs => (hm.2 s' hs).mono h⟩

theorem of_forall (h : ∀ s e, ok s e) : ∀ (s : S) (es : List E), Meets step ok s es
  | _, [] => trivial
  | _, _ :: es => ⟨h _ _, fun s' _ => of_forall h s' es⟩

/-- A condition on the events alone. -/
theorem of_events {p : E → Prop} (h : ∀ s e, p e → ok s e) : ∀ {es : List E} {s : S},
    (∀ e ∈ es, p e) → Meets step ok s es
  | [], _, _ => trivial
  | _ :: _, _, hp => ⟨h _ _ (hp _ (by simp)), fun _ _ =>
    of_events h fun e he => hp e (List.mem_cons_of_mem _ he)⟩

/-- A condition that is checked along the run. -/
theorem of_checks {check : S → E → Bool} (h : ∀ s e, check s e = true → ok s e) :
    ∀ {es : List E} {s : S}, checks step check s es = true → Meets step ok s es
  | [], _, _ => trivial
  | e :: es, s, hc => by
    obtain ⟨he, hrest⟩ := Bool.and_eq_true_iff.1 hc
    refine ⟨h s e he, fun t ht => of_checks h ?_⟩
    simpa [ht] using hrest

theorem and : ∀ {es : List E} {s : S}, Meets step ok s es → Meets step ok' s es →
    Meets step (fun s e => ok s e ∧ ok' s e) s es
  | [], _, _, _ => trivial
  | _ :: _, _, h, h' => ⟨⟨h.1, h'.1⟩, fun t ht => (h.2 t ht).and (h'.2 t ht)⟩

theorem append {t : S} : ∀ {s : S} {es es' : List E}, Meets step ok s es →
    run step s es = some t → Meets step ok t es' → Meets step ok s (es ++ es')
  | _, [], _, _, hr, h' => by
    obtain rfl := Option.some.inj hr
    exact h'
  | _, _ :: _, _, hm, hr, h' => by
    obtain ⟨u, hu, hr⟩ := run_cons.1 hr
    refine ⟨hm.1, fun s' hs => ?_⟩
    obtain rfl : u = s' := Option.some.inj (hu.symm.trans hs)
    exact (hm.2 u hu).append hr h'

/-- The rest of a run meets the condition too. -/
theorem suffix {t : S} : ∀ {s : S} {es es' : List E}, Meets step ok s (es ++ es') →
    run step s es = some t → Meets step ok t es'
  | _, [], _, hm, hr => by
    obtain rfl := Option.some.inj hr
    exact hm
  | _, _ :: _, _, hm, hr => by
    obtain ⟨u, hu, hr⟩ := run_cons.1 hr
    exact (hm.2 u hu).suffix hr

end Meets

/-- What comes to hold in a run comes to hold at one of its steps. -/
theorem exists_entered {P : S → Prop} : ∀ {es : List E} {s s' : S}, run step s es = some s' →
    ¬P s → P s' → ∃ pre e post t t', es = pre ++ e :: post ∧ run step s pre = some t ∧
      step t e = some t' ∧ run step t' post = some s' ∧ ¬P t ∧ P t'
  | [], _, _, hr, h0, hP => by
    obtain rfl := Option.some.inj hr
    exact absurd hP h0
  | e :: es, s, _, hr, h0, hP => by
    obtain ⟨t, ht, hr⟩ := run_cons.1 hr
    by_cases hPt : P t
    · exact ⟨[], e, es, s, t, rfl, rfl, ht, hr, h0, hPt⟩
    · obtain ⟨pre, e', post, u, u', rfl, hpre, hu, hpost, hnot, hyes⟩ := exists_entered hr hPt hP
      exact ⟨e :: pre, e', post, u, u', rfl, run_cons.2 ⟨t, ht, hpre⟩, hu, hpost, hnot, hyes⟩

/-- A property kept by every step that meets `ok` holds after every run that does. -/
theorem run_invariant {ok : S → E → Prop} {I : S → Prop}
    (hstep : ∀ s e s', I s → ok s e → step s e = some s' → I s') {s s' : S} (h0 : I s) :
    ∀ {es : List E}, Meets step ok s es → run step s es = some s' → I s' := by
  intro es
  induction es generalizing s with
  | nil =>
    intro _ hr
    obtain rfl := Option.some.inj hr
    exact h0
  | cons e es ih =>
    intro hm hr
    obtain ⟨t, ht, hr⟩ := run_cons.1 hr
    exact ih (hstep s e t h0 hm.1 ht) (hm.2 t ht) hr

/-- An invariant of the runs that meet `ok` can be used for a condition on their steps. -/
theorem Meets.of_invariant {ok ok' : S → E → Prop} {I : S → Prop}
    (hstep : ∀ s e s', I s → ok s e → step s e = some s' → I s')
    (hok : ∀ s e, I s → ok s e → ok' s e) : ∀ {s : S} {es : List E}, I s →
      Meets step ok s es → Meets step ok' s es
  | _, [], _, _ => trivial
  | s, e :: _, h0, hm => ⟨hok s e h0 hm.1, fun s' hs =>
    (hm.2 s' hs).of_invariant hstep hok (hstep s e s' h0 hm.1 hs)⟩

/-- A property kept by every step holds in every state reached. -/
theorem Reaches.invariant {I : S → Prop} (hstep : ∀ s e s', I s → step s e = some s' → I s')
    {s s' : S} (h0 : I s) (h : Reaches step s s') : I s' := by
  obtain ⟨es, hr⟩ := h
  exact run_invariant (fun s e s' hi (_ : True) hs => hstep s e s' hi hs) h0
    (Meets.of_forall (fun _ _ => trivial) s es) hr

/-- An invariant of a state and of the record of the run that led to it, kept by the steps that
meet a condition. -/
theorem run_record_meets {ok : S → E → Prop} {note : S → E → H → H} {I : H → S → Prop}
    (hstep : ∀ h s e s', I h s → ok s e → step s e = some s' → I (note s e h) s') :
    ∀ {es : List E} {h : H} {s s' : S}, I h s → Meets step ok s es → run step s es = some s' →
      I (record step note s es h) s'
  | [], h, s, s', h0, _, hr => by
    obtain rfl := Option.some.inj hr
    exact h0
  | e :: es, h, s, s', h0, hm, hr => by
    obtain ⟨t, ht, hr⟩ := run_cons.1 hr
    have hrest := run_record_meets hstep (hstep h s e t h0 hm.1 ht) (hm.2 t ht) hr
    rwa [record, ht]

/-- An invariant of a state and of the record of the run that led to it. -/
theorem run_record {note : S → E → H → H} {I : H → S → Prop}
    (hstep : ∀ h s e s', I h s → step s e = some s' → I (note s e h) s') {es : List E} {h : H}
    {s s' : S} (h0 : I h s) (hr : run step s es = some s') : I (record step note s es h) s' :=
  run_record_meets (fun h s e s' hi (_ : True) hs => hstep h s e s' hi hs) h0
    (Meets.of_forall (fun _ _ => trivial) s es) hr

theorem record_append {note : S → E → H → H} {t : S} : ∀ {es es' : List E} {s : S} {h : H},
    run step s es = some t →
      record step note s (es ++ es') h = record step note t es' (record step note s es h)
  | [], _, s, h, hr => by
    obtain rfl := Option.some.inj hr
    rfl
  | e :: es, es', s, h, hr => by
    obtain ⟨u, hu, hr⟩ := run_cons.1 hr
    simp only [List.cons_append, record, hu]
    exact record_append hr

/-- A run of steps that are not noted leaves no record. -/
theorem record_silent {note : S → E → H → H} : ∀ {es : List E} {s : S} {h : H},
    (∀ s e h, e ∈ es → note s e h = h) → record step note s es h = h
  | [], _, _, _ => rfl
  | e :: es, s, h, hn => by
    simp only [record]
    cases step s e with
    | none => rfl
    | some t =>
      simp only [hn s e h List.mem_cons_self]
      exact record_silent fun s e h he => hn s e h (List.mem_cons_of_mem _ he)

/-- What a record has come to satisfy, it came to at a step of the run. -/
theorem exists_noted {note : S → E → H → H} {P : H → Prop} : ∀ {es : List E} {h : H} {s s' : S},
    run step s es = some s' → ¬P h → P (record step note s es h) → ∃ pre e post t t',
      es = pre ++ e :: post ∧ run step s pre = some t ∧ step t e = some t' ∧
        ¬P (record step note s pre h) ∧ P (note t e (record step note s pre h))
  | [], _, _, _, _, h0, hP => absurd hP h0
  | e :: es, h, s, s', hr, h0, hP => by
    obtain ⟨t, ht, hr⟩ := run_cons.1 hr
    rw [record, ht] at hP
    by_cases hnote : P (note s e h)
    · exact ⟨[], e, es, s, t, rfl, rfl, ht, h0, hnote⟩
    · obtain ⟨pre, e', post, u, u', rfl, hpre, hu, hnot, hyes⟩ := exists_noted hr hnote hP
      refine ⟨e :: pre, e', post, u, u', rfl, run_cons.2 ⟨t, ht, hpre⟩, hu, ?_, ?_⟩
      · rwa [record, ht]
      · rwa [record, ht]

/-- An invariant of a state and of how many steps led to it that `p` counts. -/
theorem run_countP {p : E → Bool} {I : ℕ → S → Prop}
    (hstep : ∀ n s e s', I n s → step s e = some s' → I (n + if p e then 1 else 0) s') :
    ∀ {es : List E} {n : ℕ} {s s' : S}, I n s → run step s es = some s' → I (n + es.countP p) s'
  | [], n, s, s', h0, hr => by
    obtain rfl := Option.some.inj hr
    exact h0
  | e :: es, n, s, s', h0, hr => by
    obtain ⟨t, ht, hr⟩ := run_cons.1 hr
    have h := run_countP hstep (hstep n s e t h0 ht) hr
    rwa [Nat.add_assoc, Nat.add_comm _ (es.countP p), ← List.countP_cons] at h

/-- The same up to the first step that does not meet `ok`, with another invariant from there. -/
theorem run_countP_or {ok : S → E → Prop} {p : E → Bool} {I J : ℕ → S → Prop}
    (hI : ∀ n s e s', I n s → ok s e → step s e = some s' → I (n + if p e then 1 else 0) s')
    (hIJ : ∀ n s e s', I n s → ¬ok s e → step s e = some s' → J (n + if p e then 1 else 0) s')
    (hJ : ∀ n s e s', J n s → step s e = some s' → J (n + if p e then 1 else 0) s') :
    ∀ {es : List E} {n : ℕ} {s s' : S}, I n s → run step s es = some s' →
      (Meets step ok s es ∧ I (n + es.countP p) s') ∨ (¬Meets step ok s es ∧ J (n + es.countP p) s')
  | [], n, s, s', h0, hr => by
    obtain rfl := Option.some.inj hr
    exact Or.inl ⟨trivial, h0⟩
  | e :: es, n, s, s', h0, hr => by
    obtain ⟨t, ht, hr⟩ := run_cons.1 hr
    have hcount : n + (e :: es).countP p = n + (if p e then 1 else 0) + es.countP p := by
      rw [List.countP_cons, Nat.add_assoc, Nat.add_comm (es.countP p)]
    rw [hcount]
    by_cases hok : ok s e
    · rcases run_countP_or hI hIJ hJ (hI n s e t h0 hok ht) hr with ⟨hm, h⟩ | ⟨hm, h⟩
      · exact Or.inl ⟨.cons ht hok hm, h⟩
      · exact Or.inr ⟨fun hmeets => hm (hmeets.2 t ht), h⟩
    · exact Or.inr ⟨fun hmeets => hok hmeets.1, run_countP hJ (hIJ n s e t h0 hok ht) hr⟩

/-- What a good state at the end of a run says about its steps : if steps keep a bad
state bad, and a step that does not meet `ok` leads to a bad state, every step met it. -/
theorem meets_of_good {asm ok : S → E → Prop} {I good : S → Prop}
    (hI : ∀ s e s', I s → asm s e → step s e = some s' → I s')
    (hgood : ∀ s e s', I s → asm s e → step s e = some s' → good s' → good s)
    (hok : ∀ s e s', I s → asm s e → step s e = some s' → good s' → ok s e) {s s' : S}
    (h0 : I s) : ∀ {es : List E}, Meets step asm s es → run step s es = some s' → good s' →
      good s ∧ Meets step ok s es := by
  intro es
  induction es generalizing s with
  | nil =>
    intro _ hr hg
    obtain rfl := Option.some.inj hr
    exact ⟨hg, trivial⟩
  | cons e es ih =>
    intro hm hr hg
    obtain ⟨t, ht, hr⟩ := run_cons.1 hr
    obtain ⟨hgt, hmt⟩ := ih (hI s e t h0 hm.1 ht) (hm.2 t ht) hr hg
    refine ⟨hgood s e t h0 hm.1 ht hgt, hok s e t h0 hm.1 ht hgt, fun t' ht' => ?_⟩
    obtain rfl : t = t' := Option.some.inj (ht.symm.trans ht')
    exact hmt

/-- If each step of a run that meets `ok`, from a state with `I`, is a run of the
second system that meets `ok'`, the whole run is. -/
theorem run_simulates {ok : S → E → Prop} {ok' : T → E' → Prop} {I : S → Prop} (f : S → T)
    (hI : ∀ s e s', I s → ok s e → step s e = some s' → I s')
    (hstep : ∀ s e s', I s → ok s e → step s e = some s' →
      ∃ es', run step' (f s) es' = some (f s') ∧ Meets step' ok' (f s) es')
    {s s' : S} (h0 : I s) : ∀ {es : List E}, Meets step ok s es → run step s es = some s' →
      ∃ es', run step' (f s) es' = some (f s') ∧ Meets step' ok' (f s) es' := by
  intro es
  induction es generalizing s with
  | nil =>
    intro _ hr
    obtain rfl := Option.some.inj hr
    exact ⟨[], rfl, trivial⟩
  | cons e es ih =>
    intro hm hr
    obtain ⟨t, ht, hr⟩ := run_cons.1 hr
    obtain ⟨es₁, hr₁, hm₁⟩ := hstep s e t h0 hm.1 ht
    obtain ⟨es₂, hr₂, hm₂⟩ := ih (hI s e t h0 hm.1 ht) (hm.2 t ht) hr
    exact ⟨es₁ ++ es₂, (run_append hr₁).trans hr₂, hm₁.append hr₁ hm₂⟩

/-- If each step is a run of the second system that leaves the same record, the whole run is. -/
theorem run_simulates_record {note : S → E → H → H} {note' : T → E' → H → H} (f : S → T)
    (hstep : ∀ h s e s', step s e = some s' →
      ∃ es', run step' (f s) es' = some (f s') ∧ record step' note' (f s) es' h = note s e h) :
    ∀ {es : List E} {h : H} {s s' : S}, run step s es = some s' → ∃ es',
      run step' (f s) es' = some (f s') ∧
        record step' note' (f s) es' h = record step note s es h
  | [], h, s, s', hr => by
    obtain rfl := Option.some.inj hr
    exact ⟨[], rfl, rfl⟩
  | e :: es, h, s, s', hr => by
    obtain ⟨t, ht, hr⟩ := run_cons.1 hr
    obtain ⟨es₁, hr₁, hn₁⟩ := hstep h s e t ht
    obtain ⟨es₂, hr₂, hn₂⟩ := run_simulates_record f hstep (h := note s e h) hr
    refine ⟨es₁ ++ es₂, (run_append hr₁).trans hr₂, ?_⟩
    rw [record_append hr₁, hn₁, hn₂, record, ht]

end Transition
