import Imgdl.PoolCapacity

/-!
# Reuse of idle HTTP/1.1 connections

`h1_action` looks for an idle connection, `h2_action` does not, and the tag of an entry
says which of them answers. The tag starts as HTTP/2 and only the first open corrects it
: if that open fails while another connection is, or still gets, into the entry, an
HTTP/1.1 entry keeps the wrong tag for good (`staleRun`).

`TagKept` excludes exactly these two sections. In a run of HTTP/1.1 opens that meets it,
the tag is HTTP/1.1 whenever the entry has a connection and its first open is over
(`Tagged`), so an idle connection is always reused (`idle_reused`).
-/

set_option linter.unusedSectionVars false

namespace Imgdl

open Transition Interleaving

namespace Pool

variable {ι : Type*} [DecidableEq ι] {connectionsPerHost : ℕ} {key : HostKey} {s s' : State ι}

/-- Opens for `key` that succeed yield HTTP/1.1, and no client is cancelled. -/
def PlainOpens (key : HostKey) (s : State ι) (e : ι × ClientEvent) : Prop :=
  e.2 ≠ .cancel ∧ (e.2 = .connect (.ok .http2) → ¬(s.locals e.1).InFlight key)

theorem plainOpens_of_event (s : State ι) (e : ι × ClientEvent)
    (he : e.2 ≠ .cancel ∧ e.2 ≠ .connect (.ok .http2)) : PlainOpens key s e :=
  ⟨he.1, fun h => absurd h he.2⟩

/-- A first open fails only while the entry has no connection, and another open is
inserted only while the tag is HTTP/1.1 or the first open is in flight. -/
def TagKept (key : HostKey) (s : State ι) (e : ι × ClientEvent) : Prop :=
  e.2 = .insert → ∀ hp, s.shared.hostPools key = some hp →
    (∀ err, s.locals e.1 = .openFailed key true err → hp.connections = []) ∧
    (∀ conn, s.locals e.1 = .opened key false conn →
      hp.protocol = .http1 ∨ ∃ j, (s.locals j).FirstInFlight key)

/-- The tag is HTTP/1.1, will be set by the first open, or does not matter yet. -/
structure Tagged (key : HostKey) (s : State ι) : Prop where
  tag : ∀ hp, s.shared.hostPools key = some hp →
    hp.protocol = .http1 ∨ (∃ j, (s.locals j).FirstInFlight key) ∨ hp.connections = []
  plain : ∀ i isFirst conn, s.locals i = .opened key isFirst conn → conn.protocol = .http1

theorem inFlight_of_first {c : Client} (h : c.FirstInFlight key) : c.InFlight key := by
  cases c <;> first | exact h.elim | exact h.1

/-- The first open stays in flight when its own client keeps it. -/
theorem firstInFlight_update {i : ι} {c : Client}
    (h : ∃ j, (s.locals j).FirstInFlight key)
    (hc : (s.locals i).FirstInFlight key → c.FirstInFlight key) :
    ∃ j, (Function.update s.locals i c j).FirstInFlight key := by
  obtain ⟨j, hj⟩ := h
  rcases eq_or_ne j i with rfl | hji
  · exact ⟨j, by rw [Function.update_self]; exact hc hj⟩
  · exact ⟨j, by rw [Function.update_of_ne hji]; exact hj⟩

theorem hostAction_nil {hp hp' : HostPool} {a : AcquireAction}
    (h : HostAction connectionsPerHost hp hp' a) :
    hp'.protocol = hp.protocol ∧ (hp.connections = [] → hp'.connections = []) := by
  have pruned : ∀ {conns : List PooledConnection}, Pruned hp.connections conns →
      hp.connections = [] → conns = [] :=
    fun hpr h0 => List.sublist_nil.1 (h0 ▸ hpr.1)
  cases h with
  | reuseH1 _ hs => exact ⟨rfl, fun h0 => absurd hs.mem_left (by simp [h0])⟩
  | reuseH2 hpr _ | scale hpr _ | wait hpr _ => exact ⟨rfl, pruned hpr⟩

theorem tagged_init : Tagged key (init : State ι) :=
  ⟨fun _ h => (nomatch h), fun _ _ _ h => (nomatch h)⟩

/-- `q` has the tag of `p` for `key`, and no connection if `p` has none. -/
def SameTag (key : HostKey) (p q : PoolState) : Prop :=
  ∀ hp', q.hostPools key = some hp' → ∃ hp, p.hostPools key = some hp ∧
    hp'.protocol = hp.protocol ∧ (hp.connections = [] → hp'.connections = [])

theorem sameTag_of_eq {p q : PoolState} (h : q.hostPools key = p.hostPools key) :
    SameTag key p q :=
  fun hp' hk => ⟨hp', h ▸ hk, rfl, id⟩

theorem sameTag_update {p q : PoolState} {k : HostKey} {hp hp' : HostPool}
    (hk : p.hostPools k = some hp) (hq : q.hostPools = Function.update p.hostPools k (some hp'))
    (hprot : hp'.protocol = hp.protocol)
    (hconns : hp.connections = [] → hp'.connections = []) : SameTag key p q := by
  rcases eq_or_ne key k with rfl | hne
  · intro hp₁ h₁
    rw [hq, Function.update_self] at h₁
    obtain rfl := Option.some.inj h₁
    exact ⟨hp, hk, hprot, hconns⟩
  · exact sameTag_of_eq (by rw [hq, Function.update_of_ne hne])

theorem sameTag_finish {p : PoolState} {k : HostKey} {handle : PoolHandle} {ok : Bool} :
    SameTag key p (finishConnection p k handle ok) := by
  intro hp' hk
  obtain ⟨hp, hp0, he, hconns⟩ := finishConnection_entry hk
  refine ⟨hp, hp0, by rw [he], fun h0 => ?_⟩
  rcases hconns with hc | ⟨s, -, -, hc⟩
  · rw [hc, h0]
  · rw [hc, h0]
    cases ok <;> rfl

/-- A section that keeps the tag, and the first open in flight, keeps `Tagged`. -/
theorem tag_keep {i : ι} {c : Client} (h : Tagged key s)
    (hloc : s'.locals = Function.update s.locals i c)
    (hf : (s.locals i).FirstInFlight key → c.FirstInFlight key)
    (hq : SameTag key s.shared s'.shared) {hp' : HostPool}
    (hk : s'.shared.hostPools key = some hp') :
    hp'.protocol = .http1 ∨ (∃ j, (s'.locals j).FirstInFlight key) ∨ hp'.connections = [] := by
  obtain ⟨hp, hp0, hprot, hnil⟩ := hq hp' hk
  rw [hprot, hloc]
  rcases h.tag hp hp0 with ht | hfirst | h0
  · exact Or.inl ht
  · exact Or.inr (Or.inl (firstInFlight_update hfirst hf))
  · exact Or.inr (Or.inr (hnil h0))

theorem tag_step {i : ι} {e : ClientEvent} (ht : Tally s key 0) (h : Tagged key s)
    (hplain : PlainOpens key s (i, e)) (hkept : TagKept key s (i, e))
    (hs : step connectionsPerHost s (i, e) = some s') {hp' : HostPool}
    (hk' : s'.shared.hostPools key = some hp') :
    hp'.protocol = .http1 ∨ (∃ j, (s'.locals j).FirstInFlight key) ∨ hp'.connections = [] := by
  obtain ⟨c', hp, hloc⟩ := Par.step_eq_some.1 hs
  have hm := clientStep_cases connectionsPerHost hp
  have keep : ((s.locals i).FirstInFlight key → c'.FirstInFlight key) →
      SameTag key s.shared s'.shared → hp'.protocol = .http1 ∨
        (∃ j, (s'.locals j).FirstInFlight key) ∨ hp'.connections = [] :=
    fun hf hq => tag_keep h hloc hf hq hk'
  generalize hc : s.locals i = c at hm keep
  generalize hq : s'.shared = q at hm hk' keep
  cases hm with
  | start | respond | leave => exact keep id (sameTag_of_eq rfl)
  | connected | refused => exact keep id (sameTag_of_eq rfl)
  | @first k n _ _ hnone =>
    rcases eq_or_ne key k with rfl | hne
    · obtain rfl : _ = hp' := by simpa using hk'
      exact Or.inr (Or.inr rfl)
    · exact keep False.elim (sameTag_of_eq (by simp [Function.update_of_ne hne]))
  | existing hk ha =>
    exact keep False.elim (sameTag_update hk rfl (hostAction_nil ha).1 (hostAction_nil ha).2)
  | park hp _ hb _ =>
    exact keep (fun hf => (hb.inFlight key (inFlight_of_first hf)).elim)
      (sameTag_of_eq (by rw [hp]))
  | @inserted k isFirst conn hp₀ hk₀ _ =>
    rcases eq_or_ne key k with rfl | hne
    · obtain rfl : _ = hp' := by simpa using hk'
      cases isFirst with
      | true => exact Or.inl (h.plain i true conn hc)
      | false =>
        -- the tag stays, and the first open in flight is not this one
        rcases (hkept rfl hp₀ hk₀).2 conn hc with htag | hfirst
        · exact Or.inl htag
        · rw [hloc]
          exact Or.inr (Or.inl (firstInFlight_update hfirst fun hf => by
            rw [hc] at hf
            exact absurd hf.2 (by simp)))
    · exact keep (fun hf => (hne hf.1.symm).elim)
        (sameTag_of_eq (by simp [Function.update_of_ne hne]))
  | @lost k _ _ hf h0 hb =>
    refine keep (fun hf' => ?_) (sameTag_of_eq rfl)
    obtain rfl := hf.key_unique (inFlight_of_first hf')
    exact absurd (openings_eq_zero h0) (tally_pos ht (hc ▸ hf)).ne'
  | @dropEntry k _ _ hp₀ _ _ _ =>
    rcases eq_or_ne key k with rfl | hne
    · simp at hk'
    · exact keep (fun hf => (hne hf.1.symm).elim)
        (sameTag_of_eq (by simp [Function.update_of_ne hne]))
  | @uncount k isFirst err hp₀ _ hk₀ _ _ hu _ =>
    rcases eq_or_ne key k with rfl | hne
    · rw [hu, Function.update_self] at hk'
      obtain rfl := Option.some.inj hk'
      cases isFirst with
      | true => exact Or.inr (Or.inr ((hkept rfl hp₀ hk₀).1 err hc))
      | false =>
        exact keep (fun hf => absurd hf.2 (by simp)) (sameTag_update hk₀ hu rfl id)
    · exact keep (fun hf => (hne hf.1.symm).elim)
        (sameTag_of_eq (by simp [hu, Function.update_of_ne hne]))
  | finish => exact keep False.elim sameTag_finish
  | cancel => exact absurd rfl hplain.1

/-- Opens of the key yield HTTP/1.1. -/
theorem plain_step {i j : ι} {e : ClientEvent}
    (h : ∀ i isFirst conn, s.locals i = .opened key isFirst conn → conn.protocol = .http1)
    (hplain : PlainOpens key s (i, e)) (hs : step connectionsPerHost s (i, e) = some s')
    {isFirst : Bool} {conn : OpenedConnection} (hj : s'.locals j = .opened key isFirst conn) :
    conn.protocol = .http1 := by
  rcases eq_or_ne j i with rfl | hji
  · obtain ⟨c', hp, hloc⟩ := Par.step_eq_some.1 hs
    obtain rfl : c' = .opened key isFirst conn := by rw [← hj, hloc, Function.update_self]
    have hm := clientStep_cases connectionsPerHost hp
    generalize hc : s.locals j = c at hm
    generalize hc' : Client.opened key isFirst conn = c' at hm
    generalize s'.shared = q at hm
    cases hm with
    | @connected k f proto =>
      obtain ⟨rfl, rfl, rfl⟩ := Client.opened.inj hc'
      cases proto with
      | http1 => rfl
      | http2 => exact absurd (hc ▸ rfl) (hplain.2 rfl)
    | park _ _ _ hb | lost _ _ hb => exact (hb.inFlight key (hc' ▸ rfl)).elim
    | @existing _ _ _ _ _ _ a => cases a <;> cases hc'
    | _ => cases hc'
  · exact h j isFirst conn (Par.step_other hs hji ▸ hj)

theorem tagged_step {e : ι × ClientEvent} (ht : Tally s key 0) (h : Tagged key s)
    (hplain : PlainOpens key s e) (hkept : TagKept key s e)
    (hs : step connectionsPerHost s e = some s') : Tagged key s' := by
  obtain ⟨i, e⟩ := e
  exact ⟨fun _ hk => tag_step ht h hplain hkept hs hk,
    fun _ _ _ hj => plain_step h.plain hplain hs hj⟩

/-- Without cancellation no open is leaked. -/
theorem tally_plain {e : ι × ClientEvent} (ht : Tally s key 0) (hplain : PlainOpens key s e)
    (hs : step connectionsPerHost s e = some s') : Tally s' key 0 := by
  obtain ⟨i, e⟩ := e
  obtain ⟨leak, ht', hl⟩ := tally_step ht hs
  rwa [hl fun hc => hplain.1 hc.1] at ht'

theorem tagged_of_run {es : List (ι × ClientEvent)}
    (hr : run (step connectionsPerHost) init es = some s)
    (hplain : Meets (step connectionsPerHost) (PlainOpens key) init es)
    (hkept : Meets (step connectionsPerHost) (TagKept key) init es) :
    Tally s key 0 ∧ Tagged key s :=
  run_invariant (I := fun s => Tally s key 0 ∧ Tagged key s)
    (fun _ _ _ h he hs => ⟨tally_plain h.1 he.1 hs, tagged_step h.1 h.2 he.1 he.2 hs⟩)
    ⟨⟨0, Count.zero fun _ => id, rfl⟩, tagged_init⟩ (hplain.and hkept) hr

/-- In a run of HTTP/1.1 opens in which no section leaves a wrong tag, an entry with an
idle connection and no open in flight answers every acquire with a pooled connection, so
the attempt that asks gets it. -/
theorem idle_reused {es : List (ι × ClientEvent)}
    (hr : run (step connectionsPerHost) init es = some s)
    (hplain : Meets (step connectionsPerHost) (PlainOpens key) init es)
    (hkept : Meets (step connectionsPerHost) (TagKept key) init es) {hp : HostPool} {id : ℕ}
    {t : SenderId} (hk : s.shared.hostPools key = some hp) (h0 : hp.openingCount = 0)
    (hidle : ⟨id, .h1 (some t)⟩ ∈ hp.connections) (poll poll' : SenderId → H2Status) :
    (∀ fresh, ∃ handle, (determineAction connectionsPerHost poll poll' s.shared.hostPools fresh
      key).2 = .returnExisting handle) ∧
    ∀ i n, s.locals i = .locking key n → ∃ p' handle, clientStep connectionsPerHost s.shared
      (s.locals i) (.decide poll poll') = some (p', .requesting key handle) := by
  obtain ⟨⟨n, hn, he⟩, htag⟩ := tagged_of_run hr hplain hkept
  have hnone : ∀ i, ¬(s.locals i).InFlight key := by
    rw [hk, openings_some, h0] at he
    obtain rfl : n = 0 := by omega
    exact Count.eq_zero_iff.1 hn
  have hprot : hp.protocol = .http1 := by
    rcases htag.tag hp hk with h | ⟨j, hj⟩ | h
    · exact h
    · exact absurd (inFlight_of_first hj) (hnone j)
    · simp [h] at hidle
  obtain ⟨handle, ha⟩ := hostAction_http1_idle connectionsPerHost poll poll' hprot hidle
  have hdet : ∀ fresh, (determineAction connectionsPerHost poll poll' s.shared.hostPools fresh
      key).2 = .returnExisting handle := fun fresh => by rw [determineAction, hk, ← ha]
  refine ⟨fun fresh => ⟨handle, hdet fresh⟩, fun i n hi => ?_⟩
  rw [hi]
  simp only [clientStep, hdet]
  exact ⟨_, handle, rfl⟩

/-- Client 1 opens a connection while the first open of the entry is in flight, and gives it back
once client 0 has inserted its own. -/
def idleRun : List (ℕ × ClientEvent) :=
  [(0, .start ("h", 80)), (1, .start ("h", 80)), (0, .decide (fun _ => .dead) fun _ => .dead),
    (1, .decide (fun _ => .dead) fun _ => .dead), (1, .connect (.ok .http1)), (1, .insert),
    (0, .connect (.ok .http1)), (0, .insert), (1, .respond (.ok (.response ⟨[], []⟩))),
    (1, .finish), (2, .start ("h", 80))]

theorem idle_reused_idleRun : ∃ s, run (step 2) init idleRun = some s ∧
    s.locals 2 = .locking ("h", 80) 0 ∧
    (∀ fresh, ∃ handle, (determineAction 2 (fun _ => .dead) (fun _ => .dead) s.shared.hostPools
      fresh ("h", 80)).2 = .returnExisting handle) ∧
    ∃ p' handle, clientStep 2 s.shared (s.locals 2) (.decide (fun _ => .dead) fun _ => .dead) =
      some (p', .requesting ("h", 80) handle) := by
  obtain ⟨s, hp, hr, hk, h0, hidle, hlocking⟩ : ∃ s hp, run (step 2) init idleRun = some s ∧
    s.shared.hostPools ("h", 80) = some hp ∧ hp.openingCount = 0 ∧
    ⟨0, .h1 (some 0)⟩ ∈ hp.connections ∧ s.locals 2 = .locking ("h", 80) 0 :=
      ⟨_, _, rfl, rfl, rfl, .head _, rfl⟩
  have hplain : Meets (step 2) (PlainOpens ("h", 80)) init idleRun :=
    Meets.of_events plainOpens_of_event (by simp [idleRun])
  -- a section that inserts no connection meets the condition
  have other : ∀ {t : State ℕ} {e : ℕ × ClientEvent}, e.2 ≠ .insert → TagKept ("h", 80) t e :=
    fun hne he => absurd he hne
  have hkept : Meets (step 2) (TagKept ("h", 80)) init idleRun :=
    .cons rfl (other (by simp)) <| .cons rfl (other (by simp)) <|
      .cons rfl (other (by simp)) <| .cons rfl (other (by simp)) <|
      .cons rfl (other (by simp)) <|
      .cons rfl (fun _ _ _ => ⟨by rintro _ ⟨⟩, fun _ _ => Or.inr ⟨0, rfl, rfl⟩⟩) <|
      .cons rfl (other (by simp)) <|
      .cons rfl (fun _ _ _ => ⟨by rintro _ ⟨⟩, by rintro _ ⟨⟩⟩) <|
      .cons rfl (other (by simp)) <| .cons rfl (other (by simp)) <|
      .cons rfl (other (by simp)) trivial
  obtain ⟨hall, hget⟩ := idle_reused hr hplain hkept hk h0 hidle (fun _ => .dead) fun _ => .dead
  exact ⟨s, hr, hlocking, hall, hget 2 0 hlocking⟩

/-- Client 0 opens the first connection of the entry and fails after client 1's was
inserted. -/
def staleRun : List (ℕ × ClientEvent) :=
  [(0, .start ("h", 80)), (1, .start ("h", 80)), (0, .decide (fun _ => .dead) fun _ => .dead),
    (1, .decide (fun _ => .dead) fun _ => .dead), (1, .connect (.ok .http1)), (1, .insert),
    (0, .connect (.error (.connectionFailed "refused"))), (0, .insert),
    (1, .respond (.ok (.response ⟨[], []⟩))), (1, .finish)]

/-- The entry has an idle connection and no open in flight, and yet another is opened. -/
theorem idle_not_reused_staleRun : ∃ s hp, run (step 2) init staleRun = some s ∧
    Meets (step 2) (PlainOpens ("h", 80)) init staleRun ∧
    s.shared.hostPools ("h", 80) = some hp ∧ hp.openingCount = 0 ∧
    ⟨0, .h1 (some 0)⟩ ∈ hp.connections ∧ ∀ poll poll' fresh,
      (determineAction 2 poll poll' s.shared.hostPools fresh ("h", 80)).2 = .openNew false :=
  ⟨_, _, rfl, Meets.of_events plainOpens_of_event (by simp [staleRun]), rfl, rfl, .head _,
    fun _ _ _ => rfl⟩

end Pool

end Imgdl
