import Imgdl.PoolRun

/-!
# Capacity and counters of the pool

An entry stays within its limit (`WithinLimit`) : connections and counted opens together
are at most `max 1 connections_per_host`, and the ids are distinct and below `next_id`.

`Tally` balances `opening_count` against the opens in flight, up to the opens that were
cancelled while in flight (`leak`). Every section keeps the balance, so no decrement
underflows and no entry disappears under an open (`pool_capacity`).
-/

set_option linter.unusedSectionVars false

namespace Imgdl

open Transition Interleaving

/-- `opening_count` of an entry, 0 where there is none. -/
def openings (o : Option HostPool) : ℕ :=
  (o.map HostPool.openingCount).getD 0

@[simp] theorem openings_none : openings none = 0 :=
  rfl

@[simp] theorem openings_some (hp : HostPool) : openings (some hp) = hp.openingCount :=
  rfl

/-! ## The limit of an entry -/

/-- Capacity and ids of an entry. -/
structure WithinLimit (connectionsPerHost : ℕ) (hp : HostPool) : Prop where
  capacity : hp.connections.length + hp.openingCount ≤ max 1 connectionsPerHost
  nodup : (hp.connections.map PooledConnection.id).Nodup
  fresh : ∀ c ∈ hp.connections, c.id < hp.nextId

namespace WithinLimit

variable {connectionsPerHost : ℕ} {hp : HostPool}

theorem placeholder (notify : NotifyId) :
    WithinLimit connectionsPerHost (HostPool.placeholder notify) :=
  ⟨by simp [HostPool.placeholder], by simp [HostPool.placeholder],
    by simp [HostPool.placeholder]⟩

/-- Fewer connections stay within the limit. -/
theorem of_ids_sublist (h : WithinLimit connectionsPerHost hp) {conns : List PooledConnection}
    (hs : (conns.map PooledConnection.id).Sublist (hp.connections.map PooledConnection.id))
    {n : ℕ} (hn : conns.length + n ≤ max 1 connectionsPerHost) :
    WithinLimit connectionsPerHost { hp with connections := conns, openingCount := n } := by
  refine ⟨hn, hs.nodup h.nodup, fun c hc => ?_⟩
  obtain ⟨d, hd, he⟩ := List.mem_map.1 (hs.subset (List.mem_map_of_mem hc))
  exact he ▸ h.fresh d hd

/-- The same, with the same count of opens. -/
theorem of_sublist (h : WithinLimit connectionsPerHost hp) {conns : List PooledConnection}
    (hs : (conns.map PooledConnection.id).Sublist (hp.connections.map PooledConnection.id)) :
    WithinLimit connectionsPerHost { hp with connections := conns } := by
  refine h.of_ids_sublist hs ?_
  have hle := hs.length_le
  rw [List.length_map, List.length_map] at hle
  have := h.capacity
  omega

theorem hostAction (h : WithinLimit connectionsPerHost hp) {hp' : HostPool} {a : AcquireAction}
    (ha : HostAction connectionsPerHost hp hp' a) : WithinLimit connectionsPerHost hp' := by
  cases ha with
  | reuseH1 _ hs => exact h.of_sublist (hs.ids_eq ▸ List.Sublist.refl _)
  | reuseH2 hp _ => exact h.of_sublist (hp.1.map _)
  | scale hp hlt => exact h.of_ids_sublist (hp.1.map _) (by omega)
  | wait hp _ => exact h.of_sublist (hp.1.map _)

/-- Inserting an opened connection trades an open for a connection, with a fresh id. -/
theorem insert (h : WithinLimit connectionsPerHost hp) (h0 : 0 < hp.openingCount)
    (isFirst : Bool) (conn : OpenedConnection) :
    WithinLimit connectionsPerHost (hp.insert isFirst conn) := by
  refine ⟨?_, ?_, fun c hc => ?_⟩
  · have := h.capacity
    simp only [HostPool.insert, List.length_append, List.length_singleton]
    omega
  · simp only [HostPool.insert, List.map_append, List.map_cons, List.map_nil]
    refine List.Nodup.append h.nodup (List.nodup_singleton _) fun i hi hi' => ?_
    obtain ⟨d, hd, rfl⟩ := List.mem_map.1 hi
    exact absurd (List.mem_singleton.1 hi') (h.fresh d hd).ne
  · simp only [HostPool.insert, List.mem_append, List.mem_singleton] at hc ⊢
    rcases hc with hc | rfl
    · exact (h.fresh c hc).trans (Nat.lt_succ_self _)
    · exact Nat.lt_succ_self _

end WithinLimit

/-! ## Opens in flight -/

namespace Pool

variable {ι : Type*} [DecidableEq ι] {connectionsPerHost : ℕ}

/-- All entries are within their limits. -/
def EntriesWithin (connectionsPerHost : ℕ) (p : PoolState) : Prop :=
  ∀ key hp, p.hostPools key = some hp → WithinLimit connectionsPerHost hp

/-- The opens in flight for a key and the leaked ones make up its `opening_count`. -/
def Tally (s : State ι) (key : HostKey) (leak : ℕ) : Prop :=
  ∃ n, Count (Client.InFlight key) s.locals n ∧ n + leak = openings (s.shared.hostPools key)

theorem entriesWithin_update {p p' : PoolState} (h : EntriesWithin connectionsPerHost p)
    {key : HostKey} {o : Option HostPool} (hu : p'.hostPools = Function.update p.hostPools key o)
    (ho : ∀ hp, o = some hp → WithinLimit connectionsPerHost hp) :
    EntriesWithin connectionsPerHost p' := by
  intro k hp hk
  rw [hu] at hk
  rcases eq_or_ne k key with rfl | hne
  · exact ho hp (by simpa using hk)
  · exact h k hp (by simpa [Function.update_of_ne hne] using hk)

theorem entriesWithin_step {p p' : PoolState} {c c' : Client} {e : ClientEvent}
    (h : EntriesWithin connectionsPerHost p) (hm : ClientMove connectionsPerHost p c e p' c') :
    EntriesWithin connectionsPerHost p' := by
  have some_inj : ∀ {hp : HostPool}, WithinLimit connectionsPerHost hp →
      ∀ hp', some hp = some hp' → WithinLimit connectionsPerHost hp' := by
    rintro hp hw _ ⟨⟩
    exact hw
  cases hm with
  | start | connected | refused | respond | leave | lost _ _ _ => exact h
  | park hp _ _ _ => exact fun k hp' hk => h k hp' (hp ▸ hk)
  | cancel hp _ => exact fun k hp' hk => h k hp' (hp ▸ hk)
  | first _ => exact entriesWithin_update h rfl (some_inj (.placeholder _))
  | existing hp ha => exact entriesWithin_update h rfl (some_inj ((h _ _ hp).hostAction ha))
  | inserted hp h0 => exact entriesWithin_update h rfl (some_inj ((h _ _ hp).insert h0 _ _))
  | dropEntry _ _ _ => exact entriesWithin_update h rfl (by simp)
  | uncount hp h0 _ hu _ =>
    refine entriesWithin_update h hu (some_inj ?_)
    have := (h _ _ hp).capacity
    exact (h _ _ hp).of_ids_sublist (List.Sublist.refl _) (by omega)
  | finish =>
    intro k hp' hk
    obtain ⟨hp, hp0, he, hconns⟩ := finishConnection_entry hk
    rw [he]
    refine (h _ _ hp0).of_sublist ?_
    rcases hconns with hc | ⟨s, -, -, hc⟩
    · rw [hc]
    · rw [hc]
      split_ifs
      · rw [giveBack_ids]
      · exact List.filter_sublist.map _

/-- Moves that change neither the opens in flight nor their count. -/
theorem tally_same {s s' : State ι} {i : ι} {c : Client} {key : HostKey} {leak : ℕ}
    (h : Tally s key leak) (hloc : s'.locals = Function.update s.locals i c)
    (hc : c.InFlight key ↔ (s.locals i).InFlight key)
    (ho : openings (s'.shared.hostPools key) = openings (s.shared.hostPools key)) :
    Tally s' key leak := by
  obtain ⟨n, hn, he⟩ := h
  exact ⟨n, hloc ▸ hn.same hc, ho ▸ he⟩

/-- A counted open starts. -/
theorem tally_enter {s s' : State ι} {i : ι} {c : Client} {key : HostKey} {leak : ℕ}
    (h : Tally s key leak) (hloc : s'.locals = Function.update s.locals i c)
    (hi : ¬(s.locals i).InFlight key) (hc : c.InFlight key)
    (ho : openings (s'.shared.hostPools key) = openings (s.shared.hostPools key) + 1) :
    Tally s' key leak := by
  obtain ⟨n, hn, he⟩ := h
  exact ⟨n + 1, hloc ▸ hn.enter hi hc, by omega⟩

/-- A counted open ends and is taken off the count. -/
theorem tally_leave {s s' : State ι} {i : ι} {c : Client} {key : HostKey} {leak : ℕ}
    (h : Tally s key leak) (hloc : s'.locals = Function.update s.locals i c)
    (hi : (s.locals i).InFlight key) (hc : ¬c.InFlight key)
    (ho : openings (s'.shared.hostPools key) = openings (s.shared.hostPools key) - 1) :
    Tally s' key leak := by
  obtain ⟨n, hn, he⟩ := h
  have := hn.pos hi
  exact ⟨n - 1, hloc ▸ hn.leave hi hc, by omega⟩

theorem openings_update {pools : HostPools} {key k : HostKey} {o : Option HostPool}
    (h : openings o = openings (pools key)) :
    openings (Function.update pools key o k) = openings (pools k) := by
  rcases eq_or_ne k key with rfl | hk
  · rw [Function.update_self, h]
  · rw [Function.update_of_ne hk]

theorem openings_finishConnection {p : PoolState} {key k : HostKey} {handle : PoolHandle}
    {ok : Bool} : openings ((finishConnection p key handle ok).hostPools k) =
      openings (p.hostPools k) := by
  cases hk : (finishConnection p key handle ok).hostPools k with
  | none =>
    have hnone : (p.hostPools k).isSome = false := by
      rw [← finishConnection_isSome, hk, Option.isSome_none]
    rw [Option.isNone_iff_eq_none.1 (Option.isSome_eq_false_iff.1 hnone)]
  | some hp' =>
    obtain ⟨hp, hp0, he, -⟩ := finishConnection_entry hk
    rw [hp0, he]
    rfl

theorem openings_eq_zero {o : Option HostPool}
    (h : ∀ hp, o = some hp → hp.openingCount = 0) : openings o = 0 := by
  cases o with
  | none => rfl
  | some hp => exact h hp rfl

/-- The key of an open in flight has an entry that counts it. -/
theorem tally_pos {s : State ι} {i : ι} {key : HostKey} {leak : ℕ} (h : Tally s key leak)
    (hi : (s.locals i).InFlight key) : 0 < openings (s.shared.hostPools key) := by
  obtain ⟨n, hn, he⟩ := h
  have := hn.pos hi
  omega

/-- A section of client `i` balances the opens in flight. Only the cancellation of an
open in flight leaks. -/
theorem tally_step {s s' : State ι} {i : ι} {e : ClientEvent} {key : HostKey} {leak : ℕ}
    (h : Tally s key leak) (hs : step connectionsPerHost s (i, e) = some s') :
    ∃ leak', Tally s' key leak' ∧
      (¬(e = .cancel ∧ (s.locals i).InFlight key) → leak' = leak) := by
  obtain ⟨c', hp, hloc⟩ := Par.step_eq_some.1 hs
  have hm := clientStep_cases connectionsPerHost hp
  generalize hc : s.locals i = c at hm
  generalize hq : s'.shared = q at hm
  have keep : (c'.InFlight key ↔ c.InFlight key) →
      openings (q.hostPools key) = openings (s.shared.hostPools key) → Tally s' key leak :=
    fun hf ho => tally_same h hloc (hc ▸ hf) (hq ▸ ho)
  have enter : ¬c.InFlight key → c'.InFlight key →
      openings (q.hostPools key) = openings (s.shared.hostPools key) + 1 → Tally s' key leak :=
    fun hi hf ho => tally_enter h hloc (hc ▸ hi) hf (hq ▸ ho)
  have exit : c.InFlight key → ¬c'.InFlight key →
      openings (q.hostPools key) = openings (s.shared.hostPools key) - 1 → Tally s' key leak :=
    fun hi hf ho => tally_leave h hloc (hc ▸ hi) hf (hq ▸ ho)
  suffices hsuff : Tally s' key leak ∨ e = .cancel ∧ c.InFlight key ∧ Tally s' key (leak + 1) by
    rcases hsuff with ht | ⟨he, hf, ht⟩
    · exact ⟨leak, ht, fun _ => rfl⟩
    · exact ⟨leak + 1, ht, fun hn => absurd ⟨he, hf⟩ hn⟩
  cases hm with
  | start | connected | refused | respond | leave => exact Or.inl (keep Iff.rfl rfl)
  | @first k n _ _ hnone =>
    refine Or.inl ?_
    rcases eq_or_ne key k with rfl | hk
    · exact enter id rfl (by simp [hnone, HostPool.placeholder])
    · exact keep ⟨fun h => hk h.symm, False.elim⟩ (by simp [Function.update_of_ne hk])
  | @existing k n _ _ hp₀ hp₁ a hk₀ ha =>
    refine Or.inl ?_
    cases ha with
    | reuseH1 _ _ => exact keep Iff.rfl (openings_update (by simp [hk₀]))
    | reuseH2 _ _ => exact keep Iff.rfl (openings_update (by simp [hk₀]))
    | wait _ _ => exact keep Iff.rfl (openings_update (by simp [hk₀]))
    | scale _ _ =>
      rcases eq_or_ne key k with rfl | hk
      · exact enter id rfl (by simp [hk₀])
      · exact keep ⟨fun h => hk h.symm, False.elim⟩ (by simp [Function.update_of_ne hk])
  | park hp _ hb hb' =>
    exact Or.inl (keep (iff_of_false (hb'.inFlight key) (hb.inFlight key)) (by rw [hp]))
  | @inserted k _ _ hp₀ hk₀ h0 =>
    refine Or.inl ?_
    rcases eq_or_ne key k with rfl | hk
    · exact exit rfl id (by simp [hk₀, HostPool.insert])
    · exact keep ⟨False.elim, fun h => hk h.symm⟩ (by simp [Function.update_of_ne hk])
  | @lost k _ _ hf h0 hb =>
    -- an open in flight is counted, so its decrement cannot find a zero
    refine Or.inl (keep (iff_of_false (hb.inFlight key) fun hf' => ?_) rfl)
    obtain rfl := hf.key_unique hf'
    exact (tally_pos h (hc ▸ hf)).ne' (openings_eq_zero h0)
  | @dropEntry k _ _ hp₀ hk₀ _ h1 =>
    refine Or.inl ?_
    rcases eq_or_ne key k with rfl | hk
    · exact exit rfl id (by simp [hk₀, h1])
    · exact keep ⟨False.elim, fun h => hk h.symm⟩ (by simp [Function.update_of_ne hk])
  | @uncount k _ _ hp₀ _ hk₀ h0 _ hu _ =>
    refine Or.inl ?_
    rcases eq_or_ne key k with rfl | hk
    · exact exit rfl id (by simp [hk₀, hu])
    · exact keep ⟨False.elim, fun h => hk h.symm⟩ (by simp [hu, Function.update_of_ne hk])
  | finish => exact Or.inl (keep Iff.rfl openings_finishConnection)
  | cancel hpools _ =>
    by_cases hf : c.InFlight key
    · obtain ⟨n, hn, he⟩ := h
      have := hn.pos (hc ▸ hf)
      refine Or.inr ⟨rfl, hf, n - 1, hloc ▸ hn.leave (hc ▸ hf) id, ?_⟩
      rw [hq, hpools]
      omega
    · exact Or.inl (keep (iff_of_false id hf) (by rw [hpools]))

/-! ## Every reachable state -/

/-- The entries are within their limits, and every key is balanced. -/
structure Capacity (connectionsPerHost : ℕ) (s : State ι) : Prop where
  entries : EntriesWithin connectionsPerHost s.shared
  tally : ∀ key, ∃ leak, Tally s key leak

theorem capacity_init : Capacity connectionsPerHost (init : State ι) :=
  ⟨fun _ _ h => by simp [init, PoolState.new] at h,
    fun _ => ⟨0, 0, Count.zero fun _ => id, rfl⟩⟩

theorem capacity_step {s s' : State ι} {e : ι × ClientEvent}
    (h : Capacity connectionsPerHost s) (hs : step connectionsPerHost s e = some s') :
    Capacity connectionsPerHost s' := by
  obtain ⟨i, e⟩ := e
  refine ⟨?_, fun key => ?_⟩
  · obtain ⟨c, hp, -⟩ := Par.step_eq_some.1 hs
    exact entriesWithin_step h.entries (clientStep_cases connectionsPerHost hp)
  · obtain ⟨leak, ht⟩ := h.tally key
    obtain ⟨leak', ht', -⟩ := tally_step ht hs
    exact ⟨leak', ht'⟩

theorem capacity_of_reaches {s : State ι} (h : Reaches (step connectionsPerHost) init s) :
    Capacity connectionsPerHost s :=
  h.invariant (fun _ _ _ hc hs => capacity_step hc hs) capacity_init

/-- In every reachable state and for every key, connections and counted opens are
within the limit, `opening_count` is at least the number of opens in flight, an open in
flight finds its entry and a count to decrement when it ends, and the ids of an entry
are distinct and below `next_id`. -/
theorem pool_capacity {s : State ι} (h : Reaches (step connectionsPerHost) init s)
    (key : HostKey) :
    (∀ hp, s.shared.hostPools key = some hp →
      hp.connections.length + hp.openingCount ≤ max 1 connectionsPerHost ∧
      (hp.connections.map PooledConnection.id).Nodup ∧ ∀ c ∈ hp.connections, c.id < hp.nextId) ∧
    (∃ n, Count (Client.InFlight key) s.locals n ∧ n ≤ openings (s.shared.hostPools key)) ∧
    (∀ i, (s.locals i).InFlight key → (s.shared.hostPools key).isSome) ∧
    (∀ i isFirst conn, s.locals i = .opened key isFirst conn → ∃ pools handle,
      insertOpened s.shared.hostPools key isFirst conn = .inserted pools handle) ∧
    (∀ i isFirst err, s.locals i = .openFailed key isFirst err →
      (removeFailed s.shared.hostPools key).isSome) := by
  have hcap := capacity_of_reaches h
  obtain ⟨leak, ht⟩ := hcap.tally key
  have found : ∀ i, (s.locals i).InFlight key →
      ∃ hp, s.shared.hostPools key = some hp ∧ hp.openingCount ≠ 0 := by
    intro i hi
    have hpos := tally_pos ht hi
    cases hk : s.shared.hostPools key with
    | none => simp [hk] at hpos
    | some hp => exact ⟨hp, rfl, by simpa [hk] using hpos.ne'⟩
  refine ⟨fun hp hk => ?_, ?_, fun i hi => ?_, fun i f conn hi => ?_, fun i f err hi => ?_⟩
  · have hw := hcap.entries key hp hk
    exact ⟨hw.capacity, hw.nodup, hw.fresh⟩
  · obtain ⟨n, hn, he⟩ := ht
    exact ⟨n, hn, by omega⟩
  · obtain ⟨hp, hk, -⟩ := found i hi
    simp [hk]
  · obtain ⟨hp, hk, h0⟩ := found i (hi ▸ rfl)
    exact ⟨_, _, by simp only [insertOpened, hk, if_neg h0]; rfl⟩
  · obtain ⟨hp, hk, h0⟩ := found i (hi ▸ rfl)
    simp only [removeFailed, hk, if_neg h0]
    split_ifs <;> rfl

/-- Client 0 opens a connection, client 1 waits for it. -/
def waitRun : List (ℕ × ClientEvent) :=
  [(0, .start ("h", 80)), (1, .start ("h", 80)), (0, .decide (fun _ => .ready) fun _ => .ready),
    (1, .decide (fun _ => .ready) fun _ => .ready), (1, .register), (0, .connect (.ok .http1))]

theorem pool_capacity_waitRun : ∃ s, run (step 1) init waitRun = some s ∧
    (∃ n, Count (Client.InFlight ("h", 80)) s.locals n ∧
      n ≤ openings (s.shared.hostPools ("h", 80))) ∧
    ∃ pools handle,
      insertOpened s.shared.hostPools ("h", 80) true (.h1 0) = .inserted pools handle := by
  obtain ⟨s, hr, h0⟩ : ∃ s, run (step 1) init waitRun = some s ∧
    s.locals 0 = .opened ("h", 80) true (.h1 0) := ⟨_, rfl, rfl⟩
  have hcap := pool_capacity ⟨waitRun, hr⟩ ("h", 80)
  exact ⟨s, hr, hcap.2.1, hcap.2.2.2.1 0 true _ h0⟩

end Pool

end Imgdl
