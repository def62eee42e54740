import Imgdl.Custody
import Imgdl.PoolCapacity

/-!
# Checking out HTTP/1.1 connections

The HTTP/1.1 entries of the pool are slots, by key and id, with the sender that is in
them (`slots`). A sender is in a slot, owned by a client, or gone. What a section does to
slots and senders is one of the moves of `CheckoutMove`, each a move of a token in the
sense of `Custody`, so no sender is ever in two places.

`Checkout` is the invariant of every run : the slot of a checked-out handle is empty, and
no two handles have the same slot. `Accounted` is that of the runs in which no client is
cancelled with an open in flight or with a handle : every empty slot is one of a handle,
and every counted open is in flight.
-/

set_option linter.unusedSectionVars false

namespace Imgdl

open Transition Interleaving

/-! ## Slots -/

/-- The HTTP/1.1 entries by key and id. -/
abbrev Slots := HostKey × ℕ → Option (Option SenderId)

/-- The HTTP/1.1 entry with an id. -/
def slotOf (conns : List PooledConnection) (id : ℕ) : Option (Option SenderId) :=
  (conns.find? fun c => c.id = id).bind fun c =>
    match c.sender with
    | .h1 opt => some opt
    | .h2 _ => none

/-- The HTTP/1.1 entries of the pool. -/
def slots (pools : HostPools) : Slots :=
  fun x => (pools x.1).bind fun hp => slotOf hp.connections x.2

section SlotOf

variable {conns conns' : List PooledConnection} {id : ℕ}

theorem slotOf_eq_some (hn : (conns.map PooledConnection.id).Nodup) {o : Option SenderId} :
    slotOf conns id = some o ↔ ⟨id, .h1 o⟩ ∈ conns := by
  unfold slotOf
  constructor
  · intro h
    obtain ⟨⟨i, sender⟩, hf, hs⟩ := Option.bind_eq_some_iff.1 h
    obtain rfl : i = id := by simpa using List.find?_some hf
    cases sender with
    | h2 s => cases hs
    | h1 opt =>
      obtain rfl := Option.some.inj hs
      exact List.mem_of_find?_eq_some hf
  · intro h
    obtain ⟨c, hf⟩ := Option.isSome_iff_exists.1
      (List.find?_isSome.2 ⟨_, h, by simp⟩ : (conns.find? fun c => c.id = id).isSome)
    have hid : c.id = id := by simpa using List.find?_some hf
    obtain rfl := List.inj_on_of_nodup_map hn (List.mem_of_find?_eq_some hf) h hid
    simp [hf]

/-- Two lists with the same HTTP/1.1 entries have the same slots. -/
theorem slotOf_ext {f : ℕ → Option (Option SenderId)}
    (hn : (conns.map PooledConnection.id).Nodup)
    (h : ∀ i o, ⟨i, .h1 o⟩ ∈ conns ↔ f i = some o) : slotOf conns = f :=
  funext fun i => Option.ext fun o => (slotOf_eq_some hn).trans (h i o)

theorem slotOf_pruned (hn : (conns.map PooledConnection.id).Nodup) (h : Pruned conns conns') :
    slotOf conns' = slotOf conns :=
  slotOf_ext ((h.1.map _).nodup hn) fun i o =>
    ⟨fun hm => (slotOf_eq_some hn).2 (h.1.subset hm),
      fun hs => h.2 i o ((slotOf_eq_some hn).1 hs)⟩

theorem slotOf_swap (hn : (conns.map PooledConnection.id).Nodup) {o o' : Option SenderId}
    (h : Swap id (.h1 o) (.h1 o') conns conns') :
    slotOf conns' = Function.update (slotOf conns) id (some o') := by
  refine slotOf_ext (h.ids_eq ▸ hn) fun i u => ?_
  rw [h.mem_iff hn]
  rcases eq_or_ne i id with rfl | hi
  · simp [eq_comm]
  · simp [hi, slotOf_eq_some hn]

theorem slotOf_filter_ne (hn : (conns.map PooledConnection.id).Nodup) :
    slotOf (conns.filter fun c => c.id ≠ id) = Function.update (slotOf conns) id none := by
  refine slotOf_ext ((List.filter_sublist.map _).nodup hn) fun i o => ?_
  rcases eq_or_ne i id with rfl | hi
  · simp
  · simp [hi, slotOf_eq_some hn]

/-- An id that is not in the list has no slot. -/
theorem slotOf_eq_none (h : ∀ c ∈ conns, c.id ≠ id) : slotOf conns id = none := by
  unfold slotOf
  rw [List.find?_eq_none.2 fun c hc => by simpa using h c hc]
  rfl

theorem slotOf_append {sender : ConnectionSender} (h : ∀ c ∈ conns, c.id ≠ id) :
    slotOf (conns ++ [⟨id, sender⟩]) = Function.update (slotOf conns) id
      (match sender with
        | .h1 opt => some opt
        | .h2 _ => none) := by
  funext i
  rcases eq_or_ne i id with rfl | hi
  · rw [Function.update_self, slotOf, List.find?_append,
      List.find?_eq_none.2 fun c hc => by simpa using h c hc]
    simp
  · rw [Function.update_of_ne hi, slotOf, slotOf, List.find?_append]
    simp [hi.symm]

end SlotOf

theorem slots_eq_some {pools : HostPools} {key : HostKey} {id : ℕ} {o : Option SenderId}
    (hn : ∀ hp, pools key = some hp → (hp.connections.map PooledConnection.id).Nodup) :
    slots pools (key, id) = some o ↔
      ∃ hp, pools key = some hp ∧ ⟨id, .h1 o⟩ ∈ hp.connections := by
  unfold slots
  rw [Option.bind_eq_some_iff]
  exact exists_congr fun hp => and_congr_right fun hk => slotOf_eq_some (hn hp hk)

/-- Replacing an entry by one with the same slots changes no slot. -/
theorem slots_update_same {pools : HostPools} {key : HostKey} {o : Option HostPool}
    (h : ∀ id, (o.bind fun hp => slotOf hp.connections id) = slots pools (key, id)) :
    slots (Function.update pools key o) = slots pools := by
  funext x
  obtain ⟨k, id⟩ := x
  rcases eq_or_ne k key with rfl | hk
  · rw [slots, Function.update_self, h]
  · simp [slots, Function.update_of_ne hk]

/-- Replacing an entry by one in which one slot differs changes that slot. -/
theorem slots_update {pools : HostPools} {key : HostKey} {hp hp' : HostPool} {id : ℕ}
    {v : Option (Option SenderId)} (hk : pools key = some hp)
    (h : slotOf hp'.connections = Function.update (slotOf hp.connections) id v) :
    slots (Function.update pools key (some hp')) =
      Function.update (slots pools) (key, id) v := by
  funext x
  obtain ⟨k, i⟩ := x
  rcases eq_or_ne k key with rfl | hne
  · rw [slots, Function.update_self, Option.bind_some, h]
    rcases eq_or_ne i id with rfl | hi
    · rw [Function.update_self, Function.update_self]
    · rw [Function.update_of_ne hi, Function.update_of_ne (by simp [hi]), slots, hk]
      rfl
  · rw [slots, Function.update_of_ne hne, Function.update_of_ne (by simp [hne])]
    rfl

/-! ## What a section does to slots and senders -/

/-- A section with the event `e` takes the slots `S`, the next sender `n` and the client
`c` to `S'`, `n'` and `c'`. -/
inductive CheckoutMove (e : ClientEvent) (n : SenderId) (S : Slots) (c : Client) :
    SenderId → Slots → Client → Prop where
  | stay {c' : Client} {m : SenderId} : n ≤ m → c'.owned = c.owned → c'.lease = c.lease →
    CheckoutMove e n S c m S c'
  /-- The client gives up what it owns. -/
  | drop {c' : Client} : c'.owned = none → c'.lease = none → (c.lease.isSome → e = .cancel) →
    CheckoutMove e n S c n S c'
  | opened {c' : Client} : c.owned = none → c.lease = none → c'.owned = some n →
    c'.lease = none → CheckoutMove e n S c (n + 1) S c'
  /-- A new slot, checked out. -/
  | insert {c' : Client} {x : HostKey × ℕ} {t : SenderId} : S x = none → c.owned = some t →
    c.lease = none → c'.owned = some t → c'.lease = some (x, t) →
    CheckoutMove e n S c n (Function.update S x (some none)) c'
  | take {c' : Client} {x : HostKey × ℕ} {t : SenderId} : S x = some (some t) →
    c.owned = none → c.lease = none → c'.owned = some t → c'.lease = some (x, t) →
    CheckoutMove e n S c n (Function.update S x (some none)) c'
  | giveBack {c' : Client} {x : HostKey × ℕ} {t : SenderId} : c.lease = some (x, t) →
    c'.owned = none → c'.lease = none →
    CheckoutMove e n S c n (Function.update S x (some (some t))) c'
  | remove {c' : Client} {x : HostKey × ℕ} {t : SenderId} : c.lease = some (x, t) →
    c'.owned = none → c'.lease = none →
    CheckoutMove e n S c n (Function.update S x none) c'

theorem CheckoutMove.le {e : ClientEvent} {n n' : SenderId} {S S' : Slots} {c c' : Client}
    (hm : CheckoutMove e n S c n' S' c') : n ≤ n' := by
  cases hm with
  | stay h _ _ => exact h
  | opened => exact Nat.le_succ n
  | _ => exact le_rfl

namespace Client

theorem owned_of_lease {c : Client} {x : HostKey × ℕ} {t : SenderId}
    (h : c.lease = some (x, t)) : c.owned = some t := by
  cases c with
  | requesting k handle =>
    obtain ⟨sender, id⟩ := handle
    cases sender with
    | h2 s => cases h
    | h1 s =>
      obtain ⟨-, rfl⟩ := Prod.mk.inj (Option.some.inj h)
      rfl
  | finishing k handle r =>
    obtain ⟨sender, id⟩ := handle
    cases sender with
    | h2 s => cases h
    | h1 s =>
      obtain ⟨-, rfl⟩ := Prod.mk.inj (Option.some.inj h)
      rfl
  | _ => cases h

/-- An open in flight is not checked out yet. -/
theorem InFlight.lease_eq_none {c : Client} {key : HostKey} (h : c.InFlight key) :
    c.lease = none := by
  cases c <;> first | exact h.elim | rfl

end Client

section Moves

variable {connectionsPerHost : ℕ} {p p' : PoolState} {c c' : Client} {e : ClientEvent}

theorem checkoutMove_hostAction {key : HostKey} {n : ℕ} {hp hp' : HostPool} {a : AcquireAction}
    (hk : p.hostPools key = some hp) (hn : (hp.connections.map PooledConnection.id).Nodup)
    (ha : HostAction connectionsPerHost hp hp' a) :
    CheckoutMove e p.nextSender (slots p.hostPools) (.locking key n) p.nextSender
      (slots (Function.update p.hostPools key (some hp'))) (afterAction key n a) := by
  have pruned : ∀ {conns : List PooledConnection} {m : ℕ}, Pruned hp.connections conns →
      slots (Function.update p.hostPools key
        (some { hp with connections := conns, openingCount := m })) = slots p.hostPools := by
    refine fun hpr => slots_update_same fun id => ?_
    rw [Option.bind_some, slotOf_pruned hn hpr, slots, hk, Option.bind_some]
  cases ha with
  | @reuseH1 id s conns _ hs =>
    rw [slots_update (v := some none) hk (slotOf_swap hn hs)]
    refine .take ?_ rfl rfl rfl rfl
    rw [slots, hk]
    exact (slotOf_eq_some hn).2 hs.mem_left
  | reuseH2 hpr _ =>
    rw [pruned hpr]
    exact .stay le_rfl rfl rfl
  | scale hpr _ =>
    rw [pruned hpr]
    exact .stay le_rfl rfl rfl
  | wait hpr _ =>
    rw [pruned hpr]
    exact .stay le_rfl rfl rfl

theorem checkoutMove_insert {key : HostKey} {isFirst : Bool} {conn : OpenedConnection}
    {hp : HostPool} (hk : p.hostPools key = some hp)
    (hfresh : ∀ c ∈ hp.connections, c.id < hp.nextId) :
    CheckoutMove e p.nextSender (slots p.hostPools) (.opened key isFirst conn) p.nextSender
      (slots (Function.update p.hostPools key (some (hp.insert isFirst conn))))
      (.requesting key ⟨conn.split.1, hp.nextId⟩) := by
  have hne : ∀ c ∈ hp.connections, c.id ≠ hp.nextId := fun c hc => (hfresh c hc).ne
  have h0 : slots p.hostPools (key, hp.nextId) = none := by
    rw [slots, hk]
    exact slotOf_eq_none hne
  rw [slots_update hk (slotOf_append hne)]
  cases conn with
  | h2 s =>
    simp only [OpenedConnection.split]
    rw [← h0, Function.update_eq_self]
    exact .stay le_rfl rfl rfl
  | h1 s => exact .insert h0 rfl rfl rfl rfl

/-- A usable sender goes back into its slot, and the slot of any other is removed. -/
theorem slots_finishConnection {key : HostKey} {id : ℕ} {t : SenderId} {ok : Bool}
    (hw : Pool.EntriesWithin connectionsPerHost p)
    (hlent : slots p.hostPools (key, id) = some none) :
    slots (finishConnection p key ⟨.h1 t, id⟩ ok).hostPools =
      Function.update (slots p.hostPools) (key, id) (if ok then some (some t) else none) := by
  obtain ⟨hp, hk, hmem⟩ := (slots_eq_some fun hp hk => (hw key hp hk).nodup).1 hlent
  have hn := (hw key hp hk).nodup
  simp only [finishConnection, returnH1Connection, removeDeadConnection, hk]
  cases ok with
  | true =>
    simp only [if_true, PoolState.signal_hostPools]
    rw [slots_update hk (slotOf_swap hn (giveBack_swap hn hmem))]
  | false =>
    simp only [Bool.false_eq_true, if_false, PoolState.signal_hostPools]
    rw [slots_update hk (slotOf_filter_ne hn)]

theorem checkoutMove_finish {key : HostKey} {handle : PoolHandle}
    {result : Except DownloadError TransportResult}
    (hw : Pool.EntriesWithin connectionsPerHost p)
    (hlent : ∀ x t, (Client.finishing key handle result).lease = some (x, t) →
      slots p.hostPools x = some none) :
    CheckoutMove e p.nextSender (slots p.hostPools) (.finishing key handle result) p.nextSender
      (slots (finishConnection p key handle (usable result)).hostPools) (.finished result) := by
  obtain ⟨sender, id⟩ := handle
  cases sender with
  | h2 s =>
    simp only [finishConnection, PoolState.signal_hostPools]
    exact .stay le_rfl rfl rfl
  | h1 s =>
    rw [slots_finishConnection hw (hlent (key, id) s rfl)]
    cases usable result with
    | true => exact .giveBack rfl rfl rfl
    | false => exact .remove rfl rfl rfl

/-- Every section is one of the moves, if the handle of the client has an empty slot. -/
theorem checkoutMove (hw : Pool.EntriesWithin connectionsPerHost p)
    (hlent : ∀ x t, c.lease = some (x, t) → slots p.hostPools x = some none)
    (hm : ClientMove connectionsPerHost p c e p' c') :
    CheckoutMove e p.nextSender (slots p.hostPools) c p'.nextSender (slots p'.hostPools) c' := by
  cases hm with
  | start | refused | leave => exact .stay le_rfl rfl rfl
  | @respond _ handle _ =>
    obtain ⟨sender, id⟩ := handle
    cases sender <;> exact .stay le_rfl rfl rfl
  | @first key _ _ _ hk =>
    rw [slots_update_same fun id => by simp [slots, hk, HostPool.placeholder, slotOf]]
    exact .stay le_rfl rfl rfl
  | existing hk ha => exact checkoutMove_hostAction hk (hw _ _ hk).nodup ha
  | park hp hs hb hb' =>
    rw [hp, hs]
    exact .stay le_rfl (hb'.owned.trans hb.owned.symm) (hb'.lease.trans hb.lease.symm)
  | @connected _ _ proto =>
    cases proto with
    | http2 => exact .stay (Nat.le_succ _) rfl rfl
    | http1 => exact .opened rfl rfl rfl rfl
  | inserted hk _ => exact checkoutMove_insert hk (hw _ _ hk).fresh
  | lost hf _ hb => exact .drop hb.owned hb.lease fun h => by simp [hf.lease_eq_none] at h
  | dropEntry hk hc _ =>
    rw [slots_update_same fun id => by simp [slots, hk, hc, slotOf]]
    exact .stay le_rfl rfl rfl
  | uncount hk _ _ hp hs =>
    rw [hp, hs, slots_update_same fun id => by simp [slots, hk]]
    exact .stay le_rfl rfl rfl
  | finish =>
    rw [finishConnection_nextSender]
    exact checkoutMove_finish hw hlent
  | cancel hp hs =>
    rw [hp, hs]
    exact .drop rfl rfl fun _ => rfl

end Moves

/-! ## The invariant of every run -/

namespace Pool

variable {ι : Type*} [DecidableEq ι]

/-- Where an HTTP/1.1 sender can be. -/
inductive Place (ι : Type*) where
  | slot (x : HostKey × ℕ)
  | task (i : ι)
  deriving DecidableEq

/-- The sender in a place. -/
def content (S : Slots) (f : ι → Client) : Place ι → Option SenderId
  | .slot x => (S x).join
  | .task i => (f i).owned

theorem content_update_slot {S : Slots} {f : ι → Client} {x : HostKey × ℕ}
    {v : Option (Option SenderId)} :
    content (Function.update S x v) f = Function.update (content S f) (.slot x) v.join := by
  funext q
  cases q with
  | slot y =>
    rcases eq_or_ne y x with rfl | hy
    · simp [content]
    · simp [content, hy]
  | task j => simp [content]

theorem content_update_task {S : Slots} {f : ι → Client} {i : ι} {c : Client} :
    content S (Function.update f i c) = Function.update (content S f) (.task i) c.owned := by
  funext q
  cases q with
  | slot y => simp [content]
  | task j =>
    rcases eq_or_ne j i with rfl | hj
    · simp [content]
    · simp [content, hj]

/-- No sender is in two places, and the slot of a checked-out handle is its own and empty. -/
structure Checkout (n : SenderId) (S : Slots) (f : ι → Client) : Prop where
  exclusive : Custody.Exclusive (content S f)
  below : ∀ q t, content S f q = some t → t < n
  lent : ∀ i x t, (f i).lease = some (x, t) → S x = some none
  lentOnce : ∀ i j x t u, (f i).lease = some (x, t) → (f j).lease = some (x, u) → i = j

/-- Every empty slot is the one of a checked-out handle. -/
def Accounted (S : Slots) (f : ι → Client) : Prop :=
  ∀ x, S x = some none → ∃ i t, (f i).lease = some (x, t)

variable {e : ClientEvent} {n n' : SenderId} {S S' : Slots} {f : ι → Client} {i : ι}
  {c' : Client}

/-- A section moves at most one sender, and mints only the next one. -/
theorem Checkout.custody (h : Checkout n S f) (hm : CheckoutMove e n S (f i) n' S' c') :
    Custody.Move (fun t => t = n ∧ n < n') (content S f) (content S' (Function.update f i c')) := by
  rw [content_update_task]
  have task : content S f (.task i) = (f i).owned := rfl
  have slot : ∀ x, content S f (.slot x) = (S x).join := fun _ => rfl
  cases hm with
  | stay _ ho _ =>
    rw [ho, ← task, Function.update_eq_self]
    exact .stay
  | drop ho _ _ =>
    rw [ho]
    exact .drop
  | opened hi _ ho _ =>
    rw [ho]
    exact .mint ⟨rfl, Nat.lt_succ_self n⟩ (fun q hq => (h.below q n hq).ne rfl) (task.trans hi)
  | @insert _ x t hx hi _ ho _ =>
    rw [ho, ← hi, ← task, content_update_slot, Option.join_some,
      show none = content S f (.slot x) by rw [slot, hx]; rfl, Function.update_eq_self,
      Function.update_eq_self]
    exact .stay
  | @take _ x t hx hi _ ho _ =>
    rw [ho, content_update_slot, Option.join_some]
    exact .carry (by rw [slot, hx]; rfl) (task.trans hi)
  | @giveBack _ x t hl ho _ =>
    rw [ho, content_update_slot, Option.join_some, Function.update_comm (by simp)]
    refine .carry (task.trans (Client.owned_of_lease hl)) ?_
    rw [slot, h.lent i x t hl]
    rfl
  | @remove _ x t hl ho _ =>
    rw [ho, content_update_slot, Option.join_none,
      show none = content S f (.slot x) by rw [slot, h.lent i x t hl]; rfl,
      Function.update_eq_self, slot, h.lent i x t hl, Option.join_some]
    exact .drop

/-- Whose handle it is after a section : the one the client got, or one that was there. -/
theorem lease_update {j : ι} {x : HostKey × ℕ} {t : SenderId}
    (h : (Function.update f i c' j).lease = some (x, t)) :
    (j = i ∧ c'.lease = some (x, t)) ∨ (j ≠ i ∧ (f j).lease = some (x, t)) := by
  rcases eq_or_ne j i with rfl | hj
  · exact Or.inl ⟨rfl, by simpa using h⟩
  · exact Or.inr ⟨hj, by simpa [Function.update_of_ne hj] using h⟩

/-- Nobody else has the slot of the handle a client has after a section. -/
theorem Checkout.lease_fresh (h : Checkout n S f) (hm : CheckoutMove e n S (f i) n' S' c')
    {k : ι} {x : HostKey × ℕ} {t u : SenderId} (hk : k ≠ i) (hc : c'.lease = some (x, t)) :
    (f k).lease ≠ some (x, u) := by
  intro hl
  have hx := h.lent k x u hl
  cases hm with
  | stay _ _ hs => exact hk (h.lentOnce k i x u t hl (hs ▸ hc))
  | drop _ hs _ | opened _ _ _ hs | giveBack _ _ hs | remove _ _ hs => simp [hs] at hc
  | insert h0 _ _ _ hs | take h0 _ _ _ hs =>
    obtain ⟨rfl, -⟩ := Prod.mk.inj (Option.some.inj (hs.symm.trans hc))
    simp [hx] at h0

/-- The slot of every handle is empty after a section. -/
theorem Checkout.lent_move (h : Checkout n S f) (hm : CheckoutMove e n S (f i) n' S' c')
    {j : ι} {x : HostKey × ℕ} {t : SenderId}
    (hj : (Function.update f i c' j).lease = some (x, t)) : S' x = some none := by
  rcases lease_update hj with ⟨rfl, hl⟩ | ⟨hji, hl⟩
  · cases hm with
    | stay _ _ hs => exact h.lent j x t (hs ▸ hl)
    | drop _ hs _ | opened _ _ _ hs | giveBack _ _ hs | remove _ _ hs => simp [hs] at hl
    | insert _ _ _ _ hs | take _ _ _ _ hs =>
      obtain ⟨rfl, -⟩ := Prod.mk.inj (Option.some.inj (hs.symm.trans hl))
      simp
  · have hx := h.lent j x t hl
    cases hm with
    | stay | drop | opened => exact hx
    | insert h0 _ _ _ _ | take h0 _ _ _ _ =>
      rwa [Function.update_of_ne]
      rintro rfl
      simp [hx] at h0
    | giveBack hi _ _ | remove hi _ _ =>
      rwa [Function.update_of_ne]
      rintro rfl
      exact hji (h.lentOnce j i _ t _ hl hi)

theorem Checkout.move (h : Checkout n S f) (hm : CheckoutMove e n S (f i) n' S' c') :
    Checkout n' S' (Function.update f i c') := by
  have hcust := h.custody hm
  refine ⟨h.exclusive.move hcust, fun q t hq => ?_, fun j x t hj => h.lent_move hm hj,
    fun j k x t u hj hk => ?_⟩
  · by_cases ht : t = n ∧ n < n'
    · exact ht.1.trans_lt ht.2
    · obtain ⟨q', hq'⟩ := hcust.source hq ht
      exact (h.below q' t hq').trans_le hm.le
  · rcases lease_update hj with ⟨hji, hlj⟩ | ⟨hji, hlj⟩ <;>
      rcases lease_update hk with ⟨hki, hlk⟩ | ⟨hki, hlk⟩
    · exact hji.trans hki.symm
    · exact absurd hlk (h.lease_fresh hm hki hlj)
    · exact absurd hlj (h.lease_fresh hm hji hlk)
    · exact h.lentOnce j k x t u hlj hlk

/-- Without the cancellation of a client that holds a handle, no slot is left empty. -/
theorem Accounted.move (ha : Accounted S f) (hm : CheckoutMove e n S (f i) n' S' c')
    (he : (f i).lease.isSome → e ≠ .cancel) : Accounted S' (Function.update f i c') := by
  -- a handle is still there unless it is the one the client gave up
  have keep : ∀ {x}, (∃ j t, (f j).lease = some (x, t)) →
      (∀ t, (f i).lease = some (x, t) → c'.lease = some (x, t)) →
      ∃ j t, (Function.update f i c' j).lease = some (x, t) := by
    rintro x ⟨j, t, hj⟩ hkeep
    rcases eq_or_ne j i with rfl | hji
    · exact ⟨j, t, by rw [Function.update_self, hkeep t hj]⟩
    · exact ⟨j, t, by rw [Function.update_of_ne hji, hj]⟩
  intro x hx
  cases hm with
  | stay _ _ hs => exact keep (ha x hx) fun t ht => hs.trans ht
  | drop _ _ hc =>
    exact keep (ha x hx) fun t ht => absurd (hc (by rw [ht]; rfl)) (he (by rw [ht]; rfl))
  | opened _ hi _ _ => exact keep (ha x hx) fun t ht => by simp [hi] at ht
  | @insert _ y u _ _ hi _ hs | @take _ y u _ _ hi _ hs =>
    rcases eq_or_ne x y with rfl | hxy
    · exact ⟨i, u, by rw [Function.update_self, hs]⟩
    · rw [Function.update_of_ne hxy] at hx
      exact keep (ha x hx) fun t ht => by simp [hi] at ht
  | @giveBack _ y u hi _ _ | @remove _ y u hi _ _ =>
    rcases eq_or_ne x y with rfl | hxy
    · simp at hx
    · rw [Function.update_of_ne hxy] at hx
      refine keep (ha x hx) fun t ht => ?_
      exact absurd (Prod.mk.inj (Option.some.inj (hi.symm.trans ht))).1.symm hxy

/-! ## Every run -/

variable {connectionsPerHost : ℕ} {s s' : State ι}

/-- The invariant of a reachable state. -/
structure PoolInv (connectionsPerHost : ℕ) (s : State ι) : Prop
    extends Capacity connectionsPerHost s where
  checkout : Checkout s.shared.nextSender (slots s.shared.hostPools) s.locals

theorem poolInv_init : PoolInv connectionsPerHost (init : State ι) := by
  have empty : ∀ q t, content (slots PoolState.new.hostPools)
      (fun _ : ι => Client.idle) q ≠ some t := by
    rintro (_ | _) t h <;> cases h
  exact ⟨capacity_init, fun q _ t hq => absurd hq (empty q t), fun q t hq => absurd hq (empty q t),
    fun _ _ _ h => (nomatch h), fun _ _ _ _ _ h => (nomatch h)⟩

theorem PoolInv.checkoutMove (h : PoolInv connectionsPerHost s)
    (hs : step connectionsPerHost s (i, e) = some s') :
    ∃ c', s'.locals = Function.update s.locals i c' ∧
      CheckoutMove e s.shared.nextSender (slots s.shared.hostPools) (s.locals i)
        s'.shared.nextSender (slots s'.shared.hostPools) c' := by
  obtain ⟨c', hp, hl⟩ := Par.step_eq_some.1 hs
  exact ⟨c', hl, Imgdl.checkoutMove h.entries (h.checkout.lent i)
    (clientStep_cases connectionsPerHost hp)⟩

theorem poolInv_step {e : ι × ClientEvent} (h : PoolInv connectionsPerHost s)
    (hs : step connectionsPerHost s e = some s') : PoolInv connectionsPerHost s' := by
  obtain ⟨i, e⟩ := e
  obtain ⟨c', hl, hm⟩ := h.checkoutMove hs
  exact ⟨capacity_step h.toCapacity hs, hl ▸ h.checkout.move hm⟩

theorem poolInv_of_reaches (h : Reaches (step connectionsPerHost) init s) :
    PoolInv connectionsPerHost s :=
  h.invariant (fun _ _ _ hi hs => poolInv_step hi hs) poolInv_init

/-! ### Runs that lose nothing -/

/-- No client is cancelled with an open in flight or with a handle. -/
def KeepsWork (s : State ι) (e : ι × ClientEvent) : Prop :=
  e.2 = .cancel → (∀ key, ¬(s.locals e.1).InFlight key) ∧ (s.locals e.1).lease = none

/-- Every counted open is in flight, and every empty slot is the one of a handle. -/
structure Balanced (s : State ι) : Prop where
  tally : ∀ key, Tally s key 0
  accounted : Accounted (slots s.shared.hostPools) s.locals

theorem balanced_init : Balanced (init : State ι) :=
  ⟨fun _ => ⟨0, Count.zero fun _ => id, rfl⟩, fun _ h => nomatch h⟩

theorem balanced_step {e : ι × ClientEvent} (hi : PoolInv connectionsPerHost s)
    (h : Balanced s) (he : KeepsWork s e) (hs : step connectionsPerHost s e = some s') :
    Balanced s' := by
  obtain ⟨i, e⟩ := e
  refine ⟨fun key => ?_, ?_⟩
  · obtain ⟨leak, ht, hl⟩ := tally_step (h.tally key) hs
    rwa [hl fun hc => (he hc.1).1 key hc.2] at ht
  · obtain ⟨c', hl, hm⟩ := hi.checkoutMove hs
    rw [hl]
    exact h.accounted.move hm fun hsome hc => by simp [(he hc).2] at hsome

theorem balanced_of_run {es : List (ι × ClientEvent)}
    (hr : run (step connectionsPerHost) init es = some s)
    (hm : Meets (step connectionsPerHost) KeepsWork init es) :
    PoolInv connectionsPerHost s ∧ Balanced s :=
  run_invariant (I := fun s => PoolInv connectionsPerHost s ∧ Balanced s)
    (fun _ _ _ h he hs => ⟨poolInv_step h.1 hs, balanced_step h.1 h.2 he hs⟩)
    ⟨poolInv_init, balanced_init⟩ hm hr

/-- Once no client has an open in flight or a handle, nothing is counted or checked out. -/
theorem Balanced.quiet (hi : PoolInv connectionsPerHost s) (h : Balanced s)
    (hq : ∀ i, (∀ key, ¬(s.locals i).InFlight key) ∧ (s.locals i).lease = none)
    {key : HostKey} {hp : HostPool} (hk : s.shared.hostPools key = some hp) :
    hp.openingCount = 0 ∧ ∀ id, ⟨id, .h1 none⟩ ∉ hp.connections := by
  constructor
  · obtain ⟨n, hn, he⟩ := h.tally key
    rw [hn.unique (Count.zero fun i => (hq i).1 key), hk, openings_some] at he
    exact he.symm
  · intro id hmem
    obtain ⟨i, t, hl⟩ := h.accounted (key, id)
      ((slots_eq_some fun hp hk => (hi.entries key hp hk).nodup).2 ⟨hp, hk, hmem⟩)
    simp [(hq i).2] at hl

/-! ### Dead connections -/

/-- The sender `t` is nowhere, or with a client that is about to remove its entry. -/
def Condemned (t : SenderId) (s : State ι) : Prop :=
  t < s.shared.nextSender ∧ ∀ q, content (slots s.shared.hostPools) s.locals q = some t →
    ∃ i key id result, q = .task i ∧ usable result = false ∧
      s.locals i = .finishing key ⟨.h1 t, id⟩ result

/-- The section after a failed request leaves its sender nowhere. -/
theorem gone_of_condemned (hi : PoolInv connectionsPerHost s) {key : HostKey} {id : ℕ}
    {t : SenderId} {result : Except DownloadError TransportResult}
    (hc : s.locals i = .finishing key ⟨.h1 t, id⟩ result) (hu : usable result = false)
    (hs : step connectionsPerHost s (i, e) = some s') :
    Custody.Gone (content (slots s'.shared.hostPools) s'.locals) t := by
  obtain ⟨c', hp, hl⟩ := Par.step_eq_some.1 hs
  have hown : content (slots s.shared.hostPools) s.locals (.task i) = some t := by
    rw [content, hc]
    rfl
  have hlent : slots s.shared.hostPools (key, id) = some none :=
    hi.checkout.lent i (key, id) t (by rw [hc]; rfl)
  -- the sender was with this client only
  suffices hsuff : c'.owned = none ∧ ∀ y, (slots s'.shared.hostPools y).join = some t →
      (slots s.shared.hostPools y).join = some t by
    obtain ⟨ho, hsl⟩ := hsuff
    rintro (y | j) hq
    · cases hi.checkout.exclusive (.slot y) (.task i) t (hsl y hq) hown
    · rcases eq_or_ne j i with rfl | hj
      · simp [content, hl, ho] at hq
      · rw [content, hl, Function.update_of_ne hj] at hq
        obtain rfl := Place.task.inj (hi.checkout.exclusive (.task j) (.task i) t hq hown)
        exact hj rfl
  rw [hc] at hp
  generalize hq : s'.shared = q at hp
  have hm := clientStep_cases connectionsPerHost hp
  cases hm with
  | park _ _ hb _ => exact nomatch hb.owned
  | lost hf _ _ => exact hf.elim
  | finish =>
    refine ⟨rfl, fun y hy => ?_⟩
    rw [hu, slots_finishConnection hi.entries hlent] at hy
    rcases eq_or_ne y (key, id) with rfl | hne
    · simp at hy
    · rwa [Function.update_of_ne hne] at hy
  | cancel hpools _ => exact ⟨rfl, fun y hy => hpools ▸ hy⟩

theorem condemned_step {t : SenderId} {e : ι × ClientEvent} (hi : PoolInv connectionsPerHost s)
    (h : Condemned t s) (hs : step connectionsPerHost s e = some s') : Condemned t s' := by
  obtain ⟨i, e⟩ := e
  obtain ⟨hlt, hat⟩ := h
  obtain ⟨c', hl, hm⟩ := hi.checkoutMove hs
  have hcust := hi.checkout.custody hm
  rw [← hl] at hcust
  refine ⟨hlt.trans_le hm.le, fun q hq => ?_⟩
  obtain ⟨q₀, hq₀⟩ := hcust.source hq fun hmint => hlt.ne hmint.1
  obtain ⟨j, key, id, result, rfl, hu, hj⟩ := hat q₀ hq₀
  rcases eq_or_ne j i with rfl | hji
  · exact absurd hq (gone_of_condemned hi hj hu hs q)
  · have hj' : s'.locals j = s.locals j := Par.step_other hs hji
    have hown : content (slots s'.shared.hostPools) s'.locals (.task j) = some t := by
      rw [content, hj', hj]
      rfl
    exact ⟨j, key, id, result, (poolInv_step hi hs).checkout.exclusive q _ t hq hown, hu,
      hj'.trans hj⟩

/-- A condemned sender is not sent any request any more. -/
theorem Condemned.not_requesting {t : SenderId} (h : Condemned t s) {key : HostKey} {id : ℕ} :
    s.locals i ≠ .requesting key ⟨.h1 t, id⟩ := by
  intro hc
  obtain ⟨j, _, _, _, hij, -, hj⟩ := h.2 (.task i) (by rw [content, hc]; rfl)
  obtain rfl := Place.task.inj hij
  simp [hc] at hj

/-- The sender of a failed attempt is condemned. -/
theorem condemned_of_failed (hi : PoolInv connectionsPerHost s) {key : HostKey} {id : ℕ}
    {t : SenderId} {result : Except DownloadError TransportResult}
    (hc : s.locals i = .finishing key ⟨.h1 t, id⟩ result) (hu : usable result = false) :
    Condemned t s := by
  have hown : content (slots s.shared.hostPools) s.locals (.task i) = some t := by
    rw [content, hc]
    rfl
  exact ⟨hi.checkout.below _ t hown, fun q hq => ⟨i, key, id, result,
    hi.checkout.exclusive q _ t hq hown, hu, hc⟩⟩

/-! ## Exclusive, lossless, never re-issued -/

/-- Where the HTTP/1.1 sender `t` is : idle in an entry of the pool, or with a client. -/
def At (s : State ι) (t : SenderId) : Place ι → Prop
  | .slot x => ∃ hp, s.shared.hostPools x.1 = some hp ∧ ⟨x.2, .h1 (some t)⟩ ∈ hp.connections
  | .task i => (s.locals i).owned = some t

theorem at_iff (hi : PoolInv connectionsPerHost s) {t : SenderId} {q : Place ι} :
    At s t q ↔ content (slots s.shared.hostPools) s.locals q = some t := by
  cases q with
  | slot x =>
    rw [content, Option.join_eq_some_iff]
    exact (slots_eq_some fun hp hk => (hi.entries x.1 hp hk).nodup).symm
  | task i => rfl

/-- The one entry with an id, in a list with distinct ids. -/
theorem filter_id_eq {conns : List PooledConnection} {c : PooledConnection}
    (hn : (conns.map PooledConnection.id).Nodup) (hc : c ∈ conns) :
    conns.filter (fun d => d.id = c.id) = [c] := by
  induction conns with
  | nil => cases hc
  | cons d conns ih =>
    rw [List.map_cons, List.nodup_cons] at hn
    have hne : ∀ d' ∈ conns, d'.id ≠ d.id := fun d' hd' he =>
      hn.1 (he ▸ List.mem_map_of_mem hd')
    rcases List.mem_cons.1 hc with rfl | hc
    · rw [List.filter_cons_of_pos (by simp), List.filter_eq_nil_iff.2 fun d' hd' => by
        simpa using hne d' hd']
    · rw [List.filter_cons_of_neg (by simpa using (hne c hc).symm), ih hn.2 hc]

/-- What a handle finds of its entry, in every reachable state. -/
theorem PoolInv.own_entry (hi : PoolInv connectionsPerHost s) {key : HostKey} {id : ℕ}
    {t : SenderId} (hl : (s.locals i).lease = some ((key, id), t)) :
    ∃ hp conns, s.shared.hostPools key = some hp ∧
      hp.connections.filter (fun d => d.id = id) = [⟨id, .h1 none⟩] ∧
      Swap id (.h1 none) (.h1 (some t)) hp.connections conns ∧
      (returnH1Connection s.shared.hostPools key id t).1 =
        Function.update s.shared.hostPools key (some { hp with connections := conns }) := by
  obtain ⟨hp, hk, hmem⟩ := (slots_eq_some fun hp hk => (hi.entries key hp hk).nodup).1
    (hi.checkout.lent i (key, id) t hl)
  have hn := (hi.entries key hp hk).nodup
  exact ⟨hp, _, hk, filter_id_eq hn hmem, giveBack_swap hn hmem, by
    rw [returnH1Connection, hk]⟩

/-- In every state `s` of a run, an HTTP/1.1 sender is in at most one place; a handle has
one entry with its id, checked out, into which `return_h1_connection` puts its sender;
and a sender whose attempt failed without an HTTP status is not handed out again. If no
client is cancelled, then once all have left or finished, nothing is checked out or
counted as opening. -/
theorem h1_checkout {es : List (ι × ClientEvent)}
    (hr : run (step connectionsPerHost) init es = some s) :
    (∀ key hp, s.shared.hostPools key = some hp →
      (hp.connections.map PooledConnection.id).Nodup) ∧
    (∀ t q q', At s t q → At s t q' → q = q') ∧
    (∀ i key id t, (s.locals i).lease = some ((key, id), t) → ∃ hp conns,
      s.shared.hostPools key = some hp ∧
      hp.connections.filter (fun d => d.id = id) = [⟨id, .h1 none⟩] ∧
      Swap id (.h1 none) (.h1 (some t)) hp.connections conns ∧
      (returnH1Connection s.shared.hostPools key id t).1 =
        Function.update s.shared.hostPools key (some { hp with connections := conns })) ∧
    (∀ i key id t err, s.locals i = .finishing key ⟨.h1 t, id⟩ (.error err) →
      (∀ code message retryAfter, err ≠ .httpStatus code message retryAfter) →
      ∀ s', Reaches (step connectionsPerHost) s s' →
        ∀ j key' id', s'.locals j ≠ .requesting key' ⟨.h1 t, id'⟩) ∧
    ((∀ e ∈ es, e.2 ≠ .cancel) →
      (∀ i, s.locals i = .idle ∨ ∃ result, s.locals i = .finished result) →
      ∀ key hp, s.shared.hostPools key = some hp →
        hp.openingCount = 0 ∧ ∀ id, ⟨id, .h1 none⟩ ∉ hp.connections) := by
  have hi := poolInv_of_reaches ⟨es, hr⟩
  refine ⟨fun key hp hk => (hi.entries key hp hk).nodup, fun t q q' hq hq' => ?_,
    fun i key id t hl => hi.own_entry hl, fun i key id t err hc herr s' hs' j key' id' => ?_,
    fun hno hdone key hp hk => ?_⟩
  · exact hi.checkout.exclusive q q' t ((at_iff hi).1 hq) ((at_iff hi).1 hq')
  · have hu : usable (.error err : Except DownloadError TransportResult) = false := by
      cases err <;> first | rfl | exact absurd rfl (herr _ _ _)
    have hcond := hs'.invariant
      (I := fun s => PoolInv connectionsPerHost s ∧ Condemned t s)
      (fun _ _ _ h hs => ⟨poolInv_step h.1 hs, condemned_step h.1 h.2 hs⟩)
      ⟨hi, condemned_of_failed hi hc hu⟩
    exact hcond.2.not_requesting
  · have hm : Meets (step connectionsPerHost) KeepsWork init es :=
      Meets.of_events (fun _ _ he hc => absurd hc he) hno
    refine (balanced_of_run hr hm).2.quiet hi (fun i => ?_) hk
    rcases hdone i with h | ⟨result, h⟩ <;> rw [h] <;> exact ⟨fun _ => id, rfl⟩

/-- Client 0 opens a connection and gives it back, client 1 checks it out. -/
def reuseRun : List (ℕ × ClientEvent) :=
  [(0, .start ("h", 80)), (1, .start ("h", 80)), (0, .decide (fun _ => .ready) fun _ => .ready),
    (0, .connect (.ok .http1)), (0, .insert), (0, .respond (.ok (.response ⟨[], []⟩))),
    (0, .finish), (1, .decide (fun _ => .ready) fun _ => .ready)]

theorem h1_checkout_reuseRun : ∃ s, run (step 1) init reuseRun = some s ∧
    (∀ q q', At s 0 q → At s 0 q' → q = q') ∧ ∃ hp conns,
      s.shared.hostPools ("h", 80) = some hp ∧
      hp.connections.filter (fun d => d.id = 0) = [⟨0, .h1 none⟩] ∧
      Swap 0 (.h1 none) (.h1 (some 0)) hp.connections conns ∧
      (returnH1Connection s.shared.hostPools ("h", 80) 0 0).1 =
        Function.update s.shared.hostPools ("h", 80) (some { hp with connections := conns }) := by
  obtain ⟨s, hr, h1⟩ : ∃ s, run (step 1) init reuseRun = some s ∧
    (s.locals 1).lease = some ((("h", 80), 0), 0) := ⟨_, rfl, rfl⟩
  have hcheck := h1_checkout hr
  exact ⟨s, hr, hcheck.2.1 0, hcheck.2.2.1 1 ("h", 80) 0 0 h1⟩

end Pool

end Imgdl
