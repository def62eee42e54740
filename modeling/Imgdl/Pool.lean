import Imgdl.Types
import Mathlib.Data.List.Nodup
import Mathlib.Logic.Function.Basic

/-!
# The connection pool

`HostPool` is the pool of one `(host, port)` key, and each `def` below is what one
critical section of the pool's mutex does to the map of keys. No section waits while it
holds the mutex, so a section is one atomic step.

A sender is known by the connection it belongs to (`SenderId`) : clones of an HTTP/2
sender share it, and an HTTP/1.1 sender is the only one with its id. Whether an HTTP/2
sender is ready is up to its connection, so a section that polls senders takes the
answers as arguments, one for each of its two passes.

The lemmas after a section say which entries the pool has afterwards.
-/

namespace Imgdl

/-- Composite key for pool lookups. -/
abbrev HostKey := String × UInt16

/-- An opened connection. -/
abbrev SenderId := ℕ

/-- An `Arc<Notify>`. -/
abbrev NotifyId := ℕ

/-- Negotiated protocol after the TLS handshake. -/
inductive NegotiatedProtocol where
  | http2
  | http1
  deriving DecidableEq, Repr

/-- A pooled sender. An HTTP/1.1 sender that is checked out is `none`. -/
inductive ConnectionSender where
  | h2 (s : SenderId)
  | h1 (opt : Option SenderId)
  deriving DecidableEq, Repr

/-- A single pooled connection with its id. -/
structure PooledConnection where
  id : ℕ
  sender : ConnectionSender
  deriving DecidableEq, Repr

/-- Per-host connection tracking. -/
structure HostPool where
  protocol : NegotiatedProtocol
  connections : List PooledConnection
  notify : NotifyId
  openingCount : ℕ
  nextId : ℕ
  deriving DecidableEq, Repr

/-- `HostPool::total_count`. -/
def HostPool.totalCount (hp : HostPool) : ℕ :=
  hp.connections.length + hp.openingCount

/-- The map behind the mutex. -/
abbrev HostPools := HostKey → Option HostPool

/-- Protocol-specific sender of a handle. -/
inductive PoolHandleSender where
  | h2 (s : SenderId)
  | h1 (s : SenderId)
  deriving DecidableEq, Repr

/-- Handle returned by `acquire`. -/
structure PoolHandle where
  sender : PoolHandleSender
  connectionId : ℕ
  deriving DecidableEq, Repr

/-- A newly opened connection, before it is in the pool. -/
inductive OpenedConnection where
  | h2 (s : SenderId)
  | h1 (s : SenderId)
  deriving DecidableEq, Repr

/-- Action determined by the state of the pool. -/
inductive AcquireAction where
  | returnExisting (handle : PoolHandle)
  | openNew (isFirst : Bool)
  | wait (notify : NotifyId)
  deriving DecidableEq, Repr

/-- HTTP/2 sender readiness. -/
inductive H2Status where
  | ready
  | atCapacity
  | dead
  deriving DecidableEq, Repr

/-- Maximum iterations of the acquire loop. -/
def MAX_ACQUIRE_ATTEMPTS : ℕ := 32

/-! ## Analyzing the pool -/

variable (connectionsPerHost : ℕ) (poll poll' : SenderId → H2Status)

/-- Open another connection if the limit allows it. -/
def scaleOrWait (hp : HostPool) : HostPool × AcquireAction :=
  if hp.totalCount < connectionsPerHost then
    ({ hp with openingCount := hp.openingCount + 1 }, .openNew false)
  else (hp, .wait hp.notify)

/-- Check out the first idle HTTP/1.1 sender. -/
def takeIdle : List PooledConnection → Option (PoolHandle × List PooledConnection)
  | [] => none
  | ⟨id, .h1 (some s)⟩ :: conns => some (⟨.h1 s, id⟩, ⟨id, .h1 none⟩ :: conns)
  | conn :: conns => (takeIdle conns).map fun r => (r.1, conn :: r.2)

/-- `h1_action`. -/
def h1Action (hp : HostPool) : HostPool × AcquireAction :=
  match takeIdle hp.connections with
  | some (handle, conns) => ({ hp with connections := conns }, .returnExisting handle)
  | none => scaleOrWait connectionsPerHost hp

/-- The first pass of `h2_action` keeps every connection but dead HTTP/2 ones. -/
def isAlive (conn : PooledConnection) : Bool :=
  match conn.sender with
  | .h2 s => poll s ≠ .dead
  | .h1 _ => true

/-- The second pass of `h2_action` : the first ready HTTP/2 connection. -/
def findReady : List PooledConnection → Option PoolHandle
  | [] => none
  | ⟨id, .h2 s⟩ :: conns => if poll' s = .ready then some ⟨.h2 s, id⟩ else findReady conns
  | _ :: conns => findReady conns

/-- `h2_action`. -/
def h2Action (hp : HostPool) : HostPool × AcquireAction :=
  let hp := { hp with connections := hp.connections.filter (isAlive poll) }
  match findReady poll' hp.connections with
  | some handle => (hp, .returnExisting handle)
  | none => scaleOrWait connectionsPerHost hp

/-- The entry of a key that has none : an open is under way, and the protocol is a
placeholder until the handshake. -/
def HostPool.placeholder (notify : NotifyId) : HostPool :=
  ⟨.http2, [], notify, 1, 0⟩

/-- What an existing entry of a key answers. -/
def hostAction (hp : HostPool) : HostPool × AcquireAction :=
  match hp.protocol with
  | .http2 => h2Action connectionsPerHost poll poll' hp
  | .http1 => h1Action connectionsPerHost hp

/-- `determine_action`. A new entry gets the `Notify` `fresh`. -/
def determineAction (pools : HostPools) (fresh : NotifyId) (key : HostKey) :
    HostPools × AcquireAction :=
  match pools key with
  | some hp =>
    let r := hostAction connectionsPerHost poll poll' hp
    (Function.update pools key (some r.1), r.2)
  | none => (Function.update pools key (some (HostPool.placeholder fresh)), .openNew true)

/-! ## Opening and giving back -/

/-- How the section after a successful open ends. -/
inductive Inserted where
  | inserted (pools : HostPools) (handle : PoolHandle)
  | disappeared
  /-- `opening_count -= 1` at zero. -/
  | underflow

/-- The entry and the handle of an opened connection. An HTTP/1.1 connection enters the
pool checked out. -/
def OpenedConnection.split : OpenedConnection → PoolHandleSender × ConnectionSender
  | .h2 s => (.h2 s, .h2 s)
  | .h1 s => (.h1 s, .h1 none)

/-- The protocol of an opened connection. -/
def OpenedConnection.protocol : OpenedConnection → NegotiatedProtocol
  | .h2 _ => .http2
  | .h1 _ => .http1

/-- The entry of a key after an opened connection was inserted. -/
def HostPool.insert (hp : HostPool) (isFirst : Bool) (opened : OpenedConnection) : HostPool :=
  { protocol := if isFirst then opened.protocol else hp.protocol
    connections := hp.connections ++ [⟨hp.nextId, opened.split.2⟩]
    notify := hp.notify
    openingCount := hp.openingCount - 1
    nextId := hp.nextId + 1 }

/-- The section of `open_and_insert` after a successful open. -/
def insertOpened (pools : HostPools) (key : HostKey) (isFirst : Bool)
    (opened : OpenedConnection) : Inserted :=
  match pools key with
  | none => .disappeared
  | some hp =>
    if hp.openingCount = 0 then .underflow
    else .inserted (Function.update pools key (some (hp.insert isFirst opened)))
      ⟨opened.split.1, hp.nextId⟩

/-- The section of `open_and_insert` after a failed open, with the `Notify` it signals.
`none` is `opening_count -= 1` at zero. -/
def removeFailed (pools : HostPools) (key : HostKey) : Option (HostPools × Option NotifyId) :=
  match pools key with
  | none => some (pools, none)
  | some hp =>
    if hp.openingCount = 0 then none
    else
      let hp := { hp with openingCount := hp.openingCount - 1 }
      if hp.connections.isEmpty ∧ hp.openingCount = 0 then
        some (Function.update pools key none, none)
      else some (Function.update pools key (some hp), some hp.notify)

/-- Put a sender into the entry with its id, if that is an HTTP/1.1 entry. -/
def giveBack (id : ℕ) (s : SenderId) : List PooledConnection → List PooledConnection
  | [] => []
  | conn :: conns =>
    if conn.id = id then
      (match conn.sender with
        | .h1 _ => ⟨conn.id, .h1 (some s)⟩
        | .h2 _ => conn) :: conns
    else conn :: giveBack id s conns

/-- `return_h1_connection`, with the `Notify` it signals. -/
def returnH1Connection (pools : HostPools) (key : HostKey) (id : ℕ) (s : SenderId) :
    HostPools × Option NotifyId :=
  match pools key with
  | none => (pools, none)
  | some hp =>
    (Function.update pools key (some { hp with connections := giveBack id s hp.connections }),
      some hp.notify)

/-- `remove_dead_connection`, with the `Notify` it signals. -/
def removeDeadConnection (pools : HostPools) (key : HostKey) (id : ℕ) :
    HostPools × Option NotifyId :=
  match pools key with
  | none => (pools, none)
  | some hp =>
    (Function.update pools key (some { hp with
      connections := hp.connections.filter fun c => c.id ≠ id }), some hp.notify)

/-- The `Notify` that `notify_h2_complete` signals. -/
def notifyH2Complete (pools : HostPools) (key : HostKey) : Option NotifyId :=
  (pools key).map HostPool.notify

/-! ## What the sections do to the entries -/

/-- One entry changes its sender, the rest of the list stays. -/
def Swap (id : ℕ) (a b : ConnectionSender) (conns conns' : List PooledConnection) : Prop :=
  ∃ pre post, conns = pre ++ ⟨id, a⟩ :: post ∧ conns' = pre ++ ⟨id, b⟩ :: post

namespace Swap

variable {id : ℕ} {a b : ConnectionSender} {conns conns' : List PooledConnection}

theorem cons (conn : PooledConnection) (h : Swap id a b conns conns') :
    Swap id a b (conn :: conns) (conn :: conns') := by
  obtain ⟨pre, post, rfl, rfl⟩ := h
  exact ⟨conn :: pre, post, rfl, rfl⟩

theorem ids_eq (h : Swap id a b conns conns') :
    conns'.map PooledConnection.id = conns.map PooledConnection.id := by
  obtain ⟨pre, post, rfl, rfl⟩ := h
  simp

theorem mem_left (h : Swap id a b conns conns') : ⟨id, a⟩ ∈ conns := by
  obtain ⟨pre, post, rfl, rfl⟩ := h
  simp

/-- With distinct ids, the entries afterwards are the other entries and the new one. -/
theorem mem_iff (h : Swap id a b conns conns')
    (hn : (conns.map PooledConnection.id).Nodup) {c : PooledConnection} :
    c ∈ conns' ↔ (c ∈ conns ∧ c.id ≠ id) ∨ c = ⟨id, b⟩ := by
  obtain ⟨pre, post, rfl, rfl⟩ := h
  have hne : ∀ d ∈ pre ++ post, d.id ≠ id := by
    rw [(List.perm_middle.map PooledConnection.id).nodup_iff, List.map_cons,
      List.nodup_cons] at hn
    intro d hd he
    exact hn.1 (List.mem_map.2 ⟨d, hd, he⟩)
  simp only [List.mem_append, List.mem_cons] at hne ⊢
  constructor
  · rintro (hc | hc | hc)
    · exact Or.inl ⟨Or.inl hc, hne c (Or.inl hc)⟩
    · exact Or.inr hc
    · exact Or.inl ⟨Or.inr (Or.inr hc), hne c (Or.inr hc)⟩
  · rintro (⟨hc | rfl | hc, hid⟩ | hc)
    · exact Or.inl hc
    · exact absurd rfl hid
    · exact Or.inr (Or.inr hc)
    · exact Or.inr (Or.inl hc)

end Swap

theorem takeIdle_eq_some {handle : PoolHandle} : ∀ {conns conns' : List PooledConnection},
    takeIdle conns = some (handle, conns') →
      ∃ s, handle.sender = .h1 s ∧
        Swap handle.connectionId (.h1 (some s)) (.h1 none) conns conns'
  | [], _, h => by cases h
  | ⟨id, .h1 (some s)⟩ :: conns, conns', h => by
    obtain ⟨rfl, rfl⟩ := Prod.mk.inj (Option.some.inj h)
    exact ⟨s, rfl, [], conns, rfl, rfl⟩
  | ⟨id, .h1 none⟩ :: conns, conns', h => by
    obtain ⟨⟨h', conns''⟩, ht, hr⟩ := Option.map_eq_some_iff.1 h
    obtain ⟨rfl, rfl⟩ := Prod.mk.inj hr
    obtain ⟨s, hs, hswap⟩ := takeIdle_eq_some ht
    exact ⟨s, hs, hswap.cons _⟩
  | ⟨id, .h2 s'⟩ :: conns, conns', h => by
    obtain ⟨⟨h', conns''⟩, ht, hr⟩ := Option.map_eq_some_iff.1 h
    obtain ⟨rfl, rfl⟩ := Prod.mk.inj hr
    obtain ⟨s, hs, hswap⟩ := takeIdle_eq_some ht
    exact ⟨s, hs, hswap.cons _⟩

/-- An idle HTTP/1.1 entry is found. -/
theorem takeIdle_isSome {id : ℕ} {s : SenderId} : ∀ {conns : List PooledConnection},
    ⟨id, .h1 (some s)⟩ ∈ conns → (takeIdle conns).isSome
  | ⟨_, .h1 (some _)⟩ :: _, _ => rfl
  | ⟨_, .h1 none⟩ :: conns, h => by
    have hmem : ⟨id, .h1 (some s)⟩ ∈ conns := by simpa using h
    simpa [takeIdle] using takeIdle_isSome hmem
  | ⟨_, .h2 _⟩ :: conns, h => by
    have hmem : ⟨id, .h1 (some s)⟩ ∈ conns := by simpa using h
    simpa [takeIdle] using takeIdle_isSome hmem

theorem findReady_mem {handle : PoolHandle} : ∀ {conns : List PooledConnection},
    findReady poll' conns = some handle →
      ∃ s, handle.sender = .h2 s ∧ ⟨handle.connectionId, .h2 s⟩ ∈ conns
  | [], h => by cases h
  | ⟨id, .h2 s⟩ :: conns, h => by
    unfold findReady at h
    split_ifs at h
    · obtain rfl := Option.some.inj h
      exact ⟨s, rfl, by simp⟩
    · obtain ⟨t, ht, hmem⟩ := findReady_mem h
      exact ⟨t, ht, List.mem_cons_of_mem _ hmem⟩
  | ⟨id, .h1 o⟩ :: conns, h => by
    have hf : findReady poll' conns = some handle := h
    obtain ⟨t, ht, hmem⟩ := findReady_mem hf
    exact ⟨t, ht, List.mem_cons_of_mem _ hmem⟩

theorem giveBack_length (id : ℕ) (s : SenderId) : ∀ conns : List PooledConnection,
    (giveBack id s conns).length = conns.length
  | [] => rfl
  | conn :: conns => by
    unfold giveBack
    split_ifs
    · rfl
    · rw [List.length_cons, giveBack_length id s conns, List.length_cons]

theorem giveBack_ids (id : ℕ) (s : SenderId) : ∀ conns : List PooledConnection,
    (giveBack id s conns).map PooledConnection.id = conns.map PooledConnection.id
  | [] => rfl
  | conn :: conns => by
    unfold giveBack
    split_ifs
    · cases conn.sender <;> simp
    · rw [List.map_cons, giveBack_ids id s conns, List.map_cons]

/-- With distinct ids, a sender goes back into the checked-out entry with its id. -/
theorem giveBack_swap {id : ℕ} {s : SenderId} : ∀ {conns : List PooledConnection},
    (conns.map PooledConnection.id).Nodup → ⟨id, .h1 none⟩ ∈ conns →
      Swap id (.h1 none) (.h1 (some s)) conns (giveBack id s conns)
  | conn :: conns, hn, h => by
    rw [List.map_cons, List.nodup_cons] at hn
    rcases List.mem_cons.1 h with rfl | h
    · exact ⟨[], conns, rfl, by simp [giveBack]⟩
    · have hne : conn.id ≠ id := fun he => hn.1 (he ▸ List.mem_map_of_mem h)
      rw [giveBack, if_neg hne]
      exact (giveBack_swap hn.2 h).cons conn

/-- How the section after a successful open ends, by the entry of the key. -/
theorem insertOpened_cases (pools : HostPools) (key : HostKey) (isFirst : Bool)
    (opened : OpenedConnection) :
    (pools key = none ∧ insertOpened pools key isFirst opened = .disappeared) ∨
    (∃ hp, pools key = some hp ∧ hp.openingCount = 0 ∧
      insertOpened pools key isFirst opened = .underflow) ∨
    ∃ hp, pools key = some hp ∧ 0 < hp.openingCount ∧ insertOpened pools key isFirst opened =
      .inserted (Function.update pools key (some (hp.insert isFirst opened)))
        ⟨opened.split.1, hp.nextId⟩ := by
  unfold insertOpened
  cases hk : pools key with
  | none => exact Or.inl ⟨rfl, rfl⟩
  | some hp =>
    by_cases h0 : hp.openingCount = 0
    · exact Or.inr (Or.inl ⟨hp, rfl, h0, if_pos h0⟩)
    · exact Or.inr (Or.inr ⟨hp, rfl, Nat.pos_of_ne_zero h0, if_neg h0⟩)

/-- The same after a failed open. -/
theorem removeFailed_cases (pools : HostPools) (key : HostKey) :
    (pools key = none ∧ removeFailed pools key = some (pools, none)) ∨
    (∃ hp, pools key = some hp ∧ hp.openingCount = 0 ∧ removeFailed pools key = none) ∨
    (∃ hp, pools key = some hp ∧ hp.connections = [] ∧ hp.openingCount = 1 ∧
      removeFailed pools key = some (Function.update pools key none, none)) ∨
    ∃ hp, pools key = some hp ∧ 0 < hp.openingCount ∧
      (hp.connections = [] → 1 < hp.openingCount) ∧ removeFailed pools key =
        some (Function.update pools key (some { hp with openingCount := hp.openingCount - 1 }),
          some hp.notify) := by
  unfold removeFailed
  cases hk : pools key with
  | none => exact Or.inl ⟨rfl, rfl⟩
  | some hp =>
    by_cases h0 : hp.openingCount = 0
    · exact Or.inr (Or.inl ⟨hp, rfl, h0, if_pos h0⟩)
    by_cases hlast : hp.connections = [] ∧ hp.openingCount = 1
    · refine Or.inr (Or.inr (Or.inl ⟨hp, rfl, hlast.1, hlast.2, ?_⟩))
      simp [hlast.1, hlast.2]
    · refine Or.inr (Or.inr (Or.inr ⟨hp, rfl, Nat.pos_of_ne_zero h0, fun hnil => ?_, ?_⟩))
      · have hne : hp.openingCount ≠ 1 := fun h1 => hlast ⟨hnil, h1⟩
        omega
      · have hkeep : ¬(hp.connections.isEmpty = true ∧ hp.openingCount - 1 = 0) := fun h =>
          hlast ⟨List.isEmpty_iff.1 h.1, by omega⟩
        simp only [if_neg h0, if_neg hkeep]

/-- `conns'` is `conns` less some HTTP/2 entries. -/
def Pruned (conns conns' : List PooledConnection) : Prop :=
  conns'.Sublist conns ∧ ∀ id o, ⟨id, .h1 o⟩ ∈ conns → ⟨id, .h1 o⟩ ∈ conns'

theorem Pruned.refl (conns : List PooledConnection) : Pruned conns conns :=
  ⟨List.Sublist.refl _, fun _ _ h => h⟩

theorem pruned_filter_isAlive (conns : List PooledConnection) :
    Pruned conns (conns.filter (isAlive poll)) :=
  ⟨List.filter_sublist, fun _ _ h => List.mem_filter.2 ⟨h, rfl⟩⟩

/-- What an existing entry answers, and what becomes of it. -/
inductive HostAction (hp : HostPool) : HostPool → AcquireAction → Prop where
  | reuseH1 {id : ℕ} {s : SenderId} {conns : List PooledConnection} :
    hp.protocol = .http1 → Swap id (.h1 (some s)) (.h1 none) hp.connections conns →
    HostAction hp { hp with connections := conns } (.returnExisting ⟨.h1 s, id⟩)
  | reuseH2 {id : ℕ} {s : SenderId} {conns : List PooledConnection} :
    Pruned hp.connections conns → ⟨id, .h2 s⟩ ∈ conns →
    HostAction hp { hp with connections := conns } (.returnExisting ⟨.h2 s, id⟩)
  | scale {conns : List PooledConnection} : Pruned hp.connections conns →
    conns.length + hp.openingCount < connectionsPerHost →
    HostAction hp { hp with connections := conns, openingCount := hp.openingCount + 1 }
      (.openNew false)
  | wait {conns : List PooledConnection} : Pruned hp.connections conns →
    connectionsPerHost ≤ conns.length + hp.openingCount →
    HostAction hp { hp with connections := conns } (.wait hp.notify)

theorem scaleOrWait_cases {hp : HostPool} {conns : List PooledConnection}
    (hpr : Pruned hp.connections conns) :
    HostAction connectionsPerHost hp
      (scaleOrWait connectionsPerHost { hp with connections := conns }).1
      (scaleOrWait connectionsPerHost { hp with connections := conns }).2 := by
  unfold scaleOrWait HostPool.totalCount
  split_ifs with h
  · exact .scale hpr h
  · exact .wait hpr (not_lt.1 h)

theorem hostAction_cases (hp : HostPool) :
    HostAction connectionsPerHost hp (hostAction connectionsPerHost poll poll' hp).1
      (hostAction connectionsPerHost poll poll' hp).2 := by
  unfold hostAction
  cases hprot : hp.protocol with
  | http2 =>
    have hpr := pruned_filter_isAlive poll hp.connections
    simp only [h2Action]
    cases hf : findReady poll' (hp.connections.filter (isAlive poll)) with
    | some handle =>
      obtain ⟨hs, id⟩ := handle
      obtain ⟨s, rfl, hmem⟩ := findReady_mem poll' hf
      exact .reuseH2 hpr hmem
    | none => exact scaleOrWait_cases _ hpr
  | http1 =>
    simp only [h1Action]
    cases ht : takeIdle hp.connections with
    | some r =>
      obtain ⟨⟨hs, id⟩, conns⟩ := r
      obtain ⟨s, rfl, hswap⟩ := takeIdle_eq_some ht
      exact .reuseH1 hprot hswap
    | none => exact scaleOrWait_cases _ (Pruned.refl _)

/-- A pool tagged HTTP/1.1 with an idle entry answers with a pooled connection. -/
theorem hostAction_http1_idle {hp : HostPool} {id : ℕ} {s : SenderId}
    (hprot : hp.protocol = .http1) (h : ⟨id, .h1 (some s)⟩ ∈ hp.connections) :
    ∃ handle, (hostAction connectionsPerHost poll poll' hp).2 = .returnExisting handle := by
  obtain ⟨r, hr⟩ := Option.isSome_iff_exists.1 (takeIdle_isSome h)
  exact ⟨r.1, by simp [hostAction, hprot, h1Action, hr]⟩

end Imgdl
