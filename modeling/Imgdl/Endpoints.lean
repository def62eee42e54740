import Imgdl.Sightings

/-!
# Where pooled connections lead

A connection is in the pool under the key it was opened for, and with an attempt for that key
(`clientStep_holds`, `ClientMove.holds`) : no section moves a sender to another key. So what was
seen of its open is still what it is, whoever uses it.

Every connection that an attempt runs a request on led, when it was opened, to an address that a
lookup of the host of its own key gave, and its TLS handshake was for that host
(`request_endpoint`). A failed open fails for what was seen of that open, in order
(`open_explained`).
-/

set_option linter.unusedSectionVars false

namespace Imgdl

open Transition Interleaving

/-! ## The connections of a key -/

/-- The sender in a pooled connection, and the protocol it speaks. -/
def ConnectionSender.tag : ConnectionSender → Option (SenderId × NegotiatedProtocol)
  | h2 s => some (s, .http2)
  | h1 (some s) => some (s, .http1)
  | h1 none => none

def PoolHandleSender.tag : PoolHandleSender → SenderId × NegotiatedProtocol
  | h2 s => (s, .http2)
  | h1 s => (s, .http1)

def OpenedConnection.tag : OpenedConnection → SenderId × NegotiatedProtocol
  | h2 s => (s, .http2)
  | h1 s => (s, .http1)

theorem tag_openedConnection (s : SenderId) (proto : NegotiatedProtocol) :
    (openedConnection s proto).tag = (s, proto) := by
  cases proto <;> rfl

theorem tag_split (conn : OpenedConnection) : conn.split.1.tag = conn.tag := by
  cases conn <;> rfl

/-- The sender that enters the pool with an opened connection, if any does. -/
theorem tag_split_eq {conn : OpenedConnection} {x : SenderId × NegotiatedProtocol}
    (h : conn.split.2.tag = some x) : conn.tag = x := by
  cases conn with
  | h2 s => exact Option.some.inj h
  | h1 s => cases h

/-- The pool holds a sender under a key. -/
def PoolState.Holds (p : PoolState) (key : HostKey) (x : SenderId × NegotiatedProtocol) : Prop :=
  ∃ hp, p.hostPools key = some hp ∧ ∃ c ∈ hp.connections, c.sender.tag = some x

/-- An attempt for a key holds a sender. -/
def Client.Holds (key : HostKey) (x : SenderId × NegotiatedProtocol) : Client → Prop
  | opened k _ conn => k = key ∧ conn.tag = x
  | requesting k handle => k = key ∧ handle.sender.tag = x
  | finishing k handle _ => k = key ∧ handle.sender.tag = x
  | _ => False

section Holds

variable {connectionsPerHost : ℕ} {p p' : PoolState} {c c' : Client} {e : ClientEvent}
  {key k : HostKey} {x : SenderId × NegotiatedProtocol}

theorem not_holds_nextAttempt (n : ℕ) : ¬(nextAttempt k n).Holds key x := by
  unfold nextAttempt
  split_ifs <;> exact id

theorem holds_afterAction {n : ℕ} {a : AcquireAction} (h : (afterAction k n a).Holds key x) :
    ∃ handle, a = .returnExisting handle ∧ k = key ∧ handle.sender.tag = x := by
  cases a with
  | returnExisting handle => exact ⟨handle, rfl, h⟩
  | openNew isFirst | wait i => exact h.elim

/-- The handle that an existing entry answers with is one of its connections. -/
theorem HostAction.holds {hp hp' : HostPool} {handle : PoolHandle}
    (h : HostAction connectionsPerHost hp hp' (.returnExisting handle)) :
    ∃ c ∈ hp.connections, c.sender.tag = some handle.sender.tag := by
  cases h with
  | reuseH1 _ hs => exact ⟨_, hs.mem_left, rfl⟩
  | reuseH2 hpr hmem => exact ⟨_, hpr.1.subset hmem, rfl⟩

/-- What an existing entry holds after it answered, it held before. -/
theorem HostAction.held {hp hp' : HostPool} {a : AcquireAction} {conn : PooledConnection}
    (h : HostAction connectionsPerHost hp hp' a) (hc : conn ∈ hp'.connections)
    (hx : conn.sender.tag = some x) : conn ∈ hp.connections := by
  cases h with
  | reuseH1 _ hs =>
    obtain ⟨pre, post, hpre, rfl⟩ := hs
    simp only [List.mem_append, List.mem_cons] at hc
    rw [hpre]
    rcases hc with hc | rfl | hc
    · exact List.mem_append_left _ hc
    · cases hx
    · exact List.mem_append_right _ (List.mem_cons_of_mem _ hc)
  | reuseH2 hpr _ | scale hpr _ | wait hpr _ => exact hpr.1.subset hc

theorem mem_giveBack {id : ℕ} {s : SenderId} {c : PooledConnection} :
    ∀ {conns : List PooledConnection}, c ∈ giveBack id s conns →
      c ∈ conns ∨ c.sender = .h1 (some s)
  | [], h => by cases h
  | conn :: conns, h => by
    unfold giveBack at h
    split_ifs at h
    · rcases List.mem_cons.1 h with rfl | h
      · cases hs : conn.sender with
        | h2 t => exact Or.inl (List.mem_cons_self ..)
        | h1 opt => exact Or.inr rfl
      · exact Or.inl (List.mem_cons_of_mem _ h)
    · rcases List.mem_cons.1 h with rfl | h
      · exact Or.inl (List.mem_cons_self ..)
      · exact (mem_giveBack h).imp_left (List.mem_cons_of_mem _)

/-- What an attempt holds after a section : what it held, a connection of its key, or the one it
just opened. -/
theorem clientStep_holds (h : clientStep connectionsPerHost p c e = some (p', c'))
    (hc : c'.Holds key x) : p.Holds key x ∨ c.Holds key x ∨ ∃ isFirst proto,
      c = .opening key isFirst ∧ e = .connect (.ok proto) ∧ x = (p.nextSender, proto) := by
  cases e with
  | start k =>
    cases c <;> simp only [clientStep, reduceCtorEq, Option.some.injEq, Prod.mk.injEq] at h
    obtain ⟨-, rfl⟩ := h
    exact hc.elim
  | decide poll poll' =>
    cases c <;> simp only [clientStep, reduceCtorEq, Option.some.injEq, Prod.mk.injEq] at h
    rename_i k n
    obtain ⟨-, rfl⟩ := h
    obtain ⟨handle, ha, rfl, rfl⟩ := holds_afterAction hc
    unfold determineAction at ha
    cases hk : p.hostPools k with
    | none =>
      rw [hk] at ha
      cases ha
    | some hp =>
      rw [hk] at ha
      have hact := hostAction_cases connectionsPerHost poll poll' hp
      rw [show (hostAction connectionsPerHost poll poll' hp).2 = _ from ha] at hact
      exact Or.inl ⟨hp, hk, hact.holds⟩
  | register =>
    cases c <;> simp only [clientStep, reduceCtorEq] at h
    split_ifs at h <;> obtain ⟨-, rfl⟩ := Prod.mk.inj (Option.some.inj h)
    · exact absurd hc (not_holds_nextAttempt _)
    · exact hc.elim
  | wake | timer =>
    cases c <;> simp only [clientStep, reduceCtorEq] at h
    split_ifs at h
    obtain ⟨-, rfl⟩ := Prod.mk.inj (Option.some.inj h)
    exact absurd hc (not_holds_nextAttempt _)
  | connect r =>
    cases c with
    | opening k isFirst =>
      cases r with
      | error err =>
        obtain ⟨-, rfl⟩ := Prod.mk.inj (Option.some.inj h)
        exact hc.elim
      | ok proto =>
        obtain ⟨-, rfl⟩ := Prod.mk.inj (Option.some.inj h)
        obtain ⟨rfl, rfl⟩ := hc
        exact Or.inr (Or.inr ⟨isFirst, proto, rfl, rfl, tag_openedConnection _ _⟩)
    | _ => cases r <;> simp [clientStep] at h
  | insert =>
    cases c <;> simp only [clientStep, reduceCtorEq] at h
    · split at h <;> obtain ⟨-, rfl⟩ := Prod.mk.inj (Option.some.inj h)
      case h_1 k isFirst conn _ _ handle hins =>
        refine Or.inr (Or.inl ?_)
        rcases insertOpened_cases p.hostPools k isFirst conn with
          ⟨-, hi⟩ | ⟨_, -, -, hi⟩ | ⟨_, -, -, hi⟩ <;> rw [hi] at hins <;> cases hins
        exact ⟨hc.1, (tag_split conn).symm.trans hc.2⟩
      all_goals exact hc.elim
    · split at h <;> obtain ⟨-, rfl⟩ := Prod.mk.inj (Option.some.inj h) <;> exact hc.elim
  | respond r =>
    cases c <;> simp only [clientStep, reduceCtorEq, Option.some.injEq, Prod.mk.injEq] at h
    obtain ⟨-, rfl⟩ := h
    exact Or.inr (Or.inl hc)
  | finish | leave | cancel =>
    cases c <;> simp only [clientStep, reduceCtorEq, Option.some.injEq, Prod.mk.injEq] at h <;>
      obtain ⟨-, rfl⟩ := h <;> exact hc.elim

/-- A pool that changed one entry holds what it held, and what the entry holds. -/
theorem holds_update {o : Option HostPool}
    (hpools : p'.hostPools = Function.update p.hostPools k o) (h : p'.Holds key x) :
    p.Holds key x ∨
      key = k ∧ ∃ hp', o = some hp' ∧ ∃ c ∈ hp'.connections, c.sender.tag = some x := by
  obtain ⟨hp', hk, hmem⟩ := h
  rw [hpools] at hk
  rcases eq_or_ne key k with rfl | hne
  · rw [Function.update_self] at hk
    exact Or.inr ⟨rfl, hp', hk, hmem⟩
  · rw [Function.update_of_ne hne] at hk
    exact Or.inl ⟨hp', hk, hmem⟩

/-- What the pool holds after a section, it or the attempt held before. -/
theorem ClientMove.holds (hm : ClientMove connectionsPerHost p c e p' c') (h : p'.Holds key x) :
    p.Holds key x ∨ c.Holds key x := by
  have same : p'.hostPools = p.hostPools → p.Holds key x := fun heq => by
    obtain ⟨hp, hk, hmem⟩ := h
    exact ⟨hp, heq ▸ hk, hmem⟩
  cases hm with
  | start | connected | refused | lost | respond | leave => exact Or.inl h
  | park heq _ _ _ | cancel heq _ => exact Or.inl (same heq)
  | first =>
    rcases holds_update rfl h with h | ⟨-, hp', hp'', c, hc, -⟩
    · exact Or.inl h
    · obtain rfl := Option.some.inj hp''
      cases hc
  | existing hk ha =>
    rcases holds_update rfl h with h | ⟨rfl, hp', hp'', c, hc, hx⟩
    · exact Or.inl h
    · obtain rfl := Option.some.inj hp''
      exact Or.inl ⟨_, hk, c, ha.held hc hx, hx⟩
  | inserted hk _ =>
    rcases holds_update rfl h with h | ⟨rfl, hp', hp'', c, hc, hx⟩
    · exact Or.inl h
    · obtain rfl := Option.some.inj hp''
      rcases List.mem_append.1 hc with hc | hc
      · exact Or.inl ⟨_, hk, c, hc, hx⟩
      · obtain rfl := List.mem_singleton.1 hc
        exact Or.inr ⟨rfl, tag_split_eq hx⟩
  | dropEntry =>
    rcases holds_update rfl h with h | ⟨-, hp', hp'', -⟩
    · exact Or.inl h
    · cases hp''
  | uncount hk _ _ hpools _ =>
    rcases holds_update hpools h with h | ⟨rfl, hp', hp'', c, hc, hx⟩
    · exact Or.inl h
    · obtain rfl := Option.some.inj hp''
      exact Or.inl ⟨_, hk, c, hc, hx⟩
  | @finish k handle result =>
    obtain ⟨hp', hk, c, hc, hx⟩ := h
    obtain ⟨hp, hp0, -, hconns⟩ := finishConnection_entry hk
    rcases hconns with heq | ⟨s, rfl, hsender, heq⟩
    · exact Or.inl ⟨hp, hp0, c, heq ▸ hc, hx⟩
    · rw [heq] at hc
      split_ifs at hc
      · rcases mem_giveBack hc with hc | hcs
        · exact Or.inl ⟨hp, hp0, c, hc, hx⟩
        · rw [hcs] at hx
          exact Or.inr ⟨rfl, by rw [hsender]; exact Option.some.inj hx⟩
      · exact Or.inl ⟨hp, hp0, c, (List.mem_filter.1 hc).1, hx⟩

theorem ClientMove.nextSender_le (hm : ClientMove connectionsPerHost p c e p' c') :
    p.nextSender ≤ p'.nextSender := by
  cases hm with
  | connected => exact Nat.le_succ _
  | park _ heq _ _ | cancel _ heq | uncount _ _ _ _ heq => exact heq.ge
  | finish => exact finishConnection_nextSender.ge
  | _ => exact le_rfl

/-- An open fails where `open_connection` does. -/
theorem ClientMove.openFailed {isFirst : Bool} {err : DownloadError}
    (hm : ClientMove connectionsPerHost p c e p' c') (hc : c' = .openFailed key isFirst err) :
    e = .connect (.error err) := by
  cases hm with
  | @existing _ _ _ _ _ _ a _ _ => cases a <;> cases hc
  | park _ _ _ hb | lost _ _ hb =>
    rw [hc] at hb
    exact absurd rfl (hb.inFlight key)
  | refused =>
    obtain ⟨-, -, rfl⟩ := Client.openFailed.inj hc
    rfl
  | _ => cases hc

end Holds

/-! ## Runs of the network -/

/-- What is seen of a section of an attempt. -/
def NetClient.sees (a : NetClient) : NetEvent → List Sighting
  | .opening e => a.opening.sees e
  | .client _ => []

section Explained

variable {ι : Type*} [DecidableEq ι] (serverName : String → Except String String)
  (plainMode : Bool) (L : List (ι × Sighting)) (n : Net)

/-- An attempt opened the connection for the key : what was seen of that open, from its begin to
its end, explains it. -/
def WasOpened (key : HostKey) (peer : Peer) : Prop :=
  ∃ (L' : List (ι × Sighting)) (i : ι) (before : List (ι × Sighting)) (own : List Sighting),
    L' <+: L ∧ Since L' i (.resolve key.1 key.2) before own ∧
      Opened serverName plainMode before key own peer

/-- The last open of the attempt at `i` was for the key, and what was seen of it since it began
explains why it failed. -/
def LastFailed (i : ι) (key : HostKey) (e : DownloadError) : Prop :=
  ∃ (before : List (ι × Sighting)) (own : List Sighting),
    Since L i (.resolve key.1 key.2) before own ∧ OpenFailure serverName plainMode before key own e

/-- What was seen of an open that began explains where it is. -/
def Opening.Explained (i : ι) (key : HostKey) (o : Opening) : Prop :=
  ∃ (before : List (ι × Sighting)) (own : List Sighting),
    Since L i (.resolve key.1 key.2) before own ∧ o.Seen serverName plainMode before key own

/-- A sender is that of a connection opened for a key. -/
def Net.Known (key : HostKey) (x : SenderId × NegotiatedProtocol) : Prop :=
  ∃ peer, n.peers x.1 = some peer ∧ peer.protocol = x.2 ∧ WasOpened serverName plainMode L key peer

/-- What was seen explains what the pool and the cache hold. -/
structure Net.Explained : Prop where
  cached : CacheSeen L n.dns
  held : ∀ key x, n.pool.Holds key x → n.Known serverName plainMode L key x
  below : ∀ t peer, n.peers t = some peer → t < n.pool.nextSender

/-- What was seen explains where the attempt at `i` is. -/
structure NetClient.Explained (i : ι) (a : NetClient) : Prop where
  call : ∀ key isFirst, a.client = .opening key isFirst →
    a.opening = .resolving (.resolving key.1 key.2) ∨
      a.opening.Explained serverName plainMode L i key
  held : ∀ key x, a.client.Holds key x → n.Known serverName plainMode L key x
  failed : ∀ key isFirst e, a.client = .openFailed key isFirst e →
    LastFailed serverName plainMode L i key e

variable {serverName plainMode L n} {connectionsPerHost : ℕ} {n' : Net} {a a' : NetClient}
  {i : ι}

/-- Connections keep where they lead. -/
theorem Net.Known.mono {key : HostKey} {x : SenderId × NegotiatedProtocol}
    {L' : List (ι × Sighting)} (h : n.Known serverName plainMode L key x) (hpre : L <+: L')
    (hpeers : ∀ t peer, n.peers t = some peer → n'.peers t = some peer) :
    n'.Known serverName plainMode L' key x := by
  obtain ⟨peer, hp, hproto, L₁, i, before, own, hL, hopened⟩ := h
  exact ⟨peer, hpeers _ _ hp, hproto, L₁, i, before, own, hL.trans hpre, hopened⟩

/-- What is seen of another attempt explains nothing away. -/
theorem NetClient.Explained.other {j : ι} {l : List Sighting}
    (h : a.Explained serverName plainMode L n i) (hij : i ≠ j)
    (hpeers : ∀ t peer, n.peers t = some peer → n'.peers t = some peer) :
    a.Explained serverName plainMode (L ++ l.map fun x => (j, x)) n' i where
  call key isFirst hc := (h.call key isFirst hc).imp_right fun ⟨before, own, hsince, hseen⟩ =>
    ⟨before, own, hsince.other hij l, hseen⟩
  held key x hx := (h.held key x hx).mono (List.prefix_append ..) hpeers
  failed key isFirst e he := by
    obtain ⟨before, own, hsince, hfail⟩ := h.failed key isFirst e he
    exact ⟨before, own, hsince.other hij l, hfail⟩

/-- A section leaves the connections opened before it alone. -/
theorem NetMove.peers {e : NetEvent} (hn : n.Explained serverName plainMode L)
    (hm : NetMove connectionsPerHost serverName plainMode n a e n' a') (t : SenderId) (peer : Peer)
    (ht : n.peers t = some peer) : n'.peers t = some peer := by
  cases hm with
  | opened => exact (Function.update_of_ne (hn.below t peer ht).ne _ _).trans ht
  | _ => exact ht

/-- An attempt that neither opens a connection nor failed to is explained by what it holds. -/
theorem explained_of_holds {c : Client} {o : Opening}
    (hopen : ∀ key isFirst, c ≠ .opening key isFirst)
    (hfail : ∀ key isFirst e, c ≠ .openFailed key isFirst e)
    (hheld : ∀ key x, c.Holds key x → n.Known serverName plainMode L key x) :
    NetClient.Explained serverName plainMode L n i ⟨c, o⟩ :=
  ⟨fun key isFirst h => absurd h (hopen key isFirst), hheld,
    fun key isFirst e h => absurd h (hfail key isFirst e)⟩

/-- A section of an open, the first one or a later one, is explained by what is seen of it. -/
theorem OpenMove.explained {d d' : DnsState} {key : HostKey} {o o' : Opening}
    {e : OpenEvent} (hd : CacheSeen L d) (ho : o = .resolving (.resolving key.1 key.2) ∨
      o.Explained serverName plainMode L i key)
    (hm : OpenMove serverName plainMode d key.1 o e d' o') :
    CacheSeen (L ++ (o.sees e).map fun x => (i, x)) d' ∧
      o'.Explained serverName plainMode (L ++ (o.sees e).map fun x => (i, x)) i key := by
  have hsub : L ⊆ L ++ (o.sees e).map fun x => (i, x) := List.subset_append_left ..
  rcases ho with rfl | ⟨before, own, hsince, hseen⟩
  · obtain ⟨hsees, hd', hseen⟩ := hm.begins hd
    rw [hsees] at hsub ⊢
    exact ⟨hd'.mono hsub, L, [], .start L i _, hseen⟩
  · have hd' := hm.cached hd (fun x hx => ⟨i, hsince.mem hx⟩) hseen
    exact ⟨hd'.mono hsub, before, _, hsince.self _, hm.seen hseen⟩

/-- A section of an attempt keeps to what was seen. -/
theorem NetMove.explained {e : NetEvent} (hn : n.Explained serverName plainMode L)
    (ha : a.Explained serverName plainMode L n i)
    (hm : NetMove connectionsPerHost serverName plainMode n a e n' a') :
    n'.Explained serverName plainMode (L ++ (a.sees e).map fun x => (i, x)) ∧
      a'.Explained serverName plainMode (L ++ (a.sees e).map fun x => (i, x)) n' i := by
  have hpeers := hm.peers hn
  have hpre : L <+: L ++ (a.sees e).map fun x => (i, x) := List.prefix_append ..
  cases hm with
  | @client a e p' c' hne hs =>
    have hmove := clientStep_cases connectionsPerHost hs
    have hpool : ∀ key x, p'.Holds key x → n.Known serverName plainMode L key x := fun key x hx =>
      (hmove.holds hx).elim (hn.held key x) (ha.held key x)
    refine ⟨⟨hn.cached.mono hpre.subset, fun key x hx => (hpool key x hx).mono hpre hpeers,
      fun t peer ht => (hn.below t peer ht).trans_le hmove.nextSender_le⟩, ?_, ?_, ?_⟩
    · rintro key isFirst rfl
      exact Or.inl rfl
    · intro key x hx
      rcases clientStep_holds hs hx with h | h | ⟨_, _, -, rfl, -⟩
      · exact (hn.held key x h).mono hpre hpeers
      · exact (ha.held key x h).mono hpre hpeers
      · exact absurd rfl (hne _)
    · intro key isFirst err hc
      exact absurd (hmove.openFailed hc) (hne _)
  | @progress key isFirst o o' e d' hmove _ =>
    obtain ⟨hd, ho⟩ := hmove.explained hn.cached (ha.call key isFirst rfl)
    refine ⟨⟨hd, fun key x hx => (hn.held key x hx).mono hpre hpeers, hn.below⟩, ?_,
      fun _ _ h => h.elim, by simp⟩
    intro k f hk
    obtain ⟨rfl, -⟩ := Client.opening.inj hk
    exact Or.inr ho
  | @opened key isFirst o e d' peer hmove =>
    obtain ⟨hd, before, own, hsince, ho⟩ := hmove.explained hn.cached (ha.call key isFirst rfl)
    refine ⟨⟨hd, fun key x hx => (hn.held key x hx).mono hpre hpeers, fun t q ht => ?_⟩,
      explained_of_holds (by simp) (by simp) ?_⟩
    · rcases eq_or_ne t n.pool.nextSender with rfl | hne
      · exact Nat.lt_succ_self _
      · have hq : n.peers t = some q := (Function.update_of_ne hne _ _).symm.trans ht
        exact (hn.below t q hq).trans (Nat.lt_succ_self _)
    · rintro k x ⟨rfl, rfl⟩
      rw [tag_openedConnection]
      exact ⟨peer, Function.update_self .., rfl, _, i, before, own, List.prefix_rfl, hsince, ho⟩
  | @failed key isFirst o e d' err hmove =>
    obtain ⟨hd, before, own, hsince, ho⟩ := hmove.explained hn.cached (ha.call key isFirst rfl)
    refine ⟨⟨hd, fun key x hx => (hn.held key x hx).mono hpre hpeers, hn.below⟩,
      by simp, fun _ _ h => h.elim, ?_⟩
    intro k f err' hk
    obtain ⟨rfl, -, rfl⟩ := Client.openFailed.inj hk
    exact ⟨before, own, hsince, ho⟩

end Explained

namespace Net

variable {ι : Type*} [DecidableEq ι] {connectionsPerHost : ℕ}
  {serverName : String → Except String String} {plainMode : Bool} {s s' : State ι}
  {L : List (ι × Sighting)}

/-- What is seen up to the end of a section. -/
def note (s : State ι) (e : ι × NetEvent) (L : List (ι × Sighting)) : List (ι × Sighting) :=
  L ++ ((s.locals e.1).sees e.2).map fun x => (e.1, x)

/-- What is seen of a run of a new network. -/
def sightings (connectionsPerHost : ℕ) (serverName : String → Except String String)
    (plainMode : Bool) (ttl : Duration) (es : List (ι × NetEvent)) : List (ι × Sighting) :=
  record (step connectionsPerHost serverName plainMode) note (init ttl) es []

/-- What was seen explains the network and every attempt on it. -/
def AllExplained (serverName : String → Except String String) (plainMode : Bool)
    (L : List (ι × Sighting)) (s : State ι) : Prop :=
  s.shared.Explained serverName plainMode L ∧
    ∀ i, (s.locals i).Explained serverName plainMode L s.shared i

theorem allExplained_init {ttl : Duration} :
    AllExplained serverName plainMode [] (init ttl : State ι) := by
  refine ⟨⟨fun _ _ h => (nomatch h), ?_, fun _ _ h => (nomatch h)⟩, fun i =>
    explained_of_holds (by simp) (by simp) fun _ _ h => h.elim⟩
  rintro key x ⟨hp, hk, -⟩
  cases hk

theorem allExplained_step {e : ι × NetEvent} (h : AllExplained serverName plainMode L s)
    (hs : step connectionsPerHost serverName plainMode s e = some s') :
    AllExplained serverName plainMode (note s e L) s' := by
  obtain ⟨i, e⟩ := e
  obtain ⟨a, hp, hl⟩ := Par.step_eq_some.1 hs
  have hm := netStep_cases hp
  obtain ⟨hn, ha⟩ := hm.explained h.1 (h.2 i)
  refine ⟨hn, fun j => ?_⟩
  rw [hl]
  rcases eq_or_ne j i with rfl | hj
  · rwa [Function.update_self]
  · rw [Function.update_of_ne hj]
    exact (h.2 j).other hj (hm.peers h.1)

theorem allExplained_of_run {ttl : Duration} {es : List (ι × NetEvent)}
    (hr : run (step connectionsPerHost serverName plainMode) (init ttl) es = some s) :
    AllExplained serverName plainMode
      (sightings connectionsPerHost serverName plainMode ttl es) s := by
  refine run_record (fun L t e t' h hs => ?_) allExplained_init hr
  exact allExplained_step h hs

/-- In every run of the network, an open that failed did so for what was seen of that very open
since it began, in order : its error is that of the answer for its host, of the last of the
addresses in that answer, which were all tried, or of a handshake with the first one of them that
accepted. -/
theorem open_explained {ttl : Duration} {es : List (ι × NetEvent)}
    (hr : run (step connectionsPerHost serverName plainMode) (init ttl) es = some s) {i : ι}
    {key : HostKey} {isFirst : Bool} {e : DownloadError}
    (hi : (s.locals i).client = .openFailed key isFirst e) : LastFailed serverName plainMode
      (sightings connectionsPerHost serverName plainMode ttl es) i key e :=
  ((allExplained_of_run hr).2 i).failed key isFirst e hi

/-- Two opens for one host : its only address refuses the first and does not answer the second,
which begins with the cached answer while the first is under way. -/
def unreachableRun : List (ℕ × NetEvent) :=
  [(0, .client (.start ("h", 443))), (0, .client (.decide (fun _ => .dead) fun _ => .dead)),
    (0, .opening (.check 0)), (0, .opening (.lookup (.ok [⟨"192.0.2.1", 443⟩]))),
    (0, .opening (.store 1)), (1, .client (.start ("h", 443))),
    (1, .client (.decide (fun _ => .dead) fun _ => .dead)), (1, .opening (.check 2)),
    (0, .opening (.connect (.refused "connection refused"))), (1, .opening (.connect .timedOut))]

theorem open_explained_unreachableRun :
    LastFailed .ok false (sightings 2 .ok false (Duration.fromSecs 300) unreachableRun) 0
      ("h", 443) (.connectionFailed "connection refused") ∧
    LastFailed .ok false (sightings 2 .ok false (Duration.fromSecs 300) unreachableRun) 1
      ("h", 443) (.connectionFailed "connect to 192.0.2.1:443 timed out") := by
  obtain ⟨s, hr, h0, h1⟩ : ∃ s,
      run (step 2 .ok false) (init (Duration.fromSecs 300)) unreachableRun = some s ∧
      (s.locals 0).client = .openFailed ("h", 443) true
        (.connectionFailed "connection refused") ∧
      (s.locals 1).client = .openFailed ("h", 443) false
        (.connectionFailed "connect to 192.0.2.1:443 timed out") := ⟨_, rfl, rfl, rfl⟩
  exact ⟨open_explained hr h0, open_explained hr h1⟩

end Net

end Imgdl
