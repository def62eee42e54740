import Imgdl.IdleReuse
import Imgdl.Waiters

/-!
# Wake-ups of the HTTP/1.1 pool

`HostPool.free` is how many acquires in a row an entry can answer without `Wait`. A signal
says that it grew by one. Whether the waiting clients hear of it is a matter of counting :
the clients of a `Notify` are `Served` if its permit is enough for all of them, and
otherwise the wake-ups under way have to make up for what is free (`Wakes`).

Four sections can spoil this (`WakeKept`) : a failed open that removes the entry with its
`Notify` and signals nobody, a signal that finds a permit stored already, the first
handshake when it makes idle connections visible, and a wake-up that is spent on a
client's last attempt. In a run whose steps all spare the waiting clients, no wake-up is
lost (`no_lost_wake`).
-/

set_option linter.unusedSectionVars false

namespace Imgdl

open Transition Interleaving

/-! ## What an entry has free -/

/-- An idle HTTP/1.1 connection. -/
def isIdle (conn : PooledConnection) : Bool :=
  match conn.sender with
  | .h1 (some _) => true
  | _ => false

/-- The idle connections, which only an entry tagged HTTP/1.1 looks at, and the room for
more. -/
def HostPool.free (connectionsPerHost : ℕ) (hp : HostPool) : ℕ :=
  (if hp.protocol = .http1 then hp.connections.countP isIdle else 0) +
    (connectionsPerHost - hp.totalCount)

/-- An entry of HTTP/1.1 connections. -/
def HostPool.Plain (hp : HostPool) : Prop :=
  ∀ conn ∈ hp.connections, ∃ o, conn.sender = .h1 o

section Free

variable {connectionsPerHost : ℕ} {hp hp' : HostPool} {a : AcquireAction}

/-- Nothing is pruned from HTTP/1.1 connections. -/
theorem Pruned.eq_of_plain {conns : List PooledConnection} (h : Pruned hp.connections conns)
    (hn : (hp.connections.map PooledConnection.id).Nodup) (hplain : hp.Plain) :
    conns = hp.connections := by
  refine h.1.eq_of_length_le (hn.of_map.subperm fun conn hc => ?_).length_le
  obtain ⟨id, sender⟩ := conn
  obtain ⟨o, rfl⟩ := hplain _ hc
  exact h.2 id o hc

/-- Any answer but `Wait` takes one of what is free. -/
theorem HostAction.free (h : HostAction connectionsPerHost hp hp' a)
    (hn : (hp.connections.map PooledConnection.id).Nodup) (hplain : hp.Plain)
    (ha : ∀ m, a ≠ .wait m) :
    hp'.free connectionsPerHost + 1 = hp.free connectionsPerHost := by
  cases h with
  | @reuseH1 id s conns hprot hs =>
    obtain ⟨pre, post, he, rfl⟩ := hs
    simp only [HostPool.free, HostPool.totalCount, hprot, he, if_true, List.countP_append,
      List.countP_cons, List.length_append, List.length_cons, isIdle]
    simp only [Bool.false_eq_true, if_false]
    omega
  | reuseH2 hpr hmem =>
    rw [hpr.eq_of_plain hn hplain] at hmem
    obtain ⟨o, ho⟩ := hplain _ hmem
    cases ho
  | scale hpr hlt =>
    rw [hpr.eq_of_plain hn hplain] at hlt ⊢
    simp only [HostPool.free, HostPool.totalCount]
    omega
  | wait => exact absurd rfl (ha _)

theorem HostAction.wait_full {m : NotifyId}
    (h : HostAction connectionsPerHost hp hp' (.wait m))
    (hn : (hp.connections.map PooledConnection.id).Nodup) (hplain : hp.Plain) :
    connectionsPerHost ≤ hp.totalCount ∧ hp' = hp := by
  cases h with
  | wait hpr hle =>
    rw [hpr.eq_of_plain hn hplain] at hle ⊢
    exact ⟨hle, rfl⟩

/-- `Wait` means that nothing is free. -/
theorem hostAction_wait_free {poll poll' : SenderId → H2Status} {m : NotifyId}
    (ha : (hostAction connectionsPerHost poll poll' hp).2 = .wait m)
    (hn : (hp.connections.map PooledConnection.id).Nodup) (hplain : hp.Plain) :
    (hostAction connectionsPerHost poll poll' hp).1.free connectionsPerHost = 0 := by
  have hcases := hostAction_cases connectionsPerHost poll poll' hp
  rw [ha] at hcases
  obtain ⟨hfull, hsame⟩ := hcases.wait_full hn hplain
  rw [hsame, HostPool.free, Nat.sub_eq_zero_of_le hfull, Nat.add_zero]
  split_ifs with hprot
  · refine List.countP_eq_zero.2 fun conn hc hidle => ?_
    obtain ⟨id, sender⟩ := conn
    obtain ⟨o, rfl⟩ := hplain _ hc
    cases o with
    | none => cases hidle
    | some t =>
      obtain ⟨handle, hr⟩ := hostAction_http1_idle connectionsPerHost poll poll' hprot hc
      rw [ha] at hr
      cases hr
  · rfl

/-- A connection that enters the pool is checked out and takes the room of its open. -/
theorem free_insert {conn : OpenedConnection} (h0 : 0 < hp.openingCount)
    (hconn : conn.protocol = .http1) :
    (hp.insert false conn).free connectionsPerHost = hp.free connectionsPerHost := by
  cases conn with
  | h2 s => cases hconn
  | h1 s =>
    have htotal : (hp.insert false (.h1 s)).totalCount = hp.totalCount := by
      simp only [HostPool.totalCount, HostPool.insert, List.length_append,
        List.length_singleton]
      omega
    rw [HostPool.free, htotal, HostPool.free]
    simp [HostPool.insert, OpenedConnection.split, isIdle]

theorem countP_giveBack (id : ℕ) (s : SenderId) : ∀ conns : List PooledConnection,
    (giveBack id s conns).countP isIdle ≤ conns.countP isIdle + 1
  | [] => Nat.zero_le _
  | conn :: conns => by
    unfold giveBack
    split_ifs
    · simp only [List.countP_cons]
      split_ifs <;> omega
    · have ih := countP_giveBack id s conns
      simp only [List.countP_cons]
      omega

/-- At most one connection has the id. -/
theorem length_filter_id (id : ℕ) {conns : List PooledConnection}
    (hn : (conns.map PooledConnection.id).Nodup) :
    conns.length ≤ (conns.filter fun c => c.id ≠ id).length + 1 := by
  have hsplit := List.length_eq_countP_add_countP (fun c : PooledConnection => c.id ≠ id)
    (l := conns)
  have hone := List.nodup_iff_count_le_one.1 hn id
  rw [List.count, List.countP_map] at hone
  rw [← List.countP_eq_length_filter]
  have hle : conns.countP (fun c => ¬decide (c.id ≠ id) = true) ≤
      conns.countP ((fun x => x == id) ∘ PooledConnection.id) :=
    List.countP_mono_left fun c _ hc => by simpa using hc
  omega

/-- What is given back is free afterwards, and no more. -/
theorem free_ended (c : Client) (hn : (hp.connections.map PooledConnection.id).Nodup) :
    (hp.ended c).free connectionsPerHost ≤ hp.free connectionsPerHost + 1 := by
  unfold HostPool.ended
  split
  · simp only [HostPool.free, HostPool.totalCount]
    omega
  · next s id result =>
    split_ifs
    · have hidle := countP_giveBack id s hp.connections
      simp only [HostPool.free, HostPool.totalCount, giveBack_length]
      split_ifs <;> omega
    · have hidle : (hp.connections.filter fun c => c.id ≠ id).countP isIdle ≤
          hp.connections.countP isIdle := List.filter_sublist.countP_le
      have hlen := length_filter_id id hn
      simp only [HostPool.free, HostPool.totalCount]
      split_ifs <;> omega
  · exact Nat.le_succ _

theorem giveBack_plain {id : ℕ} {s : SenderId} : ∀ {conns : List PooledConnection},
    (∀ conn ∈ conns, ∃ o, conn.sender = .h1 o) →
      ∀ conn ∈ giveBack id s conns, ∃ o, conn.sender = .h1 o
  | [], h => h
  | conn :: conns, h => by
    have hrest : ∀ d ∈ conns, ∃ o, d.sender = .h1 o :=
      fun d hd => h d (List.mem_cons_of_mem _ hd)
    obtain ⟨o, ho⟩ := h conn List.mem_cons_self
    unfold giveBack
    split_ifs
    · rw [ho]
      exact List.forall_mem_cons.2 ⟨⟨some s, rfl⟩, hrest⟩
    · exact List.forall_mem_cons.2 ⟨⟨o, ho⟩, giveBack_plain hrest⟩

theorem HostPool.Plain.ended (h : hp.Plain) (c : Client) : (hp.ended c).Plain := by
  unfold HostPool.ended
  split
  · exact h
  · intro conn hc
    dsimp only at hc
    split_ifs at hc
    · exact giveBack_plain h conn hc
    · exact h conn (List.mem_of_mem_filter hc)
  · exact h

theorem HostAction.plain (h : HostAction connectionsPerHost hp hp' a) (hplain : hp.Plain) :
    hp'.Plain := by
  have pruned : ∀ {conns : List PooledConnection}, Pruned hp.connections conns →
      ∀ conn ∈ conns, ∃ o, conn.sender = .h1 o :=
    fun hpr conn hc => hplain conn (hpr.1.subset hc)
  cases h with
  | reuseH1 _ hs =>
    obtain ⟨pre, post, he, rfl⟩ := hs
    intro conn hc
    rcases List.mem_append.1 hc with hc | hc
    · exact hplain conn (by simp [he, hc])
    · rcases List.mem_cons.1 hc with rfl | hc
      · exact ⟨none, rfl⟩
      · exact hplain conn (by simp [he, hc])
  | reuseH2 hpr _ | scale hpr _ | wait hpr _ => exact pruned hpr

theorem HostPool.Plain.insert (h : hp.Plain) {isFirst : Bool} {conn : OpenedConnection}
    (hconn : conn.protocol = .http1) : (hp.insert isFirst conn).Plain := by
  intro d hd
  rcases List.mem_append.1 hd with hd | hd
  · exact h d hd
  · rw [List.mem_singleton.1 hd]
    cases conn with
    | h2 s => cases hconn
    | h1 s => exact ⟨none, rfl⟩

end Free

namespace Pool

variable {ι : Type*} [DecidableEq ι] {connectionsPerHost : ℕ} {key : HostKey}
  {s s' : State ι} {i : ι} {c' : Client} {m : NotifyId} {need need' : ℕ}

/-! ## Counting waiters and wake-ups -/

/-- The permit of the `Notify` is enough for the clients that wait on it and were not
woken. -/
def Served (s : State ι) (m : NotifyId) : Prop :=
  ∃ n, Count (fun c => c.queuing = some m) s.locals n ∧
    n + (s.shared.notifies m).waiters.length ≤ (s.shared.notifies m).permit.toNat

/-- At least `need` clients are on their way back to the entry of the key. -/
def Wakes (s : State ι) (key : HostKey) (m : NotifyId) (need : ℕ) : Prop :=
  ∃ r, Count (fun c => c.resumed = some key) s.locals r ∧
    need ≤ (s.shared.notifies m).woken.length + (s.shared.notifies m).permit.toNat + r

/-- Enough wake-ups for `need` free connections, or for all who wait. -/
def Announced (s : State ι) (key : HostKey) (m : NotifyId) (need : ℕ) : Prop :=
  Served s m ∨ Wakes s key m need

/-- The clients of a `Notify` are served, or it is the entry's and what the entry has free
is announced. -/
def Cover (connectionsPerHost : ℕ) (key : HostKey) (s : State ι) (m : NotifyId) : Prop :=
  Served s m ∨ ∃ hp, s.shared.hostPools key = some hp ∧ hp.notify = m ∧
    Wakes s key m (hp.free connectionsPerHost)

/-- Of the waiters of a `Notify`, the registered ones and the client, if it queues. -/
def lined (p : PoolState) (m : NotifyId) (c : Client) : ℕ :=
  (p.notifies m).waiters.length + if c.queuing = some m then 1 else 0

/-- Of the wake-ups for a key, those of the `Notify` and the client, if it was woken. -/
def coming (p : PoolState) (key : HostKey) (m : NotifyId) (c : Client) : ℕ :=
  (p.notifies m).woken.length + (p.notifies m).permit.toNat +
    if c.resumed = some key then 1 else 0

theorem served_update (h : Served s m) (hloc : s'.locals = Function.update s.locals i c')
    (hbal : lined s'.shared m c' + (s.shared.notifies m).permit.toNat ≤
      lined s.shared m (s.locals i) + (s'.shared.notifies m).permit.toNat) : Served s' m := by
  obtain ⟨n, hn, hle⟩ := h
  obtain ⟨n', hn', he⟩ := hn.update i c'
  unfold lined at hbal
  exact ⟨n', hloc ▸ hn', by omega⟩

theorem served_keep (h : Served s m) (hloc : s'.locals = Function.update s.locals i c')
    (hn : s'.shared.notifies m = s.shared.notifies m) (hi : (s.locals i).queuing = none)
    (hc : c'.queuing = none) : Served s' m :=
  served_update h hloc (by rw [lined, lined, hn, hi, hc])

theorem wakes_update (h : Wakes s key m need)
    (hloc : s'.locals = Function.update s.locals i c')
    (hbal : need' + coming s.shared key m (s.locals i) ≤ need + coming s'.shared key m c') :
    Wakes s' key m need' := by
  obtain ⟨r, hr, hle⟩ := h
  obtain ⟨r', hr', he⟩ := hr.update i c'
  unfold coming at hbal
  exact ⟨r', hloc ▸ hr', by omega⟩

/-- Nothing free needs no wake-up. -/
theorem wakes_zero (h : ∃ n, Count (fun c => c ≠ Client.idle) s.locals n) : Wakes s key m 0 := by
  obtain ⟨n, hn⟩ := h
  obtain ⟨r, hr, -⟩ := hn.exists_of_imp (p := fun c => c.resumed = some key)
    fun i hi h0 => by simp [h0, Client.resumed] at hi
  exact ⟨r, hr, Nat.zero_le _⟩

/-- Who waits on another `Notify` than the entry's is served. -/
theorem served_of_cover (h : Cover connectionsPerHost key s m)
    (hm : ∀ hp, s.shared.hostPools key = some hp → hp.notify ≠ m) : Served s m :=
  h.elim id fun ⟨hp, hk, he, _⟩ => absurd he (hm hp hk)

/-- A section after which `Announced` clients are still covered. -/
theorem cover_announced (h : Announced s key m need)
    (hloc : s'.locals = Function.update s.locals i c')
    (hserved : lined s'.shared m c' + (s.shared.notifies m).permit.toNat ≤
      lined s.shared m (s.locals i) + (s'.shared.notifies m).permit.toNat) {hp' : HostPool}
    (hk' : s'.shared.hostPools key = some hp') (hm : hp'.notify = m)
    (hwakes : hp'.free connectionsPerHost + coming s.shared key m (s.locals i) ≤
      need + coming s'.shared key m c') : Cover connectionsPerHost key s' m :=
  h.imp (served_update · hloc hserved) fun hw => ⟨hp', hk', hm, wakes_update hw hloc hwakes⟩

/-- The same, for each of the two ways to be covered. -/
theorem cover_update (h : Cover connectionsPerHost key s m)
    (hloc : s'.locals = Function.update s.locals i c')
    (hserved : lined s'.shared m c' + (s.shared.notifies m).permit.toNat ≤
      lined s.shared m (s.locals i) + (s'.shared.notifies m).permit.toNat)
    (hwakes : ∀ hp, s.shared.hostPools key = some hp → hp.notify = m →
      ∃ hp', s'.shared.hostPools key = some hp' ∧ hp'.notify = m ∧
        hp'.free connectionsPerHost + coming s.shared key m (s.locals i) ≤
          hp.free connectionsPerHost + coming s'.shared key m c') :
    Cover connectionsPerHost key s' m := by
  rcases h with h | ⟨hp, hk, hm, hw⟩
  · exact Or.inl (served_update h hloc hserved)
  · obtain ⟨hp', hk', hm', hle⟩ := hwakes hp hk hm
    exact cover_announced (Or.inr hw) hloc hserved hk' hm' hle

/-- A section that leaves the `Notify` alone, by a client that does not queue for it. -/
theorem cover_keep (h : Cover connectionsPerHost key s m)
    (hloc : s'.locals = Function.update s.locals i c')
    (hn : s'.shared.notifies m = s.shared.notifies m) (hi : (s.locals i).queuing ≠ some m)
    (hc : c'.queuing ≠ some m)
    (hwakes : ∀ hp, s.shared.hostPools key = some hp → hp.notify = m →
      ∃ hp', s'.shared.hostPools key = some hp' ∧ hp'.notify = m ∧
        hp'.free connectionsPerHost + (if (s.locals i).resumed = some key then 1 else 0) ≤
          hp.free connectionsPerHost + (if c'.resumed = some key then 1 else 0)) :
    Cover connectionsPerHost key s' m := by
  refine cover_update h hloc (by rw [lined, lined, hn, if_neg hi, if_neg hc])
    fun hp hk hm => ?_
  obtain ⟨hp', hk', hm', hle⟩ := hwakes hp hk hm
  exact ⟨hp', hk', hm', by rw [coming, coming, hn]; omega⟩

/-! ## The sections that can lose a wake-up -/

/-- The section spares the clients that wait for the key. -/
structure WakeKept (connectionsPerHost : ℕ) (key : HostKey) (s : State ι)
    (e : ι × ClientEvent) : Prop where
  /-- A failed open that removes the entry, and with it the `Notify`. -/
  dropped : ∀ hp isFirst err, s.shared.hostPools key = some hp →
    s.locals e.1 = .openFailed key isFirst err → hp.connections = [] → hp.openingCount = 1 →
    Served s hp.notify
  /-- A signal to a `Notify` that has a permit stored. -/
  signalled : ∀ hp, s.shared.hostPools key = some hp → (s.locals e.1).ending = some key →
    (s.shared.notifies hp.notify).permit = true →
    Announced s key hp.notify ((hp.ended (s.locals e.1)).free connectionsPerHost)
  /-- The first handshake, which sets the tag and signals nobody. -/
  revealed : ∀ hp conn, s.shared.hostPools key = some hp →
    s.locals e.1 = .opened key true conn →
    Announced s key hp.notify ((hp.insert true conn).free connectionsPerHost)
  /-- A wake-up or a permit that goes to a client on its last attempt. -/
  spent : ∀ hp n, s.shared.hostPools key = some hp → MAX_ACQUIRE_ATTEMPTS ≤ n + 1 →
    ((s.locals e.1 = .toWait key n hp.notify ∧ (s.shared.notifies hp.notify).permit = true) ∨
      ∃ t, s.locals e.1 = .waiting key n hp.notify t) →
    Announced s key hp.notify (hp.free connectionsPerHost + 1)

/-- The sections of the other clients cannot lose a wake-up. -/
theorem wakeKept_of_spares {e : ι × ClientEvent} (h : (s.locals e.1).spares = true) :
    WakeKept connectionsPerHost key s e where
  dropped _ _ _ _ hc := by rw [hc] at h; cases h
  signalled _ _ hc := by
    have hends : (s.locals e.1).spares = false := by
      cases hl : s.locals e.1 <;> rw [hl] at hc <;> first | rfl | cases hc
    exact absurd h (by simp [hends])
  revealed _ _ _ hc := by rw [hc] at h; cases h
  spent _ n _ hn hc := by
    have hlt : n + 1 < MAX_ACQUIRE_ATTEMPTS := by
      rcases hc with ⟨hc, -⟩ | ⟨t, hc⟩ <;> rw [hc] at h <;> exact of_decide_eq_true h
    exact absurd hn (not_le.2 hlt)

/-- A signal that finds no permit stored is heard. -/
theorem wakeKept_of_finishing {e : ι × ClientEvent} {k : HostKey} {handle : PoolHandle}
    {result : Except DownloadError TransportResult}
    (hc : s.locals e.1 = .finishing k handle result)
    (h : ∀ hp, s.shared.hostPools key = some hp →
      (s.shared.notifies hp.notify).permit = false) : WakeKept connectionsPerHost key s e where
  dropped _ _ _ _ hc' := by rw [hc] at hc'; cases hc'
  signalled hp hk _ hb := by rw [h hp hk] at hb; cases hb
  revealed _ _ _ hc' := by rw [hc] at hc'; cases hc'
  spent _ _ _ _ hc' := by rw [hc] at hc'; rcases hc' with ⟨hc', -⟩ | ⟨t, hc'⟩ <;> cases hc'

/-- The first handshake may reveal anything to an entry with no waiting clients. -/
theorem wakeKept_of_opened {e : ι × ClientEvent} {k : HostKey} {conn : OpenedConnection}
    (hc : s.locals e.1 = .opened k true conn)
    (h : ∀ hp, s.shared.hostPools key = some hp → Served s hp.notify) :
    WakeKept connectionsPerHost key s e where
  dropped _ _ _ _ hc' := by rw [hc] at hc'; cases hc'
  signalled _ _ hc' := by rw [hc] at hc'; cases hc'
  revealed hp _ hk _ := Or.inl (h hp hk)
  spent _ _ _ _ hc' := by rw [hc] at hc'; rcases hc' with ⟨hc', -⟩ | ⟨t, hc'⟩ <;> cases hc'

variable {owner : NotifyId → HostKey}

/-- A client goes back to the mutex, with a wake-up or a permit. -/
theorem cover_resume {k : HostKey} {n : ℕ} {m₀ : NotifyId} {e : ClientEvent} {f : Notify → Notify}
    (h : Cover connectionsPerHost key s m) (hown : Owned owner s) (ho : owner m = key)
    (hkept : WakeKept connectionsPerHost key s (i, e))
    (hloc : s'.locals = Function.update s.locals i (nextAttempt k n))
    (hq : s'.shared = s.shared.onNotify m₀ f) (hw : (s.locals i).waitsAt = some (k, m₀))
    (hi : (s.locals i = .toWait k n m₀ ∧ (s.shared.notifies m₀).permit = true) ∨
      ∃ t, s.locals i = .waiting k n m₀ t)
    (hserved : (f (s.shared.notifies m₀)).waiters.length + (s.shared.notifies m₀).permit.toNat ≤
      (s.shared.notifies m₀).waiters.length +
        (if (s.locals i).queuing = some m₀ then 1 else 0) +
        (f (s.shared.notifies m₀)).permit.toNat)
    (hone : (s.shared.notifies m₀).woken.length + (s.shared.notifies m₀).permit.toNat =
      (f (s.shared.notifies m₀)).woken.length + (f (s.shared.notifies m₀)).permit.toNat + 1) :
    Cover connectionsPerHost key s' m := by
  have hres : (s.locals i).resumed = none := by
    rcases hi with ⟨hi, -⟩ | ⟨t, hi⟩ <;> rw [hi] <;> rfl
  have hqueue : (nextAttempt k n).queuing = none :=
    Client.queuing_of_waitsAt (nextAttempt_waitsAt k n)
  have hent : ∀ hp, s.shared.hostPools key = some hp → s'.shared.hostPools key = some hp :=
    fun hp hk => by rw [hq]; exact hk
  rcases eq_or_ne m m₀ with rfl | hne
  · obtain rfl : k = key := (hown.client i k m hw).2.symm.trans ho
    have hf : s'.shared.notifies m = f (s.shared.notifies m) := by
      rw [hq, PoolState.onNotify_notifies_self]
    by_cases hlast : n + 1 < MAX_ACQUIRE_ATTEMPTS
    · refine cover_update h hloc (by simpa [lined, hf, hqueue] using hserved)
        fun hp hk hm => ⟨hp, hent hp hk, hm, ?_⟩
      rw [coming, coming, hf, hres, nextAttempt_resumed hlast, if_neg (by simp), if_pos rfl]
      omega
    · rcases h with h | ⟨hp, hk, rfl, hw⟩
      · exact Or.inl (served_update h hloc (by simpa [lined, hf, hqueue] using hserved))
      · -- nobody comes back with this wake-up
        refine cover_announced (hkept.spent hp n hk (not_lt.1 hlast) hi) hloc
          (by simpa [lined, hf, hqueue] using hserved) (hent hp hk) rfl ?_
        rw [coming, coming, hf, hres, if_neg (by simp)]
        omega
  · have hn : s'.shared.notifies m = s.shared.notifies m := by
      rw [hq, PoolState.onNotify_notifies_of_ne hne]
    have hqueue' : (s.locals i).queuing ≠ some m := by
      rcases hi with ⟨hi, -⟩ | ⟨t, hi⟩ <;> rw [hi] <;> simp [Client.queuing, hne.symm]
    refine cover_keep h hloc hn hqueue' (by simp [hqueue])
      fun hp hk hm => ⟨hp, hent hp hk, hm, ?_⟩
    rw [hres, if_neg (by simp)]
    omega

/-- An open or a connection is given back, and the `Notify` of the entry signalled. -/
theorem cover_ended {k : HostKey} {hp : HostPool} {e : ClientEvent}
    (h : Cover connectionsPerHost key s m) (hown : Owned owner s) (ho : owner m = key)
    (hkept : WakeKept connectionsPerHost key s (i, e)) (hk : s.shared.hostPools k = some hp)
    (hn : (hp.connections.map PooledConnection.id).Nodup)
    (hloc : s'.locals = Function.update s.locals i c') (hi : (s.locals i).ending = some k)
    (hc : c'.Outside)
    (hq : s'.shared = { s.shared with
      hostPools := Function.update s.shared.hostPools k (some (hp.ended (s.locals i))) }.signal
        (some hp.notify)) :
    Cover connectionsPerHost key s' m := by
  have hpools : s'.shared.hostPools =
      Function.update s.shared.hostPools k (some (hp.ended (s.locals i))) := by
    rw [hq, PoolState.signal_hostPools]
  have hqueue := Client.queuing_of_ending hi
  have hres := Client.resumed_of_ending hi
  have hqueue' := Client.queuing_of_waitsAt hc.waitsAt
  have hres' := hc.resumed
  rcases eq_or_ne m hp.notify with rfl | hne
  · obtain rfl : k = key := (hown.entry k hp hk).2.symm.trans ho
    have hsig : s'.shared.notifies hp.notify = (s.shared.notifies hp.notify).notifyOne := by
      rw [hq]
      exact Function.update_self ..
    have hk' : s'.shared.hostPools k = some (hp.ended (s.locals i)) := by
      rw [hpools, Function.update_self]
    have hserved := (s.shared.notifies hp.notify).notifyOne_waiters
    cases hpermit : (s.shared.notifies hp.notify).permit with
    | true =>
      -- the signal may be lost on the permit
      have hwakes := (s.shared.notifies hp.notify).notifyOne_woken_le
      have hann : Announced s k hp.notify ((hp.ended (s.locals i)).free connectionsPerHost) :=
        hkept.signalled hp hk hi hpermit
      refine cover_announced hann hloc (by simpa [lined, hsig, hqueue, hqueue'] using hserved) hk'
        (HostPool.ended_notify _ _) ?_
      rw [coming, coming, hsig, hres, hres']
      omega
    | false =>
      have hwakes := (s.shared.notifies hp.notify).notifyOne_woken hpermit
      refine cover_update h hloc (by simpa [lined, hsig, hqueue, hqueue'] using hserved)
        fun hp₁ hk₁ _ => ⟨_, hk', HostPool.ended_notify _ _, ?_⟩
      obtain rfl := Option.some.inj (hk.symm.trans hk₁)
      have hfree : (hp.ended (s.locals i)).free connectionsPerHost ≤
          hp.free connectionsPerHost + 1 := free_ended _ hn
      rw [coming, coming, hsig, hres, hres']
      omega
  · have hsame : s'.shared.notifies m = s.shared.notifies m := by
      rw [hq]
      exact Function.update_of_ne hne ..
    refine cover_keep h hloc hsame (by simp [hqueue]) (by simp [hqueue']) fun hp₁ hk₁ hm => ?_
    have hkk : key ≠ k := by
      rintro rfl
      exact hne (hm ▸ Option.some.inj (hk₁.symm.trans hk) ▸ rfl)
    exact ⟨hp₁, by rw [hpools, Function.update_of_ne hkk, hk₁], hm, by rw [hres, hres']⟩

/-- An entry answers a client. If the answer is `Wait`, nothing is free. -/
theorem cover_answered {k : HostKey} {n : ℕ} {poll poll' : SenderId → H2Status}
    {hp : HostPool} (hown : Owned owner s)
    (hactive : ∃ n, Count (fun c => c ≠ Client.idle) s'.locals n)
    (hk : s.shared.hostPools k = some hp)
    (hn : (hp.connections.map PooledConnection.id).Nodup) (hplain : k = key → hp.Plain)
    (hi : s.locals i = .locking k n)
    (hloc : s'.locals = Function.update s.locals i
      (afterAction k n (hostAction connectionsPerHost poll poll' hp).2))
    (hnotify : s'.shared.notifies = s.shared.notifies)
    (hpools : s'.shared.hostPools = Function.update s.shared.hostPools k
      (some (hostAction connectionsPerHost poll poll' hp).1)) {j : ι}
    (hj : (s'.locals j).waitsAt = some (key, m))
    (hcov : ∀ j, (s.locals j).waitsAt = some (key, m) → Cover connectionsPerHost key s m) :
    Cover connectionsPerHost key s' m := by
  have hact := hostAction_cases connectionsPerHost poll poll' hp
  have hk' : s'.shared.hostPools k = some (hostAction connectionsPerHost poll poll' hp).1 := by
    rw [hpools, Function.update_self]
  by_cases hwait : k = key ∧ (hostAction connectionsPerHost poll poll' hp).2 = .wait m
  · obtain ⟨rfl, ha⟩ := hwait
    refine Or.inr ⟨_, hk', ?_, ?_⟩
    · rw [hact.notify_eq.1, hact.notify_eq.2 m ha]
    · rw [hostAction_wait_free ha hn (hplain rfl)]
      exact wakes_zero hactive
  have hji : j ≠ i := by
    rintro rfl
    rw [hloc, Function.update_self] at hj
    exact hwait (afterAction_waitsAt.1 hj)
  rw [hloc, Function.update_of_ne hji] at hj
  have ho : owner m = key := (hown.client j key m hj).2
  have hqueue : (afterAction k n (hostAction connectionsPerHost poll poll' hp).2).queuing ≠
      some m := fun hw => by
    have ha := afterAction_queuing.1 hw
    refine hwait ⟨(hown.entry k hp hk).2.symm.trans ?_, ha⟩
    rw [← hact.notify_eq.2 m ha, ho]
  refine cover_keep (hcov j hj) hloc (by rw [hnotify]) (by simp [hi, Client.queuing]) hqueue
    fun hp₁ hk₁ hm => ?_
  rcases eq_or_ne k key with rfl | hkk
  · obtain rfl := Option.some.inj (hk.symm.trans hk₁)
    refine ⟨_, hk', hact.notify_eq.1.trans hm, ?_⟩
    have hfree := hact.free hn (hplain rfl) fun m' ha => hwait ⟨rfl, by
      rw [ha, hact.notify_eq.2 m' ha, hm]⟩
    split_ifs <;> omega
  · refine ⟨hp₁, by rw [hpools, Function.update_of_ne hkk.symm, hk₁], hm, ?_⟩
    have hres : (s.locals i).resumed ≠ some key := by
      rw [hi]
      cases n with
      | zero => simp [Client.resumed]
      | succ n => simpa [Client.resumed] using hkk
    rw [if_neg hres]
    omega

/-- A section that signals nobody and changes one entry. -/
theorem cover_silent {k : HostKey} {o : Option HostPool} (h : Cover connectionsPerHost key s m)
    (hloc : s'.locals = Function.update s.locals i c') (hi : (s.locals i).queuing = none)
    (hres : (s.locals i).resumed = some key → k = key) (hc : c'.Outside)
    (hnotify : s'.shared.notifies = s.shared.notifies)
    (hpools : s'.shared.hostPools = Function.update s.shared.hostPools k o)
    (hkey : k = key → ∀ hp, s.shared.hostPools key = some hp → hp.notify = m →
      ∃ hp', o = some hp' ∧ hp'.notify = m ∧ (s.locals i).resumed = none ∧
        hp'.free connectionsPerHost ≤ hp.free connectionsPerHost) :
    Cover connectionsPerHost key s' m := by
  refine cover_keep h hloc (by rw [hnotify]) (by simp [hi])
    (by simp [Client.queuing_of_waitsAt hc.waitsAt]) fun hp hk hm => ?_
  rcases eq_or_ne k key with rfl | hkk
  · obtain ⟨hp', rfl, hm', hnone, hle⟩ := hkey rfl hp hk hm
    refine ⟨hp', by rw [hpools, Function.update_self], hm', ?_⟩
    rw [hnone, if_neg (by simp)]
    omega
  · refine ⟨hp, by rw [hpools, Function.update_of_ne hkk.symm, hk], hm, ?_⟩
    rw [if_neg fun he => hkk (hres he)]
    omega

/-- The first handshake sets the tag. -/
theorem cover_revealed {hp : HostPool} {conn : OpenedConnection} {e : ClientEvent}
    (h : Cover connectionsPerHost key s m) (hkept : WakeKept connectionsPerHost key s (i, e))
    (hk : s.shared.hostPools key = some hp) (hi : s.locals i = .opened key true conn)
    (hloc : s'.locals = Function.update s.locals i c') (hc : c'.Outside)
    (hnotify : s'.shared.notifies = s.shared.notifies)
    (hpools : s'.shared.hostPools =
      Function.update s.shared.hostPools key (some (hp.insert true conn))) :
    Cover connectionsPerHost key s' m := by
  have hk' : s'.shared.hostPools key = some (hp.insert true conn) := by
    rw [hpools, Function.update_self]
  have hqueue : (s.locals i).queuing = none := by rw [hi]; rfl
  have hres : (s.locals i).resumed = none := by rw [hi]; rfl
  have hqueue' := Client.queuing_of_waitsAt hc.waitsAt
  by_cases hm : hp.notify = m
  · subst hm
    refine cover_announced (hkept.revealed hp conn hk hi) hloc ?_ hk' rfl ?_
    · rw [lined, lined, hnotify, hqueue, hqueue']
    · rw [coming, coming, hnotify, hres, hc.resumed]
  · refine Or.inl (served_keep (served_of_cover h fun hp₁ hk₁ => ?_) hloc (by rw [hnotify])
      hqueue hqueue')
    rwa [← Option.some.inj (hk.symm.trans hk₁)]

/-- A failed open removes the entry. -/
theorem cover_dropped {hp : HostPool} {isFirst : Bool} {err : DownloadError} {e : ClientEvent}
    (h : Cover connectionsPerHost key s m) (hkept : WakeKept connectionsPerHost key s (i, e))
    (hk : s.shared.hostPools key = some hp) (hi : s.locals i = .openFailed key isFirst err)
    (hnil : hp.connections = []) (hone : hp.openingCount = 1)
    (hloc : s'.locals = Function.update s.locals i c') (hc : c'.Outside)
    (hnotify : s'.shared.notifies = s.shared.notifies) : Cover connectionsPerHost key s' m := by
  have hserved : Served s m := by
    by_cases hm : hp.notify = m
    · exact hm ▸ hkept.dropped hp isFirst err hk hi hnil hone
    · refine served_of_cover h fun hp₁ hk₁ => ?_
      rwa [← Option.some.inj (hk.symm.trans hk₁)]
  exact Or.inl (served_keep hserved hloc (by rw [hnotify]) (by rw [hi]; rfl)
    (Client.queuing_of_waitsAt hc.waitsAt))

/-- A section that spares the waiting clients keeps them covered. -/
theorem cover_step {e : ClientEvent} (hcap : Capacity connectionsPerHost s)
    (hactive : ∃ n, Count (fun c => c ≠ Client.idle) s'.locals n) (hown : Owned owner s)
    (hopened : ∀ i isFirst conn, s.locals i = .opened key isFirst conn →
      conn.protocol = .http1)
    (hplain : ∀ hp, s.shared.hostPools key = some hp → hp.Plain)
    (hkept : WakeKept connectionsPerHost key s (i, e))
    (hm : NotifyMove connectionsPerHost s.shared (s.locals i) s'.shared c')
    (hloc : s'.locals = Function.update s.locals i c')
    (hcov : ∀ j, (s.locals j).waitsAt = some (key, m) → Cover connectionsPerHost key s m)
    {j : ι} (hj : (s'.locals j).waitsAt = some (key, m)) :
    Cover connectionsPerHost key s' m := by
  -- but for an answer `Wait`, whoever waits afterwards waited before
  have old : (c'.waitsAt = some (key, m) → (s.locals i).waitsAt = some (key, m)) →
      Cover connectionsPerHost key s m ∧ owner m = key := by
    intro hback
    obtain ⟨j', hj'⟩ : ∃ j', (s.locals j').waitsAt = some (key, m) := by
      rw [hloc] at hj
      rcases eq_or_ne j i with rfl | hji
      · exact ⟨j, hback (by rwa [Function.update_self] at hj)⟩
      · exact ⟨j, by rwa [Function.update_of_ne hji] at hj⟩
    exact ⟨hcov j' hj', (hown.client j' key m hj').2⟩
  have outside : c'.Outside → Cover connectionsPerHost key s m ∧ owner m = key :=
    fun ho => old fun hw => (nomatch ho.waitsAt.symm.trans hw)
  generalize hc : s.locals i = c at hm
  generalize hq : s'.shared = q at hm
  cases hm with
  | quiet hp hn _ _ ho ho' =>
    refine cover_keep (outside ho').1 hloc (by rw [hq, hn])
      (by simp [hc, Client.queuing_of_waitsAt ho.waitsAt])
      (by simp [Client.queuing_of_waitsAt ho'.waitsAt]) fun hp₁ hk₁ hm => ⟨hp₁, ?_, hm, ?_⟩
    · rw [hq, hp, hk₁]
    · rw [hc, ho.resumed, ho'.resumed]
  | @first k n hnone =>
    refine cover_silent (outside ⟨rfl, rfl⟩).1 hloc (by rw [hc]; rfl) (fun hr => ?_) ⟨rfl, rfl⟩
      (by rw [hq]) (by rw [hq]) fun hkk hp₁ hk₁ _ => ?_
    · rw [hc] at hr
      cases n with
      | zero => cases hr
      | succ n => exact Option.some.inj hr
    · rw [← hkk, hnone] at hk₁
      cases hk₁
  | @answered k n poll poll' hp₀ hk =>
    exact cover_answered hown hactive hk (hcap.entries k hp₀ hk).nodup
      (fun hkk => hplain hp₀ (hkk ▸ hk)) hc hloc (by rw [hq]) (by rw [hq]) hj hcov
  | @permit k n m₀ hpermit =>
    obtain ⟨h, ho⟩ := old fun hw => (nomatch (nextAttempt_waitsAt k n).symm.trans hw)
    refine cover_resume h hown ho hkept hloc hq (by rw [hc]; rfl)
      (Or.inl ⟨hc, hpermit⟩) ?_ (by simp [hpermit])
    simp [hc, hpermit, Client.queuing]
  | @enqueue k n m₀ hpermit =>
    have hback : (Client.waiting k n m₀ s.shared.nextWaiter).waitsAt = some (key, m) →
        (s.locals i).waitsAt = some (key, m) := by
      rw [hc]
      exact id
    refine cover_update (old hback).1 hloc ?_ fun hp₁ hk₁ hm => ⟨hp₁, by rw [hq]; exact hk₁, hm, ?_⟩
    · rw [hq, hc]
      rcases eq_or_ne m m₀ with rfl | hne
      · simp [lined, Client.queuing]
      · simp [lined, Client.queuing, hne, hne.symm]
    · rw [hq, hc]
      rcases eq_or_ne m m₀ with rfl | hne
      · simp [coming, Client.resumed]
      · simp [coming, Client.resumed, hne]
  | @woken k n m₀ t ht =>
    obtain ⟨h, ho⟩ := old fun hw => (nomatch (nextAttempt_waitsAt k n).symm.trans hw)
    refine cover_resume h hown ho hkept hloc hq (by rw [hc]; rfl) (Or.inr ⟨t, hc⟩) ?_ ?_
    · simp [hc, Client.queuing]
    · have hlen := List.length_erase_of_mem ht
      have hpos := List.length_pos_of_mem ht
      simp only
      omega
  | @inserted k isFirst conn hp₀ _ hk h0 ho' =>
    by_cases hfirst : k = key ∧ isFirst = true
    · obtain ⟨rfl, rfl⟩ := hfirst
      exact cover_revealed (outside ho').1 hkept hk hc hloc ho' (by rw [hq]) (by rw [hq])
    · refine cover_silent (k := k) (outside ho').1 hloc (by rw [hc]; rfl)
        (fun hr => by rw [hc] at hr; cases hr) ho' (by rw [hq]) (by rw [hq])
        fun hkk hp₁ hk₁ hm => ?_
      subst hkk
      obtain rfl := Option.some.inj (hk.symm.trans hk₁)
      obtain rfl : isFirst = false := by simpa using hfirst
      refine ⟨_, rfl, hm, by rw [hc]; rfl, ?_⟩
      exact (free_insert h0 (hopened i false conn hc)).le
  | @dropped k isFirst err hp₀ _ hk hnil hone ho' =>
    rcases eq_or_ne k key with rfl | hkk
    · exact cover_dropped (outside ho').1 hkept hk hc hnil hone hloc ho' (by rw [hq])
    · exact cover_silent (outside ho').1 hloc (by rw [hc]; rfl)
        (fun hr => by rw [hc] at hr; cases hr) ho' (by rw [hq]) (by rw [hq])
        fun he => absurd he hkk
  | @ended _ k hp₀ _ he hk ho' =>
    obtain ⟨h, ho⟩ := outside ho'
    exact cover_ended h hown ho hkept hk (hcap.entries k hp₀ hk).nodup hloc (hc ▸ he) ho'
      (by rw [hq, hc])

/-! ## Runs -/

/-- The entry of the key has HTTP/1.1 connections only. -/
theorem entry_plain_step
    (hopened : ∀ i isFirst conn, s.locals i = .opened key isFirst conn →
      conn.protocol = .http1)
    (hplain : ∀ hp, s.shared.hostPools key = some hp → hp.Plain)
    (hm : NotifyMove connectionsPerHost s.shared (s.locals i) s'.shared c') :
    ∀ hp, s'.shared.hostPools key = some hp → hp.Plain := by
  generalize hc : s.locals i = c at hm
  generalize s'.shared = q at hm
  -- the entry of `k` is updated
  have update : ∀ {k hp}, (k = key → hp.Plain) → ∀ hp',
      Function.update s.shared.hostPools k (some hp) key = some hp' → hp'.Plain := by
    intro k hp hp₀ hp' hk'
    rcases update_eq_some hk' with ⟨rfl, rfl⟩ | ⟨-, hk'⟩
    · exact hp₀ rfl
    · exact hplain hp' hk'
  cases hm with
  | quiet hp => exact fun hp' hk' => hplain hp' (hp ▸ hk')
  | first _ => exact update fun _ conn hconn => (nomatch hconn)
  | @answered _ _ poll poll' hp₀ hk =>
    exact update fun hkk => (hostAction_cases connectionsPerHost poll poll' hp₀).plain
      (hplain hp₀ (hkk ▸ hk))
  | permit _ | enqueue _ | woken _ => exact hplain
  | inserted hk _ _ =>
    refine update fun hkk => ?_
    subst hkk
    exact (hplain _ hk).insert (hopened i _ _ hc)
  | @dropped k _ _ _ _ _ _ _ _ =>
    intro hp' hk'
    rcases eq_or_ne key k with rfl | hne
    · simp at hk'
    · exact hplain hp' (by simpa [Function.update_of_ne hne] using hk')
  | ended _ hk _ =>
    intro hp' hk'
    rw [PoolState.signal_hostPools] at hk'
    exact update (fun hkk => (hplain _ (hkk ▸ hk)).ended _) hp' hk'

/-- What holds in a run that spares the clients waiting for the key. -/
structure Listening (connectionsPerHost : ℕ) (key : HostKey) (s : State ι) : Prop where
  capacity : Capacity connectionsPerHost s
  /-- Finitely many clients have started. -/
  active : ∃ n, Count (fun c => c ≠ Client.idle) s.locals n
  registered : Registered s
  owned : ∃ owner, Owned owner s
  opened : ∀ i isFirst conn, s.locals i = .opened key isFirst conn → conn.protocol = .http1
  plain : ∀ hp, s.shared.hostPools key = some hp → hp.Plain
  cover : ∀ i m, (s.locals i).waitsAt = some (key, m) → Cover connectionsPerHost key s m

theorem listening_init : Listening connectionsPerHost key (init : State ι) where
  capacity := capacity_init
  active := ⟨0, Count.zero fun _ h => h rfl⟩
  registered := registered_init
  owned := ⟨fun _ => key, owned_init⟩
  opened := fun _ _ _ h => (nomatch h)
  plain := fun _ h => (nomatch h)
  cover := fun _ _ h => (nomatch h)

theorem listening_step {e : ι × ClientEvent} (h : Listening connectionsPerHost key s)
    (hplain : PlainOpens key s e) (htimer : e.2 ≠ .timer)
    (hkept : WakeKept connectionsPerHost key s e)
    (hs : step connectionsPerHost s e = some s') : Listening connectionsPerHost key s' := by
  obtain ⟨i, e⟩ := e
  obtain ⟨c', hp, hloc⟩ := Par.step_eq_some.1 hs
  have hm := NotifyMove.of_clientStep hp hplain.1 htimer
  obtain ⟨owner, hown⟩ := h.owned
  have hactive : ∃ n, Count (fun c => c ≠ Client.idle) s'.locals n := by
    obtain ⟨n, hn⟩ := h.active
    obtain ⟨n', hn', -⟩ := hn.update_le i c'
    exact ⟨n', hloc ▸ hn'⟩
  exact {
    capacity := capacity_step h.capacity hs
    active := hactive
    registered := registered_step h.registered hm hloc
    owned := owned_step hown hm hloc
    opened := fun _ _ _ hj => plain_step h.opened hplain hs hj
    plain := entry_plain_step h.opened h.plain hm
    cover := fun _ m hj => cover_step h.capacity hactive hown h.opened h.plain hkept hm hloc
      (fun j hj => h.cover j m hj) hj }

/-- A wake-up of a waiting client is pending : it was notified, or a permit is stored in
the `Notify` it waits on. -/
def Notified (p : PoolState) : Client → Prop
  | .locking _ _ => True
  | .toWait _ _ m => (p.notifies m).permit = true
  | .waiting _ _ m t => t ∈ (p.notifies m).woken ∨ (p.notifies m).permit = true
  | _ => False

/-- If a client waits for the key and the key would not be answered `Wait` now, a wake-up
of one of those clients is pending. A client that was woken waits until it looks at the pool
again. -/
def NoLostWake (connectionsPerHost : ℕ) (key : HostKey) (s : State ι) : Prop :=
  ∀ poll poll', (∃ i, (s.locals i).waitsFor = some key) →
    (∀ m, (determineAction connectionsPerHost poll poll' s.shared.hostPools s.shared.nextNotify
      key).2 ≠ .wait m) →
    ∃ i, (s.locals i).waitsFor = some key ∧ Notified s.shared (s.locals i)

/-- A served client has its permit, or was woken. -/
theorem notified_of_served (h : Served s m) (hreg : Registered s) {i : ι}
    (hi : (s.locals i).waitsAt = some (key, m)) : Notified s.shared (s.locals i) := by
  obtain ⟨n, hn, hle⟩ := h
  have permit : 0 < (s.shared.notifies m).permit.toNat →
      (s.shared.notifies m).permit = true := fun h0 => by
    cases hb : (s.shared.notifies m).permit with
    | true => rfl
    | false => simp [hb] at h0
  cases hc : s.locals i with
  | toWait k a m' =>
    rw [hc] at hi
    obtain ⟨rfl, rfl⟩ := Prod.mk.inj (Option.some.inj hi)
    have hpos := hn.pos (i := i) (by rw [hc]; rfl)
    exact permit (by omega)
  | waiting k a m' t =>
    rw [hc] at hi
    obtain ⟨rfl, rfl⟩ := Prod.mk.inj (Option.some.inj hi)
    have hmem := (hreg.listed m' t).2 ⟨i, by rw [hc]; rfl⟩
    rcases List.mem_append.1 hmem with hw | hw
    · have hpos := List.length_pos_of_mem hw
      exact Or.inr (permit (by omega))
    · exact Or.inl hw
  | _ => rw [hc] at hi; cases hi

theorem noLostWake_of_listening (h : Listening connectionsPerHost key s) :
    NoLostWake connectionsPerHost key s := by
  rintro poll poll' ⟨i, hi⟩ hact
  by_cases hres : ∃ j, (s.locals j).resumed = some key
  · obtain ⟨j, hj⟩ := hres
    refine ⟨j, Client.waitsFor_of_resumed hj, ?_⟩
    cases hc : s.locals j <;> rw [hc] at hj <;> first | exact trivial | cases hj
  obtain ⟨m, hm⟩ : ∃ m, (s.locals i).waitsAt = some (key, m) := by
    rcases Client.waitsFor_cases hi with hr | hw
    · exact absurd ⟨i, hr⟩ hres
    · exact hw
  obtain ⟨owner, hown⟩ := h.owned
  rcases h.cover i m hm with hserved | ⟨hp, hk, rfl, r, hr, hle⟩
  · exact ⟨i, hi, notified_of_served hserved h.registered hm⟩
  -- something is free, so a wake-up is under way
  have hfree : 0 < hp.free connectionsPerHost := by
    have hcases := hostAction_cases connectionsPerHost poll poll' hp
    have := hcases.free (h.capacity.entries key hp hk).nodup (h.plain hp hk) fun m' ha =>
      hact m' (by rw [determineAction, hk, ← ha])
    omega
  obtain rfl : r = 0 := hr.unique (.zero fun j hj => hres ⟨j, hj⟩)
  cases hw : (s.shared.notifies hp.notify).woken with
  | cons t ts =>
    have hmem : t ∈ (s.shared.notifies hp.notify).listed :=
      List.mem_append_right _ (by simp [hw])
    obtain ⟨j, hj⟩ := (h.registered.listed _ t).1 hmem
    obtain ⟨k, hjw⟩ := Client.waitsAt_of_registration hj
    obtain rfl : k = key :=
      (hown.client j k _ hjw).2.symm.trans (hown.client i key _ hm).2
    refine ⟨j, Client.waitsFor_of_waitsAt hjw, ?_⟩
    cases hc : s.locals j <;> rw [hc] at hj <;> cases hj
    exact Or.inl (by simp [hw])
  | nil =>
    have hpermit : (s.shared.notifies hp.notify).permit = true := by
      cases hb : (s.shared.notifies hp.notify).permit with
      | true => rfl
      | false => simp [hw, hb] at hle; omega
    refine ⟨i, hi, ?_⟩
    cases hc : s.locals i <;> rw [hc] at hm <;> cases hm
    · exact hpermit
    · exact Or.inr hpermit

/-- In every state reached by a run of HTTP/1.1 opens without cancellations and timers in
which every section spares the waiting clients, no wake-up is lost. -/
theorem no_lost_wake {es : List (ι × ClientEvent)}
    (hr : run (step connectionsPerHost) init es = some s)
    (hplain : Meets (step connectionsPerHost) (PlainOpens key) init es)
    (htimer : Meets (step connectionsPerHost) (fun _ e => e.2 ≠ .timer) init es)
    (hkept : Meets (step connectionsPerHost) (WakeKept connectionsPerHost key) init es) :
    NoLostWake connectionsPerHost key s :=
  noLostWake_of_listening <| run_invariant
    (fun _ _ _ h he hs => listening_step h he.1 he.2.1 he.2.2 hs) listening_init
    (hplain.and (htimer.and hkept)) hr

/-- Client 1 waits for the connection that client 0 opens, uses and gives back. -/
def handoverRun : List (ℕ × ClientEvent) :=
  [(0, .start ("h", 80)), (0, .decide (fun _ => .dead) fun _ => .dead),
    (0, .connect (.ok .http1)), (0, .insert), (1, .start ("h", 80)),
    (1, .decide (fun _ => .dead) fun _ => .dead), (1, .register),
    (0, .respond (.ok (.response ⟨[], []⟩))), (0, .finish)]

theorem no_lost_wake_handoverRun : ∃ s, run (step 1) init handoverRun = some s ∧
    (s.locals 1).waitsFor = some ("h", 80) ∧ NoLostWake 1 ("h", 80) s := by
  obtain ⟨s, hr, hw⟩ : ∃ s, run (step 1) init handoverRun = some s ∧
    (s.locals 1).waitsFor = some ("h", 80) := ⟨_, rfl, rfl⟩
  have hplain : Meets (step 1) (PlainOpens ("h", 80)) init handoverRun :=
    Meets.of_events plainOpens_of_event (by simp [handoverRun])
  have htimer : Meets (step 1) (fun _ e => e.2 ≠ .timer) init handoverRun :=
    Meets.of_events (fun _ _ h => h) (by simp [handoverRun])
  have hkept : Meets (step 1) (WakeKept 1 ("h", 80)) init handoverRun := by
    refine .cons rfl (wakeKept_of_spares rfl) <| .cons rfl (wakeKept_of_spares rfl) <|
      .cons rfl (wakeKept_of_spares rfl) <| .cons rfl (wakeKept_of_opened rfl fun _ hk => ?_) <|
      .cons rfl (wakeKept_of_spares rfl) <| .cons rfl (wakeKept_of_spares rfl) <|
      .cons rfl (wakeKept_of_spares rfl) <| .cons rfl (wakeKept_of_spares rfl) <|
      .cons rfl (wakeKept_of_finishing rfl fun _ hk => ?_) trivial
    · cases hk
      refine ⟨0, Count.zero fun i hi => ?_, Nat.zero_le _⟩
      cases i <;> cases hi
    · cases hk
      rfl
  exact ⟨s, hr, hw, no_lost_wake hr hplain htimer hkept⟩

/-- Client 1 waits for the connection that client 0 fails to open. -/
def dropRun : List (ℕ × ClientEvent) :=
  [(0, .start ("h", 80)), (0, .decide (fun _ => .dead) fun _ => .dead), (1, .start ("h", 80)),
    (1, .decide (fun _ => .dead) fun _ => .dead), (1, .register),
    (0, .connect (.error (.connectionFailed "refused"))), (0, .insert)]

/-- The entry is gone and with it its `Notify`, on which client 1 waits. -/
theorem lost_wake_dropRun : ∃ s, run (step 1) init dropRun = some s ∧
    Meets (step 1) (PlainOpens ("h", 80)) init dropRun ∧
    Meets (step 1) (fun _ e => e.2 ≠ .timer) init dropRun ∧ ¬NoLostWake 1 ("h", 80) s := by
  refine ⟨_, rfl, Meets.of_events plainOpens_of_event (by simp [dropRun]),
    Meets.of_events (fun _ _ h => h) (by simp [dropRun]), fun h => ?_⟩
  obtain ⟨i, hi, hn⟩ := h (fun _ => .dead) (fun _ => .dead) ⟨1, rfl⟩ fun m hm => nomatch hm
  match i, hi, hn with
  | 1, _, hn => exact hn.elim (fun h => nomatch h) fun h => nomatch h

end Pool

end Imgdl
