import Imgdl.Cancellation

/-!
# HTTP/1.1 requests of a host at a time

A checked-out HTTP/1.1 handle has an entry of the pool to itself, so the requests that are under
way on HTTP/1.1 connections of a key, the connections of the key that are free, and the opens
under way for it together stay within `connections_per_host`. The pool is shared, so this bounds
all calls of a downloader together (`Downloader.connection_load`), cancelled tasks included.
-/

set_option linter.unusedSectionVars false

namespace Imgdl

open Transition Interleaving

/-- An HTTP/1.1 connection of `key` is checked out to the client. -/
def Client.Leases (key : HostKey) (c : Client) : Prop :=
  ∃ id t, c.lease = some ((key, id), t)

/-- The connection is not checked out. -/
def PooledConnection.isFree (c : PooledConnection) : Bool :=
  c.sender ≠ .h1 none

/-- The connections of a key that are not checked out. -/
def free (o : Option HostPool) : ℕ :=
  (o.map fun hp => hp.connections.countP PooledConnection.isFree).getD 0

namespace Pool

variable {ι : Type*} [DecidableEq ι] {connectionsPerHost : ℕ} {s : State ι} {key : HostKey}

/-- The entries of an HTTP/1.1 pool are free or checked out. -/
theorem length_eq_free (hp : HostPool) : hp.connections.length =
    (hp.connections.filter fun c => c.sender = .h1 none).length + free (some hp) := by
  have h := List.length_eq_countP_add_countP PooledConnection.isFree (l := hp.connections)
  have hfree : free (some hp) = hp.connections.countP PooledConnection.isFree := rfl
  have hbusy : (hp.connections.countP fun c => ¬c.isFree) =
      (hp.connections.filter fun c => c.sender = .h1 none).length := by
    rw [List.countP_eq_length_filter]
    simp [PooledConnection.isFree]
  omega

/-- Every checked-out handle of a key has an entry of its own. -/
theorem exists_count_leases (h : PoolInv connectionsPerHost s) {hp : HostPool}
    (hk : s.shared.hostPools key = some hp) : ∃ n, Count (Client.Leases key) s.locals n ∧
      n ≤ (hp.connections.filter fun c => c.sender = .h1 none).length := by
  let places :=
    ((hp.connections.filter fun c => c.sender = .h1 none).map PooledConnection.id).toFinset
  have hplace : ∀ i, Client.Leases key (s.locals i) →
      ∃ id ∈ places, ∃ t, (s.locals i).lease = some ((key, id), t) := by
    rintro i ⟨id, t, hl⟩
    obtain ⟨hp', hk', hmem⟩ := (slots_eq_some fun hp' hk' => (h.entries key hp' hk').nodup).1
      (h.checkout.lent i (key, id) t hl)
    obtain rfl : hp = hp' := Option.some.inj (hk.symm.trans hk')
    refine ⟨id, ?_, t, hl⟩
    simp only [places, List.mem_toFinset, List.mem_map, List.mem_filter, decide_eq_true_eq]
    exact ⟨_, ⟨hmem, rfl⟩, rfl⟩
  obtain ⟨n, hcount, hle⟩ := Count.exists_of_places places _ hplace
    fun i j id _ _ ⟨t, hi⟩ ⟨u, hj⟩ => h.checkout.lentOnce i j (key, id) t u hi hj
  exact ⟨n, hcount, hle.trans ((List.toFinset_card_le _).trans (List.length_map _).le)⟩

/-- What a key has at a time, whoever was cancelled. -/
theorem load_of_reaches (h : Reaches (step connectionsPerHost) init s) (key : HostKey) :
    ∃ busy opening, Count (Client.Leases key) s.locals busy ∧
      Count (Client.InFlight key) s.locals opening ∧
      busy + free (s.shared.hostPools key) + opening ≤ max 1 connectionsPerHost := by
  have hinv := poolInv_of_reaches h
  obtain ⟨leak, opening, hopening, hsum⟩ := hinv.tally key
  cases hk : s.shared.hostPools key with
  | none =>
    rw [hk, openings_none] at hsum
    refine ⟨0, opening, .zero fun i => ?_, hopening, by simp [free]; omega⟩
    rintro ⟨id, t, hl⟩
    obtain ⟨hp, hk', -⟩ := (slots_eq_some fun hp hk => (hinv.entries key hp hk).nodup).1
      (hinv.checkout.lent i (key, id) t hl)
    cases hk.symm.trans hk'
  | some hp =>
    rw [hk, openings_some] at hsum
    obtain ⟨busy, hbusy, hle⟩ := exists_count_leases hinv hk
    have hcap := (hinv.entries key hp hk).capacity
    have hlen := length_eq_free hp
    exact ⟨busy, opening, hbusy, hopening, by omega⟩

end Pool

namespace Downloader

variable {env : Env} {config : Config} {s : State}

/-- In every state a downloader reaches, the tasks of all its calls that have an HTTP/1.1
connection of a key checked out, the connections of the key that nobody has, and the opens under
way for it are together at most `max 1 connections_per_host`. -/
theorem connection_load (h : Reaches (step env config) init s) (key : HostKey) :
    ∃ busy opening, Count (Client.Leases key) (clientOf s) busy ∧
      Count (Client.InFlight key) (clientOf s) opening ∧
      busy + free (s.shared.hostPools key) + opening ≤ max 1 config.connectionsPerHost :=
  Pool.load_of_reaches (reaches_poolState h) key

/-- A task runs its request on an HTTP/1.1 connection it opened. -/
def leasedRun : List (ℕ × DownloaderEvent) :=
  openRun ++ [(0, .batch (.task 0 (.pool (.connect (.ok .http1))))),
    (0, .batch (.task 0 (.pool .insert)))]

/-- The limit of one connection is reached. -/
theorem connection_load_leasedRun : ∃ s busy opening,
    run (step oneUrl timed) init leasedRun = some s ∧
    Count (Client.Leases ("h", 80)) (clientOf s) busy ∧ 1 ≤ busy ∧
    busy + free (s.shared.hostPools ("h", 80)) + opening ≤ 1 := by
  obtain ⟨s, hr, hlease⟩ : ∃ s, run (step oneUrl timed) init leasedRun = some s ∧
    (clientOf s (0, 0)).lease = some ((("h", 80), 0), 0) := ⟨_, rfl, rfl⟩
  obtain ⟨busy, opening, hbusy, -, hle⟩ := connection_load ⟨_, hr⟩ ("h", 80)
  exact ⟨s, busy, opening, hr, hbusy, hbusy.pos ⟨0, 0, hlease⟩, hle⟩

end Downloader

end Imgdl
