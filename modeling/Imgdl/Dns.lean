import Imgdl.Interleaving
import Imgdl.Types

/-!
# The DNS cache

`DnsCache` maps a host to its last answer and the instant that answer expires. The
addresses of an answer carry a port, and the map is keyed by the host alone.

`resolveStep` is one `resolve` call, cut at its await points : the check under the read
lock, the system lookup, and the store under the write lock. Any number of calls
interleave over one cache (`Dns.step`), and the events carry the instants, the lookup
answers and the moments a caller drops its future.

`DnsState.filledBy` records which call stored the entry of a host, by its port. A run
keeps every answered address on the port its call asked for exactly when no call is
answered from an entry that a call for another port stored
(`resolve_port_iff_ownEntry`).
-/

set_option linter.unusedSectionVars false

namespace Imgdl

open Transition Interleaving

/-- A socket address, its IP as text. -/
structure SocketAddr where
  ip : String
  port : UInt16
  deriving DecidableEq, Repr

/-- What `lookup_host` gives : addresses, or the text of an I/O error. -/
abbrev Lookup := Except String (List SocketAddr)

/-- A cached answer and the instant it expires. -/
structure CacheEntry where
  result : Lookup
  expiresAt : ℕ

/-- The cache with its two lifetimes. -/
structure DnsCache where
  cache : String → Option CacheEntry
  ttl : Duration
  negativeTtl : Duration

namespace DnsCache

/-- An empty cache. Failures live for 30 seconds. -/
def new (ttl : Duration) : DnsCache :=
  ⟨fun _ => none, ttl, Duration.fromSecs 30⟩

/-- The answer of a lookup to its caller. -/
def answer : Lookup → Except DownloadError (List SocketAddr)
  | .ok addrs => .ok addrs
  | .error msg => .error (.dnsResolutionFailed msg)

/-- The check under the read lock : the unexpired entry of the host, if there is one. -/
def check (d : DnsCache) (host : String) (now : ℕ) : Option Lookup :=
  match d.cache host with
  | some entry => if now < entry.expiresAt then some entry.result else none
  | none => none

/-- The store under the write lock. Where the clock ends before the entry would, the sum of
instants panics and nothing is stored. -/
def store (d : DnsCache) (host : String) (r : Lookup) (now : ℕ) : DnsCache :=
  { d with cache := Function.update d.cache host (some ⟨r, now + match r with
    | .ok _ => d.ttl
    | .error _ => d.negativeTtl⟩) }

theorem check_eq_some {d : DnsCache} {host : String} {now : ℕ} {r : Lookup} :
    d.check host now = some r ↔ ∃ e, d.cache host = some e ∧ now < e.expiresAt ∧ e.result = r := by
  unfold check
  cases d.cache host with
  | none => simp
  | some e => by_cases h : now < e.expiresAt <;> simp [h]

end DnsCache

/-- The string handed to the system resolver. -/
def lookupString (host : String) (port : UInt16) : String :=
  s!"{host}:{port}"

/-- The cache, the clock, and the port of the call that stored each host's entry. -/
structure DnsState where
  dns : DnsCache
  now : ℕ
  filledBy : String → Option UInt16

/-- One `resolve` call at its await points. -/
inductive Call where
  | idle
  | resolving (host : String) (port : UInt16)
  | lookup (host : String) (port : UInt16)
  | store (host : String) (port : UInt16) (r : Lookup)
  | done (host : String) (port : UInt16) (result : Except DownloadError (List SocketAddr))

/-- What a call waits for. -/
inductive DnsEvent where
  | resolve (host : String) (port : UInt16)
  | check (now : ℕ)
  | lookup (r : Lookup)
  | store (now : ℕ)
  | cancel

/-- The next section of `resolve_inner`. The clock never goes back. -/
def resolveStep (d : DnsState) : Call → DnsEvent → Option (DnsState × Call)
  | .idle, .resolve host port => some (d, .resolving host port)
  | .resolving host port, .check now =>
    if d.now ≤ now then
      match d.dns.check host now with
      | some r => some ({ d with now := now }, .done host port (DnsCache.answer r))
      | none => some ({ d with now := now }, .lookup host port)
    else none
  | .lookup host port, .lookup r => some (d, .store host port r)
  | .store host port r, .store now =>
    if d.now ≤ now then
      some (⟨d.dns.store host r now, now, Function.update d.filledBy host (some port)⟩,
        .done host port (DnsCache.answer r))
    else none
  | .resolving _ _, .cancel => some (d, .idle)
  | .lookup _ _, .cancel => some (d, .idle)
  | .store _ _ _, .cancel => some (d, .idle)
  | _, _ => none

/-- What one section of a call does. -/
theorem resolveStep_cases {d d' : DnsState} {c c' : Call} {e : DnsEvent}
    (h : resolveStep d c e = some (d', c')) :
    (∃ host port, e = .resolve host port ∧ c' = .resolving host port ∧ d' = d) ∨
    (∃ host port now r, c = .resolving host port ∧ e = .check now ∧
      d.dns.check host now = some r ∧ d' = { d with now := now } ∧
      c' = .done host port (DnsCache.answer r)) ∨
    (∃ host port now, c = .resolving host port ∧ e = .check now ∧
      d.dns.check host now = none ∧ d' = { d with now := now } ∧ c' = .lookup host port) ∨
    (∃ host port r, c = .lookup host port ∧ e = .lookup r ∧ d' = d ∧ c' = .store host port r) ∨
    (∃ host port r now, c = .store host port r ∧ e = .store now ∧
      d' = ⟨d.dns.store host r now, now, Function.update d.filledBy host (some port)⟩ ∧
      c' = .done host port (DnsCache.answer r)) ∨
    (e = .cancel ∧ d' = d ∧ c' = .idle) := by
  unfold resolveStep at h
  split at h
  · obtain ⟨rfl, rfl⟩ := Prod.mk.inj (Option.some.inj h)
    exact Or.inl ⟨_, _, rfl, rfl, rfl⟩
  · split_ifs at h
    split at h <;> rename_i hc <;> obtain ⟨rfl, rfl⟩ := Prod.mk.inj (Option.some.inj h)
    · exact Or.inr (Or.inl ⟨_, _, _, _, rfl, rfl, hc, rfl, rfl⟩)
    · exact Or.inr (Or.inr (Or.inl ⟨_, _, _, rfl, rfl, hc, rfl, rfl⟩))
  · obtain ⟨rfl, rfl⟩ := Prod.mk.inj (Option.some.inj h)
    exact Or.inr (Or.inr (Or.inr (Or.inl ⟨_, _, _, rfl, rfl, rfl, rfl⟩)))
  · split_ifs at h
    obtain ⟨rfl, rfl⟩ := Prod.mk.inj (Option.some.inj h)
    exact Or.inr (Or.inr (Or.inr (Or.inr (Or.inl ⟨_, _, _, _, rfl, rfl, rfl, rfl⟩))))
  all_goals first
    | contradiction
    | (obtain ⟨rfl, rfl⟩ := Prod.mk.inj (Option.some.inj h)
       exact Or.inr (Or.inr (Or.inr (Or.inr (Or.inr ⟨rfl, rfl, rfl⟩)))))

/-! ## Dialing -/

/-- How one TCP connect ends. -/
inductive Connect where
  | connected
  | refused (e : String)
  | timedOut

/-- Try the addresses in order, from the `k`-th attempt on. The addresses dialed, and
the one that accepted or the last error. -/
def tcpConnect (outcome : ℕ → Connect) : ℕ → List SocketAddr → Option String →
    List SocketAddr × Except DownloadError SocketAddr
  | _, [], lastErr =>
    ([], .error (.connectionFailed (lastErr.getD "no addresses to connect to")))
  | k, addr :: addrs, _ =>
    match outcome k with
    | .connected => ([addr], .ok addr)
    | .refused e =>
      let r := tcpConnect outcome (k + 1) addrs (some e)
      (addr :: r.1, r.2)
    | .timedOut =>
      let r := tcpConnect outcome (k + 1) addrs
        (some s!"connect to {addr.ip}:{addr.port} timed out")
      (addr :: r.1, r.2)

/-- Only resolved addresses are dialed. -/
theorem mem_of_mem_tcpConnect {outcome : ℕ → Connect} {a : SocketAddr} :
    ∀ {addrs : List SocketAddr} {k : ℕ} {lastErr : Option String},
      a ∈ (tcpConnect outcome k addrs lastErr).1 → a ∈ addrs
  | [], _, _, h => by simp [tcpConnect] at h
  | addr :: addrs, k, lastErr, h => by
    unfold tcpConnect at h
    cases hk : outcome k with
    | connected => exact List.mem_cons.2 (Or.inl (by simpa [hk] using h))
    | refused e =>
      simp only [hk, List.mem_cons] at h
      exact List.mem_cons.2 (h.imp_right mem_of_mem_tcpConnect)
    | timedOut =>
      simp only [hk, List.mem_cons] at h
      exact List.mem_cons.2 (h.imp_right mem_of_mem_tcpConnect)

/-! ## The ports of the answers -/

variable {ι : Type*} [DecidableEq ι]

namespace Dns

/-- The calls over one cache. -/
abbrev State (ι : Type*) := Par DnsState ι Call

/-- Any call takes its next section. -/
abbrev step : State ι → ι × DnsEvent → Option (State ι) :=
  Par.step resolveStep

/-- No call yet, and an empty cache. -/
def init (ttl : Duration) : State ι :=
  ⟨⟨DnsCache.new ttl, 0, fun _ => none⟩, fun _ => .idle⟩

/-- The system lookup of `"host:port"` answers with addresses of that port. -/
def HonestLookup (s : State ι) (e : ι × DnsEvent) : Prop :=
  ∀ host port addrs, s.locals e.1 = .lookup host port → e.2 = .lookup (.ok addrs) →
    ∀ a ∈ addrs, a.port = port

/-- Every address answered to a call has the port it asked for, and so has every
address a connection attempt dials. -/
def PortsMatch (s : State ι) : Prop :=
  ∀ i host port addrs, s.locals i = .done host port (.ok addrs) →
    (∀ a ∈ addrs, a.port = port) ∧
      ∀ outcome, ∀ a ∈ (tcpConnect outcome 0 addrs none).1, a.port = port

/-- A call answered with addresses from the cache finds an entry that a call for its own
port stored. -/
def OwnEntry (s : State ι) (e : ι × DnsEvent) : Prop :=
  ∀ host port now addrs, s.locals e.1 = .resolving host port → e.2 = .check now →
    s.shared.dns.check host now = some (.ok addrs) → addrs ≠ [] →
    s.shared.filledBy host = some port

/-- Stored addresses, and addresses about to be stored, have the port of their lookup. -/
structure Inv (s : State ι) : Prop where
  cached : ∀ host e addrs, s.shared.dns.cache host = some e → e.result = .ok addrs →
    ∃ port, s.shared.filledBy host = some port ∧ ∀ a ∈ addrs, a.port = port
  looked : ∀ i host port addrs, s.locals i = .store host port (.ok addrs) →
    ∀ a ∈ addrs, a.port = port

theorem inv_init (ttl : Duration) : Inv (init ttl : State ι) :=
  ⟨fun _ _ _ h => by simp [init, DnsCache.new] at h, fun _ _ _ _ h => by simp [init] at h⟩

theorem portsMatch_of_addrs {s : State ι} (h : ∀ i host port addrs,
    s.locals i = .done host port (.ok addrs) → ∀ a ∈ addrs, a.port = port) : PortsMatch s :=
  fun i host port addrs hd => ⟨h i host port addrs hd, fun _ a ha =>
    h i host port addrs hd a (mem_of_mem_tcpConnect ha)⟩

theorem answer_eq_ok {r : Lookup} {addrs : List SocketAddr}
    (h : DnsCache.answer r = .ok addrs) : r = .ok addrs := by
  cases r with
  | ok a => simpa [DnsCache.answer] using h
  | error m => simp [DnsCache.answer] at h

theorem inv_step {s s' : State ι} {e : ι × DnsEvent} (hI : Inv s) (hl : HonestLookup s e)
    (h : step s e = some s') : Inv s' := by
  obtain ⟨i, e⟩ := e
  obtain ⟨c, hp, hloc⟩ := Par.step_eq_some.1 h
  have looked : (∀ host port addrs, c = .store host port (.ok addrs) →
      ∀ a ∈ addrs, a.port = port) → ∀ j host port addrs,
      s'.locals j = .store host port (.ok addrs) → ∀ a ∈ addrs, a.port = port := by
    intro hc j host port addrs hj
    rw [hloc] at hj
    rcases eq_or_ne j i with rfl | hji
    · rw [Function.update_self] at hj
      exact hc host port addrs hj
    · rw [Function.update_of_ne hji] at hj
      exact hI.looked j host port addrs hj
  rcases resolveStep_cases hp with ⟨host, port, -, rfl, hd⟩ |
    ⟨host, port, now, r, -, -, -, hd, rfl⟩ | ⟨host, port, now, -, -, -, hd, rfl⟩ |
    ⟨host, port, r, hs, rfl, hd, rfl⟩ | ⟨host, port, r, now, hs, rfl, hd, rfl⟩ | ⟨-, hd, rfl⟩
  case inr.inr.inr.inr.inl =>
    -- the entry of `host` is now the answer of this call's own lookup
    refine ⟨fun host' en addrs hc hr => ?_, looked (by simp)⟩
    rw [hd] at hc ⊢
    rcases eq_or_ne host' host with rfl | hne
    · simp only [DnsCache.store, Function.update_self, Option.some.injEq] at hc ⊢
      subst hc
      obtain rfl : r = .ok addrs := hr
      exact ⟨port, rfl, hI.looked i host' port addrs hs⟩
    · simp only [DnsCache.store, Function.update_of_ne hne] at hc ⊢
      exact hI.cached host' en addrs hc hr
  case inr.inr.inr.inl =>
    refine ⟨by rw [hd]; exact hI.cached, looked fun h' p' addrs hc => ?_⟩
    obtain ⟨rfl, rfl, rfl⟩ : host = h' ∧ port = p' ∧ r = .ok addrs := by simpa using hc
    exact hl host port addrs hs rfl
  all_goals exact ⟨by rw [hd]; exact hI.cached, looked (by simp)⟩

/-- A step answers a call with its own port, if the call's entry is its own. -/
theorem portsMatch_step {s s' : State ι} {e : ι × DnsEvent} (hI : Inv s) (hP : PortsMatch s)
    (ho : OwnEntry s e) (h : step s e = some s') : PortsMatch s' := by
  obtain ⟨i, e⟩ := e
  obtain ⟨c, hp, hloc⟩ := Par.step_eq_some.1 h
  refine portsMatch_of_addrs fun j host port addrs hj => ?_
  rw [hloc] at hj
  rcases eq_or_ne j i with rfl | hji
  swap
  · rw [Function.update_of_ne hji] at hj
    exact (hP j host port addrs hj).1
  rw [Function.update_self] at hj
  subst hj
  rcases resolveStep_cases hp with ⟨_, _, -, hc, -⟩ | ⟨_, _, now, r, hs, rfl, hr, -, hc⟩ |
    ⟨_, _, _, -, -, -, -, hc⟩ | ⟨_, _, _, -, -, -, hc⟩ | ⟨_, _, r, _, hs, -, -, hc⟩ | ⟨-, -, hc⟩
  case inr.inl =>
    obtain ⟨rfl, rfl, hans⟩ := Call.done.inj hc
    obtain rfl := answer_eq_ok hans.symm
    intro a ha
    have hf := ho host port now addrs hs rfl hr (List.ne_nil_of_mem ha)
    obtain ⟨en, hen, -, hres⟩ := DnsCache.check_eq_some.1 hr
    obtain ⟨p, hp', hall⟩ := hI.cached host en addrs hen hres
    obtain rfl : p = port := Option.some.inj (hp'.symm.trans hf)
    exact hall a ha
  case inr.inr.inr.inr.inl =>
    obtain ⟨rfl, rfl, hans⟩ := Call.done.inj hc
    obtain rfl := answer_eq_ok hans.symm
    exact hI.looked j host port addrs hs
  all_goals cases hc

/-- Answered calls stay answered. -/
theorem done_step {s s' : State ι} {e : ι × DnsEvent} (h : step s e = some s') {i : ι}
    {host : String} {port : UInt16} {r : Except DownloadError (List SocketAddr)}
    (hd : s.locals i = .done host port r) : s'.locals i = .done host port r := by
  obtain ⟨j, e⟩ := e
  rcases eq_or_ne i j with rfl | hij
  · obtain ⟨c, hp, -⟩ := Par.step_eq_some.1 h
    rw [hd] at hp
    cases e <;> simp [resolveStep] at hp
  · rw [Par.step_other h hij]
    exact hd

/-- A call answered from an entry of another port breaks the ports. -/
theorem ownEntry_of_portsMatch {s s' : State ι} {e : ι × DnsEvent} (hI : Inv s)
    (h : step s e = some s') (hP : PortsMatch s') : OwnEntry s e := by
  obtain ⟨i, e⟩ := e
  rintro host port now addrs (hs : s.locals i = _) (rfl : e = _) hr hne
  obtain ⟨en, hen, -, hres⟩ := DnsCache.check_eq_some.1 hr
  obtain ⟨p, hf, hall⟩ := hI.cached host en addrs hen hres
  obtain ⟨c, hp, hloc⟩ := Par.step_eq_some.1 h
  have hdone : s'.locals i = .done host port (.ok addrs) := by
    rw [hs] at hp
    unfold resolveStep at hp
    simp only [hr] at hp
    split_ifs at hp
    rw [hloc, Function.update_self, ← (Prod.mk.inj (Option.some.inj hp)).2]
    rfl
  obtain ⟨a, ha⟩ := List.exists_mem_of_ne_nil _ hne
  rw [hf, ← hall a ha, (hP i host port addrs hdone).1 a ha]

/-- In every run of `resolve` calls from an empty cache, with honest lookups, every
address answered to a call and every address dialed for it has the call's port, exactly
when no call was answered with addresses that a call for another port stored. -/
theorem resolve_port_iff_ownEntry (ttl : Duration) {es : List (ι × DnsEvent)} {s : State ι}
    (hl : Meets step HonestLookup (init ttl) es) (hr : run step (init ttl) es = some s) :
    PortsMatch s ↔ Meets step OwnEntry (init ttl) es := by
  constructor
  · intro hP
    refine (meets_of_good (fun _ _ _ hI ha hs => inv_step hI ha hs)
      (fun t e t' _ _ hs hP' i host port addrs hd => ?_)
      (fun _ _ _ hI _ hs hP' => ownEntry_of_portsMatch hI hs hP')
      (inv_init ttl) hl hr hP).2
    exact hP' i host port addrs (done_step hs hd)
  · intro ho
    refine (run_invariant (fun t e t' (hI : Inv t ∧ PortsMatch t) ha hs =>
      ⟨inv_step hI.1 ha.1 hs, portsMatch_step hI.1 hI.2 ha.2 hs⟩)
      ⟨inv_init ttl, ?_⟩ (hl.and ho) hr).2
    exact portsMatch_of_addrs fun i host port addrs hd => by simp [init] at hd

/-- Two calls for ports 80 and 443 of one host, the second within the lifetime of the
first one's entry. -/
def twoPorts : List (ℕ × DnsEvent) :=
  [(0, .resolve "localhost" 80), (0, .check 1), (0, .lookup (.ok [⟨"127.0.0.1", 80⟩])),
    (0, .store 2), (1, .resolve "localhost" 443), (1, .check 3)]

theorem honestLookup_twoPorts :
    Meets step HonestLookup (init (Duration.fromSecs 300)) twoPorts := by
  refine .cons rfl ?_ (.cons rfl ?_ (.cons rfl ?_ (.cons rfl ?_ (.cons rfl ?_
    (.cons rfl ?_ trivial))))) <;> intro host port addrs hs he
  case refine_3 =>
    cases he
    cases hs
    simp
  all_goals cases he

/-- The second call is answered with the first call's port. -/
theorem resolve_other_port : ¬∀ (ttl : Duration) (es : List (ℕ × DnsEvent)) (s : State ℕ),
    Meets step HonestLookup (init ttl) es → run step (init ttl) es = some s →
      PortsMatch s := by
  intro h
  have := (h _ twoPorts _ honestLookup_twoPorts rfl 1 "localhost" 443 _ rfl).1
    ⟨"127.0.0.1", 80⟩ (by simp)
  exact absurd this (by decide)

theorem resolve_port_iff_ownEntry_twoPorts : ∃ s : State ℕ,
    run step (init (Duration.fromSecs 300)) twoPorts = some s ∧
      (PortsMatch s ↔ Meets step OwnEntry (init (Duration.fromSecs 300)) twoPorts) :=
  ⟨_, rfl, resolve_port_iff_ownEntry _ honestLookup_twoPorts rfl⟩

end Dns

end Imgdl
