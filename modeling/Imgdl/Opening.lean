import Imgdl.Dns
import Imgdl.PoolRun

/-!
# Opening connections

`openStep` is one `open_connection` call, cut at its await points : the addresses of the
host through the DNS cache, a TCP connect to one address after the other and, unless the
pool is plain, a TLS handshake for the host whose ALPN answer picks the protocol; last the
HTTP handshake.

The network (`Net.step`) is a connection pool whose attempts open their connections this way,
over one DNS cache. Its runs are runs of the pool in which an open is one step
(`Net.refines_pool`), so what holds of every run of the pool holds here.
-/

set_option linter.unusedSectionVars false

namespace Imgdl

open Transition Interleaving

/-! ## One call -/

/-- What a connection leads to : the address that accepted it, the name its TLS handshake was
for, and the protocol spoken on it. -/
structure Peer where
  addr : SocketAddr
  serverName : Option String
  protocol : NegotiatedProtocol
  deriving DecidableEq, Repr

/-- An `open_connection` call at its await points. `idle` is before it starts. -/
inductive Opening where
  | idle
  | resolving (call : Call)
  /-- Connecting to `addr`; `addrs` are the addresses after it. -/
  | dialing (addr : SocketAddr) (addrs : List SocketAddr) (lastErr : Option String)
  | securing (addr : SocketAddr) (serverName : String)
  | handshaking (peer : Peer)
  | done (result : Except DownloadError Peer)

/-- What a call waits for. A TLS handshake that succeeds gives its ALPN protocol. -/
inductive OpenEvent where
  | check (now : ℕ)
  | lookup (r : Lookup)
  | store (now : ℕ)
  | connect (r : Connect)
  | tls (r : Except String (Option Bytes))
  | handshake (r : Except String Unit)

/-- The event of the `resolve` call inside. -/
def OpenEvent.dns : OpenEvent → Option DnsEvent
  | check now => some (.check now)
  | lookup r => some (.lookup r)
  | store now => some (.store now)
  | _ => none

/-- On to the next address. -/
def dial : List SocketAddr → Option String → Opening
  | [], lastErr => .done (.error (.connectionFailed (lastErr.getD "no addresses to connect to")))
  | addr :: addrs, lastErr => .dialing addr addrs lastErr

/-- A failed connect, as text. -/
def Connect.error (addr : SocketAddr) : Connect → Option String
  | connected => none
  | refused e => some e
  | timedOut => some s!"connect to {addr.ip}:{addr.port} timed out"

/-- Where an open goes from its `resolve` call. -/
def afterResolve : Call → Opening
  | .done _ _ (.ok addrs) => dial addrs none
  | .done _ _ (.error e) => .done (.error e)
  | call => .resolving call

/-- The protocol of an ALPN answer : `b"h2"`, and HTTP/1.1 for any other. -/
def alpnProtocol : Option Bytes → NegotiatedProtocol
  | some [104, 50] => .http2
  | _ => .http1

/-- The error of an HTTP handshake. -/
def handshakeError (e : String) : NegotiatedProtocol → DownloadError
  | .http2 => .connectionFailed s!"HTTP/2 handshake: {e}"
  | .http1 => .connectionFailed s!"HTTP/1.1 handshake: {e}"

section Step

/- `ServerName::try_from`, and whether the pool is plain. -/
variable (serverName : String → Except String String) (plainMode : Bool)

/-- Where an open goes with a TCP stream. -/
def afterConnect (host : String) (addr : SocketAddr) : Opening :=
  if plainMode then .handshaking ⟨addr, none, .http1⟩
  else match serverName host with
    | .error e => .done (.error (.tlsError s!"invalid server name: {e}"))
    | .ok name => .securing addr name

/-- The next section of `open_connection` for `host`. -/
def openStep (d : DnsState) (host : String) : Opening → OpenEvent → Option (DnsState × Opening)
  | .resolving call, e => e.dns.bind fun e =>
    (resolveStep d call e).map fun r => (r.1, afterResolve r.2)
  | .dialing addr addrs _, .connect r => match r.error addr with
    | none => some (d, afterConnect serverName plainMode host addr)
    | some msg => some (d, dial addrs (some msg))
  | .securing _ _, .tls (.error e) => some (d, .done (.error (.tlsError e)))
  | .securing addr name, .tls (.ok alpn) =>
    some (d, .handshaking ⟨addr, some name, alpnProtocol alpn⟩)
  | .handshaking peer, .handshake (.error e) =>
    some (d, .done (.error (handshakeError e peer.protocol)))
  | .handshaking peer, .handshake (.ok ()) => some (d, .done (.ok peer))
  | _, _ => none

/-- What a section of `open_connection` can do. -/
inductive OpenMove (d : DnsState) (host : String) :
    Opening → OpenEvent → DnsState → Opening → Prop where
  | resolve {call call' : Call} {e : OpenEvent} {de : DnsEvent} {d' : DnsState} :
    e.dns = some de → resolveStep d call de = some (d', call') →
    OpenMove d host (.resolving call) e d' (afterResolve call')
  | connected {addr : SocketAddr} {addrs : List SocketAddr} {lastErr : Option String} :
    OpenMove d host (.dialing addr addrs lastErr) (.connect .connected) d
      (afterConnect serverName plainMode host addr)
  | refused {addr : SocketAddr} {addrs : List SocketAddr} {lastErr : Option String} {r : Connect}
    {msg : String} : r.error addr = some msg →
    OpenMove d host (.dialing addr addrs lastErr) (.connect r) d (dial addrs (some msg))
  | insecure {addr : SocketAddr} {name e : String} :
    OpenMove d host (.securing addr name) (.tls (.error e)) d (.done (.error (.tlsError e)))
  | secured {addr : SocketAddr} {name : String} {alpn : Option Bytes} :
    OpenMove d host (.securing addr name) (.tls (.ok alpn)) d
      (.handshaking ⟨addr, some name, alpnProtocol alpn⟩)
  | failed {peer : Peer} {e : String} :
    OpenMove d host (.handshaking peer) (.handshake (.error e)) d
      (.done (.error (handshakeError e peer.protocol)))
  | opened {peer : Peer} :
    OpenMove d host (.handshaking peer) (.handshake (.ok ())) d (.done (.ok peer))

variable {serverName plainMode}

theorem Connect.error_eq_none {addr : SocketAddr} {r : Connect} (h : r.error addr = none) :
    r = .connected := by
  cases r with
  | connected => rfl
  | refused e | timedOut => cases h

/-- Every section of `open_connection` is one of the moves. -/
theorem openStep_cases {d d' : DnsState} {host : String} {o o' : Opening} {e : OpenEvent}
    (h : openStep serverName plainMode d host o e = some (d', o')) :
    OpenMove serverName plainMode d host o e d' o' := by
  cases o with
  | idle | done => cases h
  | resolving call =>
    obtain ⟨de, he, hmap⟩ := Option.bind_eq_some_iff.1 h
    obtain ⟨⟨d₁, call'⟩, hr, heq⟩ := Option.map_eq_some_iff.1 hmap
    obtain ⟨rfl, rfl⟩ := Prod.mk.inj heq
    exact .resolve he hr
  | dialing addr addrs lastErr =>
    cases e with
    | connect r =>
      simp only [openStep] at h
      split at h
      case h_1 hr =>
        obtain rfl := Connect.error_eq_none hr
        obtain ⟨rfl, rfl⟩ := Prod.mk.inj (Option.some.inj h)
        exact .connected
      case h_2 msg hr =>
        obtain ⟨rfl, rfl⟩ := Prod.mk.inj (Option.some.inj h)
        exact .refused hr
    | _ => cases h
  | securing addr name =>
    cases e with
    | tls r =>
      cases r <;> obtain ⟨rfl, rfl⟩ := Prod.mk.inj (Option.some.inj h)
      · exact .insecure
      · exact .secured
    | _ => cases h
  | handshaking peer =>
    cases e with
    | handshake r =>
      cases r <;> obtain ⟨rfl, rfl⟩ := Prod.mk.inj (Option.some.inj h)
      · exact .failed
      · exact .opened
    | _ => cases h

/-- In a plain pool a call speaks HTTP/1.1, without TLS. -/
def Opening.Plain : Opening → Prop
  | securing _ _ => False
  | handshaking peer | done (.ok peer) => peer.serverName = none ∧ peer.protocol = .http1
  | _ => True

theorem plain_dial (addrs : List SocketAddr) (lastErr : Option String) :
    (dial addrs lastErr).Plain := by
  cases addrs <;> trivial

theorem OpenMove.plain {d d' : DnsState} {host : String} {o o' : Opening} {e : OpenEvent}
    (hm : OpenMove serverName true d host o e d' o') (h : o.Plain) : o'.Plain := by
  cases hm with
  | @resolve _ call' _ _ _ _ _ =>
    cases call' with
    | done _ _ r =>
      cases r with
      | ok addrs => exact plain_dial addrs none
      | error e => trivial
    | _ => trivial
  | connected => exact ⟨rfl, rfl⟩
  | refused => exact plain_dial _ _
  | insecure | secured => exact h.elim
  | failed => trivial
  | opened => exact h

/-- The connects of a call, with the `k`-th and later ones ending as in `outcome`, are those of
`tcpConnect`. -/
theorem run_dial (outcome : ℕ → Connect) (d : DnsState) (host : String) :
    ∀ (addrs : List SocketAddr) (k : ℕ) (lastErr : Option String),
      run (fun (x : DnsState × Opening) e => openStep serverName plainMode x.1 host x.2 e)
        (d, dial addrs lastErr)
        ((List.range' k (tcpConnect outcome k addrs lastErr).1.length).map fun i =>
          .connect (outcome i)) =
      some (d, match (tcpConnect outcome k addrs lastErr).2 with
        | .ok addr => afterConnect serverName plainMode host addr
        | .error e => .done (.error e))
  | [], _, _ => rfl
  | addr :: addrs, k, lastErr => by
    have ih := fun msg => run_dial outcome d host addrs (k + 1) (some msg)
    have hstep : openStep serverName plainMode d host (dial (addr :: addrs) lastErr)
        (.connect (outcome k)) = match (outcome k).error addr with
          | none => some (d, afterConnect serverName plainMode host addr)
          | some msg => some (d, dial addrs (some msg)) := rfl
    cases hk : outcome k with
    | connected =>
      simp only [tcpConnect, hk, List.length_singleton, List.range'_one, List.map_cons,
        List.map_nil]
      exact run_singleton (by rw [← hk, hstep, hk]; rfl)
    | refused e | timedOut =>
      simp only [tcpConnect, hk, List.length_cons, List.range'_succ, List.map_cons]
      exact run_cons.2 ⟨_, by rw [← hk, hstep, hk]; rfl, ih _⟩

end Step

/-! ## The network -/

/-- The pool, the DNS cache it resolves with, and where its connections lead. -/
structure Net where
  pool : PoolState
  dns : DnsState
  peers : SenderId → Option Peer

/-- An attempt, with the `open_connection` call it is in. -/
structure NetClient where
  client : Client
  opening : Opening

/-- What an attempt waits for. -/
inductive NetEvent where
  | client (e : ClientEvent)
  | opening (e : OpenEvent)

/-- The call that an attempt starts where it opens a connection. -/
def Opening.start : Client → Opening
  | .opening key _ => .resolving (.resolving key.1 key.2)
  | _ => .idle

section Step

variable (connectionsPerHost : ℕ) (serverName : String → Except String String) (plainMode : Bool)

/-- The end of a call, up to the next await of its attempt. -/
def Net.settle (n : Net) (c : Client) (result : Except DownloadError Peer) :
    Option (Net × NetClient) :=
  (clientStep connectionsPerHost n.pool c (.connect (result.map Peer.protocol))).map fun q =>
    ({ n with
      pool := q.1
      peers := match result with
        | .ok peer => Function.update n.peers n.pool.nextSender (some peer)
        | .error _ => n.peers }, ⟨q.2, .idle⟩)

/-- The next section of an attempt. -/
def netStep (n : Net) (a : NetClient) : NetEvent → Option (Net × NetClient)
  | .client (.connect _) => none
  | .client e => (clientStep connectionsPerHost n.pool a.client e).map fun q =>
    ({ n with pool := q.1 }, ⟨q.2, Opening.start q.2⟩)
  | .opening e => match a.client with
    | .opening key _ => (openStep serverName plainMode n.dns key.1 a.opening e).bind fun r =>
      match r.2 with
      | .done result => Net.settle connectionsPerHost { n with dns := r.1 } a.client result
      | o => some ({ n with dns := r.1 }, ⟨a.client, o⟩)
    | _ => none

/-- What a section can do. -/
inductive NetMove (n : Net) : NetClient → NetEvent → Net → NetClient → Prop where
  | client {a : NetClient} {e : ClientEvent} {p' : PoolState} {c' : Client} :
    (∀ r, e ≠ .connect r) → clientStep connectionsPerHost n.pool a.client e = some (p', c') →
    NetMove n a (.client e) { n with pool := p' } ⟨c', Opening.start c'⟩
  | progress {key : HostKey} {isFirst : Bool} {o o' : Opening} {e : OpenEvent} {d' : DnsState} :
    OpenMove serverName plainMode n.dns key.1 o e d' o' → (∀ r, o' ≠ .done r) →
    NetMove n ⟨.opening key isFirst, o⟩ (.opening e) { n with dns := d' }
      ⟨.opening key isFirst, o'⟩
  | opened {key : HostKey} {isFirst : Bool} {o : Opening} {e : OpenEvent} {d' : DnsState}
    {peer : Peer} : OpenMove serverName plainMode n.dns key.1 o e d' (.done (.ok peer)) →
    NetMove n ⟨.opening key isFirst, o⟩ (.opening e)
      ⟨{ n.pool with nextSender := n.pool.nextSender + 1 }, d',
        Function.update n.peers n.pool.nextSender (some peer)⟩
      ⟨.opened key isFirst (openedConnection n.pool.nextSender peer.protocol), .idle⟩
  | failed {key : HostKey} {isFirst : Bool} {o : Opening} {e : OpenEvent} {d' : DnsState}
    {err : DownloadError} : OpenMove serverName plainMode n.dns key.1 o e d' (.done (.error err)) →
    NetMove n ⟨.opening key isFirst, o⟩ (.opening e) { n with dns := d' }
      ⟨.openFailed key isFirst err, .idle⟩

variable {connectionsPerHost serverName plainMode}

/-- Every section is one of the moves. -/
theorem netStep_cases {n n' : Net} {a a' : NetClient} {e : NetEvent}
    (h : netStep connectionsPerHost serverName plainMode n a e = some (n', a')) :
    NetMove connectionsPerHost serverName plainMode n a e n' a' := by
  cases e with
  | client e =>
    unfold netStep at h
    split at h
    case h_1 => cases h
    case h_2 e' hne heq =>
      obtain rfl := NetEvent.client.inj heq
      obtain ⟨⟨p', c'⟩, hs, heq⟩ := Option.map_eq_some_iff.1 h
      obtain ⟨rfl, rfl⟩ := Prod.mk.inj heq
      exact .client (fun r hr => hne r (by rw [hr])) hs
    case h_3 heq => cases heq
  | opening e =>
    obtain ⟨c, o⟩ := a
    cases c with
    | opening key isFirst =>
      obtain ⟨⟨d', o'⟩, hs, h⟩ := Option.bind_eq_some_iff.1 h
      have hm := openStep_cases hs
      cases o' with
      | done result =>
        cases result <;> obtain ⟨rfl, rfl⟩ := Prod.mk.inj (Option.some.inj h)
        · exact .failed hm
        · exact .opened hm
      | _ =>
        obtain ⟨rfl, rfl⟩ := Prod.mk.inj (Option.some.inj h)
        exact .progress hm (by rintro r ⟨⟩)
    | _ => cases h

end Step

namespace Net

variable {ι : Type*} [DecidableEq ι]

/-- The network and the attempts on it. -/
abbrev State (ι : Type*) := Par Net ι NetClient

/-- Any attempt takes its next section. -/
abbrev step (connectionsPerHost : ℕ) (serverName : String → Except String String)
    (plainMode : Bool) : State ι → ι × NetEvent → Option (State ι) :=
  Par.step (netStep connectionsPerHost serverName plainMode)

/-- An empty pool and an empty cache, no attempt yet. -/
def init (ttl : Duration) : State ι :=
  ⟨⟨PoolState.new, ⟨DnsCache.new ttl, 0, fun _ => none⟩, fun _ => none⟩, fun _ => ⟨.idle, .idle⟩⟩

/-- The pool of a network. -/
def poolOf (s : State ι) : Pool.State ι :=
  ⟨s.shared.pool, fun i => (s.locals i).client⟩

section Simulation

variable {connectionsPerHost : ℕ} {serverName : String → Except String String} {plainMode : Bool}
  {s s' : State ι}

/-- The pool of a network after a section of the attempt at `i`. -/
theorem poolOf_step {i : ι} {a : NetClient} (hl : s'.locals = Function.update s.locals i a) :
    (poolOf s').locals = Function.update (poolOf s).locals i a.client := by
  funext j
  rw [poolOf, hl]
  rcases eq_or_ne j i with rfl | hj
  · simp
  · simp [poolOf, Function.update_of_ne hj]

theorem poolOf_same {i : ι} {a : NetClient} (hp : s'.shared.pool = s.shared.pool)
    (hl : s'.locals = Function.update s.locals i a) (ha : a.client = (s.locals i).client) :
    poolOf s' = poolOf s := by
  have hloc := poolOf_step hl
  rw [ha, show (s.locals i).client = (poolOf s).locals i from rfl, Function.update_eq_self] at hloc
  exact congrArg₂ Par.mk hp hloc

/-- Every section of the network is one of the pool, or none. -/
theorem step_runs {i : ι} {e : NetEvent}
    (hs : step connectionsPerHost serverName plainMode s (i, e) = some s') :
    poolOf s' = poolOf s ∨
    (∃ ce, e = .client ce ∧ Pool.step connectionsPerHost (poolOf s) (i, ce) = some (poolOf s')) ∨
    ∃ oe key isFirst d' result, e = .opening oe ∧ (s.locals i).client = .opening key isFirst ∧
      OpenMove serverName plainMode s.shared.dns key.1 (s.locals i).opening oe d' (.done result) ∧
      Pool.step connectionsPerHost (poolOf s) (i, .connect (result.map Peer.protocol)) =
        some (poolOf s') := by
  obtain ⟨a, hp, hl⟩ := Par.step_eq_some.1 hs
  have hm := netStep_cases hp
  have hloc := poolOf_step hl
  generalize hn : s'.shared = n' at hm
  have hpool : (poolOf s').shared = n'.pool := congrArg Net.pool hn
  generalize ha : s.locals i = a₀ at hm
  have hcl : (poolOf s).locals i = a₀.client := congrArg NetClient.client ha
  cases hm with
  | client _ hstep =>
    refine Or.inr (Or.inl ⟨_, rfl, Par.step_eq_some.2 ⟨_, ?_, hloc⟩⟩)
    rw [hcl, hpool]
    exact hstep
  | progress =>
    refine Or.inl (poolOf_same ?_ hl (congrArg NetClient.client ha).symm)
    rw [hn]
  | @opened key isFirst _ _ _ peer hmove =>
    refine Or.inr (Or.inr ⟨_, key, isFirst, _, .ok peer, rfl, rfl, hmove, ?_⟩)
    refine Par.step_eq_some.2 ⟨_, ?_, hloc⟩
    rw [hcl, hpool]
    rfl
  | @failed key isFirst _ _ _ err hmove =>
    refine Or.inr (Or.inr ⟨_, key, isFirst, _, .error err, rfl, rfl, hmove, ?_⟩)
    refine Par.step_eq_some.2 ⟨_, ?_, hloc⟩
    rw [hcl, hpool]
    rfl

/-- In a plain pool every call in progress is plain. -/
def AllPlain (plainMode : Bool) (s : State ι) : Prop :=
  plainMode = true → ∀ i, (s.locals i).opening.Plain

theorem allPlain_init {ttl : Duration} : AllPlain plainMode (init ttl : State ι) :=
  fun _ _ => trivial

theorem allPlain_step {e : ι × NetEvent} (h : AllPlain plainMode s)
    (hs : step connectionsPerHost serverName plainMode s e = some s') : AllPlain plainMode s' := by
  rintro rfl j
  obtain ⟨i, e⟩ := e
  obtain ⟨a, hp, hl⟩ := Par.step_eq_some.1 hs
  rcases eq_or_ne j i with rfl | hj
  swap
  · rw [hl, Function.update_of_ne hj]
    exact h rfl j
  have hj := h rfl j
  rw [hl, Function.update_self]
  generalize s.locals j = a₀ at hp hj
  generalize s'.shared = n' at hp
  cases netStep_cases hp with
  | @client _ _ _ c' _ _ => cases c' <;> trivial
  | progress hm _ => exact hm.plain hj
  | opened | failed => trivial

/-- Every run of the network is a run of the pool in which an open is one step. It cancels an
attempt only where the network does, and a plain pool opens HTTP/1.1 connections alone. -/
theorem refines_pool {ttl : Duration} {es : List (ι × NetEvent)}
    (hr : run (step connectionsPerHost serverName plainMode) (init ttl) es = some s) :
    ∃ es', run (Pool.step connectionsPerHost) Pool.init es' = some (poolOf s) ∧
      Meets (Pool.step connectionsPerHost) (fun _ ce =>
        (ce.2 = .cancel → (ce.1, .client .cancel) ∈ es) ∧
        (plainMode = true → ce.2 ≠ .connect (.ok .http2))) Pool.init es' := by
  have hm : Meets (step connectionsPerHost serverName plainMode)
      (fun _ e => e ∈ es) (init ttl) es :=
    Meets.of_events (fun _ _ h => h) fun _ he => he
  refine run_simulates poolOf (fun _ _ _ h _ hs => allPlain_step h hs)
    (fun t e t' h hok hs => ?_) allPlain_init hm hr
  obtain ⟨i, e⟩ := e
  rcases step_runs hs with heq | ⟨ce, rfl, hstep⟩ |
    ⟨oe, key, isFirst, d', result, rfl, hc, hm, hstep⟩
  · exact ⟨[], by rw [heq]; rfl, trivial⟩
  · refine ⟨[(i, ce)], run_singleton hstep, .cons hstep ⟨fun hce => ?_, fun _ hce => ?_⟩ trivial⟩
    · obtain rfl : ce = .cancel := hce
      exact hok
    · obtain rfl : ce = .connect (.ok .http2) := hce
      obtain ⟨a, hp, -⟩ := Par.step_eq_some.1 hs
      cases hp
  · refine ⟨_, run_singleton hstep, .cons hstep ⟨fun hce => (nomatch hce), ?_⟩ trivial⟩
    rintro rfl hce
    have hplain := hm.plain (h rfl i)
    cases result with
    | error err => cases hce
    | ok peer =>
      have hproto : peer.protocol = .http2 := Except.ok.inj (ClientEvent.connect.inj hce)
      exact absurd (hplain.2.symm.trans hproto) (by decide)

/-- Two attempts of one host : the second address accepts the connection that the first attempt
opens, and the second attempt reuses it. -/
def dialRun : List (ℕ × NetEvent) :=
  [(0, .client (.start ("h", 443))), (0, .client (.decide (fun _ => .dead) fun _ => .dead)),
    (0, .opening (.check 0)),
    (0, .opening (.lookup (.ok [⟨"192.0.2.1", 443⟩, ⟨"192.0.2.2", 443⟩]))),
    (0, .opening (.store 1)), (0, .opening (.connect (.refused "connection refused"))),
    (0, .opening (.connect .connected)), (0, .opening (.tls (.ok (some [104, 50])))),
    (0, .opening (.handshake (.ok ()))), (0, .client .insert), (1, .client (.start ("h", 443))),
    (1, .client (.decide (fun _ => .ready) fun _ => .ready))]

/-- The second attempt is dropped once it has its connection. -/
theorem refines_pool_dialRun : ∃ s es',
    run (step 1 .ok false) (init (Duration.fromSecs 300)) (dialRun ++ [(1, .client .cancel)]) =
        some s ∧
      run (Pool.step 1) Pool.init es' = some (poolOf s) ∧
      Meets (Pool.step 1) (fun _ ce => ce.2 = .cancel →
        (ce.1, .client .cancel) ∈ dialRun ++ [(1, .client .cancel)]) Pool.init es' := by
  obtain ⟨s, hr⟩ : ∃ s, run (step 1 .ok false) (init (Duration.fromSecs 300))
      (dialRun ++ [(1, .client .cancel)]) = some s := ⟨_, rfl⟩
  obtain ⟨es', hr', hm⟩ := refines_pool hr
  exact ⟨s, es', hr, hr', hm.mono fun _ _ h => h.1⟩

end Simulation

end Net

end Imgdl
