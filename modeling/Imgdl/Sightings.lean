import Imgdl.Opening

/-!
# What an open sees

A `Sighting` is what an observer of the network sees : an open begins, or a lookup, a TCP connect,
a TLS or an HTTP handshake ends. The observer's log has them in order, each with the attempt it
belongs to.

What was seen of one open since it began, in order, explains where it is (`OpenMove.seen`) : the
answer for its host, which is its own lookup or a lookup logged before it began, then a connect to
one address of the answer after the other, then the handshakes. So it explains the connection that
was opened (`Opened`) or the error that the open failed with (`OpenFailure`).
-/

set_option linter.unusedSectionVars false

namespace Imgdl

open Transition Interleaving

/-- An open begins, or a lookup, a TCP connect or a handshake ends. -/
inductive Sighting where
  | resolve (host : String) (port : UInt16)
  | lookup (host : String) (port : UInt16) (r : Lookup)
  | connect (addr : SocketAddr) (r : Connect)
  | tls (addr : SocketAddr) (serverName : String) (r : Except String (Option Bytes))
  | handshake (peer : Peer) (r : Except String Unit)

/-- What is seen of a section of `open_connection`. -/
def Opening.sees : Opening → OpenEvent → List Sighting
  | resolving (.resolving host port), .check _ => [.resolve host port]
  | resolving (.lookup host port), .lookup r => [.lookup host port r]
  | dialing addr _ _, .connect r => [.connect addr r]
  | securing addr name, .tls r => [.tls addr name r]
  | handshaking peer, .handshake r => [.handshake peer r]
  | _, _ => []

section Seen

variable {ι : Type*} (serverName : String → Except String String) (plainMode : Bool)
  (before : List (ι × Sighting)) (key : HostKey)

/-- A lookup of the host gave this answer. -/
def LookedUp (L : List (ι × Sighting)) (host : String) (r : Lookup) : Prop :=
  ∃ i port, (i, .lookup host port r) ∈ L

/-- Every cached answer is one of a lookup. -/
def CacheSeen (L : List (ι × Sighting)) (d : DnsState) : Prop :=
  ∀ host entry, d.dns.cache host = some entry → LookedUp L host entry.result

/-- The host of the key was resolved : by a lookup, or by one before. -/
inductive Resolved : List Sighting → Lookup → Prop where
  | lookup (r : Lookup) : Resolved [.lookup key.1 key.2 r] r
  | cached {r : Lookup} : LookedUp before key.1 r → Resolved [] r

/-- Connects to the addresses failed, in their order, the last one with the given error. -/
inductive Tried : List Sighting → List SocketAddr → Option String → Prop where
  | none : Tried [] [] none
  | failed {own : List Sighting} {tried : List SocketAddr} {lastErr : Option String}
    {addr : SocketAddr} {r : Connect} {msg : String} : Tried own tried lastErr →
    r.error addr = some msg → Tried (own ++ [.connect addr r]) (tried ++ [addr]) (some msg)

/-- An address of the host accepted a connection, after those before it had failed. -/
inductive Reached : List Sighting → SocketAddr → Prop where
  | connected {own dials : List Sighting} {tried addrs : List SocketAddr} {addr : SocketAddr}
    {lastErr : Option String} : Resolved before key own (.ok (tried ++ addr :: addrs)) →
    Tried dials tried lastErr → Reached (own ++ dials ++ [.connect addr .connected]) addr

/-- A connection to an address of the host. Unless the pool is plain, a TLS handshake for the
host succeeded on it, and its ALPN answer is the protocol. -/
inductive LeadsTo : List Sighting → Peer → Prop where
  | plain {own : List Sighting} {addr : SocketAddr} : plainMode = true →
    Reached before key own addr → LeadsTo own ⟨addr, none, .http1⟩
  | secured {own : List Sighting} {addr : SocketAddr} {name : String} {alpn : Option Bytes} :
    plainMode = false → Reached before key own addr → serverName key.1 = .ok name →
    LeadsTo (own ++ [.tls addr name (.ok alpn)]) ⟨addr, some name, alpnProtocol alpn⟩

/-- The same, with the HTTP handshake. -/
inductive Opened : List Sighting → Peer → Prop where
  | handshake {own : List Sighting} {peer : Peer} :
    LeadsTo serverName plainMode before key own peer →
    Opened (own ++ [.handshake peer (.ok ())]) peer

/-- Why an open can fail. -/
inductive OpenFailure : List Sighting → DownloadError → Prop where
  | dns {own : List Sighting} {msg : String} : Resolved before key own (.error msg) →
    OpenFailure own (.dnsResolutionFailed msg)
  | unreachable {own dials : List Sighting} {addrs : List SocketAddr} {lastErr : Option String} :
    Resolved before key own (.ok addrs) → Tried dials addrs lastErr →
    OpenFailure (own ++ dials)
      (.connectionFailed (lastErr.getD "no addresses to connect to"))
  | badName {own : List Sighting} {addr : SocketAddr} {e : String} : plainMode = false →
    Reached before key own addr → serverName key.1 = .error e →
    OpenFailure own (.tlsError s!"invalid server name: {e}")
  | tls {own : List Sighting} {addr : SocketAddr} {name e : String} : plainMode = false →
    Reached before key own addr → serverName key.1 = .ok name →
    OpenFailure (own ++ [.tls addr name (.error e)]) (.tlsError e)
  | handshake {own : List Sighting} {peer : Peer} {e : String} :
    LeadsTo serverName plainMode before key own peer →
    OpenFailure (own ++ [.handshake peer (.error e)]) (handshakeError e peer.protocol)

/-- What was seen of an open since it began is where it is. -/
def Opening.Seen (own : List Sighting) : Opening → Prop
  | resolving (.lookup host port) => (host, port) = key ∧ own = []
  | resolving (.store host port r) => (host, port) = key ∧ own = [.lookup host port r]
  | dialing addr addrs lastErr => ∃ answer dials tried,
    Resolved before key answer (.ok (tried ++ addr :: addrs)) ∧ Tried dials tried lastErr ∧
      own = answer ++ dials
  | securing addr name => plainMode = false ∧ serverName key.1 = .ok name ∧
    Reached before key own addr
  | handshaking peer => LeadsTo serverName plainMode before key own peer
  | done (.ok peer) => Opened serverName plainMode before key own peer
  | done (.error e) => OpenFailure serverName plainMode before key own e
  | _ => False

variable {serverName plainMode before key} {L : List (ι × Sighting)} {own : List Sighting}

theorem LookedUp.mono {L' : List (ι × Sighting)} {host : String} {r : Lookup}
    (h : LookedUp L host r) (hsub : L ⊆ L') : LookedUp L' host r := by
  obtain ⟨i, port, hmem⟩ := h
  exact ⟨i, port, hsub hmem⟩

theorem CacheSeen.mono {L' : List (ι × Sighting)} {d : DnsState} (h : CacheSeen L d)
    (hsub : L ⊆ L') : CacheSeen L' d :=
  fun host entry he => (h host entry he).mono hsub

/-- On to the next address. -/
theorem seen_dial {answer dials : List Sighting} (tried : List SocketAddr)
    {addrs : List SocketAddr} {lastErr : Option String}
    (hr : Resolved before key answer (.ok (tried ++ addrs)))
    (ht : Tried dials tried lastErr) :
    (dial addrs lastErr).Seen serverName plainMode before key (answer ++ dials) := by
  cases addrs with
  | nil =>
    rw [List.append_nil] at hr
    exact .unreachable hr ht
  | cons addr addrs => exact ⟨answer, dials, tried, hr, ht, rfl⟩

theorem seen_afterResolve {host : String} {port : UInt16} {r : Lookup}
    (hr : Resolved before key own r) :
    (afterResolve (.done host port (DnsCache.answer r))).Seen serverName plainMode before key
      own := by
  cases r with
  | ok addrs =>
    rw [← List.append_nil own]
    exact seen_dial [] hr .none
  | error msg => exact OpenFailure.dns hr

theorem seen_afterConnect {addr : SocketAddr} (ha : Reached before key own addr) :
    (afterConnect serverName plainMode key.1 addr).Seen serverName plainMode before key own := by
  unfold afterConnect
  split_ifs with hp
  · exact .plain hp ha
  · have hplain : plainMode = false := by simpa using hp
    split
    case h_1 e he => exact .badName hplain ha he
    case h_2 name hname => exact ⟨hplain, hname, ha⟩

/-- What a section of the `resolve` call inside is. -/
theorem openResolve_cases {d d' : DnsState} {call call' : Call} {e : OpenEvent} {de : DnsEvent}
    (he : e.dns = some de) (hs : resolveStep d call de = some (d', call')) :
    (∃ host port now r, call = .resolving host port ∧ e = .check now ∧
      d.dns.check host now = some r ∧ d' = { d with now := now } ∧
      call' = .done host port (DnsCache.answer r)) ∨
    (∃ host port now, call = .resolving host port ∧ e = .check now ∧ d' = { d with now := now } ∧
      call' = .lookup host port) ∨
    (∃ host port r, call = .lookup host port ∧ e = .lookup r ∧ d' = d ∧
      call' = .store host port r) ∨
    ∃ host port r now, call = .store host port r ∧ e = .store now ∧
      d' = ⟨d.dns.store host r now, now, Function.update d.filledBy host (some port)⟩ ∧
      call' = .done host port (DnsCache.answer r) := by
  rcases resolveStep_cases hs with ⟨_, _, rfl, -⟩ |
    ⟨host, port, now, r, hcall, rfl, hc, hd, hcall'⟩ |
    ⟨host, port, now, hcall, rfl, -, hd, hcall'⟩ | ⟨host, port, r, hcall, rfl, hd, hcall'⟩ |
    ⟨host, port, r, now, hcall, rfl, hd, hcall'⟩ | ⟨rfl, -⟩
  · cases e <;> cases he
  · have hcheck : e = .check now := by cases e <;> cases he; rfl
    exact Or.inl ⟨host, port, now, r, hcall, hcheck, hc, hd, hcall'⟩
  · have hcheck : e = .check now := by cases e <;> cases he; rfl
    exact Or.inr (Or.inl ⟨host, port, now, hcall, hcheck, hd, hcall'⟩)
  · have hlookup : e = .lookup r := by cases e <;> cases he; rfl
    exact Or.inr (Or.inr (Or.inl ⟨host, port, r, hcall, hlookup, hd, hcall'⟩))
  · have hstore : e = .store now := by cases e <;> cases he; rfl
    exact Or.inr (Or.inr (Or.inr ⟨host, port, r, now, hcall, hstore, hd, hcall'⟩))
  · cases e <;> cases he

/-- The section in which an open begins. -/
theorem OpenMove.begins {d d' : DnsState} {o' : Opening} {e : OpenEvent} (hd : CacheSeen before d)
    (hm : OpenMove serverName plainMode d key.1 (.resolving (.resolving key.1 key.2)) e d' o') :
    (Opening.resolving (.resolving key.1 key.2)).sees e = [.resolve key.1 key.2] ∧
      CacheSeen before d' ∧ o'.Seen serverName plainMode before key [] := by
  cases hm with
  | resolve he hs =>
    rcases openResolve_cases he hs with ⟨host, port, now, r, hcall, rfl, hc, rfl, rfl⟩ |
      ⟨host, port, now, hcall, rfl, rfl, rfl⟩ | ⟨_, _, _, hcall, -⟩ | ⟨_, _, _, _, hcall, -⟩
    · obtain ⟨rfl, rfl⟩ := Call.resolving.inj hcall
      obtain ⟨entry, hentry, -, rfl⟩ := DnsCache.check_eq_some.1 hc
      exact ⟨rfl, hd, seen_afterResolve (.cached (hd _ entry hentry))⟩
    · obtain ⟨rfl, rfl⟩ := Call.resolving.inj hcall
      exact ⟨rfl, hd, rfl, rfl⟩
    · cases hcall
    · cases hcall

/-- A section of an open keeps to what was seen of it. -/
theorem OpenMove.seen {d d' : DnsState} {o o' : Opening} {e : OpenEvent}
    (ho : o.Seen serverName plainMode before key own)
    (hm : OpenMove serverName plainMode d key.1 o e d' o') :
    o'.Seen serverName plainMode before key (own ++ o.sees e) := by
  cases hm with
  | resolve he hs =>
    rcases openResolve_cases he hs with ⟨_, _, _, _, rfl, -⟩ | ⟨_, _, _, rfl, -⟩ |
      ⟨host, port, r, rfl, rfl, rfl, rfl⟩ | ⟨host, port, r, now, rfl, rfl, rfl, rfl⟩
    · exact ho.elim
    · exact ho.elim
    · obtain ⟨hkey, rfl⟩ := ho
      exact ⟨hkey, rfl⟩
    · obtain ⟨rfl, rfl⟩ := ho
      exact seen_afterResolve (.lookup r)
  | connected =>
    obtain ⟨answer, dials, tried, hr, ht, rfl⟩ := ho
    exact seen_afterConnect (.connected hr ht)
  | @refused addr addrs lastErr r msg hmsg =>
    obtain ⟨answer, dials, tried, hr, ht, rfl⟩ := ho
    rw [List.append_cons] at hr
    change (dial addrs (some msg)).Seen serverName plainMode before key
      (answer ++ dials ++ [.connect addr r])
    rw [List.append_assoc]
    exact seen_dial (tried ++ [addr]) hr (.failed ht hmsg)
  | insecure =>
    obtain ⟨hp, hname, ha⟩ := ho
    exact .tls hp ha hname
  | secured =>
    obtain ⟨hp, hname, ha⟩ := ho
    exact .secured hp ha hname
  | failed => exact .handshake ho
  | opened => exact .handshake ho

/-- A section of an open caches an answer it saw. -/
theorem OpenMove.cached {d d' : DnsState} {o o' : Opening} {e : OpenEvent} (hd : CacheSeen L d)
    (hlog : ∀ x ∈ own, ∃ i, (i, x) ∈ L) (ho : o.Seen serverName plainMode before key own)
    (hm : OpenMove serverName plainMode d key.1 o e d' o') : CacheSeen L d' := by
  cases hm with
  | resolve he hs =>
    rcases openResolve_cases he hs with ⟨_, _, _, _, rfl, -⟩ | ⟨_, _, _, rfl, -⟩ |
      ⟨_, _, _, -, -, rfl, -⟩ | ⟨host, port, r, now, rfl, -, rfl, -⟩
    · exact ho.elim
    · exact ho.elim
    · exact hd
    · obtain ⟨-, rfl⟩ := ho
      obtain ⟨i, hmem⟩ := hlog _ (List.mem_singleton_self _)
      intro host' entry hentry
      rcases eq_or_ne host' host with rfl | hne
      · simp only [DnsCache.store, Function.update_self, Option.some.injEq] at hentry
        exact ⟨i, port, hentry ▸ hmem⟩
      · simp only [DnsCache.store, Function.update_of_ne hne] at hentry
        exact hd host' entry hentry
  | _ => exact hd

end Seen

end Imgdl
