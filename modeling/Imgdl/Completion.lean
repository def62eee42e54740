import Imgdl.System
import Imgdl.Termination
import Mathlib.Data.Prod.Lex

/-!
# Every call of the system returns

How many addresses an `open_connection` call tries is up to the lookup, so no number bounds the
steps of a `download_batch` call on the network. `System.rank` is its potential in the
lexicographic order : what is left of the call with its opens in one step (`callRank`), then what
is left of the `resolve` calls of its tasks, then of their connects and handshakes. Every step of
the call and of its opens lowers it, and no step of another call raises it (`rank_step`), so in
an infinite run every call takes finitely many steps (`steps_finite`).

An open in progress has a next section (`exists_openStep`), and a call that waits for the end of
one is in an open in progress (`AllLive`). So until a call has returned it has a step, and can be
led to its return (`call_completes`).
-/

set_option linter.unusedSectionVars false

namespace Imgdl

open Transition Interleaving

/-! ## One open -/

/-- What is left of the `resolve` call of an open. -/
def Opening.lookups : Opening → ℕ
  | resolving (.resolving _ _) => 3
  | resolving (.lookup _ _) => 2
  | resolving (.store _ _ _) => 1
  | _ => 0

/-- What is left of an open once its host is resolved. -/
def Opening.connects : Opening → ℕ
  | dialing _ addrs _ => addrs.length + 3
  | securing _ _ => 2
  | handshaking _ => 1
  | _ => 0

/-- An open in progress. -/
def Opening.Live : Opening → Prop
  | resolving (.resolving _ _) | resolving (.lookup _ _) | resolving (.store _ _ _) => True
  | dialing _ _ _ | securing _ _ | handshaking _ => True
  | _ => False

section Sections

variable {serverName : String → Except String String} {plainMode : Bool} {d d' : DnsState}
  {host : String} {o o' : Opening} {e : OpenEvent}

/-- Addresses to try, or the end of the open. -/
theorem dial_cases (addrs : List SocketAddr) (lastErr : Option String) :
    (∃ r, dial addrs lastErr = .done r) ∨ ((dial addrs lastErr).Live ∧
      (dial addrs lastErr).lookups = 0 ∧ (dial addrs lastErr).connects < addrs.length + 3) := by
  cases addrs with
  | nil => exact Or.inl ⟨_, rfl⟩
  | cons addr addrs => exact Or.inr ⟨trivial, rfl, by simp [dial, Opening.connects]⟩

theorem afterResolve_done (host : String) (port : UInt16)
    (r : Except DownloadError (List SocketAddr)) :
    (∃ r', afterResolve (.done host port r) = .done r') ∨
      ((afterResolve (.done host port r)).Live ∧
        (afterResolve (.done host port r)).lookups = 0) := by
  cases r with
  | error e => exact Or.inl ⟨_, rfl⟩
  | ok addrs =>
    rcases dial_cases addrs none with h | ⟨hlive, hzero, -⟩
    · exact Or.inl h
    · exact Or.inr ⟨hlive, hzero⟩

/-- Every section ends the open, or leaves it in progress with less to do : with less of the
`resolve` call, or with as much of it and less after it. -/
theorem OpenMove.progress (hm : OpenMove serverName plainMode d host o e d' o') :
    (∃ r, o' = .done r) ∨ (o'.Live ∧ (o'.lookups < o.lookups ∨
      (o'.lookups = o.lookups ∧ o'.connects < o.connects))) := by
  cases hm with
  | @resolve call call' e de d' he hs =>
    rcases resolveStep_cases hs with ⟨host, port, rfl, -, -⟩ |
      ⟨host, port, now, r, rfl, -, -, -, rfl⟩ | ⟨host, port, now, rfl, -, -, -, rfl⟩ |
      ⟨host, port, r, rfl, -, -, rfl⟩ | ⟨host, port, r, now, rfl, -, -, rfl⟩ | ⟨rfl, -, -⟩
    · cases e <;> cases he
    · rcases afterResolve_done host port (DnsCache.answer r) with h | ⟨hlive, hzero⟩
      · exact Or.inl h
      · exact Or.inr ⟨hlive, Or.inl (by rw [hzero]; exact Nat.zero_lt_succ _)⟩
    · exact Or.inr ⟨trivial, Or.inl (Nat.lt_succ_self 2)⟩
    · exact Or.inr ⟨trivial, Or.inl (Nat.lt_succ_self 1)⟩
    · rcases afterResolve_done host port (DnsCache.answer r) with h | ⟨hlive, hzero⟩
      · exact Or.inl h
      · exact Or.inr ⟨hlive, Or.inl (by rw [hzero]; exact Nat.zero_lt_one)⟩
    · cases e <;> cases he
  | @connected addr addrs lastErr =>
    unfold afterConnect
    split_ifs
    · exact Or.inr ⟨trivial, Or.inr ⟨rfl, by simp [Opening.connects]⟩⟩
    · split
      · exact Or.inl ⟨_, rfl⟩
      · exact Or.inr ⟨trivial, Or.inr ⟨rfl, by simp [Opening.connects]⟩⟩
  | @refused addr addrs lastErr r msg hr =>
    rcases dial_cases addrs (some msg) with h | ⟨hlive, hzero, hlt⟩
    · exact Or.inl h
    · exact Or.inr ⟨hlive, Or.inr ⟨hzero, hlt⟩⟩
  | insecure | failed | opened => exact Or.inl ⟨_, rfl⟩
  | secured => exact Or.inr ⟨trivial, Or.inr ⟨rfl, Nat.lt_succ_self 1⟩⟩

/-- An open in progress has a next section. -/
theorem exists_openStep (serverName : String → Except String String) (plainMode : Bool)
    (d : DnsState) (host : String) (h : o.Live) :
    ∃ e, (openStep serverName plainMode d host o e).isSome = true := by
  cases o with
  | idle | done => exact h.elim
  | resolving call =>
    cases call with
    | resolving host' port =>
      refine ⟨.check d.now, ?_⟩
      simp only [openStep, OpenEvent.dns, Option.bind_some, Option.isSome_map, resolveStep,
        le_refl, if_true]
      split <;> rfl
    | lookup host' port => exact ⟨.lookup (.error ""), rfl⟩
    | store host' port r =>
      refine ⟨.store d.now, ?_⟩
      simp only [openStep, OpenEvent.dns, Option.bind_some, Option.isSome_map, resolveStep,
        le_refl, if_true, Option.isSome_some]
    | idle | done => exact h.elim
  | dialing addr addrs lastErr => exact ⟨.connect .connected, rfl⟩
  | securing addr name => exact ⟨.tls (.ok none), rfl⟩
  | handshaking peer => exact ⟨.handshake (.ok ()), rfl⟩

end Sections

namespace Net

variable {ι : Type*} [DecidableEq ι] {connectionsPerHost : ℕ}
  {serverName : String → Except String String} {plainMode : Bool} {s s' : State ι}

/-- An attempt that opens a connection is in an open in progress. -/
def AllLive (s : State ι) : Prop :=
  ∀ i key isFirst, (s.locals i).client = .opening key isFirst → (s.locals i).opening.Live

theorem allLive_step {e : ι × NetEvent} (h : AllLive s)
    (hs : step connectionsPerHost serverName plainMode s e = some s') : AllLive s' := by
  obtain ⟨i, e⟩ := e
  obtain ⟨a, hp, hl⟩ := Par.step_eq_some.1 hs
  intro j key isFirst hc
  rw [hl] at hc ⊢
  rcases eq_or_ne j i with rfl | hj
  swap
  · rw [Function.update_of_ne hj] at hc ⊢
    exact h j key isFirst hc
  rw [Function.update_self] at hc ⊢
  generalize s.locals j = a₀ at hp
  generalize s'.shared = n' at hp
  cases netStep_cases hp with
  | client =>
    obtain rfl := hc
    trivial
  | progress hm hne =>
    rcases hm.progress with ⟨r, hr⟩ | ⟨hlive, -⟩
    · exact absurd hr (hne r)
    · exact hlive
  | opened | failed => cases hc

end Net

/-! ## One call -/

section Tasks

variable {env : Env} {config : Config} {p p' : PoolState} {sc sc' : Scope} {t t' : Task}

/-- A task that opens a connection goes on from the end of the open, whichever it is. -/
theorem exists_taskStep_connect {key : HostKey} {isFirst : Bool}
    (h : t.stage.client = .opening key isFirst) (r : Except DownloadError NegotiatedProtocol) :
    (taskStep env config p sc t (.pool (.connect r))).isSome = true := by
  cases hst : t.stage with
  | working home sem work =>
    cases work with
    | attempt leg n c =>
      obtain rfl : c = .opening key isFirst := by rwa [hst] at h
      simp only [taskStep, hst]
      cases r <;> rfl
    | _ => rw [hst] at h; cases h
  | _ => rw [hst] at h; cases h

/-- Only the task that opens a connection waits for the end of an open. -/
theorem TaskMove.connects {r : Except DownloadError NegotiatedProtocol}
    (hm : TaskMove env config p sc t (.pool (.connect r)) p' sc' t') :
    ∃ key isFirst, t.stage.client = .opening key isFirst := by
  have hs := hm.connected
  cases hc : t.stage.client with
  | opening key isFirst => exact ⟨key, isFirst, rfl⟩
  | _ => rw [hc] at hs; cases r <;> cases hs

end Tasks

namespace Downloader

variable {env : Env} {config : Config} {s s' : State} {k j : ℕ}

theorem task_of_clientOf {key : HostKey} {isFirst : Bool}
    (h : clientOf s (k, j) = .opening key isFirst) :
    ∃ b t, s.locals k = some b ∧ b.tasks j = some t ∧ t.stage.client = .opening key isFirst := by
  cases hb : s.locals k with
  | none => simp [clientOf, taskClient, hb] at h
  | some b =>
    cases ht : b.tasks j with
    | none => simp [clientOf, taskClient, hb, ht] at h
    | some t => exact ⟨b, t, rfl, ht, (clientOf_eq hb ht).symm.trans h⟩

theorem exists_connect {key : HostKey} {isFirst : Bool}
    (h : clientOf s (k, j) = .opening key isFirst)
    (r : Except DownloadError NegotiatedProtocol) :
    ∃ s', step env config s (k, .batch (.task j (.pool (.connect r)))) = some s' := by
  obtain ⟨b, t, hb, ht, hc⟩ := task_of_clientOf h
  have htask : (taskStep env config s.shared b.scope t (.pool (.connect r))).isSome = true :=
    exists_taskStep_connect hc r
  obtain ⟨r', hr'⟩ := Option.isSome_iff_exists.1 htask
  have hbatch : (batchStep env config s.shared b (.task j (.pool (.connect r)))).isSome = true := by
    cases hph : b.phase <;>
      simp only [batchStep, ht, hph, hr', Option.map_some, Option.isSome_some]
  obtain ⟨b', hb'⟩ := Option.isSome_iff_exists.1 hbatch
  refine ⟨⟨b'.1, Function.update s.locals k (some b'.2)⟩, Par.step_eq_some.2 ⟨_, ?_, rfl⟩⟩
  rw [hb, callStep, hb']
  rfl

/-- A call that takes a step has started. -/
theorem exists_call {e : DownloaderEvent} (hs : step env config s (k, e) = some s') :
    ∃ b, s'.locals k = some b := by
  obtain ⟨o, hp, hl⟩ := Par.step_eq_some.1 hs
  cases hb : s.locals k with
  | some b =>
    obtain ⟨-, b', -, hb', -⟩ := step_some hs hb
    exact ⟨b', hb'⟩
  | none =>
    rw [hb] at hp
    cases e with
    | batch => cases hp
    | call =>
      obtain ⟨-, rfl⟩ := Prod.mk.inj (Option.some.inj hp)
      exact ⟨_, by rw [hl, Function.update_self]⟩

end Downloader

/-! ## Runs -/

/-- The call that takes the step, itself or by an open of its tasks. -/
def SystemEvent.call : SystemEvent → ℕ
  | downloader k _ => k
  | opening k _ _ => k

/-- The event ends a task where it is, or is a deadline. -/
def SystemEvent.stops : SystemEvent → Bool
  | downloader _ e => e.stops
  | opening _ _ _ => false

namespace System

variable {env : Env} {config : Config} {serverName : String → Except String String}
  {plainMode : Bool} {y y' : System} {k : ℕ} {b : Batch}

theorem reaches_downloader {ttl : Duration}
    (h : Reaches (step env config serverName plainMode) (init ttl) y) :
    Reaches (Downloader.step env config) Downloader.init y.downloader :=
  h.invariant (I := fun y => Reaches (Downloader.step env config) Downloader.init y.downloader)
    (fun _ _ _ hr hs => by
      obtain ⟨es, hrun, -⟩ := step_downloader hs
      exact hr.trans ⟨es, hrun⟩) (.refl _)

theorem allLive_of_reaches {ttl : Duration}
    (h : Reaches (step env config serverName plainMode) (init ttl) y) : Net.AllLive (netOf y) :=
  h.invariant (I := fun y => Net.AllLive (netOf y)) (fun _ _ _ hl hs => by
    obtain ⟨es, hrun, -⟩ := step_net [] hs
    exact Reaches.invariant (fun _ _ _ hl hs => Net.allLive_step hl hs) hl ⟨es, hrun⟩)
    fun _ _ _ hc => by cases hc

/-- The opens of the tasks of the call `k`. -/
def opens (y : System) (k j : ℕ) : Opening :=
  y.openings (k, j)

/-- How many tasks the call `k` has. -/
def tasks (y : System) (k : ℕ) : ℕ :=
  (y.downloader.locals k).elim 0 fun b => (dedup b.urls).length

/-- What is left of the call `k`, of its lookups, and of its connects. -/
def rank (config : Config) (k : ℕ) (y : System) : ℕ ×ₗ ℕ ×ₗ ℕ :=
  toLex (Downloader.callRank config k y.downloader,
    toLex (total Opening.lookups (y.opens k) (y.tasks k),
      total Opening.connects (y.opens k) (y.tasks k)))

theorem rank_lt_of_call (h : Downloader.callRank config k y'.downloader <
    Downloader.callRank config k y.downloader) : rank config k y' < rank config k y :=
  Prod.Lex.toLex_lt_toLex.2 (Or.inl h)

theorem opens_update {k' j : ℕ} {o : Opening}
    (h : y'.openings = Function.update y.openings (k', j) o) :
    y'.opens k = if k = k' then Function.update (y.opens k) j o else y.opens k := by
  funext i
  rw [opens, h]
  split_ifs with hk
  · subst hk
    rcases eq_or_ne i j with rfl | hi
    · simp only [Function.update_self]
    · rw [Function.update_of_ne hi, Function.update_of_ne (by simpa using hi)]
      rfl
  · exact Function.update_of_ne (by simp [hk]) _ _

/-- Steps of another call leave the opens of a call alone. -/
theorem opens_step {e : SystemEvent} (hne : e.call ≠ k)
    (hs : step env config serverName plainMode y e = some y') : y'.opens k = y.opens k := by
  have other : ∀ {j : ℕ} {o : Opening},
      y'.openings = Function.update y.openings (e.call, j) o → y'.opens k = y.opens k :=
    fun h => (opens_update h).trans (if_neg hne.symm)
  cases step_cases hs with
  | @downloader k' de d _ _ =>
    cases de with
    | call => rfl
    | batch be =>
      cases be with
      | task j te =>
        by_cases hte : te.stepsClient = true
        · exact other (by simp only [reopen, hte, if_true]; rfl)
        · funext i
          simp only [opens, reopen, hte, Bool.false_eq_true, if_false]
      | _ => rfl
  | progress => exact other rfl
  | settled _ _ hsettle =>
    obtain ⟨d, -, rfl⟩ := Option.map_eq_some_iff.1 hsettle
    exact other rfl

/-- Every step of a call and of its opens lowers what is left of it, and no other raises it. -/
theorem rank_step {ttl : Duration} {e : SystemEvent}
    (h : Reaches (step env config serverName plainMode) (init ttl) y)
    (hb : y.downloader.locals k = some b)
    (hs : step env config serverName plainMode y e = some y') :
    (∃ b', y'.downloader.locals k = some b') ∧ rank config k y' ≤ rank config k y ∧
      (e.call = k → rank config k y' < rank config k y) := by
  have hreach := reaches_downloader h
  -- a step of the downloader
  have moved : ∀ {de : DownloaderEvent}, Downloader.step env config y.downloader (e.call, de) =
      some y'.downloader → (∃ b', y'.downloader.locals k = some b') ∧
        rank config k y' ≤ rank config k y ∧ (e.call = k → rank config k y' < rank config k y) := by
    intro de hd
    obtain ⟨⟨b', hb', hurls⟩, hle⟩ := Downloader.callRank_step hreach hb hd
    refine ⟨⟨b', hb'⟩, ?_⟩
    by_cases hk : e.call = k
    · rw [if_pos hk] at hle
      have hlt : rank config k y' < rank config k y := rank_lt_of_call (by omega)
      exact ⟨hlt.le, fun _ => hlt⟩
    · rw [if_neg hk, Nat.zero_add] at hle
      refine ⟨?_, fun he => absurd he hk⟩
      have htasks : y'.tasks k = y.tasks k := by simp only [tasks, hb, hb', Option.elim_some, hurls]
      refine Prod.Lex.toLex_le_toLex.2 (hle.lt_or_eq.imp_right fun heq => ⟨heq, ?_⟩)
      rw [opens_step hk hs, htasks]
  cases step_cases hs with
  | downloader _ hd => exact moved hd
  | settled _ _ hsettle => exact moved (settle_net hsettle).1
  | @progress k' j key isFirst e d' o hc ho hne =>
    refine ⟨⟨b, hb⟩, ?_⟩
    by_cases hk : k' = k
    swap
    · have hsame : rank config k { y with
          dns := d', openings := Function.update y.openings (k', j) o } = rank config k y := by
        rw [rank, opens_step (e := .opening k' j e) hk hs]
        rfl
      exact ⟨hsame.le, fun he => absurd he hk⟩
    subst hk
    have hlt : rank config k' { y with
        dns := d', openings := Function.update y.openings (k', j) o } < rank config k' y := by
      have hj : j < y.tasks k' := by
        obtain ⟨b, t, hb, ht, -⟩ := Downloader.task_of_clientOf hc
        rw [tasks, hb]
        exact (Downloader.steady_of_reaches hreach hb).1.collected.lt_length ht
      have hopens : opens { y with
          dns := d', openings := Function.update y.openings (k', j) o } k' =
          Function.update (y.opens k') j o := (opens_update rfl).trans (if_pos rfl)
      have hlookups := total_update (w := Opening.lookups) (f := y.opens k') hj o
      have hconnects := total_update (w := Opening.connects) (f := y.opens k') hj o
      refine Prod.Lex.toLex_lt_toLex.2 (Or.inr ⟨rfl, Prod.Lex.toLex_lt_toLex.2 ?_⟩)
      rw [hopens]
      change total _ _ (y.tasks k') < _ ∨ total _ _ (y.tasks k') = _ ∧ total _ _ (y.tasks k') < _
      rcases (openStep_cases ho).progress with ⟨r, hr⟩ | ⟨-, hless | ⟨hsame, hless⟩⟩
      · exact absurd hr (hne r)
      · change o.lookups < (y.opens k' j).lookups at hless
        exact Or.inl (by omega)
      · change o.lookups = (y.opens k' j).lookups at hsame
        change o.connects < (y.opens k' j).connects at hless
        exact Or.inr ⟨by omega, by omega⟩
    exact ⟨hlt.le, fun _ => hlt⟩

/-- A call that takes a step has started. -/
theorem exists_call {e : SystemEvent} (hs : step env config serverName plainMode y e = some y') :
    ∃ b, y'.downloader.locals e.call = some b := by
  cases step_cases hs with
  | downloader _ hd => exact Downloader.exists_call hd
  | settled _ _ hsettle => exact Downloader.exists_call (settle_net hsettle).1
  | progress hc =>
    obtain ⟨b, -, hb, -⟩ := Downloader.task_of_clientOf hc
    exact ⟨b, hb⟩

/-- A step of the call `k` or of one of its opens that is no panic, no cancellation and no deadline,
and in which no task is cancelled, and none panics but for the name of its image. -/
def LeadsOn (env : Env) (config : Config) (serverName : String → Except String String)
    (plainMode : Bool) (k : ℕ) (y : System) (e : SystemEvent) : Prop :=
  e.call = k ∧ e.stops = false ∧ ∀ y', step env config serverName plainMode y e = some y' →
    Downloader.Undisturbed env config k y.downloader y'.downloader

/-- The sections of an open disturb no task. -/
theorem undisturbed_opening {j : ℕ} {e : OpenEvent}
    (hs : step env config serverName plainMode y (.opening k j e) = some y') :
    Downloader.Undisturbed env config k y.downloader y'.downloader := by
  cases step_cases hs with
  | progress => exact Downloader.undisturbed_of_same fun _ => rfl
  | settled hc _ hsettle =>
    obtain ⟨b, t, hb, -⟩ := Downloader.task_of_clientOf hc
    refine Downloader.undisturbed_of_gentle hb ⟨rfl, fun i te u he _ => ?_⟩ (settle_net hsettle).1
    obtain ⟨-, rfl⟩ := BatchEvent.task.inj he
    exact TaskEvent.gentle_of_stops rfl (by simp)

/-- A call that has not returned has a step, of its own or of one of its opens, that disturbs no
task. -/
theorem exists_step {ttl : Duration}
    (h : Reaches (step env config serverName plainMode) (init ttl) y)
    (hb : y.downloader.locals k = some b) (hg : 1 ≤ config.maxConcurrentGlobal)
    (hh : 1 ≤ config.maxConcurrentPerHost) (hret : ∀ results, b.phase ≠ .returned results) :
    ∃ e y', LeadsOn env config serverName plainMode k y e ∧
      step env config serverName plainMode y e = some y' := by
  obtain ⟨de, d, hstops, hd, hund⟩ :=
    Downloader.exists_callStep (reaches_downloader h) hb hg hh hret
  by_cases hc : de.connects = true
  swap
  · have hs : step env config serverName plainMode y (.downloader k de) =
        some { y with downloader := d, openings := y.reopen d k de } := by
      simp only [step, if_neg hc, hd, Option.map_some]
    refine ⟨.downloader k de, _, ⟨rfl, hstops, fun y' hy' => ?_⟩, hs⟩
    obtain rfl := Option.some.inj (hs.symm.trans hy')
    exact hund
  -- the call waits for the end of an open, which goes on instead
  obtain ⟨j, r, rfl⟩ : ∃ j r, de = .batch (.task j (.pool (.connect r))) := by
    unfold DownloaderEvent.connects at hc
    split at hc
    · exact ⟨_, _, rfl⟩
    · cases hc
  obtain ⟨b, t, t', sc', hb, ht, hm, -⟩ := Downloader.step_task hd
  obtain ⟨key, isFirst, hclient⟩ := hm.connects
  rw [← Downloader.clientOf_eq hb ht] at hclient
  obtain ⟨oe, hoe⟩ := exists_openStep serverName plainMode y.dns key.1
    (allLive_of_reaches h (k, j) key isFirst hclient)
  obtain ⟨⟨d', o⟩, ho⟩ := Option.isSome_iff_exists.1 hoe
  have hstep : ∃ y', step env config serverName plainMode y (.opening k j oe) = some y' := by
    simp only [step, hclient]
    change openStep serverName plainMode y.dns key.1 (y.openings (k, j)) oe = _ at ho
    rw [ho]
    cases o with
    | done result =>
      obtain ⟨d, hd⟩ := Downloader.exists_connect hclient (result.map Peer.protocol)
      exact ⟨_, Option.map_eq_some_iff.2 ⟨d, hd, rfl⟩⟩
    | _ => exact ⟨_, rfl⟩
  obtain ⟨y', hy'⟩ := hstep
  exact ⟨.opening k j oe, y', ⟨rfl, rfl, fun _ hs => undisturbed_opening hs⟩, hy'⟩

/-- From every reachable state a call can be led to its return by steps of its own and of its
opens, whatever state its opens and the other calls are in. Neither the deadline nor a cancellation
is needed for it, and no panic but that of a task that can only panic. -/
theorem call_completes {ttl : Duration}
    (h : Reaches (step env config serverName plainMode) (init ttl) y)
    (hb : y.downloader.locals k = some b) (hg : IsLimit config.maxConcurrentGlobal)
    (hh : IsLimit config.maxConcurrentPerHost) :
    ∃ es y' b' results, run (step env config serverName plainMode) y es = some y' ∧
      y'.downloader.locals k = some b' ∧ b'.phase = .returned results ∧
      Meets (step env config serverName plainMode)
        (LeadsOn env config serverName plainMode k) y es := by
  obtain ⟨es, y', hr, hall, -, b', results, hb', hph⟩ := exists_run_descent
    (fun y => Reaches (step env config serverName plainMode) (init ttl) y ∧
      ∃ b, y.downloader.locals k = some b)
    (fun y => ∃ b results, y.downloader.locals k = some b ∧ b.phase = .returned results)
    (LeadsOn env config serverName plainMode k) (rank config k)
    (fun y e y' hI hok hs => by
      obtain ⟨hreach, b, hb⟩ := hI
      obtain ⟨hb', -, hlt⟩ := rank_step hreach hb hs
      exact ⟨⟨hreach.trans (.single hs), hb'⟩, hlt hok.1⟩)
    (fun y hI hnot => by
      obtain ⟨hreach, b, hb⟩ := hI
      exact exists_step hreach hb hg.1 hh.1 fun results hph => hnot ⟨b, results, hb, hph⟩)
    ⟨h, b, hb⟩
  exact ⟨es, y', b', results, hr, hb', hph, hall⟩

/-- The default limits can be used. -/
theorem isLimit_default : IsLimit ({} : Config).maxConcurrentGlobal ∧
    IsLimit ({} : Config).maxConcurrentPerHost :=
  ⟨⟨by decide, by decide⟩, by decide, by decide⟩

/-- A task that has resolved its host and connects to the first of its addresses. -/
theorem call_completes_systemRun : ∃ y,
    run (step Downloader.oneUrl {} .ok false) (init (Duration.fromSecs 300)) (systemRun.take 9) =
      some y ∧ y.opens 0 0 = .dialing ⟨"192.0.2.1", 80⟩ [] none ∧
    ∃ es y' b' results, run (step Downloader.oneUrl {} .ok false) y es = some y' ∧
      y'.downloader.locals 0 = some b' ∧ b'.phase = .returned results ∧
      Meets (step Downloader.oneUrl {} .ok false)
        (LeadsOn Downloader.oneUrl {} .ok false 0) y es := by
  obtain ⟨y, b, hr, ho, hb⟩ : ∃ y b, run (step Downloader.oneUrl {} .ok false)
      (init (Duration.fromSecs 300)) (systemRun.take 9) = some y ∧
      y.opens 0 0 = .dialing ⟨"192.0.2.1", 80⟩ [] none ∧ y.downloader.locals 0 = some b :=
    ⟨_, _, rfl, rfl, rfl⟩
  obtain ⟨es, y', b', results, hr', hb', hph, hall⟩ :=
    call_completes ⟨_, hr⟩ hb isLimit_default.1 isLimit_default.2
  exact ⟨y, hr, ho, es, y', b', results, hr', hb', hph, hall⟩

/-- In every infinite run of the system, whatever the lookups answer and however the calls
interleave, each call takes finitely many steps, those of its opens among them. -/
theorem steps_finite {ttl : Duration} {y : ℕ → System} {e : ℕ → SystemEvent}
    (h0 : Reaches (step env config serverName plainMode) (init ttl) (y 0))
    (hs : Endless (step env config serverName plainMode) y e) (k : ℕ) :
    {n | (e n).call = k}.Finite := by
  have hreach := hs.invariant (I := Reaches (step env config serverName plainMode) (init ttl))
    (fun _ _ _ h hs => h.trans (.single hs)) h0
  by_cases hex : ∃ n, (e n).call = k
  swap
  · refine Set.finite_empty.subset fun n hn => hex ⟨n, hn⟩
  obtain ⟨n, rfl⟩ := hex
  -- from the step after its first one on, the call has a potential
  have htail := (hs.tail (n + 1)).finite_lowering
    (fun y => Reaches (step env config serverName plainMode) (init ttl) y ∧
      ∃ b, y.downloader.locals (e n).call = some b)
    (fun e' => e'.call = (e n).call) (rank config (e n).call)
    (fun y e' y' hI hs => by
      obtain ⟨hreach, b, hb⟩ := hI
      obtain ⟨hb', hle, hlt⟩ := rank_step hreach hb hs
      exact ⟨⟨hreach.trans (.single hs), hb'⟩, hle, hlt⟩)
    ⟨hreach (n + 1), exists_call (hs n)⟩
  refine ((Set.finite_Iio (n + 1)).union (htail.image fun i => n + 1 + i)).subset fun m hm => ?_
  rcases lt_or_ge m (n + 1) with hlt | hge
  · exact Or.inl hlt
  · obtain ⟨i, rfl⟩ := Nat.exists_eq_add_of_le hge
    exact Or.inr ⟨i, hm, rfl⟩

/-- Steps of other calls leave a call alone. -/
theorem locals_step {e : SystemEvent} (hne : e.call ≠ k)
    (hs : step env config serverName plainMode y e = some y') :
    y'.downloader.locals k = y.downloader.locals k := by
  cases step_cases hs with
  | downloader _ hd => exact Par.step_other hd hne.symm
  | settled _ _ hsettle => exact Par.step_other (settle_net hsettle).1 hne.symm
  | progress => rfl

/-- The image is requested on the connection and stored, and the call returns. -/
def completeRun : List SystemEvent :=
  systemRun ++ [.request [.image [1]], .pool .finish, .settle 0 0, .perform .ok,
    .written 0 ""].map (fun e => .downloader 0 (.batch (.task 0 e))) ++
    [.downloader 0 (.batch (.join 0)), .downloader 0 (.batch (.drained (fun _ => 9) 9))]

/-- From `y` on, one call for no URL after the other. -/
def emptyCalls (y : System) (n : ℕ) : System :=
  { y with
    downloader := ⟨y.downloader.shared, fun k =>
      if 0 < k ∧ k ≤ n then some (Batch.start {} [] "out" (.ok ())) else y.downloader.locals k⟩ }

theorem endless_emptyCalls (hnone : ∀ k, k ≠ 0 → y.downloader.locals k = none) :
    Endless (step Downloader.oneUrl {} .ok false) (emptyCalls y)
      fun n => .downloader (n + 1) (.call [] "out" (.ok ())) := by
  intro n
  have hcalls : Function.update (emptyCalls y n).downloader.locals (n + 1)
      (some (Batch.start {} [] "out" (.ok ()))) = (emptyCalls y (n + 1)).downloader.locals := by
    funext i
    rcases eq_or_ne i (n + 1) with rfl | hi
    · simp [emptyCalls]
    · rw [Function.update_of_ne hi]
      simp only [emptyCalls]
      split_ifs <;> first | rfl | omega
  have hfresh : (emptyCalls y n).downloader.locals (n + 1) = none := by
    simp [emptyCalls, hnone (n + 1) (by omega)]
  have hcall : Downloader.step Downloader.oneUrl {} (emptyCalls y n).downloader
      (n + 1, .call [] "out" (.ok ())) = some (emptyCalls y (n + 1)).downloader :=
    Par.step_eq_some.2 ⟨_, by rw [hfresh]; rfl, hcalls.symm⟩
  simp only [step, hcall]
  rfl

/-- A call that opens a connection, requests its image, stores it and returns, and no end of calls
after it. -/
theorem steps_finite_completeRun : ∃ (y : ℕ → System) (e : ℕ → SystemEvent),
    Endless (step Downloader.oneUrl {} .ok false) y e ∧ y 0 = init (Duration.fromSecs 300) ∧
    Downloader.phaseOf (y completeRun.length).downloader =
      some (.returned [⟨"http://h/a.png", .success ⟨"out", "a.png"⟩ 1 none 0⟩]) ∧
    {n | (e n).call = 0}.Finite := by
  have heval : (run (step Downloader.oneUrl {} .ok false) (init (Duration.fromSecs 300))
      completeRun).map (fun y => Downloader.phaseOf y.downloader) =
      some (some (.returned [⟨"http://h/a.png", .success ⟨"out", "a.png"⟩ 1 none 0⟩])) := by
    decide +kernel
  obtain ⟨y, hr, hph⟩ := Option.map_eq_some_iff.1 heval
  have hnone : ∀ k, k ≠ 0 → y.downloader.locals k = none := by
    intro k hk
    refine run_invariant (I := fun y => y.downloader.locals k = none)
      (fun u e u' hI (he : e.call = 0) hs => (locals_step (by rw [he]; exact hk.symm) hs).trans hI)
      rfl (Meets.of_events (p := fun e => e.call = 0) (fun _ _ h => h) ?_) hr
    simp [completeRun, systemRun, SystemEvent.call]
  have hstart : emptyCalls y 0 = y := by
    have hlocals : (emptyCalls y 0).downloader.locals = y.downloader.locals := by
      funext k
      exact if_neg (by omega)
    rw [emptyCalls]
    exact congrArg (fun l => { y with downloader := ⟨y.downloader.shared, l⟩ }) hlocals
  obtain ⟨ys, es, hs, h0, hall⟩ := Endless.of_run (hr.trans (congrArg some hstart.symm))
    (endless_emptyCalls hnone)
  have hreach : Reaches (step Downloader.oneUrl {} .ok false) (init (Duration.fromSecs 300))
      (ys 0) := by
    rw [h0]
    exact .refl _
  refine ⟨ys, es, hs, h0, ?_, steps_finite hreach hs 0⟩
  have hend : ys completeRun.length = y := (hall 0).1.trans hstart
  rw [hend]
  exact hph

end System

end Imgdl
