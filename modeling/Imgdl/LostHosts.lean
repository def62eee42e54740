import Imgdl.Cancellation
import Imgdl.Origin
import Imgdl.Provenance

/-!
# Hosts that are lost

`connections_per_host` can be used up for good : by connections whose protocol is not that of
their entry, which its action passes over, and by opens and checked-out connections of tasks that
were cancelled. If an entry has nothing else, and no attempt is behind any of it, the host is
`Lost` : every acquire waits, and nobody will give anything back. The entry stays as it is as long
as the pool lives (`lost_step`), so no later attempt gets a connection of that host and port, and
every URL there fails in every later call (`lost_host_fails`).
-/

set_option linter.unusedSectionVars false

namespace Imgdl

open Transition Interleaving

/-! ## Spent entries -/

/-- The action of an entry with this tag hands the connection to nobody. -/
def PooledConnection.PassedOver (tag : NegotiatedProtocol) (c : PooledConnection) : Prop :=
  match c.sender with
  | .h2 _ => tag = .http1
  | .h1 (some _) => tag = .http2
  | .h1 none => True

/-- The entry is full, with connections that are passed over. -/
structure HostPool.Spent (connectionsPerHost : ℕ) (hp : HostPool) : Prop where
  full : connectionsPerHost ≤ hp.totalCount
  passedOver : ∀ c ∈ hp.connections, c.PassedOver hp.protocol

theorem takeIdle_eq_none : ∀ {conns : List PooledConnection},
    (∀ c ∈ conns, c.PassedOver .http1) → takeIdle conns = none
  | [], _ => rfl
  | ⟨_, .h1 (some _)⟩ :: _, h => by cases h _ (List.mem_cons_self ..)
  | ⟨_, .h1 none⟩ :: conns, h | ⟨_, .h2 _⟩ :: conns, h => by
    have ih := takeIdle_eq_none fun c hc => h c (List.mem_cons_of_mem _ hc)
    rw [takeIdle, ih]
    · rfl
    · simp

theorem findReady_eq_none {poll' : SenderId → H2Status} : ∀ {conns : List PooledConnection},
    (∀ c ∈ conns, c.PassedOver .http2) → findReady poll' conns = none
  | [], _ => rfl
  | ⟨_, .h2 _⟩ :: _, h => by cases h _ (List.mem_cons_self ..)
  | ⟨_, .h1 _⟩ :: conns, h => by
    have ih : findReady poll' conns = none :=
      findReady_eq_none fun c hc => h c (List.mem_cons_of_mem _ hc)
    exact ih

variable {connectionsPerHost : ℕ} {hp : HostPool}

/-- A spent entry answers `Wait` and stays as it is. -/
theorem HostPool.Spent.hostAction_eq (h : hp.Spent connectionsPerHost)
    (poll poll' : SenderId → H2Status) :
    hostAction connectionsPerHost poll poll' hp = (hp, .wait hp.notify) := by
  have hwait : scaleOrWait connectionsPerHost hp = (hp, .wait hp.notify) := by
    rw [scaleOrWait, if_neg (not_lt.2 h.full)]
  unfold hostAction
  cases hprot : hp.protocol with
  | http1 =>
    simp only [h1Action, takeIdle_eq_none (hprot ▸ h.passedOver), hwait]
  | http2 =>
    have hall : hp.connections.filter (isAlive poll) = hp.connections :=
      List.filter_eq_self.2 fun c hc => by
        have hpass := h.passedOver c hc
        obtain ⟨id, sender⟩ := c
        cases sender with
        | h1 opt => rfl
        | h2 s => cases hpass.symm.trans hprot
    simp only [h2Action, hall, findReady_eq_none (hprot ▸ h.passedOver), hwait]

/-! ## Sections of an attempt -/

/-- The attempt neither opens a connection of `key` nor has one of HTTP/1.1 checked out. -/
structure Client.Away (key : HostKey) (c : Client) : Prop where
  inFlight : ¬c.InFlight key
  lease : ∀ id t, c.lease ≠ some ((key, id), t)

/-- The attempt runs its request on a connection of `key`. -/
def Client.Uses (key : HostKey) : Client → Prop
  | requesting k _ | finishing k _ _ => k = key
  | _ => False

variable {key k : HostKey} {p p' : PoolState} {c c' : Client} {e : ClientEvent}

theorem Client.Away.of_lease_eq_none (hf : ¬c.InFlight key) (hl : c.lease = none) : c.Away key :=
  ⟨hf, fun _ _ h => by rw [hl] at h; cases h⟩

theorem nextAttempt_away (n : ℕ) : (nextAttempt k n).Away key ∧ ¬(nextAttempt k n).Uses key := by
  unfold nextAttempt
  split_ifs <;> exact ⟨.of_lease_eq_none id rfl, id⟩

/-- An action for another key. -/
theorem afterAction_away (hk : k ≠ key) (n : ℕ) (a : AcquireAction) :
    (afterAction k n a).Away key ∧ ¬(afterAction k n a).Uses key := by
  cases a with
  | returnExisting handle =>
    obtain ⟨sender, id⟩ := handle
    refine ⟨⟨fun h => h, fun id t h => ?_⟩, hk⟩
    cases sender with
    | h2 => cases h
    | h1 => exact hk (Prod.mk.inj (Prod.mk.inj (Option.some.inj h)).1).1
  | openNew => exact ⟨.of_lease_eq_none hk rfl, id⟩
  | wait => exact ⟨.of_lease_eq_none id rfl, id⟩

/-- Whatever an attempt does that is away from a spent entry, the entry stays as it is, and the
attempt stays away and gets no connection of it. -/
theorem clientStep_spent (hk : p.hostPools key = some hp) (hs : hp.Spent connectionsPerHost)
    (hc : c.Away key) (h : clientStep connectionsPerHost p c e = some (p', c')) :
    p'.hostPools key = some hp ∧ c'.Away key ∧ (c'.Uses key → c.Uses key) := by
  have bare : c'.Away key ∧ ¬c'.Uses key → c'.Away key ∧ (c'.Uses key → c.Uses key) :=
    fun h => ⟨h.1, fun hu => (h.2 hu).elim⟩
  cases e with
  | start k =>
    cases c <;> simp only [clientStep, reduceCtorEq, Option.some.injEq, Prod.mk.injEq] at h
    obtain ⟨rfl, rfl⟩ := h
    exact ⟨hk, .of_lease_eq_none id rfl, id⟩
  | decide poll poll' =>
    cases c <;> simp only [clientStep, reduceCtorEq, Option.some.injEq, Prod.mk.injEq] at h
    rename_i k n
    obtain ⟨rfl, rfl⟩ := h
    rcases eq_or_ne key k with rfl | hne
    · simp only [determineAction, hk, hs.hostAction_eq, Function.update_self]
      exact ⟨trivial, .of_lease_eq_none id rfl, id⟩
    · refine ⟨?_, bare (afterAction_away hne.symm n _)⟩
      unfold determineAction
      split <;> simpa only [Function.update_of_ne hne] using hk
  | register =>
    cases c <;> simp only [clientStep, reduceCtorEq] at h
    split_ifs at h <;> obtain ⟨rfl, rfl⟩ := Prod.mk.inj (Option.some.inj h)
    · exact ⟨hk, bare (nextAttempt_away _)⟩
    · exact ⟨hk, .of_lease_eq_none id rfl, id⟩
  | wake | timer =>
    cases c <;> simp only [clientStep, reduceCtorEq] at h
    split_ifs at h
    obtain ⟨rfl, rfl⟩ := Prod.mk.inj (Option.some.inj h)
    exact ⟨hk, bare (nextAttempt_away _)⟩
  | connect r =>
    cases c with
    | opening k isFirst =>
      have hne : k ≠ key := hc.inFlight
      cases r <;> obtain ⟨rfl, rfl⟩ := Prod.mk.inj (Option.some.inj h) <;>
        exact ⟨hk, .of_lease_eq_none hne rfl, id⟩
    | _ => cases r <;> simp [clientStep] at h
  | insert =>
    cases c <;> simp only [clientStep, reduceCtorEq] at h
    case opened k isFirst conn =>
      have hne : key ≠ k := Ne.symm hc.inFlight
      rcases insertOpened_cases p.hostPools k isFirst conn with
        ⟨-, hi⟩ | ⟨_, -, -, hi⟩ | ⟨_, -, -, hi⟩ <;>
        simp only [hi, Option.some.injEq, Prod.mk.injEq] at h <;> obtain ⟨rfl, rfl⟩ := h
      · exact ⟨hk, .of_lease_eq_none id rfl, id⟩
      · exact ⟨hk, .of_lease_eq_none id rfl, id⟩
      · exact ⟨by simpa only [Function.update_of_ne hne] using hk,
          bare (afterAction_away hne.symm 0 (.returnExisting _))⟩
    case openFailed k isFirst err =>
      have hne : key ≠ k := Ne.symm hc.inFlight
      rcases removeFailed_cases p.hostPools k with
        ⟨-, hi⟩ | ⟨_, -, -, hi⟩ | ⟨_, -, -, -, hi⟩ | ⟨_, -, -, -, hi⟩ <;>
        simp only [hi, Option.some.injEq, Prod.mk.injEq] at h <;> obtain ⟨rfl, rfl⟩ := h <;>
        refine ⟨?_, .of_lease_eq_none id rfl, id⟩ <;>
        simpa only [PoolState.signal_hostPools, Function.update_of_ne hne] using hk
  | respond r =>
    cases c <;> simp only [clientStep, reduceCtorEq, Option.some.injEq, Prod.mk.injEq] at h
    rename_i k handle
    obtain ⟨rfl, rfl⟩ := h
    obtain ⟨sender, id⟩ := handle
    cases sender with
    | h1 => exact ⟨hk, ⟨hc.inFlight, hc.lease⟩, fun hu => hu⟩
    | h2 => exact ⟨hk, .of_lease_eq_none hc.inFlight rfl, fun hu => hu⟩
  | finish =>
    cases c <;> simp only [clientStep, reduceCtorEq, Option.some.injEq, Prod.mk.injEq] at h
    rename_i k handle result
    obtain ⟨rfl, rfl⟩ := h
    refine ⟨?_, .of_lease_eq_none id rfl, False.elim⟩
    obtain ⟨sender, id⟩ := handle
    cases sender with
    | h2 => simpa only [finishConnection, PoolState.signal_hostPools] using hk
    | h1 t =>
      have hne : key ≠ k := fun heq => hc.lease id t (by rw [heq]; rfl)
      simp only [finishConnection, returnH1Connection, removeDeadConnection,
        PoolState.signal_hostPools]
      cases p.hostPools k <;> split <;> simpa only [Function.update_of_ne hne] using hk
  | leave =>
    cases c <;> simp only [clientStep, reduceCtorEq, Option.some.injEq, Prod.mk.injEq] at h
    obtain ⟨rfl, rfl⟩ := h
    exact ⟨hk, .of_lease_eq_none id rfl, False.elim⟩
  | cancel =>
    cases c <;> simp only [clientStep, Option.some.injEq, Prod.mk.injEq] at h <;>
      obtain ⟨rfl, rfl⟩ := h <;> exact ⟨hk, .of_lease_eq_none id rfl, False.elim⟩

/-! ## Every run from there -/

namespace Pool

variable {ι : Type*} [DecidableEq ι] {s s' : State ι}

/-- The entry of the host is spent, and no attempt opens a connection of it or has one of HTTP/1.1
checked out. -/
structure Lost (connectionsPerHost : ℕ) (key : HostKey) (s : State ι) : Prop where
  spent : ∃ hp, s.shared.hostPools key = some hp ∧ hp.Spent connectionsPerHost
  away : ∀ i, (s.locals i).Away key

/-- A lost host stays lost, and no attempt gets a connection of it. -/
theorem lost_step {e : ι × ClientEvent} (h : Lost connectionsPerHost key s)
    (hs : step connectionsPerHost s e = some s') :
    Lost connectionsPerHost key s' ∧ ∀ i, (s'.locals i).Uses key → (s.locals i).Uses key := by
  obtain ⟨i, e⟩ := e
  obtain ⟨hp, hk, hspent⟩ := h.spent
  obtain ⟨c', hstep, hl⟩ := Par.step_eq_some.1 hs
  obtain ⟨hk', haway, huses⟩ := clientStep_spent hk hspent (h.away i) hstep
  rw [hl]
  refine ⟨⟨⟨hp, hk', hspent⟩, fun j => ?_⟩, fun j => ?_⟩
  · rw [hl]
    rcases eq_or_ne j i with rfl | hj
    · rwa [Function.update_self]
    · rw [Function.update_of_ne hj]
      exact h.away j
  · rcases eq_or_ne j i with rfl | hj
    · rwa [Function.update_self]
    · rw [Function.update_of_ne hj]
      exact id

theorem lost_of_reaches (h : Lost connectionsPerHost key s)
    (hr : Reaches (step connectionsPerHost) s s') :
    Lost connectionsPerHost key s' ∧ ∀ i, (s'.locals i).Uses key → (s.locals i).Uses key :=
  hr.invariant (I := fun s' => Lost connectionsPerHost key s' ∧
    ∀ i, (s'.locals i).Uses key → (s.locals i).Uses key)
    (fun _ _ _ hI hs => by
      obtain ⟨hlost, huses⟩ := lost_step hI.1 hs
      exact ⟨hlost, fun i hu => hI.2 i (huses i hu)⟩) ⟨h, fun _ => id⟩

end Pool

/-! ## Later downloads -/

/-- An attempt for `key` that waits for a connection, or ended without one. -/
def Client.Denied (key : HostKey) : Client → Prop
  | locking k _ | toWait k _ _ | waiting k _ _ _ => k = key
  | finished (.error _) => True
  | _ => False

theorem clientStep_denied (hk : p.hostPools key = some hp) (hs : hp.Spent connectionsPerHost)
    (hc : c.Denied key) (he : e.inPool = true)
    (h : clientStep connectionsPerHost p c e = some (p', c')) : c'.Denied key := by
  have next : ∀ n, (nextAttempt key n).Denied key := by
    intro n
    unfold nextAttempt
    split_ifs
    · rfl
    · trivial
  cases e with
  | start | respond | leave | cancel => cases he
  | decide poll poll' =>
    cases c <;> simp only [clientStep, reduceCtorEq, Option.some.injEq, Prod.mk.injEq] at h
    obtain rfl := hc
    obtain ⟨-, rfl⟩ := h
    simp only [determineAction, hk, hs.hostAction_eq]
    rfl
  | register =>
    cases c <;> simp only [clientStep, reduceCtorEq] at h
    obtain rfl := hc
    split_ifs at h <;> obtain ⟨-, rfl⟩ := Prod.mk.inj (Option.some.inj h)
    · exact next _
    · rfl
  | wake | timer =>
    cases c <;> simp only [clientStep, reduceCtorEq] at h
    obtain rfl := hc
    split_ifs at h
    obtain ⟨-, rfl⟩ := Prod.mk.inj (Option.some.inj h)
    exact next _
  | connect r => cases c <;> first | exact hc.elim | (cases r <;> simp [clientStep] at h)
  | insert | finish => cases c <;> first | exact hc.elim | simp [clientStep] at h

/-- A task whose first phase got no connection for `key`. -/
def Stage.Denied (key : HostKey) : Stage → Prop
  | working _ _ (.attempt leg _ c) => leg = .origin ∧ c.Denied key
  | working _ _ (.backoff leg _ _) => leg = .origin
  | working _ _ _ => False
  | returned r => ∃ e elapsed n, r.2.outcome = .failure e elapsed n
  | _ => True

/-- If its URL is of the host and port, the task got no connection for it. -/
structure Task.Denied (env : Env) (config : Config) (key : HostKey) (t : Task) : Prop where
  home : AtHome env config t
  stage : ∀ home, parseTarget env.http config t.url = .ok home → home.key = key →
    t.stage.Denied key

section Tasks

variable {env : Env} {config : Config} {sc sc' : Scope} {t t' : Task} {te : TaskEvent}

/-- No section of the task gets it past a spent entry. -/
theorem TaskMove.denied (hk : p.hostPools key = some hp)
    (hs : hp.Spent config.connectionsPerHost) (h : t.Denied env config key)
    (hm : TaskMove env config p sc t te p' sc' t') : t'.Denied env config key := by
  refine ⟨atHome_invariant.step h.home hm, fun target hparse hkey => ?_⟩
  have hurl : t'.url = t.url := by cases hm <;> rfl
  rw [hurl] at hparse
  have hd := h.stage target hparse hkey
  have at_home : ∀ {home : Target}, t.stage.home = some home → home.key = key := by
    intro home hst
    obtain rfl := Except.ok.inj ((h.home home hst).symm.trans hparse)
    exact hkey
  cases hm with
  | rejected | failed => exact ⟨_, _, _, rfl⟩
  | accepted | acquireGlobal | lockFound | lockFresh | unnamed | burst => trivial
  | stopped _ hend _ => rcases hend with ⟨-, rfl⟩ | ⟨-, rfl⟩ <;> trivial
  | perform => exact hd
  | acquireHost hst => exact ⟨rfl, at_home (by rw [hst]; rfl)⟩
  | pool hst hin hstep =>
    rw [hst] at hd
    exact ⟨hd.1, clientStep_denied hk hs hd.2 hin hstep⟩
  | answered hst =>
    rw [hst] at hd
    exact hd.2.elim
  | retry hst =>
    rw [hst] at hd
    exact hd.1
  | resume hst =>
    rw [hst] at hd
    obtain rfl := hd
    exact ⟨rfl, at_home (by rw [hst]; rfl)⟩
  | redirect hst hset =>
    rw [hst] at hd
    obtain ⟨-, redir, rfl, -⟩ := settleAttempt_redirect hset
    exact hd.2.elim
  | store hst hset =>
    rw [hst] at hd
    obtain ⟨rfl, -⟩ := settleAttempt_image hset
    exact hd.2.elim
  | imageFailed hst | imageDone hst | sidecar hst | sidecarDone hst =>
    rw [hst] at hd
    exact hd.elim

end Tasks

namespace Downloader

variable {env : Env} {config : Config} {s s' : State} {k : ℕ} {b : Batch}

/-- What a call has got from a lost host. -/
structure Shunned (env : Env) (config : Config) (key : HostKey) (k : ℕ) (s : State) : Prop where
  lost : Pool.Lost config.connectionsPerHost key (poolState s)
  unused : ∀ j, ¬(clientOf s (k, j)).Uses key
  denied : ∀ j t, taskOf k j s = some t → t.Denied env config key
  unsent : ∀ b, s.locals k = some b → ∀ x ∈ b.scope.sent, x.key ≠ key

theorem shunned_step {ev : ℕ × DownloaderEvent} (h : Shunned env config key k s)
    (hs : step env config s ev = some s') : Shunned env config key k s' := by
  obtain ⟨es, hrun, -⟩ := step_runs hs
  obtain ⟨hlost, huses⟩ := Pool.lost_of_reaches h.lost ⟨es, hrun⟩
  obtain ⟨hp, hk, hspent⟩ := h.lost.spent
  refine ⟨hlost, fun j hu => h.unused j (huses (k, j) hu), fun j t ht => ?_, fun b hb => ?_⟩
  · rcases taskOf_step k j hs with ⟨-, hsame | ⟨-, url, i, dir, hspawn⟩⟩ |
      ⟨te, t₀, t', sc, sc', -, ht₀, ht', hm⟩
    · exact h.denied j t (hsame ▸ ht)
    · obtain rfl := Option.some.inj (hspawn.symm.trans ht)
      exact ⟨fun _ h => (by cases h), fun _ _ _ => trivial⟩
    · obtain rfl := Option.some.inj (ht'.symm.trans ht)
      exact hm.denied hk hspent (h.denied j t₀ ht₀)
  · obtain ⟨k', e⟩ := ev
    intro x hx
    rcases step_local hs hb with ⟨-, hb₀⟩ | ⟨-, _, _, _, -, hst⟩ | ⟨rfl, b₀, be, hb₀, rfl, hm⟩
    · exact h.unsent b hb₀ x hx
    · cases hst <;> cases hx
    rcases hm.sent with hsent | ⟨j, t, _, _, _, _, _, k', _, -, ht, hst, hsent⟩
    · exact h.unsent b₀ hb₀ x (hsent ▸ hx)
    rw [hsent] at hx
    rcases List.mem_append.1 hx with hx | hx
    · exact h.unsent b₀ hb₀ x hx
    · obtain ⟨url, -, rfl⟩ := List.mem_map.1 hx
      intro hkey
      refine h.unused j ?_
      rw [clientOf_eq hb₀ ht, hst]
      exact hkey

/-- Once a host and port is lost, no call that starts afterwards sends a request there, and each
of its URLs there is reported as a failure, whatever the server would answer. -/
theorem lost_host_fails (h : Reaches (step env config) init s)
    (hl : Pool.Lost config.connectionsPerHost key (poolState s)) (hk : s.locals k = none)
    (hr : Reaches (step env config) s s') (hb : s'.locals k = some b) :
    (∀ x ∈ b.scope.sent, x.key ≠ key) ∧ ∀ results, b.phase = .returned results →
      ∀ r ∈ results, ∀ home, parseTarget env.http config r.url = .ok home → home.key = key →
        ∃ e elapsed n, r.outcome = .failure e elapsed n := by
  have h0 : Shunned env config key k s :=
    ⟨hl, fun j hu => by simp [clientOf, taskClient, hk, Client.Uses] at hu,
      fun j t ht => by simp [taskOf, hk] at ht, fun b hb => by cases hk.symm.trans hb⟩
  have hshun := hr.invariant (fun _ _ _ hI hs => shunned_step hI hs) h0
  refine ⟨hshun.unsent b hb, fun results hph r hmem home hparse hkey => ?_⟩
  cases hout : r.outcome with
  | failure e elapsed n => exact ⟨e, elapsed, n, rfl⟩
  | success path size hash elapsed =>
    obtain ⟨hcol, hasm⟩ := collected_of_reaches (h.trans hr) hb
    obtain ⟨j, t, ht, hurl, hret⟩ := hasm.success_task hcol (by rw [hph]; rfl) hmem hout
    have htask : taskOf k j s' = some t := by rw [taskOf, hb, Option.bind_some, ht]
    have hdenied := (hshun.denied j t htask).stage home (hurl ▸ hparse) hkey
    rw [hret] at hdenied
    obtain ⟨e, elapsed', n, hfail⟩ := hdenied
    cases hfail.symm.trans hout

/-- After the only open of a host was cancelled, a second call for the same URL. -/
def secondCall : List (ℕ × DownloaderEvent) :=
  [(1, .call ["http://h/a.png"] "out" (.ok ())), (1, .batch (.task 0 (.poll 0))),
    (1, .batch (.task 0 .acquireGlobal)), (1, .batch (.task 0 .lockHostSems)),
    (1, .batch (.task 0 .acquireHost)),
    (1, .batch (.task 0 (.pool (.decide (fun _ => .ready) fun _ => .ready)))),
    (1, .batch (.deadline (fun _ => 5) 5))]

theorem lost_host_fails_leakRun : ∃ s s' b results,
    run (step oneUrl timed) init leakRun = some s ∧ run (step oneUrl timed) s secondCall = some s' ∧
    s'.locals 1 = some b ∧ b.phase = .returned results ∧ (∀ x ∈ b.scope.sent, x.key ≠ ("h", 80)) ∧
    ∃ r ∈ results, r.url = "http://h/a.png" ∧ ∃ e elapsed n, r.outcome = .failure e elapsed n := by
  obtain ⟨s, s', b, results, r, hp, home, hr, hk, hidle, hfresh, hr', hb, hph, hmem, hurl, hparse,
      hkey, hspent⟩ : ∃ s s' b results r hp home, run (step oneUrl timed) init leakRun = some s ∧
      s.shared.hostPools ("h", 80) = some hp ∧ (∀ i, clientOf s i = .idle) ∧
      s.locals 1 = none ∧ run (step oneUrl timed) s secondCall = some s' ∧
      s'.locals 1 = some b ∧ b.phase = .returned results ∧ r ∈ results ∧
      r.url = "http://h/a.png" ∧ parseTarget oneUrl.http timed "http://h/a.png" = .ok home ∧
      home.key = ("h", 80) ∧ hp.connections = [] ∧ hp.totalCount = 1 := by
    refine ⟨_, _, _, _, _, _, _, rfl, rfl, ?_, rfl, rfl, rfl, rfl, .head _, rfl, rfl, rfl, rfl, rfl⟩
    rintro ⟨_ | k, _ | j⟩ <;> rfl
  have hlost : Pool.Lost timed.connectionsPerHost ("h", 80) (poolState s) := by
    refine ⟨⟨hp, hk, hspent.2.symm ▸ le_refl 1, fun c hc => ?_⟩, fun i => ?_⟩
    · simp [hspent.1] at hc
    · rw [show (poolState s).locals i = .idle from hidle i]
      exact .of_lease_eq_none id rfl
  obtain ⟨hsent, hfail⟩ := lost_host_fails ⟨_, hr⟩ hlost hfresh ⟨_, hr'⟩ hb
  exact ⟨s, s', b, results, hr, hr', hb, hph, hsent, r, hmem, hurl,
    hfail results hph r hmem home (hurl ▸ hparse) hkey⟩

end Downloader

end Imgdl
