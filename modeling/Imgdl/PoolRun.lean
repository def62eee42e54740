import Imgdl.Interleaving
import Imgdl.Pool
import Imgdl.Transport

/-!
# Tasks on the connection pool

One attempt of a download acquires a handle, runs a request on it and calls
`finish_connection`. `Client` is an attempt at its await points, `clientStep` the section
between two of them, and `Pool.step` any number of clients interleaved over one pool. A
client that is cancelled drops its future and with it the sender it holds; the
decrements and the entries it would have restored are not.

`Notify` is tokio's : `notify_one` wakes one registered waiter or stores one permit, and
a waiter that is dropped after it was woken passes the wake-up on.

`ClientMove` lists what a section can do, and `clientStep_cases` is the one place the
step function is unfolded.
-/

set_option linter.unusedSectionVars false

namespace Imgdl

open Transition Interleaving

/-! ## Notify -/

/-- A `Notify` : its stored permit, the registered waiters, and the waiters woken but
not yet polled. -/
structure Notify where
  permit : Bool
  waiters : List ℕ
  woken : List ℕ
  deriving DecidableEq, Repr

namespace Notify

/-- `Notify::new`. -/
def new : Notify :=
  ⟨false, [], []⟩

/-- `notify_one`. -/
def notifyOne (n : Notify) : Notify :=
  match n.waiters with
  | [] => { n with permit := true }
  | t :: ts => { n with waiters := ts, woken := t :: n.woken }

/-- Drop the waiter `t`. -/
def forget (n : Notify) (t : ℕ) : Notify :=
  if t ∈ n.woken then notifyOne { n with woken := n.woken.erase t }
  else { n with waiters := n.waiters.erase t }

end Notify

/-! ## The pool and its clients -/

/-- The pool with its `Notify`s. The counters name the next `Notify`, connection and
waiter. -/
structure PoolState where
  hostPools : HostPools
  notifies : NotifyId → Notify
  nextNotify : NotifyId
  nextSender : SenderId
  nextWaiter : ℕ

namespace PoolState

/-- `ConnectionPool::new`. -/
def new : PoolState :=
  ⟨fun _ => none, fun _ => Notify.new, 0, 0, 0⟩

/-- Change one `Notify`. -/
def onNotify (p : PoolState) (i : NotifyId) (f : Notify → Notify) : PoolState :=
  { p with notifies := Function.update p.notifies i (f (p.notifies i)) }

/-- Signal a `Notify`, if there is one to signal. -/
def signal (p : PoolState) : Option NotifyId → PoolState
  | some i => p.onNotify i Notify.notifyOne
  | none => p

variable (p : PoolState)

@[simp] theorem onNotify_hostPools (i : NotifyId) (f : Notify → Notify) :
    (p.onNotify i f).hostPools = p.hostPools :=
  rfl

@[simp] theorem onNotify_nextSender (i : NotifyId) (f : Notify → Notify) :
    (p.onNotify i f).nextSender = p.nextSender :=
  rfl

@[simp] theorem signal_hostPools (o : Option NotifyId) :
    (p.signal o).hostPools = p.hostPools := by
  cases o <;> rfl

@[simp] theorem signal_nextSender (o : Option NotifyId) :
    (p.signal o).nextSender = p.nextSender := by
  cases o <;> rfl

end PoolState

/-- An attempt at its await points. `idle` is a task outside the pool. -/
inductive Client where
  | idle
  /-- Waiting for the mutex in iteration `n` of `acquire`. -/
  | locking (key : HostKey) (n : ℕ)
  /-- Answered `Wait`, not yet registered with the `Notify`. -/
  | toWait (key : HostKey) (n : ℕ) (notify : NotifyId)
  | waiting (key : HostKey) (n : ℕ) (notify : NotifyId) (waiter : ℕ)
  /-- Inside `open_connection`. -/
  | opening (key : HostKey) (isFirst : Bool)
  /-- `open_connection` succeeded; waiting for the mutex. -/
  | opened (key : HostKey) (isFirst : Bool) (conn : OpenedConnection)
  /-- `open_connection` failed; waiting for the mutex. -/
  | openFailed (key : HostKey) (isFirst : Bool) (e : DownloadError)
  /-- Inside `execute_request`. -/
  | requesting (key : HostKey) (handle : PoolHandle)
  /-- Waiting for the mutex in `finish_connection`. -/
  | finishing (key : HostKey) (handle : PoolHandle)
      (result : Except DownloadError TransportResult)
  | finished (result : Except DownloadError TransportResult)
  | panicked

/-- What a client waits for. -/
inductive ClientEvent where
  | start (key : HostKey)
  | decide (poll poll' : SenderId → H2Status)
  | register
  | wake
  | timer
  | connect (r : Except DownloadError NegotiatedProtocol)
  | insert
  | respond (result : Except DownloadError TransportResult)
  | finish
  | leave
  | cancel

namespace Client

/-- The key of an attempt in the pool. -/
def key : Client → Option HostKey
  | locking k _ => some k
  | toWait k _ _ => some k
  | waiting k _ _ _ => some k
  | opening k _ => some k
  | opened k _ _ => some k
  | openFailed k _ _ => some k
  | requesting k _ => some k
  | finishing k _ _ => some k
  | _ => none

/-- An open for `key` is in flight : counted, and not yet taken off the count. -/
def InFlight (key : HostKey) : Client → Prop
  | opening k _ => k = key
  | opened k _ _ => k = key
  | openFailed k _ _ => k = key
  | _ => False

/-- The first open of the entry of `key` is in flight. -/
def FirstInFlight (key : HostKey) : Client → Prop
  | opening k f => k = key ∧ f = true
  | opened k f _ => k = key ∧ f = true
  | openFailed k f _ => k = key ∧ f = true
  | _ => False

/-- The HTTP/1.1 handle a client holds : its entry, by key and id, and its sender. -/
def lease : Client → Option ((HostKey × ℕ) × SenderId)
  | requesting k ⟨.h1 s, id⟩ => some ((k, id), s)
  | finishing k ⟨.h1 s, id⟩ _ => some ((k, id), s)
  | _ => none

/-- The HTTP/1.1 sender a client owns. -/
def owned : Client → Option SenderId
  | opened _ _ (.h1 s) => some s
  | requesting _ ⟨.h1 s, _⟩ => some s
  | finishing _ ⟨.h1 s, _⟩ _ => some s
  | _ => none

/-- The result of an attempt whose request is over. -/
def settled : Client → Option (Except DownloadError TransportResult)
  | finishing _ _ result => some result
  | finished result => some result
  | _ => none

theorem InFlight.key_unique {c : Client} {key key' : HostKey} (h : c.InFlight key)
    (h' : c.InFlight key') : key = key' := by
  cases c <;> first | exact h.elim | exact h.symm.trans h'

/-- A client that neither opens a connection nor holds an HTTP/1.1 sender. -/
structure Bare (c : Client) : Prop where
  inFlight : ∀ key, ¬c.InFlight key
  owned : c.owned = none
  lease : c.lease = none

end Client

/-- Which results leave an HTTP/1.1 connection usable. -/
def usable {α : Type*} : Except DownloadError α → Bool
  | .ok _ => true
  | .error (.httpStatus _ _ _) => true
  | .error _ => false

/-- The next iteration of `acquire` after a wait. -/
def nextAttempt (key : HostKey) (n : ℕ) : Client :=
  if n + 1 < MAX_ACQUIRE_ATTEMPTS then .locking key (n + 1)
  else .finished (.error (.connectionFailed
    s!"pool acquire timeout for {key.1}:{key.2} after {MAX_ACQUIRE_ATTEMPTS} attempts"))

/-- Where `acquire` goes with an action. -/
def afterAction (key : HostKey) (n : ℕ) : AcquireAction → Client
  | .returnExisting handle => .requesting key handle
  | .openNew isFirst => .opening key isFirst
  | .wait notify => .toWait key n notify

/-- The connection that `open_connection` returns, with a fresh sender. -/
def openedConnection (s : SenderId) : NegotiatedProtocol → OpenedConnection
  | .http2 => .h2 s
  | .http1 => .h1 s

/-- The section of `finish_connection`. -/
def finishConnection (p : PoolState) (key : HostKey) (handle : PoolHandle) (ok : Bool) :
    PoolState :=
  match handle.sender with
  | .h2 _ => p.signal (notifyH2Complete p.hostPools key)
  | .h1 s =>
    let r := if ok then returnH1Connection p.hostPools key handle.connectionId s
      else removeDeadConnection p.hostPools key handle.connectionId
    { p with hostPools := r.1 }.signal r.2

variable (connectionsPerHost : ℕ)

/-- The next section of an attempt. -/
def clientStep (p : PoolState) : Client → ClientEvent → Option (PoolState × Client)
  | .idle, .start key => some (p, .locking key 0)
  | .locking key n, .decide poll poll' =>
    let r := determineAction connectionsPerHost poll poll' p.hostPools p.nextNotify key
    some ({ p with
      hostPools := r.1
      nextNotify := if (p.hostPools key).isSome then p.nextNotify else p.nextNotify + 1 },
      afterAction key n r.2)
  | .toWait key n i, .register =>
    if (p.notifies i).permit then
      some (p.onNotify i fun m => { m with permit := false }, nextAttempt key n)
    else
      some ({ p.onNotify i fun m => { m with waiters := m.waiters ++ [p.nextWaiter] } with
        nextWaiter := p.nextWaiter + 1 }, .waiting key n i p.nextWaiter)
  | .waiting key n i t, .wake =>
    if t ∈ (p.notifies i).woken then
      some (p.onNotify i fun m => { m with woken := m.woken.erase t }, nextAttempt key n)
    else none
  | .waiting key n i t, .timer =>
    -- `timeout` polls the waiter before the timer
    if t ∈ (p.notifies i).woken then none
    else some (p.onNotify i (Notify.forget · t), nextAttempt key n)
  | .opening key isFirst, .connect (.ok proto) =>
    some ({ p with nextSender := p.nextSender + 1 },
      .opened key isFirst (openedConnection p.nextSender proto))
  | .opening key isFirst, .connect (.error e) => some (p, .openFailed key isFirst e)
  | .opened key isFirst conn, .insert =>
    match insertOpened p.hostPools key isFirst conn with
    | .inserted pools handle => some ({ p with hostPools := pools }, .requesting key handle)
    | .disappeared => some (p, .finished (.error (.connectionFailed
        s!"pool entry for {key.1}:{key.2} disappeared during connection")))
    | .underflow => some (p, .panicked)
  | .openFailed key _ e, .insert =>
    match removeFailed p.hostPools key with
    | some r => some ({ p with hostPools := r.1 }.signal r.2, .finished (.error e))
    | none => some (p, .panicked)
  | .requesting key handle, .respond result => some (p, .finishing key handle result)
  | .finishing key handle result, .finish =>
    some (finishConnection p key handle (usable result), .finished result)
  | .finished _, .leave => some (p, .idle)
  | .waiting _ _ i t, .cancel => some (p.onNotify i (Notify.forget · t), .idle)
  | _, .cancel => some (p, .idle)
  | _, _ => none

/-- What a section of an attempt can do. -/
inductive ClientMove (p : PoolState) : Client → ClientEvent → PoolState → Client → Prop where
  | start {key : HostKey} : ClientMove p .idle (.start key) p (.locking key 0)
  | first {key : HostKey} {n : ℕ} {poll poll' : SenderId → H2Status} :
    p.hostPools key = none →
    ClientMove p (.locking key n) (.decide poll poll')
      { p with
        hostPools :=
          Function.update p.hostPools key (some (HostPool.placeholder p.nextNotify))
        nextNotify := p.nextNotify + 1 }
      (.opening key true)
  | existing {key : HostKey} {n : ℕ} {poll poll' : SenderId → H2Status} {hp hp' : HostPool}
    {a : AcquireAction} : p.hostPools key = some hp → HostAction connectionsPerHost hp hp' a →
    ClientMove p (.locking key n) (.decide poll poll')
      { p with hostPools := Function.update p.hostPools key (some hp') } (afterAction key n a)
  /-- Only `Notify`s change. -/
  | park {c c' : Client} {e : ClientEvent} {p' : PoolState} :
    p'.hostPools = p.hostPools → p'.nextSender = p.nextSender → c.Bare → c'.Bare →
    ClientMove p c e p' c'
  | connected {key : HostKey} {isFirst : Bool} {proto : NegotiatedProtocol} :
    ClientMove p (.opening key isFirst) (.connect (.ok proto))
      { p with nextSender := p.nextSender + 1 }
      (.opened key isFirst (openedConnection p.nextSender proto))
  | refused {key : HostKey} {isFirst : Bool} {err : DownloadError} :
    ClientMove p (.opening key isFirst) (.connect (.error err)) p
      (.openFailed key isFirst err)
  | inserted {key : HostKey} {isFirst : Bool} {conn : OpenedConnection} {hp : HostPool} :
    p.hostPools key = some hp → 0 < hp.openingCount →
    ClientMove p (.opened key isFirst conn) .insert
      { p with hostPools := Function.update p.hostPools key (some (hp.insert isFirst conn)) }
      (.requesting key ⟨conn.split.1, hp.nextId⟩)
  /-- An open ends with no entry to count it in. -/
  | lost {key : HostKey} {c c' : Client} : c.InFlight key →
    (∀ hp, p.hostPools key = some hp → hp.openingCount = 0) → c'.Bare →
    ClientMove p c .insert p c'
  | dropEntry {key : HostKey} {isFirst : Bool} {err : DownloadError} {hp : HostPool} :
    p.hostPools key = some hp → hp.connections = [] → hp.openingCount = 1 →
    ClientMove p (.openFailed key isFirst err) .insert
      { p with hostPools := Function.update p.hostPools key none } (.finished (.error err))
  | uncount {key : HostKey} {isFirst : Bool} {err : DownloadError} {hp : HostPool}
    {p' : PoolState} : p.hostPools key = some hp → 0 < hp.openingCount →
    (hp.connections = [] → 1 < hp.openingCount) →
    p'.hostPools = Function.update p.hostPools key
      (some { hp with openingCount := hp.openingCount - 1 }) →
    p'.nextSender = p.nextSender →
    ClientMove p (.openFailed key isFirst err) .insert p' (.finished (.error err))
  | respond {key : HostKey} {handle : PoolHandle}
    {result : Except DownloadError TransportResult} :
    ClientMove p (.requesting key handle) (.respond result) p (.finishing key handle result)
  | finish {key : HostKey} {handle : PoolHandle}
    {result : Except DownloadError TransportResult} :
    ClientMove p (.finishing key handle result) .finish
      (finishConnection p key handle (usable result)) (.finished result)
  | leave {result : Except DownloadError TransportResult} :
    ClientMove p (.finished result) .leave p .idle
  | cancel {c : Client} {p' : PoolState} : p'.hostPools = p.hostPools →
    p'.nextSender = p.nextSender → ClientMove p c .cancel p' .idle

theorem bare_finished (r : Except DownloadError TransportResult) : Client.Bare (.finished r) :=
  ⟨fun _ h => h, rfl, rfl⟩

theorem bare_nextAttempt (key : HostKey) (n : ℕ) : (nextAttempt key n).Bare := by
  unfold nextAttempt
  split_ifs <;> exact ⟨fun _ h => h, rfl, rfl⟩

theorem bare_toWait (key : HostKey) (n : ℕ) (i : NotifyId) : Client.Bare (.toWait key n i) :=
  ⟨fun _ h => h, rfl, rfl⟩

theorem bare_waiting (key : HostKey) (n : ℕ) (i : NotifyId) (t : ℕ) :
    Client.Bare (.waiting key n i t) :=
  ⟨fun _ h => h, rfl, rfl⟩

theorem clientStep_decide {p p' : PoolState} {key : HostKey} {n : ℕ}
    {poll poll' : SenderId → H2Status} {c' : Client}
    (h : clientStep connectionsPerHost p (.locking key n) (.decide poll poll') = some (p', c')) :
    ClientMove connectionsPerHost p (.locking key n) (.decide poll poll') p' c' := by
  simp only [clientStep, determineAction, Option.some.injEq, Prod.mk.injEq] at h
  obtain ⟨rfl, rfl⟩ := h
  cases hp : p.hostPools key with
  | none => exact .first hp
  | some hp₀ => exact .existing hp (hostAction_cases connectionsPerHost poll poll' hp₀)

theorem clientStep_insert_opened {p p' : PoolState} {key : HostKey} {isFirst : Bool}
    {conn : OpenedConnection} {c' : Client}
    (h : clientStep connectionsPerHost p (.opened key isFirst conn) .insert = some (p', c')) :
    ClientMove connectionsPerHost p (.opened key isFirst conn) .insert p' c' := by
  rcases insertOpened_cases p.hostPools key isFirst conn with
    ⟨hp, hi⟩ | ⟨hp₀, hp, h0, hi⟩ | ⟨hp₀, hp, h0, hi⟩ <;>
    simp only [clientStep, hi, Option.some.injEq, Prod.mk.injEq] at h <;>
    obtain ⟨rfl, rfl⟩ := h
  · exact .lost rfl (by simp [hp]) (bare_finished _)
  · exact .lost rfl (by simp [hp, h0]) ⟨fun _ h => h, rfl, rfl⟩
  · exact .inserted hp h0

theorem clientStep_insert_failed {p p' : PoolState} {key : HostKey} {isFirst : Bool}
    {err : DownloadError} {c' : Client}
    (h : clientStep connectionsPerHost p (.openFailed key isFirst err) .insert = some (p', c')) :
    ClientMove connectionsPerHost p (.openFailed key isFirst err) .insert p' c' := by
  rcases removeFailed_cases p.hostPools key with ⟨hp, hi⟩ | ⟨hp₀, hp, h0, hi⟩ |
    ⟨hp₀, hp, hnil, h1, hi⟩ | ⟨hp₀, hp, h0, hkeep, hi⟩ <;>
    simp only [clientStep, hi, Option.some.injEq, Prod.mk.injEq] at h <;>
    obtain ⟨rfl, rfl⟩ := h
  · exact .lost rfl (by simp [hp]) (bare_finished _)
  · exact .lost rfl (by simp [hp, h0]) ⟨fun _ h => h, rfl, rfl⟩
  · exact .dropEntry hp hnil h1
  · exact .uncount hp h0 hkeep rfl rfl

/-- Every section of an attempt is one of the moves. -/
theorem clientStep_cases {p p' : PoolState} {c c' : Client} {e : ClientEvent}
    (h : clientStep connectionsPerHost p c e = some (p', c')) :
    ClientMove connectionsPerHost p c e p' c' := by
  cases e with
  | start key =>
    cases c <;> simp only [clientStep, reduceCtorEq, Option.some.injEq, Prod.mk.injEq] at h
    obtain ⟨rfl, rfl⟩ := h
    exact .start
  | decide poll poll' =>
    cases c with
    | locking key n => exact clientStep_decide connectionsPerHost h
    | _ => simp [clientStep] at h
  | register =>
    cases c with
    | toWait key n i =>
      simp only [clientStep] at h
      split_ifs at h <;> obtain ⟨rfl, rfl⟩ := Prod.mk.inj (Option.some.inj h)
      · exact .park rfl rfl (bare_toWait _ _ _) (bare_nextAttempt _ _)
      · exact .park rfl rfl (bare_toWait _ _ _) (bare_waiting _ _ _ _)
    | _ => simp [clientStep] at h
  | wake =>
    cases c with
    | waiting key n i t =>
      simp only [clientStep] at h
      split_ifs at h
      obtain ⟨rfl, rfl⟩ := Prod.mk.inj (Option.some.inj h)
      exact .park rfl rfl (bare_waiting _ _ _ _) (bare_nextAttempt _ _)
    | _ => simp [clientStep] at h
  | timer =>
    cases c with
    | waiting key n i t =>
      simp only [clientStep] at h
      split_ifs at h
      obtain ⟨rfl, rfl⟩ := Prod.mk.inj (Option.some.inj h)
      exact .park rfl rfl (bare_waiting _ _ _ _) (bare_nextAttempt _ _)
    | _ => simp [clientStep] at h
  | connect r =>
    cases c with
    | opening key isFirst =>
      cases r <;> obtain ⟨rfl, rfl⟩ := Prod.mk.inj (Option.some.inj h)
      · exact .refused
      · exact .connected
    | _ => cases r <;> simp [clientStep] at h
  | insert =>
    cases c with
    | opened key isFirst conn => exact clientStep_insert_opened connectionsPerHost h
    | openFailed key isFirst err => exact clientStep_insert_failed connectionsPerHost h
    | _ => simp [clientStep] at h
  | respond r =>
    cases c <;> simp only [clientStep, reduceCtorEq, Option.some.injEq, Prod.mk.injEq] at h
    obtain ⟨rfl, rfl⟩ := h
    exact .respond
  | finish =>
    cases c <;> simp only [clientStep, reduceCtorEq, Option.some.injEq, Prod.mk.injEq] at h
    obtain ⟨rfl, rfl⟩ := h
    exact .finish
  | leave =>
    cases c <;> simp only [clientStep, reduceCtorEq, Option.some.injEq, Prod.mk.injEq] at h
    obtain ⟨rfl, rfl⟩ := h
    exact .leave
  | cancel =>
    cases c <;> simp only [clientStep, Option.some.injEq, Prod.mk.injEq] at h <;>
      obtain ⟨rfl, rfl⟩ := h <;> exact .cancel rfl rfl

/-- A client stays with the key it started with. -/
theorem clientStep_key {p p' : PoolState} {c c' : Client} {e : ClientEvent} {key : HostKey}
    (h : clientStep connectionsPerHost p c e = some (p', c')) (he : ∀ k, e ≠ .start k)
    (hk : c'.key = some key) : c.key = some key := by
  have next : ∀ {k : HostKey} {n : ℕ}, (nextAttempt k n).key = some key → k = key := by
    intro k n h
    unfold nextAttempt at h
    split_ifs at h
    · exact Option.some.inj h
    · cases h
  cases e with
  | start k => exact absurd rfl (he k)
  | decide poll poll' =>
    cases c <;> simp only [clientStep, reduceCtorEq, Option.some.injEq, Prod.mk.injEq] at h
    obtain ⟨-, rfl⟩ := h
    generalize (determineAction _ _ _ _ _ _).2 = a at hk
    cases a <;> exact hk
  | register =>
    cases c <;> simp only [clientStep, reduceCtorEq] at h
    split_ifs at h <;> obtain ⟨-, rfl⟩ := Prod.mk.inj (Option.some.inj h)
    · exact congrArg some (next hk)
    · exact hk
  | wake | timer =>
    cases c <;> simp only [clientStep, reduceCtorEq] at h
    split_ifs at h
    obtain ⟨-, rfl⟩ := Prod.mk.inj (Option.some.inj h)
    exact congrArg some (next hk)
  | connect r =>
    cases c <;> cases r <;> simp only [clientStep, reduceCtorEq, Option.some.injEq,
      Prod.mk.injEq] at h <;> obtain ⟨-, rfl⟩ := h <;> exact hk
  | insert =>
    cases c <;> simp only [clientStep, reduceCtorEq] at h
    · split at h <;> obtain ⟨-, rfl⟩ := Prod.mk.inj (Option.some.inj h) <;>
        first | exact hk | cases hk
    · split at h <;> obtain ⟨-, rfl⟩ := Prod.mk.inj (Option.some.inj h) <;> cases hk
  | respond r | finish | leave | cancel =>
    cases c <;> simp only [clientStep, reduceCtorEq, Option.some.injEq, Prod.mk.injEq] at h <;>
      obtain ⟨-, rfl⟩ := h <;> first | exact hk | cases hk

/-- What `finish_connection` leaves of an entry : the same counts, no new id, and the
connections a sender was put back into or taken out of. -/
theorem finishConnection_entry {p : PoolState} {key k : HostKey} {handle : PoolHandle}
    {ok : Bool} {hp' : HostPool}
    (h : (finishConnection p key handle ok).hostPools k = some hp') :
    ∃ hp, p.hostPools k = some hp ∧ hp' = { hp with connections := hp'.connections } ∧
      (hp'.connections = hp.connections ∨ ∃ s, k = key ∧ handle.sender = .h1 s ∧
        hp'.connections = if ok then giveBack handle.connectionId s hp.connections
          else hp.connections.filter fun c => c.id ≠ handle.connectionId) := by
  unfold finishConnection at h
  obtain ⟨sender, id⟩ := handle
  cases sender with
  | h2 s =>
    simp only [PoolState.signal_hostPools] at h
    exact ⟨hp', h, rfl, Or.inl rfl⟩
  | h1 s =>
    simp only [PoolState.signal_hostPools, returnH1Connection, removeDeadConnection] at h
    cases hp : p.hostPools key with
    | none =>
      simp only [hp, ite_self] at h
      exact ⟨hp', h, rfl, Or.inl rfl⟩
    | some hp₀ =>
      rcases eq_or_ne k key with rfl | hk
      · cases ok <;> simp only [hp, Bool.false_eq_true, if_true, if_false, Function.update_self,
          Option.some.injEq] at h <;> subst h <;> exact ⟨hp₀, hp, rfl, Or.inr ⟨s, rfl, rfl, rfl⟩⟩
      · cases ok <;> simp only [hp, Bool.false_eq_true, if_true, if_false,
          Function.update_of_ne hk] at h <;> exact ⟨hp', h, rfl, Or.inl rfl⟩

/-- `finish_connection` neither adds nor removes entries. -/
theorem finishConnection_isSome {p : PoolState} {key k : HostKey} {handle : PoolHandle}
    {ok : Bool} : ((finishConnection p key handle ok).hostPools k).isSome =
      (p.hostPools k).isSome := by
  unfold finishConnection
  cases handle.sender with
  | h2 s => simp
  | h1 s =>
    simp only [PoolState.signal_hostPools, returnH1Connection, removeDeadConnection]
    cases hp : p.hostPools key with
    | none => simp
    | some hp₀ =>
      rcases eq_or_ne k key with rfl | hk
      · cases ok <;> simp [hp]
      · cases ok <;> simp [Function.update_of_ne hk]

@[simp] theorem finishConnection_nextSender {p : PoolState} {key : HostKey}
    {handle : PoolHandle} {ok : Bool} :
    (finishConnection p key handle ok).nextSender = p.nextSender := by
  unfold finishConnection
  cases handle.sender <;> simp

namespace Pool

variable {ι : Type*} [DecidableEq ι]

/-- The pool and the tasks that use it. -/
abbrev State (ι : Type*) := Par PoolState ι Client

/-- Any client takes its next section. -/
abbrev step : State ι → ι × ClientEvent → Option (State ι) :=
  Par.step (clientStep connectionsPerHost)

/-- An empty pool, no client in it. -/
def init : State ι :=
  ⟨PoolState.new, fun _ => .idle⟩

end Pool

end Imgdl
