import Imgdl.PoolRun

/-!
# Waiters of the pool

A client that was answered `Wait` holds the `Notify` its entry had. It queues for the
`Notify` (`queuing`), registers with it (`registration`), and after a wake-up or with a
stored permit goes back to the mutex (`resumed`).

`NotifyMove` lists what a section does to the entries and the `Notify`s, where no client
is cancelled and no timer fires. Two invariants come from it : the waiters listed in a
`Notify` are the clients registered with it (`Registered`), and every `Notify` belongs to
one key (`Owned`).
-/

set_option linter.unusedSectionVars false

namespace Imgdl

open Transition Interleaving

namespace Notify

variable (n : Notify)

/-- All waiters : the registered ones, and the woken ones that were not polled yet. -/
def listed : List ℕ :=
  n.waiters ++ n.woken

theorem listed_notifyOne : n.notifyOne.listed.Perm n.listed := by
  obtain ⟨permit, waiters, woken⟩ := n
  cases waiters with
  | nil => exact List.Perm.refl _
  | cons t ts => exact List.perm_middle

/-- A signal serves a registered waiter or leaves a permit. -/
theorem notifyOne_waiters : n.notifyOne.waiters.length + n.permit.toNat ≤
    n.waiters.length + n.notifyOne.permit.toNat := by
  obtain ⟨permit, waiters, woken⟩ := n
  cases waiters with
  | nil => simpa [notifyOne] using permit.toNat_le
  | cons t ts => simp [notifyOne]

theorem notifyOne_woken_le : n.woken.length + n.permit.toNat ≤
    n.notifyOne.woken.length + n.notifyOne.permit.toNat := by
  obtain ⟨permit, waiters, woken⟩ := n
  cases waiters with
  | nil => simpa [notifyOne] using permit.toNat_le
  | cons t ts => simp [notifyOne]

/-- Unless a permit is stored already, a signal is one more wake-up. -/
theorem notifyOne_woken (h : n.permit = false) : n.notifyOne.woken.length +
    n.notifyOne.permit.toNat = n.woken.length + n.permit.toNat + 1 := by
  obtain ⟨permit, waiters, woken⟩ := n
  obtain rfl : permit = false := h
  cases waiters <;> simp [notifyOne]

end Notify

/-! ## Where a client waits -/

namespace Client

/-- The key and the `Notify` of a client that was answered `Wait` and not woken since. -/
def waitsAt : Client → Option (HostKey × NotifyId)
  | toWait k _ m => some (k, m)
  | waiting k _ m _ => some (k, m)
  | _ => none

/-- The `Notify` a client has yet to register with. -/
def queuing : Client → Option NotifyId
  | toWait _ _ m => some m
  | _ => none

/-- The `Notify` a client is registered with, and its number there. -/
def registration : Client → Option (NotifyId × ℕ)
  | waiting _ _ m t => some (m, t)
  | _ => none

/-- The key of a client that was woken and has not looked at the pool since. -/
def resumed : Client → Option HostKey
  | locking k (_ + 1) => some k
  | _ => none

/-- The key a client waits for, from the answer `Wait` until it looks at the pool again. -/
def waitsFor : Client → Option HostKey
  | locking k (_ + 1) => some k
  | toWait k _ _ => some k
  | waiting k _ _ _ => some k
  | _ => none

/-- A client whose next section neither gives something back, nor sets the tag of an
entry, nor is its last attempt. -/
def spares : Client → Bool
  | openFailed _ _ _ => false
  | finishing _ _ _ => false
  | opened _ isFirst _ => !isFirst
  | toWait _ n _ => n + 1 < MAX_ACQUIRE_ATTEMPTS
  | waiting _ n _ _ => n + 1 < MAX_ACQUIRE_ATTEMPTS
  | _ => true

/-- A client that neither waits nor was just woken. -/
structure Outside (c : Client) : Prop where
  waitsAt : c.waitsAt = none
  resumed : c.resumed = none

theorem queuing_of_waitsAt {c : Client} (h : c.waitsAt = none) : c.queuing = none := by
  cases c <;> first | rfl | cases h

theorem registration_of_waitsAt {c : Client} (h : c.waitsAt = none) :
    c.registration = none := by
  cases c <;> first | rfl | cases h

theorem waitsFor_of_waitsAt {c : Client} {key : HostKey} {m : NotifyId}
    (h : c.waitsAt = some (key, m)) : c.waitsFor = some key := by
  cases c <;> cases h <;> rfl

theorem waitsFor_of_resumed {c : Client} {key : HostKey} (h : c.resumed = some key) :
    c.waitsFor = some key := by
  cases c with
  | locking k n =>
    cases n with
    | zero => cases h
    | succ n => exact h
  | _ => cases h

theorem waitsFor_cases {c : Client} {key : HostKey} (h : c.waitsFor = some key) :
    c.resumed = some key ∨ ∃ m, c.waitsAt = some (key, m) := by
  cases c with
  | locking k n =>
    cases n with
    | zero => cases h
    | succ n => exact Or.inl h
  | toWait k n m => exact Or.inr ⟨m, by cases h; rfl⟩
  | waiting k n m t => exact Or.inr ⟨m, by cases h; rfl⟩
  | _ => cases h

theorem waitsAt_of_registration {c : Client} {m : NotifyId} {t : ℕ}
    (h : c.registration = some (m, t)) : ∃ key, c.waitsAt = some (key, m) := by
  cases c <;> cases h
  exact ⟨_, rfl⟩

end Client

theorem nextAttempt_waitsAt (key : HostKey) (n : ℕ) : (nextAttempt key n).waitsAt = none := by
  unfold nextAttempt
  split_ifs <;> rfl

theorem nextAttempt_resumed {key : HostKey} {n : ℕ} (h : n + 1 < MAX_ACQUIRE_ATTEMPTS) :
    (nextAttempt key n).resumed = some key := by
  rw [nextAttempt, if_pos h]
  rfl

/-- Of the answers, only `Wait` leads to a `Notify`. -/
theorem afterAction_waitsAt {key key' : HostKey} {n : ℕ} {a : AcquireAction} {m : NotifyId} :
    (afterAction key n a).waitsAt = some (key', m) ↔ key = key' ∧ a = .wait m := by
  cases a <;> simp [afterAction, Client.waitsAt]

theorem afterAction_queuing {key : HostKey} {n : ℕ} {a : AcquireAction} {m : NotifyId} :
    (afterAction key n a).queuing = some m ↔ a = .wait m := by
  cases a <;> simp [afterAction, Client.queuing]

/-! ## What a section does to the `Notify`s -/

/-- The key of a client that is about to give an open or a connection back. -/
def Client.ending : Client → Option HostKey
  | .openFailed key _ _ => some key
  | .finishing key _ _ => some key
  | _ => none

theorem Client.queuing_of_ending {c : Client} {key : HostKey} (h : c.ending = some key) :
    c.queuing = none := by
  cases c <;> first | rfl | cases h

theorem Client.resumed_of_ending {c : Client} {key : HostKey} (h : c.ending = some key) :
    c.resumed = none := by
  cases c <;> first | rfl | cases h

/-- What giving back leaves of an entry. -/
def HostPool.ended (hp : HostPool) : Client → HostPool
  | .openFailed _ _ _ => { hp with openingCount := hp.openingCount - 1 }
  | .finishing _ ⟨.h1 s, id⟩ result =>
    { hp with connections := if usable result then giveBack id s hp.connections
        else hp.connections.filter fun c => c.id ≠ id }
  | _ => hp

@[simp] theorem HostPool.ended_notify (hp : HostPool) (c : Client) :
    (hp.ended c).notify = hp.notify := by
  unfold HostPool.ended
  split <;> rfl

/-- An entry keeps its `Notify`, and answers `Wait` with it. -/
theorem HostAction.notify_eq {connectionsPerHost : ℕ} {hp hp' : HostPool} {a : AcquireAction}
    (h : HostAction connectionsPerHost hp hp' a) :
    hp'.notify = hp.notify ∧ ∀ m, a = .wait m → m = hp.notify := by
  cases h with
  | wait => exact ⟨rfl, fun m hm => (AcquireAction.wait.inj hm).symm⟩
  | reuseH1 | reuseH2 | scale => exact ⟨rfl, fun m hm => (nomatch hm)⟩

/-- What a section does to the entries and the `Notify`s. -/
inductive NotifyMove (connectionsPerHost : ℕ) (p : PoolState) :
    Client → PoolState → Client → Prop where
  | quiet {c c' : Client} {p' : PoolState} : p'.hostPools = p.hostPools →
    p'.notifies = p.notifies → p'.nextNotify = p.nextNotify → p'.nextWaiter = p.nextWaiter →
    c.Outside → c'.Outside → NotifyMove connectionsPerHost p c p' c'
  | first {key : HostKey} {n : ℕ} : p.hostPools key = none →
    NotifyMove connectionsPerHost p (.locking key n)
      { p with
        hostPools :=
          Function.update p.hostPools key (some (HostPool.placeholder p.nextNotify))
        nextNotify := p.nextNotify + 1 }
      (.opening key true)
  | answered {key : HostKey} {n : ℕ} {poll poll' : SenderId → H2Status} {hp : HostPool} :
    p.hostPools key = some hp →
    NotifyMove connectionsPerHost p (.locking key n)
      { p with
        hostPools :=
          Function.update p.hostPools key (some (hostAction connectionsPerHost poll poll' hp).1) }
      (afterAction key n (hostAction connectionsPerHost poll poll' hp).2)
  | permit {key : HostKey} {n : ℕ} {m : NotifyId} : (p.notifies m).permit = true →
    NotifyMove connectionsPerHost p (.toWait key n m)
      (p.onNotify m fun x => { x with permit := false }) (nextAttempt key n)
  | enqueue {key : HostKey} {n : ℕ} {m : NotifyId} : (p.notifies m).permit = false →
    NotifyMove connectionsPerHost p (.toWait key n m)
      { p.onNotify m fun x => { x with waiters := x.waiters ++ [p.nextWaiter] } with
        nextWaiter := p.nextWaiter + 1 } (.waiting key n m p.nextWaiter)
  | woken {key : HostKey} {n : ℕ} {m : NotifyId} {t : ℕ} : t ∈ (p.notifies m).woken →
    NotifyMove connectionsPerHost p (.waiting key n m t)
      (p.onNotify m fun x => { x with woken := x.woken.erase t }) (nextAttempt key n)
  | inserted {key : HostKey} {isFirst : Bool} {conn : OpenedConnection} {hp : HostPool}
    {c' : Client} : p.hostPools key = some hp → 0 < hp.openingCount → c'.Outside →
    NotifyMove connectionsPerHost p (.opened key isFirst conn)
      { p with hostPools := Function.update p.hostPools key (some (hp.insert isFirst conn)) } c'
  | dropped {key : HostKey} {isFirst : Bool} {err : DownloadError} {hp : HostPool}
    {c' : Client} : p.hostPools key = some hp → hp.connections = [] → hp.openingCount = 1 →
    c'.Outside → NotifyMove connectionsPerHost p (.openFailed key isFirst err)
      { p with hostPools := Function.update p.hostPools key none } c'
  /-- An open or a connection is given back, and the `Notify` of the entry signalled. -/
  | ended {c : Client} {key : HostKey} {hp : HostPool} {c' : Client} :
    c.ending = some key → p.hostPools key = some hp → c'.Outside →
    NotifyMove connectionsPerHost p c
      ({ p with hostPools := Function.update p.hostPools key (some (hp.ended c)) }.signal
        (some hp.notify)) c'

namespace NotifyMove

variable {connectionsPerHost : ℕ} {p p' : PoolState}

theorem insert_opened {key : HostKey} {isFirst : Bool} {conn : OpenedConnection} {c' : Client}
    (h : clientStep connectionsPerHost p (.opened key isFirst conn) .insert = some (p', c')) :
    NotifyMove connectionsPerHost p (.opened key isFirst conn) p' c' := by
  rcases insertOpened_cases p.hostPools key isFirst conn with
    ⟨hp, hi⟩ | ⟨hp₀, hp, h0, hi⟩ | ⟨hp₀, hp, h0, hi⟩ <;>
    simp only [clientStep, hi, Option.some.injEq, Prod.mk.injEq] at h <;>
    obtain ⟨rfl, rfl⟩ := h
  · exact .quiet rfl rfl rfl rfl ⟨rfl, rfl⟩ ⟨rfl, rfl⟩
  · exact .quiet rfl rfl rfl rfl ⟨rfl, rfl⟩ ⟨rfl, rfl⟩
  · exact .inserted hp h0 ⟨rfl, rfl⟩

theorem insert_failed {key : HostKey} {isFirst : Bool} {err : DownloadError} {c' : Client}
    (h : clientStep connectionsPerHost p (.openFailed key isFirst err) .insert = some (p', c')) :
    NotifyMove connectionsPerHost p (.openFailed key isFirst err) p' c' := by
  rcases removeFailed_cases p.hostPools key with ⟨hp, hi⟩ | ⟨hp₀, hp, h0, hi⟩ |
    ⟨hp₀, hp, hnil, h1, hi⟩ | ⟨hp₀, hp, h0, -, hi⟩ <;>
    simp only [clientStep, hi, Option.some.injEq, Prod.mk.injEq] at h <;>
    obtain ⟨rfl, rfl⟩ := h
  · exact .quiet rfl rfl rfl rfl ⟨rfl, rfl⟩ ⟨rfl, rfl⟩
  · exact .quiet rfl rfl rfl rfl ⟨rfl, rfl⟩ ⟨rfl, rfl⟩
  · exact .dropped hp hnil h1 ⟨rfl, rfl⟩
  · exact .ended rfl hp ⟨rfl, rfl⟩

theorem finish {key : HostKey} {handle : PoolHandle}
    {result : Except DownloadError TransportResult} :
    NotifyMove connectionsPerHost p (.finishing key handle result)
      (finishConnection p key handle (usable result)) (.finished result) := by
  obtain ⟨sender, id⟩ := handle
  cases hp : p.hostPools key with
  | none =>
    have hkeep : finishConnection p key ⟨sender, id⟩ (usable result) = p := by
      unfold finishConnection
      cases sender with
      | h2 s => simp [notifyH2Complete, hp, PoolState.signal]
      | h1 s =>
        cases usable result <;>
          simp [returnH1Connection, removeDeadConnection, hp, PoolState.signal]
    rw [hkeep]
    exact .quiet rfl rfl rfl rfl ⟨rfl, rfl⟩ ⟨rfl, rfl⟩
  | some hp₀ =>
    have hend : finishConnection p key ⟨sender, id⟩ (usable result) =
        { p with hostPools := Function.update p.hostPools key (some (hp₀.ended
          (.finishing key ⟨sender, id⟩ result))) }.signal (some hp₀.notify) := by
      unfold finishConnection
      cases sender with
      | h2 s =>
        have hself : Function.update p.hostPools key (some hp₀) = p.hostPools := by
          rw [← hp, Function.update_eq_self]
        simp only [notifyH2Complete, hp, HostPool.ended, hself, Option.map_some]
      | h1 s =>
        cases hu : usable result <;>
          simp [returnH1Connection, removeDeadConnection, hp, hu, HostPool.ended]
    rw [hend]
    exact .ended rfl hp ⟨rfl, rfl⟩

theorem decide {key : HostKey} {n : ℕ} {poll poll' : SenderId → H2Status} {c' : Client}
    (h : clientStep connectionsPerHost p (.locking key n) (.decide poll poll') = some (p', c')) :
    NotifyMove connectionsPerHost p (.locking key n) p' c' := by
  simp only [clientStep, determineAction, Option.some.injEq, Prod.mk.injEq] at h
  obtain ⟨rfl, rfl⟩ := h
  cases hp : p.hostPools key with
  | none => exact .first hp
  | some hp₀ => exact .answered hp

/-- Every section of a client that is not cancelled and does not time out is one of the
moves. -/
theorem of_clientStep {c c' : Client} {e : ClientEvent}
    (h : clientStep connectionsPerHost p c e = some (p', c')) (hc : e ≠ .cancel)
    (ht : e ≠ .timer) : NotifyMove connectionsPerHost p c p' c' := by
  cases e with
  | start key =>
    cases c <;> simp only [clientStep, reduceCtorEq, Option.some.injEq, Prod.mk.injEq] at h
    obtain ⟨rfl, rfl⟩ := h
    exact .quiet rfl rfl rfl rfl ⟨rfl, rfl⟩ ⟨rfl, rfl⟩
  | decide poll poll' =>
    cases c with
    | locking key n => exact .decide h
    | _ => simp [clientStep] at h
  | register =>
    cases c with
    | toWait key n m =>
      simp only [clientStep] at h
      split_ifs at h with hm <;> obtain ⟨rfl, rfl⟩ := Prod.mk.inj (Option.some.inj h)
      · exact .permit hm
      · exact .enqueue (Bool.not_eq_true _ ▸ hm)
    | _ => simp [clientStep] at h
  | wake =>
    cases c with
    | waiting key n m t =>
      simp only [clientStep] at h
      split_ifs at h with hm
      obtain ⟨rfl, rfl⟩ := Prod.mk.inj (Option.some.inj h)
      exact .woken hm
    | _ => simp [clientStep] at h
  | timer => exact absurd rfl ht
  | connect r =>
    cases c with
    | opening key isFirst =>
      cases r <;> obtain ⟨rfl, rfl⟩ := Prod.mk.inj (Option.some.inj h) <;>
        exact .quiet rfl rfl rfl rfl ⟨rfl, rfl⟩ ⟨rfl, rfl⟩
    | _ => cases r <;> simp [clientStep] at h
  | insert =>
    cases c with
    | opened key isFirst conn => exact insert_opened h
    | openFailed key isFirst err => exact insert_failed h
    | _ => simp [clientStep] at h
  | respond r =>
    cases c <;> simp only [clientStep, reduceCtorEq, Option.some.injEq, Prod.mk.injEq] at h
    obtain ⟨rfl, rfl⟩ := h
    exact .quiet rfl rfl rfl rfl ⟨rfl, rfl⟩ ⟨rfl, rfl⟩
  | finish =>
    cases c <;> simp only [clientStep, reduceCtorEq, Option.some.injEq, Prod.mk.injEq] at h
    obtain ⟨rfl, rfl⟩ := h
    exact finish
  | leave =>
    cases c <;> simp only [clientStep, reduceCtorEq, Option.some.injEq, Prod.mk.injEq] at h
    obtain ⟨rfl, rfl⟩ := h
    exact .quiet rfl rfl rfl rfl ⟨rfl, rfl⟩ ⟨rfl, rfl⟩
  | cancel => exact absurd rfl hc

end NotifyMove

/-! ## The clients behind the waiters -/

namespace PoolState

variable {p : PoolState} {m m' : NotifyId} {f : Notify → Notify}

@[simp] theorem onNotify_notifies_self : (p.onNotify m f).notifies m = f (p.notifies m) :=
  Function.update_self ..

@[simp] theorem onNotify_notifies_of_ne (h : m' ≠ m) :
    (p.onNotify m f).notifies m' = p.notifies m' :=
  Function.update_of_ne h ..

/-- A change of one `Notify` that keeps its waiters keeps those of all. -/
theorem onNotify_listed (hf : (f (p.notifies m)).listed.Perm (p.notifies m).listed)
    (m' : NotifyId) : ((p.onNotify m f).notifies m').listed.Perm (p.notifies m').listed := by
  rcases eq_or_ne m' m with rfl | hne
  · rwa [onNotify_notifies_self]
  · rw [onNotify_notifies_of_ne hne]

end PoolState

namespace Pool

variable {ι : Type*} [DecidableEq ι] {connectionsPerHost : ℕ} {s s' : State ι} {i : ι}
  {c c' : Client}

/-- The waiters listed in a `Notify` are the clients registered with it. -/
structure Registered (s : State ι) : Prop where
  listed : ∀ m t, t ∈ (s.shared.notifies m).listed ↔
    ∃ i, (s.locals i).registration = some (m, t)
  nodup : ∀ m, (s.shared.notifies m).listed.Nodup
  unique : ∀ i j m t, (s.locals i).registration = some (m, t) →
    (s.locals j).registration = some (m, t) → i = j
  fresh : ∀ i m t, (s.locals i).registration = some (m, t) → t < s.shared.nextWaiter

theorem registered_init : Registered (init : State ι) :=
  ⟨fun _ _ => by simp [init, PoolState.new, Notify.new, Notify.listed, Client.registration],
    fun _ => List.nodup_nil, fun _ _ _ _ h => (nomatch h), fun _ _ _ h => (nomatch h)⟩

/-- A client trades its registration for a new one, or for none. -/
theorem registered_update (h : Registered s)
    (hloc : s'.locals = Function.update s.locals i c')
    (hlist : ∀ m t, t ∈ (s'.shared.notifies m).listed ↔
      (t ∈ (s.shared.notifies m).listed ∧ (s.locals i).registration ≠ some (m, t)) ∨
        c'.registration = some (m, t))
    (hnodup : ∀ m, (s'.shared.notifies m).listed.Nodup)
    (hnext : s.shared.nextWaiter ≤ s'.shared.nextWaiter)
    (hnew : ∀ m t, c'.registration = some (m, t) →
      s.shared.nextWaiter ≤ t ∧ t < s'.shared.nextWaiter) : Registered s' := by
  have hself : (s'.locals i).registration = c'.registration := by
    rw [hloc, Function.update_self]
  have hother : ∀ j, j ≠ i → (s'.locals j).registration = (s.locals j).registration :=
    fun j hj => by rw [hloc, Function.update_of_ne hj]
  -- the number of a new registration is none of the old ones
  have clash : ∀ {j m t}, (s.locals j).registration = some (m, t) →
      c'.registration ≠ some (m, t) := fun hj hc =>
    absurd (h.fresh _ _ _ hj) (Nat.not_lt.2 (hnew _ _ hc).1)
  refine ⟨fun m t => (hlist m t).trans ⟨?_, ?_⟩, hnodup, fun j k m t hj hk => ?_,
    fun j m t hj => ?_⟩
  · rintro (⟨hmem, hne⟩ | hc)
    · obtain ⟨j, hj⟩ := (h.listed m t).1 hmem
      exact ⟨j, (hother j fun hji => hne (hji ▸ hj)).trans hj⟩
    · exact ⟨i, hself.trans hc⟩
  · rintro ⟨j, hj⟩
    rcases eq_or_ne j i with rfl | hji
    · exact Or.inr (hself ▸ hj)
    · rw [hother j hji] at hj
      exact Or.inl ⟨(h.listed m t).2 ⟨j, hj⟩, fun hi => hji (h.unique j i m t hj hi)⟩
  · by_cases hji : j = i <;> by_cases hki : k = i
    · rw [hji, hki]
    · rw [hji, hself] at hj
      exact absurd hj (clash (hother k hki ▸ hk))
    · rw [hki, hself] at hk
      exact absurd hk (clash (hother j hji ▸ hj))
    · exact h.unique j k m t (hother j hji ▸ hj) (hother k hki ▸ hk)
  · rcases eq_or_ne j i with rfl | hji
    · exact (hnew m t (hself ▸ hj)).2
    · exact (h.fresh j m t (hother j hji ▸ hj)).trans_le hnext

/-- Sections that neither register a client nor take a registration away. -/
theorem registered_keep (h : Registered s) (hloc : s'.locals = Function.update s.locals i c')
    (hi : (s.locals i).registration = none) (hc : c'.registration = none)
    (hperm : ∀ m, (s'.shared.notifies m).listed.Perm (s.shared.notifies m).listed)
    (hnext : s'.shared.nextWaiter = s.shared.nextWaiter) : Registered s' :=
  registered_update h hloc (fun m t => by simp [(hperm m).mem_iff, hi, hc])
    (fun m => (hperm m).nodup_iff.2 (h.nodup m)) hnext.ge (by simp [hc])

/-- A client registers. -/
theorem registered_enqueue (h : Registered s) {key : HostKey} {n : ℕ} {m : NotifyId}
    (hi : (s.locals i).registration = none)
    (hloc : s'.locals = Function.update s.locals i (.waiting key n m s.shared.nextWaiter))
    (hq : s'.shared = { s.shared.onNotify m fun x =>
      { x with waiters := x.waiters ++ [s.shared.nextWaiter] } with
      nextWaiter := s.shared.nextWaiter + 1 }) : Registered s' := by
  have hself : (s'.shared.notifies m).listed.Perm
      (s.shared.nextWaiter :: (s.shared.notifies m).listed) := by
    rw [hq]
    simp only [PoolState.onNotify_notifies_self, Notify.listed, List.append_assoc,
      List.singleton_append]
    exact List.perm_middle
  have hother : ∀ m', m' ≠ m → s'.shared.notifies m' = s.shared.notifies m' :=
    fun m' hm => by rw [hq]; exact Function.update_of_ne hm ..
  have hnew : s.shared.nextWaiter ∉ (s.shared.notifies m).listed := fun hmem => by
    obtain ⟨j, hj⟩ := (h.listed m _).1 hmem
    exact (h.fresh j m _ hj).false
  refine registered_update h hloc (fun m' t => ?_) (fun m' => ?_) (by rw [hq]; exact Nat.le_succ _)
    fun m' t hreg => ?_
  · rw [hi]
    rcases eq_or_ne m' m with rfl | hm
    · rw [hself.mem_iff, List.mem_cons]
      simp [Client.registration, or_comm, eq_comm]
    · rw [hother m' hm]
      simp [Client.registration, hm.symm]
  · rcases eq_or_ne m' m with rfl | hm
    · exact hself.nodup_iff.2 (List.nodup_cons.2 ⟨hnew, h.nodup m'⟩)
    · exact hother m' hm ▸ h.nodup m'
  · obtain ⟨rfl, rfl⟩ := Prod.mk.inj (Option.some.inj hreg)
    rw [hq]
    exact ⟨Nat.le_refl _, Nat.lt_succ_self _⟩

/-- A woken client is polled. -/
theorem registered_woken (h : Registered s) {m : NotifyId} {t : ℕ}
    (hi : (s.locals i).registration = some (m, t)) (hc : c'.registration = none)
    (hloc : s'.locals = Function.update s.locals i c') (ht : t ∈ (s.shared.notifies m).woken)
    (hq : s'.shared = s.shared.onNotify m fun x => { x with woken := x.woken.erase t }) :
    Registered s' := by
  have hnot : t ∉ (s.shared.notifies m).waiters := fun hw =>
    (List.disjoint_of_nodup_append (h.nodup m)) hw ht
  have hself : (s'.shared.notifies m).listed = (s.shared.notifies m).listed.erase t := by
    rw [hq, PoolState.onNotify_notifies_self, Notify.listed, Notify.listed,
      List.erase_append_right _ hnot]
  have hother : ∀ m', m' ≠ m → s'.shared.notifies m' = s.shared.notifies m' :=
    fun m' hm => by rw [hq, PoolState.onNotify_notifies_of_ne hm]
  refine registered_update h hloc (fun m' u => ?_) (fun m' => ?_) (by rw [hq]; exact Nat.le_refl _)
    (by simp [hc])
  · rw [hi]
    rcases eq_or_ne m' m with rfl | hm
    · rw [hself, (h.nodup m').mem_erase_iff]
      simp [hc, and_comm, eq_comm]
    · rw [hother m' hm]
      simp [hc, hm.symm]
  · rcases eq_or_ne m' m with rfl | hm
    · exact hself ▸ (h.nodup m').erase _
    · exact hother m' hm ▸ h.nodup m'

theorem registered_step (h : Registered s)
    (hm : NotifyMove connectionsPerHost s.shared (s.locals i) s'.shared c')
    (hloc : s'.locals = Function.update s.locals i c') : Registered s' := by
  generalize hc : s.locals i = c at hm
  generalize hq : s'.shared = q at hm
  have keep : c.registration = none → c'.registration = none →
      (∀ m, (q.notifies m).listed.Perm (s.shared.notifies m).listed) →
      q.nextWaiter = s.shared.nextWaiter → Registered s' := by
    rw [← hc, ← hq]
    exact fun hi hc' => registered_keep h hloc hi hc'
  cases hm with
  | quiet _ hn _ hw ho ho' =>
    exact keep (Client.registration_of_waitsAt ho.waitsAt)
      (Client.registration_of_waitsAt ho'.waitsAt) (fun _ => by rw [hn]) hw
  | first _ => exact keep rfl rfl (fun _ => List.Perm.refl _) rfl
  | @answered _ _ _ _ hp₀ _ =>
    refine keep rfl ?_ (fun _ => List.Perm.refl _) rfl
    generalize (hostAction _ _ _ hp₀).2 = a
    cases a <;> rfl
  | permit _ =>
    exact keep rfl (Client.registration_of_waitsAt (nextAttempt_waitsAt _ _))
      (PoolState.onNotify_listed (List.Perm.refl _)) rfl
  | enqueue _ => exact registered_enqueue h (hc ▸ rfl) hloc hq
  | woken ht =>
    exact registered_woken h (hc ▸ rfl)
      (Client.registration_of_waitsAt (nextAttempt_waitsAt _ _)) hloc ht hq
  | inserted _ _ ho' =>
    exact keep rfl (Client.registration_of_waitsAt ho'.waitsAt) (fun _ => List.Perm.refl _) rfl
  | dropped _ _ _ ho' =>
    exact keep rfl (Client.registration_of_waitsAt ho'.waitsAt) (fun _ => List.Perm.refl _) rfl
  | ended he _ ho' =>
    have hreg : c.registration = none := by cases c <;> first | rfl | cases he
    exact keep hreg (Client.registration_of_waitsAt ho'.waitsAt)
      (PoolState.onNotify_listed (Notify.listed_notifyOne _)) rfl

/-! ## The keys behind the `Notify`s -/

/-- A `Notify` belongs to the key of the entry it was made for, with the clients that
entry told to wait. -/
structure Owned (owner : NotifyId → HostKey) (s : State ι) : Prop where
  entry : ∀ k hp, s.shared.hostPools k = some hp →
    hp.notify < s.shared.nextNotify ∧ owner hp.notify = k
  client : ∀ i k m, (s.locals i).waitsAt = some (k, m) → m < s.shared.nextNotify ∧ owner m = k

variable {owner : NotifyId → HostKey}

theorem owned_init : Owned owner (init : State ι) :=
  ⟨fun _ _ h => (nomatch h), fun _ _ _ h => (nomatch h)⟩

/-- `q` has no entry that `p` has not, and the entries keep their `Notify`s. -/
def SameNotifies (p q : PoolState) : Prop :=
  ∀ k hp', q.hostPools k = some hp' → ∃ hp, p.hostPools k = some hp ∧ hp'.notify = hp.notify

theorem sameNotifies_of_eq {p q : PoolState} (h : q.hostPools = p.hostPools) :
    SameNotifies p q :=
  fun _ hp' hk => ⟨hp', h ▸ hk, rfl⟩

theorem sameNotifies_update {p q : PoolState} {key : HostKey} {hp hp' : HostPool}
    (hk : p.hostPools key = some hp)
    (hq : q.hostPools = Function.update p.hostPools key (some hp'))
    (hn : hp'.notify = hp.notify) : SameNotifies p q := by
  intro k hp₁ hk₁
  rw [hq] at hk₁
  rcases update_eq_some hk₁ with ⟨rfl, rfl⟩ | ⟨-, hk₁⟩
  · exact ⟨hp, hk, hn⟩
  · exact ⟨hp₁, hk₁, rfl⟩

theorem owned_keep (h : Owned owner s) (hloc : s'.locals = Function.update s.locals i c')
    (hent : SameNotifies s.shared s'.shared)
    (hnext : s'.shared.nextNotify = s.shared.nextNotify)
    (hc : ∀ k m, c'.waitsAt = some (k, m) → m < s.shared.nextNotify ∧ owner m = k) :
    Owned owner s' := by
  refine ⟨fun k hp' hk => ?_, fun j k m hj => ?_⟩
  · obtain ⟨hp, hk, hn⟩ := hent k hp' hk
    rw [hn, hnext]
    exact h.entry k hp hk
  · rw [hnext]
    rw [hloc] at hj
    rcases eq_or_ne j i with rfl | hji
    · exact hc k m (by rwa [Function.update_self] at hj)
    · exact h.client j k m (by rwa [Function.update_of_ne hji] at hj)

/-- A new entry makes its own `Notify`. -/
theorem owned_first (h : Owned owner s) (hloc : s'.locals = Function.update s.locals i c')
    {key : HostKey} (hc : c'.waitsAt = none)
    (hpools : s'.shared.hostPools = Function.update s.shared.hostPools key
      (some (HostPool.placeholder s.shared.nextNotify)))
    (hnext : s'.shared.nextNotify = s.shared.nextNotify + 1) :
    Owned (Function.update owner s.shared.nextNotify key) s' := by
  have old : ∀ {m k}, m < s.shared.nextNotify ∧ owner m = k →
      m < s'.shared.nextNotify ∧ Function.update owner s.shared.nextNotify key m = k := by
    rintro m k ⟨hlt, ho⟩
    exact ⟨hnext ▸ hlt.trans (Nat.lt_succ_self _), by rwa [Function.update_of_ne hlt.ne]⟩
  refine ⟨fun k hp hk => ?_, fun j k m hj => ?_⟩
  · rw [hpools] at hk
    rcases update_eq_some hk with ⟨rfl, rfl⟩ | ⟨-, hk⟩
    · exact ⟨hnext ▸ Nat.lt_succ_self _, Function.update_self ..⟩
    · exact old (h.entry k hp hk)
  · rw [hloc] at hj
    rcases eq_or_ne j i with rfl | hji
    · simp [hc] at hj
    · exact old (h.client j k m (by rwa [Function.update_of_ne hji] at hj))

theorem owned_step (h : Owned owner s)
    (hm : NotifyMove connectionsPerHost s.shared (s.locals i) s'.shared c')
    (hloc : s'.locals = Function.update s.locals i c') : ∃ owner', Owned owner' s' := by
  generalize hc : s.locals i = c at hm
  generalize hq : s'.shared = q at hm
  have keep : SameNotifies s.shared q → q.nextNotify = s.shared.nextNotify →
      (∀ k m, c'.waitsAt = some (k, m) → m < s.shared.nextNotify ∧ owner m = k) →
      ∃ owner', Owned owner' s' := by
    rw [← hq]
    exact fun hent hn hc' => ⟨owner, owned_keep h hloc hent hn hc'⟩
  have none_waits : c'.waitsAt = none →
      ∀ k m, c'.waitsAt = some (k, m) → m < s.shared.nextNotify ∧ owner m = k :=
    fun hn k m hk => (nomatch hn.symm.trans hk)
  cases hm with
  | quiet hp _ hn _ _ ho' => exact keep (sameNotifies_of_eq hp) hn (none_waits ho'.waitsAt)
  | first _ => exact ⟨_, owned_first h hloc rfl (by rw [hq]) (by rw [hq])⟩
  | @answered key n poll poll' hp₀ hk =>
    have hn := (hostAction_cases connectionsPerHost poll poll' hp₀).notify_eq
    refine keep (sameNotifies_update hk rfl hn.1) rfl fun k m hw => ?_
    obtain ⟨rfl, ha⟩ := afterAction_waitsAt.1 hw
    rw [hn.2 m ha]
    exact h.entry _ _ hk
  | permit _ => exact keep (sameNotifies_of_eq rfl) rfl (none_waits (nextAttempt_waitsAt _ _))
  | enqueue _ =>
    refine keep (sameNotifies_of_eq rfl) rfl fun k m hw => h.client i k m ?_
    rw [hc]
    exact hw
  | woken _ => exact keep (sameNotifies_of_eq rfl) rfl (none_waits (nextAttempt_waitsAt _ _))
  | inserted hk _ ho' => exact keep (sameNotifies_update hk rfl rfl) rfl (none_waits ho'.waitsAt)
  | @dropped key _ _ _ _ _ _ _ ho' =>
    refine keep (fun k hp' hk' => ⟨hp', ?_, rfl⟩) rfl (none_waits ho'.waitsAt)
    rcases eq_or_ne k key with rfl | hne
    · simp at hk'
    · simpa [Function.update_of_ne hne] using hk'
  | ended _ hk ho' =>
    exact keep (sameNotifies_update hk (PoolState.signal_hostPools _ _)
      (HostPool.ended_notify _ _)) rfl (none_waits ho'.waitsAt)

end Pool

end Imgdl
