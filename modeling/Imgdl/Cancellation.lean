import Imgdl.Batch
import Imgdl.Checkout

/-!
# Cancellation and the capacity of the pool

The tasks of all batches of a downloader are clients of its pool (`poolState`) : what a
step of a task does to the pool is a run of its client (`TaskMove.clientRun`), so a run of
the downloader is a run of the pool (`simulates`).

A task that is cancelled, or panics, with an open in flight or with a handle leaves its
count or its empty slot in the pool for good (`capacity_leaked`). In every other run, once
all tasks have ended, nothing is counted as opening or checked out.
-/

set_option linter.unusedSectionVars false

namespace Imgdl

open Transition Interleaving

variable {env : Env} {config : Config}

/-- The events by which a task ends without finishing its attempt. -/
def Unwinds (env : Env) (config : Config) (t : Task) : TaskEvent → Prop
  | .panic => True
  | .cancel => True
  | .request replies => ∃ home sem leg n key handle,
    t.stage = .working home sem (.attempt leg n (.requesting key handle)) ∧
      (executeTarget env config (leg.target home) replies).2 = none
  | _ => False

/-- The sections of one client, one after the other. -/
abbrev clientRun (config : Config) :
    PoolState × Client → List ClientEvent → Option (PoolState × Client) :=
  run fun x e => clientStep config.connectionsPerHost x.1 x.2 e

/-- What a section of a task does to the pool is a run of its client, and a cancellation
is among the events only where the task unwinds. -/
theorem TaskMove.clientRun {p p' : PoolState} {sc sc' : Scope} {t t' : Task} {e : TaskEvent}
    (hm : TaskMove env config p sc t e p' sc' t') : ∃ ces,
      Imgdl.clientRun config (p, t.stage.client) ces = some (p', t'.stage.client) ∧
        ((∀ ce ∈ ces, ce ≠ .cancel) ∨ (ces = [.cancel] ∧ Unwinds env config t e)) := by
  have none_ : ∀ {ce : ClientEvent}, ce ∈ ([] : List ClientEvent) → ce ≠ .cancel :=
    fun h => (nomatch h)
  cases hm with
  | rejected hs | accepted hs | acquireGlobal hs | lockFound hs | lockFresh hs
  | imageFailed hs | imageDone hs | sidecar hs | sidecarDone hs =>
    exact ⟨[], by rw [hs]; rfl, Or.inl fun _ => none_⟩
  | perform => exact ⟨[], rfl, Or.inl fun _ => none_⟩
  | @acquireHost home _ hs =>
    exact ⟨[.start home.key], by rw [hs]; rfl, Or.inl (by simp)⟩
  | @resume home _ leg _ _ hs =>
    exact ⟨[.start (leg.target home).key], by rw [hs]; rfl, Or.inl (by simp)⟩
  | @pool _ _ _ _ c c' e _ hs hin hstep =>
    refine ⟨[e], ?_, Or.inl fun ce hce => ?_⟩
    · rw [hs]
      exact run_singleton hstep
    · obtain rfl := List.mem_singleton.1 hce
      rintro rfl
      cases hin
  | @answered _ _ _ _ key handle _ _ result hs _ =>
    exact ⟨[.respond result], by rw [hs]; rfl, Or.inl (by simp)⟩
  | burst hs hexec =>
    refine ⟨[.cancel], by rw [hs]; rfl, Or.inr ⟨rfl, _, _, _, _, _, _, hs, ?_⟩⟩
    rw [hexec]
  | retry hs | failed hs | store hs | unnamed hs =>
    exact ⟨[.leave], by rw [hs]; rfl, Or.inl (by simp)⟩
  | @redirect _ target _ _ _ _ _ _ _ hs _ =>
    exact ⟨[.leave, .start target.key], by rw [hs]; rfl, Or.inl (by simp)⟩
  | stopped _ he hstep =>
    refine ⟨[.cancel], ?_, Or.inr ⟨rfl, ?_⟩⟩
    · rcases he with ⟨-, rfl⟩ | ⟨-, rfl⟩ <;> exact run_singleton hstep
    · rcases he with ⟨rfl, -⟩ | ⟨rfl, -⟩ <;> exact trivial

namespace Downloader

/-- The client of a task, idle where there is no task. -/
def taskClient : Option Task → Client
  | some t => t.stage.client
  | none => .idle

/-- The client of a task of a call. -/
def clientOf (s : State) (i : ℕ × ℕ) : Client :=
  taskClient ((s.locals i.1).bind fun b => b.tasks i.2)

/-- The pool with the tasks of all calls as its clients. -/
def poolState (s : State) : Pool.State (ℕ × ℕ) :=
  ⟨s.shared, clientOf s⟩

/-- No task unwinds with an open in flight or with a handle. -/
def KeepsWork (env : Env) (config : Config) (s : State) (e : ℕ × DownloaderEvent) : Prop :=
  ∀ b j te t, s.locals e.1 = some b → e.2 = .batch (.task j te) → b.tasks j = some t →
    Unwinds env config t te →
      (∀ key, ¬t.stage.client.InFlight key) ∧ t.stage.client.lease = none

variable {s s' : State} {k : ℕ}

theorem clientOf_eq {b : Batch} {j : ℕ} {t : Task} (hb : s.locals k = some b)
    (ht : b.tasks j = some t) : clientOf s (k, j) = t.stage.client := by
  simp [clientOf, taskClient, hb, ht]

/-- Steps of a call that leave its tasks alone leave the pool and its clients alone. -/
theorem poolState_same {o : Option Batch} (hsh : s'.shared = s.shared)
    (hl : s'.locals = Function.update s.locals k o)
    (htasks : ∀ j, taskClient (o.bind fun b => b.tasks j) = clientOf s (k, j)) :
    poolState s' = poolState s := by
  have hc : clientOf s' = clientOf s := by
    funext i
    obtain ⟨k', j⟩ := i
    rcases eq_or_ne k' k with rfl | hk
    · rw [← htasks j, clientOf, hl, Function.update_self]
    · simp only [clientOf, hl, Function.update_of_ne hk]
  rw [poolState, poolState, hsh, hc]

/-- A step of a task changes its client only. -/
theorem poolState_task {b b' : Batch} {j : ℕ} {t' : Task} (hb : s.locals k = some b)
    (hl : s'.locals = Function.update s.locals k (some b'))
    (htasks : b'.tasks = Function.update b.tasks j (some t')) :
    poolState s' = ⟨s'.shared, Function.update (clientOf s) (k, j) t'.stage.client⟩ := by
  have hc : clientOf s' = Function.update (clientOf s) (k, j) t'.stage.client := by
    funext i
    obtain ⟨k', j'⟩ := i
    rcases eq_or_ne k' k with rfl | hk
    · rcases eq_or_ne j' j with rfl | hj
      · simp [clientOf, taskClient, hl, htasks]
      · simp [clientOf, hl, htasks, hj, hb]
    · simp [clientOf, hl, hk]
  rw [poolState, hc]

/-- What a step of a task is, to the pool. -/
theorem step_task {j : ℕ} {te : TaskEvent}
    (hs : step env config s (k, .batch (.task j te)) = some s') : ∃ b t t' sc',
      s.locals k = some b ∧ b.tasks j = some t ∧
      TaskMove env config s.shared b.scope t te s'.shared sc' t' ∧
      poolState s' = ⟨s'.shared, Function.update (clientOf s) (k, j) t'.stage.client⟩ := by
  obtain ⟨o, hp, hl⟩ := Par.step_eq_some.1 hs
  cases hb : s.locals k with
  | none => simp [hb, callStep] at hp
  | some b =>
    have hp' : (batchStep env config s.shared b (.task j te)).map (fun r => (r.1, some r.2)) =
        some (s'.shared, o) := by simpa [hb, callStep] using hp
    obtain ⟨⟨q, b'⟩, hstep, heq⟩ := Option.map_eq_some_iff.1 hp'
    obtain ⟨rfl, rfl⟩ := Prod.mk.inj heq
    obtain ⟨t, sc', t', ht, hts, rfl⟩ := batchStep_task hstep
    exact ⟨b, t, t', sc', rfl, ht, taskStep_cases hts, poolState_task hb hl rfl⟩

/-- Any other step leaves the pool and its clients alone. -/
theorem step_call {e : DownloaderEvent} (he : ∀ j te, e ≠ .batch (.task j te))
    (hs : step env config s (k, e) = some s') : poolState s' = poolState s := by
  obtain ⟨o, hp, hl⟩ := Par.step_eq_some.1 hs
  cases hb : s.locals k with
  | none =>
    cases e with
    | batch e => simp [hb, callStep] at hp
    | call urls outputDir mkdir =>
      obtain ⟨hsh, rfl⟩ : _ ∧ _ := by simpa [hb, callStep] using hp
      refine poolState_same hsh.symm hl fun j => ?_
      have hidle : clientOf s (k, j) = .idle := by simp [clientOf, taskClient, hb]
      rw [hidle, Option.bind_some]
      have hstart := start_cases config urls outputDir mkdir
      generalize Batch.start config urls outputDir mkdir = b at hstart
      cases hstart with
      | empty | failed => rfl
      | spawned =>
        cases ht : (dedup urls)[j]? <;> simp [spawnTasks, ht, taskClient, Task.spawn, Stage.client]
  | some b =>
    obtain ⟨be, b', rfl, hb', hm⟩ := step_some hs hb
    obtain rfl : o = some b' := by rw [hl, Function.update_self] at hb'; exact hb'
    have same : s'.shared = s.shared → b'.tasks = b.tasks → poolState s' = poolState s :=
      fun hsh htasks => poolState_same hsh hl fun j => by
        rw [clientOf, hb, Option.bind_some, Option.bind_some, htasks]
    generalize s'.shared = q at hm same
    cases hm with
    | task => exact absurd rfl (he _ _)
    | joined | joinedPanic | summaryPerformed | summarized => exact same rfl rfl
    | closed =>
      refine same rfl ?_
      rw [close_eq]

/-- A step of the downloader is a run of its pool, with a cancellation only where a task
unwinds. -/
theorem step_runs {e : ℕ × DownloaderEvent} (hs : step env config s e = some s') : ∃ es,
    run (Pool.step config.connectionsPerHost) (poolState s) es = some (poolState s') ∧
      ((∀ ce ∈ es, ce.2 ≠ .cancel) ∨ ∃ b j te t, s.locals e.1 = some b ∧
        e.2 = .batch (.task j te) ∧ b.tasks j = some t ∧ Unwinds env config t te ∧
        es = [((e.1, j), .cancel)]) := by
  obtain ⟨k, e⟩ := e
  by_cases he : ∃ j te, e = .batch (.task j te)
  · obtain ⟨j, te, rfl⟩ := he
    obtain ⟨b, t, t', sc', hb, ht, hm, hpool⟩ := step_task hs
    obtain ⟨ces, hrun, hces⟩ := hm.clientRun
    refine ⟨ces.map fun e => ((k, j), e), ?_, ?_⟩
    · rw [hpool]
      refine Par.run_local ?_
      rw [← clientOf_eq hb ht] at hrun
      exact hrun
    · rcases hces with hno | ⟨rfl, hu⟩
      · refine Or.inl fun e he => ?_
        obtain ⟨ce, hce, rfl⟩ := List.mem_map.1 he
        exact hno ce hce
      · exact Or.inr ⟨b, j, te, t, hb, rfl, ht, hu, rfl⟩
  · have hpool := step_call (fun j te heq => he ⟨j, te, heq⟩) hs
    exact ⟨[], by rw [hpool]; rfl, Or.inl (by simp)⟩

/-- A step that keeps its work is a run of the pool that does. -/
theorem step_simulates {e : ℕ × DownloaderEvent} (hok : KeepsWork env config s e)
    (hs : step env config s e = some s') : ∃ es,
      run (Pool.step config.connectionsPerHost) (poolState s) es = some (poolState s') ∧
        Meets (Pool.step config.connectionsPerHost) Pool.KeepsWork (poolState s) es := by
  obtain ⟨es, hr, hno | ⟨b, j, te, t, hb, he, ht, hu, rfl⟩⟩ := step_runs hs
  · exact ⟨es, hr, Meets.of_events (fun _ _ hne he => absurd he hne) hno⟩
  · refine ⟨_, hr, fun _ => ?_, fun _ _ => trivial⟩
    have hkeep := hok b j te t hb he ht hu
    rwa [← clientOf_eq hb ht] at hkeep

/-- The pool of a state the downloader reaches is one its clients reach. -/
theorem reaches_poolState (h : Reaches (step env config) init s) :
    Reaches (Pool.step config.connectionsPerHost) Pool.init (poolState s) :=
  h.invariant (I := fun s => Reaches (Pool.step config.connectionsPerHost) Pool.init (poolState s))
    (fun _ _ _ hr hs => by
      obtain ⟨es, hrun, -⟩ := step_runs hs
      exact hr.trans ⟨es, hrun⟩) (.refl _)

/-- A run of the downloader is a run of its pool. -/
theorem simulates {es : List (ℕ × DownloaderEvent)}
    (hr : run (step env config) init es = some s)
    (hm : Meets (step env config) (KeepsWork env config) init es) : ∃ es',
      run (Pool.step config.connectionsPerHost) Pool.init es' = some (poolState s) ∧
        Meets (Pool.step config.connectionsPerHost) Pool.KeepsWork Pool.init es' :=
  run_simulates (I := fun _ => True) poolState (fun _ _ _ _ _ _ => trivial)
    (fun _ _ _ _ hok hs => step_simulates hok hs) trivial hm hr

/-- Once all tasks of a run that keeps its work have ended, no entry of the pool counts
an open or has a checked-out connection, and an acquire waits only for connections that
are in the pool. -/
theorem capacity_kept {es : List (ℕ × DownloaderEvent)}
    (hr : run (step env config) init es = some s)
    (hm : Meets (step env config) (KeepsWork env config) init es)
    (hend : ∀ k b j t, s.locals k = some b → b.tasks j = some t → t.stage.alive = false)
    {key : HostKey} {hp : HostPool} (hk : s.shared.hostPools key = some hp) :
    hp.openingCount = 0 ∧ (∀ id, ⟨id, .h1 none⟩ ∉ hp.connections) ∧
      ∀ poll poll' fresh notify, (determineAction config.connectionsPerHost poll poll'
        s.shared.hostPools fresh key).2 = .wait notify →
          config.connectionsPerHost ≤ hp.connections.length := by
  obtain ⟨es', hr', hm'⟩ := simulates hr hm
  obtain ⟨hi, hbal⟩ := Pool.balanced_of_run hr' hm'
  have hidle : ∀ i, clientOf s i = .idle := by
    rintro ⟨k, j⟩
    cases hb : s.locals k with
    | none => simp [clientOf, taskClient, hb]
    | some b =>
      cases ht : b.tasks j with
      | none => simp [clientOf, taskClient, hb, ht]
      | some t =>
        rw [clientOf_eq hb ht]
        have halive := hend k b j t hb ht
        cases hst : t.stage <;> first | rfl | simp [hst, Stage.alive] at halive
  have hquiet := hbal.quiet hi (fun i => by
    rw [show (poolState s).locals i = .idle from hidle i]
    exact ⟨fun _ => id, rfl⟩) hk
  refine ⟨hquiet.1, hquiet.2, fun poll poll' fresh notify hw => ?_⟩
  rw [determineAction, hk] at hw
  have ha := hostAction_cases config.connectionsPerHost poll poll' hp
  simp only at hw
  rw [hw] at ha
  generalize (hostAction config.connectionsPerHost poll poll' hp).1 = hp' at ha
  cases ha with
  | wait hpr hle =>
    have := hpr.1.length_le
    omega

/-- A task up to the answer that it is to open a connection. -/
def openRun : List (ℕ × DownloaderEvent) :=
  [(0, .call ["http://h/a.png"] "out" (.ok ())), (0, .batch (.task 0 (.poll 0))),
    (0, .batch (.task 0 .acquireGlobal)), (0, .batch (.task 0 .lockHostSems)),
    (0, .batch (.task 0 .acquireHost)),
    (0, .batch (.task 0 (.pool (.decide (fun _ => .ready) fun _ => .ready))))]

/-- The deadline fires while the task waits for the reply on an HTTP/2 connection. -/
def h2Run : List (ℕ × DownloaderEvent) :=
  openRun ++ [(0, .batch (.task 0 (.pool (.connect (.ok .http2))))),
    (0, .batch (.task 0 (.pool .insert))), (0, .batch (.deadline (fun _ => 0) 0)),
    (0, .batch (.task 0 .cancel))]

theorem capacity_kept_h2Run : ∃ s hp, run (step oneUrl timed) init h2Run = some s ∧
    s.shared.hostPools ("h", 80) = some hp ∧ hp.openingCount = 0 ∧
    ∀ id, ⟨id, .h1 none⟩ ∉ hp.connections := by
  have quiet : ∀ {s : State} {k : ℕ} {e : BatchEvent}, (∀ j te, e = .task j te →
      ∀ t, ¬Unwinds oneUrl timed t te) → KeepsWork oneUrl timed s (k, .batch e) := by
    rintro s k e he b j te t - ⟨⟩ - hu
    exact absurd hu (he j te rfl t)
  have plain : ∀ {s : State} {k j : ℕ} {te : TaskEvent}, (∀ t, ¬Unwinds oneUrl timed t te) →
      KeepsWork oneUrl timed s (k, .batch (.task j te)) := fun h =>
    quiet fun j te he => by
      obtain ⟨-, rfl⟩ := BatchEvent.task.inj he
      exact h
  have hm : Meets (step oneUrl timed) (KeepsWork oneUrl timed) init h2Run :=
    .cons rfl (fun _ _ _ _ h => (nomatch h)) <| .cons rfl (plain fun _ => id) <|
      .cons rfl (plain fun _ => id) <| .cons rfl (plain fun _ => id) <|
      .cons rfl (plain fun _ => id) <| .cons rfl (plain fun _ => id) <|
      .cons rfl (plain fun _ => id) <| .cons rfl (plain fun _ => id) <|
      .cons rfl (quiet fun _ _ h => (nomatch h)) <|
      .cons rfl (fun b j te t hb he ht _ => by
        cases he
        cases hb
        cases ht
        exact ⟨fun _ => id, rfl⟩) trivial
  obtain ⟨s, hp, hr, hend, hk⟩ : ∃ s hp, run (step oneUrl timed) init h2Run = some s ∧
      (∀ k b j t, s.locals k = some b → b.tasks j = some t → t.stage.alive = false) ∧
      s.shared.hostPools ("h", 80) = some hp := by
    refine ⟨_, _, rfl, fun k b j t hb ht => ?_, rfl⟩
    cases k with
    | zero =>
      cases hb
      cases j with
      | zero =>
        cases ht
        rfl
      | succ j => cases ht
    | succ k => cases hb
  have hkept := capacity_kept hr hm hend hk
  exact ⟨s, hp, hr, hk, hkept.1, hkept.2.1⟩

/-- The deadline fires while the task opens a connection, and the task is cancelled. -/
def leakRun : List (ℕ × DownloaderEvent) :=
  openRun ++ [(0, .batch (.deadline (fun _ => 0) 0)), (0, .batch (.task 0 .cancel))]

/-- No task is left, but the entry counts an open, and every later acquire waits. -/
theorem capacity_leaked : ∃ s hp, run (step oneUrl timed) init leakRun = some s ∧
    (∀ k b j t, s.locals k = some b → b.tasks j = some t → t.stage.alive = false) ∧
    s.shared.hostPools ("h", 80) = some hp ∧ hp.openingCount = 1 ∧
    ∀ poll poll' fresh, (determineAction timed.connectionsPerHost poll poll'
      s.shared.hostPools fresh ("h", 80)).2 = .wait hp.notify := by
  refine ⟨_, _, rfl, fun k b j t hb ht => ?_, rfl, rfl, fun _ _ _ => rfl⟩
  cases k with
  | zero =>
    cases hb
    cases j with
    | zero =>
      cases ht
      rfl
    | succ j => cases ht
  | succ k => cases hb

end Downloader

end Imgdl
