import Imgdl.Assembly
import Imgdl.Cancellation
import Imgdl.CrossHost
import Imgdl.Potential
import Imgdl.PythonConfig
import Imgdl.Redirects
import Imgdl.ReportedRetries

/-!
# Every call returns

`Batch.rank` is a potential of a call : what is left of its tasks, its join set, its phase
and its summary. An attempt waits for the pool at most `MAX_ACQUIRE_ATTEMPTS` times, a phase
re-runs an attempt at most `max_retries` times, and there are at most two phases, so every
step of a call lowers it (`BatchMove.rank_lt`).

Until a call has returned one of its steps can be taken that takes no task down, but for one that
can only panic (`exists_batchStep`). So it takes a bounded number of steps (`steps_bounded`), and
can always be led to its return (`call_returns`).
-/

set_option linter.unusedSectionVars false

namespace Imgdl

open Transition Interleaving

/-! ## The potential of a call -/

/-- What is left of an attempt. Each iteration of `acquire` waits once at most. -/
def Client.rank : Client → ℕ
  | locking _ n => 3 * (MAX_ACQUIRE_ATTEMPTS - n) + 6
  | toWait _ n _ => 3 * (MAX_ACQUIRE_ATTEMPTS - n) + 5
  | waiting _ n _ _ => 3 * (MAX_ACQUIRE_ATTEMPTS - n) + 4
  | opening _ _ => 5
  | opened _ _ _ => 4
  | openFailed _ _ _ => 2
  | requesting _ _ => 3
  | finishing _ _ _ => 2
  | finished _ => 1
  | idle => 0
  | panicked => 0

/-- What a job is still to do. -/
def Job.rank : Job → ℕ
  | .queued _ => 1
  | _ => 0

section Rank

variable (config : Config)

/-- The steps of all attempts of a phase after the current one. -/
def retriesRank (n : UInt32) : ℕ :=
  103 * (config.maxRetries.toNat - n.toNat)

/-- What follows the last attempt of a phase. -/
def Leg.rank : Leg → ℕ
  | origin => 103 * config.maxRetries.toNat + 106
  | crossHost _ _ => 4

/-- What is left of the work under both permits. -/
def Work.rank : Work → ℕ
  | attempt leg n c => c.rank + retriesRank config n + leg.rank config
  | backoff leg n _ => retriesRank config n + leg.rank config
  | imageWrite _ => 3
  | sidecarWrite _ => 1

/-- What is left of a task at a stage. -/
def Stage.rank : Stage → ℕ
  | spawned => 206 * config.maxRetries.toNat + 212
  | globalWait _ => 206 * config.maxRetries.toNat + 211
  | hostLock _ => 206 * config.maxRetries.toNat + 210
  | hostWait _ _ => 206 * config.maxRetries.toNat + 209
  | working _ _ work => work.rank config
  | _ => 0

/-- What is left of a task. -/
def Task.rank (t : Task) : ℕ :=
  t.stage.rank config + t.job.rank

/-- What is left of a task, if there is one. -/
def taskRank (o : Option Task) : ℕ :=
  o.elim 0 (Task.rank config)

/-- What is left of a call besides its tasks and its join set. -/
def Phase.rank : Phase → ℕ
  | .collecting => 3
  | .summarizing _ => 1
  | .returned _ => 0

/-- What is left of a call. -/
def Batch.rank (b : Batch) : ℕ :=
  total (taskRank config) b.tasks (dedup b.urls).length + b.joinSet.length + b.phase.rank +
    b.summaryJob.rank

/-- The most steps of a call for these URLs. -/
def stepBound (urls : List String) : ℕ :=
  (dedup urls).length * (206 * (config.maxRetries.toNat + 1) + 7) + 3

end Rank

variable {env : Env} {config : Config} {p p' : PoolState} {sc sc' : Scope} {t t' : Task}
  {b b' : Batch}

theorem one_le_rank_of_alive {st : Stage} (h : st.alive = true) : 1 ≤ st.rank config := by
  cases st with
  | working home sem work =>
    cases work with
    | attempt leg | backoff leg =>
      cases leg <;> simp only [Stage.rank, Work.rank, Leg.rank] <;> omega
    | imageWrite | sidecarWrite => simp [Stage.rank, Work.rank]
  | returned | panicked | cancelled => cases h
  | _ => simp [Stage.rank]

/-- The next iteration of `acquire` is closer to its end. -/
theorem rank_nextAttempt (key : HostKey) (n : ℕ) :
    (nextAttempt key n).rank < 3 * (MAX_ACQUIRE_ATTEMPTS - n) + 4 := by
  unfold nextAttempt
  split_ifs with h
  · simp only [Client.rank]
    omega
  · simp only [Client.rank]
    omega

/-- Every section of an attempt lowers what is left of it. -/
theorem clientStep_rank {connectionsPerHost : ℕ} {c c' : Client} {e : ClientEvent}
    (he : e.inPool = true) (h : clientStep connectionsPerHost p c e = some (p', c')) :
    c'.rank < c.rank := by
  cases e with
  | start | respond | leave | cancel => cases he
  | decide poll poll' =>
    cases c <;> simp only [clientStep, reduceCtorEq, Option.some.injEq, Prod.mk.injEq] at h
    obtain ⟨-, rfl⟩ := h
    generalize (determineAction _ _ _ _ _ _).2 = a
    cases a <;> simp only [afterAction, Client.rank] <;> omega
  | register =>
    cases c <;> simp only [clientStep, reduceCtorEq] at h
    split_ifs at h <;> obtain ⟨-, rfl⟩ := Prod.mk.inj (Option.some.inj h)
    · exact (rank_nextAttempt _ _).trans (by simp [Client.rank])
    · simp [Client.rank]
  | wake | timer =>
    cases c <;> simp only [clientStep, reduceCtorEq] at h
    split_ifs at h
    obtain ⟨-, rfl⟩ := Prod.mk.inj (Option.some.inj h)
    exact rank_nextAttempt _ _
  | connect r =>
    cases c <;> cases r <;> simp only [clientStep, reduceCtorEq, Option.some.injEq,
      Prod.mk.injEq] at h <;> obtain ⟨-, rfl⟩ := h <;> simp [Client.rank]
  | insert =>
    cases c <;> simp only [clientStep, reduceCtorEq] at h <;> split at h <;>
      obtain ⟨-, rfl⟩ := Prod.mk.inj (Option.some.inj h) <;> simp [Client.rank]
  | finish =>
    cases c <;> simp only [clientStep, reduceCtorEq, Option.some.injEq, Prod.mk.injEq] at h
    obtain ⟨-, rfl⟩ := h
    simp [Client.rank]

/-- Below a limit the counter of attempts does not wrap. -/
theorem toNat_succ_of_lt {n limit : UInt32} (h : n < limit) : (n + 1).toNat = n.toNat + 1 := by
  have hlt := UInt32.lt_iff_toNat_lt.1 h
  have hmax := limit.toNat_lt
  rw [UInt32.toNat_add]
  exact Nat.mod_eq_of_lt (by change n.toNat + 1 < 2 ^ 32; omega)

/-- Every section of a task lowers what is left of it. -/
theorem TaskMove.rank_lt {e : TaskEvent} (hleft : RetriesLeft config t)
    (hm : TaskMove env config p sc t e p' sc' t') : t'.rank config < t.rank config := by
  have ended : ∀ {stage : Stage}, t.stage.alive = true → stage.rank config = 0 →
      (t.goto stage).rank config < t.rank config := by
    intro stage halive hzero
    have hpos : 1 ≤ t.stage.rank config := one_le_rank_of_alive halive
    change stage.rank config + t.job.rank < t.stage.rank config + t.job.rank
    omega
  have next : ∀ {stage : Stage}, stage.rank config < t.stage.rank config →
      (t.goto stage).rank config < t.rank config :=
    fun h => Nat.add_lt_add_right h _
  cases hm with
  | rejected hs | failed hs | burst hs | unnamed hs | imageFailed hs | imageDone hs
  | sidecarDone hs => exact ended (by rw [hs]; rfl) rfl
  | stopped halive he _ => exact ended halive (by rcases he with ⟨-, rfl⟩ | ⟨-, rfl⟩ <;> rfl)
  | accepted hs | acquireGlobal hs | lockFound hs | lockFresh hs =>
    exact next (by rw [hs]; simp [Stage.rank])
  | acquireHost hs =>
    refine next ?_
    rw [hs]
    simp only [Stage.rank, Work.rank, Client.rank, Leg.rank, retriesRank, MAX_ACQUIRE_ATTEMPTS,
      UInt32.toNat_zero]
    omega
  | pool hs hin hstep =>
    refine next ?_
    have hlt := clientStep_rank hin hstep
    rw [hs]
    simp only [Stage.rank, Work.rank]
    omega
  | answered hs | retry hs =>
    refine next ?_
    rw [hs]
    simp only [Stage.rank, Work.rank, Client.rank]
    omega
  | @redirect home target sem leg n retries elapsed subsecNanos result hs hset =>
    refine next ?_
    obtain ⟨rfl, -⟩ := settleAttempt_redirect hset
    rw [hs]
    simp only [Stage.rank, Work.rank, Client.rank, Leg.rank, retriesRank, MAX_ACQUIRE_ATTEMPTS,
      UInt32.toNat_zero]
    omega
  | @resume home sem leg n delay hs =>
    refine next ?_
    have hlt := hleft home sem leg n delay hs
    have hsucc := toNat_succ_of_lt hlt
    have hlt' := UInt32.lt_iff_toNat_lt.1 hlt
    rw [hs]
    simp only [Stage.rank, Work.rank, Client.rank, retriesRank, MAX_ACQUIRE_ATTEMPTS, hsucc]
    omega
  | @store home sem leg n elapsed subsecNanos result image hs hset =>
    have hleg : 4 ≤ leg.rank config := by
      cases leg <;> simp only [Leg.rank] <;> omega
    change 3 + 1 < t.stage.rank config + t.job.rank
    rw [hs]
    simp only [Stage.rank, Work.rank, Client.rank]
    omega
  | perform hq =>
    change t.stage.rank config + 0 < t.stage.rank config + t.job.rank
    rw [hq]
    exact Nat.lt_succ_self _
  | sidecar hs hjob =>
    change 1 + 1 < t.stage.rank config + t.job.rank
    rw [hs]
    simp only [Stage.rank, Work.rank]
    omega

/-! ## The potential of a call falls -/

/-- Every step of a call lowers what is left of it. -/
theorem BatchMove.rank_lt {e : BatchEvent} (hcol : Collected b)
    (hleft : ∀ j t, b.tasks j = some t → RetriesLeft config t)
    (hm : BatchMove env config p b e p' b') : b'.rank config < b.rank config := by
  have joined : ∀ {j : ℕ}, j ∈ b.joinSet → (b.joinSet.erase j).length < b.joinSet.length := by
    intro j hj
    rw [List.length_erase_of_mem hj]
    exact Nat.sub_lt (List.length_pos_of_mem hj) Nat.one_pos
  unfold Batch.rank
  cases hm with
  | @task j te t t' _ sc' ht _ hm =>
    have hlt := hm.rank_lt (hleft j t ht)
    have hsum := total_update (w := taskRank config) (f := b.tasks) (hcol.lt_length ht) (some t')
    rw [ht] at hsum
    change _ + t.rank config = _ + t'.rank config at hsum
    change total (taskRank config) (Function.update b.tasks j (some t')) (dedup b.urls).length +
      b.joinSet.length + b.phase.rank + b.summaryJob.rank < _
    omega
  | joined _ _ hj _ =>
    have := joined hj
    dsimp only
    omega
  | joinedPanic _ _ hj _ =>
    have := joined hj
    dsimp only
    omega
  | @closed _ elapsed total hph _ =>
    rcases close_cases env config b elapsed total with hc | ⟨json, -, hc⟩ <;> rw [hc, hph] <;>
      simp only [Phase.rank, Job.rank] <;> omega
  | summaryPerformed hjob =>
    rw [hjob]
    simp only [Job.rank]
    omega
  | summarized hph _ =>
    rw [hph]
    simp only [Phase.rank]
    omega

/-- A new call is within its bound. -/
theorem rank_start {urls : List String} {outputDir : String} {mkdir : Except String Unit}
    (hs : Started config urls outputDir mkdir b) : b.rank config ≤ stepBound config b.urls := by
  have none_ : ∀ n, total (taskRank config) (fun _ => none) n ≤ n * 0 :=
    fun n => total_le fun _ _ => le_refl _
  unfold Batch.rank stepBound
  cases hs with
  | empty | failed =>
    have := none_ (dedup urls).length
    simp only [List.length_nil, Phase.rank, Job.rank]
    omega
  | spawned =>
    have hle : total (taskRank config) (spawnTasks urls outputDir) (dedup urls).length ≤
        (dedup urls).length * (206 * config.maxRetries.toNat + 212) := by
      refine total_le fun i hi => ?_
      rw [spawnTasks, List.getElem?_eq_getElem hi]
      exact le_refl _
    have hmul : (dedup urls).length * (206 * (config.maxRetries.toNat + 1) + 7) =
        (dedup urls).length * (206 * config.maxRetries.toNat + 212) + (dedup urls).length := by
      rw [← Nat.mul_succ]
      exact congrArg _ (by omega)
    simp only [List.length_range, Phase.rank, Job.rank]
    omega

/-! ## Some step of a call can be taken -/

/-- An attempt is in the pool from its start on. -/
def InPool (t : Task) : Prop :=
  ∀ home sem leg n, t.stage ≠ .working home sem (.attempt leg n .idle)

theorem nextAttempt_ne_idle (key : HostKey) (n : ℕ) : nextAttempt key n ≠ .idle := by
  unfold nextAttempt
  split_ifs <;> nofun

theorem clientStep_ne_idle {connectionsPerHost : ℕ} {c c' : Client} {e : ClientEvent}
    (he : e.inPool = true) (h : clientStep connectionsPerHost p c e = some (p', c')) :
    c' ≠ .idle := by
  cases e with
  | start | respond | leave | cancel => cases he
  | decide poll poll' =>
    cases c <;> simp only [clientStep, reduceCtorEq, Option.some.injEq, Prod.mk.injEq] at h
    obtain ⟨-, rfl⟩ := h
    generalize (determineAction _ _ _ _ _ _).2 = a
    cases a <;> rintro ⟨⟩
  | register =>
    cases c <;> simp only [clientStep, reduceCtorEq] at h
    split_ifs at h <;> obtain ⟨-, rfl⟩ := Prod.mk.inj (Option.some.inj h)
    · exact nextAttempt_ne_idle _ _
    · rintro ⟨⟩
  | wake | timer =>
    cases c <;> simp only [clientStep, reduceCtorEq] at h
    split_ifs at h
    obtain ⟨-, rfl⟩ := Prod.mk.inj (Option.some.inj h)
    exact nextAttempt_ne_idle _ _
  | connect r =>
    cases c <;> cases r <;> simp only [clientStep, reduceCtorEq, Option.some.injEq,
      Prod.mk.injEq] at h <;> obtain ⟨-, rfl⟩ := h <;> rintro ⟨⟩
  | insert =>
    cases c <;> simp only [clientStep, reduceCtorEq] at h <;> split at h <;>
      obtain ⟨-, rfl⟩ := Prod.mk.inj (Option.some.inj h) <;> rintro ⟨⟩
  | finish =>
    cases c <;> simp only [clientStep, reduceCtorEq, Option.some.injEq, Prod.mk.injEq] at h
    obtain ⟨-, rfl⟩ := h
    rintro ⟨⟩

/-- Only an open that its entry does not count leads to a panic. -/
theorem clientStep_panicked {connectionsPerHost : ℕ} {c : Client} {e : ClientEvent}
    (h : clientStep connectionsPerHost p c e = some (p', .panicked)) :
    ∃ key, c.InFlight key ∧ openings (p.hostPools key) = 0 := by
  have next : ∀ {key : HostKey} {n : ℕ}, nextAttempt key n ≠ .panicked := by
    intro key n
    unfold nextAttempt
    split_ifs <;> nofun
  cases e with
  | start | respond | leave | finish | cancel => cases c <;> cases h
  | decide poll poll' =>
    cases c <;> simp only [clientStep, reduceCtorEq, Option.some.injEq, Prod.mk.injEq] at h
    generalize (determineAction _ _ _ _ _ _).2 = a at h
    cases a <;> cases h.2
  | register =>
    cases c <;> simp only [clientStep, reduceCtorEq] at h
    split_ifs at h
    · exact absurd (Prod.mk.inj (Option.some.inj h)).2 next
    · cases (Prod.mk.inj (Option.some.inj h)).2
  | wake | timer =>
    cases c <;> simp only [clientStep, reduceCtorEq] at h
    split_ifs at h
    exact absurd (Prod.mk.inj (Option.some.inj h)).2 next
  | connect r => cases c <;> cases r <;> cases h
  | insert =>
    cases c with
    | opened key isFirst conn =>
      refine ⟨key, rfl, ?_⟩
      rcases insertOpened_cases p.hostPools key isFirst conn with
        ⟨hp, hi⟩ | ⟨hp₀, hp, h0, hi⟩ | ⟨hp₀, hp, h0, hi⟩
      · rw [hp, openings_none]
      · rw [hp, openings_some, h0]
      · simp [clientStep, hi] at h
    | openFailed key isFirst err =>
      refine ⟨key, rfl, ?_⟩
      rcases removeFailed_cases p.hostPools key with ⟨hp, hi⟩ | ⟨hp₀, hp, h0, hi⟩ |
        ⟨hp₀, hp, hnil, h1, hi⟩ | ⟨hp₀, hp, h0, hkeep, hi⟩
      · rw [hp, openings_none]
      · rw [hp, openings_some, h0]
      · simp [clientStep, hi] at h
      · simp [clientStep, hi] at h
    | _ => cases h

namespace Pool

variable {ι : Type*} [DecidableEq ι] {connectionsPerHost : ℕ}

/-- The counters of the pool make no client panic. -/
theorem not_panicked {s : State ι} (h : Reaches (step connectionsPerHost) init s) (i : ι) :
    s.locals i ≠ .panicked := by
  have hinv : Capacity connectionsPerHost s ∧ ∀ i, s.locals i ≠ .panicked := by
    refine h.invariant (I := fun s => Capacity connectionsPerHost s ∧ ∀ i, s.locals i ≠ .panicked)
      (fun s e s' hI hs => ⟨capacity_step hI.1 hs, ?_⟩) ⟨capacity_init, fun _ => nofun⟩
    obtain ⟨j, e⟩ := e
    obtain ⟨c, hp, hl⟩ := Par.step_eq_some.1 hs
    intro i hi
    rw [hl] at hi
    rcases eq_or_ne i j with rfl | hij
    · rw [Function.update_self] at hi
      subst hi
      obtain ⟨key, hflight, hzero⟩ := clientStep_panicked hp
      obtain ⟨leak, ht⟩ := hI.1.tally key
      exact absurd hzero (tally_pos ht hflight).ne'
    · rw [Function.update_of_ne hij] at hi
      exact hI.2 i hi
  exact hinv.2 i

end Pool

theorem inPool_invariant : TaskInvariant env config InPool := by
  refine ⟨fun _ _ _ _ _ _ _ h => (nomatch h), fun {p p' sc sc' t t' e} hin hm => ?_⟩
  intro home sem leg n hs
  cases hm with
  | perform => exact hin home sem leg n hs
  | pool hst he hstep =>
    obtain ⟨-, -, hw⟩ := Stage.working.inj hs
    obtain ⟨-, -, hc⟩ := Work.attempt.inj hw
    exact clientStep_ne_idle he hstep hc
  | stopped _ he _ => rcases he with ⟨-, rfl⟩ | ⟨-, rfl⟩ <;> cases hs
  | _ => cases hs

/-! ## Sections that take no task down -/

/-- The attempt of the task is over, and the name of its image makes it panic. -/
def Task.Unnamable (env : Env) (config : Config) (t : Task) : Prop :=
  ∃ home sem leg n result subsecNanos,
    t.stage = .working home sem (.attempt leg n (.finished result)) ∧
    settleAttempt env config t.url t.firstIndex leg n subsecNanos result = .panicked

/-- A section of this event is no cancellation, and panics for the name of the image alone. -/
def TaskEvent.Gentle (env : Env) (config : Config) (t : Task) (e : TaskEvent) : Prop :=
  e.stops = false ∧ ∀ p sc p' sc' t', TaskMove env config p sc t e p' sc' t' →
    t'.stage = .panicked → t.stage = .panicked ∨ t.Unnamable env config

/-- A request that is never answered does not panic. -/
theorem executeTarget_nil (env : Env) (config : Config) (target : Target) :
    (executeTarget env config target []).2 ≠ none := by
  rw [executeTarget, executeRequest]
  by_cases hb : Buildable env.http ⟨config.userAgent, target.maxRedirects⟩ target.host target.uri
  · simp only [executeWithRedirects_nil hb]
    simp
  · obtain ⟨e, he⟩ : ∃ e, executeWithRedirects env.http env.overflowChecks
        ⟨config.userAgent, target.maxRedirects⟩ target.host [] target.uri 0 =
          ([], .done (.error (.connectionFailed e))) :=
      executeWithRedirects_of_not_buildable hb
    simp only [he]
    simp

/-- A section that is no panic, no cancellation and no request with an answer is gentle. -/
theorem TaskEvent.gentle_of_stops {t : Task} {e : TaskEvent} (hstops : e.stops = false)
    (hreq : ∀ replies, e = .request replies → replies = [] ∨ t.stage.inRequest = false) :
    e.Gentle env config t := by
  refine ⟨hstops, fun p sc p' sc' t' hm hpanic => ?_⟩
  cases hm with
  | perform => exact Or.inl hpanic
  | unnamed hs hset => exact Or.inr ⟨_, _, _, _, _, _, hs, hset⟩
  | burst hs hx =>
    rcases hreq _ rfl with rfl | hin
    · exact absurd (by rw [hx]) (executeTarget_nil env config _)
    · simp [hs, Stage.inRequest] at hin
  | stopped _ he _ => rcases he with ⟨rfl, -⟩ | ⟨rfl, -⟩ <;> cases hstops
  | _ => cases hpanic

/-- The task has a gentle next section. -/
def Task.GoesOn (env : Env) (config : Config) (p : PoolState) (sc : Scope) (t : Task) : Prop :=
  ∃ e : TaskEvent, e.Gentle env config t ∧ (taskStep env config p sc t e).isSome = true

/-- A request phase has a next section, unless its attempt has panicked. -/
theorem exists_requestStep {sc : Scope} {t : Task} (hin : InPool t)
    (hpanic : t.stage.client ≠ .panicked) (hreq : t.stage.inRequest = true) :
    t.GoesOn env config p sc := by
  have pool : ∀ {home : Target} {sem : SemId} {leg : Leg} {n : UInt32} {c : Client}
      {e : ClientEvent}, t.stage = .working home sem (.attempt leg n c) → e.inPool = true →
      (clientStep config.connectionsPerHost p c e).isSome = true → t.GoesOn env config p sc := by
    intro home sem leg n c e hs he hstep
    refine ⟨.pool e, TaskEvent.gentle_of_stops rfl (by simp), ?_⟩
    simp only [taskStep, hs, if_pos he, Option.isSome_map, hstep]
  cases hs : t.stage with
  | working home sem work =>
    cases work with
    | attempt leg n c =>
      cases c with
      | idle => exact absurd hs (hin home sem leg n)
      | panicked => exact absurd (by rw [hs]; rfl) hpanic
      | locking key m => exact pool (e := .decide (fun _ => .ready) fun _ => .ready) hs rfl rfl
      | toWait key m i =>
        refine pool (e := .register) hs rfl ?_
        simp only [clientStep]
        split_ifs <;> rfl
      | waiting key m i w =>
        by_cases hw : w ∈ (p.notifies i).woken
        · exact pool (e := .wake) hs rfl (by simp only [clientStep, if_pos hw]; rfl)
        · exact pool (e := .timer) hs rfl (by simp only [clientStep, if_neg hw]; rfl)
      | opening key isFirst =>
        exact pool (e := .connect (.error (.connectionFailed "connection refused"))) hs rfl rfl
      | opened key isFirst conn =>
        refine pool (e := .insert) hs rfl ?_
        simp only [clientStep]
        split <;> rfl
      | openFailed key isFirst err =>
        refine pool (e := .insert) hs rfl ?_
        simp only [clientStep]
        split <;> rfl
      | requesting key handle =>
        refine ⟨.request [], TaskEvent.gentle_of_stops rfl (by simp), ?_⟩
        simp only [taskStep, hs]
        split
        · rfl
        · obtain ⟨q, -, hu⟩ := unwind_eq config p (sc.log key _) t .panicked
          rw [hu]
          rfl
      | finishing key handle result => exact pool (e := .finish) hs rfl rfl
      | finished result =>
        exact ⟨.settle 0 0, TaskEvent.gentle_of_stops rfl (by simp),
          by simp only [taskStep, hs]; rfl⟩
    | backoff leg n delay =>
      exact ⟨.resume, TaskEvent.gentle_of_stops rfl (by simp), by simp only [taskStep, hs]; rfl⟩
    | imageWrite | sidecarWrite => simp [hs, Stage.inRequest] at hreq
  | _ => simp [hs, Stage.inRequest] at hreq

/-- A task that can go on has a gentle next section, unless its attempt has panicked. -/
theorem CanStep.goesOn {sc : Scope} {t : Task} (h : CanStep env config p sc t) (hin : InPool t)
    (hpanic : t.stage.client ≠ .panicked) : t.GoesOn env config p sc := by
  by_cases hreq : t.stage.inRequest = true
  · exact exists_requestStep hin hpanic hreq
  · obtain ⟨e, he, hstep⟩ := h.resolve_left hreq
    exact ⟨e, TaskEvent.gentle_of_stops he fun _ _ => Or.inr (by simpa using hreq), hstep⟩

/-- What keeps a call going : a join set of tasks, none of them cancelled while they are
collected, and a summary that is being written. -/
structure Going (b : Batch) : Prop where
  spawned : ∀ j ∈ b.joinSet, (b.tasks j).isSome = true
  uncancelled : b.phase = .collecting → ∀ j t, b.tasks j = some t → t.stage ≠ .cancelled
  summary : ∀ results, b.phase = .summarizing results → b.summaryJob ≠ .idle

namespace Going

theorem start {urls : List String} {outputDir : String} {mkdir : Except String Unit}
    (hs : Started config urls outputDir mkdir b) : Going b := by
  have fresh : ∀ j t, b.tasks j = some t → t.stage ≠ .cancelled := by
    intro j t ht
    obtain ⟨url, firstIndex, rfl⟩ := hs.task_eq ht
    nofun
  cases hs with
  | empty | failed => exact ⟨nofun, nofun, nofun⟩
  | spawned =>
    refine ⟨fun j hj => ?_, fun _ => fresh, nofun⟩
    have hlt := List.mem_range.1 hj
    simp [spawnTasks, hlt]

/-- Only a cancellation leads to a cancelled task. -/
theorem not_cancelled {sc : Scope} {t t' : Task} {e : TaskEvent} (he : e ≠ .cancel)
    (ht : t.stage ≠ .cancelled) (hm : TaskMove env config p sc t e p' sc' t') :
    t'.stage ≠ .cancelled := by
  cases hm with
  | perform => exact ht
  | stopped _ hend _ =>
    rcases hend with ⟨-, rfl⟩ | ⟨rfl, -⟩
    · nofun
    · exact absurd rfl he
  | _ => nofun

theorem step {e : BatchEvent} (h : Going b) (hm : BatchMove env config p b e p' b') :
    Going b' := by
  cases hm with
  | @task j e t t' _ sc' ht hcancel hm =>
    refine ⟨fun i hi => ?_, fun hph i u hu => ?_, h.summary⟩
    · rcases eq_or_ne i j with rfl | hij
      · simp
      · simpa [hij] using h.spawned i hi
    · rcases update_eq_some hu with ⟨rfl, rfl⟩ | ⟨-, hu⟩
      · exact not_cancelled (fun he => hcancel he hph) (h.uncancelled hph i t ht) hm
      · exact h.uncancelled hph i u hu
  | joined | joinedPanic =>
    exact ⟨fun i hi => h.spawned i (List.mem_of_mem_erase hi), h.uncancelled, h.summary⟩
  | @closed _ elapsed total _ _ =>
    rcases close_cases env config b elapsed total with hc | ⟨json, -, hc⟩ <;> rw [hc] <;>
      exact ⟨h.spawned, nofun, nofun⟩
  | summaryPerformed => exact ⟨h.spawned, h.uncancelled, nofun⟩
  | summarized => exact ⟨h.spawned, nofun, nofun⟩

end Going

/-- The event ends a task where it is, or is the deadline, after which tasks are cancelled. -/
def BatchEvent.stops : BatchEvent → Bool
  | .task _ e => e.stops
  | .deadline _ _ => true
  | _ => false

/-- The event ends a task where it is, or is a deadline. -/
def DownloaderEvent.stops : DownloaderEvent → Bool
  | .batch e => e.stops
  | .call _ _ _ => false

/-- The event is no deadline, and gentle on a task if it is one of a task. -/
def BatchEvent.Gentle (env : Env) (config : Config) (b : Batch) (e : BatchEvent) : Prop :=
  e.stops = false ∧ ∀ j te t, e = .task j te → b.tasks j = some t → te.Gentle env config t

/-- What the steps of a call need. -/
structure Steady (env : Env) (config : Config) (b : Batch) : Prop where
  going : Going b
  collected : Collected b
  global : GlobalSem config b.scope b.tasks
  host : HostSems config b.scope b.tasks
  written : ∀ j t, b.tasks j = some t → WriteStarted t
  left : ∀ j t, b.tasks j = some t → RetriesLeft config t
  inPool : ∀ j t, b.tasks j = some t → InPool t

theorem exists_batchStep (h : Steady env config b)
    (hpanic : ∀ j t, b.tasks j = some t → t.stage.client ≠ .panicked)
    (hg : 1 ≤ config.maxConcurrentGlobal) (hh : 1 ≤ config.maxConcurrentPerHost)
    (hret : ∀ results, b.phase ≠ .returned results) :
    ∃ e : BatchEvent, e.Gentle env config b ∧ (batchStep env config p b e).isSome = true := by
  -- an event of the call itself
  have own : ∀ {e : BatchEvent}, e.stops = false → (∀ j te, e ≠ .task j te) →
      e.Gentle env config b := fun hs hne => ⟨hs, fun j te _ he => absurd he (hne j te)⟩
  cases hph : b.phase with
  | returned results => exact absurd hph (hret results)
  | summarizing results =>
    cases hjob : b.summaryJob with
    | idle => exact absurd hjob (h.going.summary results hph)
    | queued call =>
      exact ⟨.performSummary .ok, own rfl (by simp), by simp only [batchStep, hjob]; rfl⟩
    | done r => exact ⟨.summaryWritten, own rfl (by simp), by simp only [batchStep, hph, hjob]; rfl⟩
  | collecting =>
    cases hset : b.joinSet with
    | nil =>
      refine ⟨.drained (fun _ => 0) 0, own rfl (by simp), ?_⟩
      simp only [batchStep, hph, if_pos hset]
      rfl
    | cons j js =>
      have hj : j ∈ b.joinSet := by simp [hset]
      obtain ⟨t, ht⟩ := Option.isSome_iff_exists.1 (h.going.spawned j hj)
      by_cases halive : t.stage.alive = true
      · obtain ⟨i, u, hu, -, hcan⟩ :=
          exists_canStep p h.global h.host h.written hg hh ht halive
        obtain ⟨e, hgentle, hstep⟩ := hcan.goesOn (h.inPool i u hu) (hpanic i u hu)
        refine ⟨.task i e, ⟨hgentle.1, fun i' te v he hv => ?_⟩, ?_⟩
        · obtain ⟨rfl, rfl⟩ := BatchEvent.task.inj he
          rwa [← Option.some.inj (hu.symm.trans hv)]
        · have hne : e ≠ .cancel := by
            rintro rfl
            cases hgentle.1
          cases e with
          | cancel => exact absurd rfl hne
          | _ => simpa only [batchStep, hu, hph, Option.isSome_map] using hstep
      · refine ⟨.join j, own rfl (by simp), ?_⟩
        cases hs : t.stage with
        | returned r => simp only [batchStep, hph, ht, if_pos hj, hs, Option.isSome_some]
        | panicked => simp only [batchStep, hph, ht, if_pos hj, hs, Option.isSome_some]
        | cancelled => exact absurd hs (h.going.uncancelled hph j t ht)
        | _ => simp [hs, Stage.alive] at halive

namespace Steady

theorem start {urls : List String} {outputDir : String} {mkdir : Except String Unit}
    (hs : Started config urls outputDir mkdir b) : Steady env config b := by
  have hwritten : TaskInvariant env config WriteStarted := writeStarted_invariant
  have hleft : TaskInvariant env config (RetriesLeft config) := retriesLeft_invariant
  have hpool : TaskInvariant env config InPool := inPool_invariant
  exact ⟨.start hs, .start hs, .start hs, .start hs, fun _ _ => hwritten.start hs,
    fun _ _ => hleft.start hs, fun _ _ => hpool.start hs⟩

theorem step {e : BatchEvent} (h : Steady env config b)
    (hm : BatchMove env config p b e p' b') : Steady env config b' :=
  ⟨h.going.step hm, h.collected.step hm, h.global.step hm, h.host.step hm,
    writeStarted_invariant.move h.written hm, retriesLeft_invariant.move h.left hm,
    inPool_invariant.move h.inPool hm⟩

end Steady

/-! ## Runs -/

namespace Downloader

variable {s s' : State} {k : ℕ}

/-- What is left of the call `k`. -/
def callRank (config : Config) (k : ℕ) (s : State) : ℕ :=
  (s.locals k).elim 0 (Batch.rank config)

theorem steady_of_reaches (h : Reaches (step env config) init s) (hb : s.locals k = some b) :
    Steady env config b ∧ b.rank config ≤ stepBound config b.urls := by
  refine batch_invariant (I := fun b => Steady env config b ∧
      b.rank config ≤ stepBound config b.urls) (fun _ _ _ _ hs => ⟨.start hs, rank_start hs⟩)
    (fun _ b _ _ b' hI hm => ⟨hI.1.step hm, ?_⟩) h hb
  rw [hm.urls_eq]
  exact (hm.rank_lt hI.1.collected hI.1.left).le.trans hI.2

/-- Each step of a call takes something off what is left of it. -/
theorem callRank_step {e : ℕ × DownloaderEvent} (h : Reaches (step env config) init s)
    (hb : s.locals k = some b) (hs : step env config s e = some s') :
    (∃ b', s'.locals k = some b' ∧ b'.urls = b.urls) ∧
      (if e.1 = k then 1 else 0) + callRank config k s' ≤ callRank config k s := by
  obtain ⟨k', e⟩ := e
  rcases eq_or_ne k k' with rfl | hk
  · obtain ⟨be, b', rfl, hb', hm⟩ := step_some hs hb
    have hsteady := (steady_of_reaches h hb).1
    have hlt := hm.rank_lt hsteady.collected hsteady.left
    refine ⟨⟨b', hb', hm.urls_eq⟩, ?_⟩
    rw [callRank, callRank, hb, hb', if_pos rfl]
    change 1 + b'.rank config ≤ b.rank config
    omega
  · have hsame : s'.locals k = s.locals k := Par.step_other hs hk
    refine ⟨⟨b, hsame.trans hb, rfl⟩, ?_⟩
    rw [callRank, callRank, hsame, if_neg (Ne.symm hk), Nat.zero_add]

/-- From any reachable state on, a call takes a bounded number of steps. -/
theorem steps_bounded {es : List (ℕ × DownloaderEvent)} (h : Reaches (step env config) init s)
    (hb : s.locals k = some b) (hr : run (step env config) s es = some s') :
    es.countP (fun e => e.1 = k) ≤ stepBound config b.urls := by
  have hspent := spent_add_le
    (fun s => Reaches (step env config) init s ∧ ∃ b, s.locals k = some b)
    (fun _ e => if decide (e.1 = k) then 1 else 0) (callRank config k) (fun s e s' hI hs => by
      obtain ⟨hreach, b, hb⟩ := hI
      obtain ⟨⟨b', hb', -⟩, hle⟩ := callRank_step hreach hb hs
      exact ⟨⟨hreach.trans (.single hs), b', hb'⟩, by simpa using hle⟩) ⟨h, b, hb⟩ hr
  rw [spent_countP hr] at hspent
  have hbound := (steady_of_reaches h hb).2
  have hrank : callRank config k s = b.rank config := by rw [callRank, hb]; rfl
  omega

/-- Between the two states no task of the call was cancelled, and none panicked but for the name
of its image. -/
def Undisturbed (env : Env) (config : Config) (k : ℕ) (s s' : State) : Prop :=
  ∀ j t', taskOf k j s' = some t' →
    (t'.stage = .cancelled → ∃ t, taskOf k j s = some t ∧ t.stage = .cancelled) ∧
    (t'.stage = .panicked →
      ∃ t, taskOf k j s = some t ∧ (t.stage = .panicked ∨ t.Unnamable env config))

theorem undisturbed_of_same (h : ∀ j, taskOf k j s' = taskOf k j s) :
    Undisturbed env config k s s' :=
  fun j t' ht => ⟨fun hs => ⟨t', h j ▸ ht, hs⟩, fun hs => ⟨t', h j ▸ ht, Or.inl hs⟩⟩

/-- A gentle step disturbs no task. -/
theorem undisturbed_of_gentle {be : BatchEvent} (hb : s.locals k = some b)
    (hgentle : be.Gentle env config b) (hs : step env config s (k, .batch be) = some s') :
    Undisturbed env config k s s' := by
  intro j t' ht'
  rcases taskOf_step k j hs with ⟨-, hsame | ⟨-, url, i, dir, hspawn⟩⟩ |
    ⟨te, t, u, sc, sc', hev, ht, hu, hm⟩
  · exact ⟨fun h => ⟨t', hsame ▸ ht', h⟩, fun h => ⟨t', hsame ▸ ht', Or.inl h⟩⟩
  · obtain rfl := Option.some.inj (hspawn.symm.trans ht')
    exact ⟨fun h => (by cases h), fun h => (by cases h)⟩
  · obtain rfl := Option.some.inj (hu.symm.trans ht')
    obtain rfl := DownloaderEvent.batch.inj (Prod.mk.inj hev).2
    have htask : b.tasks j = some t := by rwa [taskOf, hb, Option.bind_some] at ht
    obtain ⟨hstops, hpanic⟩ := hgentle.2 j te t rfl htask
    refine ⟨fun hc => ⟨t, ht, ?_⟩, fun hp => ⟨t, ht, hpanic _ _ _ _ _ hm hp⟩⟩
    by_contra hne
    exact Going.not_cancelled (by rintro rfl; cases hstops) hne hm hc

/-- A call that has not returned has a step that disturbs no task. -/
theorem exists_callStep (h : Reaches (step env config) init s) (hb : s.locals k = some b)
    (hg : 1 ≤ config.maxConcurrentGlobal) (hh : 1 ≤ config.maxConcurrentPerHost)
    (hret : ∀ results, b.phase ≠ .returned results) :
    ∃ e s', e.stops = false ∧ step env config s (k, e) = some s' ∧
      Undisturbed env config k s s' := by
  have hpanic : ∀ j t, b.tasks j = some t → t.stage.client ≠ .panicked := by
    intro j t ht
    rw [← clientOf_eq hb ht]
    exact Pool.not_panicked (reaches_poolState h) (k, j)
  obtain ⟨e, he, hstep⟩ := exists_batchStep (p := s.shared) (steady_of_reaches h hb).1 hpanic hg hh
    hret
  obtain ⟨⟨q, b'⟩, hstep⟩ := Option.isSome_iff_exists.1 hstep
  have hs : step env config s (k, .batch e) = some ⟨q, Function.update s.locals k (some b')⟩ := by
    refine Par.step_eq_some.2 ⟨some b', ?_, rfl⟩
    rw [hb, callStep, hstep]
    rfl
  exact ⟨.batch e, _, he.1, hs, undisturbed_of_gentle hb he hs⟩

/-- A step of the call `k` that is no panic, no cancellation and no deadline, and in which no task
is cancelled, and none panics but for the name of its image. -/
def LeadsOn (env : Env) (config : Config) (k : ℕ) (s : State) (e : ℕ × DownloaderEvent) : Prop :=
  e.1 = k ∧ e.2.stops = false ∧
    ∀ s', step env config s e = some s' → Undisturbed env config k s s'

/-- From every reachable state a call can be led to its return, by at most as many steps of its own
as the bound. Neither the deadline nor a cancellation is needed for it, and no panic but that of a
task that can only panic. -/
theorem call_returns (h : Reaches (step env config) init s) (hb : s.locals k = some b)
    (hg : IsLimit config.maxConcurrentGlobal) (hh : IsLimit config.maxConcurrentPerHost) :
    ∃ es s' b' results, run (step env config) s es = some s' ∧ s'.locals k = some b' ∧
      b'.phase = .returned results ∧ Meets (step env config) (LeadsOn env config k) s es ∧
      es.length ≤ stepBound config b.urls := by
  obtain ⟨es, s', hr, hall, hlen, -, b', results, hb', hph⟩ := exists_run_done
    (fun s => Reaches (step env config) init s ∧ ∃ b, s.locals k = some b)
    (fun s => ∃ b results, s.locals k = some b ∧ b.phase = .returned results)
    (LeadsOn env config k) (callRank config k)
    (fun s e s' hI hok hs => by
      obtain ⟨hreach, b, hb⟩ := hI
      obtain ⟨⟨b', hb', -⟩, hle⟩ := callRank_step hreach hb hs
      rw [if_pos hok.1] at hle
      exact ⟨⟨hreach.trans (.single hs), b', hb'⟩, by omega⟩)
    (fun s hI hnot => by
      obtain ⟨hreach, b, hb⟩ := hI
      obtain ⟨e, s', he, hs, hund⟩ := exists_callStep hreach hb hg.1 hh.1 fun results hph =>
        hnot ⟨b, results, hb, hph⟩
      exact ⟨(k, e), s', ⟨rfl, he, fun t ht => Option.some.inj (hs.symm.trans ht) ▸ hund⟩, hs⟩)
    ⟨h, b, hb⟩
  have hbound := (steady_of_reaches h hb).2
  have hrank : callRank config k s = b.rank config := by rw [callRank, hb]; rfl
  exact ⟨es, s', b', results, hr, hb', hph, hall, by omega⟩

/-- The steps of a task up to its request. -/
theorem steps_bounded_toRequest : ∃ s s' b,
    run (step oneUrl {}) init [(0, .call ["http://h/a.png"] "out" (.ok ()))] = some s ∧
    s.locals 0 = some b ∧ run (step oneUrl {}) s (taskSteps 0 toRequest) = some s' ∧
    (taskSteps 0 toRequest).countP (fun e => e.1 = 0) ≤ stepBound {} b.urls := by
  obtain ⟨s, s', b, hr, hb, hr'⟩ : ∃ s s' b,
      run (step oneUrl {}) init [(0, .call ["http://h/a.png"] "out" (.ok ()))] = some s ∧
      s.locals 0 = some b ∧ run (step oneUrl {}) s (taskSteps 0 toRequest) = some s' :=
    ⟨_, _, _, rfl, rfl, rfl⟩
  exact ⟨s, s', b, hr, hb, hr', steps_bounded ⟨_, hr⟩ hb hr'⟩

/-- One permit of each kind will do. -/
theorem isLimit_single :
    IsLimit single.maxConcurrentGlobal ∧ IsLimit single.maxConcurrentPerHost :=
  ⟨⟨le_refl 1, by decide⟩, le_refl 1, by decide⟩

/-- One task waits for the permit the other one holds, and the call can still return. -/
theorem call_returns_singleRun : ∃ s, run (step contended single) init singleRun = some s ∧
    ∃ es s' b' results, run (step contended single) s es = some s' ∧ s'.locals 0 = some b' ∧
      b'.phase = .returned results ∧
      Meets (step contended single) (LeadsOn contended single 0) s es := by
  obtain ⟨s, b, hr, hb⟩ : ∃ s b, run (step contended single) init singleRun = some s ∧
      s.locals 0 = some b := ⟨_, _, rfl, rfl⟩
  obtain ⟨es, s', b', results, hr', hb', hph, hall, -⟩ :=
    call_returns ⟨_, hr⟩ hb isLimit_single.1 isLimit_single.2
  exact ⟨s, hr, es, s', b', results, hr', hb', hph, hall⟩

end Downloader

end Imgdl
