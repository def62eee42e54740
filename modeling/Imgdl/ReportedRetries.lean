import Imgdl.Batch

/-!
# The retries a failure reports

A download has two request phases, each with a retry loop of its own, and a failure reports
the retries of the first. That number is the number of all re-runs exactly in the runs in which
the task re-runs no attempt of its second phase (`retries_reported_iff`).

`taskOf_step` says where a task comes from at a step, and `history_of_run` is the induction over
the sections of one task in a run.
-/

set_option linter.unusedSectionVars false

namespace Imgdl

open Transition Interleaving

/-- The retries a failure reports. -/
def DownloadOutcome.retries : DownloadOutcome → Option UInt32
  | .failure _ _ retriesAttempted => some retriesAttempted
  | .success .. => none

/-- The retries that are reported of a phase after its attempt `n`. -/
def Leg.retries (n : UInt32) : Leg → UInt32
  | .origin => n
  | .crossHost _ retriesAttempted => retriesAttempted

/-- The retries that the task reports if it fails from here on. -/
def Stage.retries : Stage → Option UInt32
  | working _ _ (.attempt leg n _) => some (leg.retries n)
  | working _ _ (.backoff leg n _) => some (leg.retries n)
  | working _ _ (.imageWrite image) => some image.retriesAttempted
  | working _ _ (.sidecarWrite outcome) => outcome.retries
  | returned r => r.2.outcome.retries
  | panicked => none
  | cancelled => none
  | _ => some 0

/-- A task backs off only while it has retries left. -/
def RetriesLeft (config : Config) (t : Task) : Prop :=
  ∀ home sem leg n delay, t.stage = .working home sem (.backoff leg n delay) →
    n < config.maxRetries

variable {env : Env} {config : Config} {p p' : PoolState} {sc sc' : Scope} {t t' : Task}
  {e : TaskEvent}

/-! ## One section -/

section Settle

variable {url : String} {firstIndex subsecNanos : ℕ} {leg : Leg} {n : UInt32}
  {result : Except DownloadError TransportResult}

/-- The end of a phase whose retries are `retries`. -/
def Settled.Reports (retries : UInt32) : Settled → Prop
  | .retry _ => False
  | .redirect _ retriesAttempted => retriesAttempted = retries
  | .failed _ retriesAttempted => retriesAttempted = retries
  | .write image => image.retriesAttempted = retries
  | .panicked => True

theorem settleResponse_reports (data : ResponseData) (retries : UInt32) :
    (settleResponse env config url firstIndex data retries).Reports retries := by
  unfold settleResponse
  split
  · rfl
  · split
    · trivial
    · rfl

theorem settleResult_reports (n : UInt32) (leg : Leg)
    (result : Except DownloadError TransportResult) :
    (settleResult env config url firstIndex n leg result).Reports (leg.retries n) := by
  unfold settleResult
  split
  case h_1 => exact settleResponse_reports _ _
  case h_2 =>
    split
    · rfl
    · rfl
  case h_4 => exact settleResponse_reports _ _
  all_goals rfl

/-- An attempt is followed by another one below the limit, or by the end of its phase. -/
theorem settleAttempt_reports {r : Settled}
    (h : settleAttempt env config url firstIndex leg n subsecNanos result = r) :
    (∃ delay, r = .retry delay ∧ n < config.maxRetries) ∨ r.Reports (leg.retries n) := by
  unfold settleAttempt at h
  cases hturn : retryTurn config.maxRetries config.retryBaseDelay n subsecNanos result with
  | sleep delay =>
    rw [hturn] at h
    exact Or.inl ⟨delay, h.symm, retryTurn_sleep hturn⟩
  | done r' m =>
    rw [hturn] at h
    obtain ⟨rfl, rfl⟩ := retryTurn_done hturn
    exact Or.inr (h ▸ settleResult_reports m leg r')

theorem settleAttempt_retry {delay : Duration}
    (h : settleAttempt env config url firstIndex leg n subsecNanos result = .retry delay) :
    n < config.maxRetries := by
  rcases settleAttempt_reports h with ⟨_, _, hlt⟩ | hreports
  · exact hlt
  · exact hreports.elim

/-- The end of a phase reports its retries. -/
theorem settleAttempt_ends {r : Settled}
    (h : settleAttempt env config url firstIndex leg n subsecNanos result = r)
    (hr : ∀ delay, r ≠ .retry delay) : r.Reports (leg.retries n) :=
  (settleAttempt_reports h).resolve_left fun ⟨delay, hd, _⟩ => hr delay hd

end Settle

/-- A section keeps the number the task reports, unless it re-runs an attempt of the first
phase. -/
theorem TaskMove.retries (hm : TaskMove env config p sc t e p' sc' t') :
    t'.stage.retries = none ∨ (e ≠ .resume ∧ t'.stage.retries = t.stage.retries) ∨
    ∃ home sem leg n delay, e = .resume ∧ t.stage = .working home sem (.backoff leg n delay) ∧
      t'.stage.retries = some (leg.retries (n + 1)) := by
  cases hm with
  | resume hs => exact Or.inr (Or.inr ⟨_, _, _, _, _, rfl, hs, rfl⟩)
  | perform => exact Or.inr (Or.inl ⟨nofun, rfl⟩)
  | stopped _ he _ => exact Or.inl (by rcases he with ⟨-, rfl⟩ | ⟨-, rfl⟩ <;> rfl)
  | burst | unnamed | imageDone => exact Or.inl rfl
  | rejected hs | accepted hs | acquireGlobal hs | lockFound hs | lockFresh hs | acquireHost hs
  | pool hs | answered hs | retry hs | imageFailed hs | sidecarDone hs =>
    exact Or.inr (Or.inl ⟨nofun, by rw [hs]; rfl⟩)
  | sidecar => exact Or.inl rfl
  | redirect hs hset | failed hs hset | store hs hset =>
    refine Or.inr (Or.inl ⟨nofun, ?_⟩)
    rw [hs]
    exact congrArg some (settleAttempt_ends hset nofun)

/-- A task that backs off has retries left. -/
theorem retriesLeft_invariant : TaskInvariant env config (RetriesLeft config) := by
  refine ⟨fun _ _ _ _ _ _ _ _ h => (nomatch h), fun {p p' sc sc' t t' e} hleft hm => ?_⟩
  intro home sem leg n delay hs
  cases hm with
  | perform => exact hleft home sem leg n delay hs
  | retry _ hset =>
    obtain ⟨rfl, rfl, hw⟩ := Stage.working.inj hs
    obtain ⟨rfl, rfl, rfl⟩ := Work.backoff.inj hw
    exact settleAttempt_retry hset
  | stopped _ he _ => rcases he with ⟨-, rfl⟩ | ⟨-, rfl⟩ <;> cases hs
  | _ => cases hs

/-! ## Runs -/

namespace Downloader

variable {k j : ℕ} {s s' : State} {ev : ℕ × DownloaderEvent}

/-- The task `j` of the call `k`. -/
def taskOf (k j : ℕ) (s : State) : Option Task :=
  (s.locals k).bind fun b => b.tasks j

/-- What the task `j` of the call `k` returned. -/
def resultOf (k j : ℕ) (s : State) : Option (String × DownloadResult) :=
  (taskOf k j s).bind fun t => match t.stage with
    | .returned r => some r
    | _ => none

/-- The task `j` of the call `k` re-runs an attempt. -/
def isRerun (k j : ℕ) : ℕ × DownloaderEvent → Bool
  | (k', .batch (.task j' .resume)) => k' = k && j' = j
  | _ => false

/-- An attempt that the task re-runs is one of its first phase. -/
def RerunsAtOrigin (k j : ℕ) (s : State) (ev : ℕ × DownloaderEvent) : Prop :=
  isRerun k j ev = true → ∀ t home sem leg n delay, taskOf k j s = some t →
    t.stage = .working home sem (.backoff leg n delay) → leg = .origin

theorem isRerun_iff : isRerun k j ev = true ↔ ev = (k, .batch (.task j .resume)) := by
  unfold isRerun
  split
  · simp
  case h_2 hne =>
    refine iff_of_false (by decide) fun h => ?_
    exact hne k j h

/-- Where a task comes from : from before a step of others, from its call, or it took a step. -/
theorem taskOf_step (k j : ℕ) (hs : step env config s ev = some s') :
    ((∀ te, ev ≠ (k, .batch (.task j te))) ∧ (taskOf k j s' = taskOf k j s ∨
      taskOf k j s = none ∧ ∃ url firstIndex outputDir,
        taskOf k j s' = some (Task.spawn url firstIndex outputDir))) ∨
    ∃ te t t' sc sc', ev = (k, .batch (.task j te)) ∧ taskOf k j s = some t ∧
      taskOf k j s' = some t' ∧ TaskMove env config s.shared sc t te s'.shared sc' t' := by
  obtain ⟨k', ev⟩ := ev
  rcases eq_or_ne k k' with rfl | hk
  · cases hloc : s.locals k with
    | none =>
      have htask : taskOf k j s = none := by rw [taskOf, hloc, Option.bind_none]
      obtain ⟨o, hp, hl⟩ := Par.step_eq_some.1 hs
      cases ev with
      | batch be => simp [hloc, callStep] at hp
      | call urls outputDir mkdir =>
        obtain ⟨-, rfl⟩ : _ ∧ _ := by simpa [hloc, callStep] using hp
        have htask' : taskOf k j s' = (Batch.start config urls outputDir mkdir).tasks j := by
          rw [taskOf, hl, Function.update_self, Option.bind_some]
        refine Or.inl ⟨by simp, ?_⟩
        rw [htask, htask']
        have hst := start_cases config urls outputDir mkdir
        generalize Batch.start config urls outputDir mkdir = b at hst ⊢
        cases hst with
        | empty | failed => exact Or.inl rfl
        | spawned =>
          cases hb : spawnTasks urls outputDir j with
          | none => exact Or.inl hb
          | some t =>
            obtain ⟨e, -, rfl⟩ := Option.map_eq_some_iff.1 hb
            exact Or.inr ⟨rfl, _, _, _, hb⟩
    | some b =>
      obtain ⟨be, b', rfl, hb', hm⟩ := step_some hs hloc
      have htask : taskOf k j s = b.tasks j := by rw [taskOf, hloc, Option.bind_some]
      have htask' : taskOf k j s' = b'.tasks j := by rw [taskOf, hb', Option.bind_some]
      rw [htask, htask']
      generalize s'.shared = p' at hm ⊢
      cases hm with
      | @task i te t t' _ sc' ht _ hm =>
        rcases eq_or_ne j i with rfl | hj
        · exact Or.inr ⟨te, t, t', _, _, rfl, ht, Function.update_self .., hm⟩
        · exact Or.inl ⟨by simp [Ne.symm hj], Or.inl (Function.update_of_ne hj _ _)⟩
      | joined | joinedPanic | summaryPerformed | summarized =>
        exact Or.inl ⟨by simp, Or.inl rfl⟩
      | @closed e elapsed total _ he =>
        refine Or.inl ⟨fun te h => ?_, Or.inl ?_⟩
        · rcases he with ⟨rfl, -⟩ | ⟨rfl, -⟩ <;> cases h
        · rw [close_eq]
  · refine Or.inl ⟨fun te h => hk (congrArg Prod.fst h).symm, Or.inl ?_⟩
    rw [taskOf, taskOf, Par.step_other hs hk]

section History

variable {H : Type*} {note : Task → TaskEvent → H → H} {h₀ : H} {I : H → Task → Prop}

/-- What `note` makes of the sections of the task `j` of the call `k`. -/
def noteOwn (note : Task → TaskEvent → H → H) (k j : ℕ) (s : State) (ev : ℕ × DownloaderEvent)
    (h : H) : H :=
  match taskOf k j s, ev with
  | some t, (k', .batch (.task j' e)) => if k' = k ∧ j' = j then note t e h else h
  | _, _ => h

theorem noteOwn_other {h : H} (hother : ∀ te, ev ≠ (k, .batch (.task j te))) :
    noteOwn note k j s ev h = h := by
  unfold noteOwn
  split
  case h_1 t k' j' e _ => exact if_neg fun ⟨hk, hj⟩ => hother e (by rw [hk, hj])
  · rfl

theorem noteOwn_self {h : H} {te : TaskEvent} {t : Task} (ht : taskOf k j s = some t) :
    noteOwn note k j s (k, .batch (.task j te)) h = note t te h := by
  simp [noteOwn, ht]

/-- An invariant of a task and of the record of its sections holds after every run, and the record
of a task that is not there yet is empty. -/
theorem history_of_run
    (hspawn : ∀ url firstIndex outputDir, I h₀ (Task.spawn url firstIndex outputDir))
    (hstep : ∀ {h : H} {p p' : PoolState} {sc sc' : Scope} {t t' : Task} {e : TaskEvent}, I h t →
      TaskMove env config p sc t e p' sc' t' → I (note t e h) t')
    {es : List (ℕ × DownloaderEvent)} (hr : run (step env config) init es = some s) :
    (taskOf k j s = none → record (step env config) (noteOwn note k j) init es h₀ = h₀) ∧
      ∀ t, taskOf k j s = some t →
        I (record (step env config) (noteOwn note k j) init es h₀) t := by
  refine run_record (I := fun h s => (taskOf k j s = none → h = h₀) ∧
    ∀ t, taskOf k j s = some t → I h t) (fun h u ev u' hI hs => ?_) ⟨fun _ => rfl, ?_⟩ hr
  · rcases taskOf_step k j hs with ⟨hother, hcases⟩ | ⟨te, t, t', sc, sc', rfl, ht, ht', hm⟩
    · rw [noteOwn_other hother]
      rcases hcases with hsame | ⟨hnone, url, i, dir, hnew⟩
      · exact ⟨hsame ▸ hI.1, hsame ▸ hI.2⟩
      · -- a new task has the empty record
        refine ⟨fun hn => absurd (hnew.symm.trans hn) (by simp), fun t ht => ?_⟩
        obtain rfl := Option.some.inj (hnew.symm.trans ht)
        rw [hI.1 hnone]
        exact hspawn url i dir
    · rw [noteOwn_self ht]
      refine ⟨fun hn => absurd (ht'.symm.trans hn) (by simp), fun u hu => ?_⟩
      obtain rfl := Option.some.inj (ht'.symm.trans hu)
      exact hstep (hI.2 t ht) hm
  · intro t ht
    simp [taskOf, init] at ht

end History

/-- The task reports what was counted. -/
structure Counted (config : Config) (k j count : ℕ) (s : State) : Prop where
  unspawned : taskOf k j s = none → count = 0
  left : ∀ t, taskOf k j s = some t → RetriesLeft config t
  task : ∀ t n, taskOf k j s = some t → t.stage.retries = some n →
    n.toNat = count ∧ count ≤ config.maxRetries.toNat

/-- The task reports less than what was counted. -/
def Behind (k j count : ℕ) (s : State) : Prop :=
  ∃ t, taskOf k j s = some t ∧ ∀ n, t.stage.retries = some n → n.toNat < count

theorem isRerun_task {te : TaskEvent} :
    isRerun k j (k, .batch (.task j te)) = true ↔ te = .resume := by
  rw [isRerun_iff]
  simp

/-- The count after a step that is none of the task's. -/
theorem count_other {count : ℕ} (h : ∀ te, ev ≠ (k, .batch (.task j te))) :
    (count + if isRerun k j ev then 1 else 0) = count := by
  rw [if_neg fun hr => h _ (isRerun_iff.1 hr), Nat.add_zero]

theorem count_resume {count : ℕ} :
    (count + if isRerun k j (k, .batch (.task j .resume)) then 1 else 0) = count + 1 := by
  rw [if_pos (isRerun_task.2 rfl)]

theorem count_of_ne {count : ℕ} {te : TaskEvent} (h : te ≠ .resume) :
    (count + if isRerun k j (k, .batch (.task j te)) then 1 else 0) = count := by
  rw [if_neg fun hr => h (isRerun_task.1 hr), Nat.add_zero]

theorem counted_step {count : ℕ} (h : Counted config k j count s) (hok : RerunsAtOrigin k j s ev)
    (hs : step env config s ev = some s') :
    Counted config k j (count + if isRerun k j ev then 1 else 0) s' := by
  rcases taskOf_step k j hs with ⟨hother, hsame | ⟨hnone, url, i, dir, hspawn⟩⟩ |
      ⟨te, t, t', sc, sc', rfl, ht, ht', hm⟩
  · rw [count_other hother]
    exact ⟨hsame ▸ h.unspawned, hsame ▸ h.left, hsame ▸ h.task⟩
  · rw [count_other hother, h.unspawned hnone]
    have hleft : TaskInvariant env config (RetriesLeft config) := retriesLeft_invariant
    refine ⟨fun _ => rfl, fun t ht => ?_, fun t n ht hn => ?_⟩
    · obtain rfl := Option.some.inj (hspawn.symm.trans ht)
      exact hleft.spawn url i dir
    · obtain rfl := Option.some.inj (hspawn.symm.trans ht)
      obtain rfl := Option.some.inj hn
      exact ⟨rfl, Nat.zero_le _⟩
  · refine ⟨fun hnone => ?_, fun u hu => ?_, fun u n hu hn => ?_⟩
    · rw [hnone] at ht'
      cases ht'
    · obtain rfl := Option.some.inj (ht'.symm.trans hu)
      exact retriesLeft_invariant.step (h.left t ht) hm
    · obtain rfl := Option.some.inj (ht'.symm.trans hu)
      rcases hm.retries with hnone | ⟨hne, hsame⟩ | ⟨home, sem, leg, m, delay, rfl, hst, hnew⟩
      · rw [hnone] at hn
        cases hn
      · rw [count_of_ne hne]
        exact h.task t n ht (hsame ▸ hn)
      · obtain rfl := hok (isRerun_task.2 rfl) t home sem leg m delay ht hst
        obtain rfl := Option.some.inj (hnew.symm.trans hn)
        obtain ⟨hcount, -⟩ := h.task t m ht (by rw [hst]; rfl)
        have hlt := UInt32.lt_iff_toNat_lt.1 (h.left t ht home sem _ m delay hst)
        have hmax := config.maxRetries.toNat_lt
        have hsucc : (m + 1).toNat = m.toNat + 1 := by
          rw [UInt32.toNat_add]
          exact Nat.mod_eq_of_lt (by change m.toNat + 1 < 2 ^ 32; omega)
        rw [count_resume]
        change (m + 1).toNat = _ ∧ _
        omega

theorem behind_step {count : ℕ} (h : Behind k j count s) (hs : step env config s ev = some s') :
    Behind k j (count + if isRerun k j ev then 1 else 0) s' := by
  obtain ⟨t, ht, hlt⟩ := h
  rcases taskOf_step k j hs with ⟨hother, hsame | ⟨hnone, -⟩⟩ |
      ⟨te, u, t', sc, sc', rfl, hu, ht', hm⟩
  · rw [count_other hother]
    exact ⟨t, hsame.trans ht, hlt⟩
  · rw [hnone] at ht
    cases ht
  · obtain rfl := Option.some.inj (ht.symm.trans hu)
    refine ⟨t', ht', fun n hn => ?_⟩
    rcases hm.retries with hnone | ⟨hne, hsame⟩ | ⟨home, sem, leg, m, delay, rfl, hst, hnew⟩
    · rw [hnone] at hn
      cases hn
    · rw [count_of_ne hne]
      exact hlt n (hsame ▸ hn)
    · obtain rfl := Option.some.inj (hnew.symm.trans hn)
      have hbefore := hlt (leg.retries m) (by rw [hst]; rfl)
      rw [count_resume]
      cases leg with
      | origin =>
        have hle : (m + 1).toNat ≤ m.toNat + 1 := by
          rw [UInt32.toNat_add]
          exact Nat.mod_le _ _
        exact hle.trans_lt (Nat.add_lt_add_right hbefore 1)
      | crossHost target retriesAttempted => exact hbefore.trans (Nat.lt_succ_self _)

/-- From the first attempt of the second phase that is re-run, the task is behind. -/
theorem behind_of_counted {count : ℕ} (h : Counted config k j count s)
    (hok : ¬RerunsAtOrigin k j s ev) (hs : step env config s ev = some s') :
    Behind k j (count + if isRerun k j ev then 1 else 0) s' := by
  unfold RerunsAtOrigin at hok
  push Not at hok
  obtain ⟨hrerun, t, home, sem, leg, m, delay, ht, hst, hleg⟩ := hok
  obtain rfl := isRerun_iff.1 hrerun
  rcases taskOf_step k j hs with ⟨hother, -⟩ | ⟨te, u, t', sc, sc', he, hu, ht', hm⟩
  · exact absurd rfl (hother _)
  · obtain rfl := Option.some.inj (ht.symm.trans hu)
    obtain rfl : .resume = te := by simpa using he
    refine ⟨t', ht', fun n hn => ?_⟩
    rw [count_resume]
    generalize s'.shared = p' at hm
    cases hm with
    | resume hst' =>
      obtain ⟨rfl, rfl, hw⟩ := Stage.working.inj (hst.symm.trans hst')
      obtain ⟨rfl, rfl, rfl⟩ := Work.backoff.inj hw
      cases leg with
      | origin => exact absurd rfl hleg
      | crossHost target retriesAttempted =>
        obtain rfl := Option.some.inj hn
        obtain ⟨hcount, -⟩ := h.task t retriesAttempted ht (by rw [hst]; rfl)
        exact hcount ▸ Nat.lt_succ_self _
    | stopped _ he _ => rcases he with ⟨he, -⟩ | ⟨he, -⟩ <;> cases he

theorem resultOf_eq_some {r : String × DownloadResult} (h : resultOf k j s = some r) :
    ∃ t, taskOf k j s = some t ∧ t.stage = .returned r := by
  obtain ⟨t, ht, hr⟩ := Option.bind_eq_some_iff.1 h
  refine ⟨t, ht, ?_⟩
  cases hst : t.stage with
  | returned r' =>
    simp only [hst] at hr
    rw [Option.some.inj hr]
  | _ => simp [hst] at hr

/-- A failure reports the number of its re-runs, which is within the limit, exactly in the runs
in which its task re-runs no attempt of a redirect to another host. -/
theorem retries_reported_iff {es : List (ℕ × DownloaderEvent)} {url url' : String}
    {error : DownloadError} {elapsed : Duration} {n : UInt32}
    (hr : run (step env config) init es = some s)
    (hfail : resultOf k j s = some (url, ⟨url', .failure error elapsed n⟩)) :
    (n.toNat = es.countP (isRerun k j) ∧ es.countP (isRerun k j) ≤ config.maxRetries.toNat) ↔
      Meets (step env config) (RerunsAtOrigin k j) init es := by
  obtain ⟨t, ht, hst⟩ := resultOf_eq_some hfail
  have hreports : t.stage.retries = some n := by rw [hst]; rfl
  have hnone : taskOf k j init = none := rfl
  have h0 : Counted config k j 0 init :=
    ⟨fun _ => rfl, fun t ht => (nomatch hnone.symm.trans ht),
      fun t _ ht => (nomatch hnone.symm.trans ht)⟩
  have hcases : (Meets (step env config) (RerunsAtOrigin k j) init es ∧
      Counted config k j (0 + es.countP (isRerun k j)) s) ∨
      (¬Meets (step env config) (RerunsAtOrigin k j) init es ∧
        Behind k j (0 + es.countP (isRerun k j)) s) :=
    run_countP_or (I := Counted config k j) (J := Behind k j)
      (fun _ _ _ _ h hok hs => counted_step h hok hs)
      (fun _ _ _ _ h hok hs => behind_of_counted h hok hs)
      (fun _ _ _ _ h hs => behind_step h hs) h0 hr
  rw [Nat.zero_add] at hcases
  rcases hcases with ⟨hm, hcounted⟩ | ⟨hm, t', ht', hbehind⟩
  · exact iff_of_true (hcounted.task t n ht hreports) hm
  · obtain rfl := Option.some.inj (ht.symm.trans ht')
    exact iff_of_false (fun h => (hbehind n hreports).ne h.1) hm

/-- One retry. -/
def retryOnce : Config :=
  { maxRetries := 1 }

/-- The first task up to its first attempt. -/
def toAttempt : List TaskEvent :=
  [.poll 0, .acquireGlobal, .lockHostSems, .acquireHost]

/-- An attempt that gets no connection. -/
def refused : List TaskEvent :=
  [.pool (.decide (fun _ => .ready) fun _ => .ready),
    .pool (.connect (.error (.connectionFailed "connection refused"))), .pool .insert, .settle 0 0]

/-- A host that is never reached. -/
def refusedRun : List (ℕ × DownloaderEvent) :=
  (0, .call ["http://h/a.png"] "out" (.ok ())) ::
    taskSteps 0 (toAttempt ++ refused ++ .resume :: refused)

theorem retries_reported_refusedRun :
    Meets (step oneUrl retryOnce) (RerunsAtOrigin 0 0) init refusedRun := by
  have heval : (run (step oneUrl retryOnce) init refusedRun).map (resultOf 0 0) =
      some (some ("http://h/a.png",
        ⟨"http://h/a.png", .failure (.connectionFailed "connection refused") 0 1⟩)) := by
    decide +kernel
  obtain ⟨s, hr, hs⟩ := Option.map_eq_some_iff.1 heval
  have hcount : refusedRun.countP (isRerun 0 0) = 1 := by decide +kernel
  exact (retries_reported_iff hr hs).1 ⟨hcount.symm, hcount.le⟩

/-- `http://a/1.png` has moved to the host `h`. -/
def moved : Env :=
  Env.ofTable [("http://a/1.png", ⟨some "http", some ⟨"a", none⟩, some "/1.png"⟩),
    ("http://h/3.png", ⟨some "http", some ⟨"h", none⟩, some "/3.png"⟩)]

/-- A host that is never reached after a redirect to it. -/
def movedRun : List (ℕ × DownloaderEvent) :=
  (0, .call ["http://a/1.png"] "out" (.ok ())) ::
    taskSteps 0 (toRequest ++ [.request [.found "http://h/3.png"], .pool .finish, .settle 0 0] ++
      refused ++ .resume :: refused)

/-- The retry at the host of the redirect is not reported. -/
theorem retries_reported_movedRun :
    (run (step moved retryOnce) init movedRun).map (resultOf 0 0) =
      some (some ("http://a/1.png",
        ⟨"http://a/1.png", .failure (.connectionFailed "connection refused") 0 0⟩)) ∧
      movedRun.countP (isRerun 0 0) = 1 := by
  decide +kernel

end Downloader

end Imgdl
