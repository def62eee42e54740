import Imgdl.TwoLevels
import Mathlib.Algebra.Order.Ring.Rat

/-!
# The Python configuration

`PythonConfig.new` is the check of the Python constructor, `pythonConfigToCore` the
conversion to a `Config`. A double is NaN, an infinity or a rational, a `usize` has 64 bits,
and `none` is a panic.

The constructor only rejects timeouts below zero. NaN, infinity and large timeouts make
`Duration::from_secs_f64` panic, large limits `Semaphore::new`, and with a limit of zero
there is no permit to wait for (`PythonConfig.runnable_iff`). A download of a URL with a host
then never returns (`Downloader.not_returned_of_no_permit`).
-/

namespace Imgdl

open Transition Interleaving

/-! ## Doubles and durations -/

/-- A double. -/
inductive F64 where
  | nan
  | infinity (negative : Bool)
  | finite (q : ℚ)
  deriving DecidableEq

/-- `x < 0.0`. -/
def F64.isNegative : F64 → Bool
  | nan => false
  | infinity negative => negative
  | finite q => q < 0

/-- The nearest integer, or the even one of two. -/
def roundHalfEven (q : ℚ) : ℤ :=
  if q - q.floor < 1 / 2 then q.floor
  else if 1 / 2 < q - q.floor then q.floor + 1
  else if q.floor % 2 = 0 then q.floor
  else q.floor + 1

/-- `Duration::from_secs_f64`. The greatest double below `2^64` does not round up to it. -/
def Duration.fromSecsF64 : F64 → Option Duration
  | .nan => none
  | .infinity _ => none
  | .finite q => if q < 0 ∨ 2 ^ 64 ≤ q then none else some (roundHalfEven (q * 1000000000)).toNat

/-- A number of seconds that is a `Duration`. -/
def F64.IsDuration (x : F64) : Prop :=
  ∃ q, x = .finite q ∧ 0 ≤ q ∧ q < 2 ^ 64

theorem isSome_fromSecsF64 {x : F64} : (Duration.fromSecsF64 x).isSome ↔ x.IsDuration := by
  cases x with
  | nan => exact iff_of_false (by simp [Duration.fromSecsF64]) fun ⟨_, h, _⟩ => (nomatch h)
  | infinity negative =>
    exact iff_of_false (by simp [Duration.fromSecsF64]) fun ⟨_, h, _⟩ => (nomatch h)
  | finite q =>
    change (if q < 0 ∨ 2 ^ 64 ≤ q then none
      else some (roundHalfEven (q * 1000000000)).toNat).isSome ↔ _
    split_ifs with h
    · refine iff_of_false (by simp) ?_
      rintro ⟨_, ⟨⟩, hpos, hlt⟩
      exact h.elim (not_lt.2 hpos) (not_le.2 hlt)
    · rw [not_or, not_lt, not_le] at h
      exact iff_of_true rfl ⟨q, rfl, h⟩

/-! ## Semaphores -/

/-- `Semaphore::MAX_PERMITS`, which is `usize::MAX >> 3`. -/
def maxPermits : ℕ :=
  (2 ^ 64 - 1) >>> 3

/-- `Semaphore::new`. -/
def semaphoreNew (permits : ℕ) : Option ℕ :=
  if permits ≤ maxPermits then some permits else none

/-! ## The configuration -/

/-- The arguments of the constructor with their defaults, which become the fields. -/
structure PythonConfig where
  bufferSize : UInt32 := 524288
  connectionsPerHost : UInt64 := 1
  dnsCacheTtlSecs : UInt64 := 300
  maxConcurrent : UInt64 := 200
  maxConcurrentPerHost : UInt64 := 100
  maxRetries : UInt32 := 3
  retryBaseDelayMs : UInt64 := 100
  connectTimeoutSecs : F64 := .finite 10
  requestTimeoutSecs : F64 := .finite 30
  batchTimeoutSecs : Option F64 := none
  namingStrategy : String := "url_based"
  writeMetadata : Bool := false
  writeSummary : Bool := false
  runtimeThreads : UInt64 := 0

/-- `VALID_NAMING_STRATEGIES`. -/
def validNamingStrategies : List String :=
  ["content_hash", "url_based", "sequential", "file_header"]

/-- `Config::new`. -/
def PythonConfig.new (args : PythonConfig) : Except String PythonConfig :=
  if ¬validNamingStrategies.contains args.namingStrategy then
    .error (s!"Invalid naming_strategy '{args.namingStrategy}'. " ++
      "Valid options: content_hash, url_based, sequential, file_header")
  else if args.connectTimeoutSecs.isNegative then
    .error "connect_timeout_secs must be non-negative"
  else if args.requestTimeoutSecs.isNegative then
    .error "request_timeout_secs must be non-negative"
  else if args.batchTimeoutSecs.any F64.isNegative then
    .error "batch_timeout_secs must be non-negative"
  else .ok args

/-- The strategy of a name. `none` is `unreachable!`. -/
def NamingStrategy.ofName : String → Option NamingStrategy
  | "content_hash" => some .contentHash
  | "url_based" => some .urlBased
  | "sequential" => some .sequential
  | "file_header" => some .fileHeader
  | _ => none

/-- `python_config_to_core`. -/
def pythonConfigToCore (config : PythonConfig) : Option Config := do
  let namingStrategy ← NamingStrategy.ofName config.namingStrategy
  let defaults : Config := {}
  let connectTimeout ← Duration.fromSecsF64 config.connectTimeoutSecs
  let requestTimeout ← Duration.fromSecsF64 config.requestTimeoutSecs
  let batchTimeout ← match config.batchTimeoutSecs with
    | some bt => (Duration.fromSecsF64 bt).map some
    | none => some none
  return {
    streamWindowSize := config.bufferSize
    connectionsPerHost := config.connectionsPerHost.toNat
    dnsCacheTtl := Duration.fromSecs config.dnsCacheTtlSecs.toNat
    userAgent := defaults.userAgent
    maxRedirects := defaults.maxRedirects
    maxConcurrentGlobal := config.maxConcurrent.toNat
    maxConcurrentPerHost := config.maxConcurrentPerHost.toNat
    maxRetries := config.maxRetries
    retryBaseDelay := Duration.fromMillis config.retryBaseDelayMs.toNat
    connectTimeout
    requestTimeout
    batchTimeout
    namingStrategy
    writeMetadata := config.writeMetadata
    writeSummary := config.writeSummary }

/-- The configuration can be run : its conversion does not panic, and neither do the two
semaphores of a batch, which have a permit. -/
def PythonConfig.Runnable (config : PythonConfig) : Prop :=
  ∃ core globalSem hostSem, pythonConfigToCore config = some core ∧
    semaphoreNew core.maxConcurrentGlobal = some globalSem ∧ 1 ≤ globalSem ∧
    semaphoreNew core.maxConcurrentPerHost = some hostSem ∧ 1 ≤ hostSem

/-- A limit with a permit that does not make `Semaphore::new` panic. -/
def IsLimit (n : ℕ) : Prop :=
  1 ≤ n ∧ n ≤ maxPermits

theorem semaphoreNew_iff {n : ℕ} : (∃ m, semaphoreNew n = some m ∧ 1 ≤ m) ↔ IsLimit n := by
  unfold semaphoreNew IsLimit
  split_ifs with h <;> simp [h]

/-- A name that the constructor accepts is known to the conversion. -/
theorem isSome_ofName {name : String} (h : name ∈ validNamingStrategies) :
    (NamingStrategy.ofName name).isSome := by
  simp only [validNamingStrategies, List.mem_cons, List.not_mem_nil, or_false] at h
  rcases h with rfl | rfl | rfl | rfl <;> rfl

/-- What the conversion of an accepted configuration gives, and when it does not panic. -/
theorem pythonConfigToCore_spec {config : PythonConfig}
    (h : config.namingStrategy ∈ validNamingStrategies) :
    ((pythonConfigToCore config).isSome ↔ config.connectTimeoutSecs.IsDuration ∧
      config.requestTimeoutSecs.IsDuration ∧
      ∀ bt, config.batchTimeoutSecs = some bt → bt.IsDuration) ∧
    ∀ core, pythonConfigToCore config = some core →
      core.maxConcurrentGlobal = config.maxConcurrent.toNat ∧
      core.maxConcurrentPerHost = config.maxConcurrentPerHost.toNat := by
  obtain ⟨strategy, hstrategy⟩ := Option.isSome_iff_exists.1 (isSome_ofName h)
  simp only [← isSome_fromSecsF64]
  unfold pythonConfigToCore
  rw [hstrategy]
  cases Duration.fromSecsF64 config.connectTimeoutSecs with
  | none => simp
  | some connectTimeout =>
    cases Duration.fromSecsF64 config.requestTimeoutSecs with
    | none => simp
    | some requestTimeout =>
      cases config.batchTimeoutSecs with
      | none => simp
      | some bt =>
        cases hbt : Duration.fromSecsF64 bt with
        | none => simp [hbt]
        | some batchTimeout => simp [hbt]

theorem PythonConfig.new_eq_ok {args config : PythonConfig} (h : new args = .ok config) :
    config = args ∧ args.namingStrategy ∈ validNamingStrategies := by
  unfold new at h
  split_ifs at h with hname
  exact ⟨(Except.ok.inj h).symm, by simpa using hname⟩

/-- An accepted configuration can be run exactly when its timeouts are numbers of seconds below
`2 ^ 64`, and its limits are permits that a semaphore can have, and at least one. -/
theorem PythonConfig.runnable_iff {args config : PythonConfig} (h : new args = .ok config) :
    config.Runnable ↔ (args.connectTimeoutSecs.IsDuration ∧ args.requestTimeoutSecs.IsDuration ∧
      ∀ bt, args.batchTimeoutSecs = some bt → bt.IsDuration) ∧
      IsLimit args.maxConcurrent.toNat ∧ IsLimit args.maxConcurrentPerHost.toNat := by
  obtain ⟨rfl, hname⟩ := new_eq_ok h
  obtain ⟨hsome, hlimits⟩ := pythonConfigToCore_spec hname
  rw [← hsome, Option.isSome_iff_exists, ← semaphoreNew_iff, ← semaphoreNew_iff]
  constructor
  · rintro ⟨core, globalSem, hostSem, hcore, hglobal, hg, hhost, hh⟩
    obtain ⟨hmax, hper⟩ := hlimits core hcore
    exact ⟨⟨core, hcore⟩, ⟨globalSem, hmax ▸ hglobal, hg⟩, hostSem, hper ▸ hhost, hh⟩
  · rintro ⟨⟨core, hcore⟩, ⟨globalSem, hglobal, hg⟩, hostSem, hhost, hh⟩
    obtain ⟨hmax, hper⟩ := hlimits core hcore
    exact ⟨core, globalSem, hostSem, hcore, hmax ▸ hglobal, hg, hper ▸ hhost, hh⟩

/-- The defaults can be run. -/
theorem PythonConfig.runnable_default : Runnable {} := by
  have hten : F64.IsDuration (.finite 10) := ⟨10, rfl, by decide, by decide⟩
  have hthirty : F64.IsDuration (.finite 30) := ⟨30, rfl, by decide, by decide⟩
  have hnew : new {} = .ok {} := rfl
  exact (runnable_iff hnew).2 ⟨⟨hten, hthirty, fun _ h => (nomatch h)⟩, ⟨by decide, by decide⟩,
    by decide, by decide⟩

/-- A timeout that is not a number is accepted, and its conversion panics. -/
theorem PythonConfig.not_runnable_nan : ¬∀ args config : PythonConfig,
    new args = .ok config → config.Runnable := by
  intro h
  have hnew : new { connectTimeoutSecs := .nan } = .ok { connectTimeoutSecs := .nan } := rfl
  obtain ⟨core, -, -, hcore, -⟩ := h _ _ hnew
  cases hcore

/-! ## No permits -/

/-- A limit is zero. -/
def Config.NoPermit (config : Config) : Prop :=
  config.maxConcurrentGlobal = 0 ∨ config.maxConcurrentPerHost = 0

variable {env : Env} {config : Config} {p p' : PoolState} {b b' : Batch}

theorem Stage.holdsGlobal_of_holdsHost {st : Stage} {sem : SemId} (h : st.holdsHost = some sem) :
    st.holdsGlobal = true := by
  cases st with
  | working => rfl
  | _ => cases h

/-- Without permits nobody holds one. -/
theorem not_holdsHost_of_no_permit (hzero : config.NoPermit)
    (hglobal : GlobalSem config b.scope b.tasks) (hhost : HostSems config b.scope b.tasks) {j : ℕ}
    {t : Task} (ht : b.tasks j = some t) : t.stage.holdsHost = none := by
  refine Option.eq_none_iff_forall_ne_some.2 fun sem hsem => ?_
  rcases hzero with hzero | hzero
  · obtain ⟨n, hcount, hsum⟩ := hglobal
    have hpos := hcount.pos (i := j) (by
      rw [ht, atStage_some]; exact Stage.holdsGlobal_of_holdsHost hsem)
    omega
  · obtain ⟨home, hhome⟩ := Stage.hostSem_of_holdsHost hsem
    obtain ⟨n, hcount, hsum⟩ := hhost.permits _ _ (hhost.own j t home sem ht hhome)
    have hpos := hcount.pos (i := j) (by rw [ht, atStage_some]; exact hsem)
    omega

/-- A task returns from its request, or without having sent one. -/
theorem TaskMove.returns {sc sc' : Scope} {t t' : Task} {e : TaskEvent}
    (hm : TaskMove env config p sc t e p' sc' t') {r : String × DownloadResult}
    (h : t'.stage = .returned r) : t.stage = .returned r ∨ t.stage.holdsHost ≠ none ∨
      ∃ e, parseTarget env.http config t.url = .error e := by
  cases hm with
  | perform => exact Or.inl h
  | rejected _ hparse => exact Or.inr (Or.inr ⟨_, hparse⟩)
  | failed hs | imageFailed hs | imageDone hs | sidecarDone hs =>
    exact Or.inr (Or.inl (by rw [hs]; exact Option.some_ne_none _))
  | stopped _ he _ => rcases he with ⟨-, rfl⟩ | ⟨-, rfl⟩ <;> cases h
  | _ => cases h

/-- The tasks that returned had no target. -/
def OnlyRejected (env : Env) (config : Config) (b : Batch) : Prop :=
  ∀ j t r, b.tasks j = some t → t.stage = .returned r →
    ∃ e, parseTarget env.http config t.url = .error e

theorem onlyRejected_start {urls : List String} {outputDir : String} {mkdir : Except String Unit}
    (hs : Started config urls outputDir mkdir b) : OnlyRejected env config b := by
  intro j t r ht hret
  obtain ⟨url, firstIndex, rfl⟩ := hs.task_eq ht
  cases hret

theorem onlyRejected_step {e : BatchEvent} (hzero : config.NoPermit)
    (hglobal : GlobalSem config b.scope b.tasks) (hhost : HostSems config b.scope b.tasks)
    (h : OnlyRejected env config b) (hm : BatchMove env config p b e p' b') :
    OnlyRejected env config b' := by
  cases hm with
  | @task i _ t t' _ _ ht _ hm =>
    intro j u r hu hret
    rcases update_eq_some hu with ⟨rfl, rfl⟩ | ⟨-, hu⟩
    · rw [hm.ident.1]
      rcases hm.returns hret with hret | hholds | herr
      · exact h j t r ht hret
      · exact absurd (not_holdsHost_of_no_permit hzero hglobal hhost ht) hholds
      · exact herr
    · exact h j u r hu hret
  | joined | joinedPanic | summarized | summaryPerformed => exact h
  | closed =>
    rw [close_eq]
    exact h

namespace Downloader

/-- With a limit of zero no download of a URL with a target returns, in any run. -/
theorem not_returned_of_no_permit (hzero : config.NoPermit) {s : State}
    (h : Reaches (step env config) init s) {k j : ℕ} (hb : s.locals k = some b) {t : Task}
    (ht : b.tasks j = some t) {home : Target} (hhome : parseTarget env.http config t.url = .ok home)
    (r : String × DownloadResult) : t.stage ≠ .returned r := by
  have hinv := batch_invariant (I := fun b => GlobalSem config b.scope b.tasks ∧
      HostSems config b.scope b.tasks ∧ OnlyRejected env config b)
    (fun _ _ _ _ hs => ⟨GlobalSem.start hs, HostSems.start hs, onlyRejected_start hs⟩)
    (fun _ _ _ _ _ hI hm => ⟨hI.1.step hm, hI.2.1.step hm,
      onlyRejected_step hzero hI.1 hI.2.1 hI.2.2 hm⟩) h hb
  intro hret
  obtain ⟨e, he⟩ := hinv.2.2 j t r ht hret
  rw [hhome] at he
  cases he

/-- A configuration that can be run has the permits that keep the tasks of a batch going. -/
theorem two_levels_of_runnable {pyConfig : PythonConfig} (hrun : pyConfig.Runnable)
    (hcore : pythonConfigToCore pyConfig = some config) {s : State}
    (h : Reaches (step env config) init s) {k : ℕ} (hb : s.locals k = some b) :
    TwoLevels env config s.shared b := by
  obtain ⟨core, globalSem, hostSem, hcore', hglobal, hg, hhost, hh⟩ := hrun
  obtain rfl := Option.some.inj (hcore.symm.trans hcore')
  exact two_levels h (semaphoreNew_iff.1 ⟨_, hglobal, hg⟩).1 (semaphoreNew_iff.1 ⟨_, hhost, hh⟩).1
    hb

end Downloader

end Imgdl
