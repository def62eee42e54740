import Imgdl.Semaphores

/-!
# The load on a host

A task loads the host of the request phase it is in. During the first phase it holds a
permit of that host, but during the phase of a cross-host redirect it holds only the
permit of the host of its own URL. It follows that the requests that run against a host
at once are bounded by `max_concurrent_per_host` in the runs in which cross-host
redirects find room at their host (`host_load`), and not in others
(`host_load_exceeded`).
-/

set_option linter.unusedSectionVars false

namespace Imgdl

open Transition Interleaving

/-- The host of the request phase of a stage. -/
def Stage.targetHost : Stage → Option String
  | working home _ (.attempt leg _ _) => some (leg.target home).host
  | working home _ (.backoff leg _ _) => some (leg.target home).host
  | _ => none

/-- The host of a cross-host redirect the task follows. -/
def Stage.crossHost : Stage → Option String
  | working _ _ (.attempt (.crossHost target _) _ _) => some target.host
  | working _ _ (.backoff (.crossHost target _) _ _) => some target.host
  | _ => none

/-- The host of the connection a request runs on. -/
def Stage.requestHost (st : Stage) : Option String :=
  match st.client with
  | .requesting key _ => some key.1
  | _ => none

/-- Fewer than `max_concurrent_per_host` tasks load the host. -/
def HasRoom (config : Config) (tasks : ℕ → Option Task) (host : String) : Prop :=
  ∃ n, Count (AtStage fun st => st.targetHost = some host) tasks n ∧
    n < config.maxConcurrentPerHost

/-- A step that follows a cross-host redirect finds room at its host, and so does one that
takes a permit of a host to which a redirect is followed. -/
structure RedirectsFit (env : Env) (config : Config) (b : Batch) (e : BatchEvent) : Prop where
  redirect : ∀ j t elapsed subsecNanos home sem leg n result target retries,
    e = .task j (.settle elapsed subsecNanos) → b.tasks j = some t →
    t.stage = .working home sem (.attempt leg n (.finished result)) →
    settleAttempt env config t.url t.firstIndex leg n subsecNanos result =
      .redirect target retries → HasRoom config b.tasks target.host
  acquire : ∀ i j t home sem, e = .task j .acquireHost → b.tasks j = some t →
    t.stage = .hostWait home sem → AtStage (fun st => st.crossHost = some home.host) (b.tasks i) →
    HasRoom config b.tasks home.host

/-- At most `max_concurrent_per_host` tasks load a host. -/
def LoadBounded (config : Config) (tasks : ℕ → Option Task) : Prop :=
  ∀ host, ∃ n, Count (AtStage fun st => st.targetHost = some host) tasks n ∧
    n ≤ config.maxConcurrentPerHost

variable {env : Env} {config : Config} {p p' : PoolState} {b b' : Batch}

/-- A task loads a host on a cross-host redirect, or with a permit of the host. -/
theorem Stage.targetHost_cases {st : Stage} {host : String} (h : st.targetHost = some host) :
    st.crossHost = some host ∨ ∃ home sem, st.hostSem = some (home, sem) ∧
      st.holdsHost = some sem ∧ home.host = host := by
  cases st with
  | working home sem work =>
    cases work with
    | attempt leg | backoff leg =>
      cases leg with
      | origin => exact Or.inr ⟨home, sem, rfl, rfl, Option.some.inj h⟩
      | crossHost => exact Or.inl h
    | imageWrite | sidecarWrite => cases h
  | _ => cases h

/-- A section enters a request phase with the permit of its host, or on a redirect. -/
theorem TaskMove.targetHost {sc sc' : Scope} {t t' : Task} {e : TaskEvent}
    (hm : TaskMove env config p sc t e p' sc' t') :
    t'.stage.targetHost = none ∨ t'.stage.targetHost = t.stage.targetHost ∨
    (∃ home sem, e = .acquireHost ∧ t.stage = .hostWait home sem ∧ 0 < sc.permits sem ∧
      t'.stage.targetHost = some home.host) ∨
    ∃ elapsed subsecNanos home sem leg n result target retries, e = .settle elapsed subsecNanos ∧
      t.stage = .working home sem (.attempt leg n (.finished result)) ∧
      settleAttempt env config t.url t.firstIndex leg n subsecNanos result =
        .redirect target retries ∧ t'.stage.targetHost = some target.host := by
  cases hm with
  | acquireHost hs hfree => exact Or.inr (Or.inr (Or.inl ⟨_, _, rfl, hs, hfree, rfl⟩))
  | redirect hs hset =>
    exact Or.inr (Or.inr (Or.inr ⟨_, _, _, _, _, _, _, _, _, rfl, hs, hset, rfl⟩))
  | pool hs | answered hs | retry hs | resume hs =>
    exact Or.inr (Or.inl (by rw [hs]; rfl))
  | perform => exact Or.inr (Or.inl rfl)
  | stopped _ he _ => exact Or.inl (by rcases he with ⟨-, rfl⟩ | ⟨-, rfl⟩ <;> rfl)
  | _ => exact Or.inl rfl

/-- There are fewer than `max_concurrent_per_host` tasks. -/
def FewTasks (config : Config) (tasks : ℕ → Option Task) : Prop :=
  ∃ n, Count (fun o : Option Task => o.isSome = true) tasks n ∧ n < config.maxConcurrentPerHost

namespace FewTasks

variable {tasks : ℕ → Option Task} {j : ℕ} {t t' : Task}

theorem start {urls : List String} {outputDir : String} {mkdir : Except String Unit}
    (hs : Started config urls outputDir mkdir b)
    (hlt : (dedup urls).length < config.maxConcurrentPerHost) : FewTasks config b.tasks := by
  cases hs with
  | empty | failed => exact ⟨0, .zero fun _ h => (nomatch h), Nat.zero_lt_of_lt hlt⟩
  | spawned =>
    refine ⟨_, ⟨Finset.range (dedup urls).length, fun i => ?_, Finset.card_range _⟩, hlt⟩
    simp [spawnTasks]

theorem step {e : BatchEvent} (h : FewTasks config b.tasks)
    (hm : BatchMove env config p b e p' b') : FewTasks config b'.tasks := by
  cases hm with
  | task ht _ _ =>
    obtain ⟨n, hn, hlt⟩ := h
    exact ⟨n, hn.same (by rw [ht]; exact iff_of_true rfl rfl), hlt⟩
  | joined | joinedPanic | summaryPerformed | summarized => exact h
  | closed =>
    rw [close_eq]
    exact h

/-- With few tasks there is room everywhere. -/
theorem fits {e : BatchEvent} (h : FewTasks config b.tasks) : RedirectsFit env config b e := by
  obtain ⟨n, hn, hlt⟩ := h
  have room : ∀ host, HasRoom config b.tasks host := by
    intro host
    obtain ⟨m, hm, hle⟩ := hn.exists_of_imp (p := AtStage fun st => st.targetHost = some host)
      fun i ⟨t, ht, _⟩ => by rw [ht]; rfl
    exact ⟨m, hm, hle.trans_lt hlt⟩
  exact ⟨fun _ _ _ _ _ _ _ _ _ _ _ _ _ _ _ => room _, fun _ _ _ _ _ _ _ _ _ => room _⟩

end FewTasks

namespace LoadBounded

variable {tasks : ℕ → Option Task} {j : ℕ} {t' : Task}

theorem start {urls : List String} {outputDir : String} {mkdir : Except String Unit}
    (hs : Started config urls outputDir mkdir b) : LoadBounded config b.tasks := by
  refine fun host => ⟨0, .zero fun i => ?_, Nat.zero_le _⟩
  rintro ⟨t, ht, hhost⟩
  obtain ⟨url, firstIndex, rfl⟩ := hs.task_eq ht
  cases hhost

/-- A section that enters no phase, or one with room, keeps the bound. -/
theorem update (h : LoadBounded config tasks)
    (hroom : ∀ host, t'.stage.targetHost = some host →
      AtStage (fun st => st.targetHost = some host) (tasks j) ∨ HasRoom config tasks host) :
    LoadBounded config (Function.update tasks j (some t')) := by
  intro host
  obtain ⟨n, hn, hle⟩ := h host
  obtain ⟨m, hm, hsucc, hsame⟩ := hn.update_le j (some t')
  refine ⟨m, hm, ?_⟩
  by_cases hstay : t'.stage.targetHost = some host →
      AtStage (fun st => st.targetHost = some host) (tasks j)
  · exact (hsame fun hc => hstay (atStage_some.1 hc)).trans hle
  · push Not at hstay
    obtain ⟨n', hn', hlt⟩ := (hroom host hstay.1).resolve_left hstay.2
    have heq := hn.unique hn'
    omega

/-- Where no redirect to the host is followed, a free permit is room. -/
theorem room_of_permit (h : LoadBounded config tasks) {sc : Scope}
    (hsems : HostSems config sc tasks) {home : Target} {sem : SemId}
    (hhome : sc.hostSems home.host = some sem) (hfree : 0 < sc.permits sem)
    (hcross : ∀ i, ¬AtStage (fun st => st.crossHost = some home.host) (tasks i)) :
    HasRoom config tasks home.host := by
  obtain ⟨n, hn, -⟩ := h home.host
  obtain ⟨m, hm, hsum⟩ := hsems.permits home.host sem hhome
  have hold : ∀ i, AtStage (fun st => st.targetHost = some home.host) (tasks i) →
      AtStage (fun st => st.holdsHost = some sem) (tasks i) := by
    rintro i ⟨u, hu, hhost⟩
    rcases Stage.targetHost_cases hhost with hc | ⟨home', sem', hsem', hhold, heq⟩
    · exact absurd ⟨u, hu, hc⟩ (hcross i)
    · have hown := hsems.own i u home' sem' hu hsem'
      rw [heq, hhome] at hown
      exact ⟨u, hu, hhold.trans hown.symm⟩
  obtain ⟨n', hn', hle⟩ := hm.exists_of_imp hold
  have heq := hn.unique hn'
  exact ⟨n, hn, by omega⟩

theorem step {e : BatchEvent} (h : LoadBounded config b.tasks)
    (hsems : HostSems config b.scope b.tasks) (hfit : RedirectsFit env config b e)
    (hm : BatchMove env config p b e p' b') : LoadBounded config b'.tasks := by
  cases hm with
  | @task j e t t' _ _ ht _ hm =>
    refine h.update fun host hhost => ?_
    rcases hm.targetHost with hnone | hsame | ⟨home, sem, rfl, hs, hfree, hnew⟩ |
        ⟨_, _, _, _, _, _, _, target, _, rfl, hs, hset, hnew⟩
    · rw [hnone] at hhost
      cases hhost
    · exact Or.inl ⟨t, ht, hsame.symm.trans hhost⟩
    · obtain rfl := Option.some.inj (hnew.symm.trans hhost)
      by_cases hcross : ∃ i, AtStage (fun st => st.crossHost = some home.host) (b.tasks i)
      · obtain ⟨i, hi⟩ := hcross
        exact Or.inr (hfit.acquire i j t home sem rfl ht hs hi)
      · push Not at hcross
        exact Or.inr (h.room_of_permit hsems (hsems.own j t home sem ht (by rw [hs]; rfl)) hfree
          hcross)
    · obtain rfl := Option.some.inj (hnew.symm.trans hhost)
      exact Or.inr (hfit.redirect j t _ _ _ _ _ _ _ target _ rfl ht hs hset)
  | joined | joinedPanic | summaryPerformed | summarized => exact h
  | closed =>
    rw [close_eq]
    exact h

end LoadBounded

/-- A request runs on a connection for the host of its phase. -/
theorem Keyed.targetHost {t : Task} {host : String} (h : Keyed t)
    (hreq : t.stage.requestHost = some host) : t.stage.targetHost = some host := by
  unfold Stage.requestHost at hreq
  cases hst : t.stage with
  | working home sem work =>
    cases work with
    | attempt leg n c =>
      simp only [hst, Stage.client] at hreq
      cases c with
      | requesting key handle =>
        obtain rfl := Option.some.inj hreq
        have hkey := h home sem leg n _ key hst rfl
        rw [hkey]
        rfl
      | _ => cases hreq
    | _ => simp [hst, Stage.client] at hreq
  | _ => simp [hst, Stage.client] at hreq

namespace Downloader

variable {s : State} {es : List (ℕ × DownloaderEvent)} {host : String}

/-- The calls of a run have fewer URLs than a host takes at once. -/
def FewUrls (config : Config) : DownloaderEvent → Prop
  | .call urls _ _ => (dedup urls).length < config.maxConcurrentPerHost
  | .batch _ => True

/-- Redirects always fit in calls with few URLs. -/
theorem fits_of_few {es : List (ℕ × DownloaderEvent)} (h : ∀ e ∈ es, FewUrls config e.2) (k : ℕ) :
    Meets (step env config) (OnSteps k (RedirectsFit env config)) init es := by
  have hm : Meets (step env config) (fun _ e => FewUrls config e.2) init es :=
    .of_events (fun _ _ => id) h
  refine hm.of_invariant (I := fun s => ∀ k b, s.locals k = some b → FewTasks config b.tasks)
    (fun s e s' hI hfew hs k' b' hb' => ?_) (fun s e hI _ hk b be hb _ => (hI k b hb).fits)
    fun _ _ h => (nomatch h)
  obtain ⟨k, e⟩ := e
  rcases step_local hs hb' with ⟨-, hb⟩ | ⟨-, urls, _, _, rfl, hst⟩ | ⟨rfl, b, be, hb, rfl, hm⟩
  · exact hI k' b' hb
  · exact .start hst hfew
  · exact (hI k' b hb).step hm

/-- A host each for two URLs that redirect to the host `h`. -/
def threeHosts : Env :=
  Env.ofTable [("http://a/1.png", ⟨some "http", some ⟨"a", none⟩, some "/1.png"⟩),
    ("http://b/2.png", ⟨some "http", some ⟨"b", none⟩, some "/2.png"⟩),
    ("http://h/3.png", ⟨some "http", some ⟨"h", none⟩, some "/3.png"⟩)]

/-- From the request of a task to the redirect it follows. -/
def toRedirect : List TaskEvent :=
  toRequest ++ [.request [.found "http://h/3.png"], .pool .finish, .settle 0 0]

/-- The first task runs its request against `h`. -/
def redirectRun : List (ℕ × DownloaderEvent) :=
  (0, .call ["http://a/1.png", "http://b/2.png"] "out" (.ok ())) ::
    taskSteps 0 (toRedirect ++ opensH2)

/-- The host of the request that the task `j` of the call 0 runs. -/
def requestHostOf (j : ℕ) (s : State) : Option String :=
  (s.locals 0).bind fun b => (b.tasks j).bind fun t => t.stage.requestHost

theorem requestHostOf_eq_some {j : ℕ} (h : requestHostOf j s = some host)
    (hb : s.locals 0 = some b) :
    AtStage (fun st => st.requestHost = some host) (b.tasks j) := by
  rw [requestHostOf, hb, Option.bind_some] at h
  obtain ⟨t, ht, hreq⟩ := Option.bind_eq_some_iff.1 h
  exact ⟨t, ht, hreq⟩

/-- In the runs in which redirects to other hosts find room there, at most
`max_concurrent_per_host` tasks of a call run a request against a host at once. -/
theorem host_load {k : ℕ} (hr : run (step env config) init es = some s)
    (hm : Meets (step env config) (OnSteps k (RedirectsFit env config)) init es)
    (hb : s.locals k = some b) (host : String) : ∃ n,
      Count (AtStage fun st => st.requestHost = some host) b.tasks n ∧
        n ≤ config.maxConcurrentPerHost := by
  have hkeyed : TaskInvariant env config Keyed := keyed_invariant
  have hinv := batch_run_invariant
    (I := fun b => HostSems config b.scope b.tasks ∧ LoadBounded config b.tasks ∧
      ∀ j t, b.tasks j = some t → Keyed t)
    (fun _ _ _ _ hs => ⟨HostSems.start hs, LoadBounded.start hs, fun _ _ => hkeyed.start hs⟩)
    (fun _ _ _ _ _ hI hfit hm => ⟨hI.1.step hm, hI.2.1.step hI.1 hfit hm,
      hkeyed.move hI.2.2 hm⟩) hm hr b hb
  obtain ⟨m, hcount, hle⟩ := hinv.2.1 host
  obtain ⟨n, hn, hnm⟩ := hcount.exists_of_imp (p := AtStage fun st => st.requestHost = some host)
    fun i ⟨t, ht, hreq⟩ => ⟨t, ht, (hinv.2.2 i t ht).targetHost hreq⟩
  exact ⟨n, hn, hnm.trans hle⟩

theorem host_load_redirectRun : ∃ s b, run (step threeHosts {}) init redirectRun = some s ∧
    s.locals 0 = some b ∧ requestHostOf 0 s = some "h" ∧
    ∃ n, Count (AtStage fun st => st.requestHost = some "h") b.tasks n ∧ n ≤ 100 := by
  have hfew : ∀ e ∈ redirectRun, FewUrls {} e.2 := by
    refine List.forall_mem_cons.2 ⟨?_, fun e he => ?_⟩
    · show (dedup ["http://a/1.png", "http://b/2.png"]).length < 100
      decide
    · obtain ⟨te, -, rfl⟩ := List.mem_map.1 he
      exact trivial
  have hm : Meets (step threeHosts {}) (OnSteps 0 (RedirectsFit threeHosts {})) init redirectRun :=
    fits_of_few hfew 0
  have heval : (run (step threeHosts {}) init redirectRun).map (requestHostOf 0) =
      some (some "h") := by decide +kernel
  obtain ⟨s, hr, hs⟩ := Option.map_eq_some_iff.1 heval
  obtain ⟨b, hb, -⟩ := Option.bind_eq_some_iff.1 hs
  exact ⟨s, b, hr, hb, hs, host_load hr hm hb "h"⟩

/-- One request at a time for each host. -/
def oneEach : Config :=
  { maxConcurrentPerHost := 1 }

/-- The second task follows a redirect to `h` too. -/
def convergeRun : List (ℕ × DownloaderEvent) :=
  redirectRun ++ taskSteps 1 (toRedirect ++
    [.pool (.decide (fun _ => .ready) fun _ => .ready)])

/-- Two redirects to one host run their requests there at once. -/
theorem host_load_exceeded : ∃ s b, run (step threeHosts oneEach) init convergeRun = some s ∧
    s.locals 0 = some b ∧ ¬∃ n,
      Count (AtStage fun st => st.requestHost = some "h") b.tasks n ∧
        n ≤ oneEach.maxConcurrentPerHost := by
  have heval : (run (step threeHosts oneEach) init convergeRun).map
      (fun s => (requestHostOf 0 s, requestHostOf 1 s)) = some (some "h", some "h") := by
    decide +kernel
  obtain ⟨s, hr, hs⟩ := Option.map_eq_some_iff.1 heval
  obtain ⟨h0, h1⟩ := Prod.mk.inj hs
  obtain ⟨b, hb, -⟩ := Option.bind_eq_some_iff.1 h0
  refine ⟨s, b, hr, hb, ?_⟩
  rintro ⟨n, hn, hle⟩
  have htwo := hn.two_le Nat.zero_ne_one (requestHostOf_eq_some h0 hb) (requestHostOf_eq_some h1 hb)
  exact absurd (htwo.trans hle) (by decide)

end Downloader

end Imgdl
