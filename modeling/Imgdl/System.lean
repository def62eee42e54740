import Imgdl.Cancellation
import Imgdl.Endpoints
import Imgdl.Origin

/-!
# The downloader on the network

The downloader opens a connection in one step, the network in as many as `open_connection` has
await points. `System` puts the two together : the tasks of all calls are the attempts of the
network, and a task that is to open a connection waits for an `open_connection` call of its own,
which is dropped with it.

A run of the system is one of the downloader, with the ends of these calls in the place of
connects, and one of the network in which the same is seen (`refines_both`). So what was shown of
the two holds of the whole, and no request leaves for another server than one that a lookup of the
host of its own URL gave (`request_destination`).
-/

set_option linter.unusedSectionVars false

namespace Imgdl

open Transition Interleaving

/-- The downloader, the DNS cache it resolves with, where its connections lead, and the
`open_connection` calls of its tasks. -/
structure System where
  downloader : Downloader.State
  dns : DnsState
  peers : SenderId → Option Peer
  openings : ℕ × ℕ → Opening

/-- A step of the downloader, or of the `open_connection` call of a task. -/
inductive SystemEvent where
  | downloader (k : ℕ) (e : DownloaderEvent)
  | opening (k j : ℕ) (e : OpenEvent)

/-- The sections of a task in which its attempt goes on. -/
def TaskEvent.stepsClient : TaskEvent → Bool
  | poll _ => false
  | acquireGlobal => false
  | lockHostSems => false
  | perform _ => false
  | written _ _ => false
  | _ => true

/-- The end of an open is not an event of its own. -/
def DownloaderEvent.connects : DownloaderEvent → Bool
  | .batch (.task _ (.pool (.connect _))) => true
  | _ => false

namespace System

section Step

variable (env : Env) (config : Config) (serverName : String → Except String String)
  (plainMode : Bool)

/-- The calls once the downloader is in `d` : an attempt that went on dropped its call, or starts
one. -/
def reopen (y : System) (d : Downloader.State) (k : ℕ) : DownloaderEvent → ℕ × ℕ → Opening
  | .batch (.task j e) => if e.stepsClient then
      Function.update y.openings (k, j) (Opening.start (Downloader.clientOf d (k, j)))
    else y.openings
  | _ => y.openings

/-- The end of the call of a task, up to the next await of the task. -/
def settle (y : System) (k j : ℕ) (result : Except DownloadError Peer) : Option System :=
  (Downloader.step env config y.downloader
    (k, .batch (.task j (.pool (.connect (result.map Peer.protocol)))))).map fun d =>
    { y with
      downloader := d
      peers := match result with
        | .ok peer => Function.update y.peers y.downloader.shared.nextSender (some peer)
        | .error _ => y.peers
      openings := Function.update y.openings (k, j) .idle }

/-- The next step. -/
def step (y : System) : SystemEvent → Option System
  | .downloader k e => if e.connects then none
    else (Downloader.step env config y.downloader (k, e)).map fun d =>
      { y with downloader := d, openings := y.reopen d k e }
  | .opening k j e => match Downloader.clientOf y.downloader (k, j) with
    | .opening key _ =>
      (openStep serverName plainMode y.dns key.1 (y.openings (k, j)) e).bind fun r =>
        match r.2 with
        | .done result => settle env config { y with dns := r.1 } k j result
        | o => some { y with dns := r.1, openings := Function.update y.openings (k, j) o }
    | _ => none

end Step

/-- A new downloader, with an empty cache. -/
def init (ttl : Duration) : System :=
  ⟨Downloader.init, ⟨DnsCache.new ttl, 0, fun _ => none⟩, fun _ => none, fun _ => .idle⟩

/-- The network whose attempts are the tasks of the downloader. -/
def netOf (y : System) : Net.State (ℕ × ℕ) :=
  ⟨⟨y.downloader.shared, y.dns, y.peers⟩, fun i =>
    ⟨Downloader.clientOf y.downloader i, y.openings i⟩⟩

/-- What is seen up to the end of a step. -/
def note (y : System) (e : SystemEvent) (L : List ((ℕ × ℕ) × Sighting)) :
    List ((ℕ × ℕ) × Sighting) :=
  match e with
  | .downloader _ _ => L
  | .opening k j e => L ++ ((y.openings (k, j)).sees e).map fun x => ((k, j), x)

/-- What is seen of a run of a new system. -/
def sightings (env : Env) (config : Config) (serverName : String → Except String String)
    (plainMode : Bool) (ttl : Duration) (es : List SystemEvent) : List ((ℕ × ℕ) × Sighting) :=
  record (step env config serverName plainMode) note (init ttl) es []

end System

section Sections

variable {env : Env} {config : Config} {serverName : String → Except String String}
  {plainMode : Bool}

/-- What a section of a task does to its attempt, if it is not the end of an open. -/
theorem TaskMove.sections {p p' : PoolState} {sc sc' : Scope} {t t' : Task} {e : TaskEvent}
    (hm : TaskMove env config p sc t e p' sc' t') (hne : ∀ r, e ≠ .pool (.connect r)) :
    ∃ ces, Imgdl.clientRun config (p, t.stage.client) ces = some (p', t'.stage.client) ∧
      (∀ ce ∈ ces, ∀ r, ce ≠ .connect r) ∧ (ces = [] ↔ e.stepsClient = false) := by
  cases hm with
  | rejected hs | accepted hs | acquireGlobal hs | lockFound hs | lockFresh hs
  | imageFailed hs | imageDone hs | sidecar hs | sidecarDone hs =>
    exact ⟨[], by rw [hs]; rfl, by simp, by simp [TaskEvent.stepsClient]⟩
  | perform => exact ⟨[], rfl, by simp, by simp [TaskEvent.stepsClient]⟩
  | @acquireHost home _ hs =>
    exact ⟨[.start home.key], by rw [hs]; rfl, by simp, by simp [TaskEvent.stepsClient]⟩
  | @resume home _ leg _ _ hs =>
    exact ⟨[.start (leg.target home).key], by rw [hs]; rfl, by simp,
      by simp [TaskEvent.stepsClient]⟩
  | @pool _ _ _ _ c c' ce _ hs _ hstep =>
    refine ⟨[ce], ?_, fun ce' hce r hr => ?_, by simp [TaskEvent.stepsClient]⟩
    · rw [hs]
      exact run_singleton hstep
    · rw [List.mem_singleton.1 hce] at hr
      exact hne r (by rw [hr])
  | @answered _ _ _ _ _ _ _ _ result hs _ =>
    exact ⟨[.respond result], by rw [hs]; rfl, by simp, by simp [TaskEvent.stepsClient]⟩
  | burst hs =>
    exact ⟨[.cancel], by rw [hs]; rfl, by simp, by simp [TaskEvent.stepsClient]⟩
  | retry hs | failed hs | store hs | unnamed hs =>
    exact ⟨[.leave], by rw [hs]; rfl, by simp, by simp [TaskEvent.stepsClient]⟩
  | @redirect _ target _ _ _ _ _ _ _ hs _ =>
    exact ⟨[.leave, .start target.key], by rw [hs]; rfl, by simp,
      by simp [TaskEvent.stepsClient]⟩
  | stopped _ he hstep =>
    refine ⟨[.cancel], ?_, by simp, ?_⟩
    · rcases he with ⟨-, rfl⟩ | ⟨-, rfl⟩ <;> exact run_singleton hstep
    · rcases he with ⟨rfl, -⟩ | ⟨rfl, -⟩ <;> simp [TaskEvent.stepsClient]

/-- Sections of an attempt, as sections of the network. -/
theorem netRun (serverName : String → Except String String) (plainMode : Bool) {n : Net}
    {p' : PoolState} {c' : Client} : ∀ {ces : List ClientEvent} {a : NetClient}, clientRun config
      (n.pool, a.client) ces = some (p', c') → (∀ ce ∈ ces, ∀ r, ce ≠ .connect r) →
    run (fun (x : Net × NetClient) e =>
        netStep config.connectionsPerHost serverName plainMode x.1 x.2 e) (n, a)
      (ces.map .client) = some ({ n with pool := p' },
        ⟨c', if ces = [] then a.opening else Opening.start c'⟩)
  | [], a, hr, _ => by
    obtain ⟨rfl, rfl⟩ := Prod.mk.inj (Option.some.inj hr)
    rfl
  | ce :: ces, a, hr, hne => by
    obtain ⟨⟨q, c⟩, hs, hr⟩ := run_cons.1 hr
    have hfirst : netStep config.connectionsPerHost serverName plainMode n a (.client ce) =
        some ({ n with pool := q }, ⟨c, Opening.start c⟩) := by
      have hce := hne ce List.mem_cons_self
      cases ce with
      | connect r => exact absurd rfl (hce r)
      | _ => exact Option.map_eq_some_iff.2 ⟨_, hs, rfl⟩
    have hrest := netRun serverName plainMode (n := { n with pool := q })
      (a := ⟨c, Opening.start c⟩) hr fun ce hce => hne ce (List.mem_cons_of_mem _ hce)
    refine run_cons.2 ⟨_, hfirst, hrest.trans ?_⟩
    cases ces with
    | nil =>
      obtain ⟨-, rfl⟩ := Prod.mk.inj (Option.some.inj hr)
      rfl
    | cons => rfl

/-- The end of an open, as a section of its attempt. -/
theorem TaskMove.connected {p p' : PoolState} {sc sc' : Scope} {t t' : Task}
    {r : Except DownloadError NegotiatedProtocol}
    (hm : TaskMove env config p sc t (.pool (.connect r)) p' sc' t') :
    clientStep config.connectionsPerHost p t.stage.client (.connect r) =
      some (p', t'.stage.client) := by
  cases hm with
  | pool hs _ hstep =>
    rw [hs]
    exact hstep
  | stopped _ he => rcases he with ⟨he, -⟩ | ⟨he, -⟩ <;> cases he

end Sections

namespace System

variable {env : Env} {config : Config} {serverName : String → Except String String}
  {plainMode : Bool} {y y' : System}

/-- The network after a step that changes one task and its call. -/
theorem netOf_update {i : ℕ × ℕ} {c : Client} {o : Opening}
    (hc : Downloader.clientOf y'.downloader =
      Function.update (Downloader.clientOf y.downloader) i c)
    (ho : y'.openings = Function.update y.openings i o) :
    (netOf y').locals = Function.update (netOf y).locals i ⟨c, o⟩ := by
  funext j
  simp only [netOf, hc, ho]
  rcases eq_or_ne j i with rfl | hj
  · simp only [Function.update_self]
  · simp only [Function.update_of_ne hj]

/-- A step of a task is a run of its attempt on the network, in which nothing is seen. -/
theorem task_runs (serverName : String → Except String String) (plainMode : Bool) {k j : ℕ}
    {te : TaskEvent} {d : Downloader.State} (hne : ∀ r, te ≠ .pool (.connect r))
    (hs : Downloader.step env config y.downloader (k, .batch (.task j te)) = some d) :
    ∃ es : List ((ℕ × ℕ) × NetEvent),
      run (Net.step config.connectionsPerHost serverName plainMode) (netOf y) es =
        some (netOf { y with
          downloader := d, openings := y.reopen d k (.batch (.task j te)) }) ∧
      ∀ e ∈ es, ∃ ce, e.2 = .client ce := by
  obtain ⟨b, t, t', sc', hb, ht, hm, hpool⟩ := Downloader.step_task hs
  obtain ⟨ces, hrun, hno, hempty⟩ := hm.sections hne
  have hclients : Downloader.clientOf d =
      Function.update (Downloader.clientOf y.downloader) (k, j) t'.stage.client :=
    congrArg Par.locals hpool
  rw [← Downloader.clientOf_eq hb ht] at hrun
  have hnet := Par.run_local (i := (k, j)) (s := netOf y)
    (netRun serverName plainMode (n := (netOf y).shared) (a := (netOf y).locals (k, j)) hrun hno)
  refine ⟨_, hnet.trans (congrArg some ?_), fun e he => ?_⟩
  · refine congrArg₂ Par.mk rfl (netOf_update hclients ?_).symm
    simp only [reopen, hclients, Function.update_self]
    by_cases hces : ces = []
    · simp only [hempty.1 hces, hces, if_true, netOf, Bool.false_eq_true, if_false,
        Function.update_eq_self]
    · have hsteps : te.stepsClient = true := by
        rw [← Bool.not_eq_false]
        exact fun h => hces (hempty.2 h)
      simp only [hsteps, hces, if_true, if_false]
  · obtain ⟨ne, hne, rfl⟩ := List.mem_map.1 he
    obtain ⟨ce, -, rfl⟩ := List.mem_map.1 hne
    exact ⟨ce, rfl⟩

/-- What a step can be. -/
inductive Move (env : Env) (config : Config) (serverName : String → Except String String)
    (plainMode : Bool) (y : System) : SystemEvent → System → Prop where
  | downloader {k : ℕ} {e : DownloaderEvent} {d : Downloader.State} : e.connects = false →
    Downloader.step env config y.downloader (k, e) = some d →
    Move env config serverName plainMode y (.downloader k e)
      { y with downloader := d, openings := y.reopen d k e }
  | progress {k j : ℕ} {key : HostKey} {isFirst : Bool} {e : OpenEvent} {d' : DnsState}
    {o : Opening} : Downloader.clientOf y.downloader (k, j) = .opening key isFirst →
    openStep serverName plainMode y.dns key.1 (y.openings (k, j)) e = some (d', o) →
    (∀ r, o ≠ .done r) → Move env config serverName plainMode y (.opening k j e)
      { y with dns := d', openings := Function.update y.openings (k, j) o }
  | settled {k j : ℕ} {key : HostKey} {isFirst : Bool} {e : OpenEvent} {d' : DnsState}
    {result : Except DownloadError Peer} {y' : System} :
    Downloader.clientOf y.downloader (k, j) = .opening key isFirst →
    openStep serverName plainMode y.dns key.1 (y.openings (k, j)) e = some (d', .done result) →
    settle env config { y with dns := d' } k j result = some y' →
    Move env config serverName plainMode y (.opening k j e) y'

theorem step_cases {e : SystemEvent} (h : step env config serverName plainMode y e = some y') :
    Move env config serverName plainMode y e y' := by
  cases e with
  | downloader k e =>
    unfold step at h
    simp only at h
    split_ifs at h with hc
    obtain ⟨d, hs, rfl⟩ := Option.map_eq_some_iff.1 h
    exact .downloader (by simpa using hc) hs
  | opening k j e =>
    unfold step at h
    simp only at h
    split at h
    case h_2 => cases h
    case h_1 key isFirst hc =>
      obtain ⟨⟨d', o⟩, hs, h⟩ := Option.bind_eq_some_iff.1 h
      cases o with
      | done result => exact .settled hc hs h
      | _ =>
        obtain rfl := Option.some.inj h
        exact .progress hc hs (by simp)

/-- The end of an open is one section of the network. -/
theorem settle_net {k j : ℕ} {result : Except DownloadError Peer}
    (h : settle env config y k j result = some y') :
    Downloader.step env config y.downloader
      (k, .batch (.task j (.pool (.connect (result.map Peer.protocol))))) = some y'.downloader ∧
    ∃ a, Net.settle config.connectionsPerHost (netOf y).shared
        (Downloader.clientOf y.downloader (k, j)) result = some ((netOf y').shared, a) ∧
      (netOf y').locals = Function.update (netOf y).locals (k, j) a := by
  obtain ⟨d, hs, rfl⟩ := Option.map_eq_some_iff.1 h
  obtain ⟨b, t, t', sc', hb, ht, hm, hpool⟩ := Downloader.step_task hs
  refine ⟨hs, ⟨t'.stage.client, .idle⟩, ?_, netOf_update (congrArg Par.locals hpool) rfl⟩
  rw [Downloader.clientOf_eq hb ht]
  exact Option.map_eq_some_iff.2 ⟨_, hm.connected, rfl⟩

/-- Every step is a run of the network in which the same is seen. -/
theorem step_net {e : SystemEvent} (L : List ((ℕ × ℕ) × Sighting))
    (h : step env config serverName plainMode y e = some y') :
    ∃ es, run (Net.step config.connectionsPerHost serverName plainMode) (netOf y) es =
        some (netOf y') ∧
      record (Net.step config.connectionsPerHost serverName plainMode) Net.note (netOf y) es L =
        note y e L := by
  -- one section of the network, in which a section of the call is seen
  have section_ : ∀ {k j : ℕ} {oe : OpenEvent}, e = .opening k j oe →
      Net.step config.connectionsPerHost serverName plainMode (netOf y) ((k, j), .opening oe) =
        some (netOf y') →
      ∃ es, run (Net.step config.connectionsPerHost serverName plainMode) (netOf y) es =
          some (netOf y') ∧
        record (Net.step config.connectionsPerHost serverName plainMode) Net.note (netOf y) es L =
          note y e L := by
    rintro k j oe rfl hs
    exact ⟨[((k, j), .opening oe)], run_singleton hs, by rw [record, hs]; rfl⟩
  cases step_cases h with
  | @downloader k e d hc hs =>
    by_cases he : ∃ j te, e = .batch (.task j te)
    · obtain ⟨j, te, rfl⟩ := he
      obtain ⟨es, hr, hclient⟩ := task_runs serverName plainMode
        (by rintro r rfl; cases hc) hs
      refine ⟨es, hr, record_silent fun s e L he => ?_⟩
      obtain ⟨ce, hce⟩ := hclient e he
      rw [Net.note, hce]
      exact List.append_nil L
    · have hpool := Downloader.step_call (fun j te heq => he ⟨j, te, heq⟩) hs
      obtain ⟨hshared, hclients⟩ := Par.mk.inj hpool
      have hopenings : y.reopen d k e = y.openings := by
        cases e with
        | call => rfl
        | batch be =>
          cases be with
          | task j te => exact absurd ⟨j, te, rfl⟩ he
          | _ => rfl
      exact ⟨[], by simp only [run_nil, netOf, hshared, hclients, hopenings], rfl⟩
  | @progress k j key isFirst _ _ o hc hs hne =>
    refine section_ rfl (Par.step_eq_some.2 ⟨⟨.opening key isFirst, o⟩, ?_, netOf_update ?_ rfl⟩)
    · have hlocal : (netOf y).locals (k, j) = ⟨.opening key isFirst, y.openings (k, j)⟩ :=
        congrArg (NetClient.mk · _) hc
      rw [hlocal]
      refine Option.bind_eq_some_iff.2 ⟨_, hs, ?_⟩
      cases o with
      | done r => exact absurd rfl (hne r)
      | _ => rfl
    · rw [← hc, Function.update_eq_self]
  | @settled k j key isFirst _ _ _ _ hc hs hsettle =>
    obtain ⟨-, a, ha, hl⟩ := settle_net hsettle
    refine section_ rfl (Par.step_eq_some.2 ⟨a, ?_, hl⟩)
    have hlocal : (netOf y).locals (k, j) = ⟨.opening key isFirst, y.openings (k, j)⟩ :=
      congrArg (NetClient.mk · _) hc
    rw [hlocal]
    refine Option.bind_eq_some_iff.2 ⟨_, hs, ?_⟩
    change Downloader.clientOf y.downloader (k, j) = _ at hc
    rw [hc] at ha
    exact ha

/-- Every step is one of the downloader, or none. -/
theorem step_downloader {e : SystemEvent} (h : step env config serverName plainMode y e = some y') :
    ∃ es, run (Downloader.step env config) y.downloader es = some y'.downloader ∧
      Meets (Downloader.step env config)
        (fun _ de => .downloader de.1 de.2 = e ∨ de.2.connects = true) y.downloader es := by
  cases step_cases h with
  | @downloader k e d _ hs => exact ⟨[(k, e)], run_singleton hs, .cons hs (Or.inl rfl) trivial⟩
  | progress => exact ⟨[], rfl, trivial⟩
  | settled _ _ hsettle =>
    obtain ⟨hs, -⟩ := settle_net hsettle
    exact ⟨_, run_singleton hs, .cons hs (Or.inr rfl) trivial⟩

variable {ttl : Duration} {es : List SystemEvent}

/-- Every run of the system is a run of the downloader, whose events are those of the system and
the ends of opens, and a run of the network in which the same is seen. -/
theorem refines_both (hr : run (step env config serverName plainMode) (init ttl) es = some y) :
    (∃ des, run (Downloader.step env config) Downloader.init des = some y.downloader ∧
      Meets (Downloader.step env config)
        (fun _ de => .downloader de.1 de.2 ∈ es ∨ de.2.connects = true) Downloader.init des) ∧
    ∃ nes, run (Net.step config.connectionsPerHost serverName plainMode) (Net.init ttl) nes =
        some (netOf y) ∧
      Net.sightings config.connectionsPerHost serverName plainMode ttl nes =
        sightings env config serverName plainMode ttl es := by
  have hm : Meets (step env config serverName plainMode) (fun _ e => e ∈ es) (init ttl) es :=
    Meets.of_events (fun _ _ h => h) fun _ he => he
  refine ⟨run_simulates System.downloader (fun _ _ _ (_ : True) _ _ => trivial)
    (fun s e s' _ hok hs => ?_) trivial hm hr, ?_⟩
  · obtain ⟨des, hrun, hdes⟩ := step_downloader hs
    refine ⟨des, hrun, hdes.mono fun _ de h => h.imp_left fun heq => ?_⟩
    rw [heq]
    exact hok
  · have hstep : ∀ L y e y', step env config serverName plainMode y e = some y' → _ :=
      fun L _ _ _ hs => step_net L hs
    exact run_simulates_record netOf hstep hr

/-- A task opens a connection, up to its request. -/
def systemRun : List SystemEvent :=
  .downloader 0 (.call ["http://h/a.png"] "out" (.ok ())) ::
    [.poll 0, .acquireGlobal, .lockHostSems, .acquireHost,
      .pool (.decide (fun _ => .dead) fun _ => .dead)].map
        (fun e => .downloader 0 (.batch (.task 0 e))) ++
    [.check 0, .lookup (.ok [⟨"192.0.2.1", 80⟩]), .store 1, .connect .connected,
      .tls (.ok (some [104, 50])), .handshake (.ok ())].map (.opening 0 0) ++
    [.downloader 0 (.batch (.task 0 (.pool .insert)))]

theorem refines_both_systemRun : ∃ y des nes,
    run (step Downloader.oneUrl {} .ok false) (init (Duration.fromSecs 300)) systemRun = some y ∧
    run (Downloader.step Downloader.oneUrl {}) Downloader.init des = some y.downloader ∧
    run (Net.step 1 .ok false) (Net.init (Duration.fromSecs 300)) nes = some (netOf y) := by
  obtain ⟨y, hr⟩ : ∃ y, run (step Downloader.oneUrl {} .ok false)
      (init (Duration.fromSecs 300)) systemRun = some y := ⟨_, rfl⟩
  obtain ⟨⟨des, hdes, -⟩, nes, hnes, -⟩ := refines_both hr
  exact ⟨y, des, nes, hr, hdes, hnes⟩

end System

end Imgdl
