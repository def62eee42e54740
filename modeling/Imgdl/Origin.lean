import Imgdl.Batch
import Imgdl.Redirects

/-!
# The origin of a request

A request for a URL belongs on a connection for the host and effective port of that URL.
The request loop compares the host of a redirect target with the host of its connection,
so the hosts always agree; the port is not compared. It follows that all requests of a
call go to their own origins exactly if every redirect that is followed on the same host
keeps the port (`HopsKeepPort`), and that all requests of a run do exactly if every call
of the request loop meets this condition (`requests_own_origin_iff`).
-/

set_option linter.unusedSectionVars false

namespace Imgdl

open Transition Interleaving

/-! ## One call of the request loop -/

section Loop

variable (http : Http) (overflowChecks : Bool) (config : RequestConfig) (host : String)

/-- Every followed redirect whose request can be built keeps the effective port. -/
def HopsKeepPort : List Reply → Uri → UInt8 → Prop
  | .response r :: replies, url, redirects =>
    match onResponse http overflowChecks config host url redirects r with
    | .follow url' redirects' => Buildable http config host url' →
      url'.effectivePort = url.effectivePort ∧ HopsKeepPort replies url' redirects'
    | .stop _ => True
  | _, _, _ => True

variable {http overflowChecks config host}

theorem eqIgnoreAsciiCase_refl (a : String) : eqIgnoreAsciiCase a a = true := by
  simp [eqIgnoreAsciiCase]

/-- A redirect is followed on the same host only. -/
theorem onResponse_host {url url' : Uri} {redirects redirects' : UInt8} {r : HttpResponse}
    (h : onResponse http overflowChecks config host url redirects r = .follow url' redirects') :
    eqIgnoreAsciiCase (url'.host.getD "") host = true := by
  unfold onResponse at h
  repeat' split at h
  case isFalse hhost =>
    obtain ⟨rfl, -⟩ := Hop.follow.inj h
    simpa using hhost
  all_goals cases h

section Sent

variable {replies : List Reply} {url u : Uri} {redirects : UInt8}

/-- The requests that the loop hands to the connection. -/
abbrev sentUrls (http : Http) (overflowChecks : Bool) (config : RequestConfig) (host : String)
    (replies : List Reply) (url : Uri) (redirects : UInt8) : List Uri :=
  (executeWithRedirects http overflowChecks config host replies url redirects).1

theorem sentUrls_of_not_buildable (h : ¬Buildable http config host url) :
    sentUrls http overflowChecks config host replies url redirects = [] := by
  obtain ⟨e, he⟩ := executeWithRedirects_of_not_buildable h
  rw [sentUrls, he]

/-- The request for the current URL, and those of the redirect that is followed. -/
theorem sentUrls_response {r : HttpResponse} (h : Buildable http config host url) :
    sentUrls http overflowChecks config host (.response r :: replies) url redirects =
      url :: match onResponse http overflowChecks config host url redirects r with
        | .follow url' redirects' =>
          sentUrls http overflowChecks config host replies url' redirects'
        | .stop _ => [] := by
  rw [sentUrls, executeWithRedirects_response h]
  cases onResponse http overflowChecks config host url redirects r <;> rfl

/-- Without a response, the request for the current URL is the last one. -/
theorem sentUrls_of_no_response (h : Buildable http config host url)
    (hr : ∀ r rest, replies ≠ .response r :: rest) :
    sentUrls http overflowChecks config host replies url redirects = [url] := by
  obtain ⟨p, hp, -⟩ := executeWithRedirects_of_no_response h hr
  rw [sentUrls, hp]

end Sent

theorem mem_sentUrls_self {replies : List Reply} {url : Uri} {redirects : UInt8}
    (h : Buildable http config host url) :
    url ∈ sentUrls http overflowChecks config host replies url redirects := by
  by_cases hr : ∃ r rest, replies = .response r :: rest
  · obtain ⟨r, rest, rfl⟩ := hr
    rw [sentUrls_response h]
    exact List.mem_cons_self
  · push Not at hr
    rw [sentUrls_of_no_response h hr]
    exact List.mem_singleton_self url

/-- Every request of a call is for the host of its connection. -/
theorem sentUrls_host {replies : List Reply} {u url : Uri} {redirects : UInt8}
    (hurl : eqIgnoreAsciiCase (url.host.getD "") host = true)
    (hu : u ∈ sentUrls http overflowChecks config host replies url redirects) :
    eqIgnoreAsciiCase (u.host.getD "") host = true := by
  by_cases hb : Buildable http config host url
  swap
  · simp [sentUrls_of_not_buildable hb] at hu
  induction replies generalizing url redirects with
  | nil =>
    rw [sentUrls_of_no_response hb (by simp)] at hu
    rwa [List.mem_singleton.1 hu]
  | cons reply rest ih =>
    cases reply with
    | notReady e | sendFailed e =>
      rw [sentUrls_of_no_response hb (by simp)] at hu
      rwa [List.mem_singleton.1 hu]
    | response r =>
      rw [sentUrls_response hb] at hu
      rcases List.mem_cons.1 hu with rfl | hu
      · exact hurl
      · cases hnext : onResponse http overflowChecks config host url redirects r with
        | stop p => simp [hnext] at hu
        | follow url' redirects' =>
          rw [hnext] at hu
          by_cases hb' : Buildable http config host url'
          · exact ih (onResponse_host hnext) hu hb'
          · simp [sentUrls_of_not_buildable hb'] at hu

/-- Every request of a call is for the port of its connection, exactly if every followed
redirect keeps the port. -/
theorem sentUrls_port {port : UInt16} {replies : List Reply} {url : Uri} {redirects : UInt8}
    (hport : url.effectivePort = port) :
    (∀ u ∈ sentUrls http overflowChecks config host replies url redirects,
      u.effectivePort = port) ↔ (Buildable http config host url →
        HopsKeepPort http overflowChecks config host replies url redirects) := by
  by_cases hb : Buildable http config host url
  swap
  · simp [sentUrls_of_not_buildable hb, hb]
  rw [forall_prop_of_true hb]
  induction replies generalizing url redirects with
  | nil => simp [sentUrls_of_no_response hb, HopsKeepPort, hport]
  | cons reply rest ih =>
    cases reply with
    | notReady e | sendFailed e => simp [sentUrls_of_no_response hb, HopsKeepPort, hport]
    | response r =>
      rw [sentUrls_response hb, HopsKeepPort]
      cases hnext : onResponse http overflowChecks config host url redirects r with
      | stop p => simp [hport]
      | follow url' redirects' =>
        simp only [List.forall_mem_cons, hport, true_and]
        constructor
        · intro hall hb'
          have hport' := hall url' (mem_sentUrls_self hb')
          exact ⟨hport', (ih hport' hb').1 hall⟩
        · intro hkeep
          by_cases hb' : Buildable http config host url'
          · exact (ih (hkeep hb').1 hb').2 (hkeep hb').2
          · simp [sentUrls_of_not_buildable hb']

end Loop

/-! ## All requests of a run -/

variable {env : Env} {config : Config}

/-- The connection is one for the host and the port of the URL. -/
def OwnOrigin (x : Sent) : Prop :=
  eqIgnoreAsciiCase (x.url.host.getD "") x.key.1 = true ∧ x.url.effectivePort = x.key.2

/-- Every redirect followed in this call of the request loop keeps the port. -/
def KeepsPort (env : Env) (config : Config) (target : Target) (replies : List Reply) : Prop :=
  Buildable env.http ⟨config.userAgent, target.maxRedirects⟩ target.host target.uri →
    HopsKeepPort env.http env.overflowChecks ⟨config.userAgent, target.maxRedirects⟩ target.host
      replies target.uri 0

theorem executeTarget_origin {target : Target} {replies : List Reply} :
    (∀ u ∈ (executeTarget env config target replies).1, OwnOrigin ⟨target.key, u⟩) ↔
      KeepsPort env config target replies := by
  rw [KeepsPort, ← sentUrls_port target.port_eq]
  have hhost : eqIgnoreAsciiCase (target.uri.host.getD "") target.host = true := by
    rw [target.host_eq]
    exact eqIgnoreAsciiCase_refl _
  exact ⟨fun h u hu => (h u hu).2, fun h u hu => ⟨sentUrls_host hhost hu, h u hu⟩⟩

/-- The request loop of an attempt is the only section that sends requests. -/
theorem TaskMove.sent {p p' : PoolState} {sc sc' : Scope} {t t' : Task} {e : TaskEvent}
    (hm : TaskMove env config p sc t e p' sc' t') : sc'.sent = sc.sent ∨
      ∃ replies home sem leg n key handle, e = .request replies ∧
        t.stage = .working home sem (.attempt leg n (.requesting key handle)) ∧
        sc'.sent = sc.sent ++ (executeTarget env config (leg.target home) replies).1.map
          fun url => ⟨key, url⟩ := by
  cases hm with
  | answered hs hx =>
    exact Or.inr ⟨_, _, _, _, _, _, _, rfl, hs, by rw [hx]; rfl⟩
  | burst hs hx =>
    exact Or.inr ⟨_, _, _, _, _, _, _, rfl, hs, by rw [hx]; rfl⟩
  | _ => exact Or.inl rfl

theorem BatchMove.sent {p p' : PoolState} {b b' : Batch} {e : BatchEvent}
    (hm : BatchMove env config p b e p' b') : b'.scope.sent = b.scope.sent ∨
      ∃ j t replies home sem leg n key handle, e = .task j (.request replies) ∧
        b.tasks j = some t ∧
        t.stage = .working home sem (.attempt leg n (.requesting key handle)) ∧
        b'.scope.sent = b.scope.sent ++
          (executeTarget env config (leg.target home) replies).1.map fun url => ⟨key, url⟩ := by
  cases hm with
  | task ht _ hm =>
    rcases hm.sent with h | ⟨replies, home, sem, leg, n, key, handle, rfl, hs, h⟩
    · exact Or.inl h
    · exact Or.inr ⟨_, _, replies, home, sem, leg, n, key, handle, rfl, ht, hs, h⟩
  | closed =>
    rw [close_eq]
    exact Or.inl rfl
  | _ => exact Or.inl rfl

namespace Downloader

/-- All requests sent so far went to their own origins. -/
def OwnOrigins (s : State) : Prop :=
  ∀ k b, s.locals k = some b → ∀ x ∈ b.scope.sent, OwnOrigin x

/-- A step that runs a request loop follows only redirects that keep the port. -/
def PortsKept (env : Env) (config : Config) (s : State) (e : ℕ × DownloaderEvent) : Prop :=
  ∀ b j t replies home sem leg n key handle, s.locals e.1 = some b →
    e.2 = .batch (.task j (.request replies)) → b.tasks j = some t →
    t.stage = .working home sem (.attempt leg n (.requesting key handle)) →
    KeepsPort env config (leg.target home) replies

/-- All attempts are on the connection keys of their targets. -/
def AllKeyed (s : State) : Prop :=
  ∀ k b j t, s.locals k = some b → b.tasks j = some t → Keyed t

variable {s s' : State} {e : ℕ × DownloaderEvent}

theorem ownOrigins_step (hI : AllKeyed s) (h : OwnOrigins s) (hok : PortsKept env config s e)
    (hs : step env config s e = some s') : OwnOrigins s' := by
  obtain ⟨k, e⟩ := e
  intro k' b' hb' x hx
  rcases step_local hs hb' with ⟨-, hb⟩ | ⟨-, _, _, _, -, hst⟩ | ⟨rfl, b, be, hb, rfl, hm⟩
  · exact h k' b' hb x hx
  · cases hst <;> cases hx
  · rcases hm.sent with hsent | ⟨j, t, replies, home, sem, leg, n, key, handle, rfl, ht, hst, hsent⟩
    · exact h k' b hb x (hsent ▸ hx)
    · rw [hsent, List.mem_append] at hx
      rcases hx with hx | hx
      · exact h k' b hb x hx
      · obtain ⟨u, hu, rfl⟩ := List.mem_map.1 hx
        obtain rfl := hI k' b j t hb ht home sem leg n _ key hst rfl
        exact executeTarget_origin.2
          (hok b j t replies home sem leg n _ handle hb rfl ht hst) u hu

/-- The log only grows, so what went wrong stays wrong. -/
theorem ownOrigins_of_step (hs : step env config s e = some s') (h : OwnOrigins s') :
    OwnOrigins s := by
  obtain ⟨k, e⟩ := e
  intro k' b hb x hx
  rcases eq_or_ne k' k with rfl | hk
  · obtain ⟨be, b', rfl, hb', hm⟩ := step_some hs hb
    refine h k' b' hb' x ?_
    rcases hm.sent with hsent | ⟨_, _, _, _, _, _, _, _, _, -, -, -, hsent⟩
    · exact hsent ▸ hx
    · rw [hsent]
      exact List.mem_append_left _ hx
  · exact h k' b (by rw [Par.step_other hs hk, hb]) x hx

theorem portsKept_of_ownOrigins (hI : AllKeyed s) (hs : step env config s e = some s')
    (h : OwnOrigins s') : PortsKept env config s e := by
  obtain ⟨k, e⟩ := e
  rintro b j t replies home sem leg n key handle hb rfl ht hst
  obtain ⟨_, b', ⟨⟩, hb', hm⟩ := step_some hs hb
  obtain rfl := hI k b j t hb ht home sem leg n _ key hst rfl
  refine executeTarget_origin.1 fun u hu => h k b' hb' _ ?_
  have logged : ∀ {p' : PoolState} {sc' : Scope} {t' : Task},
      TaskMove env config s.shared b.scope t (.request replies) p' sc' t' →
        ⟨(leg.target home).key, u⟩ ∈ sc'.sent := by
    intro p' sc' t' hm
    cases hm with
    | answered hs hx | burst hs hx =>
      obtain ⟨rfl, -, hw⟩ := Stage.working.inj (hst.symm.trans hs)
      obtain ⟨rfl, -, hc⟩ := Work.attempt.inj hw
      obtain ⟨hkey, -⟩ := Client.requesting.inj hc
      rw [hx] at hu
      exact List.mem_append_right _ (List.mem_map.2 ⟨u, hu, by rw [hkey]⟩)
    | stopped _ he _ => rcases he with ⟨he, -⟩ | ⟨he, -⟩ <;> cases he
  generalize s'.shared = q at hm
  cases hm with
  | @task _ _ t₀ _ _ _ ht₀ _ hm =>
    obtain rfl : t = t₀ := Option.some.inj (ht.symm.trans ht₀)
    exact logged hm
  | closed _ he => rcases he with ⟨he, -⟩ | ⟨he, -⟩ <;> cases he

/-- In every run, all requests went to connections for the hosts and ports of their URLs,
exactly if every redirect followed on the same host kept the effective port. -/
theorem requests_own_origin_iff {es : List (ℕ × DownloaderEvent)}
    (hr : run (step env config) init es = some s) :
    OwnOrigins s ↔ Meets (step env config) (PortsKept env config) init es := by
  have h0 : AllKeyed init := fun k b _ _ hb => (nomatch hb)
  have hI : ∀ {s e s'}, AllKeyed s → step env config s e = some s' → AllKeyed s' :=
    fun hI hs => tasks_step keyed_invariant hI hs
  constructor
  · intro h
    have hall : Meets (step env config) (fun _ _ => True) init es :=
      .of_forall (fun _ _ => trivial) init es
    exact (meets_of_good (fun _ _ _ hk _ hs => hI hk hs)
      (fun _ _ _ _ _ hs hg => ownOrigins_of_step hs hg)
      (fun _ _ _ hk _ hs hg => portsKept_of_ownOrigins hk hs hg) h0 hall hr h).2
  · intro hm
    exact (run_invariant (I := fun s => AllKeyed s ∧ OwnOrigins s)
      (fun _ _ _ h hok hs => ⟨hI h.1 hs, ownOrigins_step h.1 h.2 hok hs⟩)
      ⟨h0, fun _ _ hb => (nomatch hb)⟩ hm hr).2

/-- Two ports of the host `h`. -/
def twoPorts : Env :=
  Env.ofTable [("http://h/a.png", ⟨some "http", some ⟨"h", none⟩, some "/a.png"⟩),
    ("http://h/b.png", ⟨some "http", some ⟨"h", none⟩, some "/b.png"⟩),
    ("http://h:8080/b.png", ⟨some "http", some ⟨"h", some 8080⟩, some "/b.png"⟩)]

/-- One task whose first request is answered by a redirect. -/
def hopRun (location : String) : List (ℕ × DownloaderEvent) :=
  (0, .call ["http://h/a.png"] "out" (.ok ())) ::
    taskSteps 0 (toRequest ++ [.request [.found location]])

theorem requests_own_origin_iff_hopRun :
    ∃ s, run (step twoPorts {}) init (hopRun "http://h/b.png") = some s ∧ OwnOrigins s ∧
      Meets (step twoPorts {}) (PortsKept twoPorts {}) init (hopRun "http://h/b.png") := by
  obtain ⟨s, hr, hs⟩ : ∃ s, run (step twoPorts {}) init (hopRun "http://h/b.png") = some s ∧
      OwnOrigins s := by
    refine ⟨_, rfl, fun k b hb x hx => ?_⟩
    cases k with
    | succ k => cases hb
    | zero =>
      cases hb
      have hx : x ∈ [Sent.mk ("h", 80) ⟨some "http", some ⟨"h", none⟩, some "/a.png"⟩,
          ⟨("h", 80), ⟨some "http", some ⟨"h", none⟩, some "/b.png"⟩⟩] := hx
      simp only [List.mem_cons, List.not_mem_nil, or_false] at hx
      rcases hx with rfl | rfl <;> exact ⟨rfl, rfl⟩
  exact ⟨s, hr, hs, (requests_own_origin_iff hr).1 hs⟩

/-- A redirect to another port of the host is followed on the old connection. -/
theorem request_other_port :
    ∃ s b, run (step twoPorts {}) init (hopRun "http://h:8080/b.png") = some s ∧
      s.locals 0 = some b ∧
      ⟨("h", 80), ⟨some "http", some ⟨"h", some 8080⟩, some "/b.png"⟩⟩ ∈ b.scope.sent ∧
      ¬OwnOrigins s := by
  obtain ⟨s, b, hr, hb, hx⟩ : ∃ s b,
      run (step twoPorts {}) init (hopRun "http://h:8080/b.png") = some s ∧
      s.locals 0 = some b ∧
      ⟨("h", 80), ⟨some "http", some ⟨"h", some 8080⟩, some "/b.png"⟩⟩ ∈ b.scope.sent :=
    ⟨_, _, rfl, rfl, List.mem_cons_of_mem _ List.mem_cons_self⟩
  refine ⟨s, b, hr, hb, hx, fun hown => ?_⟩
  have hport := (hown 0 b hb _ hx).2
  exact absurd hport (by decide)

end Downloader

end Imgdl
