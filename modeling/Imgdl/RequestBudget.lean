import Imgdl.Termination

/-!
# The requests of a call

An attempt sends at most one request more than the redirects its limit lets it follow, and an
attempt that ends with a redirect to another host leaves that phase what it did not use. With
`R` retries and `M` redirects a download so sends at most `(R + 1) * (M + 1)` requests in its
first phase, or `R * M` more if that ends in a second one (`requestBound`).

`Stage.requests` is what a task may still send. A section that sends requests takes them off it
(`TaskMove.requests_le`), so the requests of every download are bounded, and with them those of a
call (`requests_bounded`).
-/

set_option linter.unusedSectionVars false

namespace Imgdl

open Transition Interleaving

/-! ## One request loop -/

/-- The requests that a result leaves to an attempt of the second phase. -/
def handover : Except DownloadError TransportResult → ℕ
  | .ok (.redirect redir) => redir.redirectsRemaining.toNat + 1
  | _ => 0

/-- The same of the end of a loop. -/
def Progress.handover : Progress → ℕ
  | .done result => Imgdl.handover result
  | _ => 0

section Loop

variable {http : Http} {overflowChecks : Bool} {config : RequestConfig} {host : String}

/-- At the top of its range the counter is not incremented. -/
theorem onResponse_top {url : Uri} {r : HttpResponse} (hchecks : overflowChecks = true) :
    (∀ url' redirects', onResponse http overflowChecks config host url 255 r ≠
      .follow url' redirects') ∧
    ∀ redir, onResponse http overflowChecks config host url 255 r ≠
      .stop (.done (.ok (.redirect redir))) := by
  unfold onResponse
  by_cases hstatus : isRedirectStatus r.status = true
  · rw [if_pos hstatus, if_pos ⟨hchecks, rfl⟩]
    exact ⟨nofun, nofun⟩
  · rw [if_neg hstatus]
    constructor
    · intro url' redirects' h
      repeat' split at h
      all_goals cases h
    · intro redir h
      repeat' split at h
      all_goals cases h

/-- A redirect that is followed or handed over does not overflow the counter. -/
theorem counter_fits (hfits : overflowChecks = true ∨ config.maxRedirects ≤ 254) {url : Uri}
    {redirects : UInt8} {r : HttpResponse} (hle : redirects ≤ config.maxRedirects)
    (h : (∃ url' redirects', onResponse http overflowChecks config host url redirects r =
      .follow url' redirects') ∨
        ∃ redir, onResponse http overflowChecks config host url redirects r =
          .stop (.done (.ok (.redirect redir)))) : redirects ≠ 255 := by
  rintro rfl
  rcases hfits with hchecks | hmax
  · rcases h with ⟨url', redirects', h⟩ | ⟨redir, h⟩
    · exact (onResponse_top hchecks).1 _ _ h
    · exact (onResponse_top hchecks).2 _ h
  · exact absurd (UInt8.le_trans hle hmax) (by decide)

/-- A loop that is over hands over no more than is left of its limit. -/
theorem handover_stop (hfits : overflowChecks = true ∨ config.maxRedirects ≤ 254) {url : Uri}
    {redirects : UInt8} {r : HttpResponse} {p : Progress} (hle : redirects ≤ config.maxRedirects)
    (h : onResponse http overflowChecks config host url redirects r = .stop p) :
    redirects.toNat + p.handover ≤ config.maxRedirects.toNat := by
  have hle' := UInt8.le_iff_toNat_le.1 hle
  by_cases hp : ∃ redir, p = .done (.ok (.redirect redir))
  · obtain ⟨redir, rfl⟩ := hp
    obtain ⟨hless, hremaining⟩ := onResponse_handover h
    have hsucc := toNat_succ (counter_fits hfits hle (Or.inr ⟨redir, h⟩))
    have hless' := UInt8.le_iff_toNat_le.1 hless
    change redirects.toNat + (redir.redirectsRemaining.toNat + 1) ≤ _
    rw [hremaining, UInt8.toNat_sub_of_le _ _ hless]
    omega
  · have hzero : p.handover = 0 := by
      rcases p with _ | _ | ⟨e | ⟨data⟩ | ⟨redir⟩⟩
      case done.ok.redirect => exact absurd ⟨redir, rfl⟩ hp
      all_goals rfl
    omega

/-- The requests of a loop and those it hands over are within its limit. -/
theorem executeWithRedirects_length (http : Http) (host : String)
    (hfits : overflowChecks = true ∨ config.maxRedirects ≤ 254) :
    ∀ (replies : List Reply) (url : Uri) (redirects : UInt8), redirects ≤ config.maxRedirects →
      redirects.toNat +
          (executeWithRedirects http overflowChecks config host replies url redirects).2.handover ≤
        config.maxRedirects.toNat ∧
      redirects.toNat +
          (executeWithRedirects http overflowChecks config host replies url redirects).1.length +
          (executeWithRedirects http overflowChecks config host replies url redirects).2.handover ≤
        config.maxRedirects.toNat + 1 := by
  intro replies
  induction replies with
  | nil =>
    intro url redirects hle
    have hle' := UInt8.le_iff_toNat_le.1 hle
    by_cases hb : Buildable http config host url
    · rw [executeWithRedirects_nil hb]
      exact ⟨hle', Nat.add_le_add_right hle' 1⟩
    · obtain ⟨e, he⟩ := executeWithRedirects_of_not_buildable hb
      rw [he]
      exact ⟨hle', Nat.le_succ_of_le hle'⟩
  | cons reply replies ih =>
    intro url redirects hle
    have hle' := UInt8.le_iff_toNat_le.1 hle
    by_cases hb : Buildable http config host url
    swap
    · obtain ⟨e, he⟩ := executeWithRedirects_of_not_buildable hb
      rw [he]
      exact ⟨hle', Nat.le_succ_of_le hle'⟩
    by_cases hr : ∃ r, reply = .response r
    swap
    · obtain ⟨p, hp, hnot⟩ := executeWithRedirects_of_no_response hb
        fun r rest heq => hr ⟨r, (List.cons.inj heq).1⟩
      have hzero : p.handover = 0 := by
        rcases p with _ | _ | ⟨e | result⟩
        case done.ok => exact absurd rfl (hnot result)
        all_goals rfl
      rw [hp, hzero]
      exact ⟨hle', Nat.add_le_add_right hle' 1⟩
    obtain ⟨r, rfl⟩ := hr
    cases hnext : onResponse http overflowChecks config host url redirects r with
    | stop p =>
      have hstop := handover_stop hfits hle hnext
      rw [executeWithRedirects_stop hb hnext, List.length_singleton]
      dsimp only
      omega
    | follow url' redirects' =>
      have hsucc := toNat_succ (counter_fits hfits hle (Or.inl ⟨_, _, hnext⟩))
      obtain ⟨hless, rfl⟩ := onResponse_follow hnext
      obtain ⟨hhand, hsum⟩ := ih url' (redirects + 1) hless
      rw [executeWithRedirects_follow hb hnext, List.length_cons]
      dsimp only
      omega

end Loop

variable {env : Env} {config : Config} {p p' : PoolState} {sc sc' : Scope} {t t' : Task}
  {b b' : Batch}

/-- No increment of the hop counter of an attempt at this limit wraps around. -/
def Fits (env : Env) (maxRedirects : UInt8) : Prop :=
  env.overflowChecks = true ∨ maxRedirects ≤ 254

theorem Fits.of_le {m n : UInt8} (h : Fits env n) (hle : m ≤ n) : Fits env m :=
  h.imp_right fun h => UInt8.le_trans hle h

/-- The requests of an attempt and those it hands over are within its limit. -/
theorem executeTarget_length {target : Target} {replies : List Reply} {urls : List Uri}
    {o : Option (Except DownloadError TransportResult)} (hfits : Fits env target.maxRedirects)
    (h : executeTarget env config target replies = (urls, o)) :
    urls.length ≤ target.maxRedirects.toNat + 1 ∧ ∀ result, o = some result →
      handover result ≤ target.maxRedirects.toNat ∧
      urls.length + handover result ≤ target.maxRedirects.toNat + 1 := by
  have hlimit : env.overflowChecks = true ∨
      (RequestConfig.mk config.userAgent target.maxRedirects).maxRedirects ≤ 254 := hfits
  have hloop := executeWithRedirects_length env.http target.host hlimit replies target.uri 0
    UInt8.zero_le
  rw [UInt8.toNat_zero, Nat.zero_add, Nat.zero_add] at hloop
  rw [executeTarget, executeRequest] at h
  obtain ⟨rfl, ho⟩ := Prod.mk.inj h
  dsimp only at hloop ho ⊢
  generalize (executeWithRedirects env.http env.overflowChecks
    ⟨config.userAgent, target.maxRedirects⟩ target.host replies target.uri 0) = run at hloop ho ⊢
  refine ⟨by omega, ?_⟩
  rintro result rfl
  split at ho
  · obtain rfl := Option.some.inj ho
    exact ⟨Nat.zero_le _, by change _ + 0 ≤ _; omega⟩
  · cases ho
  case h_3 hp =>
    obtain rfl := Option.some.inj ho
    rw [hp] at hloop
    exact hloop

/-! ## What a task may still send -/

section Budget

variable (config : Config)

/-- The most requests of a download. -/
def requestBound : ℕ :=
  (config.maxRetries.toNat + 1) * (config.maxRedirects.toNat + 1) +
    config.maxRetries.toNat * config.maxRedirects.toNat

/-- The most requests of an attempt. -/
def Leg.hops : Leg → ℕ
  | origin => config.maxRedirects.toNat + 1
  | crossHost target _ => target.maxRedirects.toNat + 1

/-- The requests a second phase may add. -/
def Leg.requestsNext : Leg → ℕ
  | origin => config.maxRetries.toNat * config.maxRedirects.toNat
  | crossHost _ _ => 0

/-- The most requests after attempt `n` has failed. -/
def Leg.requestsAfter (n : UInt32) (leg : Leg) : ℕ :=
  (config.maxRetries.toNat - n.toNat) * leg.hops config + leg.requestsNext config

/-- The most requests after attempt `n` has ended with a result. -/
def Leg.requestsSettled (n : UInt32) : Leg → Except DownloadError TransportResult → ℕ
  | leg, .error _ => leg.requestsAfter config n
  | origin, .ok result => (config.maxRetries.toNat + 1) * handover (.ok result)
  | crossHost _ _, .ok _ => 0

/-- The most requests from attempt `n` on. -/
def Client.requests (leg : Leg) (n : UInt32) (c : Client) : ℕ :=
  match c.settled with
  | some result => leg.requestsSettled config n result
  | none => leg.hops config + leg.requestsAfter config n

/-- The requests that work may still lead to. -/
def Work.requests : Work → ℕ
  | attempt leg n c => c.requests config leg n
  | backoff leg n _ => leg.requestsAfter config n
  | _ => 0

/-- The requests that a task at a stage may still send. -/
def Stage.requests : Stage → ℕ
  | spawned => requestBound config
  | globalWait _ => requestBound config
  | hostLock _ => requestBound config
  | hostWait _ _ => requestBound config
  | working _ _ work => work.requests config
  | _ => 0

/-- The requests that a task may still send, if there is one. -/
def taskRequests (o : Option Task) : ℕ :=
  o.elim 0 fun t => t.stage.requests config

end Budget

/-- The first attempt has all of the bound. -/
theorem requests_first (key : HostKey) :
    (Client.locking key 0).requests config .origin 0 = requestBound config := by
  simp only [Client.requests, Client.settled, Leg.hops, Leg.requestsNext, Leg.requestsAfter,
    requestBound, UInt32.toNat_zero, Nat.sub_zero, Nat.succ_mul]
  omega

/-- Only a failure is retried. -/
theorem settleAttempt_retry_error {url : String} {firstIndex subsecNanos : ℕ} {leg : Leg}
    {n : UInt32} {result : Except DownloadError TransportResult} {delay : Duration}
    (h : settleAttempt env config url firstIndex leg n subsecNanos result = .retry delay) :
    ∃ e, result = .error e := by
  cases result with
  | error e => exact ⟨e, rfl⟩
  | ok r =>
    have hreports : (settleResult env config url firstIndex n leg (.ok r)).Reports
      (leg.retries n) := settleResult_reports n leg (.ok r)
    rw [show settleResult env config url firstIndex n leg (.ok r) = .retry delay from h] at hreports
    exact hreports.elim

/-! ## The limits of the phases -/

/-- The limit of a phase, and what its result hands over, are within that of the configuration. -/
def Work.Within (config : Config) (home : Target) : Work → Prop
  | attempt leg _ c => (leg.target home).maxRedirects ≤ config.maxRedirects ∧
    ∀ redir, c.settled = some (.ok (.redirect redir)) →
      redir.redirectsRemaining ≤ config.maxRedirects
  | backoff leg _ _ => (leg.target home).maxRedirects ≤ config.maxRedirects
  | _ => True

/-- The phases of a task are within the limit of the configuration. -/
def HopsWithin (config : Config) (t : Task) : Prop :=
  ∀ home, t.stage.home = some home → home.maxRedirects = config.maxRedirects ∧
    ∀ sem work, t.stage = .working home sem work → work.Within config home

theorem hopsWithin_invariant (hfits : Fits env config.maxRedirects) :
    TaskInvariant env config (HopsWithin config) := by
  refine ⟨fun _ _ _ _ h => (nomatch h), fun {p p' sc sc' t t' e} hw hm => ?_⟩
  intro home hs
  have keep : t.stage.home = some home → (∀ sem work, t'.stage = .working home sem work →
      work.Within config home) → home.maxRedirects = config.maxRedirects ∧
        ∀ sem work, t'.stage = .working home sem work → work.Within config home :=
    fun hhome hwork => ⟨(hw home hhome).1, hwork⟩
  have within : ∀ {sem : SemId} {work : Work}, t.stage = .working home sem work →
      work.Within config home := fun hst => (hw home (by rw [hst]; rfl)).2 _ _ hst
  cases hm with
  | perform => exact hw home hs
  | stopped _ he _ => rcases he with ⟨-, rfl⟩ | ⟨-, rfl⟩ <;> cases hs
  | accepted _ hparse =>
    obtain rfl := Option.some.inj hs
    exact ⟨parseTarget_maxRedirects hparse, fun _ _ h => (nomatch h)⟩
  | acquireGlobal hst | lockFound hst | lockFresh hst =>
    exact keep (by rw [hst]; exact hs) fun _ _ h => (nomatch h)
  | @acquireHost home' sem hst =>
    obtain rfl := Option.some.inj hs
    have hhome := (hw home' (by rw [hst]; rfl)).1
    refine ⟨hhome, ?_⟩
    rintro _ _ ⟨⟩
    refine ⟨?_, nofun⟩
    rw [Leg.target, hhome]
    exact UInt8.le_refl _
  | @pool home' sem leg n c c' e p' hst he hstep =>
    obtain rfl := Option.some.inj hs
    refine keep (by rw [hst]; rfl) ?_
    rintro _ _ ⟨⟩
    obtain ⟨hle, hredir⟩ := within hst
    refine ⟨hle, fun redir hset => ?_⟩
    rcases clientStep_settled he hstep with hsame | ⟨-, err, herr⟩
    · exact hredir redir (hsame ▸ hset)
    · rw [herr] at hset
      cases hset
  | @answered home' sem leg n key handle replies urls result hst hx =>
    obtain rfl := Option.some.inj hs
    refine keep (by rw [hst]; rfl) ?_
    rintro _ _ ⟨⟩
    obtain ⟨hle, -⟩ := within hst
    refine ⟨hle, ?_⟩
    rintro redir ⟨⟩
    have hhand := ((executeTarget_length (hfits.of_le hle) hx).2 _ rfl).1
    rw [UInt8.le_iff_toNat_le] at hle ⊢
    change redir.redirectsRemaining.toNat + 1 ≤ _ at hhand
    omega
  | retry hst =>
    obtain rfl := Option.some.inj hs
    refine keep (by rw [hst]; rfl) ?_
    rintro _ _ ⟨⟩
    exact (within hst).1
  | @redirect home' target sem leg n retries _ _ result hst hset =>
    obtain rfl := Option.some.inj hs
    refine keep (by rw [hst]; rfl) ?_
    rintro _ _ ⟨⟩
    obtain ⟨-, redir, rfl, htarget⟩ := settleAttempt_redirect hset
    refine ⟨?_, nofun⟩
    change target.maxRedirects ≤ _
    rw [(redirectTarget_eq_ok htarget).2]
    exact (within hst).2 redir rfl
  | resume hst =>
    obtain rfl := Option.some.inj hs
    refine keep (by rw [hst]; rfl) ?_
    rintro _ _ ⟨⟩
    exact ⟨within hst, nofun⟩
  | store hst =>
    obtain rfl := Option.some.inj hs
    refine keep (by rw [hst]; rfl) ?_
    rintro _ _ ⟨⟩
    trivial
  | sidecar hst =>
    obtain rfl := Option.some.inj hs
    refine keep (by rw [hst]; rfl) ?_
    rintro _ _ ⟨⟩
    trivial
  | _ => cases hs

/-! ## A section pays for its requests -/

/-- The limit of a phase. -/
theorem hops_eq {home : Target} (hhome : home.maxRedirects = config.maxRedirects) (leg : Leg) :
    leg.hops config = (leg.target home).maxRedirects.toNat + 1 := by
  cases leg with
  | origin => rw [Leg.hops, Leg.target, hhome]
  | crossHost => rfl

/-- A request loop takes its requests off what is left of its phase. -/
theorem requests_answered {leg : Leg} {n : UInt32} {count : ℕ}
    {result : Except DownloadError TransportResult}
    (hhand : handover result + 1 ≤ leg.hops config)
    (hsum : count + handover result ≤ leg.hops config) :
    count + leg.requestsSettled config n result ≤
      leg.hops config + leg.requestsAfter config n := by
  cases result with
  | error e =>
    change count + leg.requestsAfter config n ≤ _
    omega
  | ok r =>
    cases leg with
    | crossHost target retries =>
      change count + 0 ≤ _
      omega
    | origin =>
      change count + (config.maxRetries.toNat + 1) * handover (.ok r) ≤ _
      have hle : handover (.ok r) ≤ config.maxRedirects.toNat := Nat.le_of_succ_le_succ hhand
      have hmul := Nat.mul_le_mul_left config.maxRetries.toNat hle
      rw [Nat.succ_mul, Leg.requestsAfter, Leg.requestsNext]
      omega

/-- Before the last attempt of a phase, the next one is still to come. -/
theorem requestsAfter_succ {leg : Leg} {n : UInt32} (h : n < config.maxRetries) :
    leg.hops config + leg.requestsAfter config (n + 1) = leg.requestsAfter config n := by
  have hlt := UInt32.lt_iff_toNat_lt.1 h
  have hsub : config.maxRetries.toNat - n.toNat = config.maxRetries.toNat - (n.toNat + 1) + 1 := by
    omega
  rw [Leg.requestsAfter, Leg.requestsAfter, toNat_succ_of_lt h, hsub, Nat.succ_mul]
  omega

/-- The requests a section sends are taken off what its task may still send. -/
theorem TaskMove.requests_le {e : TaskEvent} (hfits : Fits env config.maxRedirects)
    (hleft : RetriesLeft config t) (hw : HopsWithin config t)
    (hm : TaskMove env config p sc t e p' sc' t') :
    sc'.sent.length + t'.stage.requests config ≤ sc.sent.length + t.stage.requests config := by
  have quiet : ∀ {n : ℕ}, n ≤ t.stage.requests config →
      sc.sent.length + n ≤ sc.sent.length + t.stage.requests config :=
    fun h => Nat.add_le_add_left h _
  have ended : sc.sent.length + 0 ≤ sc.sent.length + t.stage.requests config :=
    quiet (Nat.zero_le _)
  cases hm with
  | rejected | failed | unnamed | imageFailed | imageDone | sidecarDone | store | sidecar =>
    exact ended
  | stopped _ he _ => rcases he with ⟨-, rfl⟩ | ⟨-, rfl⟩ <;> exact ended
  | perform => exact le_refl _
  | accepted hs | acquireGlobal hs | lockFound hs | lockFresh hs =>
    exact quiet (by rw [hs]; exact le_refl _)
  | @acquireHost home sem hs =>
    refine quiet ?_
    rw [hs]
    exact (requests_first home.key).le
  | @pool home sem leg n c c' e _ hs he hstep =>
    refine quiet ?_
    rw [hs]
    change c'.requests config leg n ≤ c.requests config leg n
    unfold Client.requests
    rcases clientStep_settled he hstep with hsame | ⟨hnone, err, herr⟩
    · rw [hsame]
    · rw [hnone, herr]
      exact Nat.le_add_left _ _
  | @answered home sem leg n key handle replies urls result hs hx =>
    obtain ⟨hhome, hwork⟩ := hw home (by rw [hs]; rfl)
    obtain ⟨-, hresult⟩ := executeTarget_length (hfits.of_le (hwork _ _ hs).1) hx
    obtain ⟨hhand, hsum⟩ := hresult result rfl
    have hpay := requests_answered (n := n)
      (by rw [hops_eq hhome]; exact Nat.succ_le_succ hhand) (by rw [hops_eq hhome]; exact hsum)
    change (sc.sent ++ urls.map fun url => (⟨key, url⟩ : Sent)).length +
      leg.requestsSettled config n result ≤ _
    rw [List.length_append, List.length_map, hs, Nat.add_assoc]
    exact Nat.add_le_add_left hpay _
  | @burst home sem leg n key handle replies urls hs hx =>
    obtain ⟨hhome, hwork⟩ := hw home (by rw [hs]; rfl)
    obtain ⟨hlen, -⟩ := executeTarget_length (hfits.of_le (hwork _ _ hs).1) hx
    rw [← hops_eq hhome] at hlen
    change (sc.sent ++ urls.map fun url => (⟨key, url⟩ : Sent)).length + 0 ≤ _
    rw [List.length_append, List.length_map, hs]
    exact Nat.add_le_add_left (hlen.trans (Nat.le_add_right _ _)) _
  | @retry home sem leg n _ _ _ result hs hset =>
    refine quiet ?_
    obtain ⟨e, rfl⟩ := settleAttempt_retry_error hset
    rw [hs]
    exact le_refl _
  | @redirect home target sem leg n retries _ _ result hs hset =>
    refine quiet ?_
    obtain ⟨rfl, redir, rfl, htarget⟩ := settleAttempt_redirect hset
    rw [hs]
    change Leg.hops config (.crossHost target retries) +
      Leg.requestsAfter config 0 (.crossHost target retries) ≤
        (config.maxRetries.toNat + 1) * (redir.redirectsRemaining.toNat + 1)
    rw [Leg.requestsAfter, Leg.requestsNext, Leg.hops, (redirectTarget_eq_ok htarget).2,
      UInt32.toNat_zero, Nat.sub_zero, Nat.succ_mul]
    omega
  | @resume home sem leg n delay hs =>
    refine quiet ?_
    rw [hs]
    exact (requestsAfter_succ (hleft home sem leg n delay hs)).le

/-! ## Downloads -/

/-- The requests that a section of the task sends. -/
def Task.sends (env : Env) (config : Config) (t : Task) : TaskEvent → List Uri
  | .request replies => match t.stage with
    | .working home _ (.attempt leg _ (.requesting _ _)) =>
      (executeTarget env config (leg.target home) replies).1
    | _ => []
  | _ => []

/-- The log grows by the requests that a section sends. -/
theorem TaskMove.sent_length {e : TaskEvent} (hm : TaskMove env config p sc t e p' sc' t') :
    sc'.sent.length = sc.sent.length + (t.sends env config e).length := by
  cases hm with
  | @answered home sem leg n key handle replies urls result hs hx =>
    change (sc.sent ++ urls.map fun url => (⟨key, url⟩ : Sent)).length = _
    rw [List.length_append, List.length_map]
    simp only [Task.sends, hs, hx]
  | @burst home sem leg n key handle replies urls hs hx =>
    change (sc.sent ++ urls.map fun url => (⟨key, url⟩ : Sent)).length = _
    rw [List.length_append, List.length_map]
    simp only [Task.sends, hs, hx]
  | stopped _ he => rcases he with ⟨rfl, -⟩ | ⟨rfl, -⟩ <;> rfl
  | _ => rfl

/-- `n` requests of a task, with those it may still send, are within the bound of a download. -/
structure Task.Budgeted (config : Config) (n : ℕ) (t : Task) : Prop where
  left : RetriesLeft config t
  within : HopsWithin config t
  spent : n + t.stage.requests config ≤ requestBound config

theorem Task.Budgeted.step {n : ℕ} {e : TaskEvent} (hfits : Fits env config.maxRedirects)
    (h : t.Budgeted config n) (hm : TaskMove env config p sc t e p' sc' t') :
    t'.Budgeted config (n + (t.sends env config e).length) := by
  refine ⟨retriesLeft_invariant.step h.left hm, (hopsWithin_invariant hfits).step h.within hm, ?_⟩
  have hpay := hm.requests_le hfits h.left h.within
  have hspent := h.spent
  rw [hm.sent_length] at hpay
  omega

namespace Downloader

variable {k j : ℕ} {s s' : State}

/-- The requests that the task `j` of the call `k` sends in a run. -/
def requestsOf (env : Env) (config : Config) (k j : ℕ) (es : List (ℕ × DownloaderEvent)) :
    List Uri :=
  record (step env config) (noteOwn (fun t e urls => urls ++ t.sends env config e) k j) init es []

/-- A download sends at most `requestBound` requests, in every run. -/
theorem requestsOf_le (hfits : Fits env config.maxRedirects) {es : List (ℕ × DownloaderEvent)}
    (hr : run (step env config) init es = some s) :
    (requestsOf env config k j es).length ≤ requestBound config := by
  have hleft : TaskInvariant env config (RetriesLeft config) := retriesLeft_invariant
  obtain ⟨hnone, hsome⟩ : (taskOf k j s = none → requestsOf env config k j es = []) ∧
      ∀ t, taskOf k j s = some t →
        t.Budgeted config (requestsOf env config k j es).length := by
    refine history_of_run (I := fun (urls : List Uri) t => t.Budgeted config urls.length)
      (fun url i dir => ?_) (fun h hm => ?_) hr
    · exact ⟨hleft.spawn url i dir, (hopsWithin_invariant hfits).spawn url i dir,
        (Nat.zero_add _).le⟩
    · rw [List.length_append]
      exact h.step hfits hm
  cases ht : taskOf k j s with
  | none =>
    rw [hnone ht]
    exact Nat.zero_le _
  | some t => exact (Nat.le_add_right _ _).trans (hsome t ht).spent

end Downloader

/-! ## Calls -/

/-- The requests of a call, with those its tasks may still send, are within its bound. -/
structure Budgeted (config : Config) (b : Batch) : Prop where
  collected : Collected b
  left : ∀ j t, b.tasks j = some t → RetriesLeft config t
  within : ∀ j t, b.tasks j = some t → HopsWithin config t
  spent : b.scope.sent.length + total (taskRequests config) b.tasks (dedup b.urls).length ≤
    (dedup b.urls).length * requestBound config

namespace Budgeted

theorem start (hfits : Fits env config.maxRedirects) {urls : List String} {outputDir : String}
    {mkdir : Except String Unit} (hs : Started config urls outputDir mkdir b) :
    Budgeted config b := by
  have hleft : TaskInvariant env config (RetriesLeft config) := retriesLeft_invariant
  refine ⟨.start hs, fun _ _ => hleft.start hs,
    fun _ _ => (hopsWithin_invariant hfits).start hs, ?_⟩
  have hfresh : ∀ i < (dedup b.urls).length, taskRequests config (b.tasks i) ≤
      requestBound config := by
    intro i _
    cases ht : b.tasks i with
    | none => exact Nat.zero_le _
    | some t =>
      obtain ⟨url, firstIndex, rfl⟩ := hs.task_eq ht
      exact le_refl _
  have hle := total_le hfresh
  have hsent : b.scope.sent.length = 0 := by cases hs <;> rfl
  omega

theorem step (hfits : Fits env config.maxRedirects) {e : BatchEvent} (h : Budgeted config b)
    (hm : BatchMove env config p b e p' b') : Budgeted config b' := by
  refine ⟨h.collected.step hm, retriesLeft_invariant.move h.left hm,
    (hopsWithin_invariant hfits).move h.within hm, ?_⟩
  cases hm with
  | @task j _ t t' _ sc' ht _ hm =>
    have hpay := hm.requests_le hfits (h.left j t ht) (h.within j t ht)
    have hsum := total_update (w := taskRequests config) (f := b.tasks)
      (h.collected.lt_length ht) (some t')
    have hspent := h.spent
    rw [ht] at hsum
    change _ + t.stage.requests config = _ + t'.stage.requests config at hsum
    change sc'.sent.length + total (taskRequests config) (Function.update b.tasks j (some t'))
      (dedup b.urls).length ≤ (dedup b.urls).length * requestBound config
    omega
  | joined | joinedPanic | summaryPerformed | summarized => exact h.spent
  | closed =>
    rw [close_eq]
    exact h.spent

end Budgeted

namespace Downloader

/-- In every run, each download of a call sends at most `(R + 1) * (M + 1) + R * M` requests, and
so the call at most that many times the number of its distinct URLs. -/
theorem requests_bounded {s : State} {k : ℕ} {es : List (ℕ × DownloaderEvent)}
    (hr : run (step env config) init es = some s) (hb : s.locals k = some b)
    (hfits : env.overflowChecks = true ∨ config.maxRedirects ≤ 254) :
    (∀ j, (requestsOf env config k j es).length ≤
      (config.maxRetries.toNat + 1) * (config.maxRedirects.toNat + 1) +
        config.maxRetries.toNat * config.maxRedirects.toNat) ∧
    b.scope.sent.length ≤ (dedup b.urls).length *
      ((config.maxRetries.toNat + 1) * (config.maxRedirects.toNat + 1) +
        config.maxRetries.toNat * config.maxRedirects.toNat) := by
  refine ⟨fun j => requestsOf_le hfits hr, ?_⟩
  have hbudget : Budgeted config b := batch_invariant (fun _ _ _ _ hs => .start hfits hs)
    (fun _ _ _ _ _ hI hm => hI.step hfits hm) ⟨es, hr⟩ hb
  exact (Nat.le_add_right _ _).trans hbudget.spent

/-- One retry and one redirect. -/
def oneOfEach : Config :=
  { maxRetries := 1, maxRedirects := 1 }

/-- A URL at the host `a`, another one there, and one at the host `h`. -/
def threePages : Env :=
  Env.ofTable [("http://a/1.png", ⟨some "http", some ⟨"a", none⟩, some "/1.png"⟩),
    ("http://a/2.png", ⟨some "http", some ⟨"a", none⟩, some "/2.png"⟩),
    ("http://h/3.png", ⟨some "http", some ⟨"h", none⟩, some "/3.png"⟩)]

/-- A request on the connection that the first one opened. -/
def rerun (replies : List Reply) : List TaskEvent :=
  [.resume, .pool (.decide (fun _ => .ready) fun _ => .ready), .request replies, .pool .finish,
    .settle 0 0]

/-- Every phase uses all of its attempts, and every attempt all of its redirects. -/
def spendRun : List (ℕ × DownloaderEvent) :=
  (0, .call ["http://a/1.png"] "out" (.ok ())) ::
    taskSteps 0 (toRequest ++ [.request [.found "http://a/2.png"], .pool .finish, .settle 0 0] ++
      rerun [.found "http://h/3.png"] ++ opensH2 ++ [.request [], .pool .finish, .settle 0 0] ++
      rerun [])

/-- The bound is reached. -/
theorem requests_bounded_spendRun : ∃ s b, run (step threePages oneOfEach) init spendRun = some s ∧
    s.locals 0 = some b ∧ b.scope.sent.length = 5 ∧
    (∀ j, (requestsOf threePages oneOfEach 0 j spendRun).length ≤ (1 + 1) * (1 + 1) + 1 * 1) ∧
    b.scope.sent.length ≤ (dedup b.urls).length * ((1 + 1) * (1 + 1) + 1 * 1) := by
  have heval : (run (step threePages oneOfEach) init spendRun).map
      (fun s => (s.locals 0).map fun b => b.scope.sent.length) = some (some 5) := by
    decide +kernel
  obtain ⟨s, hr, hs⟩ := Option.map_eq_some_iff.1 heval
  obtain ⟨b, hb, hsent⟩ := Option.map_eq_some_iff.1 hs
  obtain ⟨htask, hcall⟩ := requests_bounded hr hb (Or.inl rfl)
  exact ⟨s, b, hr, hb, hsent, htask, hcall⟩

end Downloader

end Imgdl
