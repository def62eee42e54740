import Imgdl.Download
import Imgdl.Redirects

/-!
# The redirect budget of a download

`transportPhase` is a download from its first request to its response, when nothing is
retried : `execute_request` on the origin, and `follow_cross_host_redirect` with the
redirects that remain. `walk` is what a phase makes of a server that answers with redirects
or with a success : it follows the redirects on its host until the success, the end of its
budget or another host (`executeWithRedirects_walk`).

The budget left to the second phase is what the first did not use, so together they follow
the redirects up to the limit, one of them to another host (`transportPhase_redirects`).
-/

namespace Imgdl

/-! ## The transport phase -/

section Phase

variable (env : Env) (config : Config)

/-- `follow_cross_host_redirect`, when nothing is retried. -/
def followCrossHostRedirect (redir : CrossHostRedirect) (replies : List Reply) :
    List Uri × Option (Except DownloadError ResponseData) :=
  match redirectTarget redir with
  | .error e => ([], some (.error e))
  | .ok target =>
    let (sent, result) := executeTarget env config target replies
    (sent, result.map fun
      | .ok (.response data) => .ok data
      | .ok (.redirect _) => .error (.tooManyRedirects "too many cross-host redirects")
      | .error e => .error e)

/-- A download of `home` up to its response, when nothing is retried : the replies its two
connections give, in order. -/
def transportPhase (home : Target) (replies : List Reply) :
    List Uri × Option (Except DownloadError ResponseData) :=
  let (sent, result) := executeTarget env config home replies
  match result with
  | none => (sent, none)
  | some (.error e) => (sent, some (.error e))
  | some (.ok (.response data)) => (sent, some (.ok data))
  | some (.ok (.redirect redir)) =>
    let (sent', result') := followCrossHostRedirect env config redir (replies.drop sent.length)
    (sent ++ sent', result')

variable {env config}

/-- A result that is not retried ends its phase. -/
theorem settleAttempt_of_not_retryable {url : String} {firstIndex subsecNanos : ℕ} {leg : Leg}
    {n : UInt32} {result : Except DownloadError TransportResult}
    (h : ∀ e, result = .error e → isRetryable e = false) :
    settleAttempt env config url firstIndex leg n subsecNanos result =
      settleResult env config url firstIndex n leg result := by
  unfold settleAttempt retryTurn
  cases result with
  | ok => rfl
  | error e => simp [h e rfl]

/-- The end of the transport phase, as the task sees it. -/
def settleTransport (env : Env) (config : Config) (url : String) (firstIndex : ℕ) :
    Except DownloadError ResponseData → Settled
  | .ok data => settleResponse env config url firstIndex data 0
  | .error e => .failed e 0

/-- The phases of a task whose results are not retried are the transport phase. -/
theorem settleAttempt_transportPhase {url : String} {firstIndex subsecNanos : ℕ} {home : Target}
    {replies : List Reply} {sent : List Uri} {result : Except DownloadError TransportResult}
    (hfirst : executeTarget env config home replies = (sent, some result))
    (h : ∀ e, result = .error e → isRetryable e = false) :
    (∃ r, (transportPhase env config home replies).2 = some r ∧
      settleAttempt env config url firstIndex .origin 0 subsecNanos result =
        settleTransport env config url firstIndex r) ∨
    ∃ target, settleAttempt env config url firstIndex .origin 0 subsecNanos result =
      .redirect target 0 ∧ ∀ sent' result' subsecNanos',
        executeTarget env config target (replies.drop sent.length) = (sent', some result') →
        (∀ e, result' = .error e → isRetryable e = false) →
        ∃ r, (transportPhase env config home replies).2 = some r ∧
          settleAttempt env config url firstIndex (.crossHost target 0) 0 subsecNanos' result' =
            settleTransport env config url firstIndex r := by
  rw [settleAttempt_of_not_retryable h, transportPhase, hfirst]
  cases result with
  | error e => exact Or.inl ⟨.error e, rfl, rfl⟩
  | ok result =>
    cases result with
    | response data => exact Or.inl ⟨.ok data, rfl, rfl⟩
    | redirect redir =>
      simp only [settleResult, followCrossHostRedirect]
      cases redirectTarget redir with
      | error e => exact Or.inl ⟨.error e, rfl, rfl⟩
      | ok target =>
        refine Or.inr ⟨target, rfl, fun sent' result' subsecNanos' hsecond h' => ?_⟩
        rw [settleAttempt_of_not_retryable h']
        simp only [hsecond]
        cases result' with
        | error e => exact ⟨.error e, rfl, rfl⟩
        | ok result' =>
          cases result' with
          | response data => exact ⟨.ok data, rfl, rfl⟩
          | redirect => exact ⟨_, rfl, rfl⟩

end Phase

/-! ## Walking along redirects -/

/-- A server of which every response is a redirect to a URL with a host, or a complete
success. What it would answer after a success does not matter. -/
def RedirectsOrSucceeds (http : Http) (server : ℕ → HttpResponse) (urls : ℕ → Uri) : Prop :=
  ∀ i, (∀ j < i, isRedirectStatus (server j).status = true) →
    (RedirectsTo http (server i) (urls i) (urls (i + 1)) ∧ (urls (i + 1)).host.isSome) ∨
      (isSuccess (server i).status = true ∧ ∃ b, (server i).body = .bytes b)

/-- The data of a complete response. -/
def HttpResponse.data (r : HttpResponse) : ResponseData :=
  ⟨match r.body with
    | .bytes b => b
    | _ => [], r.headers⟩

/-- How a phase ends : with the `i`-th response, a success, a redirect past the budget, or
one to another host with the budget that remains. -/
inductive PhaseEnd where
  | found (i : ℕ)
  | exceeded (i : ℕ)
  | left (i remaining : ℕ)

/-- The response a phase ends with. -/
def PhaseEnd.last : PhaseEnd → ℕ
  | found i => i
  | exceeded i => i
  | left i _ => i

section Walk

variable (server : ℕ → HttpResponse) (urls : ℕ → Uri)

/-- A phase on `host` from the `i`-th response on, with a budget of redirects. -/
def walk (host : String) : (budget i : ℕ) → PhaseEnd
  | 0, i => if isRedirectStatus (server i).status then .exceeded i else .found i
  | budget + 1, i =>
    if isRedirectStatus (server i).status then
      if eqIgnoreAsciiCase ((urls (i + 1)).host.getD "") host then walk host budget (i + 1)
      else .left i budget
    else .found i

/-- How many of the `n` redirects from the `i`-th on lead to another host than that of the
connection in use. -/
def hostChanges : (host : String) → (i n : ℕ) → ℕ
  | _, _, 0 => 0
  | host, i, n + 1 =>
    let next := (urls (i + 1)).host.getD ""
    if eqIgnoreAsciiCase next host then hostChanges host (i + 1) n
    else hostChanges next (i + 1) n + 1

/-- What the responses are up to the end of a phase. -/
def PhaseEnd.Reached (host : String) (budget i : ℕ) : PhaseEnd → Prop
  | found k => i ≤ k ∧ k ≤ i + budget ∧
    (∀ j, i ≤ j → j < k → isRedirectStatus (server j).status = true) ∧
    isRedirectStatus (server k).status = false ∧ hostChanges urls host i (k - i) = 0
  | exceeded k => k = i + budget ∧ ∀ j, i ≤ j → j ≤ k → isRedirectStatus (server j).status = true
  | left k remaining => i ≤ k ∧ k + 1 + remaining = i + budget ∧
    (∀ j, i ≤ j → j ≤ k → isRedirectStatus (server j).status = true) ∧
    ∀ n, hostChanges urls host i (k - i + 1 + n) =
      hostChanges urls ((urls (k + 1)).host.getD "") (k + 1) n + 1

end Walk

variable {server : ℕ → HttpResponse} {urls : ℕ → Uri}

theorem walk_of_not_redirect {host : String} {i : ℕ}
    (h : isRedirectStatus (server i).status = false) (budget : ℕ) :
    walk server urls host budget i = .found i := by
  cases budget <;> exact if_neg (by simp [h])

theorem PhaseEnd.Reached.found {host : String} {i : ℕ}
    (hi : isRedirectStatus (server i).status = false) (budget : ℕ) :
    (PhaseEnd.found i).Reached server urls host budget i := by
  refine ⟨Nat.le_refl i, Nat.le_add_right i _, fun j hij hji => absurd hji (Nat.not_lt.2 hij),
    hi, ?_⟩
  rw [Nat.sub_self]
  rfl

/-- A redirect on the host begins a walk of the others. -/
theorem PhaseEnd.Reached.hop {e : PhaseEnd} {host : String} {budget i : ℕ}
    (h : e.Reached server urls host budget (i + 1))
    (hi : isRedirectStatus (server i).status = true)
    (hhost : eqIgnoreAsciiCase ((urls (i + 1)).host.getD "") host = true) :
    e.Reached server urls host (budget + 1) i := by
  have hfrom : ∀ {p : ℕ → Prop}, (∀ j, i + 1 ≤ j → p j →
      isRedirectStatus (server j).status = true) → ∀ j, i ≤ j → p j →
      isRedirectStatus (server j).status = true := fun {p} h j hij hp => by
    rcases Nat.eq_or_lt_of_le hij with rfl | hlt
    · exact hi
    · exact h j hlt hp
  have hsame : ∀ n, hostChanges urls host i (n + 1) = hostChanges urls host (i + 1) n :=
    fun n => by rw [hostChanges, if_pos hhost]
  cases e with
  | found k =>
    obtain ⟨hik, hle, hlead, hend, hchanges⟩ := h
    refine ⟨by omega, by omega, hfrom hlead, hend, ?_⟩
    rw [show k - i = k - (i + 1) + 1 by omega, hsame, hchanges]
  | exceeded k =>
    obtain ⟨hk, hlead⟩ := h
    exact ⟨by omega, hfrom hlead⟩
  | left k remaining =>
    obtain ⟨hik, hsum, hlead, hchanges⟩ := h
    refine ⟨by omega, by omega, hfrom hlead, fun n => ?_⟩
    rw [show k - i + 1 + n = k - (i + 1) + 1 + n + 1 by omega, hsame, hchanges]

theorem walk_reached (server : ℕ → HttpResponse) (urls : ℕ → Uri) (host : String) : ∀ budget i,
    (walk server urls host budget i).Reached server urls host budget i := by
  intro budget
  induction budget with
  | zero =>
    intro i
    cases hi : isRedirectStatus (server i).status with
    | false => exact walk_of_not_redirect hi 0 ▸ .found hi 0
    | true =>
      rw [walk, if_pos hi]
      exact ⟨rfl, fun j hij hji => Nat.le_antisymm hji hij ▸ hi⟩
  | succ budget ih =>
    intro i
    cases hi : isRedirectStatus (server i).status with
    | false => exact walk_of_not_redirect hi _ ▸ .found hi _
    | true =>
      rw [walk, if_pos hi]
      split_ifs with hhost
      · exact (ih (i + 1)).hop hi hhost
      · refine ⟨Nat.le_refl i, by omega, fun j hij hji => Nat.le_antisymm hji hij ▸ hi,
          fun n => ?_⟩
        rw [Nat.sub_self, Nat.zero_add, Nat.add_comm 1 n, hostChanges, if_neg hhost]

theorem PhaseEnd.Reached.le_last {e : PhaseEnd} {host : String} {budget i : ℕ}
    (h : e.Reached server urls host budget i) : i ≤ e.last ∧ e.last ≤ i + budget := by
  cases e with
  | found k => exact ⟨h.1, h.2.1⟩
  | exceeded k =>
    obtain ⟨rfl, -⟩ := h
    exact ⟨Nat.le_add_right i budget, Nat.le_refl _⟩
  | left k remaining =>
    obtain ⟨hik, hsum, -⟩ := h
    exact ⟨hik, by change k ≤ _; omega⟩

/-! ## The loop walks -/

/-- The result of a phase. -/
def PhaseEnd.result (server : ℕ → HttpResponse) (urls : ℕ → Uri) (maxRedirects : UInt8) :
    PhaseEnd → Except DownloadError TransportResult
  | found i => .ok (.response (server i).data)
  | exceeded _ => .error (.tooManyRedirects s!"exceeded {maxRedirects} redirects")
  | left i remaining => .ok (.redirect ⟨urls (i + 1), UInt8.ofNat remaining⟩)

/-- The URLs requested up to the end of a phase. -/
def PhaseEnd.sent (urls : ℕ → Uri) (i : ℕ) (e : PhaseEnd) : List Uri :=
  (List.range' i (e.last + 1 - i)).map urls

variable {http : Http} {overflowChecks : Bool} {config : RequestConfig} {host : String}

theorem isRedirectStatus_of_isSuccess {status : ℕ} (h : isSuccess status = true) :
    isRedirectStatus status = false := by
  simp only [isSuccess, Bool.and_eq_true, decide_eq_true_eq] at h
  simp only [isRedirectStatus, Bool.or_eq_false_iff, decide_eq_false_iff_not]
  omega

theorem PhaseEnd.sent_of_last (e : PhaseEnd) (i : ℕ) (h : e.last = i) :
    e.sent urls i = [urls i] := by
  rw [PhaseEnd.sent, h, Nat.add_sub_cancel_left]
  rfl

theorem PhaseEnd.sent_of_lt {e : PhaseEnd} {i : ℕ} (h : i < e.last) :
    e.sent urls i = urls i :: e.sent urls (i + 1) := by
  rw [PhaseEnd.sent, PhaseEnd.sent, show e.last + 1 - i = e.last + 1 - (i + 1) + 1 by omega,
    List.range'_succ, List.map_cons]

/-- The budget that remains after one more redirect. -/
theorem sub_toNat_succ {maxRedirects redirects : UInt8} {budget : ℕ} (hfits : redirects ≠ 255)
    (h : redirects.toNat + (budget + 1) = maxRedirects.toNat) :
    maxRedirects - (redirects + 1) = UInt8.ofNat budget := by
  have hsucc := toNat_succ hfits
  have hlt := maxRedirects.toNat_lt
  refine UInt8.toNat_inj.1 ?_
  rw [UInt8.toNat_sub_of_le _ _ (UInt8.le_iff_toNat_le.2 (by omega)),
    UInt8.toNat_ofNat_of_lt' (by change budget < 256; omega)]
  omega

/-- At a success the loop ends, as the walk does. -/
theorem executeWithRedirects_found {i : ℕ} (hbuild : Buildable http config host (urls i))
    (hsuccess : isSuccess (server i).status = true) {b : Bytes} (hb : (server i).body = .bytes b)
    (budget n : ℕ) (redirects : UInt8) :
    executeWithRedirects http overflowChecks config host (answers server i (n + 1)) (urls i)
        redirects = ((walk server urls host budget i).sent urls i,
      .done ((walk server urls host budget i).result server urls config.maxRedirects)) := by
  have hend := isRedirectStatus_of_isSuccess hsuccess
  rw [answers_succ, executeWithRedirects_stop hbuild (onResponse_success hend hsuccess hb),
    walk_of_not_redirect hend, PhaseEnd.sent_of_last (.found i) i rfl, PhaseEnd.result,
    HttpResponse.data, hb]

/-- The loop with `budget` redirects left and enough replies, by induction on the budget. -/
theorem executeWithRedirects_walk (hserver : RedirectsOrSucceeds http server urls)
    (hbuild : ∀ i, Buildable http config host (urls i)) (hmax : config.maxRedirects ≤ 254) :
    ∀ (budget i n : ℕ) (redirects : UInt8), budget < n →
    redirects.toNat + budget = config.maxRedirects.toNat →
    (∀ j < i, isRedirectStatus (server j).status = true) →
    executeWithRedirects http overflowChecks config host (answers server i n) (urls i) redirects =
      ((walk server urls host budget i).sent urls i,
        .done ((walk server urls host budget i).result server urls config.maxRedirects)) := by
  have hmax' : config.maxRedirects.toNat ≤ 254 := UInt8.le_iff_toNat_le.1 hmax
  have fits : ∀ {redirects : UInt8} {budget : ℕ},
      redirects.toNat + budget = config.maxRedirects.toNat → redirects ≠ 255 := by
    rintro _ budget hsum rfl
    change 255 + budget = _ at hsum
    omega
  intro budget
  induction budget with
  | zero =>
    intro i n redirects hn hsum hlead
    obtain ⟨n, rfl⟩ : ∃ m, n = m + 1 := ⟨n - 1, by omega⟩
    have hfits := fits hsum
    rcases hserver i hlead with ⟨hto, -⟩ | ⟨hsuccess, b, hb⟩
    · have hexceeds : redirects + 1 > config.maxRedirects := by
        rw [gt_iff_lt, UInt8.lt_iff_toNat_lt, toNat_succ hfits]
        omega
      rw [answers_succ, executeWithRedirects_stop (hbuild i)
        ((onResponse_redirect hto hfits).trans (if_pos hexceeds)), walk, if_pos hto.status,
        PhaseEnd.sent_of_last (.exceeded i) i rfl]
      rfl
    · exact executeWithRedirects_found (hbuild i) hsuccess hb _ n redirects
  | succ budget ih =>
    intro i n redirects hn hsum hlead
    obtain ⟨n, rfl⟩ : ∃ m, n = m + 1 := ⟨n - 1, by omega⟩
    have hfits := fits hsum
    rcases hserver i hlead with ⟨hto, -⟩ | ⟨hsuccess, b, hb⟩
    · have hnot : ¬redirects + 1 > config.maxRedirects := by
        rw [gt_iff_lt, UInt8.lt_iff_toNat_lt, toNat_succ hfits]
        omega
      have hredirect :
          onResponse http overflowChecks config host (urls i) redirects (server i) = _ :=
        (onResponse_redirect hto hfits).trans (if_neg hnot)
      rw [answers_succ, walk, if_pos hto.status]
      by_cases hhost : eqIgnoreAsciiCase ((urls (i + 1)).host.getD "") host = true
      · have hlead' : ∀ j < i + 1, isRedirectStatus (server j).status = true := fun j hj =>
          (Nat.lt_succ_iff_lt_or_eq.1 hj).elim (hlead j) fun heq => heq ▸ hto.status
        have hlast := (walk_reached server urls host budget (i + 1)).le_last
        rw [if_pos hhost] at hredirect ⊢
        rw [executeWithRedirects_follow (hbuild i) hredirect, PhaseEnd.sent_of_lt (by omega),
          ih (i + 1) n (redirects + 1) (by omega) (by rw [toNat_succ hfits]; omega) hlead']
      · rw [if_neg hhost] at hredirect ⊢
        rw [executeWithRedirects_stop (hbuild i) hredirect, sub_toNat_succ hfits hsum,
          PhaseEnd.sent_of_last (.left i budget) i rfl]
        rfl
    · exact executeWithRedirects_found (hbuild i) hsuccess hb _ n redirects

/-! ## The budget over both phases -/

variable {env : Env} {config : Config}

/-- A phase on enough replies. -/
theorem executeTarget_walk (hserver : RedirectsOrSucceeds env.http server urls)
    (hbuild : ∀ i host, env.http.requestError ((urls i).pathAndQuery.getD "/") host
      config.userAgent = none) {target : Target} (hmax : target.maxRedirects ≤ 254) {i n : ℕ}
    (huri : urls i = target.uri) (hn : target.maxRedirects.toNat < n)
    (hlead : ∀ j < i, isRedirectStatus (server j).status = true) :
    executeTarget env config target (answers server i n) =
      ((walk server urls target.host target.maxRedirects.toNat i).sent urls i,
        some ((walk server urls target.host target.maxRedirects.toNat i).result server urls
          target.maxRedirects)) := by
  have hb : ∀ i, Buildable env.http ⟨config.userAgent, target.maxRedirects⟩ target.host (urls i) :=
    fun i => hbuild i target.host
  rw [executeTarget, executeRequest, ← huri, executeWithRedirects_walk hserver hb hmax
    target.maxRedirects.toNat i n 0 hn (Nat.zero_add _) hlead]

/-- The first response that is no redirect is a success, and is the `k`-th. -/
def FirstSuccess (server : ℕ → HttpResponse) (k : ℕ) : Prop :=
  (∀ j < k, isRedirectStatus (server j).status = true) ∧ isSuccess (server k).status = true

theorem FirstSuccess.unique {k k' : ℕ} (h : FirstSuccess server k) (h' : FirstSuccess server k') :
    k = k' := by
  have hend := isRedirectStatus_of_isSuccess h.2
  have hend' := isRedirectStatus_of_isSuccess h'.2
  rcases Nat.lt_trichotomy k k' with hlt | heq | hlt
  · rw [h'.1 k hlt] at hend
    cases hend
  · exact heq
  · rw [h.1 k' hlt] at hend'
    cases hend'

/-- A success is reached only after all the redirects. -/
theorem FirstSuccess.lt {k i : ℕ} (h : FirstSuccess server k)
    (hlead : ∀ j ≤ i, isRedirectStatus (server j).status = true) : i < k := by
  by_contra hle
  have hend := isRedirectStatus_of_isSuccess h.2
  rw [hlead k (by omega)] at hend
  cases hend

theorem drop_answers (server : ℕ → HttpResponse) (i n k : ℕ) :
    (answers server i n).drop k = answers server (i + k) (n - k) := by
  rw [answers, ← List.map_drop, List.drop_range', Nat.mul_one]
  rfl

/-- The target of a redirect. -/
theorem redirectTarget_eq_ok {redir : CrossHostRedirect} {target : Target}
    (h : redirectTarget redir = .ok target) :
    target.uri = redir.newUri ∧ target.maxRedirects = redir.redirectsRemaining := by
  unfold redirectTarget at h
  split at h
  · cases h
  · obtain rfl := Except.ok.inj h
    exact ⟨rfl, rfl⟩

theorem settleResponse_ne_redirect {url : String} {firstIndex : ℕ} {retries : UInt32}
    {target : Target} (data : ResponseData) (n : UInt32) :
    settleResponse env config url firstIndex data n ≠ .redirect target retries := by
  unfold settleResponse
  split
  · nofun
  · split <;> nofun

/-- Only a redirect that ends the first phase leads to another one. -/
theorem settleAttempt_redirect {url : String} {firstIndex subsecNanos : ℕ} {leg : Leg}
    {n retries : UInt32} {result : Except DownloadError TransportResult} {target : Target}
    (h : settleAttempt env config url firstIndex leg n subsecNanos result =
      .redirect target retries) :
    leg = .origin ∧
      ∃ redir, result = .ok (.redirect redir) ∧ redirectTarget redir = .ok target := by
  unfold settleAttempt at h
  split at h
  case h_1 => cases h
  case h_2 result' _ hturn =>
    obtain ⟨rfl, rfl⟩ := retryTurn_done hturn
    rcases result' with e | ⟨data⟩ | ⟨redir⟩
    · cases leg <;> cases h
    · cases leg <;> exact absurd h (settleResponse_ne_redirect data _)
    · cases leg with
      | crossHost => cases h
      | origin =>
        simp only [settleResult] at h
        split at h
        · cases h
        case h_2 target' htarget =>
          obtain ⟨rfl, rfl⟩ := Settled.redirect.inj h
          exact ⟨rfl, redir, rfl, htarget⟩

theorem redirectTarget_of_host {redir : CrossHostRedirect} {host : String}
    (h : redir.newUri.host = some host) : ∃ target, redirectTarget redir = .ok target ∧
      target.uri = redir.newUri ∧ target.host = host ∧
      target.maxRedirects = redir.redirectsRemaining := by
  unfold redirectTarget
  split
  case h_1 hnone =>
    rw [h] at hnone
    cases hnone
  case h_2 host' hsome =>
    exact ⟨_, rfl, rfl, Option.some.inj (hsome.symm.trans h), rfl⟩

/-- The transport phase by the walks of its connections. -/
theorem transportPhase_walk (hserver : RedirectsOrSucceeds env.http server urls)
    (hbuild : ∀ i host, env.http.requestError ((urls i).pathAndQuery.getD "/") host
      config.userAgent = none) {home : Target} (hmax : home.maxRedirects ≤ 254) {n : ℕ}
    (huri : urls 0 = home.uri) (hn : home.maxRedirects.toNat < n) :
    transportPhase env config home (answers server 0 n) =
      match walk server urls home.host home.maxRedirects.toNat 0 with
      | .found k => ((PhaseEnd.found k).sent urls 0, some (.ok (server k).data))
      | .exceeded k => ((PhaseEnd.exceeded k).sent urls 0,
        some (.error (.tooManyRedirects s!"exceeded {home.maxRedirects} redirects")))
      | .left k budget =>
        let next := walk server urls ((urls (k + 1)).host.getD "") budget (k + 1)
        ((PhaseEnd.left k budget).sent urls 0 ++ next.sent urls (k + 1), some (match next with
          | .found k' => .ok (server k').data
          | .exceeded _ =>
            .error (.tooManyRedirects s!"exceeded {UInt8.ofNat budget} redirects")
          | .left _ _ => .error (.tooManyRedirects "too many cross-host redirects"))) := by
  have hmax' : home.maxRedirects.toNat ≤ 254 := UInt8.le_iff_toNat_le.1 hmax
  have hreached := walk_reached server urls home.host home.maxRedirects.toNat 0
  rw [transportPhase, executeTarget_walk hserver hbuild hmax huri hn
    fun j hj => absurd hj (Nat.not_lt_zero j)]
  cases hw : walk server urls home.host home.maxRedirects.toNat 0 with
  | found k => rfl
  | exceeded k => rfl
  | left k budget =>
    rw [hw] at hreached
    obtain ⟨-, hsum, hlead, -⟩ := hreached
    have hlead' : ∀ j < k + 1, isRedirectStatus (server j).status = true :=
      fun j hj => hlead j (Nat.zero_le j) (Nat.le_of_lt_succ hj)
    obtain ⟨host, hhost⟩ : ∃ host, (urls (k + 1)).host = some host := by
      rcases hserver k fun j hj => hlead' j (by omega) with ⟨-, hsome⟩ | ⟨hsuccess, -⟩
      · exact Option.isSome_iff_exists.1 hsome
      · have hend := isRedirectStatus_of_isSuccess hsuccess
        rw [hlead' k (Nat.lt_succ_self k)] at hend
        cases hend
    have hbudget : (UInt8.ofNat budget).toNat = budget :=
      UInt8.toNat_ofNat_of_lt' (by change budget < 256; omega)
    have hlen : ((PhaseEnd.left k budget).sent urls 0).length = k + 1 := by
      simp [PhaseEnd.sent, PhaseEnd.last]
    have hredir : (CrossHostRedirect.mk (urls (k + 1)) (UInt8.ofNat budget)).newUri.host =
        some host := hhost
    obtain ⟨target, htarget, huri', hhost', hmax''⟩ := redirectTarget_of_host hredir
    have hle : target.maxRedirects ≤ 254 := by
      rw [hmax'', UInt8.le_iff_toNat_le]
      change (UInt8.ofNat budget).toNat ≤ 254
      omega
    have hnext := executeTarget_walk hserver hbuild hle (n := n - (k + 1)) huri'.symm
      (by rw [hmax'']; change (UInt8.ofNat budget).toNat < _; omega) hlead'
    rw [hmax'', hhost'] at hnext
    simp only [PhaseEnd.result, hlen, drop_answers, Nat.zero_add, followCrossHostRedirect, htarget,
      hnext, hbudget, hhost, Option.getD_some]
    cases walk server urls host budget (k + 1) <;> rfl

/-- A redirect that is followed is within the limit. -/
theorem onResponse_follow {config : RequestConfig} {url url' : Uri} {redirects redirects' : UInt8}
    {r : HttpResponse}
    (h : onResponse http overflowChecks config host url redirects r = .follow url' redirects') :
    redirects + 1 ≤ config.maxRedirects ∧ redirects' = redirects + 1 := by
  unfold onResponse at h
  repeat' split at h
  all_goals cases h
  exact ⟨UInt8.not_lt.1 ‹_›, rfl⟩

/-- A redirect that is handed over is within the limit, and so is what remains. -/
theorem onResponse_handover {config : RequestConfig} {url : Uri} {redirects : UInt8}
    {r : HttpResponse} {redir : CrossHostRedirect}
    (h : onResponse http overflowChecks config host url redirects r =
      .stop (.done (.ok (.redirect redir)))) : redirects + 1 ≤ config.maxRedirects ∧
        redir.redirectsRemaining = config.maxRedirects - (redirects + 1) := by
  unfold onResponse at h
  repeat' split at h
  all_goals cases h
  exact ⟨UInt8.not_lt.1 ‹_›, rfl⟩

/-- The redirects a phase followed, and those it hands over, make up its limit. -/
theorem executeWithRedirects_remaining {config : RequestConfig} (hmax : config.maxRedirects ≤ 254)
    {redir : CrossHostRedirect} : ∀ (replies : List Reply) (url : Uri) (redirects : UInt8),
    redirects ≤ config.maxRedirects →
    (executeWithRedirects http overflowChecks config host replies url redirects).2 =
      .done (.ok (.redirect redir)) →
    redirects.toNat +
      (executeWithRedirects http overflowChecks config host replies url redirects).1.length +
      redir.redirectsRemaining.toNat = config.maxRedirects.toNat := by
  intro replies
  induction replies with
  | nil =>
    intro url redirects _ h
    by_cases hb : Buildable http config host url
    · rw [executeWithRedirects_nil hb] at h
      cases h
    · obtain ⟨e, he⟩ := executeWithRedirects_of_not_buildable hb
      rw [he] at h
      cases h
  | cons reply replies ih =>
    intro url redirects hle h
    by_cases hb : Buildable http config host url
    swap
    · obtain ⟨e, he⟩ := executeWithRedirects_of_not_buildable hb
      rw [he] at h
      cases h
    by_cases hr : ∃ r, reply = .response r
    swap
    · obtain ⟨p, hp, hnot⟩ := executeWithRedirects_of_no_response hb
        fun r rest heq => hr ⟨r, (List.cons.inj heq).1⟩
      rw [hp] at h
      exact absurd h (hnot _)
    obtain ⟨r, rfl⟩ := hr
    have hfits : redirects ≠ 255 := fun heq => by
      have h254 := UInt8.le_trans hle hmax
      rw [heq] at h254
      exact absurd h254 (by decide)
    have hsucc := toNat_succ hfits
    cases hnext : onResponse http overflowChecks config host url redirects r with
    | stop p =>
      rw [executeWithRedirects_stop hb hnext] at h ⊢
      obtain rfl : p = .done (.ok (.redirect redir)) := h
      obtain ⟨hle', hremaining⟩ := onResponse_handover hnext
      rw [hremaining, UInt8.toNat_sub_of_le _ _ hle', List.length_singleton]
      rw [UInt8.le_iff_toNat_le] at hle'
      omega
    | follow url' redirects' =>
      obtain ⟨hle', rfl⟩ := onResponse_follow hnext
      rw [executeWithRedirects_follow hb hnext] at h ⊢
      have hrest := ih url' (redirects + 1) hle' h
      rw [List.length_cons]
      omega

theorem length_sent (urls : ℕ → Uri) (e : PhaseEnd) (i : ℕ) :
    (e.sent urls i).length = e.last + 1 - i := by
  rw [PhaseEnd.sent, List.length_map, List.length_range']

theorem parseTarget_maxRedirects {url : String} {home : Target}
    (h : parseTarget env.http config url = .ok home) : home.maxRedirects = config.maxRedirects := by
  unfold parseTarget at h
  repeat' split at h
  all_goals cases h
  rfl

/-- The redirects a connection hands over are what it did not use of its limit. -/
theorem executeTarget_remaining {target : Target} {replies : List Reply} {sent : List Uri}
    {redir : CrossHostRedirect} (hmax : target.maxRedirects ≤ 254)
    (hrun : executeTarget env config target replies = (sent, some (.ok (.redirect redir)))) :
    sent.length + redir.redirectsRemaining.toNat = target.maxRedirects.toNat := by
  rw [executeTarget, executeRequest] at hrun
  obtain ⟨rfl, hresult⟩ := Prod.mk.inj hrun
  have hdone : (executeWithRedirects env.http env.overflowChecks
      ⟨config.userAgent, target.maxRedirects⟩ target.host replies target.uri 0).2 =
      .done (.ok (.redirect redir)) := by
    split at hresult
    · cases hresult
    · cases hresult
    · rename_i hp
      rw [hp, Option.some.inj hresult]
  have hsum := executeWithRedirects_remaining hmax replies target.uri 0 (UInt8.zero_le) hdone
  rw [UInt8.toNat_zero, Nat.zero_add] at hsum
  exact hsum

/-! ## What two walks come to -/

/-- The first success is the one a phase found, if only redirects came before. -/
theorem PhaseEnd.Reached.firstSuccess {host : String} {i k budget : ℕ}
    (h : (PhaseEnd.found k).Reached server urls host budget i)
    (hserver : RedirectsOrSucceeds http server urls)
    (hlead : ∀ j < i, isRedirectStatus (server j).status = true) : FirstSuccess server k := by
  obtain ⟨-, -, hlead', hend, -⟩ := h
  have hall : ∀ j < k, isRedirectStatus (server j).status = true := fun j hj => by
    rcases Nat.lt_or_ge j i with hji | hij
    · exact hlead j hji
    · exact hlead' j hij hj
  rcases hserver k hall with ⟨hto, -⟩ | ⟨hsuccess, -⟩
  · rw [hto.status] at hend
    cases hend
  · exact ⟨hall, hsuccess⟩

/-- A phase that exceeds its budget, or leaves for another host, met no success. -/
theorem FirstSuccess.last_lt {m i budget : ℕ} {host : String} {e : PhaseEnd}
    (hm : FirstSuccess server m) (h : e.Reached server urls host budget i)
    (hlead : ∀ j < i, isRedirectStatus (server j).status = true)
    (he : ∀ k, e ≠ .found k) : e.last < m := by
  have hall : ∀ {k}, (∀ j, i ≤ j → j ≤ k → isRedirectStatus (server j).status = true) →
      ∀ j ≤ k, isRedirectStatus (server j).status = true := fun {k} h j hj => by
    rcases Nat.lt_or_ge j i with hji | hij
    · exact hlead j hji
    · exact h j hij hj
  cases e with
  | found k => exact absurd rfl (he k)
  | exceeded k => exact hm.lt (hall h.2)
  | left k remaining => exact hm.lt (hall h.2.2.1)

/-- The `k`-th response is a success within the limit and behind at most one change of host. -/
def Within (server : ℕ → HttpResponse) (urls : ℕ → Uri) (host : String) (limit k : ℕ) : Prop :=
  FirstSuccess server k ∧ k ≤ limit ∧ hostChanges urls host 0 k ≤ 1

section TwoWalks

variable {limit k budget : ℕ}

/-- Past the first change of host, the changes are those of the second phase and one. -/
theorem PhaseEnd.Reached.changes (h : (PhaseEnd.left k budget).Reached server urls host limit 0)
    {m : ℕ} (hm : k < m) : hostChanges urls host 0 m =
      hostChanges urls ((urls (k + 1)).host.getD "") (k + 1) (m - (k + 1)) + 1 := by
  obtain ⟨-, -, -, hchanges⟩ := h
  rw [← hchanges, show k - 0 + 1 + (m - (k + 1)) = m by omega]

/-- A success that the second phase finds is within the limit. -/
theorem within_of_second (hserver : RedirectsOrSucceeds http server urls)
    (hfirst : (PhaseEnd.left k budget).Reached server urls host limit 0) {k' : ℕ}
    (hsecond : (PhaseEnd.found k').Reached server urls ((urls (k + 1)).host.getD "") budget
      (k + 1)) : Within server urls host limit k' := by
  obtain ⟨-, hsum, hlead, -⟩ := id hfirst
  obtain ⟨hkk', hle, -, -, hchanges⟩ := id hsecond
  refine ⟨hsecond.firstSuccess hserver fun j hj => hlead j (Nat.zero_le j) (by omega), by omega,
    ?_⟩
  rw [hfirst.changes hkk', hchanges]

/-- Without one, there is none : the next success is past the limit, or behind a second
change of host. -/
theorem not_within_of_second
    (hfirst : (PhaseEnd.left k budget).Reached server urls host limit 0) {e : PhaseEnd}
    (hsecond : e.Reached server urls ((urls (k + 1)).host.getD "") budget (k + 1))
    (he : ∀ k', e ≠ .found k') (m : ℕ) : ¬Within server urls host limit m := by
  rintro ⟨hm, hle, hone⟩
  obtain ⟨-, hsum, hlead, -⟩ := id hfirst
  have hlt := hm.last_lt hsecond (fun j hj => hlead j (Nat.zero_le j) (by omega)) he
  cases e with
  | found k' => exact he k' rfl
  | exceeded k' =>
    obtain ⟨heq, -⟩ := hsecond
    change k' < m at hlt
    omega
  | left k' budget' =>
    obtain ⟨hkk', -, -, hchanges⟩ := hsecond
    change k' < m at hlt
    rw [hfirst.changes (by omega),
      show m - (k + 1) = k' - (k + 1) + 1 + (m - (k' + 1)) by omega, hchanges] at hone
    omega

end TwoWalks

section Run

variable {n : ℕ} {home : Target} (hserver : RedirectsOrSucceeds env.http server urls)
  (hbuild : ∀ i host, env.http.requestError ((urls i).pathAndQuery.getD "/") host
    config.userAgent = none) (hmax : home.maxRedirects ≤ 254) (huri : urls 0 = home.uri)
  (hn : home.maxRedirects.toNat < n)
include hserver hbuild hmax huri hn

/-- The result is the first success within the limit, or too many redirects if there is
none. -/
theorem transportPhase_result :
    (∃ k, Within server urls home.host home.maxRedirects.toNat k ∧
      (transportPhase env config home (answers server 0 n)).2 = some (.ok (server k).data)) ∨
    (∀ k, ¬Within server urls home.host home.maxRedirects.toNat k) ∧ ∃ msg,
      (transportPhase env config home (answers server 0 n)).2 =
        some (.error (.tooManyRedirects msg)) := by
  rw [transportPhase_walk hserver hbuild hmax huri hn]
  have hfirst := walk_reached server urls home.host home.maxRedirects.toNat 0
  have none_before : ∀ j < 0, isRedirectStatus (server j).status = true :=
    fun j hj => absurd hj (Nat.not_lt_zero j)
  cases hw : walk server urls home.host home.maxRedirects.toNat 0 with
  | found k =>
    rw [hw] at hfirst
    have hk := hfirst.firstSuccess hserver none_before
    obtain ⟨-, hle, -, -, hchanges⟩ := hfirst
    exact Or.inl ⟨k, ⟨hk, by omega, hchanges.le.trans (Nat.zero_le 1)⟩, rfl⟩
  | exceeded k =>
    rw [hw] at hfirst
    refine Or.inr ⟨fun m ⟨hm, hle, _⟩ => ?_, _, rfl⟩
    have hlt := hm.last_lt hfirst none_before fun k' h => (nomatch h)
    obtain ⟨hk, -⟩ := hfirst
    change k < m at hlt
    omega
  | left k budget =>
    rw [hw] at hfirst
    have hsecond := walk_reached server urls ((urls (k + 1)).host.getD "") budget (k + 1)
    cases hw' : walk server urls ((urls (k + 1)).host.getD "") budget (k + 1) with
    | found k' =>
      rw [hw'] at hsecond
      exact Or.inl ⟨k', within_of_second hserver hfirst hsecond, by simp only [hw']⟩
    | exceeded k' | left k' budget' =>
      rw [hw'] at hsecond
      exact Or.inr ⟨not_within_of_second hfirst hsecond fun k h => (nomatch h), _, by
        simp only [hw']; rfl⟩

/-- Both connections together send at most one request more than the limit. -/
theorem transportPhase_length :
    (transportPhase env config home (answers server 0 n)).1.length ≤
      home.maxRedirects.toNat + 1 := by
  rw [transportPhase_walk hserver hbuild hmax huri hn]
  have hfirst := walk_reached server urls home.host home.maxRedirects.toNat 0
  cases hw : walk server urls home.host home.maxRedirects.toNat 0 with
  | found k | exceeded k =>
    rw [hw] at hfirst
    have hle := hfirst.le_last
    simp only [length_sent, PhaseEnd.last] at hle ⊢
    omega
  | left k budget =>
    rw [hw] at hfirst
    obtain ⟨-, hsum, -, -⟩ := hfirst
    have hlast := (walk_reached server urls ((urls (k + 1)).host.getD "") budget
      (k + 1)).le_last
    rw [List.length_append, length_sent, length_sent]
    change k + 1 - 0 + _ ≤ _
    omega

end Run

/-- A download whose responses are redirects, up to the first success. It returns that success
if the limit allows its redirects and at most one of them leads to another host, and fails
with too many redirects otherwise. The redirects a phase hands over are what it did not use. -/
theorem transportPhase_redirects {url : String} {home : Target}
    (hhome : parseTarget env.http config url = .ok home) (hmax : config.maxRedirects ≤ 254)
    (hserver : RedirectsOrSucceeds env.http server urls) (huri : urls 0 = home.uri)
    (hbuild : ∀ i host, env.http.requestError ((urls i).pathAndQuery.getD "/") host
      config.userAgent = none) {n : ℕ} (hn : config.maxRedirects.toNat < n) :
    (∀ k, FirstSuccess server k → k ≤ config.maxRedirects.toNat →
      hostChanges urls home.host 0 k ≤ 1 →
      (transportPhase env config home (answers server 0 n)).2 = some (.ok (server k).data)) ∧
    ((¬∃ k, FirstSuccess server k ∧ k ≤ config.maxRedirects.toNat ∧
      hostChanges urls home.host 0 k ≤ 1) → ∃ msg,
      (transportPhase env config home (answers server 0 n)).2 =
        some (.error (.tooManyRedirects msg))) ∧
    (transportPhase env config home (answers server 0 n)).1.length ≤
      config.maxRedirects.toNat + 1 ∧
    ∀ target replies sent redir, target.maxRedirects ≤ config.maxRedirects →
      executeTarget env config target replies = (sent, some (.ok (.redirect redir))) →
      sent.length + redir.redirectsRemaining.toNat = target.maxRedirects.toNat := by
  have hlimit := parseTarget_maxRedirects hhome
  rw [← hlimit] at hmax hn ⊢
  have hresult := transportPhase_result hserver hbuild hmax huri hn
  refine ⟨fun k hk hle hone => ?_, fun hnone => ?_,
    transportPhase_length hserver hbuild hmax huri hn, fun target replies sent redir hle hrun =>
      executeTarget_remaining (UInt8.le_trans hle hmax) hrun⟩
  · rcases hresult with ⟨k', hk', hr⟩ | ⟨hnot, -⟩
    · rwa [hk.unique hk'.1]
    · exact absurd ⟨hk, hle, hone⟩ (hnot k)
  · rcases hresult with ⟨k', hk', -⟩ | ⟨-, hr⟩
    · exact absurd ⟨k', hk'⟩ hnone
    · exact hr

/-- A URL at the host `a`, which redirects to one at the host `b`, and that one. -/
def hopUrls : ℕ → Uri
  | 0 => ⟨some "http", some ⟨"a", none⟩, some "/"⟩
  | _ => ⟨some "http", some ⟨"b", none⟩, some "/"⟩

/-- A redirect to the host `b`, then an image. -/
def hopServer : ℕ → HttpResponse
  | 0 => ⟨302, [("location", "http://b/".toList.map fun c => UInt8.ofNat c.toNat)], .bytes []⟩
  | _ => ⟨200, [], .bytes [1]⟩

/-- The target of the first URL. -/
def hopTarget : Target :=
  ⟨hopUrls 0, "a", 80, 5, rfl, rfl⟩

/-- The two URLs. -/
def hopEnv : Env :=
  Env.ofTable [("http://a/", hopUrls 0), ("http://b/", hopUrls 1)]

theorem transportPhase_hop :
    (transportPhase hopEnv {} hopTarget (answers hopServer 0 6)).2 = some (.ok ⟨[1], []⟩) := by
  have hhome : parseTarget hopEnv.http {} "http://a/" = .ok hopTarget := rfl
  have hserver : RedirectsOrSucceeds hopEnv.http hopServer hopUrls := by
    rintro (_ | i) -
    · exact Or.inl ⟨⟨rfl, fun h => (nomatch h), _, "http://b/", rfl, by decide, by rfl⟩, rfl⟩
    · exact Or.inr ⟨rfl, [1], rfl⟩
  have hfirst : FirstSuccess hopServer 1 := ⟨fun j hj => by
    obtain rfl : j = 0 := Nat.lt_one_iff.1 hj
    rfl, rfl⟩
  exact (transportPhase_redirects hhome (by decide) hserver rfl (fun _ _ => rfl) (n := 6)
    (by decide)).1 1 hfirst (by decide) (by decide)

end Imgdl
