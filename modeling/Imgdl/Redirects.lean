import Imgdl.Transport

/-!
# The redirect loop

The request loop has no other bound than its hop counter, a `u8` compared with a limit of the
same type. `RedirectsTo` is a redirect the loop can follow, and `onResponse_redirect` what the
loop makes of it. A server is a sequence of responses, of which the loop sees a prefix
(`answers`), so it may redirect for ever.

Below the top of its range the counter reaches the limit before it overflows. A limit of 255
is never exceeded : after 256 redirects the increment overflows (`redirect_loop_iff`).
-/

namespace Imgdl

variable (http : Http) (overflowChecks : Bool) (config : RequestConfig) (host : String)

/-- The request for a URL can be built. -/
def Buildable (url : Uri) : Prop :=
  http.requestError (url.pathAndQuery.getD "/") host config.userAgent = none

/-- A complete redirect, with a location that resolves to `next`. -/
structure RedirectsTo (r : HttpResponse) (url next : Uri) : Prop where
  status : isRedirectStatus r.status = true
  complete : r.body ≠ .stalled
  location : ∃ v location, r.headers.get "location" = some v ∧
    HeaderValue.toStr v = some location ∧ resolveRedirect http url location = .ok next

/-- `n` responses of a server, from the `i`-th on. -/
def answers (server : ℕ → HttpResponse) (i n : ℕ) : List Reply :=
  (List.range' i n).map fun j => .response (server j)

theorem answers_succ (server : ℕ → HttpResponse) (i n : ℕ) :
    answers server i (n + 1) = .response (server i) :: answers server (i + 1) n := by
  rw [answers, List.range'_succ, List.map_cons]
  rfl

/-- Below the top of its range the counter does not wrap. -/
theorem toNat_succ {redirects : UInt8} (h : redirects ≠ 255) :
    (redirects + 1).toNat = redirects.toNat + 1 := by
  have hne : redirects.toNat ≠ 255 := fun heq => h (UInt8.toNat_inj.1 heq)
  have hlt := redirects.toNat_lt
  rw [UInt8.toNat_add]
  exact Nat.mod_eq_of_lt (by change redirects.toNat + 1 < 256; omega)

/-! ## One turn of the loop -/

section Turn

variable {http overflowChecks config host}
variable {url next : Uri} {redirects : UInt8} {r : HttpResponse} {replies : List Reply}

theorem executeWithRedirects_of_not_buildable (h : ¬Buildable http config host url) :
    ∃ e, executeWithRedirects http overflowChecks config host replies url redirects =
      ([], .done (.error (.connectionFailed e))) := by
  unfold executeWithRedirects
  split
  · exact ⟨_, rfl⟩
  · exact absurd ‹_› h

/-- Without a response, the request for the current URL is the last one, and has no result. -/
theorem executeWithRedirects_of_no_response (h : Buildable http config host url)
    (hr : ∀ r rest, replies ≠ .response r :: rest) :
    ∃ p, executeWithRedirects http overflowChecks config host replies url redirects = ([url], p) ∧
      ∀ result, p ≠ .done (.ok result) := by
  unfold Buildable at h
  rw [executeWithRedirects.eq_def]
  simp only [h]
  cases replies with
  | nil => exact ⟨_, rfl, fun _ h => (nomatch h)⟩
  | cons reply rest =>
    cases reply with
    | response r => exact absurd rfl (hr r rest)
    | notReady | sendFailed => exact ⟨_, rfl, fun _ h => (nomatch h)⟩

theorem executeWithRedirects_nil (h : Buildable http config host url) :
    executeWithRedirects http overflowChecks config host [] url redirects = ([url], .pending) := by
  unfold Buildable at h
  rw [executeWithRedirects.eq_def]
  simp only [h]

/-- The request for the current URL, and what its response leads to. -/
theorem executeWithRedirects_response (h : Buildable http config host url) :
    executeWithRedirects http overflowChecks config host (.response r :: replies) url redirects =
      match onResponse http overflowChecks config host url redirects r with
      | .stop p => ([url], p)
      | .follow url' redirects' =>
        (url :: (executeWithRedirects http overflowChecks config host replies url' redirects').1,
          (executeWithRedirects http overflowChecks config host replies url' redirects').2) := by
  unfold Buildable at h
  rw [executeWithRedirects.eq_def]
  cases hnext : onResponse http overflowChecks config host url redirects r with
  | stop p => simp only [h, hnext]
  | follow url' redirects' => simp only [h, hnext]

theorem executeWithRedirects_stop {p : Progress} (h : Buildable http config host url)
    (hstop : onResponse http overflowChecks config host url redirects r = .stop p) :
    executeWithRedirects http overflowChecks config host (.response r :: replies) url redirects =
      ([url], p) := by
  rw [executeWithRedirects_response h, hstop]

theorem executeWithRedirects_follow {url' : Uri} {redirects' : UInt8}
    (h : Buildable http config host url)
    (hfollow : onResponse http overflowChecks config host url redirects r =
      .follow url' redirects') :
    executeWithRedirects http overflowChecks config host (.response r :: replies) url redirects =
      (url :: (executeWithRedirects http overflowChecks config host replies url' redirects').1,
        (executeWithRedirects http overflowChecks config host replies url' redirects').2) := by
  rw [executeWithRedirects_response h, hfollow]

theorem onResponse_redirect (h : RedirectsTo http r url next) (hfits : redirects ≠ 255) :
    onResponse http overflowChecks config host url redirects r =
      if redirects + 1 > config.maxRedirects then
        .stop (.done (.error (.tooManyRedirects s!"exceeded {config.maxRedirects} redirects")))
      else if eqIgnoreAsciiCase (next.host.getD "") host then .follow next (redirects + 1)
      else .stop (.done (.ok (.redirect ⟨next, config.maxRedirects - (redirects + 1)⟩))) := by
  obtain ⟨v, location, hget, hstr, hresolve⟩ := h.location
  unfold onResponse
  rw [if_pos h.status, if_neg fun hc => hfits hc.2]
  simp only [hget, hstr, if_neg h.complete, hresolve]
  cases eqIgnoreAsciiCase (next.host.getD "") host <;> rfl

/-- Any other complete response ends the loop. -/
theorem onResponse_other (h : isRedirectStatus r.status = false) (hbody : r.body ≠ .stalled) :
    ∃ result, onResponse http overflowChecks config host url redirects r =
      .stop (.done result) := by
  unfold onResponse
  rw [if_neg (by simp [h])]
  cases hb : r.body with
  | stalled => exact absurd hb hbody
  | bytes | failed => split_ifs <;> exact ⟨_, rfl⟩

theorem onResponse_success {b : Bytes} (h : isRedirectStatus r.status = false)
    (hsuccess : isSuccess r.status = true) (hbody : r.body = .bytes b) :
    onResponse http overflowChecks config host url redirects r =
      .stop (.done (.ok (.response ⟨b, r.headers⟩))) := by
  unfold onResponse
  rw [if_neg (by simp [h]), if_neg (by simp [hsuccess]), hbody]

end Turn

/-! ## The bound of the loop -/

/-- No increment of the hop counter overflows. -/
def CounterFits : List Reply → Uri → UInt8 → Prop
  | .response r :: replies, url, redirects => Buildable http config host url →
    isRedirectStatus r.status = true → redirects ≠ 255 ∧
      match onResponse http overflowChecks config host url redirects r with
      | .follow url' redirects' => CounterFits replies url' redirects'
      | .stop _ => True
  | _, _, _ => True

/-- A server whose responses are complete, and whose redirects stay on the host. -/
structure SameHost (server : ℕ → HttpResponse) (urls : ℕ → Uri) : Prop where
  complete : ∀ i, (server i).body ≠ .stalled
  redirect : ∀ i, (∀ j ≤ i, isRedirectStatus (server j).status = true) →
    RedirectsTo http (server i) (urls i) (urls (i + 1)) ∧
      eqIgnoreAsciiCase ((urls (i + 1)).host.getD "") host = true

/-- The loop ends within its bound on `n` responses : it sends no more than one request after
the last redirect it may follow, and no increment overflows. -/
structure LoopBounded (url : Uri) (replies : List Reply) : Prop where
  requests : (executeWithRedirects http overflowChecks config host replies url 0).1.length ≤
    config.maxRedirects.toNat + 1
  counter : CounterFits http overflowChecks config host replies url 0
  panics : (executeWithRedirects http overflowChecks config host replies url 0).2 ≠ .panicked
  ends : config.maxRedirects.toNat < replies.length →
    (executeWithRedirects http overflowChecks config host replies url 0).2 ≠ .pending

variable {http overflowChecks config host}

/-- The loop from its `i`-th request on, if it ends before the counter is at its top. -/
theorem executeWithRedirects_bounded {server : ℕ → HttpResponse} {urls : ℕ → Uri}
    (h : SameHost http host server urls) : ∀ (n i : ℕ) (redirects : UInt8),
    redirects.toNat = i → i ≤ config.maxRedirects.toNat →
    (∀ j < i, isRedirectStatus (server j).status = true) →
    (config.maxRedirects ≤ 254 ∨ i + n < 256 ∨ ∃ j, i ≤ j ∧ j < 256 ∧
      ¬(isRedirectStatus (server j).status = true ∧ Buildable http config host (urls j))) →
    let result := executeWithRedirects http overflowChecks config host (answers server i n)
      (urls i) redirects
    i + result.1.length ≤ config.maxRedirects.toNat + 1 ∧ result.2 ≠ .panicked ∧
      CounterFits http overflowChecks config host (answers server i n) (urls i) redirects ∧
      (config.maxRedirects.toNat < i + n → result.2 ≠ .pending)
  | 0, i, redirects, hi, hle, _, _ => by
    by_cases hb : Buildable http config host (urls i)
    · rw [answers, List.range'_zero, List.map_nil, executeWithRedirects_nil hb]
      exact ⟨Nat.add_le_add_right hle 1, fun h => (nomatch h), trivial, fun hlt => by omega⟩
    · obtain ⟨e, he⟩ := executeWithRedirects_of_not_buildable hb
      rw [he]
      exact ⟨Nat.le_succ_of_le hle, fun h => (nomatch h), trivial, fun _ h => (nomatch h)⟩
  | n + 1, i, redirects, hi, hle, hlead, hsafe => by
    by_cases hb : Buildable http config host (urls i)
    swap
    · obtain ⟨e, he⟩ := executeWithRedirects_of_not_buildable hb
      rw [he, answers_succ]
      exact ⟨Nat.le_succ_of_le hle, fun h => (nomatch h), fun h => absurd h hb,
        fun _ h => (nomatch h)⟩
    rw [answers_succ, executeWithRedirects_response hb]
    unfold CounterFits
    cases hstatus : isRedirectStatus (server i).status with
    | false =>
      obtain ⟨result, hstop⟩ := onResponse_other hstatus (h.complete i)
      rw [hstop]
      exact ⟨Nat.add_le_add_right hle 1, fun h => (nomatch h), fun _ h => (nomatch h),
        fun _ h => (nomatch h)⟩
    | true =>
      have hlead' : ∀ j ≤ i, isRedirectStatus (server j).status = true := fun j hj =>
        (Nat.lt_or_eq_of_le hj).elim (hlead j) fun heq => heq ▸ hstatus
      obtain ⟨hto, hhost⟩ := h.redirect i hlead'
      -- the counter is below its top
      have hlt : i < 255 := by
        rcases hsafe with hM | hshort | ⟨j, hij, hj, hstop⟩
        · exact Nat.lt_succ_of_le (hle.trans (UInt8.le_iff_toNat_le.1 hM))
        · omega
        · have hne : j ≠ i := fun heq => hstop (heq ▸ ⟨hstatus, hb⟩)
          omega
      have hfits : redirects ≠ 255 := fun heq => by
        rw [heq] at hi
        exact absurd hi (by change ¬255 = i; omega)
      have hsucc : (redirects + 1).toNat = i + 1 := by rw [toNat_succ hfits, hi]
      rw [onResponse_redirect hto hfits, hhost]
      by_cases hexceeds : redirects + 1 > config.maxRedirects
      · rw [if_pos hexceeds]
        exact ⟨Nat.add_le_add_right hle 1, fun h => (nomatch h), fun _ _ => ⟨hfits, trivial⟩,
          fun _ h => (nomatch h)⟩
      · rw [if_neg hexceeds, if_pos rfl]
        have hle' : i + 1 ≤ config.maxRedirects.toNat := by
          rw [← hsucc]
          exact UInt8.le_iff_toNat_le.1 (UInt8.not_lt.1 hexceeds)
        have hsafe' : config.maxRedirects ≤ 254 ∨ i + 1 + n < 256 ∨ ∃ j, i + 1 ≤ j ∧ j < 256 ∧
            ¬(isRedirectStatus (server j).status = true ∧ Buildable http config host (urls j)) := by
          rcases hsafe with hM | hshort | ⟨j, hij, hj, hstop⟩
          · exact Or.inl hM
          · exact Or.inr (Or.inl (by omega))
          · have hne : j ≠ i := fun heq => hstop (heq ▸ ⟨hstatus, hb⟩)
            exact Or.inr (Or.inr ⟨j, by omega, hj, hstop⟩)
        obtain ⟨hlen, hpanics, hcounter, hends⟩ := executeWithRedirects_bounded h n (i + 1)
          (redirects + 1) hsucc hle' (fun j hj => hlead' j (Nat.le_of_lt_succ hj)) hsafe'
        refine ⟨?_, hpanics, fun _ _ => ⟨hfits, hcounter⟩, fun hM => hends (by omega)⟩
        rw [List.length_cons]
        omega

/-- The loop from its `i`-th request on, if nothing ends it before the counter is at its
top. -/
theorem not_counterFits {server : ℕ → HttpResponse} {urls : ℕ → Uri}
    (h : SameHost http host server urls) (hmax : config.maxRedirects = 255)
    (hredirects : ∀ j < 256, isRedirectStatus (server j).status = true ∧
      Buildable http config host (urls j)) : ∀ (n i : ℕ) (redirects : UInt8),
    redirects.toNat = i → 256 ≤ i + n →
    ¬CounterFits http overflowChecks config host (answers server i n) (urls i) redirects
  | 0, i, redirects, hi, hn => by
    have hlt := redirects.toNat_lt
    omega
  | n + 1, i, redirects, hi, hn => by
    have hlt : i < 256 := hi ▸ redirects.toNat_lt
    obtain ⟨hstatus, hb⟩ := hredirects i hlt
    rw [answers_succ]
    unfold CounterFits
    intro hfits
    obtain ⟨hne, hrest⟩ := hfits hb hstatus
    obtain ⟨hto, hhost⟩ := h.redirect i fun j hj => (hredirects j (by omega)).1
    have hsucc : (redirects + 1).toNat = i + 1 := by rw [toNat_succ hne, hi]
    have hnot : ¬redirects + 1 > config.maxRedirects := by
      have hlt' := (redirects + 1).toNat_lt
      rw [hmax, gt_iff_lt, UInt8.lt_iff_toNat_lt, hsucc]
      change ¬255 < i + 1
      omega
    rw [onResponse_redirect hto hne, hhost, if_neg hnot, if_pos rfl] at hrest
    exact not_counterFits h hmax hredirects n (i + 1) (redirects + 1) hsucc (by omega) hrest

/-- The loop ends within its bound unless its limit is 255 and 256 redirects come first. -/
theorem redirect_loop_iff {server : ℕ → HttpResponse} {urls : ℕ → Uri}
    (h : SameHost http host server urls) (n : ℕ) :
    LoopBounded http overflowChecks config host (urls 0) (answers server 0 n) ↔
      (config.maxRedirects ≤ 254 ∨ n < 256 ∨ ∃ i < 256,
        ¬(isRedirectStatus (server i).status = true ∧ Buildable http config host (urls i))) := by
  constructor
  · intro hbounded
    by_contra hcon
    push Not at hcon
    obtain ⟨hmax, hn, hall⟩ := hcon
    have h255 : config.maxRedirects = 255 := by
      have hlt := config.maxRedirects.toNat_lt
      have hgt : ¬config.maxRedirects.toNat ≤ 254 := fun h => hmax (UInt8.le_iff_toNat_le.2 h)
      exact UInt8.toNat_inj.1 (show config.maxRedirects.toNat = 255 by omega)
    exact not_counterFits h h255 hall n 0 0 rfl (by omega) hbounded.counter
  · intro hsafe
    have hsafe' : config.maxRedirects ≤ 254 ∨ 0 + n < 256 ∨ ∃ j, 0 ≤ j ∧ j < 256 ∧
        ¬(isRedirectStatus (server j).status = true ∧ Buildable http config host (urls j)) :=
      hsafe.imp_right (Or.imp (by omega) fun ⟨j, hj, hstop⟩ => ⟨j, Nat.zero_le j, hj, hstop⟩)
    obtain ⟨hlen, hpanics, hcounter, hends⟩ := executeWithRedirects_bounded h n 0 0 rfl
      (Nat.zero_le _) (fun _ hj => absurd hj (Nat.not_lt_zero _)) hsafe'
    refine ⟨by omega, hcounter, hpanics, fun hlt => hends ?_⟩
    rw [answers, List.length_map, List.length_range'] at hlt
    omega

/-- The only URL of a server that redirects to itself. -/
def selfUrl : Uri :=
  ⟨some "http", some ⟨"h", none⟩, some "/"⟩

/-- A server that redirects to itself for ever. -/
def selfRedirect (_ : ℕ) : HttpResponse :=
  ⟨302, [("location", "http://h/".toList.map fun c => UInt8.ofNat c.toNat)], .bytes []⟩

theorem sameHost_selfRedirect :
    SameHost (Http.ofTable [("http://h/", selfUrl)]) "h" selfRedirect fun _ => selfUrl where
  complete _ := fun h => (nomatch h)
  redirect _ _ := ⟨⟨rfl, fun h => (nomatch h), _, "http://h/", rfl, by decide, by rfl⟩, by decide⟩

theorem redirect_loop_selfRedirect : LoopBounded (Http.ofTable [("http://h/", selfUrl)]) true
    ⟨"imgdl/0.1", 5⟩ "h" selfUrl (answers selfRedirect 0 300) :=
  (redirect_loop_iff sameHost_selfRedirect 300).2 (Or.inl (by decide))

/-- With the limit 255 the counter overflows, with and without overflow checks. -/
theorem redirect_loop_overflow :
    ¬LoopBounded (Http.ofTable [("http://h/", selfUrl)]) true ⟨"imgdl/0.1", 255⟩ "h" selfUrl
      (answers selfRedirect 0 256) ∧
    ¬LoopBounded (Http.ofTable [("http://h/", selfUrl)]) false ⟨"imgdl/0.1", 255⟩ "h" selfUrl
      (answers selfRedirect 0 256) := by
  have overflows : ∀ overflowChecks, ¬LoopBounded (Http.ofTable [("http://h/", selfUrl)])
      overflowChecks ⟨"imgdl/0.1", 255⟩ "h" selfUrl (answers selfRedirect 0 256) :=
    fun _ h => not_counterFits sameHost_selfRedirect rfl (fun _ _ => ⟨rfl, rfl⟩) 256 0 0 rfl
      (Nat.le_refl 256) h.counter
  exact ⟨overflows true, overflows false⟩

end Imgdl
