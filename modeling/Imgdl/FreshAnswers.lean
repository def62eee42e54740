import Imgdl.Dns

/-!
# The age of cached answers

A `DnsLog` is what an observer of a run keeps : the lookup that the current call of an index has
performed, and the lookup results stored so far with the instants they were stored. The cache of
a run holds, for each host, the last result stored for it (`Logged.cache`), so a call answers
with its own lookup or with a result that is still fresh (`resolve_fresh`).
-/

set_option linter.unusedSectionVars false

namespace Imgdl

open Transition Interleaving

variable {ι : Type*} [DecidableEq ι]

namespace Dns

/-- How long a lookup result lives. -/
def lifetime (ttl : Duration) : Lookup → Duration
  | .ok _ => ttl
  | .error _ => Duration.fromSecs 30

/-- The result of a lookup of a host, and the instant it was stored. -/
structure Stored where
  host : String
  result : Lookup
  time : ℕ

/-- A result is younger than its lifetime. -/
def Stored.Fresh (ttl : Duration) (st : Stored) (now : ℕ) : Prop :=
  now < st.time + lifetime ttl st.result

/-- The entry of a stored result. -/
def Stored.entry (ttl : Duration) (st : Stored) : CacheEntry :=
  ⟨st.result, st.time + lifetime ttl st.result⟩

/-- What the current call of an index looked up, and the results stored so far, the last one
first. -/
structure DnsLog (ι : Type*) where
  looked : ι → Option (String × Lookup)
  stored : List Stored

/-- Nothing looked up and nothing stored. -/
def DnsLog.new : DnsLog ι :=
  ⟨fun _ => none, []⟩

/-- The last result stored for a host. -/
def DnsLog.held (log : DnsLog ι) (host : String) : Option Stored :=
  log.stored.find? fun st => st.host = host

/-- The log after a step. A call that starts has looked up nothing. -/
def note (s : State ι) (e : ι × DnsEvent) (log : DnsLog ι) : DnsLog ι :=
  match e.2 with
  | .resolve _ _ => { log with looked := Function.update log.looked e.1 none }
  | .lookup r => match s.locals e.1 with
    | .lookup host _ => { log with looked := Function.update log.looked e.1 (some (host, r)) }
    | _ => log
  | .store now => match log.looked e.1 with
    | some (host, r) => { log with stored := ⟨host, r, now⟩ :: log.stored }
    | none => log
  | .check _ | .cancel => log

/-- The log of a run from an empty cache. -/
def logOf (ttl : Duration) (es : List (ι × DnsEvent)) : DnsLog ι :=
  record step note (init ttl) es .new

/-- The log tells what a state holds. -/
structure Logged (ttl : Duration) (log : DnsLog ι) (s : State ι) : Prop where
  ttl_eq : s.shared.dns.ttl = ttl
  negativeTtl_eq : s.shared.dns.negativeTtl = Duration.fromSecs 30
  cache : ∀ host, s.shared.dns.cache host = (log.held host).map (Stored.entry ttl)
  past : ∀ st ∈ log.stored, st.time ≤ s.shared.now
  looked : ∀ i host port r, s.locals i = .store host port r → log.looked i = some (host, r)

theorem logged_init (ttl : Duration) : Logged ttl .new (init ttl : State ι) :=
  ⟨rfl, rfl, fun _ => rfl, fun _ h => (nomatch h), fun _ _ _ _ h => (nomatch h)⟩

theorem held_cons (log : DnsLog ι) (st : Stored) (host : String) :
    ({ log with stored := st :: log.stored } : DnsLog ι).held host =
      if st.host = host then some st else log.held host := by
  unfold DnsLog.held
  rw [List.find?_cons]
  by_cases h : st.host = host <;> simp [h]

variable {ttl : Duration} {log : DnsLog ι} {s s' : State ι} {i : ι}

/-- The clock never goes back. -/
theorem now_le_of_resolveStep {d d' : DnsState} {c c' : Call} {e : DnsEvent}
    (h : resolveStep d c e = some (d', c')) : d.now ≤ d'.now := by
  unfold resolveStep at h
  repeat' split at h
  all_goals cases h
  all_goals first | exact le_refl _ | assumption

namespace Logged

variable {c : Call} {looked : Option (String × Lookup)}

/-- What a call about to store has looked up, after a step of the call at `i`. -/
theorem looked_step (h : Logged ttl log s) (hloc : s'.locals = Function.update s.locals i c)
    (hc : ∀ host port r, c = .store host port r → looked = some (host, r)) (j : ι) (host : String)
    (port : UInt16) (r : Lookup) (hj : s'.locals j = .store host port r) :
    Function.update log.looked i looked j = some (host, r) := by
  rw [hloc] at hj
  rcases eq_or_ne j i with rfl | hji
  · rw [Function.update_self] at hj ⊢
    exact hc host port r hj
  · rw [Function.update_of_ne hji] at hj ⊢
    exact h.looked j host port r hj

/-- The same where the call is not about to store. -/
theorem looked_keep (h : Logged ttl log s) (hloc : s'.locals = Function.update s.locals i c)
    (hc : ∀ host port r, c ≠ .store host port r) (j : ι) (host : String) (port : UInt16)
    (r : Lookup) (hj : s'.locals j = .store host port r) : log.looked j = some (host, r) := by
  have hstep : Function.update log.looked i (log.looked i) j = some (host, r) :=
    h.looked_step hloc (fun host port r he => absurd he (hc host port r)) j host port r hj
  rwa [Function.update_eq_self] at hstep

/-- A step that stores nothing, of a call that is not about to store. -/
theorem keep (h : Logged ttl log s) (hdns : s'.shared.dns = s.shared.dns)
    (hnow : s.shared.now ≤ s'.shared.now) (hloc : s'.locals = Function.update s.locals i c)
    (hc : ∀ host port r, c ≠ .store host port r) : Logged ttl log s' :=
  ⟨hdns ▸ h.ttl_eq, hdns ▸ h.negativeTtl_eq, hdns ▸ h.cache,
    fun st hst => (h.past st hst).trans hnow, h.looked_keep hloc hc⟩

/-- A step that changes what the call at `i` has looked up. -/
theorem look (h : Logged ttl log s) (hdns : s'.shared.dns = s.shared.dns)
    (hnow : s.shared.now ≤ s'.shared.now) (hloc : s'.locals = Function.update s.locals i c)
    (hc : ∀ host port r, c = .store host port r → looked = some (host, r)) :
    Logged ttl { log with looked := Function.update log.looked i looked } s' :=
  ⟨hdns ▸ h.ttl_eq, hdns ▸ h.negativeTtl_eq, hdns ▸ h.cache,
    fun st hst => (h.past st hst).trans hnow, h.looked_step hloc hc⟩

/-- A stored result is the last one of its host. -/
theorem store (h : Logged ttl log s) {host : String} {r : Lookup} {now : ℕ}
    (hdns : s'.shared.dns = s.shared.dns.store host r now) (hnow : s'.shared.now = now)
    (hle : s.shared.now ≤ s'.shared.now) (hloc : s'.locals = Function.update s.locals i c)
    (hc : ∀ host port r, c ≠ .store host port r) :
    Logged ttl { log with stored := ⟨host, r, now⟩ :: log.stored } s' := by
  refine ⟨hdns ▸ h.ttl_eq, hdns ▸ h.negativeTtl_eq, fun host' => ?_, fun st hst => ?_,
    h.looked_keep hloc hc⟩
  · have hentry : (s.shared.dns.store host r now).cache = Function.update s.shared.dns.cache host
        (some (Stored.entry ttl ⟨host, r, now⟩)) := by
      cases r <;> simp [DnsCache.store, Stored.entry, lifetime, h.ttl_eq, h.negativeTtl_eq]
    rw [hdns, hentry, held_cons]
    rcases eq_or_ne host host' with rfl | hne
    · simp
    · simp [hne, hne.symm, h.cache host']
  · rcases List.mem_cons.1 hst with rfl | hst
    · exact hnow.ge
    · exact (h.past st hst).trans hle

theorem step {e : ι × DnsEvent} (h : Logged ttl log s) (hs : step s e = some s') :
    Logged ttl (note s e log) s' := by
  obtain ⟨i, e⟩ := e
  obtain ⟨c, hp, hloc⟩ := Par.step_eq_some.1 hs
  have hnow := now_le_of_resolveStep hp
  rcases resolveStep_cases hp with ⟨host, port, rfl, rfl, hd⟩ |
    ⟨host, port, now, r, -, rfl, -, hd, rfl⟩ | ⟨host, port, now, -, rfl, -, hd, rfl⟩ |
    ⟨host, port, r, hl, rfl, hd, rfl⟩ | ⟨host, port, r, now, hl, rfl, hd, rfl⟩ | ⟨rfl, hd, rfl⟩
  case inl => exact h.look (by rw [hd]) hnow hloc (by simp)
  case inr.inr.inr.inl =>
    rw [note]
    simp only [hl]
    refine h.look (by rw [hd]) hnow hloc fun host' port' r' he => ?_
    obtain ⟨rfl, -, rfl⟩ := Call.store.inj he
    rfl
  case inr.inr.inr.inr.inl =>
    rw [note]
    simp only [h.looked i host port r hl]
    exact h.store (by rw [hd]) (by rw [hd]) hnow hloc (by simp)
  all_goals exact h.keep (by rw [hd]) hnow hloc (by simp)

end Logged

/-- The log of a run tells what it has stored. -/
theorem logged_of_run {es : List (ι × DnsEvent)} (hr : run step (init ttl) es = some s) :
    Logged ttl (logOf ttl es) s :=
  run_record (fun _ _ _ _ h hs => h.step hs) (logged_init ttl) hr

/-- The check of a logged state. -/
theorem Logged.check_eq_some (h : Logged ttl log s) {host : String} {now : ℕ} {r : Lookup} :
    s.shared.dns.check host now = some r ↔
      ∃ st, log.held host = some st ∧ st.Fresh ttl now ∧ st.result = r := by
  rw [DnsCache.check_eq_some, h.cache host]
  constructor
  · rintro ⟨en, hen, hnow, hres⟩
    obtain ⟨st, hst, rfl⟩ := Option.map_eq_some_iff.1 hen
    exact ⟨st, hst, hnow, hres⟩
  · rintro ⟨st, hst, hnow, hres⟩
    exact ⟨st.entry ttl, by rw [hst, Option.map_some], hnow, hres⟩

/-- Where the answer of the call `i` comes from at the step `e` : its own lookup, or a result that
a lookup of the same host gave earlier and that is still fresh. -/
inductive Answered (ttl : Duration) (log : DnsLog ι) (i : ι) (host : String) :
    DnsEvent → Except DownloadError (List SocketAddr) → Prop where
  | own {now : ℕ} {r : Lookup} : log.looked i = some (host, r) →
    Answered ttl log i host (.store now) (DnsCache.answer r)
  | cached {now : ℕ} {st : Stored} : st ∈ log.stored → st.host = host → st.time ≤ now →
    st.Fresh ttl now → Answered ttl log i host (.check now) (DnsCache.answer st.result)

theorem held_eq_some {host : String} {st : Stored} (h : log.held host = some st) :
    st ∈ log.stored ∧ st.host = host := by
  unfold DnsLog.held at h
  exact ⟨List.mem_of_find?_eq_some h, by simpa using List.find?_some h⟩

section Step

variable {c : Call} {e : DnsEvent}

/-- A call that answers has looked its host up, or found a fresh result of it. -/
theorem Logged.answered (h : Logged ttl log s)
    (hp : resolveStep s.shared (s.locals i) e = some (s'.shared, c)) {host : String}
    {port : UInt16} {result : Except DownloadError (List SocketAddr)}
    (hc : c = .done host port result) : Answered ttl log i host e result := by
  have hnow := now_le_of_resolveStep hp
  subst hc
  rcases resolveStep_cases hp with ⟨_, _, -, hc, -⟩ | ⟨_, _, now, r, -, rfl, hhit, hd, hc⟩ |
    ⟨_, _, _, -, -, -, -, hc⟩ | ⟨_, _, _, -, -, -, hc⟩ | ⟨_, _, r, _, hl, rfl, -, hc⟩ | ⟨-, -, hc⟩
  case inr.inl =>
    obtain ⟨rfl, rfl, rfl⟩ := Call.done.inj hc
    obtain ⟨st, hheld, hfresh, rfl⟩ := h.check_eq_some.1 hhit
    obtain ⟨hmem, hhost⟩ := held_eq_some hheld
    rw [hd] at hnow
    exact .cached hmem hhost ((h.past st hmem).trans hnow) hfresh
  case inr.inr.inr.inr.inl =>
    obtain ⟨rfl, rfl, rfl⟩ := Call.done.inj hc
    exact .own (h.looked i _ _ _ hl)
  all_goals cases hc

/-- A check leads to a lookup if no fresh result is held. -/
theorem Logged.check_iff (h : Logged ttl log s) {host : String} {port : UInt16} {now : ℕ}
    (hp : resolveStep s.shared (.resolving host port) (.check now) = some (s'.shared, c)) :
    c = .lookup host port ↔ ∀ st, log.held host = some st → ¬st.Fresh ttl now := by
  rcases resolveStep_cases hp with ⟨_, _, he, -⟩ | ⟨_, _, _, r, hl, he, hhit, -, rfl⟩ |
    ⟨_, _, _, hl, he, hmiss, -, rfl⟩ | ⟨_, _, _, hl, -⟩ | ⟨_, _, _, _, hl, -⟩ | ⟨he, -⟩
  case inr.inl =>
    obtain ⟨rfl, rfl⟩ := Call.resolving.inj hl
    obtain rfl := DnsEvent.check.inj he
    obtain ⟨st, hheld, hfresh, -⟩ := h.check_eq_some.1 hhit
    exact iff_of_false (by simp) fun hstale => hstale st hheld hfresh
  case inr.inr.inl =>
    obtain ⟨rfl, rfl⟩ := Call.resolving.inj hl
    obtain rfl := DnsEvent.check.inj he
    refine iff_of_true rfl fun st hheld hfresh => ?_
    have hhit := h.check_eq_some.2 ⟨st, hheld, hfresh, rfl⟩
    cases hmiss.symm.trans hhit
  all_goals first | cases he | cases hl

/-- A lookup follows a check. -/
theorem check_of_lookup {d d' : DnsState} {c' : Call}
    (hp : resolveStep d c e = some (d', c')) {host : String} {port : UInt16}
    (hc : c' = .lookup host port) : c = .resolving host port ∧ ∃ now, e = .check now := by
  subst hc
  rcases resolveStep_cases hp with ⟨_, _, -, hc, -⟩ | ⟨_, _, _, _, -, -, -, -, hc⟩ |
    ⟨_, _, now, hl, he, -, -, hc⟩ | ⟨_, _, _, -, -, -, hc⟩ | ⟨_, _, _, _, -, -, -, hc⟩ | ⟨-, -, hc⟩
  case inr.inr.inl =>
    obtain ⟨rfl, rfl⟩ := Call.lookup.inj hc
    exact ⟨hl, now, he⟩
  all_goals cases hc

end Step

/-- In every run of `resolve` calls from an empty cache, a call answers with the result of its own
lookup or with one stored earlier for the same host string, less than its lifetime ago; and it
looks its host up exactly if the last result stored for the host is not fresh at its check, or
if there is none. -/
theorem resolve_fresh (ttl : Duration) {es : List (ι × DnsEvent)} {s s' : State ι} {i : ι}
    {e : DnsEvent} (hr : run step (init ttl) es = some s) (hs : step s (i, e) = some s') :
    (∀ host port result, s'.locals i = .done host port result →
      Answered ttl (logOf ttl es) i host e result) ∧
    (∀ host, s.shared.dns.cache host = ((logOf ttl es).held host).map (Stored.entry ttl)) ∧
    (∀ host port now, s.locals i = .resolving host port → e = .check now →
      (s'.locals i = .lookup host port ↔
        ∀ st, (logOf ttl es).held host = some st → ¬st.Fresh ttl now)) ∧
    ∀ host port, s'.locals i = .lookup host port →
      s.locals i = .resolving host port ∧ ∃ now, e = .check now := by
  have hlog : Logged ttl (logOf ttl es) s := logged_of_run hr
  obtain ⟨c, hp, hloc⟩ := Par.step_eq_some.1 hs
  have hself : s'.locals i = c := by rw [hloc, Function.update_self]
  rw [hself]
  refine ⟨fun host port result hc => hlog.answered hp hc, hlog.cache,
    fun host port now hl he => ?_, fun host port hc => check_of_lookup hp hc⟩
  subst he
  exact hlog.check_iff (hl ▸ hp)

/-- One call stores a failure, a second one is answered with it, and a third one after 30 seconds
looks the host up again. -/
def failedLookup : List (ℕ × DnsEvent) :=
  [(0, .resolve "h" 80), (0, .check 0), (0, .lookup (.error "no host")), (0, .store 5),
    (1, .resolve "h" 443), (1, .check 30000000004), (2, .resolve "h" 443)]

theorem resolve_fresh_failedLookup : ∃ s s' : State ℕ,
    run step (init (Duration.fromSecs 300)) failedLookup = some s ∧
    step s (2, .check 30000000005) = some s' ∧
    (s'.locals 2 = .lookup "h" 443 ↔
      ∀ st, (logOf (Duration.fromSecs 300) failedLookup).held "h" = some st →
        ¬st.Fresh (Duration.fromSecs 300) 30000000005) := by
  obtain ⟨s, s', hr, hs, hl⟩ : ∃ s s' : State ℕ,
      run step (init (Duration.fromSecs 300)) failedLookup = some s ∧
      step s (2, .check 30000000005) = some s' ∧ s.locals 2 = .resolving "h" 443 :=
    ⟨_, _, rfl, rfl, rfl⟩
  exact ⟨s, s', hr, hs, (resolve_fresh _ hr hs).2.2.1 _ _ _ hl rfl⟩

end Dns

end Imgdl
