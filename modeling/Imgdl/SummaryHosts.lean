import Imgdl.Outcomes
import Imgdl.UrlNames

/-!
# The hosts of the summary

A download takes its host from the parsed URL, the summary from its text : what follows the
first `//` up to the next `/`, and of that what precedes the first `:`. The two are the same
exactly if the host has no `:`, no user information stands before it, and no query or fragment
directly after it (`extractHost_eq_iff`; user information that begins with the host and a `:` is
the exception).
-/

namespace References

open Imgdl

/-- What follows the authority up to the next `/` is nothing, or a query or fragment that
follows it directly. -/
theorem AbsoluteUrl.takeWhile_path (u : AbsoluteUrl) :
    ((u.path ++ u.tail).takeWhile (· ≠ '/') = [] ∧ (u.path ≠ [] ∨ u.tail = [])) ∨
      (u.path = [] ∧ ∃ c s, (u.path ++ u.tail).takeWhile (· ≠ '/') = c :: s ∧ c ∈ ['?', '#']) := by
  rcases u.rooted with hempty | ⟨rest, hpath⟩
  · rw [hempty, List.nil_append]
    rcases u.tail_cases with htail | ⟨c, s, htail, hc⟩
    · exact Or.inl ⟨by rw [htail]; rfl, Or.inr htail⟩
    · have hne : c ≠ '/' := by
        rintro rfl
        exact absurd hc (by decide)
      refine Or.inr ⟨rfl, c, s.takeWhile (· ≠ '/'), ?_, hc⟩
      rw [htail, List.takeWhile_cons_of_pos (by exact decide_eq_true hne)]
  · refine Or.inl ⟨?_, Or.inl (by rw [hpath]; exact List.cons_ne_nil _ _)⟩
    rw [hpath, List.cons_append, List.takeWhile_cons_of_neg (by decide)]

namespace AuthorityParts

variable (a : AuthorityParts)

/-- With user information the first `:` follows the host only if it already follows the host's
text in the user information. -/
theorem takeWhile_userinfo {v : List Char} (h : a.userinfo = some v) (hcolon : ':' ∉ a.host)
    (rest : List Char) :
    (v ++ '@' :: rest).takeWhile (· ≠ ':') = a.host ↔ ∃ w, v = a.host ++ ':' :: w := by
  by_cases hv : ':' ∈ v
  · obtain ⟨name, w, hsplit, hname⟩ := List.eq_append_cons_of_mem hv
    rw [hsplit, List.append_assoc, List.cons_append, takeWhile_append_cons hname]
    constructor
    · rintro rfl
      exact ⟨w, rfl⟩
    · rintro ⟨w', hw⟩
      rw [← takeWhile_append_cons hname w, hw, takeWhile_append_cons hcolon]
  · rw [List.takeWhile_append_of_pos (decide_ne_of_not_mem hv),
      List.takeWhile_cons_of_pos (by decide)]
    constructor
    · intro heq
      exact absurd (heq ▸ List.mem_append_right v List.mem_cons_self) a.host_apart
    · rintro ⟨w, rfl⟩
      exact absurd (List.mem_append_right _ List.mem_cons_self) hv

/-- What precedes the first `:`, in an authority and a query or fragment after it. -/
theorem takeWhile_text {after : List Char}
    (hafter : after = [] ∨ ∃ c s, after = c :: s ∧ c ∈ ['?', '#']) :
    (a.text ++ after).takeWhile (· ≠ ':') = a.host ↔
      ':' ∉ a.host ∧ match a.userinfo with
        | some v => ∃ w, v = a.host ++ ':' :: w
        | none => a.port.isSome ∨ after = [] := by
  have hleft : (a.text ++ after).takeWhile (· ≠ ':') = a.host → ':' ∉ a.host := by
    intro heq hm
    have hne := List.mem_takeWhile_imp (heq ▸ hm)
    exact absurd rfl (of_decide_eq_true hne)
  rw [← and_iff_right_of_imp hleft]
  refine and_congr_right fun hcolon => ?_
  unfold text userinfoText portText
  cases hu : a.userinfo with
  | some v =>
    have hassoc : v ++ ['@'] ++ a.host ++ a.portText ++ after =
        v ++ '@' :: (a.host ++ a.portText ++ after) := by simp
    exact hassoc ▸ a.takeWhile_userinfo hu hcolon _
  | none =>
    cases a.port with
    | some p =>
      rw [List.nil_append, List.append_assoc, List.cons_append, takeWhile_append_cons hcolon]
      simp
    | none =>
      rw [List.nil_append, List.append_nil,
        List.takeWhile_append_of_pos (decide_ne_of_not_mem hcolon)]
      rcases hafter with rfl | ⟨c, s, rfl, hc⟩
      · simp
      · have hne : c ≠ ':' := by
          rintro rfl
          exact absurd hc (by decide)
        rw [List.takeWhile_cons_of_pos (by exact decide_eq_true hne)]
        simp

end AuthorityParts

end References

namespace Imgdl

open References

/-! ## The text of a host -/

theorem splitDoubleSlash_append : ∀ {pre : List Char}, '/' ∉ pre → ∀ rest : List Char,
    splitDoubleSlash (pre ++ '/' :: '/' :: rest) = pre :: splitDoubleSlash rest
  | [], _, rest => by rw [List.nil_append, splitDoubleSlash]
  | c :: pre, h, rest => by
    rw [List.mem_cons, not_or] at h
    rw [List.cons_append, splitDoubleSlash, splitDoubleSlash_append h.2]
    rintro s rfl -
    exact h.1 rfl

/-- The first part has the text before the first `/`. -/
theorem splitDoubleSlash_head (s : List Char) : ∃ part parts, splitDoubleSlash s = part :: parts ∧
    part.takeWhile (· ≠ '/') = s.takeWhile (· ≠ '/') := by
  fun_induction splitDoubleSlash s with
  | case1 s => exact ⟨[], _, rfl, rfl⟩
  | case2 => exact ⟨[], [], rfl, rfl⟩
  | case3 c s _ part parts hs ih =>
    obtain ⟨part', parts', heq, htake⟩ := ih
    obtain ⟨rfl, -⟩ := List.cons.inj (hs.symm.trans heq)
    refine ⟨_, parts, rfl, ?_⟩
    rw [List.takeWhile_cons, List.takeWhile_cons, htake]
  | case4 c s _ hs ih =>
    obtain ⟨part, parts, heq, -⟩ := ih
    exact absurd (hs.symm.trans heq) (List.cons_ne_nil _ _).symm

/-- The host that the summary reads off a URL. -/
theorem extractHost_urlText (u : AbsoluteUrl) : extractHost (urlText u) = String.ofList
    ((u.authority ++ (u.path ++ u.tail).takeWhile (· ≠ '/')).takeWhile (· ≠ ':')) := by
  have hscheme : '/' ∉ u.scheme ++ [':'] := by
    rw [List.mem_append, not_or]
    exact ⟨fun hm => u.scheme_apart _ hm (by decide), by decide⟩
  have hslash : '/' ∉ u.authority := fun hm => u.authority_apart _ hm (by decide)
  obtain ⟨part, parts, hsplit, htake⟩ := splitDoubleSlash_head (u.authority ++ (u.path ++ u.tail))
  have hparts : splitDoubleSlash (urlText u).toList = (u.scheme ++ [':']) :: part :: parts := by
    rw [urlText, String.toList_ofList, u.text_eq, splitDoubleSlash_append hscheme, hsplit]
  rw [List.takeWhile_append_of_pos (decide_ne_of_not_mem hslash)] at htake
  rw [extractHost, hparts, ← htake]
  rfl

/-! ## The host of the download -/

/-- The host has no `:`, and nothing stands before it, or between it and the first `:` or `/`. With
user information that is so only if its own text begins with the host and a `:`. -/
def EndsAtHost (u : AbsoluteUrl) (a : AuthorityParts) : Prop :=
  ':' ∉ a.host ∧ match a.userinfo with
    | some v => ∃ w, v = a.host ++ ':' :: w
    | none => a.port.isSome ∨ u.path ≠ [] ∨ (u.query = none ∧ u.fragment = none)

theorem endsAtHost_iff {u : AbsoluteUrl} {a : AuthorityParts} (h : u.authority = a.text) :
    extractHost (urlText u) = String.ofList a.host ↔ EndsAtHost u a := by
  rw [extractHost_urlText, String.ofList_inj, h]
  rcases u.takeWhile_path with ⟨hnil, hpath⟩ | ⟨hempty, c, s, hcons, hc⟩
  · rw [a.takeWhile_text (Or.inl hnil), hnil, EndsAtHost, ← u.tail_eq_nil]
    cases a.userinfo <;> simp [hpath]
  · have htail : u.tail ≠ [] := by
      intro htail
      rw [hempty, htail] at hcons
      cases hcons
    rw [a.takeWhile_text (Or.inr ⟨c, s, hcons, hc⟩), hcons, EndsAtHost, ← u.tail_eq_nil]
    cases a.userinfo <;> simp [hempty, htail]

/-- The parsed URL of a target. -/
theorem exists_parseUri {http : Http} {config : Config} {url : String} {home : Target}
    (h : parseTarget http config url = .ok home) :
    ∃ uri, http.parseUri url = .ok uri ∧ uri.host = some home.host := by
  unfold parseTarget at h
  split at h
  case h_1 => cases h
  case h_2 uri huri =>
    split at h
    case h_1 => cases h
    case h_2 host hhost =>
      obtain rfl := Except.ok.inj h
      exact ⟨uri, huri, hhost⟩

/-- The summary attributes a URL to the host of its download exactly if the host has no `:` and
its text ends there : at a `:`, at a path, or at the end of the URL. The parser is assumed to
return the host of the authority. -/
theorem extractHost_eq_iff (env : Env) (config : Config) {u : AbsoluteUrl} {a : AuthorityParts}
    {home : Target} (hauthority : u.authority = a.text)
    (hhost : ∀ uri, env.http.parseUri (urlText u) = .ok uri →
      uri.host = some (String.ofList a.host))
    (hparse : parseTarget env.http config (urlText u) = .ok home) :
    extractHost (urlText u) = home.host ↔ EndsAtHost u a := by
  obtain ⟨uri, huri, hhome⟩ := exists_parseUri hparse
  rw [Option.some.inj (hhome.symm.trans (hhost uri huri)), endsAtHost_iff hauthority]

/-- `http://host/a.png`, of a host that may be an IP literal. -/
def plainUrl (host : List Char) (h : ∀ c ∈ host, c ∉ ['/', '?', '#']) : AbsoluteUrl where
  scheme := ['h', 't', 't', 'p']
  authority := host
  path := ['/', 'a', '.', 'p', 'n', 'g']
  query := none
  fragment := none
  scheme_apart := forall_mem_of_all rfl
  authority_apart := h
  path_apart := forall_mem_of_all rfl
  query_apart := query_apart_none
  rooted := Or.inr ⟨_, rfl⟩

/-- `h`. -/
def plainHost : AuthorityParts where
  userinfo := none
  host := ['h']
  port := none
  userinfo_apart _ h := (nomatch h)
  host_apart := by decide
  host_literal h := absurd h (by decide)
  port_digits _ h := (nomatch h)

/-- `[::1]`. -/
def loopback : AuthorityParts where
  userinfo := none
  host := ['[', ':', ':', '1', ']']
  port := none
  userinfo_apart _ h := (nomatch h)
  host_apart := by decide
  host_literal _ := ⟨[':', ':', '1'], rfl⟩
  port_digits _ h := (nomatch h)

/-- An environment that knows `http://h/a.png` and `http://[::1]/a.png`. -/
def literalEnv : Env :=
  Env.ofTable [("http://h/a.png", ⟨some "http", some ⟨"h", none⟩, some "/a.png"⟩),
    ("http://[::1]/a.png", ⟨some "http", some ⟨"[::1]", none⟩, some "/a.png"⟩)]

theorem extractHost_eq_iff_plain : ∃ home : Target,
    parseTarget literalEnv.http {} "http://h/a.png" = .ok home ∧
    extractHost "http://h/a.png" = home.host := by
  refine ⟨_, rfl, ?_⟩
  refine (extractHost_eq_iff literalEnv {} (u := plainUrl ['h'] (forall_mem_of_all rfl))
    (a := plainHost) rfl ?_ rfl).2 ⟨by decide, Or.inr (Or.inl (List.cons_ne_nil _ _))⟩
  rintro uri huri
  obtain rfl := Except.ok.inj huri
  rfl

/-- The download of an IP literal contacts `[::1]`, and the summary counts it under `[`. -/
theorem extractHost_ne_loopback :
    ¬(∀ (env : Env) (config : Config) (u : AbsoluteUrl) (a : AuthorityParts) (home : Target),
      u.authority = a.text →
      (∀ uri, env.http.parseUri (urlText u) = .ok uri →
        uri.host = some (String.ofList a.host)) →
      parseTarget env.http config (urlText u) = .ok home →
      extractHost (urlText u) = home.host) ∧
    extractHost "http://[::1]/a.png" = "[" ∧ extractHost "http://user@h/a.png" = "user@h" ∧
    extractHost "http://h?page=1" = "h?page=1" := by
  refine ⟨fun h => ?_, by decide, by decide, by decide⟩
  have hhost := h literalEnv {} (plainUrl ['[', ':', ':', '1', ']'] (forall_mem_of_all rfl))
    loopback _ rfl ?_ rfl
  · exact absurd hhost (by decide)
  · rintro uri huri
    obtain rfl := Except.ok.inj huri
    rfl

end Imgdl
