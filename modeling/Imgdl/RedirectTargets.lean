import Imgdl.References
import Imgdl.Transport

/-!
# Redirect targets

`resolve_redirect` parses a `Location` as a URI, and takes it as it is if it has a scheme. Any
other one becomes the path and query of the current URL. That is the target of a reference
which is a path from the root, and of no other one without a scheme : a reference with an
authority keeps the current host, and a relative path is not put in the directory of the
current one (`resolveRedirect_iff`).
-/

namespace Imgdl

open References

/-- The components of a URI. -/
def Uri.parts (u : Uri) : UriParts Authority where
  scheme := u.scheme.map fun s => s.toList.map Char.toLower
  authority := u.authority
  path := pathOf (u.pathAndQuery.getD "").toList
  query := queryOf (u.pathAndQuery.getD "").toList

/-- What `resolve_redirect` relies on in the `http` crate. `authorityOf` is its parser of
authorities. -/
structure HttpCrate (http : Http) (authorityOf : List Char → Authority) : Prop where
  /-- A scheme is recognised before `://` only. -/
  scheme : ∀ s u, http.parseUri s = .ok u → u.scheme.isSome → ∃ scheme rest,
    s.toList = scheme ++ ':' :: '/' :: '/' :: rest ∧ ∀ c ∈ scheme, c ∉ [':', '/', '?', '#']
  /-- A URI with a scheme and an authority is parsed into its components. -/
  absolute : ∀ (r : Reference) scheme authority u, r.Valid → r.scheme = some scheme →
    r.authority = some authority → http.parseUri (String.ofList r.text) = .ok u →
    u.parts = ⟨some (scheme.map Char.toLower), some (authorityOf authority), orRoot r.path,
      r.query⟩
  /-- A path and query is taken as it is, without a fragment. -/
  pathAndQuery : ∀ s pq, http.parsePathAndQuery s = .ok pq →
    pathOf pq.toList = pathOf (withoutFragment s.toList) ∧
      queryOf pq.toList = queryOf (withoutFragment s.toList)
  /-- `Uri::from_parts` assembles the parts it is given. -/
  fromParts : ∀ u, u.scheme.isSome → u.authority.isSome → u.pathAndQuery.isSome →
    http.fromParts u = .ok u

/-- An absolute URL. -/
structure Uri.IsAbsolute (u : Uri) : Prop where
  scheme : u.scheme.isSome
  authority : u.authority.isSome
  path : ∃ path, u.parts.path = '/' :: path

/-- The references that `resolve_redirect` resolves as the standard does, or rejects. -/
def Resolvable (http : Http) (base : Uri) (r : Reference) : Prop :=
  (r.scheme.isSome ∧ r.authority.isSome ∧ ∃ u, http.parseUri (String.ofList r.text) = .ok u) ∨
  r.ReplacesPath base.parts ∨
  ∃ e, http.parsePathAndQuery (String.ofList r.text) = .error e

variable {http : Http} {authorityOf : List Char → Authority} {base : Uri} {r : Reference}

/-- A `Location` that is not parsed to a URI with a scheme. -/
theorem resolveRedirect_relative {location : String}
    (h : ∀ u, http.parseUri location = .ok u → u.scheme.isSome = false) :
    resolveRedirect http base location =
      match http.parsePathAndQuery location with
      | .error e => .error (.connectionFailed s!"invalid redirect location '{location}': {e}")
      | .ok newPq =>
        match http.fromParts { base with pathAndQuery := some newPq } with
        | .error e => .error (.connectionFailed s!"failed to construct redirect URI: {e}")
        | .ok uri => .ok uri := by
  unfold resolveRedirect
  cases hparse : http.parseUri location with
  | error e => rfl
  | ok u =>
    simp only [h u hparse]
    rfl

/-- The current URL with the path and query of the text. -/
theorem resolveRedirect_path (hhttp : HttpCrate http authorityOf) (hbase : base.IsAbsolute)
    (hr : r.Valid) (h : ∀ u, http.parseUri (String.ofList r.text) = .ok u →
      u.scheme.isSome = false) {pq : String}
    (hpq : http.parsePathAndQuery (String.ofList r.text) = .ok pq) :
    ∃ uri, resolveRedirect http base (String.ofList r.text) = .ok uri ∧
      uri.parts = ⟨base.parts.scheme, base.authority, orRoot r.hierText, r.query⟩ := by
  obtain ⟨hpath, hquery⟩ := hhttp.pathAndQuery _ _ hpq
  rw [String.toList_ofList] at hpath hquery
  rw [Reference.pathOf_text hr] at hpath
  rw [Reference.queryOf_text hr] at hquery
  have hparts := hhttp.fromParts { base with pathAndQuery := some pq } hbase.scheme
    hbase.authority rfl
  refine ⟨{ base with pathAndQuery := some pq }, ?_, ?_⟩
  · rw [resolveRedirect_relative h, hpq]
    simp only [hparts]
  · rw [← hpath, ← hquery]
    rfl

/-- A reference without a scheme or without an authority is not parsed to a URI with a scheme. -/
theorem HttpCrate.no_scheme (hhttp : HttpCrate http authorityOf) (hr : r.Valid)
    (h : ¬(r.scheme.isSome ∧ r.authority.isSome)) :
    ∀ u, http.parseUri (String.ofList r.text) = .ok u → u.scheme.isSome = false := by
  intro u hu
  by_contra hscheme
  obtain ⟨scheme, rest, htext, hchars⟩ :=
    hhttp.scheme _ u hu (Bool.of_not_eq_false hscheme)
  rw [String.toList_ofList] at htext
  refine hr.text_ne ?_ hchars htext
  rw [not_and_or] at h
  simpa using h

/-- An absolute reference that parses is taken as it is. -/
theorem resolveRedirect_absolute (hhttp : HttpCrate http authorityOf) (base : Uri) (hr : r.Valid)
    (hs : r.scheme.isSome) (ha : r.authority.isSome) {u : Uri}
    (hu : http.parseUri (String.ofList r.text) = .ok u) :
    resolveRedirect http base (String.ofList r.text) = .ok u ∧
      u.parts = r.target authorityOf base.parts := by
  obtain ⟨scheme, hs⟩ := Option.isSome_iff_exists.1 hs
  obtain ⟨authority, ha⟩ := Option.isSome_iff_exists.1 ha
  have hparts := hhttp.absolute r scheme authority u hr hs ha hu
  have hscheme : u.scheme.isSome := by
    have := congrArg UriParts.scheme hparts
    cases hus : u.scheme with
    | some s => rfl
    | none => simp [Uri.parts, hus] at this
  refine ⟨by simp [resolveRedirect, hu, hscheme], ?_⟩
  have hdots := removeDotSegments_eq_self hr.noDots.1 hr.noDots.2
  rw [hparts]
  simp only [Reference.target, hs, ha, hdots]

/-- What `resolve_redirect` answers is the target of the reference exactly if the reference is
absolute or a path from the root, apart from the empty path at the root. -/
theorem resolveRedirect_iff (hhttp : HttpCrate http authorityOf) (hbase : base.IsAbsolute)
    (hr : r.Valid) :
    (∀ uri, resolveRedirect http base (String.ofList r.text) = .ok uri →
      uri.parts = r.target authorityOf base.parts) ↔ Resolvable http base r := by
  have htarget := hr.target_iff authorityOf base.parts hbase.authority hbase.path
  by_cases habs : r.scheme.isSome ∧ r.authority.isSome ∧
      ∃ u, http.parseUri (String.ofList r.text) = .ok u
  · obtain ⟨hs, ha, u, hu⟩ := habs
    obtain ⟨hresolve, hparts⟩ := resolveRedirect_absolute hhttp base hr hs ha hu
    refine iff_of_true (fun uri huri => ?_) (Or.inl ⟨hs, ha, u, hu⟩)
    rw [hresolve] at huri
    rwa [← Except.ok.inj huri]
  · have hnone : ∀ u, http.parseUri (String.ofList r.text) = .ok u → u.scheme.isSome = false := by
      intro u hu
      exact hhttp.no_scheme hr (fun h => habs ⟨h.1, h.2, u, hu⟩) u hu
    cases hpq : http.parsePathAndQuery (String.ofList r.text) with
    | error e =>
      refine iff_of_true (fun uri huri => ?_) (Or.inr (Or.inr ⟨e, hpq⟩))
      rw [resolveRedirect_relative hnone, hpq] at huri
      cases huri
    | ok pq =>
      obtain ⟨uri, hresolve, hparts⟩ := resolveRedirect_path hhttp hbase hr hnone hpq
      constructor
      · intro h
        have hsame := h uri hresolve
        rw [hparts] at hsame
        exact Or.inr (Or.inl (htarget.1 hsame))
      · rintro (h | h | ⟨e, he⟩) uri' huri'
        · exact absurd h habs
        · rw [hresolve] at huri'
          rw [← Except.ok.inj huri', hparts]
          exact htarget.2 h
        · rw [hpq] at he
          cases he

/-! ## Two locations -/

/-- `http://a/x.png`. -/
def pageUrl : Uri := ⟨some "http", some ⟨"a", none⟩, some "/x.png"⟩

/-- `/b.png`. -/
def rootedPath : Reference := ⟨none, none, "/b.png".toList, none, none⟩

/-- `//b/y.png`. -/
def networkPath : Reference := ⟨none, some "b".toList, "/y.png".toList, none, none⟩

/-- The parsers at the two locations. -/
def rootedHttp : Http :=
  { Http.ofTable [("/b.png", ⟨none, none, some "/b.png"⟩),
      ("//b/y.png", ⟨none, none, some "//b/y.png"⟩)] with
    parsePathAndQuery s := .ok (String.ofList (withoutFragment s.toList)) }

theorem rootedHttp_parseUri {s : String} {u : Uri} (h : rootedHttp.parseUri s = .ok u) :
    u.scheme = none ∧ ':' ∉ s.toList := by
  simp only [rootedHttp, Http.ofTable, List.find?_cons] at h
  by_cases hb : "/b.png" = s
  · subst hb
    cases h
    exact ⟨rfl, by decide⟩
  · by_cases hy : "//b/y.png" = s
    · subst hy
      cases h
      exact ⟨rfl, by decide⟩
    · simp [hb, hy] at h

theorem rootedHttp_crate : HttpCrate rootedHttp fun a => ⟨String.ofList a, none⟩ where
  scheme s u h hs := by
    rw [(rootedHttp_parseUri h).1] at hs
    cases hs
  absolute r scheme authority u _ hs _ h := by
    have hcolon : ':' ∈ r.text := by simp [Reference.text, Reference.hierText, hs]
    exact absurd ((String.toList_ofList).symm ▸ hcolon) (rootedHttp_parseUri h).2
  pathAndQuery s pq h := by
    obtain rfl := Except.ok.inj h
    rw [String.toList_ofList]
    exact ⟨rfl, rfl⟩
  fromParts _ _ _ _ := rfl

theorem pageUrl_isAbsolute : pageUrl.IsAbsolute :=
  ⟨rfl, rfl, "x.png".toList, by decide⟩

theorem rootedPath_valid : rootedPath.Valid where
  scheme _ h := nomatch h
  authority _ h := nomatch h
  path := forall_mem_of_all rfl
  query _ h := nomatch h
  rooted h := nomatch h
  oneSlash _ path h := absurd (List.cons.inj (List.cons.inj h).2).1 (by decide)
  noColon _ _ := by decide
  noDots := by decide

theorem networkPath_valid : networkPath.Valid where
  scheme _ h := nomatch h
  authority a h := by
    obtain rfl := Option.some.inj h
    exact forall_mem_of_all rfl
  path := forall_mem_of_all rfl
  query _ h := nomatch h
  rooted _ := Or.inr ⟨"y.png".toList, by decide⟩
  oneSlash h := nomatch h
  noColon _ h := nomatch h
  noDots := by decide

theorem resolveRedirect_rooted :
    resolveRedirect rootedHttp pageUrl (String.ofList rootedPath.text) =
      .ok { pageUrl with pathAndQuery := some "/b.png" } ∧
    Uri.parts { pageUrl with pathAndQuery := some "/b.png" } =
      rootedPath.target (fun a => ⟨String.ofList a, none⟩) pageUrl.parts := by
  have hresolve : resolveRedirect rootedHttp pageUrl (String.ofList rootedPath.text) =
      .ok { pageUrl with pathAndQuery := some "/b.png" } := by rfl
  have hrooted : Resolvable rootedHttp pageUrl rootedPath :=
    Or.inr (Or.inl ⟨rfl, rfl, Or.inl ⟨"b.png".toList, by decide⟩⟩)
  exact ⟨hresolve, (resolveRedirect_iff rootedHttp_crate pageUrl_isAbsolute rootedPath_valid).2
    hrooted _ hresolve⟩

/-- Redirected to `//b/y.png`, a download asks the host `a` again. -/
theorem resolveRedirect_networkPath :
    HttpCrate rootedHttp (fun a => ⟨String.ofList a, none⟩) ∧ pageUrl.IsAbsolute ∧
      networkPath.Valid ∧ ¬ ∀ uri,
        resolveRedirect rootedHttp pageUrl (String.ofList networkPath.text) = .ok uri →
          uri.parts = networkPath.target (fun a => ⟨String.ofList a, none⟩) pageUrl.parts := by
  refine ⟨rootedHttp_crate, pageUrl_isAbsolute, networkPath_valid, fun h => ?_⟩
  have hresolve : resolveRedirect rootedHttp pageUrl (String.ofList networkPath.text) =
      .ok { pageUrl with pathAndQuery := some "//b/y.png" } := by rfl
  have hhost := congrArg UriParts.authority (h _ hresolve)
  exact absurd hhost (by decide)

end Imgdl
