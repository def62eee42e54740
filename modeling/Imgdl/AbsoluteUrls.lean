import Imgdl.References

/-!
# Absolute URLs

`scheme://authority[path][?query][#fragment]` by its components, and an authority
`[userinfo@]host[:port]` by its own. The components carry that they are apart in the text, so
the text determines them by its separators : `takeWhile` at `?` and `#` leaves the part up to
the path.
-/

namespace References

open Imgdl

/-- An absolute URL. -/
structure AbsoluteUrl where
  scheme : List Char
  authority : List Char
  path : List Char
  query : Option (List Char)
  fragment : Option (List Char)
  scheme_apart : ∀ c ∈ scheme, c ∉ [':', '/', '?', '#']
  authority_apart : ∀ c ∈ authority, c ∉ ['/', '?', '#']
  path_apart : ∀ c ∈ path, c ∉ ['?', '#']
  query_apart : ∀ q, query = some q → '#' ∉ q
  rooted : path = [] ∨ ∃ rest, path = '/' :: rest

/-- No query contains a `#`. -/
theorem query_apart_none : ∀ q : List Char, none = some q → '#' ∉ q := by
  intro q h
  cases h

/-- An authority. Only an IP literal, in its brackets, is a host with a `:`. -/
structure AuthorityParts where
  userinfo : Option (List Char)
  host : List Char
  port : Option (List Char)
  userinfo_apart : ∀ u, userinfo = some u → '@' ∉ u
  host_apart : '@' ∉ host
  host_literal : ':' ∈ host → ∃ address, host = '[' :: (address ++ [']'])
  port_digits : ∀ p, port = some p → ∀ c ∈ p, c.isDigit

namespace AbsoluteUrl

variable (u : AbsoluteUrl)

/-- The URL as a reference. -/
def toReference : Reference :=
  ⟨some u.scheme, some u.authority, u.path, u.query, u.fragment⟩

/-- The text of the query and the fragment. -/
def tail : List Char :=
  u.toReference.queryText ++ u.toReference.fragmentText

/-- The text of the URL. -/
def text : List Char :=
  u.toReference.text

theorem text_eq : u.text =
    (u.scheme ++ [':']) ++ '/' :: '/' :: (u.authority ++ (u.path ++ u.tail)) := by
  simp [text, Reference.text, Reference.hierText, toReference, tail]

/-- The URL up to its path. -/
theorem hierText_eq : u.toReference.hierText =
    (u.scheme ++ [':', '/']) ++ '/' :: (u.authority ++ u.path) := by
  simp [Reference.hierText, toReference]

theorem tail_cases : u.tail = [] ∨ ∃ c s, u.tail = c :: s ∧ c ∈ ['?', '#'] :=
  u.toReference.tail_cases

/-- There is no tail without a query or a fragment. -/
theorem tail_eq_nil : u.tail = [] ↔ u.query = none ∧ u.fragment = none := by
  unfold tail toReference Reference.queryText Reference.fragmentText
  cases u.query <;> cases u.fragment <;> simp

/-- There is no query and no fragment before the query. -/
theorem hierText_apart : ∀ c ∈ u.toReference.hierText, c ∉ ['?', '#'] := by
  intro c hc
  simp only [hierText_eq, List.mem_append, List.mem_cons, List.not_mem_nil, or_false] at hc
  rcases hc with (hc | rfl | rfl) | rfl | hc | hc
  · exact fun hm => u.scheme_apart c hc (List.mem_cons_of_mem _ (List.mem_cons_of_mem _ hm))
  · decide
  · decide
  · decide
  · exact fun hm => u.authority_apart c hc (List.mem_cons_of_mem _ hm)
  · exact u.path_apart c hc

/-- What precedes the first `?` and then the first `#` is the URL up to its path, whatever the
query and the fragment contain. -/
theorem takeWhile_text : (u.text.takeWhile (· ≠ '?')).takeWhile (· ≠ '#') =
    u.toReference.hierText := by
  have hquery : '?' ∉ u.toReference.hierText := fun hm => u.hierText_apart _ hm (by decide)
  have hfragment : '#' ∉ u.toReference.hierText := fun hm => u.hierText_apart _ hm (by decide)
  unfold text Reference.text Reference.queryText Reference.fragmentText
  cases u.toReference.query with
  | some query =>
    rw [List.append_assoc, List.cons_append, takeWhile_append_cons hquery,
      takeWhile_of_not_mem hfragment]
  | none =>
    rw [List.append_nil]
    cases u.toReference.fragment with
    | none => rw [List.append_nil, takeWhile_of_not_mem hquery, takeWhile_of_not_mem hfragment]
    | some fragment =>
      rw [List.takeWhile_append_of_pos (decide_ne_of_not_mem hquery),
        List.takeWhile_cons_of_pos (by decide), takeWhile_append_cons hfragment]

end AbsoluteUrl

namespace AuthorityParts

variable (a : AuthorityParts)

/-- The text of the user information. -/
def userinfoText : List Char :=
  match a.userinfo with
  | some u => u ++ ['@']
  | none => []

/-- The text of the port. -/
def portText : List Char :=
  match a.port with
  | some p => ':' :: p
  | none => []

/-- The text of the authority. -/
def text : List Char :=
  a.userinfoText ++ a.host ++ a.portText

end AuthorityParts

end References
