import Mathlib.Data.List.Infix
import BackendTemplates.Library.DotSegments
import BackendTemplates.Python.UrlSplit

namespace BackendTemplates.Admin
open Python DotSegments

/-- `DASHBOARD_PATH`. -/
def dashboardPath : List Char := "/admin/".toList

/-- `_safe_next`. `none` is the `ValueError` of `urlsplit`. -/
def safeNext (valid : List Char → Bool) (value : List Char) : Option (List Char) :=
  if value = [] then some dashboardPath
  else do
    let parts ← urlsplit valid value
    if parts.scheme ≠ [] ∨ parts.netloc ≠ [] then some dashboardPath
    else
      let path := parts.path
      if ¬ "/admin".toList <+: path then some dashboardPath
      else if '\\' ∈ path ∨ "/..".toList <:+: path ∨ "/..".toList <:+ path then some dashboardPath
      else some path

/-- The dots of a segment that is nothing but dots, each of them plain or encoded. -/
def dots : List Char → Option Nat
  | [] => some 0
  | '.' :: cs => (dots cs).map (· + 1)
  | '%' :: '2' :: 'e' :: cs => (dots cs).map (· + 1)
  | '%' :: '2' :: 'E' :: cs => (dots cs).map (· + 1)
  | _ => none

def segment (text : List Char) : Segment (List Char) :=
  match dots text with
  | some 1 => .stay
  | some 2 => .up
  | _ => .name text

/-- The segments of an absolute path. A dot segment at the end leaves an empty name there. -/
def segments (path : List Char) : List (Segment (List Char)) :=
  let parts := (path.splitOn '/').tail.map segment
  match parts.getLast? with
  | some (.name _) => parts
  | _ => parts ++ [.name []]

def resolvePath (path : List Char) : List Char :=
  '/' :: ['/'].intercalate (resolve (segments path)).reverse

def isSlash (c : Char) : Bool := c == '/' || c == '\\'

/-- No scheme, no authority, and under `/admin` once its dot segments are gone. -/
structure Inside (location : List Char) : Prop where
  scheme : (splitScheme location).1 = []
  authority : (location.take 2).all isSlash = false
  path : "/admin".toList <+: resolvePath location

example : resolvePath "/admin/a/%2E./b/.".toList = "/admin/b/".toList := by decide

/-- The value's path is handed back as it came. -/
structure Admitted (valid : List Char → Bool) (value path : List Char) : Prop where
  given : value ≠ []
  parsed : ∃ parts, urlsplit valid value = some parts ∧ parts.scheme = [] ∧ parts.netloc = [] ∧
    parts.path = path
  start : "/admin".toList <+: path
  backslash : '\\' ∉ path
  dotted : ¬ "/..".toList <:+: path

/-- The path enters a name that begins with `admin` from the root, and does not climb out of
it again. -/
def Settles (path : List Char) : Prop :=
  ∃ pre name post, segments path = pre ++ .name name :: post ∧ "admin".toList <+: name ∧
    Cancelled pre ∧ Within post

section
variable {valid : List Char → Bool} {value location path : List Char}

theorem safeNext_cases (h : safeNext valid value = some location) :
    location = dashboardPath ∨ Admitted valid value location := by
  unfold safeNext at h
  split at h
  · exact .inl (Option.some.inj h).symm
  · rename_i hgiven
    obtain ⟨parts, hparts, h⟩ := Option.bind_eq_some_iff.mp h
    split at h
    · exact .inl (Option.some.inj h).symm
    · rename_i hfree
      simp only at h
      split at h
      · exact .inl (Option.some.inj h).symm
      · rename_i hstart
        split at h
        · exact .inl (Option.some.inj h).symm
        · rename_i hclean
          obtain rfl := Option.some.inj h
          simp only [not_or, not_not] at hfree hstart hclean
          exact .inr ⟨hgiven, ⟨parts, hparts, hfree.1, hfree.2, rfl⟩, hstart, hclean.1,
            hclean.2.1⟩

theorem Admitted.safeNext (h : Admitted valid value path) : safeNext valid value = some path := by
  obtain ⟨hgiven, ⟨parts, hparts, hscheme, hnetloc, rfl⟩, hstart, hback, hdots⟩ := h
  have hend : ¬ "/..".toList <:+ parts.path := fun hx => hdots hx.isInfix
  simp only [Admin.safeNext, hgiven, hparts, hscheme, hnetloc, hstart, hback, hdots, hend,
    Option.bind_eq_bind, Option.bind_some, ne_eq, not_true_eq_false, or_self, if_false]

theorem prefix_before {w a rest : List Char} {c : Char} (hc : c ∉ w) :
    w <+: a ++ c :: rest ↔ w <+: a := by
  constructor
  · intro h
    rcases List.prefix_or_prefix_of_prefix h (List.prefix_append a (c :: rest)) with hw | ha
    · exact hw
    · obtain ⟨t, rfl⟩ := ha
      have ht : t <+: c :: rest := (List.prefix_append_right_inj a).mp h
      rcases List.prefix_cons_iff.mp ht with rfl | ⟨t, rfl, -⟩
      · simp
      · exact absurd (by simp) hc
  · intro h
    exact h.trans (List.prefix_append a (c :: rest))

/-- The first name decides, since no slash is in `admin`. -/
theorem resolvePath_admin_iff : "/admin".toList <+: resolvePath path ↔
    ∃ name, (resolve (segments path)).getLast? = some name ∧ "admin".toList <+: name := by
  have hstrip (text : List Char) :
      "/admin".toList <+: '/' :: text ↔ "admin".toList <+: text :=
    List.cons_prefix_cons.trans (and_iff_right rfl)
  rw [resolvePath, hstrip, ← List.head?_reverse]
  cases (resolve (segments path)).reverse with
  | nil => simp
  | cons name names =>
    cases names with
    | nil => simp
    | cons next names =>
      rw [List.intercalate_cons_cons, List.append_assoc, List.singleton_append,
        prefix_before (by decide)]
      simp

theorem inside_iff (h : "/admin".toList <+: path) : Inside path ↔ Settles path := by
  obtain ⟨rest, rfl⟩ := h
  have hscheme : (splitScheme ("/admin".toList ++ rest)).1 = [] :=
    congrArg Prod.fst (splitScheme_slash ("admin".toList ++ rest))
  have hpath : "/admin".toList <+: resolvePath ("/admin".toList ++ rest) ↔
      Settles ("/admin".toList ++ rest) := by
    rw [resolvePath_admin_iff]
    constructor
    · intro hx
      obtain ⟨name, hlast, hname⟩ := hx
      obtain ⟨pre, post, hpath, hpre, hpost⟩ := resolve_getLast_iff.mp hlast
      exact ⟨pre, name, post, hpath, hname, hpre, hpost⟩
    · intro hx
      obtain ⟨pre, name, post, hpath, hname, hpre, hpost⟩ := hx
      exact ⟨name, resolve_getLast_iff.mpr ⟨pre, post, hpath, hpre, hpost⟩, hname⟩
  constructor
  · intro hx
    exact hpath.mp hx.path
  · intro hx
    exact ⟨hscheme, rfl, hpath.mpr hx⟩

end

/-- Where `_safe_next` sends a login stays inside the admin surface exactly if the path that
it hands back, if it does, settles there. -/
theorem redirect_inside_iff (valid : List Char → Bool) (value : List Char) :
    (∀ location, safeNext valid value = some location → Inside location) ↔
      ∀ path, Admitted valid value path → Settles path := by
  constructor
  · intro h path hpath
    exact (inside_iff hpath.start).mp (h path hpath.safeNext)
  · intro h location hlocation
    rcases safeNext_cases hlocation with rfl | hpath
    · exact ⟨by decide, by decide, by decide⟩
    · exact (inside_iff hpath.start).mpr (h location hpath)

/-- An encoded dot segment climbs out of `/admin`. -/
theorem encoded_dots_escape : ¬ ∀ valid value location,
    safeNext valid value = some location → Inside location := by
  intro hall
  have hx := hall (fun _ => true) "/admin/%2e%2e/x".toList "/admin/%2e%2e/x".toList (by decide)
  exact absurd hx.path (by decide)

end BackendTemplates.Admin
