import Mathlib.Data.List.Basic

namespace BackendTemplates.Python

/-- What `urlsplit` finds in a URL. -/
structure SplitResult where
  scheme : List Char
  netloc : List Char
  path : List Char
  query : List Char
  fragment : List Char
  deriving DecidableEq

def isSchemeChar (c : Char) : Bool := c.isAlphanum || c == '+' || c == '-' || c == '.'

/-- What stands before the first colon, lower-cased, if it is a scheme; and the rest. -/
def splitScheme (url : List Char) : List Char × List Char :=
  match url, url.dropWhile (· != ':') with
  | first :: _, _ :: rest =>
    let scheme := url.takeWhile (· != ':')
    if first.isAlpha ∧ scheme.all isSchemeChar then (scheme.map Char.toLower, rest) else ([], url)
  | _, _ => ([], url)

/-- `_splitnetloc`, after two slashes. -/
def splitNetloc : List Char → List Char × List Char
  | '/' :: '/' :: rest =>
    let isDelimiter (c : Char) : Bool := c == '/' || c == '?' || c == '#'
    (rest.takeWhile (fun c => !isDelimiter c), rest.dropWhile (fun c => !isDelimiter c))
  | url => ([], url)

/-- What stands before a mark and after it. -/
def splitMark (mark : Char) (url : List Char) : List Char × List Char :=
  (url.takeWhile (· != mark), (url.dropWhile (· != mark)).tail)

/-- `urlsplit`. `none` is the `ValueError`, which only a host can cause: brackets that are not
paired, or what the checks of the host under `valid` refuse. -/
def urlsplit (valid : List Char → Bool) (value : List Char) : Option SplitResult :=
  let url := (value.dropWhile (·.toNat ≤ 0x20)).filter
    (fun c => c != '\t' && c != '\r' && c != '\n')
  let (scheme, url) := splitScheme url
  let (netloc, url) := splitNetloc url
  let (url, fragment) := splitMark '#' url
  let (path, query) := splitMark '?' url
  if netloc ≠ [] ∧ (netloc.contains '[' ≠ netloc.contains ']' ∨ valid netloc = false) then none
  else some ⟨scheme, netloc, path, query, fragment⟩

example : urlsplit (fun _ => true) "HTTP://h/a?b#c".toList =
    some ⟨"http".toList, ['h'], ['/', 'a'], ['b'], ['c']⟩ := by decide

example : urlsplit (fun _ => true) " ///admin\n/x".toList =
    some ⟨[], [], "/admin/x".toList, [], []⟩ := by decide

theorem splitScheme_slash (rest : List Char) : splitScheme ('/' :: rest) = ([], '/' :: rest) := by
  unfold splitScheme
  split
  · rename_i hurl _
    obtain ⟨rfl, -⟩ := List.cons.inj hurl
    exact if_neg (fun h => absurd h.1 (by decide))
  · rfl

end BackendTemplates.Python
