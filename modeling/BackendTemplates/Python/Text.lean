import Mathlib.Data.List.DropRight

namespace BackendTemplates.Python

/-- `str.isspace` of one character, and `\s` of a regular expression. -/
def isSpace (c : Char) : Bool :=
  let n := c.toNat
  (9 ≤ n && n ≤ 13) || (28 ≤ n && n ≤ 32) || n == 0x85 || n == 0xA0 || n == 0x1680 ||
    (0x2000 ≤ n && n ≤ 0x200A) || n == 0x2028 || n == 0x2029 || n == 0x202F || n == 0x205F ||
    n == 0x3000

/-- `str.strip`, of the characters given. -/
def strip (p : Char → Bool) (cs : List Char) : List Char := (cs.dropWhile p).rdropWhile p

/-- `str.startswith`. -/
def startswith (text start : String) : Bool := start.toList.isPrefixOf text.toList

theorem startswith_iff {text start : String} :
    startswith text start = true ↔ start.toList <+: text.toList :=
  List.isPrefixOf_iff_prefix

theorem strip_dropWhile (p : Char → Bool) (cs : List Char) :
    strip p (cs.dropWhile p) = strip p cs := by
  rw [strip, List.dropWhile_idempotent, strip]

theorem dropWhile_ne_nil_of_strip {p : Char → Bool} {cs : List Char} (h : strip p cs ≠ []) :
    cs.dropWhile p ≠ [] := by
  intro hnil
  apply h
  rw [strip, hnil, List.rdropWhile_nil]

end BackendTemplates.Python
