import BackendTemplates.Library.Json
import BackendTemplates.Python.Text

namespace BackendTemplates.Python

/-- A UUID, by its 32 hexadecimal digits. -/
structure Uuid where
  digits : List (Fin 16)
  digits_length : digits.length = 32
  deriving DecidableEq, Repr

def Uuid.null : Uuid := ⟨List.replicate 32 0, rfl⟩

/-- Remove every occurrence of a text, from left to right. `skip` counts the
characters still to drop from the occurrence found last. -/
def removeAll (pat : List Char) : Nat → List Char → List Char
  | _, [] => []
  | skip + 1, _ :: cs => removeAll pat skip cs
  | 0, c :: cs =>
    if pat.isPrefixOf (c :: cs) then removeAll pat (pat.length - 1) cs
    else c :: removeAll pat 0 cs

def isBrace (c : Char) : Bool := c == '{' || c == '}'

def stripBraces (cs : List Char) : List Char :=
  ((cs.dropWhile isBrace).reverse.dropWhile isBrace).reverse

def hexDigit? (c : Char) : Option (Fin 16) :=
  if h : 48 ≤ c.toNat ∧ c.toNat ≤ 57 then some ⟨c.toNat - 48, by omega⟩
  else if h : 97 ≤ c.toNat ∧ c.toNat ≤ 102 then some ⟨c.toNat - 87, by omega⟩
  else if h : 65 ≤ c.toNat ∧ c.toNat ≤ 70 then some ⟨c.toNat - 55, by omega⟩
  else none

/-- The zeros of the decimal digits outside ASCII. The other nine follow each of them. -/
def decimalZeros : List Nat :=
  [0x660, 0x6F0, 0x7C0, 0x966, 0x9E6, 0xA66, 0xAE6, 0xB66, 0xBE6, 0xC66, 0xCE6, 0xD66, 0xDE6,
    0xE50, 0xED0, 0xF20, 0x1040, 0x1090, 0x17E0, 0x1810, 0x1946, 0x19D0, 0x1A80, 0x1A90, 0x1B50,
    0x1BB0, 0x1C40, 0x1C50, 0xA620, 0xA8D0, 0xA900, 0xA9D0, 0xA9F0, 0xAA50, 0xABF0, 0xFF10,
    0x104A0, 0x10D30, 0x11066, 0x110F0, 0x11136, 0x111D0, 0x112F0, 0x11450, 0x114D0, 0x11650,
    0x116C0, 0x11730, 0x118E0, 0x11950, 0x11C50, 0x11D50, 0x11DA0, 0x11F50, 0x16A60, 0x16AC0,
    0x16B50, 0x1D7CE, 0x1D7D8, 0x1D7E2, 0x1D7EC, 0x1D7F6, 0x1E140, 0x1E2F0, 0x1E4F0, 0x1E950,
    0x1FBF0]

/-- How `int` reads a character: whitespace and decimal digits of any script are as in ASCII. -/
def asciiOf (c : Char) : Char :=
  if c.toNat < 127 then c
  else if isSpace c then ' '
  else match decimalZeros.find? (fun first => first ≤ c.toNat && c.toNat < first + 10) with
    | some first => Char.ofNat (48 + (c.toNat - first))
    | none => '?'

def isBlank (c : Char) : Bool := (9 ≤ c.toNat && c.toNat ≤ 13) || c == ' '

/-- Hexadecimal digits, with single underscores between them. -/
def hexRun : List Char → Option (List (Fin 16))
  | [] => none
  | [c] => (hexDigit? c).map (fun d => [d])
  | c :: '_' :: cs => do
    let d ← hexDigit? c
    let ds ← hexRun cs
    some (d :: ds)
  | c :: cs => do
    let d ← hexDigit? c
    let ds ← hexRun cs
    some (d :: ds)

/-- `0x`, and the underscore that may follow it. -/
def dropBase : List Char → List Char
  | '0' :: x :: cs =>
    if x = 'x' ∨ x = 'X' then (match cs with
      | '_' :: cs => cs
      | cs => cs)
    else '0' :: x :: cs
  | cs => cs

/-- `int(text, 16)` of a text without a minus sign, by its digits. -/
def hexInt (text : List Char) : Option (List (Fin 16)) :=
  match strip isBlank (text.map asciiOf) with
  | '+' :: cs => hexRun (dropBase cs)
  | cs => hexRun (dropBase cs)

/-- `UUID(text)`. `none` is the `ValueError`. -/
def Uuid.ofStr (s : String) : Option Uuid :=
  let cs := removeAll ['u', 'u', 'i', 'd', ':'] 0 (removeAll ['u', 'r', 'n', ':'] 0 s.toList)
  let hex := (stripBraces cs).filter (· != '-')
  if hex.length ≠ 32 then none
  else match hexInt hex with
    | none => none
    | some ds =>
      if h : ds.length ≤ 32 then some ⟨List.replicate (32 - ds.length) 0 ++ ds, by simp [h]⟩
      else none

def hexText (ds : List (Fin 16)) : List Char := ds.map (fun d => Json.hexChar d.val)

/-- `str(uuid)`: the digits in groups of 8, 4, 4, 4 and 12. -/
def Uuid.chars (u : Uuid) : List Char :=
  hexText (u.digits.take 8) ++ '-' :: (hexText ((u.digits.drop 8).take 4) ++
    '-' :: (hexText ((u.digits.drop 12).take 4) ++
      '-' :: (hexText ((u.digits.drop 16).take 4) ++ '-' :: hexText (u.digits.drop 20))))

def Uuid.str (u : Uuid) : String := String.ofList u.chars

theorem hexDigit_hexChar : ∀ d : Fin 16, hexDigit? (Json.hexChar d.val) = some d := by decide

theorem hexChar_plain : ∀ d : Fin 16, Json.hexChar d.val ≠ 'u' ∧ Json.hexChar d.val ≠ '-' ∧
    isBrace (Json.hexChar d.val) = false := by decide

theorem hexChar_ascii : ∀ d : Fin 16, asciiOf (Json.hexChar d.val) = Json.hexChar d.val ∧
    isBlank (Json.hexChar d.val) = false ∧ Json.hexChar d.val ≠ '_' ∧
    Json.hexChar d.val ≠ '+' ∧ Json.hexChar d.val ≠ 'x' ∧ Json.hexChar d.val ≠ 'X' := by
  decide

theorem hexText_injective {ds es : List (Fin 16)} (h : hexText ds = hexText es) : ds = es := by
  have hinj : Function.Injective (fun d : Fin 16 => Json.hexChar d.val) := by
    intro d e hd
    have hd' : Json.hexChar d.val = Json.hexChar e.val := hd
    apply Option.some.inj
    rw [← hexDigit_hexChar d, ← hexDigit_hexChar e, hd']
  exact List.map_injective_iff.mpr hinj h

theorem hexRun_hexText {ds : List (Fin 16)} (h : ds ≠ []) : hexRun (hexText ds) = some ds := by
  induction ds with
  | nil => exact absurd rfl h
  | cons d ds ih =>
    cases ds with
    | nil => simp [hexText, hexRun, hexDigit_hexChar]
    | cons e ds =>
      have hno := (hexChar_ascii e).2.2.1
      have ih := ih (by simp)
      simp only [hexText, List.map_cons] at ih ⊢
      rw [hexRun]
      · simp [hexDigit_hexChar, ih]
      · exact List.cons_ne_nil _ _
      · intro cs hcs
        exact hno (List.cons.inj hcs).1

theorem strip_plain {p : Char → Bool} {cs : List Char} (h : ∀ c ∈ cs, p c = false) :
    strip p cs = cs := by
  have hdrop : cs.dropWhile p = cs := by
    cases cs with
    | nil => rfl
    | cons c cs => simp [h c (by simp)]
  rw [strip, hdrop, List.rdropWhile_eq_self_iff]
  intro hne
  simp [h _ (List.getLast_mem hne)]

theorem dropBase_hexText (ds : List (Fin 16)) : dropBase (hexText ds) = hexText ds := by
  match ds with
  | [] => rfl
  | [d] =>
    simp only [hexText, List.map_cons, List.map_nil]
    unfold dropBase
    split
    · rename_i h
      simp at h
    · rfl
  | d :: e :: ds =>
    have hx := (hexChar_ascii e).2.2.2.2
    simp only [hexText, List.map_cons]
    unfold dropBase
    split
    · rename_i h
      simp only [List.cons.injEq] at h
      obtain ⟨hd, rfl, rfl⟩ := h
      rw [if_neg (not_or.mpr hx), hd]
    · rfl

theorem hexInt_hexText {ds : List (Fin 16)} (h : ds ≠ []) : hexInt (hexText ds) = some ds := by
  have hascii : (hexText ds).map asciiOf = hexText ds := by
    simp [hexText, (hexChar_ascii _).1]
  have hblank : ∀ c ∈ hexText ds, isBlank c = false := by
    intro c hc
    obtain ⟨d, -, rfl⟩ := List.mem_map.mp hc
    exact (hexChar_ascii d).2.1
  rw [hexInt, hascii, strip_plain hblank]
  split
  · rename_i cs hcs
    obtain ⟨d, ds, rfl⟩ := List.exists_cons_of_ne_nil h
    exact absurd (List.cons.inj hcs).1 (hexChar_ascii d).2.2.2.1
  · rw [dropBase_hexText, hexRun_hexText h]

theorem removeAll_absent {p : Char} {pat cs : List Char} (h : p ∉ cs) :
    removeAll (p :: pat) 0 cs = cs := by
  induction cs with
  | nil => rfl
  | cons c cs ih =>
    simp only [List.mem_cons, not_or] at h
    obtain ⟨hc, hcs⟩ := h
    have hp : (p :: pat).isPrefixOf (c :: cs) = false := by simp [List.isPrefixOf, hc]
    simp only [removeAll, hp, Bool.false_eq_true, ↓reduceIte, ih hcs]

theorem stripBraces_plain {cs : List Char} (h : ∀ c ∈ cs, isBrace c = false) :
    stripBraces cs = cs := by
  have drop (ds : List Char) (hd : ∀ c ∈ ds, isBrace c = false) : ds.dropWhile isBrace = ds := by
    cases ds with
    | nil => rfl
    | cons c ds => simp [hd c (by simp)]
  unfold stripBraces
  rw [drop cs h, drop cs.reverse (by simpa using h), List.reverse_reverse]

theorem filter_hexText (ds : List (Fin 16)) : (hexText ds).filter (· != '-') = hexText ds := by
  apply List.filter_eq_self.mpr
  intro c hc
  obtain ⟨d, _, rfl⟩ := List.mem_map.mp hc
  simpa using (hexChar_plain d).2.1

theorem mem_chars {u : Uuid} {c : Char} (h : c ∈ u.chars) : c ≠ 'u' ∧ isBrace c = false := by
  have digit {ds : List (Fin 16)} (hc : c ∈ hexText ds) : c ≠ 'u' ∧ isBrace c = false := by
    obtain ⟨d, _, rfl⟩ := List.mem_map.mp hc
    exact ⟨(hexChar_plain d).1, (hexChar_plain d).2.2⟩
  simp only [Uuid.chars, List.mem_append, List.mem_cons] at h
  rcases h with h | rfl | h | rfl | h | rfl | h | rfl | h
  all_goals first | exact digit h | decide

/-- The groups without their dashes are the digits again. -/
theorem filter_chars (u : Uuid) : u.chars.filter (· != '-') = hexText u.digits := by
  have hd : u.digits = u.digits.take 8 ++ ((u.digits.drop 8).take 4 ++
      ((u.digits.drop 12).take 4 ++ ((u.digits.drop 16).take 4 ++ u.digits.drop 20))) := by
    have split (n k : Nat) :
        u.digits.drop n = (u.digits.drop n).take k ++ u.digits.drop (n + k) := by
      rw [← List.drop_drop, List.take_append_drop]
    rw [← split 16 4, ← split 12 4, ← split 8 4, List.take_append_drop]
  have hm (as bs : List (Fin 16)) : hexText (as ++ bs) = hexText as ++ hexText bs :=
    List.map_append
  conv_rhs => rw [hd]
  simp only [Uuid.chars, List.filter_append, List.filter_cons, filter_hexText, hm]
  simp

/-- What `str` writes, `UUID` reads back. -/
theorem Uuid.ofStr_str (u : Uuid) : Uuid.ofStr u.str = some u := by
  have hu : 'u' ∉ u.chars := fun h => (mem_chars h).1 rfl
  have hb : stripBraces u.chars = u.chars := stripBraces_plain (fun c h => (mem_chars h).2)
  have hlen : (hexText u.digits).length = 32 := by rw [hexText, List.length_map, u.digits_length]
  have hne : u.digits ≠ [] := by
    intro hnil
    have := u.digits_length
    simp [hnil] at this
  simp only [Uuid.ofStr, Uuid.str, String.toList_ofList, removeAll_absent hu, hb, filter_chars,
    hlen, ne_eq, not_true_eq_false, if_false, hexInt_hexText hne, u.digits_length, le_refl,
    ↓reduceDIte, Nat.sub_self, List.replicate_zero, List.nil_append]

theorem Uuid.str_injective {u v : Uuid} (h : u.str = v.str) : u = v := by
  have he := congrArg Uuid.ofStr h
  simpa [Uuid.ofStr_str] using he

end BackendTemplates.Python
