import Mathlib.Data.List.Basic

namespace BackendTemplates.JsonGrammar

def isWs (c : Char) : Bool := c == ' ' || c == '\t' || c == '\n' || c == '\r'

def Ws (cs : List Char) : Prop := ∀ c ∈ cs, isWs c = true

def Digits (cs : List Char) : Prop := cs ≠ [] ∧ ∀ c ∈ cs, c.isDigit = true

def Exponent (cs : List Char) : Prop :=
  ∃ e sign ds, cs = e :: (sign ++ ds) ∧ (e = 'e' ∨ e = 'E') ∧
    (sign = [] ∨ sign = ['+'] ∨ sign = ['-']) ∧ Digits ds

/-- A number: no leading zero, and the fraction and the exponent have digits. -/
structure Number (cs : List Char) : Prop where
  parts : ∃ sign int frac exp, cs = sign ++ int ++ frac ++ exp ∧ (sign = [] ∨ sign = ['-']) ∧
    Digits int ∧ (int = ['0'] ∨ int.head? ≠ some '0') ∧
    (frac = [] ∨ ∃ ds, frac = '.' :: ds ∧ Digits ds) ∧ (exp = [] ∨ Exponent exp)

def isHex (c : Char) : Bool :=
  c.isDigit || ('a' ≤ c && c ≤ 'f') || ('A' ≤ c && c ≤ 'F')

/-- One character of a string, as it is written. -/
inductive StrChar : List Char → Prop where
  | plain {c : Char} (quote : c ≠ '"') (backslash : c ≠ '\\') (control : 0x20 ≤ c.toNat) :
      StrChar [c]
  | escape {c : Char} (letter : c ∈ ['"', '\\', '/', 'b', 'f', 'n', 'r', 't']) : StrChar ['\\', c]
  | unicode {a b c d : Char} (hex : ∀ x ∈ [a, b, c, d], isHex x = true) :
      StrChar ['\\', 'u', a, b, c, d]

/-- A string in its quotes. -/
def Str (cs : List Char) : Prop :=
  ∃ parts : List (List Char), (∀ p ∈ parts, StrChar p) ∧ cs = '"' :: parts.flatten ++ ['"']

/-- A text with the whitespace around it. -/
structure Spaced where
  before : List Char
  text : List Char
  after : List Char

def Spaced.chars (x : Spaced) : List Char := x.before ++ x.text ++ x.after

def Spaced.Ok (x : Spaced) : Prop := Ws x.before ∧ Ws x.after

structure Member where
  key : Spaced
  value : Spaced

def Member.chars (m : Member) : List Char := m.key.chars ++ ':' :: m.value.chars

inductive Value : List Char → Prop where
  | true : Value ['t', 'r', 'u', 'e']
  | false : Value ['f', 'a', 'l', 's', 'e']
  | null : Value ['n', 'u', 'l', 'l']
  | number {cs : List Char} (number : Number cs) : Value cs
  | string {cs : List Char} (string : Str cs) : Value cs
  | emptyArray {w : List Char} (ws : Ws w) : Value ('[' :: w ++ [']'])
  | array {items : List Spaced} (nonempty : items ≠ []) (ws : ∀ i ∈ items, i.Ok)
      (values : ∀ i ∈ items, Value i.text) :
      Value ('[' :: [','].intercalate (items.map Spaced.chars) ++ [']'])
  | emptyObject {w : List Char} (ws : Ws w) : Value ('{' :: w ++ ['}'])
  | object {members : List Member} (nonempty : members ≠ [])
      (ws : ∀ m ∈ members, m.key.Ok ∧ m.value.Ok) (keys : ∀ m ∈ members, Str m.key.text)
      (values : ∀ m ∈ members, Value m.value.text) :
      Value ('{' :: [','].intercalate (members.map Member.chars) ++ ['}'])

/-- A JSON text: a value with whitespace around it. -/
def Text (cs : List Char) : Prop := ∃ x : Spaced, x.Ok ∧ Value x.text ∧ cs = x.chars

/-- The text of an object, from its brace to the brace that closes it. -/
def ObjectText (cs : List Char) : Prop := Value cs ∧ cs.head? = some '{'

theorem str_plain (cs : List Char) (h : ∀ c ∈ cs, c ≠ '"' ∧ c ≠ '\\' ∧ 0x20 ≤ c.toNat) :
    Str ('"' :: cs ++ ['"']) := by
  refine ⟨cs.map (fun c => [c]), ?_, ?_⟩
  · intro p hp
    obtain ⟨c, hc, rfl⟩ := List.mem_map.mp hp
    exact .plain (h c hc).1 (h c hc).2.1 (h c hc).2.2
  · rw [← List.flatMap_def, List.flatMap_singleton']

inductive Mode where
  | outside
  | inString
  | escaped
  deriving DecidableEq

/-- How many brackets are open, and whether a string is. -/
structure Nesting where
  depth : Nat
  mode : Mode
  deriving DecidableEq

def Nesting.step (s : Nesting) (c : Char) : Nesting :=
  match s.mode with
  | .outside =>
    if c = '"' then { s with mode := .inString }
    else if c = '{' ∨ c = '[' then { s with depth := s.depth + 1 }
    else if c = '}' ∨ c = ']' then { s with depth := s.depth - 1 }
    else s
  | .inString =>
    if c = '"' then { s with mode := .outside }
    else if c = '\\' then { s with mode := .escaped }
    else s
  | .escaped => { s with mode := .inString }

def Nesting.scan (s : Nesting) (cs : List Char) : Nesting := cs.foldl Nesting.step s

/-- The text comes back to the nesting it begins at, and never goes below it on the way. -/
def Keeps (mode : Mode) (cs : List Char) : Prop :=
  ∀ depth, Nesting.scan ⟨depth, mode⟩ cs = ⟨depth, mode⟩ ∧
    ∀ p, p <+: cs → depth ≤ (Nesting.scan ⟨depth, mode⟩ p).depth

section
variable {mode mode' : Mode} {cs ds : List Char} {c : Char}

theorem scan_append (s : Nesting) (cs ds : List Char) :
    s.scan (cs ++ ds) = (s.scan cs).scan ds := List.foldl_append

theorem scan_cons (s : Nesting) (c : Char) (cs : List Char) :
    s.scan (c :: cs) = (s.step c).scan cs := rfl

theorem Keeps.nil (mode : Mode) : Keeps mode [] := by
  intro depth
  refine ⟨rfl, ?_⟩
  intro p hp
  rw [List.prefix_nil.mp hp]
  exact Nat.le_refl depth

theorem Keeps.append (h : Keeps mode cs) (h' : Keeps mode ds) : Keeps mode (cs ++ ds) := by
  intro depth
  constructor
  · rw [scan_append, (h depth).1, (h' depth).1]
  · intro p hp
    rcases List.prefix_or_prefix_of_prefix hp (List.prefix_append cs ds) with hp | ⟨q, rfl⟩
    · exact (h depth).2 p hp
    · rw [scan_append, (h depth).1]
      exact (h' depth).2 q ((List.prefix_append_right_inj cs).mp hp)

/-- A text between a character that opens and one that closes. -/
theorem Keeps.wrap {c d : Char} (deeper : Nat) (h : Keeps mode' cs)
    (hopen : ∀ depth, Nesting.step ⟨depth, mode⟩ c = ⟨depth + deeper, mode'⟩)
    (hclose : ∀ depth, Nesting.step ⟨depth + deeper, mode'⟩ d = ⟨depth, mode⟩) :
    Keeps mode (c :: cs ++ [d]) := by
  intro depth
  have hfull : Nesting.scan ⟨depth, mode⟩ (c :: cs ++ [d]) = ⟨depth, mode⟩ := by
    rw [List.cons_append, scan_cons, hopen, scan_append, (h _).1, scan_cons, hclose]
    rfl
  refine ⟨hfull, ?_⟩
  intro p hp
  rcases List.prefix_concat_iff.mp hp with rfl | hp
  · exact Nat.le_of_eq (congrArg Nesting.depth hfull).symm
  · rcases List.prefix_cons_iff.mp hp with rfl | ⟨q, rfl, hq⟩
    · exact Nat.le_refl depth
    · rw [scan_cons, hopen]
      exact Nat.le_trans (Nat.le_add_right depth deeper) ((h _).2 q hq)

theorem Keeps.single (h : ∀ depth, Nesting.step ⟨depth, mode⟩ c = ⟨depth, mode⟩) :
    Keeps mode [c] := by
  intro depth
  refine ⟨h depth, ?_⟩
  intro p hp
  rcases List.prefix_cons_iff.mp hp with rfl | ⟨q, rfl, hq⟩
  · exact Nat.le_refl depth
  · rw [List.prefix_nil.mp hq, scan_cons, h]
    exact Nat.le_refl depth

theorem Keeps.flatten {parts : List (List Char)} (h : ∀ p ∈ parts, Keeps mode p) :
    Keeps mode parts.flatten := by
  induction parts with
  | nil => exact Keeps.nil mode
  | cons p parts ih =>
    rw [List.flatten_cons]
    exact (h p (by simp)).append (ih (fun q hq => h q (by simp [hq])))

theorem Keeps.intercalate {parts : List (List Char)} {separator : List Char}
    (hs : Keeps mode separator) (h : ∀ p ∈ parts, Keeps mode p) :
    Keeps mode (separator.intercalate parts) := by
  induction parts with
  | nil => exact Keeps.nil mode
  | cons p parts ih =>
    cases parts with
    | nil =>
      rw [List.intercalate_singleton]
      exact h p (by simp)
    | cons q parts =>
      rw [List.intercalate_cons_cons]
      exact ((h p (by simp)).append hs).append (ih (fun r hr => h r (List.mem_cons_of_mem p hr)))

/-- Outside strings these characters change nothing. -/
def isPlain (c : Char) : Bool := c != '"' && c != '{' && c != '[' && c != '}' && c != ']'

theorem Keeps.plain (h : ∀ c ∈ cs, isPlain c = true) : Keeps .outside cs := by
  induction cs with
  | nil => exact Keeps.nil .outside
  | cons c cs ih =>
    have hc := h c (by simp)
    simp only [isPlain, Bool.and_eq_true, bne_iff_ne, ne_eq] at hc
    have hsingle : Keeps .outside [c] := by
      apply Keeps.single
      intro depth
      simp [Nesting.step, hc]
    exact hsingle.append (ih (fun d hd => h d (by simp [hd])))

end

theorem isPlain_of_isWs {c : Char} (h : isWs c = true) : isPlain c = true := by
  simp only [isWs, Bool.or_eq_true, beq_iff_eq] at h
  rcases h with ((rfl | rfl) | rfl) | rfl
  all_goals rfl

theorem isPlain_of_isDigit {c : Char} (h : c.isDigit = true) : isPlain c = true := by
  have hne (x : Char) (hx : x.isDigit = false) : c ≠ x := by
    rintro rfl
    simp [hx] at h
  simp [isPlain, hne '"' rfl, hne '{' rfl, hne '[' rfl, hne '}' rfl, hne ']' rfl]

theorem Number.isPlain {cs : List Char} (h : Number cs) : ∀ c ∈ cs, isPlain c = true := by
  obtain ⟨sign, int, frac, exp, rfl, hsign, hint, -, hfrac, hexp⟩ := h.parts
  intro c hc
  simp only [List.mem_append] at hc
  rcases hc with ((hc | hc) | hc) | hc
  · rcases hsign with rfl | rfl
    · cases hc
    · obtain rfl : c = '-' := by simpa using hc
      rfl
  · exact isPlain_of_isDigit (hint.2 c hc)
  · rcases hfrac with rfl | ⟨ds, rfl, hds⟩
    · cases hc
    · rcases List.mem_cons.mp hc with rfl | hc
      · rfl
      · exact isPlain_of_isDigit (hds.2 c hc)
  · rcases hexp with rfl | ⟨e, esign, ds, rfl, he, hesign, hds⟩
    · cases hc
    · rcases List.mem_cons.mp hc with rfl | hc
      · rcases he with rfl | rfl
        all_goals rfl
      · rcases List.mem_append.mp hc with hc | hc
        · rcases hesign with rfl | rfl | rfl
          · cases hc
          · obtain rfl : c = '+' := by simpa using hc
            rfl
          · obtain rfl : c = '-' := by simpa using hc
            rfl
        · exact isPlain_of_isDigit (hds.2 c hc)

theorem Keeps.ws {w : List Char} (h : Ws w) : Keeps .outside w :=
  Keeps.plain (fun c hc => isPlain_of_isWs (h c hc))

theorem Keeps.inString {c : Char} (hq : c ≠ '"') (hb : c ≠ '\\') : Keeps .inString [c] := by
  apply Keeps.single
  intro depth
  simp [Nesting.step, hq, hb]

theorem isHex_ne {c : Char} (h : isHex c = true) : c ≠ '"' ∧ c ≠ '\\' := by
  constructor
  · rintro rfl
    exact absurd h (by decide)
  · rintro rfl
    exact absurd h (by decide)

/-- A backslash and the character behind it. -/
theorem Keeps.escape (c : Char) : Keeps .inString ['\\', c] := by
  intro depth
  refine ⟨rfl, ?_⟩
  intro p hp
  rcases List.prefix_cons_iff.mp hp with rfl | ⟨q, rfl, hq⟩
  · exact Nat.le_refl depth
  · rcases List.prefix_cons_iff.mp hq with rfl | ⟨r, rfl, hr⟩
    · exact Nat.le_refl depth
    · rw [List.prefix_nil.mp hr]
      exact Nat.le_refl depth

theorem StrChar.keeps {cs : List Char} (h : StrChar cs) : Keeps .inString cs := by
  cases h with
  | plain quote backslash control => exact Keeps.inString quote backslash
  | escape letter => exact Keeps.escape _
  | @unicode a b c d hex =>
    have hdigits : ∀ p ∈ [[a], [b], [c], [d]], Keeps .inString p := by
      intro p hp
      obtain ⟨x, hx, rfl⟩ : ∃ x ∈ [a, b, c, d], p = [x] := by simpa using hp
      exact Keeps.inString (isHex_ne (hex x hx)).1 (isHex_ne (hex x hx)).2
    exact (Keeps.escape 'u').append (Keeps.flatten hdigits)

theorem Str.keeps {cs : List Char} (h : Str cs) : Keeps .outside cs := by
  obtain ⟨parts, hparts, rfl⟩ := h
  have hbody : Keeps .inString parts.flatten := Keeps.flatten (fun p hp => (hparts p hp).keeps)
  exact hbody.wrap 0 (fun _ => rfl) (fun _ => rfl)

theorem Spaced.keeps {x : Spaced} (h : x.Ok) (hx : Keeps .outside x.text) :
    Keeps .outside x.chars := ((Keeps.ws h.1).append hx).append (Keeps.ws h.2)

theorem Keeps.comma : Keeps .outside [','] := Keeps.plain (by simp [isPlain])

theorem keeps_items {items : List Spaced} (ws : ∀ i ∈ items, i.Ok)
    (h : ∀ i ∈ items, Keeps .outside i.text) :
    Keeps .outside ([','].intercalate (items.map Spaced.chars)) := by
  apply Keeps.comma.intercalate
  intro p hp
  obtain ⟨i, hi, rfl⟩ := List.mem_map.mp hp
  exact Spaced.keeps (ws i hi) (h i hi)

theorem keeps_members {members : List Member} (ws : ∀ m ∈ members, m.key.Ok ∧ m.value.Ok)
    (keys : ∀ m ∈ members, Str m.key.text) (h : ∀ m ∈ members, Keeps .outside m.value.text) :
    Keeps .outside ([','].intercalate (members.map Member.chars)) := by
  apply Keeps.comma.intercalate
  intro p hp
  obtain ⟨m, hm, rfl⟩ := List.mem_map.mp hp
  have hkey : Keeps .outside m.key.chars := Spaced.keeps (ws m hm).1 (keys m hm).keeps
  have hcolon : Keeps .outside [':'] := Keeps.plain (by simp [isPlain])
  have hvalue : Keeps .outside m.value.chars := Spaced.keeps (ws m hm).2 (h m hm)
  exact hkey.append (hcolon.append hvalue)

theorem Value.keeps {cs : List Char} (h : Value cs) : Keeps .outside cs := by
  induction h with
  | true => exact Keeps.plain (by simp [isPlain])
  | false => exact Keeps.plain (by simp [isPlain])
  | null => exact Keeps.plain (by simp [isPlain])
  | number number => exact Keeps.plain number.isPlain
  | string string => exact string.keeps
  | emptyArray ws => exact (Keeps.ws ws).wrap 1 (fun _ => rfl) (fun _ => rfl)
  | array nonempty ws values ih => exact (keeps_items ws ih).wrap 1 (fun _ => rfl) (fun _ => rfl)
  | emptyObject ws => exact (Keeps.ws ws).wrap 1 (fun _ => rfl) (fun _ => rfl)
  | object nonempty ws keys values ih =>
    exact (keeps_members ws keys ih).wrap 1 (fun _ => rfl) (fun _ => rfl)

theorem Text.keeps {cs : List Char} (h : Text cs) : Keeps .outside cs := by
  obtain ⟨x, hx, hvalue, rfl⟩ := h
  exact Spaced.keeps hx hvalue.keeps

theorem Value.ne_nil {cs : List Char} (h : Value cs) : cs ≠ [] := by
  cases h with
  | number number =>
    obtain ⟨sign, int, frac, exp, rfl, -, hint, -⟩ := number.parts
    simp [hint.1]
  | string string =>
    obtain ⟨parts, -, rfl⟩ := string
    simp
  | true | false | null | emptyArray | array | emptyObject | object => simp

theorem Text.ne_nil {cs : List Char} (h : Text cs) : cs ≠ [] := by
  obtain ⟨x, -, hvalue, rfl⟩ := h
  simp [Spaced.chars, hvalue.ne_nil]

/-- An object's text is a brace, a body that keeps its nesting, and a brace. -/
theorem ObjectText.braces {cs : List Char} (h : ObjectText cs) :
    ∃ body, cs = '{' :: body ++ ['}'] ∧ Keeps .outside body := by
  obtain ⟨hvalue, hhead⟩ := h
  cases hvalue with
  | true => simp at hhead
  | false => simp at hhead
  | null => simp at hhead
  | number number =>
    have hplain := number.isPlain '{' (List.mem_of_mem_head? hhead)
    exact absurd hplain (by decide)
  | string string =>
    obtain ⟨parts, -, rfl⟩ := string
    simp at hhead
  | emptyArray ws => simp at hhead
  | array nonempty ws values => simp at hhead
  | emptyObject ws => exact ⟨_, rfl, Keeps.ws ws⟩
  | object nonempty ws keys values =>
    exact ⟨_, rfl, keeps_members ws keys (fun m hm => (values m hm).keeps)⟩

/-- No proper prefix of an object's text is a JSON text: some brace is still open. -/
theorem ObjectText.not_text {cs p : List Char} (h : ObjectText cs) (hp : p <+: cs)
    (hne : p ≠ cs) : ¬ Text p := by
  intro ht
  obtain ⟨body, rfl, hbody⟩ := h.braces
  have hp : p <+: '{' :: body := by
    rcases List.prefix_concat_iff.mp hp with rfl | hp
    · exact absurd rfl hne
    · exact hp
  rcases List.prefix_cons_iff.mp hp with rfl | ⟨q, rfl, hq⟩
  · exact ht.ne_nil rfl
  · have hopen : 1 ≤ (Nesting.scan ⟨0, .outside⟩ ('{' :: q)).depth := (hbody 1).2 q hq
    rw [(ht.keeps 0).1] at hopen
    exact absurd hopen (by decide)

end BackendTemplates.JsonGrammar
