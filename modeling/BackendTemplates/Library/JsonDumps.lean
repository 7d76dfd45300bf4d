import BackendTemplates.Library.JsonReader
import BackendTemplates.Library.JsonSame

namespace BackendTemplates.Json
open JsonGrammar (isWs isHex Ws Number StrChar Str Spaced Member Value Text ObjectText)

/-- `\u` and four digits. -/
def unicodeEscape (n : Nat) : List Char :=
  ['\\', 'u', hexChar (n / 4096), hexChar (n / 256 % 16), hexChar (n / 16 % 16), hexChar (n % 16)]

/-- A character inside a JSON string of printable ASCII. One that does not fit in four digits
is two halves. -/
def asciiEscape (c : Char) : List Char :=
  if c = '"' then ['\\', '"']
  else if c = '\\' then ['\\', '\\']
  else if c = '\x08' then ['\\', 'b']
  else if c = '\t' then ['\\', 't']
  else if c = '\n' then ['\\', 'n']
  else if c = '\x0c' then ['\\', 'f']
  else if c = '\r' then ['\\', 'r']
  else if 0x20 ≤ c.toNat ∧ c.toNat ≤ 0x7E then [c]
  else if c.toNat < 0x10000 then unicodeEscape c.toNat
  else unicodeEscape (0xD800 + (c.toNat - 0x10000) / 1024) ++
    unicodeEscape (0xDC00 + (c.toNat - 0x10000) % 1024)

/-- The characters that have an escape of one letter. -/
theorem asciiEscape_cases (c : Char) :
    (∃ e ∈ ['"', '\\', 'b', 't', 'n', 'f', 'r'], asciiEscape c = ['\\', e] ∧
      simpleEscape? e = some c) ∨
    (c ≠ '"' ∧ c ≠ '\\' ∧ 0x20 ≤ c.toNat ∧ c.toNat ≤ 0x7E ∧ asciiEscape c = [c]) ∨
    (c.toNat < 0x10000 ∧ asciiEscape c = unicodeEscape c.toNat) ∨
    (0x10000 ≤ c.toNat ∧ asciiEscape c = unicodeEscape (0xD800 + (c.toNat - 0x10000) / 1024) ++
      unicodeEscape (0xDC00 + (c.toNat - 0x10000) % 1024)) := by
  unfold asciiEscape
  split
  · rename_i h
    exact .inl ⟨'"', by decide, rfl, by rw [h]; decide⟩
  split
  · rename_i h
    exact .inl ⟨'\\', by decide, rfl, by rw [h]; decide⟩
  split
  · rename_i h
    exact .inl ⟨'b', by decide, rfl, by rw [h]; decide⟩
  split
  · rename_i h
    exact .inl ⟨'t', by decide, rfl, by rw [h]; decide⟩
  split
  · rename_i h
    exact .inl ⟨'n', by decide, rfl, by rw [h]; decide⟩
  split
  · rename_i h
    exact .inl ⟨'f', by decide, rfl, by rw [h]; decide⟩
  split
  · rename_i h
    exact .inl ⟨'r', by decide, rfl, by rw [h]; decide⟩
  split
  · rename_i hq hb _ _ _ _ _ hplain
    exact .inr (.inl ⟨hq, hb, hplain.1, hplain.2, rfl⟩)
  split
  · rename_i hlow
    exact .inr (.inr (.inl ⟨hlow, rfl⟩))
  · rename_i hhigh
    exact .inr (.inr (.inr ⟨Nat.le_of_not_lt hhigh, rfl⟩))

theorem hex4_unicodeEscape {n : Nat} (hn : n < 0x10000) (r : List Char) :
    hex4? (hexChar (n / 4096) :: hexChar (n / 256 % 16) :: hexChar (n / 16 % 16) ::
      hexChar (n % 16) :: r) = some (n, r) := by
  have hsum : 4096 * (n / 4096) + 256 * (n / 256 % 16) + 16 * (n / 16 % 16) + n % 16 = n := by
    omega
  simp only [hex4?, hexDigit_hexChar _ (show n / 4096 < 16 by omega),
    hexDigit_hexChar _ (show n / 256 % 16 < 16 by omega),
    hexDigit_hexChar _ (show n / 16 % 16 < 16 by omega),
    hexDigit_hexChar _ (show n % 16 < 16 by omega), Option.bind_eq_bind, Option.bind_some, hsum]

theorem readChar_unicodeEscape {n : Nat} (r : List Char) :
    readChar (unicodeEscape n ++ r) = readUnicode (hexChar (n / 4096) ::
      hexChar (n / 256 % 16) :: hexChar (n / 16 % 16) :: hexChar (n % 16) :: r) := rfl

theorem readChar_halves {n m : Nat} (hn : 0xD800 ≤ n ∧ n < 0xDC00)
    (hm : 0xDC00 ≤ m ∧ m < 0xE000) (r : List Char) :
    readChar (unicodeEscape n ++ (unicodeEscape m ++ r)) =
      some (Char.ofNat (0x10000 + 1024 * (n - 0xD800) + (m - 0xDC00)), r) := by
  have hfirst : ¬ (n < 0xD800 ∨ 0xE000 ≤ n) := by omega
  have hboth : n < 0xDC00 ∧ 0xDC00 ≤ m ∧ m < 0xE000 := ⟨hn.2, hm⟩
  rw [readChar_unicodeEscape]
  simp only [readUnicode, hex4_unicodeEscape (show n < 0x10000 by omega), if_neg hfirst]
  simp only [unicodeEscape, List.cons_append, List.nil_append,
    hex4_unicodeEscape (show m < 0x10000 by omega), if_pos hboth]

theorem toNat_valid (c : Char) : (c.toNat < 0xD800 ∨ 0xE000 ≤ c.toNat) ∧ c.toNat < 0x110000 := by
  have h := c.valid
  simp only [UInt32.isValidChar, Nat.isValidChar] at h
  change c.toNat < 0xd800 ∨ 0xdfff < c.toNat ∧ c.toNat < 0x110000 at h
  omega

theorem readChar_asciiEscape (c : Char) (r : List Char) :
    readChar (asciiEscape c ++ r) = some (c, r) := by
  obtain ⟨hvalid, htop⟩ := toNat_valid c
  rcases asciiEscape_cases c with ⟨e, he, heq, hread⟩ | ⟨hq, hb, hlow, -, heq⟩ | ⟨hlow, heq⟩ |
    ⟨hhigh, heq⟩
  · have hu : e ≠ 'u' := by
      rintro rfl
      revert he
      decide
    simp [heq, readChar, hu, hread]
  · rw [heq]
    exact readChar_plain hq hb hlow
  · rw [heq, readChar_unicodeEscape]
    simp only [readUnicode, hex4_unicodeEscape hlow, hvalid, if_true, Char.ofNat_toNat]
  · have hjoin : 0x10000 + 1024 * (0xD800 + (c.toNat - 0x10000) / 1024 - 0xD800) +
        (0xDC00 + (c.toNat - 0x10000) % 1024 - 0xDC00) = c.toNat := by omega
    rw [heq, List.append_assoc, readChar_halves (by omega) (by omega), hjoin, Char.ofNat_toNat]

theorem blank_isWs : ∀ c ∈ [' '], isWs c = true := by simp [isWs]

/-- `json.dumps` as it is without options. -/
def ascii : Style := ⟨asciiEscape, [' '], [' '], readChar_asciiEscape, blank_isWs, blank_isWs⟩

/-- Its numbers are written as JSON has them. -/
inductive Numbered : Json → Prop
  | null : Numbered .null
  | bool (b : Bool) : Numbered (.bool b)
  | num {n : NumText} (h : Number n.chars) : Numbered (.num n)
  | str (s : String) : Numbered (.str s)
  | arr {items : List Json} (h : ∀ j ∈ items, Numbered j) : Numbered (.arr items)
  | obj {members : List (String × Json)} (h : ∀ m ∈ members, Numbered m.2) :
      Numbered (.obj members)

/-- What the writer puts for a character is characters of a string. -/
def Style.Grammatical (st : Style) : Prop :=
  ∀ c, ∃ parts : List (List Char), (∀ p ∈ parts, StrChar p) ∧ st.esc c = parts.flatten

section
variable {st : Style}

theorem Style.Grammatical.writeStr (hst : st.Grammatical) (s : String) : Str (st.writeStr s) := by
  choose parts hparts hesc using hst
  refine ⟨s.toList.flatMap parts, ?_, ?_⟩
  · intro p hp
    obtain ⟨c, -, hc⟩ := List.mem_flatMap.mp hp
    exact hparts c p hc
  · have hflat : s.toList.flatMap st.esc = (s.toList.flatMap parts).flatten := by
      induction s.toList with
      | nil => rfl
      | cons c cs ih => simp only [List.flatMap_cons, List.flatten_append, ih, hesc]
    rw [Style.writeStr, hflat]

/-- The items behind the first one, each with the space that stands before it. -/
theorem Style.writeItems_eq (first : Spaced) (items : List Json) :
    first.chars ++ st.writeItems items = [','].intercalate ((first :: items.map fun j =>
      ⟨st.afterComma, st.write j, []⟩).map Spaced.chars) ++ [']'] := by
  induction items generalizing first with
  | nil => simp [Style.writeItems]
  | cons j items ih =>
    have ih := ih ⟨st.afterComma, st.write j, []⟩
    simp only [List.map_cons, List.intercalate_cons_cons] at ih ⊢
    rw [Style.writeItems, List.append_assoc, List.append_assoc, ← ih]
    simp [Spaced.chars]

def Style.member (st : Style) (before : List Char) (m : String × Json) : Member :=
  ⟨⟨before, st.writeStr m.1, []⟩, ⟨st.afterColon, st.write m.2, []⟩⟩

theorem Style.writeMembers_eq (first : Member) (members : List (String × Json)) :
    first.chars ++ st.writeMembers members = [','].intercalate
      ((first :: members.map (st.member st.afterComma)).map Member.chars) ++ ['}'] := by
  induction members generalizing first with
  | nil => simp [Style.writeMembers]
  | cons m members ih =>
    have ih := ih (st.member st.afterComma m)
    simp only [List.map_cons, List.intercalate_cons_cons] at ih ⊢
    rw [List.append_assoc (first.chars ++ [',']), ← ih]
    simp [Style.writeMembers, Style.member, Member.chars, Spaced.chars]

theorem Style.Grammatical.write (hst : st.Grammatical) {j : Json} (h : Numbered j) :
    Value (st.write j) := by
  induction j using Json.ind with
  | null => exact .null
  | bool b => cases b <;> constructor
  | num n =>
    cases h with
    | num hn => exact .number hn
  | str s => exact .string (hst.writeStr s)
  | arr items ih =>
    cases h with
    | arr hall =>
      cases items with
      | nil => exact Value.emptyArray (w := []) (by simp [Ws])
      | cons j items =>
        have hw := @Style.writeItems_eq st ⟨[], st.write j, []⟩ items
        simp only [Spaced.chars, List.nil_append, List.append_nil] at hw
        rw [Style.write, List.cons_append, hw]
        refine .array (by simp) ?_ ?_
        · intro i hi
          rcases List.mem_cons.mp hi with rfl | hi
          · simp [Spaced.Ok, Ws]
          · obtain ⟨k, -, rfl⟩ := List.mem_map.mp hi
            exact ⟨st.commaWs, by simp [Ws]⟩
        · intro i hi
          rcases List.mem_cons.mp hi with rfl | hi
          · exact ih j (by simp) (hall j (by simp))
          · obtain ⟨k, hk, rfl⟩ := List.mem_map.mp hi
            exact ih k (by simp [hk]) (hall k (by simp [hk]))
  | obj members ih =>
    cases h with
    | obj hall =>
      cases members with
      | nil => exact Value.emptyObject (w := []) (by simp [Ws])
      | cons m members =>
        have hw := @Style.writeMembers_eq st (st.member [] m) members
        have hfirst : st.write (.obj (m :: members)) =
            '{' :: ((st.member [] m).chars ++ st.writeMembers members) := by
          simp [Style.write, Style.member, Member.chars, Spaced.chars]
        rw [hfirst, hw]
        refine .object (by simp) ?_ ?_ ?_
        · have ok (before : List Char) (h : Ws before) (m : String × Json) :
              (st.member before m).key.Ok ∧ (st.member before m).value.Ok :=
            ⟨⟨h, by simp [Ws, Style.member]⟩, st.colonWs, by simp [Ws, Style.member]⟩
          intro i hi
          rcases List.mem_cons.mp hi with rfl | hi
          · exact ok [] (by simp [Ws]) m
          · obtain ⟨k, -, rfl⟩ := List.mem_map.mp hi
            exact ok _ st.commaWs k
        · intro i hi
          rcases List.mem_cons.mp hi with rfl | hi
          · exact hst.writeStr _
          · obtain ⟨k, -, rfl⟩ := List.mem_map.mp hi
            exact hst.writeStr _
        · intro i hi
          rcases List.mem_cons.mp hi with rfl | hi
          · exact ih _ (by simp) (hall _ (by simp))
          · obtain ⟨k, hk, rfl⟩ := List.mem_map.mp hi
            exact ih k (by simp [hk]) (hall k (by simp [hk]))

theorem objectText_text {cs : List Char} (h : ObjectText cs) : Text cs :=
  ⟨⟨[], cs, []⟩, ⟨by simp [Ws], by simp [Ws]⟩, h.1, by simp [Spaced.chars]⟩

theorem Style.Grammatical.object (hst : st.Grammatical) {members : List (String × Json)}
    (h : Numbered (.obj members)) : ObjectText (st.write (.obj members)) := by
  refine ⟨hst.write h, ?_⟩
  obtain ⟨c, cs, hw, hc⟩ := st.write_head (.obj members)
  simp only [firstChar] at hc
  rw [hw, hc, List.head?_cons]

end

theorem hexChar_isHex : ∀ n < 16, isHex (hexChar n) = true := by decide

theorem unicodeEscape_strChar {n : Nat} (h : n < 0x10000) : StrChar (unicodeEscape n) := by
  refine .unicode ?_
  simp only [List.forall_mem_cons, List.not_mem_nil, false_imp_iff, implies_true, and_true]
  exact ⟨hexChar_isHex _ (by omega), hexChar_isHex _ (by omega), hexChar_isHex _ (by omega),
    hexChar_isHex _ (by omega)⟩

theorem ascii_grammatical : ascii.Grammatical := by
  intro c
  have htop := (toNat_valid c).2
  change ∃ parts, _ ∧ asciiEscape c = _
  rcases asciiEscape_cases c with ⟨e, he, heq, -⟩ | ⟨hq, hb, hlow, -, heq⟩ | ⟨hlow, heq⟩ |
    ⟨hhigh, heq⟩
  · refine ⟨[['\\', e]], ?_, by simp [heq]⟩
    have hletter : e ∈ ['"', '\\', '/', 'b', 'f', 'n', 'r', 't'] := by
      simp only [List.mem_cons, List.not_mem_nil, or_false] at he ⊢
      tauto
    simpa using StrChar.escape hletter
  · exact ⟨[[c]], by simpa using StrChar.plain hq hb hlow, by simp [heq]⟩
  · exact ⟨[unicodeEscape c.toNat], by simpa using unicodeEscape_strChar hlow, by simp [heq]⟩
  · refine ⟨[unicodeEscape (0xD800 + (c.toNat - 0x10000) / 1024),
      unicodeEscape (0xDC00 + (c.toNat - 0x10000) % 1024)], ?_, by simp [heq]⟩
    simp only [List.forall_mem_cons, List.not_mem_nil, false_imp_iff, implies_true, and_true]
    exact ⟨unicodeEscape_strChar (by omega), unicodeEscape_strChar (by omega)⟩

def Printed (cs : List Char) : Prop := ∀ c ∈ cs, 0x20 ≤ c.toNat ∧ c.toNat ≤ 0x7E

instance (cs : List Char) : Decidable (Printed cs) := List.decidableBAll _ cs

theorem Printed.append {cs ds : List Char} (h : Printed cs) (h' : Printed ds) :
    Printed (cs ++ ds) := by
  intro c hc
  exact (List.mem_append.mp hc).elim (h c) (h' c)

theorem hexChar_printed : ∀ n < 16, 0x20 ≤ (hexChar n).toNat ∧ (hexChar n).toNat ≤ 0x7E := by
  decide

theorem unicodeEscape_printed {n : Nat} (h : n < 0x10000) : Printed (unicodeEscape n) := by
  unfold Printed unicodeEscape
  simp only [List.forall_mem_cons, List.not_mem_nil, false_imp_iff, implies_true, and_true]
  exact ⟨by decide, by decide, hexChar_printed _ (by omega), hexChar_printed _ (by omega),
    hexChar_printed _ (by omega), hexChar_printed _ (by omega)⟩

theorem asciiEscape_printed (c : Char) : Printed (asciiEscape c) := by
  have htop := (toNat_valid c).2
  rcases asciiEscape_cases c with ⟨e, he, heq, -⟩ | ⟨-, -, hlow, hhigh, heq⟩ | ⟨hlow, heq⟩ |
    ⟨hhigh, heq⟩
  · rw [heq]
    simp only [List.mem_cons, List.not_mem_nil, or_false] at he
    rcases he with rfl | rfl | rfl | rfl | rfl | rfl | rfl <;> decide
  · rw [heq]
    simpa [Printed] using ⟨hlow, hhigh⟩
  · rw [heq]
    exact unicodeEscape_printed hlow
  · rw [heq]
    exact (unicodeEscape_printed (by omega)).append (unicodeEscape_printed (by omega))

theorem writeStr_printed (s : String) : Printed (ascii.writeStr s) := by
  have hbody : Printed (s.toList.flatMap asciiEscape) := by
    intro c hc
    obtain ⟨d, -, hd⟩ := List.mem_flatMap.mp hc
    exact asciiEscape_printed d c hd
  have hquote : Printed ['"'] := by decide
  exact (hquote.append hbody).append hquote

theorem numChar_printed {c : Char} (h : numChar c = true) : 0x20 ≤ c.toNat ∧ c.toNat ≤ 0x7E := by
  simp only [numChar, Char.isDigit, Bool.or_eq_true, Bool.and_eq_true, decide_eq_true_eq,
    beq_iff_eq, ge_iff_le, UInt32.le_iff_toNat_le] at h
  rcases h with ((((h | rfl) | rfl) | rfl) | rfl) | rfl
  · obtain ⟨hlow, hhigh⟩ := h
    change 48 ≤ c.toNat at hlow
    change c.toNat ≤ 57 at hhigh
    omega
  all_goals decide

theorem write_printed (j : Json) : Printed (ascii.write j) := by
  induction j using Json.ind with
  | null => decide
  | bool b => cases b <;> decide
  | num n => exact fun c hc => numChar_printed (n.written.2 c hc)
  | str s => exact writeStr_printed s
  | arr items ih =>
    have tail (items : List Json) (h : ∀ j ∈ items, Printed (ascii.write j)) :
        Printed (ascii.writeItems items) := by
      induction items with
      | nil => decide
      | cons j items ihs =>
        have hcomma : Printed [',', ' '] := by decide
        exact (hcomma.append (h j (by simp))).append (ihs fun k hk => h k (by simp [hk]))
    cases items with
    | nil => decide
    | cons j items =>
      have hopen : Printed ['['] := by decide
      exact (hopen.append (ih j (by simp))).append (tail items fun k hk => ih k (by simp [hk]))
  | obj members ih =>
    have pair (m : String × Json) (hm : Printed (ascii.write m.2)) :
        Printed (ascii.writeStr m.1 ++ ':' :: ' ' :: ascii.write m.2) := by
      have hcolon : Printed [':', ' '] := by decide
      exact (writeStr_printed _).append (hcolon.append hm)
    have tail (members : List (String × Json)) (h : ∀ m ∈ members, Printed (ascii.write m.2)) :
        Printed (ascii.writeMembers members) := by
      induction members with
      | nil => decide
      | cons m members ihs =>
        have hcomma : Printed [',', ' '] := by decide
        have hall := (hcomma.append (pair m (h m (by simp)))).append
          (ihs fun k hk => h k (by simp [hk]))
        simpa [Style.writeMembers, ascii] using hall
    cases members with
    | nil => decide
    | cons m members =>
      have hopen : Printed ['{'] := by decide
      have hall := (hopen.append (pair m (ih m (by simp)))).append
        (tail members fun k hk => ih k (by simp [hk]))
      simpa [Style.write, ascii] using hall

/-- Two halves for a character beyond the first plane. -/
example : ascii.write (.obj [("a", .arr [.str "é\n", .str "😀"])]) =
    "\x7b\"a\": [\"\\u00e9\\n\", \"\\ud83d\\ude00\"]\x7d".toList := by decide

mutual
/-- How many brackets are open at most. -/
def depth : Json → Nat
  | .arr items => depthItems items + 1
  | .obj members => depthMembers members + 1
  | _ => 0

def depthItems : List Json → Nat
  | [] => 0
  | j :: items => max (depth j) (depthItems items)

def depthMembers : List (String × Json) → Nat
  | [] => 0
  | (_, j) :: members => max (depth j) (depthMembers members)
end

/-- Some of the members go no deeper than all of them. -/
theorem depth_filter (p : String × Json → Bool) (members : List (String × Json)) :
    (Json.obj (members.filter p)).depth ≤ (Json.obj members).depth := by
  simp only [depth]
  induction members with
  | nil => exact Nat.le_refl _
  | cons m members ih =>
    cases hp : p m with
    | true =>
      simp only [List.filter_cons_of_pos hp, depthMembers]
      omega
    | false =>
      simp only [List.filter_cons_of_neg (by simp [hp] : ¬ p m = true), depthMembers]
      omega

theorem Numbered.filter {members : List (String × Json)} (h : Numbered (.obj members))
    (p : String × Json → Bool) : Numbered (.obj (members.filter p)) := by
  cases h with
  | obj hall => exact .obj fun m hm => hall m (List.mem_of_mem_filter hm)

end BackendTemplates.Json
