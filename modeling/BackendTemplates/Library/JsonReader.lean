import Mathlib.Data.List.TakeWhile
import BackendTemplates.Library.Json
import BackendTemplates.Library.JsonGrammar

namespace BackendTemplates.Json
open JsonGrammar (isWs)

def skipWs (cs : List Char) : List Char := cs.dropWhile isWs

def hexDigit? (c : Char) : Option Nat :=
  if '0' ≤ c ∧ c ≤ '9' then some (c.toNat - 48)
  else if 'a' ≤ c ∧ c ≤ 'f' then some (c.toNat - 87)
  else if 'A' ≤ c ∧ c ≤ 'F' then some (c.toNat - 55)
  else none

/-- Four hexadecimal digits. -/
def hex4? : List Char → Option (Nat × List Char)
  | a :: b :: c :: d :: r => do
    let a ← hexDigit? a
    let b ← hexDigit? b
    let c ← hexDigit? c
    let d ← hexDigit? d
    some (4096 * a + 256 * b + 16 * c + d, r)
  | _ => none

/-- The digits after `\u`, and those of a second half if the first one asks for it. A half on
its own is no character. -/
def readUnicode (cs : List Char) : Option (Char × List Char) :=
  match hex4? cs with
  | none => none
  | some (n, r) =>
    if n < 0xD800 ∨ 0xE000 ≤ n then some (Char.ofNat n, r)
    else match r with
      | '\\' :: 'u' :: r =>
        match hex4? r with
        | none => none
        | some (m, r) =>
          if n < 0xDC00 ∧ 0xDC00 ≤ m ∧ m < 0xE000 then
            some (Char.ofNat (0x10000 + 1024 * (n - 0xD800) + (m - 0xDC00)), r)
          else none
      | _ => none

def simpleEscape? (c : Char) : Option Char :=
  if c = '"' then some '"'
  else if c = '\\' then some '\\'
  else if c = '/' then some '/'
  else if c = 'b' then some '\x08'
  else if c = 'f' then some '\x0c'
  else if c = 'n' then some '\n'
  else if c = 'r' then some '\r'
  else if c = 't' then some '\t'
  else none

/-- The next character of a string, unless its closing quote comes next. -/
def readChar : List Char → Option (Char × List Char)
  | [] => none
  | c :: r =>
    if c = '"' then none
    else if c = '\\' then
      match r with
      | [] => none
      | e :: r => if e = 'u' then readUnicode r else (simpleEscape? e).map (fun c => (c, r))
    else if c.toNat < 0x20 then none
    else some (c, r)

/-- A string behind its opening quote, of less than `n` characters. -/
def readStr : Nat → List Char → Option (List Char × List Char)
  | 0, _ => none
  | n + 1, cs =>
    match cs with
    | '"' :: r => some ([], r)
    | cs => (readChar cs).bind (fun x => (readStr n x.2).map (fun y => (x.1 :: y.1, y.2)))

def readNumber (cs : List Char) : Option (NumText × List Char) :=
  if h : cs.takeWhile numChar ≠ [] then
    some (⟨cs.takeWhile numChar, h, fun _ hc => List.mem_takeWhile_imp hc⟩, cs.dropWhile numChar)
  else none

mutual
/-- One value, and what follows it. The number bounds how deep and how far to look. -/
def read : Nat → List Char → Option (Json × List Char)
  | 0, _ => none
  | n + 1, cs =>
    match skipWs cs with
    | [] => none
    | c :: r =>
      match kindOf c with
      | 0 => if ['u', 'l', 'l'].isPrefixOf r then some (.null, r.drop 3) else none
      | 1 => if ['r', 'u', 'e'].isPrefixOf r then some (.bool true, r.drop 3) else none
      | 2 => if ['a', 'l', 's', 'e'].isPrefixOf r then some (.bool false, r.drop 4) else none
      | 4 => (readStr n r).map (fun x => (.str (String.ofList x.1), x.2))
      | 5 =>
        match skipWs r with
        | ']' :: r => some (.arr [], r)
        | r => (readItems n r).map (fun x => (.arr x.1, x.2))
      | 6 =>
        match skipWs r with
        | '}' :: r => some (.obj [], r)
        | r => (readMembers n r).map (fun x => (.obj x.1, x.2))
      | _ => (readNumber (c :: r)).map (fun x => (.num x.1, x.2))

def readItems : Nat → List Char → Option (List Json × List Char)
  | 0, _ => none
  | n + 1, cs =>
    (read n cs).bind fun x =>
      match skipWs x.2 with
      | ']' :: r => some ([x.1], r)
      | ',' :: r => (readItems n r).map (fun y => (x.1 :: y.1, y.2))
      | _ => none

def readMembers : Nat → List Char → Option (List (String × Json) × List Char)
  | 0, _ => none
  | n + 1, cs =>
    match skipWs cs with
    | '"' :: r =>
      (readStr n r).bind fun k =>
        match skipWs k.2 with
        | ':' :: r =>
          (read n r).bind fun x =>
            match skipWs x.2 with
            | '}' :: r => some ([(String.ofList k.1, x.1)], r)
            | ',' :: r => (readMembers n r).map (fun y => ((String.ofList k.1, x.1) :: y.1, y.2))
            | _ => none
        | _ => none
    | _ => none
end

/-- A whole text. -/
def ofChars (cs : List Char) : Option Json :=
  match read (cs.length + 1) cs with
  | some (j, r) => if skipWs r = [] then some j else none
  | none => none

/-- How a writer puts characters in a string, and what it leaves after a comma and a colon. -/
structure Style where
  esc : Char → List Char
  afterComma : List Char
  afterColon : List Char
  reads : ∀ c r, readChar (esc c ++ r) = some (c, r)
  commaWs : ∀ c ∈ afterComma, isWs c = true
  colonWs : ∀ c ∈ afterColon, isWs c = true

namespace Style
variable (st : Style)

def writeStr (s : String) : List Char := '"' :: s.toList.flatMap st.esc ++ ['"']

mutual
def write : Json → List Char
  | .null => ['n', 'u', 'l', 'l']
  | .bool true => ['t', 'r', 'u', 'e']
  | .bool false => ['f', 'a', 'l', 's', 'e']
  | .num n => n.chars
  | .str s => st.writeStr s
  | .arr [] => ['[', ']']
  | .arr (j :: items) => '[' :: write j ++ writeItems items
  | .obj [] => ['{', '}']
  | .obj ((k, j) :: members) =>
    '{' :: st.writeStr k ++ ':' :: st.afterColon ++ write j ++ writeMembers members

def writeItems : List Json → List Char
  | [] => [']']
  | j :: items => ',' :: st.afterComma ++ write j ++ writeItems items

def writeMembers : List (String × Json) → List Char
  | [] => ['}']
  | (k, j) :: members =>
    ',' :: st.afterComma ++ st.writeStr k ++ ':' :: st.afterColon ++ write j ++
      writeMembers members
end

variable {st}

theorem esc_ne_nil (c : Char) : st.esc c ≠ [] := by
  intro h
  have hr := st.reads c []
  rw [h] at hr
  cases hr

theorem readStr_of_char {n : Nat} {c : Char} {cs r : List Char}
    (h : readChar cs = some (c, r)) :
    readStr (n + 1) cs = (readStr n r).map (fun y => (c :: y.1, y.2)) := by
  conv => lhs; unfold readStr
  split
  · cases h
  · rw [h]
    rfl

theorem readStr_write {n : Nat} {s r : List Char} (h : s.length < n) :
    readStr n (s.flatMap st.esc ++ '"' :: r) = some (s, r) := by
  induction s generalizing n with
  | nil =>
    obtain ⟨n, rfl⟩ := Nat.exists_eq_add_of_lt h
    simp [readStr]
  | cons c s ih =>
    obtain ⟨m, rfl⟩ : ∃ m, n = m + 1 := ⟨n - 1, by simp at h; omega⟩
    rw [List.flatMap_cons, List.append_assoc, readStr_of_char (st.reads c _), ih (by simpa using h)]
    rfl

theorem length_flatMap_esc (s : List Char) : s.length ≤ (s.flatMap st.esc).length := by
  induction s with
  | nil => simp
  | cons c s ih =>
    have hpos := List.length_pos_of_ne_nil (st.esc_ne_nil c)
    simp only [List.flatMap_cons, List.length_append, List.length_cons]
    omega

theorem skipWs_cons {c : Char} {r : List Char} (h : isWs c = false) : skipWs (c :: r) = c :: r := by
  simp [skipWs, h]

theorem skipWs_append {w r : List Char} (h : ∀ c ∈ w, isWs c = true) :
    skipWs (w ++ r) = skipWs r := by
  induction w with
  | nil => rfl
  | cons c w ih =>
    simp only [skipWs, List.cons_append, h c (by simp), List.dropWhile_cons_of_pos] at ih ⊢
    exact ih (fun x hx => h x (by simp [hx]))

theorem write_head (j : Json) : ∃ c cs, st.write j = c :: cs ∧ firstChar j c := by
  cases j with
  | null => exact ⟨_, _, rfl, rfl⟩
  | bool b => cases b <;> exact ⟨_, _, rfl, rfl⟩
  | num n =>
    obtain ⟨hne, hall⟩ := n.written
    obtain ⟨c, cs, he⟩ := List.exists_cons_of_ne_nil hne
    exact ⟨c, cs, by simp [write, he], hall c (by simp [he])⟩
  | str s => exact ⟨_, _, rfl, rfl⟩
  | arr items => cases items <;> exact ⟨_, _, by simp only [write]; rfl, rfl⟩
  | obj members => rcases members with _ | ⟨⟨k, j⟩, ms⟩ <;>
      exact ⟨_, _, by simp only [write]; rfl, rfl⟩

theorem first_not_ws {j : Json} {c : Char} (h : firstChar j c) : isWs c = false := by
  rcases j with _ | ⟨_ | _⟩ | _ | _ | _ | _
  case num =>
    cases hw : isWs c with
    | false => rfl
    | true =>
      simp only [isWs, Bool.or_eq_true, beq_iff_eq] at hw
      rcases hw with ((rfl | rfl) | rfl) | rfl <;> revert h <;> simp [firstChar, numChar]
  all_goals
    simp only [firstChar] at h
    subst c
    rfl

theorem readNumber_chars {n : NumText} {r : List Char} (h : Ends r) :
    readNumber (n.chars ++ r) = some (n, r) := by
  have htake : (n.chars ++ r).takeWhile numChar = n.chars := by
    rw [List.takeWhile_append_of_pos n.written.2]
    cases r with
    | nil => simp
    | cons c r => simp [h c (by simp)]
  have hdrop : (n.chars ++ r).dropWhile numChar = r := by
    rw [List.dropWhile_append_of_pos n.written.2]
    cases r with
    | nil => rfl
    | cons c r => simp [h c (by simp)]
  unfold readNumber
  simp only [htake, hdrop, n.written.1, ne_eq, not_false_eq_true, dite_true]

/-- Reading undoes writing, whatever follows that is not more of a number. -/
def Reads (st : Style) (j : Json) : Prop :=
  ∀ n r, (st.write j).length ≤ n → Ends r → read n (st.write j ++ r) = some (j, r)

theorem ends_writeItems (items : List Json) (r : List Char) : Ends (st.writeItems items ++ r) := by
  cases items <;> intro c hc <;> simp [writeItems] at hc <;> subst hc <;> decide

theorem ends_writeMembers (members : List (String × Json)) (r : List Char) :
    Ends (st.writeMembers members ++ r) := by
  cases members <;> intro c hc <;> simp [writeMembers] at hc <;> subst hc <;> decide

theorem read_ws {n : Nat} {w cs : List Char} (h : ∀ c ∈ w, isWs c = true) :
    read n (w ++ cs) = read n cs := by
  cases n with
  | zero => rfl
  | succ n => simp only [read, skipWs_append h]

theorem readItems_write {j : Json} {items : List Json} (hj : Reads st j)
    (h : ∀ x ∈ items, Reads st x) {n : Nat} {w r : List Char} (hw : ∀ c ∈ w, isWs c = true)
    (hn : (st.write j).length + (st.writeItems items).length ≤ n) :
    readItems n (w ++ (st.write j ++ (st.writeItems items ++ r))) = some (j :: items, r) := by
  induction items generalizing j n w with
  | nil =>
    simp only [writeItems, List.length_singleton] at hn
    obtain ⟨n, rfl⟩ : ∃ m, n = m + 1 := ⟨n - 1, by omega⟩
    rw [readItems, read_ws hw, hj n _ (by omega) (ends_writeItems [] r)]
    rfl
  | cons x items ih =>
    simp only [writeItems, List.length_append, List.length_cons] at hn
    obtain ⟨n, rfl⟩ : ∃ m, n = m + 1 := ⟨n - 1, by omega⟩
    rw [readItems, read_ws hw, hj n _ (by omega) (ends_writeItems (x :: items) r)]
    simp only [writeItems, List.cons_append, List.append_assoc, Option.bind_some]
    rw [skipWs_cons (by decide)]
    simp only
    rw [ih (h x (by simp)) (fun y hy => h y (by simp [hy])) st.commaWs (by omega)]
    rfl

/-- One member, up to what stands behind it. -/
theorem readMembers_member {k : String} {j : Json} (hj : Reads st j) {n : Nat}
    {w rest : List Char} (hw : ∀ c ∈ w, isWs c = true) (hrest : Ends rest)
    (hk : k.toList.length < n) (hn : (st.write j).length ≤ n) :
    readMembers (n + 1) (w ++ (st.writeStr k ++ ':' :: (st.afterColon ++ (st.write j ++ rest)))) =
      match skipWs rest with
      | '}' :: r => some ([(k, j)], r)
      | ',' :: r => (readMembers n r).map (fun y => ((k, j) :: y.1, y.2))
      | _ => none := by
  rw [readMembers, skipWs_append hw]
  simp only [writeStr, List.cons_append, List.append_assoc, List.nil_append]
  rw [skipWs_cons (by decide)]
  simp only [readStr_write hk, Option.bind_some]
  rw [skipWs_cons (by decide)]
  simp only [read_ws st.colonWs, hj n _ hn hrest, Option.bind_some, String.ofList_toList]

theorem readMembers_write {k : String} {j : Json} {members : List (String × Json)}
    (hj : Reads st j) (h : ∀ m ∈ members, Reads st m.2) {n : Nat} {w r : List Char}
    (hw : ∀ c ∈ w, isWs c = true)
    (hn : (st.writeStr k).length + (st.write j).length + (st.writeMembers members).length ≤ n) :
    readMembers n (w ++ (st.writeStr k ++ ':' :: (st.afterColon ++ (st.write j ++
      (st.writeMembers members ++ r))))) = some ((k, j) :: members, r) := by
  have length_lt (k : String) : k.toList.length < (st.writeStr k).length := by
    have hs := @length_flatMap_esc st k.toList
    simp only [writeStr, List.length_append, List.length_cons]
    omega
  induction members generalizing k j n w with
  | nil =>
    simp only [writeMembers, List.length_singleton] at hn
    have hk := length_lt k
    obtain ⟨n, rfl⟩ : ∃ m, n = m + 1 := ⟨n - 1, by omega⟩
    rw [readMembers_member hj hw (ends_writeMembers [] r) (by omega) (by omega)]
    rfl
  | cons m members ih =>
    obtain ⟨k', j'⟩ := m
    simp only [writeMembers, List.length_append, List.length_cons] at hn
    have hk := length_lt k
    obtain ⟨n, rfl⟩ : ∃ m, n = m + 1 := ⟨n - 1, by omega⟩
    rw [readMembers_member hj hw (ends_writeMembers _ r) (by omega) (by omega)]
    simp only [writeMembers, List.cons_append, List.append_assoc]
    rw [skipWs_cons (by decide)]
    simp only
    rw [ih (show Reads st j' from h (k', j') (by simp)) (fun m hm => h m (by simp [hm]))
      st.commaWs (by omega)]
    rfl

theorem read_dispatch {n : Nat} {c : Char} {r : List Char} (h : isWs c = false) :
    read (n + 1) (c :: r) =
      match kindOf c with
      | 0 => if ['u', 'l', 'l'].isPrefixOf r then some (.null, r.drop 3) else none
      | 1 => if ['r', 'u', 'e'].isPrefixOf r then some (.bool true, r.drop 3) else none
      | 2 => if ['a', 'l', 's', 'e'].isPrefixOf r then some (.bool false, r.drop 4) else none
      | 4 => (readStr n r).map (fun x => (.str (String.ofList x.1), x.2))
      | 5 =>
        match skipWs r with
        | ']' :: r => some (.arr [], r)
        | r => (readItems n r).map (fun x => (.arr x.1, x.2))
      | 6 =>
        match skipWs r with
        | '}' :: r => some (.obj [], r)
        | r => (readMembers n r).map (fun x => (.obj x.1, x.2))
      | _ => (readNumber (c :: r)).map (fun x => (.num x.1, x.2)) := by
  rw [read, skipWs_cons h]

theorem read_write (j : Json) : Reads st j := by
  induction j using Json.ind with
  | null =>
    intro n r hn _
    obtain ⟨n, rfl⟩ : ∃ m, n = m + 1 := ⟨n - 1, by simp [write] at hn; omega⟩
    simp only [write, List.cons_append, List.nil_append]
    rw [read_dispatch (by decide)]
    simp [kindOf]
  | bool b =>
    intro n r hn _
    cases b <;>
      (obtain ⟨n, rfl⟩ : ∃ m, n = m + 1 := ⟨n - 1, by simp [write] at hn; omega⟩
       simp only [write, List.cons_append, List.nil_append]
       rw [read_dispatch (by decide)]
       simp [kindOf])
  | num x =>
    intro n r hn hr
    obtain ⟨c, cs, hcs, hc⟩ := @write_head st (.num x)
    have hx : x.chars = c :: cs := by simpa [write] using hcs
    obtain ⟨n, rfl⟩ : ∃ m, n = m + 1 := ⟨n - 1, by rw [hcs, List.length_cons] at hn; omega⟩
    simp only [write]
    rw [hx, List.cons_append, read_dispatch (first_not_ws hc)]
    simp only [kindOf_numChar (show numChar c = true from hc)]
    rw [← List.cons_append, ← hx, readNumber_chars hr]
    rfl
  | str s =>
    intro n r hn _
    have hs := @length_flatMap_esc st s.toList
    simp only [write, writeStr, List.length_append, List.length_cons] at hn
    obtain ⟨n, rfl⟩ : ∃ m, n = m + 1 := ⟨n - 1, by omega⟩
    simp only [write, writeStr, List.cons_append, List.append_assoc, List.nil_append]
    rw [read_dispatch (by decide), readStr_write (by omega)]
    simp [kindOf]
  | arr items ih =>
    intro n r hn _
    cases items with
    | nil =>
      obtain ⟨n, rfl⟩ : ∃ m, n = m + 1 := ⟨n - 1, by simp [write] at hn; omega⟩
      simp only [write, List.cons_append, List.nil_append]
      rw [read_dispatch (by decide), skipWs_cons (by decide)]
      simp [kindOf]
    | cons j items =>
      simp only [write, List.length_append, List.length_cons] at hn
      obtain ⟨n, rfl⟩ : ∃ m, n = m + 1 := ⟨n - 1, by omega⟩
      obtain ⟨c, cs, hcs, hc⟩ := @write_head st j
      have hskip : skipWs (st.write j ++ (st.writeItems items ++ r)) =
          st.write j ++ (st.writeItems items ++ r) := by
        rw [hcs, List.cons_append, skipWs_cons (first_not_ws hc)]
      have hne : c ≠ ']' := by
        rintro rfl
        exact (closing_not_first j).1 hc
      have hitems : readItems n ([] ++ (st.write j ++ (st.writeItems items ++ r))) =
          some (j :: items, r) :=
        readItems_write (ih j (by simp)) (fun x hx => ih x (by simp [hx])) (by simp) (by omega)
      simp only [write, List.cons_append, List.append_assoc]
      rw [read_dispatch (by decide), hskip]
      simp only [show kindOf '[' = 5 by decide]
      split
      · rename_i htext
        rw [hcs, List.cons_append] at htext
        exact absurd (List.cons.inj htext).1 hne
      · simp only [List.nil_append] at hitems
        rw [hitems]
        rfl
  | obj members ih =>
    intro n r hn _
    cases members with
    | nil =>
      obtain ⟨n, rfl⟩ : ∃ m, n = m + 1 := ⟨n - 1, by simp [write] at hn; omega⟩
      simp only [write, List.cons_append, List.nil_append]
      rw [read_dispatch (by decide), skipWs_cons (by decide)]
      simp [kindOf]
    | cons m members =>
      obtain ⟨k, j⟩ := m
      simp only [write, List.length_append, List.length_cons] at hn
      obtain ⟨n, rfl⟩ : ∃ m, n = m + 1 := ⟨n - 1, by omega⟩
      have hmembers : readMembers n ([] ++ (st.writeStr k ++ ':' :: (st.afterColon ++
          (st.write j ++ (st.writeMembers members ++ r))))) = some ((k, j) :: members, r) :=
        readMembers_write (show Reads st j from ih (k, j) (by simp))
          (fun m hm => ih m (by simp [hm])) (by simp) (by omega)
      simp only [write, List.cons_append, List.append_assoc]
      rw [read_dispatch (by decide)]
      simp only [writeStr, List.cons_append, List.nil_append] at hmembers ⊢
      rw [skipWs_cons (by decide)]
      simp only [show kindOf '{' = 6 by decide]
      split
      · rename_i htext
        exact absurd (List.cons.inj htext).1 (by decide)
      · rw [hmembers]
        rfl

theorem ofChars_write (j : Json) : ofChars (st.write j) = some j := by
  have h := @read_write st j ((st.write j).length + 1) [] (by omega) (by simp [Ends])
  simp only [List.append_nil] at h
  simp [ofChars, h, skipWs]

end Style

theorem hexDigit_hexChar : ∀ n < 16, hexDigit? (hexChar n) = some n := by decide

theorem readChar_plain {c : Char} {r : List Char} (hq : c ≠ '"') (hb : c ≠ '\\')
    (hc : 0x20 ≤ c.toNat) : readChar (c :: r) = some (c, r) := by
  simp [readChar, hq, hb, hc]

theorem readChar_escape (c : Char) (r : List Char) : readChar (escape c ++ r) = some (c, r) := by
  unfold escape
  split
  · rename_i h; subst h; rfl
  split
  · rename_i h; subst h; rfl
  split
  · rename_i h; subst h; rfl
  split
  · rename_i h; subst h; rfl
  split
  · rename_i h; subst h; rfl
  split
  · rename_i h; subst h; rfl
  split
  · rename_i h; subst h; rfl
  split
  · rename_i hlt
    have h₁ := hexDigit_hexChar (c.toNat / 16) (by omega)
    have h₂ := hexDigit_hexChar (c.toNat % 16) (by omega)
    have h₀ : hexDigit? '0' = some 0 := by decide
    have hc : 16 * (c.toNat / 16) + c.toNat % 16 = c.toNat := by omega
    have hsmall : c.toNat < 0xD800 := by omega
    simp [readChar, readUnicode, hex4?, h₀, h₁, h₂, hc, hsmall]
  · rename_i hq hb _ _ _ _ _ hc
    exact readChar_plain hq hb (by omega)

def compact : Style := ⟨escape, [], [], readChar_escape, by simp, by simp⟩

theorem encode_eq_write (j : Json) : j.encode = compact.write j := by
  induction j using Json.ind with
  | null => rfl
  | bool b => cases b <;> rfl
  | num n => rfl
  | str s => rfl
  | arr items ih =>
    have tail : ∀ items : List Json, (∀ j ∈ items, j.encode = compact.write j) →
        encodeItems items = compact.writeItems items := by
      intro items hi
      induction items with
      | nil => rfl
      | cons j items ih' =>
        rw [encodeItems, Style.writeItems, hi j (by simp), ih' (fun x hx => hi x (by simp [hx]))]
        rfl
    cases items with
    | nil => rfl
    | cons j items =>
      rw [encode, Style.write, ih j (by simp), tail items (fun x hx => ih x (by simp [hx]))]
  | obj members ih =>
    have tail : ∀ members : List (String × Json),
        (∀ m ∈ members, m.2.encode = compact.write m.2) →
        encodeMembers members = compact.writeMembers members := by
      intro members hm
      induction members with
      | nil => rfl
      | cons m members ih' =>
        obtain ⟨k, j⟩ := m
        rw [encodeMembers, Style.writeMembers, hm (k, j) (by simp),
          ih' (fun x hx => hm x (by simp [hx]))]
        simp [compact, encodeStr, Style.writeStr]
    rcases members with _ | ⟨⟨k, j⟩, members⟩
    · rfl
    · rw [encode, Style.write, ih (k, j) (by simp), tail members (fun m hm => ih m (by simp [hm]))]
      simp [compact, encodeStr, Style.writeStr]

/-- Any value is read back from its compact text. -/
theorem ofChars_text (j : Json) : ofChars j.text.toList = some j := by
  rw [text, String.toList_ofList, encode_eq_write, Style.ofChars_write]

end BackendTemplates.Json
