import Mathlib.Data.List.Sort

namespace BackendTemplates

/-- The characters a JSON number can be written with. None of them starts or
follows any other kind of value. -/
def numChar (c : Char) : Bool :=
  c.isDigit || c == '-' || c == '+' || c == '.' || c == 'e' || c == 'E'

/-- A number, identified by the text it is written as. -/
structure NumText where
  chars : List Char
  written : chars ≠ [] ∧ ∀ c ∈ chars, numChar c = true

/-- A JSON value. The members of an object keep the order of the dict they come
from, so two objects with the same members need not be equal. -/
inductive Json where
  | null
  | bool (b : Bool)
  | num (n : NumText)
  | str (s : String)
  | arr (items : List Json)
  | obj (members : List (String × Json))

namespace Json

/-- Induction over a value and everything nested in it. -/
theorem ind {P : Json → Prop} (null : P .null) (bool : ∀ b, P (.bool b)) (num : ∀ n, P (.num n))
    (str : ∀ s, P (.str s)) (arr : ∀ items, (∀ j ∈ items, P j) → P (.arr items))
    (obj : ∀ members, (∀ m ∈ members, P m.2) → P (.obj members)) (j : Json) : P j := by
  match j with
  | .null => exact null
  | .bool b => exact bool b
  | .num n => exact num n
  | .str s => exact str s
  | .arr items => exact arr items (fun j _ => ind null bool num str arr obj j)
  | .obj members => exact obj members (fun m _ => ind null bool num str arr obj m.2)
termination_by sizeOf j
decreasing_by
  · have h := List.sizeOf_lt_of_mem ‹_ ∈ items›
    simp only [Json.arr.sizeOf_spec]
    omega
  · have h := List.sizeOf_lt_of_mem ‹_ ∈ members›
    have hm : sizeOf m.2 < sizeOf m := by
      cases m
      simp only [Prod.mk.sizeOf_spec]
      omega
    simp only [Json.obj.sizeOf_spec]
    omega

def hexChar (n : Nat) : Char := ['0', '1', '2', '3', '4', '5', '6', '7', '8', '9',
  'a', 'b', 'c', 'd', 'e', 'f'].getD n '0'

/-- A character inside a JSON string. -/
def escape (c : Char) : List Char :=
  if c = '"' then ['\\', '"']
  else if c = '\\' then ['\\', '\\']
  else if c = '\x08' then ['\\', 'b']
  else if c = '\t' then ['\\', 't']
  else if c = '\n' then ['\\', 'n']
  else if c = '\x0c' then ['\\', 'f']
  else if c = '\r' then ['\\', 'r']
  else if c.toNat < 0x20 then ['\\', 'u', '0', '0', hexChar (c.toNat / 16), hexChar (c.toNat % 16)]
  else [c]

def encodeStr (s : String) : List Char := '"' :: s.toList.flatMap escape ++ ['"']

mutual
/-- Compact JSON text, objects in the order of their members. -/
def encode : Json → List Char
  | .null => ['n', 'u', 'l', 'l']
  | .bool true => ['t', 'r', 'u', 'e']
  | .bool false => ['f', 'a', 'l', 's', 'e']
  | .num n => n.chars
  | .str s => encodeStr s
  | .arr [] => ['[', ']']
  | .arr (j :: items) => '[' :: encode j ++ encodeItems items
  | .obj [] => ['{', '}']
  | .obj ((k, j) :: members) => '{' :: encodeStr k ++ ':' :: encode j ++ encodeMembers members

/-- The items after the first, up to the closing bracket. -/
def encodeItems : List Json → List Char
  | [] => [']']
  | j :: items => ',' :: encode j ++ encodeItems items

def encodeMembers : List (String × Json) → List Char
  | [] => ['}']
  | (k, j) :: members => ',' :: encodeStr k ++ ':' :: encode j ++ encodeMembers members
end

def text (j : Json) : String := String.ofList j.encode

/-- What follows cannot be read as more of a number. -/
def Ends (r : List Char) : Prop := ∀ c ∈ r.head?, numChar c = false

def hexVal (c : Char) : Nat :=
  ['0', '1', '2', '3', '4', '5', '6', '7', '8', '9', 'a', 'b', 'c', 'd', 'e', 'f'].idxOf c

/-- The first character of a string's text, undone. -/
def unescape : List Char → Option (Char × List Char)
  | '"' :: _ => none
  | '\\' :: 'u' :: _ :: _ :: h :: l :: r => some (Char.ofNat (16 * hexVal h + hexVal l), r)
  | '\\' :: 'b' :: r => some ('\x08', r)
  | '\\' :: 't' :: r => some ('\t', r)
  | '\\' :: 'n' :: r => some ('\n', r)
  | '\\' :: 'f' :: r => some ('\x0c', r)
  | '\\' :: 'r' :: r => some ('\r', r)
  | '\\' :: c :: r => some (c, r)
  | c :: r => some (c, r)
  | [] => none

theorem hexVal_hexChar : ∀ n < 16, hexVal (hexChar n) = n := by decide

theorem unescape_quote (r : List Char) : unescape ('"' :: r) = none := rfl

theorem unescape_plain (c : Char) (r : List Char) (hq : c ≠ '"') (hb : c ≠ '\\') :
    unescape (c :: r) = some (c, r) := by
  unfold unescape
  split <;> simp_all

theorem unescape_escape (c : Char) (r : List Char) : unescape (escape c ++ r) = some (c, r) := by
  unfold escape
  split
  · rename_i h; subst h; rfl
  split
  · rename_i h; subst h; rfl
  split
  · rename_i h; subst h; rfl
  split
  · rename_i h; subst h; rfl
  split
  · rename_i h; subst h; rfl
  split
  · rename_i h; subst h; rfl
  split
  · rename_i h; subst h; rfl
  split
  · rename_i hlt
    have h1 := hexVal_hexChar (c.toNat / 16) (by omega)
    have h2 := hexVal_hexChar (c.toNat % 16) (by omega)
    have hc : 16 * (c.toNat / 16) + c.toNat % 16 = c.toNat := by omega
    simp only [List.cons_append, List.nil_append, unescape, h1, h2, hc, Char.ofNat_toNat]
  · rename_i hq hb _ _ _ _ _ _
    exact unescape_plain c r hq hb

/-- The text of a string determines the string and where it ends. -/
theorem chars_unambiguous {s s' : List Char} {r r' : List Char}
    (h : s.flatMap escape ++ '"' :: r = s'.flatMap escape ++ '"' :: r') : s = s' ∧ r = r' := by
  induction s generalizing s' with
  | nil =>
    cases s' with
    | nil => simpa using h
    | cons c' s' =>
      have hu := congrArg unescape h
      simp only [List.flatMap_nil, List.nil_append, List.flatMap_cons, List.append_assoc,
        unescape_quote, unescape_escape, reduceCtorEq] at hu
  | cons c s ih =>
    cases s' with
    | nil =>
      have hu := congrArg unescape h
      simp only [List.flatMap_nil, List.nil_append, List.flatMap_cons, List.append_assoc,
        unescape_quote, unescape_escape, reduceCtorEq] at hu
    | cons c' s' =>
      have hu := congrArg unescape h
      simp only [List.flatMap_cons, List.append_assoc, unescape_escape, Option.some.injEq,
        Prod.mk.injEq] at hu
      obtain ⟨rfl, ht⟩ := hu
      obtain ⟨rfl, hr⟩ := ih ht
      exact ⟨rfl, hr⟩

theorem str_unambiguous {s s' : String} {r r' : List Char}
    (h : encodeStr s ++ r = encodeStr s' ++ r') : s = s' ∧ r = r' := by
  simp only [encodeStr, List.cons_append, List.append_assoc, List.cons.injEq, true_and,
    List.nil_append] at h
  obtain ⟨hs, hr⟩ := chars_unambiguous h
  exact ⟨String.toList_inj.mp hs, hr⟩

theorem num_unambiguous {n n' : NumText} {r r' : List Char} (hr : Ends r) (hr' : Ends r')
    (h : n.chars ++ r = n'.chars ++ r') : n = n' ∧ r = r' := by
  have take (m : NumText) (q : List Char) (hq : Ends q) :
      (m.chars ++ q).takeWhile numChar = m.chars := by
    rw [List.takeWhile_append_of_pos m.written.2]
    cases q with
    | nil => simp
    | cons c q => simp [hq c (by simp)]
  have he : n.chars = n'.chars := by
    rw [← take n r hr, ← take n' r' hr', h]
  refine ⟨by cases n; cases n'; simp_all, ?_⟩
  rw [he] at h
  exact List.append_cancel_left h

theorem ends_items (items : List Json) (r : List Char) : Ends (encodeItems items ++ r) := by
  cases items <;> intro c hc <;> simp [encodeItems] at hc <;> subst hc <;> decide

theorem ends_members (members : List (String × Json)) (r : List Char) :
    Ends (encodeMembers members ++ r) := by
  cases members <;> intro c hc <;> simp [encodeMembers] at hc <;> subst hc <;> decide

/-- The character a value's text starts with tells its kind. -/
def firstChar : Json → Char → Prop
  | .null, c => c = 'n'
  | .bool b, c => c = if b then 't' else 'f'
  | .num _, c => numChar c = true
  | .str _, c => c = '"'
  | .arr _, c => c = '['
  | .obj _, c => c = '{'

theorem encode_head (j : Json) : ∃ c cs, j.encode = c :: cs ∧ firstChar j c := by
  cases j with
  | null => exact ⟨_, _, rfl, rfl⟩
  | bool b => cases b <;> exact ⟨_, _, rfl, rfl⟩
  | num n =>
    obtain ⟨hne, hall⟩ := n.written
    obtain ⟨c, cs, he⟩ := List.exists_cons_of_ne_nil hne
    exact ⟨c, cs, by simp [encode, he], hall c (by simp [he])⟩
  | str s => exact ⟨_, _, rfl, rfl⟩
  | arr items => cases items <;> exact ⟨_, _, by simp only [encode]; rfl, rfl⟩
  | obj members => rcases members with _ | ⟨⟨k, j⟩, ms⟩ <;>
      exact ⟨_, _, by simp only [encode]; rfl, rfl⟩

def kind : Json → Nat
  | .null => 0
  | .bool true => 1
  | .bool false => 2
  | .num _ => 3
  | .str _ => 4
  | .arr _ => 5
  | .obj _ => 6

def kindOf (c : Char) : Nat :=
  if c = 'n' then 0 else if c = 't' then 1 else if c = 'f' then 2
  else if c = '"' then 4 else if c = '[' then 5 else if c = '{' then 6 else 3

theorem kindOf_numChar {c : Char} (h : numChar c = true) : kindOf c = 3 := by
  unfold kindOf
  repeat' split
  all_goals first | rfl | (subst c; revert h; decide)

theorem kindOf_first {j : Json} {c : Char} (h : firstChar j c) : kindOf c = j.kind := by
  rcases j with _ | ⟨_ | _⟩ | _ | _ | _ | _
  case num => exact kindOf_numChar h
  all_goals
    simp only [firstChar] at h
    subst c
    rfl

theorem closing_not_first (j : Json) : ¬ firstChar j ']' ∧ ¬ firstChar j '}' := by
  rcases j with _ | ⟨_ | _⟩ | _ | _ | _ | _ <;> simp only [firstChar] <;> decide

theorem encode_kind {j j' : Json} {r r' : List Char} (h : j.encode ++ r = j'.encode ++ r') :
    j.kind = j'.kind := by
  obtain ⟨c, cs, he, hc⟩ := encode_head j
  obtain ⟨c', cs', he', hc'⟩ := encode_head j'
  rw [he, he', List.cons_append, List.cons_append] at h
  obtain ⟨rfl, _⟩ := List.cons.inj h
  exact (kindOf_first hc).symm.trans (kindOf_first hc')

/-- Two texts that agree are texts of the same value with the same rest. -/
def Unambiguous (j : Json) : Prop :=
  ∀ {j' : Json} {r r' : List Char}, Ends r → Ends r' →
    j.encode ++ r = j'.encode ++ r' → j = j' ∧ r = r'

theorem items_unambiguous {items items' : List Json} {r r' : List Char}
    (hu : ∀ j ∈ items, Unambiguous j)
    (h : encodeItems items ++ r = encodeItems items' ++ r') : items = items' ∧ r = r' := by
  induction items generalizing items' with
  | nil =>
    cases items' with
    | nil => simpa [encodeItems] using h
    | cons j' items' => simp [encodeItems] at h
  | cons j items ih =>
    cases items' with
    | nil => simp [encodeItems] at h
    | cons j' items' =>
      simp only [encodeItems, List.cons_append, List.append_assoc, List.cons.injEq, true_and] at h
      obtain ⟨rfl, ht⟩ := hu j (by simp) (ends_items items r) (ends_items items' r') h
      obtain ⟨rfl, hr⟩ := ih (fun x hx => hu x (by simp [hx])) ht
      exact ⟨rfl, hr⟩

theorem members_unambiguous {members members' : List (String × Json)} {r r' : List Char}
    (hu : ∀ m ∈ members, Unambiguous m.2)
    (h : encodeMembers members ++ r = encodeMembers members' ++ r') :
    members = members' ∧ r = r' := by
  induction members generalizing members' with
  | nil =>
    rcases members' with _ | ⟨⟨k', j'⟩, members'⟩
    · simpa [encodeMembers] using h
    · simp [encodeMembers] at h
  | cons m members ih =>
    obtain ⟨k, j⟩ := m
    rcases members' with _ | ⟨⟨k', j'⟩, members'⟩
    · simp [encodeMembers] at h
    · simp only [encodeMembers, List.cons_append, List.append_assoc, List.cons.injEq,
        true_and] at h
      obtain ⟨rfl, hv⟩ := str_unambiguous h
      obtain ⟨_, hv⟩ := List.cons.inj hv
      obtain ⟨rfl, ht⟩ := hu (k, j) (by simp) (ends_members members r) (ends_members members' r') hv
      obtain ⟨rfl, hr⟩ := ih (fun x hx => hu x (by simp [hx])) ht
      exact ⟨rfl, hr⟩

theorem arr_unambiguous {items items' : List Json} {r r' : List Char}
    (hu : ∀ j ∈ items, Unambiguous j)
    (h : (arr items).encode ++ r = (arr items').encode ++ r') : items = items' ∧ r = r' := by
  cases items with
  | nil =>
    cases items' with
    | nil => exact ⟨rfl, by simpa [encode] using h⟩
    | cons j' items' =>
      obtain ⟨c, cs, he, hc⟩ := encode_head j'
      simp only [encode, he, List.cons_append, List.cons.injEq, true_and] at h
      obtain ⟨rfl, _⟩ := h
      exact absurd hc (closing_not_first j').1
  | cons j items =>
    cases items' with
    | nil =>
      obtain ⟨c, cs, he, hc⟩ := encode_head j
      simp only [encode, he, List.cons_append, List.cons.injEq, true_and] at h
      obtain ⟨rfl, _⟩ := h
      exact absurd hc (closing_not_first j).1
    | cons j' items' =>
      simp only [encode, List.cons_append, List.append_assoc, List.cons.injEq, true_and] at h
      obtain ⟨rfl, ht⟩ := hu j (by simp) (ends_items items r) (ends_items items' r') h
      obtain ⟨rfl, hr⟩ := items_unambiguous (fun x hx => hu x (by simp [hx])) ht
      exact ⟨rfl, hr⟩

theorem obj_unambiguous {members members' : List (String × Json)} {r r' : List Char}
    (hu : ∀ m ∈ members, Unambiguous m.2)
    (h : (obj members).encode ++ r = (obj members').encode ++ r') :
    members = members' ∧ r = r' := by
  rcases members with _ | ⟨⟨k, j⟩, members⟩ <;> rcases members' with _ | ⟨⟨k', j'⟩, members'⟩
  · exact ⟨rfl, by simpa [encode] using h⟩
  · simp [encode, encodeStr] at h
  · simp [encode, encodeStr] at h
  · simp only [encode, List.cons_append, List.append_assoc, List.cons.injEq, true_and] at h
    obtain ⟨rfl, hv⟩ := str_unambiguous h
    obtain ⟨_, hv⟩ := List.cons.inj hv
    obtain ⟨rfl, ht⟩ := hu (k, j) (by simp) (ends_members members r) (ends_members members' r') hv
    obtain ⟨rfl, hr⟩ := members_unambiguous (fun x hx => hu x (by simp [hx])) ht
    exact ⟨rfl, hr⟩

theorem encode_unambiguous (j : Json) : Unambiguous j := by
  induction j using ind with
  | null =>
    intro j' r r' _ _ h
    have hk := encode_kind h
    rcases j' with _ | ⟨_ | _⟩ | _ | _ | _ | _ <;> cases hk
    exact ⟨rfl, List.append_cancel_left h⟩
  | bool b =>
    intro j' r r' _ _ h
    have hk := encode_kind h
    cases b <;> rcases j' with _ | ⟨_ | _⟩ | _ | _ | _ | _ <;> cases hk
    all_goals exact ⟨rfl, List.append_cancel_left h⟩
  | num n =>
    intro j' r r' hr hr' h
    have hk := encode_kind h
    rcases j' with _ | ⟨_ | _⟩ | n' | _ | _ | _ <;> cases hk
    obtain ⟨rfl, hr⟩ := num_unambiguous hr hr' h
    exact ⟨rfl, hr⟩
  | str s =>
    intro j' r r' _ _ h
    have hk := encode_kind h
    rcases j' with _ | ⟨_ | _⟩ | _ | s' | _ | _ <;> cases hk
    obtain ⟨rfl, hr⟩ := str_unambiguous h
    exact ⟨rfl, hr⟩
  | arr items ih =>
    intro j' r r' _ _ h
    have hk := encode_kind h
    rcases j' with _ | ⟨_ | _⟩ | _ | _ | items' | _ <;> cases hk
    obtain ⟨he, hr⟩ := arr_unambiguous ih h
    exact ⟨by rw [he], hr⟩
  | obj members ih =>
    intro j' r r' _ _ h
    have hk := encode_kind h
    rcases j' with _ | ⟨_ | _⟩ | _ | _ | _ | members' <;> cases hk
    obtain ⟨he, hr⟩ := obj_unambiguous ih h
    exact ⟨by rw [he], hr⟩

theorem encode_injective {j j' : Json} (h : j.encode = j'.encode) : j = j' :=
  have he : Ends [] := by simp [Ends]
  (encode_unambiguous j he he (congrArg (· ++ []) h)).1

theorem text_injective {j j' : Json} (h : j.text = j'.text) : j = j' :=
  encode_injective (String.ofList_injective h)

end Json
end BackendTemplates
