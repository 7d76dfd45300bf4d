import Mathlib.Data.Nat.ModEq
import Mathlib.Tactic.Ring

namespace BackendTemplates.Python

def isLeap (year : Nat) : Bool := year % 4 == 0 && (year % 100 != 0 || year % 400 == 0)

def daysInMonth (year month : Nat) : Nat :=
  if month = 2 then (if isLeap year then 29 else 28)
  else if month = 4 ∨ month = 6 ∨ month = 9 ∨ month = 11 then 30 else 31

/-- The civil fields `datetime` accepts. -/
structure CivilFields where
  year : Nat
  month : Nat
  day : Nat
  hour : Nat
  minute : Nat
  second : Nat
  microsecond : Nat
  deriving DecidableEq, Repr

structure CivilFields.Valid (f : CivilFields) : Prop where
  year : 1 ≤ f.year ∧ f.year ≤ 9999
  month : 1 ≤ f.month ∧ f.month ≤ 12
  day : 1 ≤ f.day ∧ f.day ≤ daysInMonth f.year f.month
  hour : f.hour < 24
  minute : f.minute < 60
  second : f.second < 60
  microsecond : f.microsecond < 1000000

instance (f : CivilFields) : Decidable f.Valid :=
  decidable_of_iff (((1 ≤ f.year ∧ f.year ≤ 9999) ∧ (1 ≤ f.month ∧ f.month ≤ 12) ∧
      (1 ≤ f.day ∧ f.day ≤ daysInMonth f.year f.month)) ∧
      f.hour < 24 ∧ f.minute < 60 ∧ f.second < 60 ∧ f.microsecond < 1000000)
    ⟨fun ⟨⟨y, mo, d⟩, h, mi, s, us⟩ => ⟨y, mo, d, h, mi, s, us⟩,
      fun ⟨y, mo, d, h, mi, s, us⟩ => ⟨⟨y, mo, d⟩, h, mi, s, us⟩⟩

/-- An aware `datetime` in UTC. -/
structure Datetime where
  fields : CivilFields
  valid : fields.Valid
  deriving DecidableEq, Repr

namespace Datetime

def daysBeforeYear (year : Nat) : Nat :=
  (year - 1) * 365 + (year - 1) / 4 - (year - 1) / 100 + (year - 1) / 400

def daysBeforeMonth (year month : Nat) : Nat :=
  ((List.range (month - 1)).map (fun m => daysInMonth year (m + 1))).sum

/-- The instant, in microseconds since the first day of year 1. -/
def instant (d : Datetime) : Nat :=
  let f := d.fields
  let days := daysBeforeYear f.year + daysBeforeMonth f.year f.month + (f.day - 1)
  (((days * 24 + f.hour) * 60 + f.minute) * 60 + f.second) * 1000000 + f.microsecond

/-- The last `w` decimal digits, padded with zeros. -/
def padded : Nat → Nat → List Char
  | 0, _ => []
  | w + 1, n => Nat.digitChar (n / 10 ^ w % 10) :: padded w n

def digit? (c : Char) : Option Nat := if c.isDigit then some (c.toNat - 48) else none

/-- Read exactly `w` digits after those already read. -/
def readNat : Nat → Nat → List Char → Option (Nat × List Char)
  | 0, acc, cs => some (acc, cs)
  | _ + 1, _, [] => none
  | w + 1, acc, c :: cs => (digit? c).bind (fun d => readNat w (acc * 10 + d) cs)

def readChar (c : Char) : List Char → Option (List Char)
  | [] => none
  | x :: cs => if x = c then some cs else none

/-- Date, time and, unless it is zero, the fraction. -/
def clockText (f : CivilFields) : List Char :=
  padded 4 f.year ++ '-' :: (padded 2 f.month ++ '-' :: (padded 2 f.day ++
    'T' :: (padded 2 f.hour ++ ':' :: (padded 2 f.minute ++ ':' :: (padded 2 f.second ++
      (if f.microsecond = 0 then [] else '.' :: padded 6 f.microsecond))))))

/-- `datetime.isoformat` of a UTC value. -/
def isoformat (d : Datetime) : String :=
  String.ofList (clockText d.fields ++ ['+', '0', '0', ':', '0', '0'])

/-- The text a JSON encoder gives a UTC value. -/
def jsonText (d : Datetime) : String := String.ofList (clockText d.fields ++ ['Z'])

def readFraction : List Char → Option (Nat × List Char)
  | '.' :: cs => readNat 6 0 cs
  | cs => some (0, cs)

/-- `datetime.fromisoformat` on texts in UTC. `none` is the `ValueError`. -/
def fromisoformat (s : String) : Option Datetime := do
  let (year, cs) ← readNat 4 0 s.toList
  let cs ← readChar '-' cs
  let (month, cs) ← readNat 2 0 cs
  let cs ← readChar '-' cs
  let (day, cs) ← readNat 2 0 cs
  let cs ← readChar 'T' cs
  let (hour, cs) ← readNat 2 0 cs
  let cs ← readChar ':' cs
  let (minute, cs) ← readNat 2 0 cs
  let cs ← readChar ':' cs
  let (second, cs) ← readNat 2 0 cs
  let (microsecond, cs) ← readFraction cs
  if cs = ['+', '0', '0', ':', '0', '0'] ∨ cs = ['Z'] then
    let f : CivilFields := ⟨year, month, day, hour, minute, second, microsecond⟩
    if h : f.Valid then some ⟨f, h⟩ else none
  else none

theorem bind_read {α β : Type} {x : Option α} {a : α} {f : α → Option β} (h : x = some a) :
    (x >>= f) = f a := by
  rw [h, Option.bind_eq_bind, Option.bind_some]

theorem digit_digitChar : ∀ d < 10, digit? (Nat.digitChar d) = some d := by decide

theorem readNat_padded (w n acc : Nat) (r : List Char) :
    readNat w acc (padded w n ++ r) = some (acc * 10 ^ w + n % 10 ^ w, r) := by
  induction w generalizing acc with
  | zero => simp [readNat, padded, Nat.mod_one]
  | succ w ih =>
    have hd := digit_digitChar (n / 10 ^ w % 10) (Nat.mod_lt _ (by decide))
    simp only [padded, List.cons_append, readNat, hd, Option.bind_some, ih]
    have hm : n % 10 ^ (w + 1) = n % 10 ^ w + 10 ^ w * (n / 10 ^ w % 10) := Nat.mod_pow_succ
    rw [hm]
    congr 2
    ring

theorem readNat_padded_lt {w n : Nat} (h : n < 10 ^ w) (r : List Char) :
    readNat w 0 (padded w n ++ r) = some (n, r) := by
  rw [readNat_padded, Nat.zero_mul, Nat.zero_add, Nat.mod_eq_of_lt h]

theorem readChar_cons (c : Char) (cs : List Char) : readChar c (c :: cs) = some cs := by
  simp [readChar]

theorem readFraction_text {us : Nat} (h : us < 1000000) :
    readFraction ((if us = 0 then [] else '.' :: padded 6 us) ++ ['+', '0', '0', ':', '0', '0']) =
      some (us, ['+', '0', '0', ':', '0', '0']) := by
  split
  · rename_i h0
    subst h0
    rfl
  · exact readNat_padded_lt h _

theorem daysInMonth_le (year month : Nat) : daysInMonth year month ≤ 31 := by
  unfold daysInMonth
  split
  · split <;> omega
  · split <;> omega

/-- What `isoformat` writes, `fromisoformat` reads back. -/
theorem fromisoformat_isoformat (d : Datetime) : fromisoformat d.isoformat = some d := by
  obtain ⟨f, hv⟩ := d
  have hday : f.day < 10 ^ 2 := lt_of_le_of_lt (hv.day.2.trans (daysInMonth_le _ _)) (by decide)
  have hy : f.year < 10 ^ 4 := lt_of_le_of_lt hv.year.2 (by decide)
  have hmo : f.month < 10 ^ 2 := lt_of_le_of_lt hv.month.2 (by decide)
  have hh : f.hour < 10 ^ 2 := hv.hour.trans (by decide)
  have hmi : f.minute < 10 ^ 2 := hv.minute.trans (by decide)
  have hs : f.second < 10 ^ 2 := hv.second.trans (by decide)
  simp only [fromisoformat, isoformat, clockText, String.toList_ofList, List.append_assoc,
    List.cons_append]
  apply (bind_read (readNat_padded_lt hy _)).trans
  apply (bind_read (readChar_cons _ _)).trans
  apply (bind_read (readNat_padded_lt hmo _)).trans
  apply (bind_read (readChar_cons _ _)).trans
  apply (bind_read (readNat_padded_lt hday _)).trans
  apply (bind_read (readChar_cons _ _)).trans
  apply (bind_read (readNat_padded_lt hh _)).trans
  apply (bind_read (readChar_cons _ _)).trans
  apply (bind_read (readNat_padded_lt hmi _)).trans
  apply (bind_read (readChar_cons _ _)).trans
  apply (bind_read (readNat_padded_lt hs _)).trans
  apply (bind_read (readFraction_text hv.microsecond)).trans
  simp only [true_or, ↓reduceIte, hv, ↓reduceDIte]

end Datetime
end BackendTemplates.Python
