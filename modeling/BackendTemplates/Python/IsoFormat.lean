import Mathlib.Data.List.TakeWhile
import BackendTemplates.Python.Datetime

namespace BackendTemplates.Python.IsoFormat
open Datetime

/-- A fixed offset, in microseconds. `timezone` refuses a day and more. -/
structure Timezone where
  microseconds : Int
  low : -86400000000 < microseconds
  high : microseconds < 86400000000
  deriving DecidableEq

def Timezone.utc : Timezone := ⟨0, by decide, by decide⟩

/-- A `datetime`. Without a `tzinfo` it is naive. -/
structure Timestamp where
  fields : CivilFields
  valid : fields.Valid
  tzinfo : Option Timezone

/-- The size of an offset: seconds and fraction only where there are any. -/
def offsetBody (offset : Nat) : List Char :=
  let us := offset % 1000000
  let ss := offset / 1000000 % 60
  padded 2 (offset / 3600000000) ++ ':' :: (padded 2 (offset / 60000000 % 60) ++
    (if ss = 0 ∧ us = 0 then []
    else ':' :: (padded 2 ss ++ (if us = 0 then [] else '.' :: padded 6 us))))

def offsetText (tz : Timezone) : List Char :=
  (if tz.microseconds < 0 then '-' else '+') :: offsetBody tz.microseconds.natAbs

def isoformat (ts : Timestamp) : List Char :=
  clockText ts.fields ++ (ts.tzinfo.map offsetText).getD []

/-- What the C code finds at the end of its buffer. -/
def nul : Char := '\x00'

/-- The UTF-8 buffer that the C code reads, each byte as the character of its number. -/
def encoded (cs : List Char) : List Char :=
  (cs.flatMap String.utf8EncodeChar).map (fun b => Char.ofNat b.toNat)

/-- `_find_isoformat_datetime_separator`. `none` is its `-1`. -/
def findSeparator (cs : List Char) : Option Nat :=
  if cs.length = 7 then some 7
  else if cs.getD 4 nul = '-' then
    if cs.getD 5 nul = 'W' then
      if cs.getD 8 nul = '-' then
        if cs.length = 9 then none
        else if (cs.getD 10 nul).isDigit then some 8 else some 10
      else some 8
    else some 10
  else if cs.getD 4 nul = 'W' then
    let pos := 7 + ((cs.drop 7).takeWhile Char.isDigit).length
    if pos < 9 then some pos else if pos % 2 = 0 then some 7 else some 8
  else some 8

/-- The first day of a year, counted from the first day of year 1. -/
def firstOrdinal (year : Nat) : Nat := daysBeforeYear year + 1

/-- The weekday of the first day of a year, Monday being zero. -/
def firstWeekday (year : Nat) : Nat := (firstOrdinal year + 6) % 7

/-- `iso_week1_monday`. -/
def week1Monday (year : Nat) : Nat :=
  let monday := firstOrdinal year - firstWeekday year
  if 3 < firstWeekday year then monday + 7 else monday

/-- `ord_to_ymd`. -/
def ordToYmd (ordinal : Nat) : Nat × Nat × Nat :=
  let n := ordinal - 1
  let n400 := n / 146097
  let n := n % 146097
  let n100 := n / 36524
  let n := n % 36524
  let n4 := n / 1461
  let n := n % 1461
  let n1 := n / 365
  let n := n % 365
  let year := n400 * 400 + 1 + n100 * 100 + n4 * 4 + n1
  if n1 = 4 ∨ n100 = 4 then (year - 1, 12, 31)
  else
    let month := (List.range' 1 12).countP (fun m => daysBeforeMonth year m ≤ n)
    (year, month, n - daysBeforeMonth year month + 1)

/-- `iso_to_ymd`. -/
def isoToYmd (year week day : Nat) : Option (Nat × Nat × Nat) :=
  let long := firstWeekday year = 3 ∨ (firstWeekday year = 2 ∧ isLeap year)
  if year < 1 ∨ 9999 < year then none
  else if ¬ (0 < week ∧ week < 53) ∧ ¬ (week = 53 ∧ long) then none
  else if day = 0 ∨ 8 ≤ day then none
  else some (ordToYmd (week1Monday year + ((week - 1) * 7 + day - 1)))

/-- `parse_isoformat_date`, of the text before the separator. -/
def parseDate (cs : List Char) : Option (Nat × Nat × Nat) := do
  let (year, cs) ← readNat 4 0 cs
  let usesSeparator := cs.head? = some '-'
  let cs := if usesSeparator then cs.tail else cs
  if cs.head? = some 'W' then
    let (week, cs) ← readNat 2 0 cs.tail
    if cs = [] then isoToYmd year week 1
    else
      let cs ← if usesSeparator then readChar '-' cs else some cs
      let (day, _) ← readNat 1 0 cs
      isoToYmd year week day
  else
    let (month, cs) ← readNat 2 0 cs
    let cs ← if usesSeparator then readChar '-' cs else some cs
    let (day, _) ← readNat 2 0 cs
    some (year, month, day)

/-- What `parse_hh_mm_ss_ff` reads: hour, minute and second as far as there are any, the
fraction, and whether something is left over. -/
structure Parts where
  values : List Nat
  microsecond : Nat
  extra : Bool
  deriving DecidableEq

/-- The fraction: six digits at most, the others are skipped. -/
def parseFraction (next : Char) (cs : List Char) : Option Parts := do
  let width := min 6 cs.length
  let (fraction, cs) ← readNat width 0 cs
  some ⟨[], fraction * 10 ^ (6 - width), (cs.dropWhile Char.isDigit).headD next != nul⟩

/-- The loop of `parse_hh_mm_ss_ff` over the components left. `next` is the character behind
the text, and `colon` whether the first component was followed by one. -/
def parseParts (next : Char) : Nat → Option Bool → List Char → Option Parts
  | 0, _, cs => parseFraction next cs
  | left + 1, colon, cs => do
    let (value, cs) ← readNat 2 0 cs
    match cs with
    | [] => some ⟨[value], 0, next != nul⟩
    | [c] => some ⟨[value], 0, c != nul⟩
    | c :: rest =>
      let colon := colon.getD (c == ':')
      let parts ←
        if colon ∧ c = ':' then parseParts next left (some colon) rest
        else if c = '.' ∨ c = ',' then parseFraction next rest
        else if colon then none
        else parseParts next left (some colon) cs
      some { parts with values := value :: parts.values }

/-- `parse_hh_mm_ss_ff`. -/
def parseClock (next : Char) (cs : List Char) : Option Parts := parseParts next 3 none cs

def Parts.seconds (p : Parts) : Nat :=
  p.values.getD 0 0 * 3600 + p.values.getD 1 0 * 60 + p.values.getD 2 0

/-- `tzinfo_from_isoformat_results`: without a whole second of offset it is UTC. -/
def timezoneOf (negative : Bool) (p : Parts) : Option Timezone :=
  let us : Int := p.seconds * 1000000 + p.microsecond
  if p.seconds = 0 then some .utc
  else if h : us < 86400000000 then
    some ⟨if negative then -us else us, by split <;> omega, by split <;> omega⟩
  else none

def isZoneMark (c : Char) : Bool := c == '+' || c == '-' || c == 'Z'

/-- `parse_isoformat_time`. -/
def parseTime (cs : List Char) : Option (Parts × Option Timezone) := do
  let zone := cs.dropWhile (fun c => !isZoneMark c)
  let parts ← parseClock (zone.headD nul) (cs.takeWhile (fun c => !isZoneMark c))
  match zone with
  | [] => if parts.extra then none else some (parts, none)
  | 'Z' :: after => if after.headD nul ≠ nul then none else some (parts, some .utc)
  | sign :: zone =>
    let offset ← parseClock nul zone
    if offset.extra then none
    else
      let tz ← timezoneOf (sign == '-') offset
      some (parts, some tz)

/-- How many bytes the separator has, by the first of them. -/
def separatorWidth (c : Char) : Nat :=
  if c.toNat < 0x80 then 1
  else if c.toNat / 16 = 0xE then 3
  else if c.toNat / 16 = 0xF then 4
  else 2

/-- What is behind the separator. -/
def behind : List Char → List Char
  | [] => []
  | c :: bytes => (c :: bytes).drop (separatorWidth c)

/-- What follows the date: nothing, or a separator, which may be any character, and a time. -/
def parseAfter : List Char → Option (Parts × Option Timezone)
  | [] => some (⟨[], 0, false⟩, none)
  | c :: bytes => parseTime (behind (c :: bytes))

def fromBytes (cs : List Char) : Option Timestamp := do
  let location ← findSeparator cs
  let (year, month, day) ← parseDate (cs.take location)
  let (clock, tzinfo) ← parseAfter (cs.drop location)
  let fields : CivilFields := ⟨year, month, day, clock.values.getD 0 0, clock.values.getD 1 0,
    clock.values.getD 2 0, clock.microsecond⟩
  if h : fields.Valid then some ⟨fields, h, tzinfo⟩ else none

/-- `datetime.fromisoformat`. `none` is the `ValueError`. -/
def fromisoformat (cs : List Char) : Option Timestamp := fromBytes (encoded cs)

example : (fromisoformat "2026-01-02é03:04:05Z".toList).isSome = true ∧
    fromisoformat "2026-01-02T03:04:05éZ".toList = none := by decide +kernel

/-- A time is read as naive exactly if nothing in it marks an offset. -/
theorem parseTime_naive_iff {cs : List Char} {parts : Parts} {tz : Option Timezone}
    (h : parseTime cs = some (parts, tz)) : tz = none ↔ ∀ c ∈ cs, isZoneMark c = false := by
  have hall : (∀ c ∈ cs, isZoneMark c = false) ↔
      cs.dropWhile (fun c => !isZoneMark c) = [] := by
    simp [List.dropWhile_eq_nil_iff]
  rw [hall]
  obtain ⟨clock, -, h⟩ := Option.bind_eq_some_iff.mp h
  split at h
  · rename_i hzone
    split at h
    · cases h
    · cases h
      exact iff_of_true rfl hzone
  · rename_i hzone
    split at h
    · cases h
    · cases h
      exact iff_of_false (by simp) (by simp [hzone])
  · rename_i hzone
    obtain ⟨offset, -, h⟩ := Option.bind_eq_some_iff.mp h
    split at h
    · cases h
    · obtain ⟨z, -, h⟩ := Option.bind_eq_some_iff.mp h
      cases h
      exact iff_of_false (by simp) (by simp [hzone])

/-- The text behind the character that separates the date from the time, byte by byte. -/
def timeText (cs : List Char) : List Char :=
  match findSeparator (encoded cs) with
  | none => []
  | some location => behind ((encoded cs).drop location)

theorem fromisoformat_naive_iff {cs : List Char} {ts : Timestamp} (h : fromisoformat cs = some ts) :
    ts.tzinfo = none ↔ ∀ c ∈ timeText cs, isZoneMark c = false := by
  obtain ⟨location, hlocation, h⟩ := Option.bind_eq_some_iff.mp h
  obtain ⟨⟨year, month, day⟩, -, h⟩ := Option.bind_eq_some_iff.mp h
  obtain ⟨⟨clock, tz⟩, hafter, h⟩ := Option.bind_eq_some_iff.mp h
  have htz : ts.tzinfo = tz := by
    simp only at h
    split at h
    · cases h
      rfl
    · cases h
  have htext : timeText cs = behind ((encoded cs).drop location) := by
    rw [timeText, hlocation]
  rw [htz, htext]
  cases hd : (encoded cs).drop location with
  | nil =>
    rw [hd] at hafter
    cases hafter
    exact iff_of_true rfl (List.forall_mem_nil _)
  | cons separator time =>
    rw [hd] at hafter
    exact parseTime_naive_iff hafter

def Ascii (cs : List Char) : Prop := ∀ c ∈ cs, c.toNat < 0x80

theorem Ascii.append {cs cs' : List Char} (h : Ascii cs) (h' : Ascii cs') : Ascii (cs ++ cs') :=
  List.forall_mem_append.mpr ⟨h, h'⟩

theorem Ascii.cons {c : Char} {cs : List Char} (hc : c.toNat < 0x80) (h : Ascii cs) :
    Ascii (c :: cs) := List.forall_mem_cons.mpr ⟨hc, h⟩

theorem digit_ascii {c : Char} (h : c.isDigit = true) : c.toNat < 0x80 := by
  have hle : c.val ≤ 57 := by
    simp only [Char.isDigit, Bool.and_eq_true, decide_eq_true_eq] at h
    exact h.2
  exact Nat.lt_of_le_of_lt hle (by decide)

/-- The bytes of an ASCII text are its characters. -/
theorem encoded_ascii {cs : List Char} (h : Ascii cs) : encoded cs = cs := by
  induction cs with
  | nil => rfl
  | cons c cs ih =>
    obtain ⟨hc, hcs⟩ := List.forall_mem_cons.mp h
    have hbyte : String.utf8EncodeChar c = [UInt8.ofNat c.toNat] := by
      simp only [String.utf8EncodeChar, Char.toNat] at hc ⊢
      rw [if_pos (by omega)]
    have hnat : (UInt8.ofNat c.toNat).toNat = c.toNat := by
      rw [UInt8.toNat_ofNat']
      omega
    have hrest : encoded (c :: cs) = Char.ofNat (UInt8.ofNat c.toNat).toNat :: encoded cs := by
      simp [encoded, hbyte]
    rw [hrest, hnat, Char.ofNat_toNat, ih hcs]

/-- A text of digits that is read as a number, whatever follows it. -/
structure Reads (w : Nat) (ds : List Char) (n : Nat) : Prop where
  length : ds.length = w
  digits : ∀ c ∈ ds, c.isDigit = true
  read : ∀ rest, readNat w 0 (ds ++ rest) = some (n, rest)

theorem digitChar_isDigit : ∀ d < 10, (Nat.digitChar d).isDigit = true := by decide

theorem padded_digits (w n : Nat) :
    (padded w n).length = w ∧ ∀ c ∈ padded w n, c.isDigit = true := by
  induction w with
  | zero => exact ⟨rfl, by simp [padded]⟩
  | succ w ih =>
    refine ⟨by simp [padded, ih.1], ?_⟩
    intro c hc
    rcases List.mem_cons.mp hc with rfl | hc
    · exact digitChar_isDigit _ (Nat.mod_lt _ (by decide))
    · exact ih.2 c hc

theorem padded_ascii (w n : Nat) : Ascii (padded w n) := fun c hc =>
  digit_ascii ((padded_digits w n).2 c hc)

theorem reads_padded {w n : Nat} (h : n < 10 ^ w) : Reads w (padded w n) n :=
  ⟨(padded_digits w n).1, (padded_digits w n).2, readNat_padded_lt h⟩

/-- What is read off a text is a text of digits in front of it. -/
theorem readNat_split {w acc n : Nat} {cs rest : List Char}
    (h : readNat w acc cs = some (n, rest)) :
    ∃ ds, cs = ds ++ rest ∧ ds.length = w ∧ (∀ c ∈ ds, c.isDigit = true) ∧
      ∀ rest', readNat w acc (ds ++ rest') = some (n, rest') := by
  induction w generalizing acc cs with
  | zero =>
    cases h
    exact ⟨[], rfl, rfl, by simp, fun _ => rfl⟩
  | succ w ih =>
    cases cs with
    | nil => cases h
    | cons c cs =>
      obtain ⟨d, hd, h⟩ := Option.bind_eq_some_iff.mp h
      obtain ⟨ds, rfl, hlen, hdigits, hread⟩ := ih h
      have hc : c.isDigit = true := by
        by_contra hc
        simp [digit?, hc] at hd
      refine ⟨c :: ds, rfl, by simp [hlen], ?_, ?_⟩
      · intro e he
        rcases List.mem_cons.mp he with rfl | he
        · exact hc
        · exact hdigits e he
      · intro rest'
        simp [readNat, hd, hread]

theorem reads_of_readNat {w n : Nat} {cs rest : List Char}
    (h : readNat w 0 cs = some (n, rest)) : ∃ ds, cs = ds ++ rest ∧ Reads w ds n := by
  obtain ⟨ds, hcs, hlen, hdigits, hread⟩ := readNat_split h
  exact ⟨ds, hcs, hlen, hdigits, hread⟩

theorem digit_mark {c : Char} (h : c.isDigit = true) : isZoneMark c = false ∧ c ≠ 'W' := by
  have hne (x : Char) (hx : x.isDigit = false) : c ≠ x := by
    rintro rfl
    simp [hx] at h
  exact ⟨by simp [isZoneMark, hne '+' rfl, hne '-' rfl, hne 'Z' rfl], hne 'W' rfl⟩

section
variable {next : Char} {left w n us : Nat} {ds frac rest : List Char} {colon : Option Bool}

theorem Reads.ne_nil (h : Reads (w + 1) ds n) : ds ≠ [] := by
  rintro rfl
  cases h.length

theorem Reads.ascii (h : Reads w ds n) : Ascii ds := fun c hc => digit_ascii (h.digits c hc)

theorem Reads.alone (h : Reads w ds n) : readNat w 0 ds = some (n, []) := by
  simpa using h.read []

/-- A component with a colon and more text after it. -/
theorem parseParts_colon (h : Reads 2 ds n) (hc : colon ≠ some false) (hrest : rest ≠ []) :
    parseParts next (left + 1) colon (ds ++ ':' :: rest) =
      (parseParts next left (some true) rest).map
        (fun parts => { parts with values := n :: parts.values }) := by
  obtain ⟨c, cs, rfl⟩ := List.exists_cons_of_ne_nil hrest
  have hcolon : colon.getD (':' == ':') = true := by
    cases colon with
    | none => rfl
    | some b =>
      cases b with
      | false => exact absurd rfl hc
      | true => rfl
  apply (bind_read (h.read _)).trans
  simp only [hcolon]
  cases parseParts next left (some true) (c :: cs) with
  | none => rfl
  | some parts => rfl

theorem parseParts_end (h : Reads 2 ds n) :
    parseParts next (left + 1) colon ds = some ⟨[n], 0, next != nul⟩ :=
  bind_read h.alone

/-- Nothing, or a point and the six digits of a fraction. -/
def ReadsFraction (frac : List Char) (us : Nat) : Prop :=
  (frac = [] ∧ us = 0) ∨ ∃ fs, frac = '.' :: fs ∧ Reads 6 fs us

theorem parseParts_fraction (h : Reads 2 ds n) (hf : ReadsFraction frac us) :
    parseParts next (left + 1) (some true) (ds ++ frac) = some ⟨[n], us, next != nul⟩ := by
  rcases hf with ⟨rfl, rfl⟩ | ⟨fs, rfl, hfs⟩
  · rw [List.append_nil, parseParts_end h]
  · have hfraction : parseFraction next fs = some ⟨[], us, next != nul⟩ := by
      have hwidth : min 6 fs.length = 6 := by rw [hfs.length, Nat.min_self]
      simp only [parseFraction, hwidth, hfs.alone]
      simp
    obtain ⟨c, cs, rfl⟩ := List.exists_cons_of_ne_nil hfs.ne_nil
    apply (bind_read (h.read _)).trans
    simp [hfraction]

theorem parseClock_minutes {hs ms : List Char} {hh mm : Nat} (hhs : Reads 2 hs hh)
    (hms : Reads 2 ms mm) :
    parseClock next (hs ++ ':' :: ms) = some ⟨[hh, mm], 0, next != nul⟩ := by
  rw [parseClock, parseParts_colon hhs (by simp) hms.ne_nil, parseParts_end hms]
  rfl

end

/-- A text of the form `HH:MM:SS` or `HH:MM:SS.ffffff`. -/
structure ReadsClock (cs : List Char) (hh mm ss us : Nat) : Prop where
  parts : ∃ hs ms seconds frac, cs = hs ++ ':' :: (ms ++ ':' :: (seconds ++ frac)) ∧
    Reads 2 hs hh ∧ Reads 2 ms mm ∧ Reads 2 seconds ss ∧ ReadsFraction frac us

theorem ReadsFraction.mark {frac : List Char} {us : Nat} (h : ReadsFraction frac us) :
    ∀ c ∈ frac, isZoneMark c = false := by
  intro c hc
  rcases h with ⟨rfl, -⟩ | ⟨fs, rfl, hfs⟩
  · cases hc
  · rcases List.mem_cons.mp hc with rfl | hc
    · rfl
    · exact (digit_mark (hfs.digits c hc)).1

theorem ReadsFraction.ascii {frac : List Char} {us : Nat} (h : ReadsFraction frac us) :
    Ascii frac := by
  rcases h with ⟨rfl, -⟩ | ⟨fs, rfl, hfs⟩
  · exact List.forall_mem_nil _
  · exact hfs.ascii.cons (by decide)

theorem ReadsClock.ascii {cs : List Char} {hh mm ss us : Nat} (h : ReadsClock cs hh mm ss us) :
    Ascii cs := by
  obtain ⟨hs, ms, seconds, frac, rfl, hhs, hms, hss, hf⟩ := h.parts
  have hseconds : Ascii (seconds ++ frac) := hss.ascii.append hf.ascii
  exact hhs.ascii.append ((hms.ascii.append (hseconds.cons (by decide))).cons (by decide))

theorem ReadsClock.mark {cs : List Char} {hh mm ss us : Nat} (h : ReadsClock cs hh mm ss us) :
    ∀ c ∈ cs, isZoneMark c = false := by
  obtain ⟨hs, ms, seconds, frac, rfl, hhs, hms, hss, hf⟩ := h.parts
  intro c hc
  simp only [List.mem_append, List.mem_cons] at hc
  rcases hc with hc | rfl | hc | rfl | hc | hc
  · exact (digit_mark (hhs.digits c hc)).1
  · rfl
  · exact (digit_mark (hms.digits c hc)).1
  · rfl
  · exact (digit_mark (hss.digits c hc)).1
  · exact hf.mark c hc

theorem ReadsClock.parseClock {cs : List Char} {hh mm ss us : Nat} (h : ReadsClock cs hh mm ss us)
    (next : Char) : parseClock next cs = some ⟨[hh, mm, ss], us, next != nul⟩ := by
  obtain ⟨hs, ms, seconds, frac, rfl, hhs, hms, hss, hf⟩ := h.parts
  have hmore : seconds ++ frac ≠ [] := by simp [hss.ne_nil]
  rw [IsoFormat.parseClock, parseParts_colon hhs (by simp) (by simp),
    parseParts_colon hms (by simp) hmore, parseParts_fraction hss hf]
  rfl

/-- A text of the form `YYYY-MM-DD`. -/
structure ReadsDate (cs : List Char) (year month day : Nat) : Prop where
  parts : ∃ ys ms ds, cs = ys ++ '-' :: (ms ++ '-' :: ds) ∧
    Reads 4 ys year ∧ Reads 2 ms month ∧ Reads 2 ds day

theorem ReadsDate.ascii {cs : List Char} {year month day : Nat}
    (h : ReadsDate cs year month day) : Ascii cs := by
  obtain ⟨ys, ms, ds, rfl, hys, hms, hds⟩ := h.parts
  exact hys.ascii.append ((hms.ascii.append (hds.ascii.cons (by decide))).cons (by decide))

theorem ReadsDate.findSeparator {cs : List Char} {year month day : Nat}
    (h : ReadsDate cs year month day) (separator : Char) (time : List Char) :
    findSeparator (cs ++ separator :: time) = some 10 ∧ cs.length = 10 := by
  obtain ⟨ys, ms, ds, rfl, hys, hms, hds⟩ := h.parts
  have hlen : (ys ++ '-' :: (ms ++ '-' :: ds)).length = 10 := by
    simp [hys.length, hms.length, hds.length]
  refine ⟨?_, hlen⟩
  obtain ⟨m, ms, rfl⟩ := List.exists_cons_of_ne_nil hms.ne_nil
  have hlong : (ys ++ '-' :: (m :: ms ++ '-' :: ds) ++ separator :: time).length ≠ 7 := by
    simp only [List.length_append, hlen, List.length_cons]
    omega
  have hdash : (ys ++ '-' :: (m :: ms ++ '-' :: ds) ++ separator :: time).getD 4 nul = '-' := by
    simp [List.getD_eq_getElem?_getD, hys.length]
  have hmonth : (ys ++ '-' :: (m :: ms ++ '-' :: ds) ++ separator :: time).getD 5 nul = m := by
    simp [List.getD_eq_getElem?_getD, List.getElem?_append, hys.length]
  have hweek : m ≠ 'W' := (digit_mark (hms.digits m (by simp))).2
  rw [IsoFormat.findSeparator, if_neg hlong, if_pos hdash, hmonth, if_neg hweek]

theorem ReadsDate.parseDate {cs : List Char} {year month day : Nat}
    (h : ReadsDate cs year month day) : parseDate cs = some (year, month, day) := by
  obtain ⟨ys, ms, ds, rfl, hys, hms, hds⟩ := h.parts
  have hweek : (ms ++ '-' :: ds).head? ≠ some 'W' := by
    obtain ⟨m, ms, rfl⟩ := List.exists_cons_of_ne_nil hms.ne_nil
    simpa using (digit_mark (hms.digits m (by simp))).2
  apply (bind_read (hys.read _)).trans
  simp only [List.head?_cons, if_true, List.tail_cons, hweek, if_false]
  apply (bind_read (hms.read _)).trans
  apply (bind_read (readChar_cons _ _)).trans
  exact bind_read hds.alone

section
variable {cs body : List Char} {parts offset : Parts} {tz : Timezone}

theorem parseTime_plain (hcs : ∀ c ∈ cs, isZoneMark c = false)
    (hclock : parseClock nul cs = some parts) (hextra : parts.extra = false) :
    parseTime cs = some (parts, none) := by
  have hall : ∀ c ∈ cs, (!isZoneMark c) = true := fun c hc => by simp [hcs c hc]
  unfold parseTime
  rw [List.takeWhile_eq_self_iff.mpr hall, List.dropWhile_eq_nil_iff.mpr hall]
  apply (bind_read hclock).trans
  simp [hextra]

/-- Where a time ends and its offset begins. -/
theorem split_mark (hcs : ∀ c ∈ cs, isZoneMark c = false) (mark : Char)
    (hmark : isZoneMark mark = true) (after : List Char) :
    (cs ++ mark :: after).takeWhile (fun c => !isZoneMark c) = cs ∧
      (cs ++ mark :: after).dropWhile (fun c => !isZoneMark c) = mark :: after := by
  have hall : ∀ c ∈ cs, (!isZoneMark c) = true := fun c hc => by simp [hcs c hc]
  rw [List.takeWhile_append_of_pos hall, List.dropWhile_append_of_pos hall]
  simp [hmark]

theorem parseTime_zulu (hcs : ∀ c ∈ cs, isZoneMark c = false)
    (hclock : parseClock 'Z' cs = some parts) :
    parseTime (cs ++ ['Z']) = some (parts, some .utc) := by
  obtain ⟨htake, hdrop⟩ := split_mark hcs 'Z' rfl []
  unfold parseTime
  rw [htake, hdrop]
  apply (bind_read hclock).trans
  simp

theorem parseTime_signed (hcs : ∀ c ∈ cs, isZoneMark c = false) {sign : Char}
    (hsign : sign = '-' ∨ sign = '+') (hclock : parseClock sign cs = some parts)
    (hoffset : parseClock nul body = some offset) (hextra : offset.extra = false)
    (htz : timezoneOf (sign == '-') offset = some tz) :
    parseTime (cs ++ sign :: body) = some (parts, some tz) := by
  have hmark : isZoneMark sign = true ∧ sign ≠ 'Z' := by
    rcases hsign with rfl | rfl
    all_goals decide
  obtain ⟨htake, hdrop⟩ := split_mark hcs sign hmark.1 body
  unfold parseTime
  rw [htake, hdrop]
  apply (bind_read hclock).trans
  split
  · rename_i h
    cases h
  · rename_i h
    exact absurd (List.cons.inj h).1 hmark.2
  · rename_i h
    obtain ⟨rfl, rfl⟩ := List.cons.inj h
    simp [hoffset, hextra, htz]

end

/-- A date and a time that are read one after the other. -/
theorem fromisoformat_reads {date time : List Char} {f : CivilFields} (hv : f.Valid)
    (hdate : ReadsDate date f.year f.month f.day) (hascii : Ascii time) {extra : Bool}
    {tz : Option Timezone}
    (htime : parseTime time =
      some (⟨[f.hour, f.minute, f.second], f.microsecond, extra⟩, tz)) :
    fromisoformat (date ++ 'T' :: time) = some ⟨f, hv, tz⟩ := by
  obtain ⟨hseparator, hlen⟩ := hdate.findSeparator 'T' time
  rw [fromisoformat, encoded_ascii (hdate.ascii.append (hascii.cons (by decide)))]
  apply (bind_read hseparator).trans
  rw [List.take_left' hlen, List.drop_left' hlen]
  apply (bind_read hdate.parseDate).trans
  apply (bind_read htime).trans
  have hfields : (⟨f.year, f.month, f.day, f.hour, f.minute, f.second, f.microsecond⟩ :
      CivilFields) = f := rfl
  simp only [List.getD_cons_zero, List.getD_cons_succ, hfields, hv, dif_pos]

/-- An offset of less than a second comes back as UTC. -/
def Timezone.readBack (tz : Timezone) : Timezone :=
  if tz.microseconds.natAbs < 1000000 then .utc else tz

def Timestamp.readBack (ts : Timestamp) : Timestamp :=
  { ts with tzinfo := ts.tzinfo.map Timezone.readBack }

theorem timezoneOf_offset {tz : Timezone} {p : Parts}
    (hs : p.seconds = tz.microseconds.natAbs / 1000000)
    (hus : p.microsecond = tz.microseconds.natAbs % 1000000) :
    timezoneOf (decide (tz.microseconds < 0)) p = some tz.readBack := by
  obtain ⟨us, hlow, hhigh⟩ := tz
  simp only at hs hus
  by_cases hzero : p.seconds = 0
  · have hsmall : us.natAbs < 1000000 := by omega
    simp [timezoneOf, Timezone.readBack, hzero, hsmall]
  · have hlarge : ¬ us.natAbs < 1000000 := by omega
    have habs : (p.seconds * 1000000 + p.microsecond : Int) = us.natAbs := by omega
    have hday : (us.natAbs : Int) < 86400000000 := by omega
    simp only [timezoneOf, Timezone.readBack, hzero, hlarge, habs, hday, if_false, dif_pos,
      Option.some.injEq, Timezone.mk.injEq, decide_eq_true_eq]
    split
    · omega
    · omega

theorem readsFraction_text {us : Nat} (h : us < 1000000) :
    ReadsFraction (if us = 0 then [] else '.' :: padded 6 us) us := by
  split
  · rename_i hzero
    exact .inl ⟨rfl, hzero⟩
  · exact .inr ⟨_, rfl, reads_padded h⟩

theorem readsClock_text {hh mm ss us : Nat} (hhh : hh < 100) (hmm : mm < 100) (hss : ss < 100)
    (hus : us < 1000000) :
    ReadsClock (padded 2 hh ++ ':' :: (padded 2 mm ++ ':' :: (padded 2 ss ++
      (if us = 0 then [] else '.' :: padded 6 us)))) hh mm ss us :=
  ⟨_, _, _, _, rfl, reads_padded hhh, reads_padded hmm, reads_padded hss, readsFraction_text hus⟩

/-- The size of an offset is read back. -/
theorem parseClock_offsetBody {offset : Nat} (h : offset < 86400000000) :
    ∃ p, parseClock nul (offsetBody offset) = some p ∧ p.extra = false ∧
      p.seconds = offset / 1000000 ∧ p.microsecond = offset % 1000000 := by
  have hh : offset / 3600000000 < 100 := by omega
  have hm : offset / 60000000 % 60 < 100 := by omega
  have hs : offset / 1000000 % 60 < 100 := by omega
  have hus : offset % 1000000 < 1000000 := Nat.mod_lt _ (by decide)
  unfold offsetBody
  by_cases hnone : offset / 1000000 % 60 = 0 ∧ offset % 1000000 = 0
  · simp only [hnone, and_self, if_true, List.append_nil]
    refine ⟨_, parseClock_minutes (reads_padded hh) (reads_padded hm), by simp, ?_, rfl⟩
    simp only [Parts.seconds, List.getD_cons_zero, List.getD_cons_succ, List.getD_nil]
    omega
  · simp only [hnone, if_false]
    refine ⟨_, (readsClock_text hh hm hs hus).parseClock nul, by simp, ?_, rfl⟩
    simp only [Parts.seconds, List.getD_cons_zero, List.getD_cons_succ]
    omega

theorem offset_ascii (tz : Option Timezone) : Ascii ((tz.map offsetText).getD []) := by
  cases tz with
  | none => exact List.forall_mem_nil _
  | some tz =>
    have hbody (n : Nat) : Ascii (offsetBody n) := by
      have hus : Ascii (if n % 1000000 = 0 then [] else '.' :: padded 6 (n % 1000000)) := by
        split
        · exact List.forall_mem_nil _
        · exact (padded_ascii _ _).cons (by decide)
      refine (padded_ascii _ _).append (((padded_ascii _ _).append ?_).cons (by decide))
      split
      · exact List.forall_mem_nil _
      · exact ((padded_ascii _ _).append hus).cons (by decide)
    refine (hbody _).cons ?_
    split <;> decide

/-- The time of an `isoformat` text, with the offset that follows it. -/
theorem parseTime_offset {cs : List Char} {hh mm ss us : Nat} (h : ReadsClock cs hh mm ss us)
    (tz : Option Timezone) : ∃ extra, parseTime (cs ++ (tz.map offsetText).getD []) =
      some (⟨[hh, mm, ss], us, extra⟩, tz.map Timezone.readBack) := by
  cases tz with
  | none =>
    rw [Option.map_none, Option.getD_none, List.append_nil]
    exact ⟨false, parseTime_plain h.mark (h.parseClock nul) rfl⟩
  | some tz =>
    have hday : tz.microseconds.natAbs < 86400000000 := by
      have := tz.low
      have := tz.high
      omega
    obtain ⟨offset, hoffset, hextra, hseconds, hmicro⟩ := parseClock_offsetBody hday
    have hzone := timezoneOf_offset hseconds hmicro
    rw [Option.map_some, Option.getD_some, offsetText]
    refine ⟨true, ?_⟩
    by_cases hneg : tz.microseconds < 0
    · rw [decide_eq_true hneg] at hzone
      rw [if_pos hneg]
      exact parseTime_signed h.mark (.inl rfl) (h.parseClock '-') hoffset hextra hzone
    · rw [decide_eq_false hneg] at hzone
      rw [if_neg hneg]
      exact parseTime_signed h.mark (.inr rfl) (h.parseClock '+') hoffset hextra hzone

/-- What `isoformat` writes is read back, except for an offset of less than a second. -/
theorem fromisoformat_isoformat (ts : Timestamp) :
    fromisoformat (isoformat ts) = some ts.readBack := by
  have hv := ts.valid
  have hyear : ts.fields.year < 10 ^ 4 := lt_of_le_of_lt hv.year.2 (by decide)
  have hmonth : ts.fields.month < 10 ^ 2 := lt_of_le_of_lt hv.month.2 (by decide)
  have hday : ts.fields.day < 10 ^ 2 :=
    lt_of_le_of_lt (hv.day.2.trans (daysInMonth_le _ _)) (by decide)
  have hclock := readsClock_text (hv.hour.trans (by decide : 24 < 100))
    (hv.minute.trans (by decide : 60 < 100)) (hv.second.trans (by decide : 60 < 100))
    hv.microsecond
  obtain ⟨extra, htime⟩ := parseTime_offset hclock ts.tzinfo
  have htext : isoformat ts = (padded 4 ts.fields.year ++ '-' :: (padded 2 ts.fields.month ++
      '-' :: padded 2 ts.fields.day)) ++ 'T' :: ((padded 2 ts.fields.hour ++
        ':' :: (padded 2 ts.fields.minute ++ ':' :: (padded 2 ts.fields.second ++
          (if ts.fields.microsecond = 0 then [] else '.' :: padded 6 ts.fields.microsecond)))) ++
            (ts.tzinfo.map offsetText).getD []) := by
    simp [isoformat, clockText]
  rw [htext]
  exact fromisoformat_reads hv
    ⟨_, _, _, rfl, reads_padded hyear, reads_padded hmonth, reads_padded hday⟩
    (hclock.ascii.append (offset_ascii ts.tzinfo)) htime

/-- A value in UTC among all the others. -/
def ofUtc (d : Datetime) : Timestamp := ⟨d.fields, d.valid, some .utc⟩

theorem isoformat_ofUtc (d : Datetime) : isoformat (ofUtc d) = d.isoformat.toList := by
  simp [isoformat, ofUtc, Datetime.isoformat, offsetText, offsetBody, Timezone.utc, padded]

theorem readChar_eq {c : Char} {cs rest : List Char} (h : readChar c cs = some rest) :
    cs = c :: rest := by
  cases cs with
  | nil => cases h
  | cons x cs =>
    simp only [readChar] at h
    split at h
    · rename_i he
      cases h
      rw [he]
    · cases h

theorem readFraction_split {us : Nat} {cs rest : List Char}
    (h : readFraction cs = some (us, rest)) :
    ∃ frac, cs = frac ++ rest ∧ ReadsFraction frac us := by
  unfold readFraction at h
  split at h
  · obtain ⟨fs, rfl, hfs⟩ := reads_of_readNat h
    exact ⟨'.' :: fs, rfl, .inr ⟨fs, rfl, hfs⟩⟩
  · cases h
    exact ⟨[], rfl, .inl ⟨rfl, rfl⟩⟩

/-- The reader of texts in UTC reads them as `datetime.fromisoformat` does. -/
theorem fromisoformat_utc {s : String} {d : Datetime} (h : Datetime.fromisoformat s = some d) :
    fromisoformat s.toList = some (ofUtc d) := by
  obtain ⟨⟨year, c₁⟩, hyear, h⟩ := Option.bind_eq_some_iff.mp h
  obtain ⟨c₂, hdash₁, h⟩ := Option.bind_eq_some_iff.mp h
  obtain ⟨⟨month, c₃⟩, hmonth, h⟩ := Option.bind_eq_some_iff.mp h
  obtain ⟨c₄, hdash₂, h⟩ := Option.bind_eq_some_iff.mp h
  obtain ⟨⟨day, c₅⟩, hday, h⟩ := Option.bind_eq_some_iff.mp h
  obtain ⟨c₆, ht, h⟩ := Option.bind_eq_some_iff.mp h
  obtain ⟨⟨hour, c₇⟩, hhour, h⟩ := Option.bind_eq_some_iff.mp h
  obtain ⟨c₈, hcolon₁, h⟩ := Option.bind_eq_some_iff.mp h
  obtain ⟨⟨minute, c₉⟩, hminute, h⟩ := Option.bind_eq_some_iff.mp h
  obtain ⟨c₁₀, hcolon₂, h⟩ := Option.bind_eq_some_iff.mp h
  obtain ⟨⟨second, c₁₁⟩, hsecond, h⟩ := Option.bind_eq_some_iff.mp h
  obtain ⟨⟨us, zone⟩, hus, h⟩ := Option.bind_eq_some_iff.mp h
  obtain ⟨hzone, h⟩ := Option.ite_none_right_eq_some.mp h
  obtain ⟨hv, h⟩ := Option.dite_none_right_eq_some.mp h
  cases h
  obtain ⟨ys, hs, hys⟩ := reads_of_readNat hyear
  obtain ⟨mos, rfl, hmos⟩ := reads_of_readNat hmonth
  obtain ⟨ds, rfl, hds⟩ := reads_of_readNat hday
  obtain ⟨hhs, rfl, hhhs⟩ := reads_of_readNat hhour
  obtain ⟨mis, rfl, hmis⟩ := reads_of_readNat hminute
  obtain ⟨ss, rfl, hss⟩ := reads_of_readNat hsecond
  obtain ⟨frac, rfl, hfrac⟩ := readFraction_split hus
  rw [readChar_eq hdash₁, readChar_eq hdash₂, readChar_eq ht, readChar_eq hcolon₁,
    readChar_eq hcolon₂] at hs
  have hclock : ReadsClock (hhs ++ ':' :: (mis ++ ':' :: (ss ++ frac))) hour minute second us :=
    ⟨hhs, mis, ss, frac, rfl, hhhs, hmis, hss, hfrac⟩
  have hascii : Ascii zone := by
    rcases hzone with rfl | rfl
    · exact offset_ascii (some .utc)
    · exact Ascii.cons (by decide) (List.forall_mem_nil _)
  have htime : ∃ extra, parseTime (hhs ++ ':' :: (mis ++ ':' :: (ss ++ frac)) ++ zone) =
      some (⟨[hour, minute, second], us, extra⟩, some .utc) := by
    rcases hzone with rfl | rfl
    · exact parseTime_offset hclock (some .utc)
    · exact ⟨true, parseTime_zulu hclock.mark (hclock.parseClock 'Z')⟩
  obtain ⟨extra, htime⟩ := htime
  have htext : s.toList = (ys ++ '-' :: (mos ++ '-' :: ds)) ++
      'T' :: (hhs ++ ':' :: (mis ++ ':' :: (ss ++ frac)) ++ zone) := by
    simp [hs]
  rw [htext]
  exact fromisoformat_reads hv ⟨ys, mos, ds, rfl, hys, hmos, hds⟩ (hclock.ascii.append hascii)
    htime

end BackendTemplates.Python.IsoFormat
