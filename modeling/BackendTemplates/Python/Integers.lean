import BackendTemplates.Python.Uuid

namespace BackendTemplates.Python

/-- `sys.get_int_max_str_digits()`: how many digits both read and write. -/
def maxStrDigits : Nat := 4300

/-- `str(n)`. -/
def intText (n : Int) : List Char :=
  if n < 0 then '-' :: Nat.toDigits 10 n.natAbs else Nat.toDigits 10 n.natAbs

/-- Decimal digits, with single underscores between them. -/
def digitRun : List Char → Option (List Char)
  | [] => none
  | [c] => if c.isDigit then some [c] else none
  | c :: '_' :: cs => if c.isDigit then (digitRun cs).map (c :: ·) else none
  | c :: cs => if c.isDigit then (digitRun cs).map (c :: ·) else none

def readDigits (cs : List Char) : Option Nat :=
  (digitRun cs).bind fun ds =>
    if ds.length ≤ maxStrDigits then some (Nat.ofDigitChars 10 ds 0) else none

/-- `int(text)`. `none` is the `ValueError`. -/
def readInt (text : List Char) : Option Int :=
  match strip isBlank (text.map asciiOf) with
  | '-' :: cs => (readDigits cs).map (fun n : Nat => -(n : Int))
  | '+' :: cs => (readDigits cs).map (fun n : Nat => (n : Int))
  | cs => (readDigits cs).map (fun n : Nat => (n : Int))

/-- It has no more digits than are read and written. -/
def Printable (n : Int) : Prop := (Nat.toDigits 10 n.natAbs).length ≤ maxStrDigits

instance (n : Int) : Decidable (Printable n) := inferInstanceAs (Decidable (_ ≤ _))

theorem Printable.smaller {n m : Int} (h : Printable m) (hle : n.natAbs ≤ m.natAbs) :
    Printable n :=
  (Nat.length_toDigits_le_iff (by decide) (by decide)).mpr (Nat.lt_of_le_of_lt hle
    ((Nat.length_toDigits_le_iff (by decide) (by decide)).mp h))

example : readInt " -٥_6 ".toList = some (-56) := by decide +kernel

theorem isDigit_plain {c : Char} (h : c.isDigit = true) :
    asciiOf c = c ∧ isBlank c = false ∧ c ≠ '_' ∧ c ≠ '+' ∧ c ≠ '-' := by
  simp only [Char.isDigit, Bool.and_eq_true, decide_eq_true_eq, ge_iff_le, UInt32.le_iff_toNat_le]
    at h
  obtain ⟨hlow, hhigh⟩ := h
  change 48 ≤ c.toNat at hlow
  change c.toNat ≤ 57 at hhigh
  have apart (d : Char) (hd : d.toNat < 48 ∨ 57 < d.toNat) : c ≠ d := by
    rintro rfl
    omega
  have hspace : c ≠ ' ' := apart ' ' (by decide)
  refine ⟨if_pos (by omega), ?_, apart '_' (by decide), apart '+' (by decide),
    apart '-' (by decide)⟩
  simp only [isBlank, Bool.or_eq_false_iff, Bool.and_eq_false_iff, decide_eq_false_iff_not,
    beq_eq_false_iff_ne, ne_eq]
  exact ⟨.inr (by omega), hspace⟩

theorem digitRun_digits {ds : List Char} (h : ∀ c ∈ ds, c.isDigit = true) (hne : ds ≠ []) :
    digitRun ds = some ds := by
  induction ds with
  | nil => exact absurd rfl hne
  | cons c ds ih =>
    have hc := h c (by simp)
    cases ds with
    | nil => simp [digitRun, hc]
    | cons d ds =>
      have hno := (isDigit_plain (h d (by simp))).2.2.1
      have ih := ih (fun e he => h e (List.mem_cons_of_mem c he)) (by simp)
      rw [digitRun]
      · simp [hc, ih]
      · exact List.cons_ne_nil _ _
      · intro cs hcs
        exact hno (List.cons.inj hcs).1

theorem digitRun_isDigit {cs ds : List Char} (h : digitRun cs = some ds) :
    ∀ c ∈ ds, c.isDigit = true := by
  have cons {c : Char} {r : Option (List Char)} {ds : List Char}
      (h : (if c.isDigit then r.map (c :: ·) else none) = some ds)
      (ih : ∀ es, r = some es → ∀ d ∈ es, d.isDigit = true) : ∀ d ∈ ds, d.isDigit = true := by
    split at h
    · rename_i hc
      obtain ⟨es, hes, rfl⟩ := Option.map_eq_some_iff.mp h
      exact List.forall_mem_cons.mpr ⟨hc, ih es hes⟩
    · cases h
  fun_induction digitRun cs generalizing ds with
  | case1 => cases h
  | case2 c hc =>
    cases h
    simpa using hc
  | case3 => cases h
  | case4 c cs hc ih => exact cons (by rwa [if_pos hc]) (fun es hes => ih hes)
  | case5 => cases h
  | case6 c cs hne hno hc ih => exact cons (by rwa [if_pos hc]) (fun es hes => ih hes)
  | case7 => cases h

theorem readDigits_digits {ds : List Char} (h : ∀ c ∈ ds, c.isDigit = true) (hne : ds ≠ [])
    (hlen : ds.length ≤ maxStrDigits) : readDigits ds = some (Nat.ofDigitChars 10 ds 0) := by
  rw [readDigits, digitRun_digits h hne, Option.bind_some, if_pos hlen]

theorem asciiOf_digits {ds : List Char} (h : ∀ c ∈ ds, c.isDigit = true) :
    ds.map asciiOf = ds := by
  conv_rhs => rw [← List.map_id ds]
  exact List.map_congr_left fun c hc => (isDigit_plain (h c hc)).1

/-- Digits without a sign. -/
theorem readInt_digits {ds : List Char} (h : ∀ c ∈ ds, c.isDigit = true) (hne : ds ≠ [])
    (hlen : ds.length ≤ maxStrDigits) :
    readInt ds = some ((Nat.ofDigitChars 10 ds 0 : Nat) : Int) := by
  rw [readInt, asciiOf_digits h, strip_plain fun c hc => (isDigit_plain (h c hc)).2.1]
  split
  · exact absurd rfl (isDigit_plain (h '-' (by simp))).2.2.2.2
  · exact absurd rfl (isDigit_plain (h '+' (by simp))).2.2.2.1
  · rw [readDigits_digits h hne hlen, Option.map_some]

/-- What is written is read again. -/
theorem readInt_intText {n : Int} (h : Printable n) : readInt (intText n) = some n := by
  have hdigits : ∀ c ∈ Nat.toDigits 10 n.natAbs, c.isDigit = true := fun c hc =>
    Nat.isDigit_of_mem_toDigits (by decide) (by decide) hc
  have hread := readDigits_digits hdigits Nat.toDigits_ne_nil h
  rw [Nat.ofDigitChars_ten_toDigits] at hread
  unfold intText
  split
  · rename_i hneg
    have hsign : ∀ c ∈ '-' :: Nat.toDigits 10 n.natAbs, isBlank c = false :=
      List.forall_mem_cons.mpr ⟨by decide, fun c hc => (isDigit_plain (hdigits c hc)).2.1⟩
    have hminus : asciiOf '-' = '-' := by decide
    rw [readInt, List.map_cons, asciiOf_digits hdigits, hminus, strip_plain hsign]
    simp only [hread, Option.map_some, Option.some.injEq]
    omega
  · rename_i hpos
    rw [readInt_digits hdigits Nat.toDigits_ne_nil h, Nat.ofDigitChars_ten_toDigits]
    exact congrArg some (Int.natAbs_of_nonneg (Int.not_lt.mp hpos))

/-- Reading digits gives a number that needs no more of them. -/
theorem length_toDigits_ofDigitChars {ds : List Char} (h : ∀ c ∈ ds, c.isDigit = true)
    (hne : ds ≠ []) : (Nat.toDigits 10 (Nat.ofDigitChars 10 ds 0)).length ≤ ds.length := by
  have bound (ds : List Char) (h : ∀ c ∈ ds, c.isDigit = true) :
      Nat.ofDigitChars 10 ds 0 < 10 ^ ds.length := by
    induction ds with
    | nil => simp
    | cons c ds ih =>
      have ih := ih fun d hd => h d (List.mem_cons_of_mem c hd)
      have hc := h c (by simp)
      simp only [Char.isDigit, Bool.and_eq_true, decide_eq_true_eq, ge_iff_le,
        UInt32.le_iff_toNat_le] at hc
      have hhigh : c.toNat ≤ 57 := hc.2
      rw [Nat.ofDigitChars_cons, Nat.ofDigitChars_eq_ofDigitChars_zero, List.length_cons,
        Nat.pow_succ]
      have hdigit : 10 ^ ds.length * (10 * 0 + (c.toNat - '0'.toNat)) ≤ 10 ^ ds.length * 9 :=
        Nat.mul_le_mul_left _ (by change _ + (c.toNat - 48) ≤ 9; omega)
      omega
  exact (Nat.length_toDigits_le_iff (by decide) (List.length_pos_iff.mpr hne)).mpr (bound ds h)

theorem digitRun_ne_nil {cs ds : List Char} (h : digitRun cs = some ds) : ds ≠ [] := by
  rintro rfl
  unfold digitRun at h
  split at h <;> simp_all

/-- What is read can be written. -/
theorem printable_of_readInt {text : List Char} {n : Int} (h : readInt text = some n) :
    Printable n := by
  have hnat {cs : List Char} {m : Nat} (hm : readDigits cs = some m) :
      (Nat.toDigits 10 m).length ≤ maxStrDigits := by
    obtain ⟨ds, hds, hm⟩ := Option.bind_eq_some_iff.mp hm
    simp only [Option.ite_none_right_eq_some, Option.some.injEq] at hm
    obtain ⟨hlen, rfl⟩ := hm
    exact Nat.le_trans
      (length_toDigits_ofDigitChars (digitRun_isDigit hds) (digitRun_ne_nil hds)) hlen
  unfold readInt at h
  unfold Printable
  split at h
  all_goals
    obtain ⟨m, hm, rfl⟩ := Option.map_eq_some_iff.mp h
    simpa using hnat hm

end BackendTemplates.Python
