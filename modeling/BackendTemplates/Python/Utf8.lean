import BackendTemplates.Python.Bytes

namespace BackendTemplates.Python

/-- What one byte adds to the text when errors are ignored. -/
def ignoreByte (b : Nat) : Option Sequence → List Char × Option Sequence
  | none => if b < 0x80 then openSequence b else ([], (openSequence b).2)
  | some s =>
    if s.low ≤ b ∧ b ≤ s.high then decodeByte b (some s)
    else if b < 0x80 then openSequence b else ([], (openSequence b).2)

def ignoreFrom : Option Sequence → List UInt8 → List Char
  | _, [] => []
  | state, b :: bs => (ignoreByte b.toNat state).1 ++ ignoreFrom (ignoreByte b.toNat state).2 bs

/-- `bytes.decode("utf-8", "ignore")`. -/
def decodeIgnore (bytes : List UInt8) : List Char := ignoreFrom none bytes

example : decodeIgnore [0x61, 0xE2, 0x82, 0xAC, 0xE2, 0x82, 0x62, 0xFF, 0xE2, 0x82] =
    ['a', '€', 'b'] := by decide

/-- Bytes that finish a sequence, and the character they finish. -/
inductive Carries : Sequence → List UInt8 → Char → Prop where
  | last {s : Sequence} {b : UInt8} {c : Char} (need : s.need = 1) (tail : 0x80 ≤ b.toNat)
      (range : s.low ≤ b.toNat ∧ b.toNat ≤ s.high)
      (char : Char.ofNat (s.bits * 64 + (b.toNat - 0x80)) = c) : Carries s [b] c
  | more {s : Sequence} {b : UInt8} {bs : List UInt8} {c : Char} (need : s.need ≠ 1)
      (tail : 0x80 ≤ b.toNat) (range : s.low ≤ b.toNat ∧ b.toNat ≤ s.high)
      (rest : Carries ⟨s.need - 1, 0x80, 0xBF, s.bits * 64 + (b.toNat - 0x80)⟩ bs c) :
      Carries s (b :: bs) c

theorem openSequence_two : ∀ a < 32, 2 ≤ a →
    openSequence (a + 0xC0) = ([], some ⟨1, 0x80, 0xBF, a⟩) := by decide

theorem openSequence_three : ∀ a < 16, openSequence (a + 0xE0) =
    ([], some ⟨2, if a = 0 then 0xA0 else 0x80, if a = 13 then 0x9F else 0xBF, a⟩) := by decide

theorem openSequence_four : ∀ a < 5, openSequence (a + 0xF0) =
    ([], some ⟨3, if a = 0 then 0x90 else 0x80, if a = 4 then 0x8F else 0xBF, a⟩) := by decide

theorem toNat_byte {n : Nat} (h : n < 256) : (UInt8.ofNat n).toNat = n := by
  rw [UInt8.toNat_ofNat']
  exact Nat.mod_eq_of_lt h

/-- The last byte of a character's sequence. -/
theorem Carries.close {bits low high v : Nat} (hbits : bits = v / 64)
    (hlow : low ≤ v % 64 + 0x80) (hhigh : v % 64 + 0x80 ≤ high) :
    Carries ⟨1, low, high, bits⟩ [UInt8.ofNat (v % 64 + 0x80)] (Char.ofNat v) := by
  have hb := toNat_byte (show v % 64 + 0x80 < 256 by omega)
  refine .last rfl (by omega) (by rw [hb]; exact ⟨hlow, hhigh⟩) ?_
  rw [hb]
  have hv : bits * 64 + (v % 64 + 0x80 - 0x80) = v := by omega
  exact congrArg Char.ofNat hv

/-- A byte before the last one. -/
theorem Carries.next {need bits low high d : Nat} {bs : List UInt8} {c : Char} (hneed : need ≠ 0)
    (hd : d < 64) (hlow : low ≤ d + 0x80) (hhigh : d + 0x80 ≤ high)
    (h : Carries ⟨need, 0x80, 0xBF, bits * 64 + d⟩ bs c) :
    Carries ⟨need + 1, low, high, bits⟩ (UInt8.ofNat (d + 0x80) :: bs) c := by
  have hb := toNat_byte (show d + 0x80 < 256 by omega)
  refine .more (by simpa using hneed) (by omega) (by rw [hb]; exact ⟨hlow, hhigh⟩) ?_
  have hdigit : d + 0x80 - 0x80 = d := by omega
  rw [hb, hdigit]
  exact h

/-- A character is one byte, or a first byte and bytes that finish the sequence it opens. -/
theorem char_bytes (c : Char) :
    (∃ b : UInt8, String.utf8EncodeChar c = [b] ∧ b.toNat < 0x80 ∧ Char.ofNat b.toNat = c) ∨
      ∃ (b : UInt8) (bs : List UInt8) (s : Sequence), String.utf8EncodeChar c = b :: bs ∧
        0x80 ≤ b.toNat ∧ openSequence b.toNat = ([], some s) ∧ Carries s bs c := by
  have hc : Char.ofNat c.toNat = c := Char.ofNat_toNat c
  have hvalid : c.toNat.isValidChar := c.valid
  have hv : c.val.toNat = c.toNat := rfl
  unfold Nat.isValidChar at hvalid
  unfold String.utf8EncodeChar
  simp only [hv]
  generalize c.toNat = v at *
  subst hc
  by_cases h1 : v ≤ 0x7f
  · have hb := toNat_byte (show v < 256 by omega)
    exact .inl ⟨_, if_pos h1, by omega, by rw [hb]⟩
  · right
    by_cases h2 : v ≤ 0x7ff
    · have hb := toNat_byte (show v / 64 % 32 + 0xC0 < 256 by omega)
      have hs := openSequence_two (v / 64 % 32) (by omega) (by omega)
      rw [if_neg h1, if_pos h2]
      exact ⟨_, _, _, rfl, by omega, by rw [hb]; exact hs,
        .close (by omega) (by omega) (by omega)⟩
    · by_cases h3 : v ≤ 0xffff
      · have hb := toNat_byte (show v / 4096 % 16 + 0xE0 < 256 by omega)
        have hs := openSequence_three (v / 4096 % 16) (by omega)
        rw [if_neg h1, if_neg h2, if_pos h3]
        refine ⟨_, _, _, rfl, by omega, by rw [hb]; exact hs, ?_⟩
        refine .next (by decide) (by omega) ?_ ?_ (.close (by omega) (by omega) (by omega))
        · split <;> omega
        · split <;> omega
      · have hb := toNat_byte (show v / 262144 % 8 + 0xF0 < 256 by omega)
        have hs := openSequence_four (v / 262144 % 8) (by omega)
        rw [if_neg h1, if_neg h2, if_neg h3]
        refine ⟨_, _, _, rfl, by omega, by rw [hb]; exact hs, ?_⟩
        refine .next (by decide) (by omega) ?_ ?_ ?_
        · split <;> omega
        · split <;> omega
        · exact .next (by decide) (by omega) (by omega) (by omega)
            (.close (by omega) (by omega) (by omega))

section
variable {s : Sequence} {bs : List UInt8} {c : Char}

theorem Carries.ignored (h : Carries s bs c) (after : List UInt8) :
    ignoreFrom (some s) (bs ++ after) = c :: ignoreFrom none after := by
  induction h with
  | last need tail range char => simp [ignoreFrom, ignoreByte, decodeByte, need, range, char]
  | more need tail range rest ih => simp [ignoreFrom, ignoreByte, decodeByte, need, range, ih]

theorem Carries.replaced (h : Carries s bs c) (after : List UInt8) :
    decodeFrom (some s) (bs ++ after) = c :: decodeFrom none after := by
  induction h with
  | last need tail range char => simp [decodeFrom, decodeByte, need, range, char]
  | more need tail range rest ih => simp [decodeFrom, decodeByte, need, range, ih]

theorem Carries.tails (h : Carries s bs c) : ∀ b ∈ bs, 0x80 ≤ b.toNat := by
  induction h with
  | last need tail range char => simpa using tail
  | more need tail range rest ih => simpa using ⟨tail, ih⟩

theorem Carries.torn (h : Carries s bs c) {count : Nat} (hc : count < bs.length) :
    ignoreFrom (some s) (bs.take count) = [] := by
  induction h generalizing count with
  | last need tail range char =>
    obtain rfl : count = 0 := by simpa using hc
    rfl
  | more need tail range rest ih =>
    cases count with
    | zero => rfl
    | succ count =>
      have hrest := ih (Nat.lt_of_succ_lt_succ hc)
      simp [ignoreFrom, ignoreByte, decodeByte, need, range, hrest]

theorem ignoreFrom_char (c : Char) (after : List UInt8) :
    ignoreFrom none (String.utf8EncodeChar c ++ after) = c :: ignoreFrom none after := by
  rcases char_bytes c with ⟨b, henc, hb, hchar⟩ | ⟨b, bs, s, henc, hb, hopen, hcarries⟩
  · simp [henc, ignoreFrom, ignoreByte, hb, openSequence, hchar]
  · simp [henc, ignoreFrom, ignoreByte, Nat.not_lt.mpr hb, hopen, hcarries.ignored]

theorem decodeFrom_char (c : Char) (after : List UInt8) :
    decodeFrom none (String.utf8EncodeChar c ++ after) = c :: decodeFrom none after := by
  rcases char_bytes c with ⟨b, henc, hb, hchar⟩ | ⟨b, bs, s, henc, hb, hopen, hcarries⟩
  · simp [henc, decodeFrom, decodeByte, openSequence, hb, hchar]
  · simp [henc, decodeFrom, decodeByte, hopen, hcarries.replaced]

/-- An ASCII byte stands for itself only. -/
theorem mem_char_bytes {b : UInt8} (h : b ∈ String.utf8EncodeChar c) (hb : b.toNat < 0x80) :
    Char.ofNat b.toNat = c := by
  rcases char_bytes c with ⟨a, henc, -, hchar⟩ | ⟨a, bs, s, henc, ha, -, hcarries⟩
  · obtain rfl : b = a := by simpa [henc] using h
    exact hchar
  · rw [henc] at h
    rcases List.mem_cons.mp h with rfl | h
    · omega
    · have := hcarries.tails b h
      omega

theorem ignoreFrom_torn {count : Nat} (h : count < (String.utf8EncodeChar c).length) :
    ignoreFrom none ((String.utf8EncodeChar c).take count) = [] := by
  cases count with
  | zero => rfl
  | succ count =>
    rcases char_bytes c with ⟨b, henc, hb, hchar⟩ | ⟨b, bs, s, henc, hb, hopen, hcarries⟩
    · simp [henc] at h
    · rw [henc] at h ⊢
      have hrest := hcarries.torn (Nat.lt_of_succ_lt_succ h)
      simp [ignoreFrom, ignoreByte, Nat.not_lt.mpr hb, hopen, hrest]

end

/-- The bytes of a text are those of its characters. -/
theorem utf8_eq (text : String) : utf8 text = text.toList.flatMap String.utf8EncodeChar := by
  unfold utf8
  change text.toByteArray.data.toList = _
  rw [← String.utf8Encode_toList, List.utf8Encode]
  simp

/-- Bytes cut off anywhere decode to the characters that are whole. -/
theorem decodeIgnore_take (cs : List Char) (count : Nat) :
    decodeIgnore ((cs.flatMap String.utf8EncodeChar).take count) <+: cs ∧
      ((decodeIgnore ((cs.flatMap String.utf8EncodeChar).take count)).flatMap
        String.utf8EncodeChar).length ≤ count := by
  induction cs generalizing count with
  | nil => simp [decodeIgnore, ignoreFrom]
  | cons c cs ih =>
    rw [List.flatMap_cons, List.take_append]
    rcases Nat.lt_or_ge count (String.utf8EncodeChar c).length with hshort | hlong
    · have hnone : count - (String.utf8EncodeChar c).length = 0 := by omega
      have htorn : decodeIgnore ((String.utf8EncodeChar c).take count) = [] :=
        ignoreFrom_torn hshort
      rw [hnone, List.take_zero, List.append_nil, htorn]
      exact ⟨List.nil_prefix, Nat.zero_le _⟩
    · obtain ⟨hstart, hbytes⟩ := ih (count - (String.utf8EncodeChar c).length)
      have hchar (after : List UInt8) :
          decodeIgnore (String.utf8EncodeChar c ++ after) = c :: decodeIgnore after :=
        ignoreFrom_char c after
      rw [List.take_of_length_le hlong, hchar]
      refine ⟨List.cons_prefix_cons.mpr ⟨rfl, hstart⟩, ?_⟩
      rw [List.flatMap_cons, List.length_append]
      omega

/-- A text that was encoded is decoded again, without a replacement. -/
theorem decodeReplace_utf8 (text : String) : decodeReplace (utf8 text) = text.toList := by
  rw [utf8_eq, decodeReplace]
  induction text.toList with
  | nil => rfl
  | cons c cs ih => rw [List.flatMap_cons, decodeFrom_char, ih]

/-- A text ends in an ASCII byte exactly if it ends in the character of that byte. -/
theorem utf8_getLast {text : String} {c : Char} {b : UInt8} (hb : b.toNat < 0x80)
    (hc : Char.ofNat b.toNat = c) (henc : String.utf8EncodeChar c = [b]) :
    (utf8 text).getLast? = some b ↔ text.toList.getLast? = some c := by
  rw [utf8_eq]
  rcases List.eq_nil_or_concat text.toList with hnil | ⟨cs, last, hlast⟩
  · simp [hnil]
  · rw [hlast, List.concat_eq_append, List.flatMap_append, List.flatMap_singleton,
      List.getLast?_concat, Option.some.injEq]
    have hne : String.utf8EncodeChar last ≠ [] := by
      rcases char_bytes last with ⟨a, ha, -⟩ | ⟨a, as, s, ha, -⟩
      all_goals simp [ha]
    rw [List.getLast?_append_of_ne_nil _ hne]
    constructor
    · intro h
      exact (mem_char_bytes (List.mem_of_getLast? h) hb).symm.trans hc
    · rintro rfl
      rw [henc, List.getLast?_singleton]

theorem newline_not_mem_utf8 {text : String} (h : '\n' ∉ text.toList) : 10 ∉ utf8 text := by
  intro hb
  rw [utf8_eq] at hb
  obtain ⟨c, hc, hb⟩ := List.mem_flatMap.mp hb
  obtain rfl : '\n' = c := mem_char_bytes hb (by decide)
  exact h hc

/-- However the sequence goes on, it is not the sequence of a one-byte character. -/
structure Sequence.Wide (s : Sequence) : Prop where
  need : 1 ≤ s.need
  low : 0x80 ≤ s.low
  value : 2 ≤ s.bits * 64 + (s.low - 0x80)
  last : s.need = 1 → 0x80 ≤ s.bits * 64 + (s.low - 0x80)

theorem ofNat_ne_newline {n : Nat} (h : n ≠ 10) : Char.ofNat n ≠ '\n' := by
  intro he
  by_cases hv : n.isValidChar
  · rw [Char.ofNat, dif_pos hv] at he
    have hn : (Char.ofNatAux n hv).toNat = 10 := by rw [he]; rfl
    exact h hn
  · rw [Char.ofNat, dif_neg hv] at he
    cases he

theorem openSequence_newline {b : Nat} (h : b ≠ 10) :
    '\n' ∉ (openSequence b).1 ∧ ∀ s ∈ (openSequence b).2, s.Wide := by
  unfold openSequence
  split_ifs
  · simpa using (ofNat_ne_newline h).symm
  all_goals simp only [List.not_mem_nil, not_false_eq_true, Option.mem_def, Option.some.injEq,
    forall_eq', true_and, reduceCtorEq, false_implies, implies_true, and_true]
  · exact ⟨by simp, by simp, by simp only; omega, by simp only; omega⟩
  · exact ⟨by simp, by simp, by simp, by simp⟩
  · exact ⟨by simp, by simp, by simp only; omega, by simp⟩
  · exact ⟨by simp, by simp, by simp only; omega, by simp⟩
  · exact ⟨by simp, by simp, by simp, by simp⟩
  · exact ⟨by simp, by simp, by simp only; omega, by simp⟩
  · exact ⟨by simp, by simp, by simp, by simp⟩
  · decide

theorem decodeByte_newline {b : Nat} (h : b ≠ 10) {state : Option Sequence}
    (hs : ∀ s ∈ state, s.Wide) :
    '\n' ∉ (decodeByte b state).1 ∧ ∀ s ∈ (decodeByte b state).2, s.Wide := by
  cases state with
  | none => exact openSequence_newline h
  | some s =>
    have hw := hs s rfl
    have hneed := hw.need
    have hlow := hw.low
    simp only [decodeByte]
    split
    · rename_i hr
      have hv : s.bits * 64 + (s.low - 0x80) ≤ s.bits * 64 + (b - 0x80) := by omega
      have hvalue := Nat.le_trans hw.value hv
      split
      · rename_i hone
        have hlast := hw.last hone
        have hne : s.bits * 64 + (b - 0x80) ≠ 10 := by omega
        simpa using (ofNat_ne_newline hne).symm
      · rename_i hmore
        refine ⟨by simp, ?_⟩
        rintro t ht
        obtain rfl := Option.some.inj ht
        exact ⟨by simp only; omega, Nat.le_refl _, by simp only; omega, by simp only; omega⟩
    · have ho := openSequence_newline h
      exact ⟨by simpa [replacement] using ho.1, ho.2⟩

theorem newline_not_mem_decodeReplace {bytes : List UInt8} (h : 10 ∉ bytes) :
    '\n' ∉ decodeReplace bytes := by
  have hfrom : ∀ (bytes : List UInt8) (state : Option Sequence), (∀ s ∈ state, s.Wide) →
      10 ∉ bytes → '\n' ∉ decodeFrom state bytes := by
    intro bytes
    induction bytes with
    | nil => intro state _ _; cases state <;> simp [decodeFrom, replacement]
    | cons b bs ih =>
      intro state hs hb
      rw [List.mem_cons, not_or] at hb
      have hne : b.toNat ≠ 10 := fun he => hb.1 (UInt8.toNat_inj.mp he).symm
      obtain ⟨hnow, hnext⟩ := decodeByte_newline hne hs
      rw [decodeFrom, List.mem_append, not_or]
      exact ⟨hnow, ih _ hnext hb.2⟩
  exact hfrom bytes none (by simp) h

end BackendTemplates.Python
