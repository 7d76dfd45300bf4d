import BackendTemplates.Python.Bytes

namespace BackendTemplates.Python.Base64

/-- The character of six bits. -/
def digitChar (d : Nat) : Char :=
  if d < 26 then Char.ofNat (65 + d)
  else if d < 52 then Char.ofNat (97 + (d - 26))
  else if d < 62 then Char.ofNat (48 + (d - 52))
  else if d = 62 then '-' else '_'

/-- The six bits of a character. The standard alphabet is read too. -/
def digit? (c : Char) : Option Nat :=
  if 65 ≤ c.toNat ∧ c.toNat ≤ 90 then some (c.toNat - 65)
  else if 97 ≤ c.toNat ∧ c.toNat ≤ 122 then some (c.toNat - 97 + 26)
  else if 48 ≤ c.toNat ∧ c.toNat ≤ 57 then some (c.toNat - 48 + 52)
  else if c = '-' ∨ c = '+' then some 62
  else if c = '_' ∨ c = '/' then some 63
  else none

def encode : List UInt8 → List Char
  | [] => []
  | [a] => [digitChar (a.toNat / 4), digitChar (a.toNat % 4 * 16), '=', '=']
  | [a, b] => [digitChar (a.toNat / 4), digitChar (a.toNat % 4 * 16 + b.toNat / 16),
      digitChar (b.toNat % 16 * 4), '=']
  | a :: b :: c :: bytes =>
    digitChar (a.toNat / 4) :: digitChar (a.toNat % 4 * 16 + b.toNat / 16) ::
      digitChar (b.toNat % 16 * 4 + c.toNat / 64) :: digitChar (c.toNat % 64) :: encode bytes

/-- The loop of `a2b_base64`, not strict: characters outside the alphabet are skipped, and
so is padding before it completes a quad. `none` is the `binascii.Error`. -/
def decodeFrom : Nat → Nat → Nat → List Char → Option (List UInt8)
  | quadPos, _, _, [] => if quadPos = 0 then some [] else none
  | quadPos, leftChar, pads, c :: cs =>
    if c = '=' then
      if 2 ≤ quadPos then
        if 4 ≤ quadPos + (pads + 1) then some [] else decodeFrom quadPos leftChar (pads + 1) cs
      else decodeFrom quadPos leftChar pads cs
    else match digit? c with
      | none => decodeFrom quadPos leftChar pads cs
      | some d => match quadPos with
        | 0 => decodeFrom 1 d 0 cs
        | 1 => (decodeFrom 2 (d % 16) 0 cs).map (UInt8.ofNat (leftChar * 4 + d / 16) :: ·)
        | 2 => (decodeFrom 3 (d % 4) 0 cs).map (UInt8.ofNat (leftChar * 16 + d / 4) :: ·)
        | _ => (decodeFrom 0 0 0 cs).map (UInt8.ofNat (leftChar * 64 + d) :: ·)

def decode (text : List Char) : Option (List UInt8) := decodeFrom 0 0 0 text

theorem digit_digitChar : ∀ d < 64, digitChar d ≠ '=' ∧ digit? (digitChar d) = some d := by
  decide

theorem decodeFrom_digit {d : Nat} (h : d < 64) (quadPos leftChar pads : Nat) (cs : List Char) :
    decodeFrom quadPos leftChar pads (digitChar d :: cs) =
      match quadPos with
      | 0 => decodeFrom 1 d 0 cs
      | 1 => (decodeFrom 2 (d % 16) 0 cs).map (UInt8.ofNat (leftChar * 4 + d / 16) :: ·)
      | 2 => (decodeFrom 3 (d % 4) 0 cs).map (UInt8.ofNat (leftChar * 16 + d / 4) :: ·)
      | _ => (decodeFrom 0 0 0 cs).map (UInt8.ofNat (leftChar * 64 + d) :: ·) := by
  obtain ⟨hpad, hd⟩ := digit_digitChar d h
  simp only [decodeFrom, hpad, if_false, hd]

theorem decodeFrom_pad (leftChar : Nat) (cs : List Char) :
    decodeFrom 2 leftChar 0 ('=' :: '=' :: cs) = some [] ∧
      decodeFrom 3 leftChar 0 ('=' :: cs) = some [] := ⟨rfl, rfl⟩

/-- What is encoded is decoded again. -/
theorem decode_encode (bytes : List UInt8) : decode (encode bytes) = some bytes := by
  unfold decode
  induction bytes using encode.induct with
  | case1 => rfl
  | case2 a =>
    have ha := a.toNat_lt
    have d₁ : a.toNat / 4 < 64 := by omega
    have d₂ : a.toNat % 4 * 16 < 64 := by omega
    have first : a.toNat / 4 * 4 + a.toNat % 4 * 16 / 16 = a.toNat := by omega
    simp only [encode, decodeFrom_digit d₁, decodeFrom_digit d₂, decodeFrom_pad, Option.map_some,
      first, UInt8.ofNat_toNat]
  | case3 a b =>
    have ha := a.toNat_lt
    have hb := b.toNat_lt
    have d₁ : a.toNat / 4 < 64 := by omega
    have d₂ : a.toNat % 4 * 16 + b.toNat / 16 < 64 := by omega
    have d₃ : b.toNat % 16 * 4 < 64 := by omega
    have first : a.toNat / 4 * 4 + (a.toNat % 4 * 16 + b.toNat / 16) / 16 = a.toNat := by omega
    have second : (a.toNat % 4 * 16 + b.toNat / 16) % 16 * 16 + b.toNat % 16 * 4 / 4 =
        b.toNat := by omega
    simp only [encode, decodeFrom_digit d₁, decodeFrom_digit d₂, decodeFrom_digit d₃,
      decodeFrom_pad, Option.map_some, first, second, UInt8.ofNat_toNat]
  | case4 a b c bytes ih =>
    have ha := a.toNat_lt
    have hb := b.toNat_lt
    have hc := c.toNat_lt
    have d₁ : a.toNat / 4 < 64 := by omega
    have d₂ : a.toNat % 4 * 16 + b.toNat / 16 < 64 := by omega
    have d₃ : b.toNat % 16 * 4 + c.toNat / 64 < 64 := by omega
    have d₄ : c.toNat % 64 < 64 := by omega
    have first : a.toNat / 4 * 4 + (a.toNat % 4 * 16 + b.toNat / 16) / 16 = a.toNat := by omega
    have second : (a.toNat % 4 * 16 + b.toNat / 16) % 16 * 16 +
        (b.toNat % 16 * 4 + c.toNat / 64) / 4 = b.toNat := by omega
    have third : (b.toNat % 16 * 4 + c.toNat / 64) % 4 * 64 + c.toNat % 64 = c.toNat := by omega
    simp only [encode, decodeFrom_digit d₁, decodeFrom_digit d₂, decodeFrom_digit d₃,
      decodeFrom_digit d₄, ih, Option.map_some, first, second, third, UInt8.ofNat_toNat]

theorem digitChar_ascii : ∀ d < 64, (digitChar d).toNat < 128 := by decide

theorem encode_ascii (bytes : List UInt8) : ∀ c ∈ encode bytes, c.toNat < 128 := by
  have hpad : '='.toNat < 128 := by decide
  induction bytes using encode.induct with
  | case1 => simp [encode]
  | case2 a =>
    have ha := a.toNat_lt
    have d₁ := digitChar_ascii (a.toNat / 4) (by omega)
    have d₂ := digitChar_ascii (a.toNat % 4 * 16) (by omega)
    simp only [encode, List.forall_mem_cons]
    exact ⟨d₁, d₂, hpad, hpad, by simp⟩
  | case3 a b =>
    have ha := a.toNat_lt
    have hb := b.toNat_lt
    have d₁ := digitChar_ascii (a.toNat / 4) (by omega)
    have d₂ := digitChar_ascii (a.toNat % 4 * 16 + b.toNat / 16) (by omega)
    have d₃ := digitChar_ascii (b.toNat % 16 * 4) (by omega)
    simp only [encode, List.forall_mem_cons]
    exact ⟨d₁, d₂, d₃, hpad, by simp⟩
  | case4 a b c bytes ih =>
    have ha := a.toNat_lt
    have hb := b.toNat_lt
    have hc := c.toNat_lt
    have d₁ := digitChar_ascii (a.toNat / 4) (by omega)
    have d₂ := digitChar_ascii (a.toNat % 4 * 16 + b.toNat / 16) (by omega)
    have d₃ := digitChar_ascii (b.toNat % 16 * 4 + c.toNat / 64) (by omega)
    have d₄ := digitChar_ascii (c.toNat % 64) (by omega)
    simp only [encode, List.forall_mem_cons]
    exact ⟨d₁, d₂, d₃, d₄, ih⟩

end BackendTemplates.Python.Base64
