import BackendTemplates.Library.Pieces

namespace BackendTemplates.Python

/-- A UTF-8 sequence that is not finished: the bytes it still needs, the range the next
one must lie in, and the bits so far. -/
structure Sequence where
  need : Nat
  low : Nat
  high : Nat
  bits : Nat
  deriving DecidableEq

def replacement : Char := '\uFFFD'

/-- The first byte of a sequence. -/
def openSequence (b : Nat) : List Char × Option Sequence :=
  if b < 0x80 then ([Char.ofNat b], none)
  else if 0xC2 ≤ b ∧ b ≤ 0xDF then ([], some ⟨1, 0x80, 0xBF, b - 0xC0⟩)
  else if b = 0xE0 then ([], some ⟨2, 0xA0, 0xBF, 0⟩)
  else if b = 0xED then ([], some ⟨2, 0x80, 0x9F, 0xD⟩)
  else if 0xE1 ≤ b ∧ b ≤ 0xEF then ([], some ⟨2, 0x80, 0xBF, b - 0xE0⟩)
  else if b = 0xF0 then ([], some ⟨3, 0x90, 0xBF, 0⟩)
  else if 0xF1 ≤ b ∧ b ≤ 0xF3 then ([], some ⟨3, 0x80, 0xBF, b - 0xF0⟩)
  else if b = 0xF4 then ([], some ⟨3, 0x80, 0x8F, 4⟩)
  else ([replacement], none)

/-- What one byte adds to the text. A byte that cannot continue a sequence ends it with a
replacement character and is read again as a first byte. -/
def decodeByte (b : Nat) : Option Sequence → List Char × Option Sequence
  | none => openSequence b
  | some s =>
    if s.low ≤ b ∧ b ≤ s.high then
      if s.need = 1 then ([Char.ofNat (s.bits * 64 + (b - 0x80))], none)
      else ([], some ⟨s.need - 1, 0x80, 0xBF, s.bits * 64 + (b - 0x80)⟩)
    else (replacement :: (openSequence b).1, (openSequence b).2)

def decodeFrom : Option Sequence → List UInt8 → List Char
  | none, [] => []
  | some _, [] => [replacement]
  | state, b :: bs =>
    (decodeByte b.toNat state).1 ++ decodeFrom (decodeByte b.toNat state).2 bs

/-- `bytes.decode("utf-8", "replace")`. -/
def decodeReplace (bytes : List UInt8) : List Char := decodeFrom none bytes

/-- `str.rstrip("\r")`. -/
def rstripCr (text : List Char) : List Char := (text.reverse.dropWhile (· == '\r')).reverse

example : decodeReplace [0x61, 0xE2, 0x82, 0xAC, 0xE2, 0x82, 0x62, 0xFF] =
    ['a', '€', replacement, 'b', replacement] := by decide

/-- `str.encode()`. -/
def utf8 (text : String) : List UInt8 := text.toUTF8.data.toList

/-- `bytes.decode()`. `none` is the `UnicodeDecodeError`. -/
def decodeStrict (bytes : List UInt8) : Option String := String.fromUTF8? ⟨bytes.toArray⟩

theorem decodeStrict_utf8 (text : String) : decodeStrict (utf8 text) = some text := by
  have hb : (⟨(utf8 text).toArray⟩ : ByteArray) = text.toByteArray := rfl
  unfold decodeStrict String.fromUTF8?
  simp only [hb, text.isValidUTF8, dite_true]
  rfl

theorem utf8_of_decodeStrict {bytes : List UInt8} {text : String}
    (h : decodeStrict bytes = some text) : utf8 text = bytes := by
  unfold decodeStrict String.fromUTF8? at h
  split at h
  · cases h
    rfl
  · cases h

theorem utf8_injective {s t : String} (h : utf8 s = utf8 t) : s = t := by
  apply String.toByteArray_inj.mp
  apply ByteArray.ext
  exact Array.toList_inj.mp h

end BackendTemplates.Python
