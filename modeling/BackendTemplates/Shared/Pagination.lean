import BackendTemplates.Python.Base64
import BackendTemplates.Python.Datetime
import BackendTemplates.Python.Uuid

namespace BackendTemplates.Shared
open Python

/-- `text.split(sep, 1)`, when it has two parts. -/
def splitOnce (sep : Char) : List Char → Option (List Char × List Char)
  | [] => none
  | c :: cs =>
    if c = sep then some ([], cs) else (splitOnce sep cs).map (fun p => (c :: p.1, p.2))

def encodeCursor (ts : Datetime) (itemId : Uuid) : String :=
  String.ofList (Base64.encode (utf8 (ts.isoformat ++ "|" ++ itemId.str)))

/-- `none` is the `ValueError` of a malformed token. -/
def decodeCursor (cursor : String) : Option (Datetime × Uuid) := do
  let raw ← Base64.decode cursor.toList
  let text ← decodeStrict raw
  let (tsStr, idStr) ← splitOnce '|' text.toList
  let ts ← Datetime.fromisoformat (String.ofList tsStr)
  let itemId ← Uuid.ofStr (String.ofList idStr)
  some (ts, itemId)

theorem splitOnce_append {sep : Char} {cs ds : List Char} (h : sep ∉ cs) :
    splitOnce sep (cs ++ sep :: ds) = some (cs, ds) := by
  induction cs with
  | nil => simp [splitOnce]
  | cons c cs ih =>
    simp only [List.mem_cons, not_or] at h
    simp [splitOnce, Ne.symm h.1, ih h.2]

theorem digitChar_plain : ∀ d < 10, Nat.digitChar d ≠ '|' := by decide

theorem bar_not_mem_padded (w n : Nat) : '|' ∉ Datetime.padded w n := by
  induction w with
  | zero => simp [Datetime.padded]
  | succ w ih =>
    have hd := digitChar_plain (n / 10 ^ w % 10) (Nat.mod_lt _ (by decide))
    simp [Datetime.padded, Ne.symm hd, ih]

theorem bar_not_mem_isoformat (ts : Datetime) : '|' ∉ ts.isoformat.toList := by
  have hf : '|' ∉ (if ts.fields.microsecond = 0 then []
      else '.' :: Datetime.padded 6 ts.fields.microsecond) := by
    split
    · simp
    · simp [bar_not_mem_padded]
  simp [Datetime.isoformat, Datetime.clockText, bar_not_mem_padded, hf]

/-- A cursor names the position it was made from. -/
theorem decodeCursor_encodeCursor (ts : Datetime) (itemId : Uuid) :
    decodeCursor (encodeCursor ts itemId) = some (ts, itemId) := by
  have htext : (ts.isoformat ++ "|" ++ itemId.str).toList =
      ts.isoformat.toList ++ '|' :: itemId.str.toList := by
    simp
  simp only [decodeCursor, encodeCursor, String.toList_ofList, Base64.decode_encode,
    decodeStrict_utf8, htext, splitOnce_append (bar_not_mem_isoformat ts), String.ofList_toList,
    Datetime.fromisoformat_isoformat, Uuid.ofStr_str, Option.bind_eq_bind, Option.bind_some]

end BackendTemplates.Shared
