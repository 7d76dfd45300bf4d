import BackendTemplates.Python.IsoFormat
import BackendTemplates.Shared.Pagination

namespace BackendTemplates.Shared.Cursor
open Python IsoFormat

def encodeCursor (ts : Timestamp) (itemId : Uuid) : String :=
  String.ofList (Base64.encode (utf8 (String.ofList (isoformat ts) ++ "|" ++ itemId.str)))

/-- `none` is the `ValueError` of a malformed token. -/
def decodeCursor (cursor : String) : Option (Timestamp × Uuid) := do
  let raw ← Base64.decode cursor.toList
  let text ← decodeStrict raw
  let (tsStr, idStr) ← splitOnce '|' text.toList
  let ts ← fromisoformat tsStr
  let itemId ← Uuid.ofStr (String.ofList idStr)
  some (ts, itemId)

/-- The instant of a timestamp in a session, in microseconds of UTC since the first day of
year 1. A naive one is taken to be in the session's time zone. -/
def instant (session : Timezone) (ts : Timestamp) : Int :=
  (Datetime.instant ⟨ts.fields, ts.valid⟩ : Int) - (ts.tzinfo.getD session).microseconds

/-- One instant, whatever the session's time zone. -/
def Fixed (ts : Timestamp) : Prop :=
  ∀ session session', instant session ts = instant session' ts

theorem fixed_iff {ts : Timestamp} : Fixed ts ↔ ts.tzinfo ≠ none := by
  constructor
  · intro h hnone
    have hx := h .utc ⟨1, by decide, by decide⟩
    simp only [instant, hnone, Option.getD_none, Timezone.utc] at hx
    omega
  · intro h session session'
    obtain ⟨tz, htz⟩ := Option.ne_none_iff_exists'.mp h
    simp [instant, htz]

/-- The offset is not zero and shorter than a second. -/
def SubSecond (ts : Timestamp) : Prop :=
  ∃ tz, ts.tzinfo = some tz ∧ tz.microseconds ≠ 0 ∧ tz.microseconds.natAbs < 1000000

/-- The token is the text of a time, a bar and a UUID, and nothing in the time marks an
offset. -/
def NaiveToken (token : String) : Prop :=
  ∃ raw text tsStr idStr, Base64.decode token.toList = some raw ∧ decodeStrict raw = some text ∧
    splitOnce '|' text.toList = some (tsStr, idStr) ∧
    (fromisoformat tsStr).isSome = true ∧ (Uuid.ofStr (String.ofList idStr)).isSome = true ∧
    ∀ c ∈ timeText tsStr, isZoneMark c = false

theorem readBack_eq_iff {ts : Timestamp} : ts.readBack = ts ↔ ¬ SubSecond ts := by
  obtain ⟨fields, hv, tzinfo⟩ := ts
  cases tzinfo with
  | none => simp [Timestamp.readBack, SubSecond]
  | some tz =>
    obtain ⟨us, hlow, hhigh⟩ := tz
    by_cases hsmall : us.natAbs < 1000000
    · simp [Timestamp.readBack, Timezone.readBack, Timezone.utc, SubSecond, hsmall, eq_comm]
    · simp [Timestamp.readBack, Timezone.readBack, SubSecond, hsmall]

theorem bar_not_mem_offsetText (tz : Timezone) : '|' ∉ offsetText tz := by
  have hsign : '|' ≠ (if tz.microseconds < 0 then '-' else '+') := by
    split
    all_goals decide
  have hbody : '|' ∉ offsetBody tz.microseconds.natAbs := by
    simp only [offsetBody]
    split
    · simp [bar_not_mem_padded]
    · simp [bar_not_mem_padded]
  simp [offsetText, hsign, hbody]

theorem bar_not_mem_isoformat (ts : Timestamp) : '|' ∉ isoformat ts := by
  have hclock : '|' ∉ Datetime.clockText ts.fields := by
    simp [Datetime.clockText, bar_not_mem_padded]
  unfold isoformat
  cases ts.tzinfo with
  | none => simpa using hclock
  | some tz => simpa using ⟨hclock, bar_not_mem_offsetText tz⟩

theorem decodeCursor_encodeCursor (ts : Timestamp) (itemId : Uuid) :
    decodeCursor (encodeCursor ts itemId) = some (ts.readBack, itemId) := by
  have htext : (String.ofList (isoformat ts) ++ "|" ++ itemId.str).toList =
      isoformat ts ++ '|' :: itemId.str.toList := by
    simp
  simp only [decodeCursor, encodeCursor, String.toList_ofList, Base64.decode_encode,
    decodeStrict_utf8, htext, splitOnce_append (bar_not_mem_isoformat ts), String.ofList_toList,
    fromisoformat_isoformat, Uuid.ofStr_str, Option.bind_eq_bind, Option.bind_some]

/-- What a token decodes to, if it does. -/
theorem decodeCursor_eq_some {token : String} {ts : Timestamp} {itemId : Uuid} :
    decodeCursor token = some (ts, itemId) ↔ ∃ raw text tsStr idStr,
      Base64.decode token.toList = some raw ∧ decodeStrict raw = some text ∧
        splitOnce '|' text.toList = some (tsStr, idStr) ∧ fromisoformat tsStr = some ts ∧
          Uuid.ofStr (String.ofList idStr) = some itemId := by
  constructor
  · intro h
    obtain ⟨raw, hraw, h⟩ := Option.bind_eq_some_iff.mp h
    obtain ⟨text, htext, h⟩ := Option.bind_eq_some_iff.mp h
    obtain ⟨⟨tsStr, idStr⟩, hsplit, h⟩ := Option.bind_eq_some_iff.mp h
    obtain ⟨ts', hts, h⟩ := Option.bind_eq_some_iff.mp h
    obtain ⟨itemId', hid, h⟩ := Option.bind_eq_some_iff.mp h
    cases h
    exact ⟨raw, text, tsStr, idStr, hraw, htext, hsplit, hts, hid⟩
  · intro h
    obtain ⟨raw, text, tsStr, idStr, hraw, htext, hsplit, hts, hid⟩ := h
    simp only [decodeCursor, hraw, htext, hsplit, hts, hid, Option.bind_eq_bind, Option.bind_some]

theorem naiveToken_iff {token : String} : NaiveToken token ↔
    ∃ ts itemId, decodeCursor token = some (ts, itemId) ∧ ts.tzinfo = none := by
  constructor
  · intro h
    obtain ⟨raw, text, tsStr, idStr, hraw, htext, hsplit, hts, hid, hnaive⟩ := h
    obtain ⟨ts, hts⟩ := Option.isSome_iff_exists.mp hts
    obtain ⟨itemId, hid⟩ := Option.isSome_iff_exists.mp hid
    exact ⟨ts, itemId,
      decodeCursor_eq_some.mpr ⟨raw, text, tsStr, idStr, hraw, htext, hsplit, hts, hid⟩,
      (fromisoformat_naive_iff hts).mpr hnaive⟩
  · intro h
    obtain ⟨ts, itemId, hdecode, hnaive⟩ := h
    obtain ⟨raw, text, tsStr, idStr, hraw, htext, hsplit, hts, hid⟩ :=
      decodeCursor_eq_some.mp hdecode
    exact ⟨raw, text, tsStr, idStr, hraw, htext, hsplit, by simp [hts], by simp [hid],
      (fromisoformat_naive_iff hts).mp hnaive⟩

/-- The cursors of the model in UTC are cursors of this one. -/
theorem encodeCursor_ofUtc (ts : Datetime) (itemId : Uuid) :
    encodeCursor (ofUtc ts) itemId = Shared.encodeCursor ts itemId := by
  rw [encodeCursor, isoformat_ofUtc, String.ofList_toList, Shared.encodeCursor]

theorem decodeCursor_ofUtc {token : String} {ts : Datetime} {itemId : Uuid}
    (h : Shared.decodeCursor token = some (ts, itemId)) :
    decodeCursor token = some (ofUtc ts, itemId) := by
  obtain ⟨raw, hraw, h⟩ := Option.bind_eq_some_iff.mp h
  obtain ⟨text, htext, h⟩ := Option.bind_eq_some_iff.mp h
  obtain ⟨⟨tsStr, idStr⟩, hsplit, h⟩ := Option.bind_eq_some_iff.mp h
  obtain ⟨ts', hts, h⟩ := Option.bind_eq_some_iff.mp h
  obtain ⟨itemId', hid, h⟩ := Option.bind_eq_some_iff.mp h
  cases h
  have hread : fromisoformat tsStr = some (ofUtc ts) := by
    simpa using fromisoformat_utc hts
  exact decodeCursor_eq_some.mpr ⟨raw, text, tsStr, idStr, hraw, htext, hsplit, hread, hid⟩

/-- A cursor gives back the position it was made from unless its offset is shorter than a
second. A token that decodes names one position in time unless it is naive. -/
theorem cursor_positions_iff (ts : Timestamp) (itemId : Uuid) (token : String) :
    (decodeCursor (encodeCursor ts itemId) = some (ts, itemId) ↔ ¬ SubSecond ts) ∧
      ((∀ ts' itemId', decodeCursor token = some (ts', itemId') →
        ts'.tzinfo ≠ none ∧ Fixed ts') ↔ ¬ NaiveToken token) := by
  constructor
  · simp [decodeCursor_encodeCursor, readBack_eq_iff]
  · constructor
    · intro h hnaive
      obtain ⟨ts', itemId', hdecode, hnone⟩ := naiveToken_iff.mp hnaive
      exact (h ts' itemId' hdecode).1 hnone
    · intro h ts' itemId' hdecode
      have haware : ts'.tzinfo ≠ none := by
        intro hnone
        exact h (naiveToken_iff.mpr ⟨ts', itemId', hdecode, hnone⟩)
      exact ⟨haware, fixed_iff.mpr haware⟩

/-- The token of `2026-01-02T03:04:05|00000000-0000-0000-0000-000000000001`. -/
def naiveToken : String :=
  "MjAyNi0wMS0wMlQwMzowNDowNXwwMDAwMDAwMC0wMDAwLTAwMDAtMDAwMC0wMDAwMDAwMDAwMDE="

theorem naive_token_is_decoded :
    ¬ ((∀ ts itemId, ts.tzinfo ≠ none →
        decodeCursor (encodeCursor ts itemId) = some (ts, itemId)) ∧
      ∀ token ts itemId, decodeCursor token = some (ts, itemId) → ts.tzinfo ≠ none) := by
  intro hall
  have hx : (decodeCursor naiveToken).map (fun p => p.1.tzinfo) = some none := by
    decide +kernel
  obtain ⟨⟨ts, itemId⟩, hdecode, hnone⟩ := Option.map_eq_some_iff.mp hx
  exact hall.2 naiveToken ts itemId hdecode hnone

end BackendTemplates.Shared.Cursor
