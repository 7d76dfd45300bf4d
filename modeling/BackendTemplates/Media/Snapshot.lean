import BackendTemplates.Library.JsonRevise
import BackendTemplates.Media.Video

namespace BackendTemplates.Media
open Python

/-- JSONB keeps the members of an object by the byte length of the key, then by its bytes. -/
def jsonbLe (a b : String) : Prop :=
  a.utf8ByteSize < b.utf8ByteSize ∨ a.utf8ByteSize = b.utf8ByteSize ∧ a ≤ b

instance : DecidableRel jsonbLe := fun a b => by
  unfold jsonbLe
  infer_instance

instance : Std.Total jsonbLe where
  total a b := by
    unfold jsonbLe
    rcases lt_trichotomy a.utf8ByteSize b.utf8ByteSize with h | h | h
    · exact .inl (.inl h)
    · rcases le_total a b with hab | hba
      · exact .inl (.inr ⟨h, hab⟩)
      · exact .inr (.inr ⟨h.symm, hba⟩)
    · exact .inr (.inl h)

instance : IsTrans String jsonbLe where
  trans a b c := by
    unfold jsonbLe
    rintro (h | ⟨h, h'⟩) (g | ⟨g, g'⟩)
    · exact .inl (h.trans g)
    · exact .inl (g ▸ h)
    · exact .inl (h ▸ g)
    · exact .inr ⟨h.trans g, h'.trans g'⟩

/-- PostgreSQL takes no text with a NUL in it. -/
def withoutNul (text : String) : Bool := text.toList.all (fun c => c ≠ '\x00')

/-- The value a JSONB column gives back for the one written to it, if it takes that. It keeps
a number as a `numeric`; `number` is the text that is made of what comes back. -/
def jsonb (number : NumText → Option NumText) (j : Json) : Option Json :=
  (j.revise number withoutNul).map (Json.arrange jsonbLe)

/-- `_snapshot`. -/
def snapshot (video : Video) : Json :=
  .obj [("id", .str video.id.str), ("source_key", .str video.sourceKey),
    ("status", .str video.status.value), ("uploaded_at", .str video.uploadedAt.isoformat),
    ("document", .obj video.document)]

/-- `_restore`. `none` is a `KeyError`, `TypeError` or `ValueError`. -/
def restore (snapshot : Json) : Option Video := do
  let id ← Uuid.ofStr (← (← snapshot.get? "id").str?)
  let sourceKey ← (← snapshot.get? "source_key").str?
  let status ← VideoStatus.ofValue (← (← snapshot.get? "status").str?)
  let uploadedAt ← Datetime.fromisoformat (← (← snapshot.get? "uploaded_at").str?)
  let document ← (← snapshot.get? "document").obj?
  return Video.reconstitute id sourceKey status uploadedAt document

/-- The video a replay is given: the stored one, its document as JSONB gives it back. -/
def Video.replayed (number : NumText → Option NumText) (video : Video) : Video :=
  Video.reconstitute video.id video.sourceKey video.status video.uploadedAt
    (((jsonb number (.obj video.document)).bind Json.obj?).getD [])

section
variable {number : NumText → Option NumText} {video : Video} {response : Json}

theorem jsonb_snapshot (h : jsonb number (snapshot video) = some response) :
    ∃ document, jsonb number (.obj video.document) = some (.obj document) ∧
      response = .obj [("id", .str video.id.str), ("status", .str video.status.value),
        ("document", .obj document), ("source_key", .str video.sourceKey),
        ("uploaded_at", .str video.uploadedAt.isoformat)] := by
  have h₁ : ¬ jsonbLe "uploaded_at" "document" := by decide
  have h₂ : jsonbLe "status" "document" := by decide
  have h₃ : ¬ jsonbLe "source_key" "status" := by decide
  have h₄ : ¬ jsonbLe "source_key" "document" := by decide
  have h₅ : jsonbLe "source_key" "uploaded_at" := by decide
  have h₆ : jsonbLe "id" "status" := by decide
  obtain ⟨j, hj, rfl⟩ := Option.map_eq_some_iff.mp h
  obtain ⟨members, g₁, rfl⟩ := Option.map_eq_some_iff.mp hj
  obtain ⟨id, m₁, hid, g₂, rfl⟩ := Json.reviseMembers_cons g₁
  obtain ⟨sourceKey, m₂, hkey, g₃, rfl⟩ := Json.reviseMembers_cons g₂
  obtain ⟨status, m₃, hstatus, g₄, rfl⟩ := Json.reviseMembers_cons g₃
  obtain ⟨uploadedAt, m₄, hat, g₅, rfl⟩ := Json.reviseMembers_cons g₄
  obtain ⟨document, m₅, hdocument, g₆, rfl⟩ := Json.reviseMembers_cons g₅
  cases g₆
  have hstr {s : String} {j : Json} (h : Json.revise number withoutNul (.str s) = some j) :
      j = .str s := by
    obtain ⟨-, h⟩ := Option.ite_none_right_eq_some.mp h
    exact (Option.some.inj h).symm
  obtain rfl := hstr hid
  obtain rfl := hstr hkey
  obtain rfl := hstr hstatus
  obtain rfl := hstr hat
  obtain ⟨ms, -, rfl⟩ := Option.map_eq_some_iff.mp hdocument
  refine ⟨(Json.arrangeMembers jsonbLe ms).insertionSort (Json.byKey jsonbLe), ?_, ?_⟩
  · rw [jsonb, hdocument]
    rfl
  · simp [Json.arrange, Json.arrangeMembers, List.orderedInsert, Json.byKey,
      h₁, h₂, h₃, h₄, h₅, h₆]

theorem restore_snapshot (h : jsonb number (snapshot video) = some response) :
    restore response = some (video.replayed number) := by
  obtain ⟨document, hdocument, rfl⟩ := jsonb_snapshot h
  simp [restore, Json.get?, Json.str?, Json.obj?, Uuid.ofStr_str, VideoStatus.ofValue_value,
    Datetime.fromisoformat_isoformat, Video.replayed, hdocument, List.lookup_cons]

end

end BackendTemplates.Media
