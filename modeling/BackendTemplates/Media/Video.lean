import BackendTemplates.Library.Json
import BackendTemplates.Python.Uuid
import BackendTemplates.Python.Datetime

namespace BackendTemplates.Media
open Python

inductive VideoStatus where
  | pending
  | processing
  | done
  | failed
  deriving DecidableEq, Repr

namespace VideoStatus

def value : VideoStatus → String
  | pending => "pending"
  | processing => "processing"
  | done => "done"
  | failed => "failed"

/-- `VideoStatus(text)`. `none` is the `ValueError`. -/
def ofValue (text : String) : Option VideoStatus :=
  [pending, processing, done, failed].find? (fun s => s.value == text)

/-- `_ALLOWED`. -/
def allowed : VideoStatus → List VideoStatus
  | pending => [processing, failed]
  | processing => [done, failed]
  | done => []
  | failed => []

theorem ofValue_value (s : VideoStatus) : ofValue s.value = some s := by
  cases s <;> decide

end VideoStatus

/-- What a caller of the context can see raised. -/
inductive Error where
  | emptySourceKey
  | invalidTransition (frm to_ : String)
  | videoNotFound (id : Uuid)
  | idempotencyKeyReused (key : String)
  | port (message : String)
  deriving DecidableEq, Repr

namespace Error

def message : Error → String
  | emptySourceKey => "video source_key must not be empty"
  | invalidTransition frm to_ => "invalid status transition: " ++ frm ++ " -> " ++ to_
  | videoNotFound id => "video " ++ id.str ++ " not found"
  | idempotencyKeyReused key =>
    "idempotency key " ++ key ++ " was already used with a different payload"
  | port message => message

end Error

structure VideoUploaded where
  videoId : Uuid
  sourceKey : String
  uploadedAt : Datetime
  deriving DecidableEq

structure Video where
  id : Uuid
  sourceKey : String
  status : VideoStatus
  uploadedAt : Datetime
  document : List (String × Json)
  events : List VideoUploaded

namespace Video

def upload (id : Uuid) (sourceKey : String) (uploadedAt : Datetime)
    (document : List (String × Json)) : Except Error Video :=
  if sourceKey = "" then .error .emptySourceKey
  else .ok ⟨id, sourceKey, .pending, uploadedAt, document, [⟨id, sourceKey, uploadedAt⟩]⟩

def reconstitute (id : Uuid) (sourceKey : String) (status : VideoStatus) (uploadedAt : Datetime)
    (document : List (String × Json)) : Video :=
  ⟨id, sourceKey, status, uploadedAt, document, []⟩

/-- `_transition`. -/
def transition (video : Video) (to_ : VideoStatus) : Except Error Video :=
  if to_ ∈ video.status.allowed then .ok { video with status := to_ }
  else .error (.invalidTransition video.status.value to_.value)

def markProcessing (video : Video) : Except Error Video := video.transition .processing
def markDone (video : Video) : Except Error Video := video.transition .done
def markFailed (video : Video) : Except Error Video := video.transition .failed

def collectEvents (video : Video) : List VideoUploaded × Video :=
  (video.events, { video with events := [] })

/-- A transition changes the status along the table, and nothing else. -/
theorem transition_ok {video video' : Video} {to_ : VideoStatus} :
    video.transition to_ = .ok video' ↔
      to_ ∈ video.status.allowed ∧ video' = { video with status := to_ } := by
  unfold transition
  split
  · rename_i h
    simp only [Except.ok.injEq, h, true_and]
    exact eq_comm
  · rename_i h
    simp [h]

end Video

/-- A row of `videos`. -/
structure VideoRow where
  sourceKey : String
  status : VideoStatus
  uploadedAt : Datetime
  document : List (String × Json)
  deletedAt : Option Datetime

namespace VideoRow

/-- `_to_domain`. -/
def toDomain (id : Uuid) (row : VideoRow) : Video :=
  Video.reconstitute id row.sourceKey row.status row.uploadedAt row.document

/-- The row the upsert of `save` leaves: a new one, or the one there with the status
of the video. -/
def save (video : Video) : Option VideoRow → VideoRow
  | none => ⟨video.sourceKey, video.status, video.uploadedAt, video.document, none⟩
  | some row => { row with status := video.status }

theorem save_status (video : Video) (row : Option VideoRow) :
    (save video row).status = video.status := by
  cases row <;> rfl

end VideoRow

/-- `get_by_id`: a soft-deleted row is not found. -/
def getById (rows : Uuid → Option VideoRow) (id : Uuid) : Option Video :=
  match rows id with
  | none => none
  | some row => if row.deletedAt.isSome then none else some (row.toDomain id)

theorem getById_some {rows : Uuid → Option VideoRow} {id : Uuid} {video : Video}
    (h : getById rows id = some video) :
    ∃ row, rows id = some row ∧ row.deletedAt = none ∧ video = row.toDomain id := by
  unfold getById at h
  split at h
  · cases h
  · rename_i row hr
    split at h
    · cases h
    · rename_i hd
      exact ⟨row, hr, by simpa using hd, (Option.some.inj h).symm⟩

/-- The use cases that move a video along. -/
inductive UseCase where
  | markProcessing
  | markDone
  | markFailed
  deriving DecidableEq, Repr

namespace UseCase

def mark : UseCase → Video → Except Error Video
  | markProcessing => Video.markProcessing
  | markDone => Video.markDone
  | markFailed => Video.markFailed

def target : UseCase → VideoStatus
  | markProcessing => .processing
  | markDone => .done
  | markFailed => .failed

theorem mark_eq (uc : UseCase) (video : Video) : uc.mark video = video.transition uc.target := by
  cases uc <;> rfl

end UseCase
end BackendTemplates.Media
