import Mathlib.Data.List.Chain
import BackendTemplates.Library.Pool
import BackendTemplates.Media.Video

namespace BackendTemplates.Media.StatusCalls
open Python Runs

/-- The committed videos, the row locks open transactions hold, and the values
`status` has been committed with. -/
structure Db where
  rows : Uuid → Option VideoRow
  lock : Uuid → Option Nat
  history : Uuid → List VideoStatus

/-- How far one call of a use case has come. `before` is the status it read. -/
inductive Call where
  | idle
  | loaded (uc : UseCase) (video : Video)
  | marked (uc : UseCase) (before : VideoStatus) (video : Video)
  | saved (uc : UseCase) (before : VideoStatus) (video : Video) (row : VideoRow)
  | returned (status : VideoStatus)
  | raised (e : Error)
  | crashed

inductive Act where
  | get (uc : UseCase) (id : Uuid)
  | mark
  | save
  | commit
  | fail (message : String)
  | crash
  deriving DecidableEq

inductive Env where
  | upload (id : Uuid) (sourceKey : String) (at_ : Datetime) (document : List (String × Json))
  | softDelete (id : Uuid) (at_ : Datetime)

def Db.release (db : Db) (id : Uuid) : Db := { db with lock := Function.update db.lock id none }

def Db.commit (db : Db) (id : Uuid) (row : VideoRow) : Db where
  rows := Function.update db.rows id (some row)
  lock := Function.update db.lock id none
  history := Function.update db.history id (db.history id ++ [row.status])

/-- One step of a call. Under READ COMMITTED the upsert waits for the row lock, then
writes over whatever is committed; the lock is held until the transaction ends. -/
def step (i : Nat) (db : Db) : Call → Act → Option (Db × Call)
  | .idle, .get uc id =>
    match getById db.rows id with
    | none => some (db, .raised (.videoNotFound id))
    | some video => some (db, .loaded uc video)
  | .loaded uc video, .mark =>
    match uc.mark video with
    | .error e => some (db, .raised e)
    | .ok video' => some (db, .marked uc video.status video')
  | .marked uc before video, .save =>
    match db.lock video.id with
    | some _ => none
    | none => some ({ db with lock := Function.update db.lock video.id (some i) },
        .saved uc before video (.save video (db.rows video.id)))
  | .saved _ _ video row, .commit => some (db.commit video.id row, .returned video.status)
  | .idle, .fail message => some (db, .raised (.port message))
  | .marked _ _ _, .fail message => some (db, .raised (.port message))
  | .saved _ _ video _, .fail message => some (db.release video.id, .raised (.port message))
  | .loaded _ _, .crash => some (db, .crashed)
  | .marked _ _ _, .crash => some (db, .crashed)
  | .saved _ _ video _, .crash => some (db.release video.id, .crashed)
  | _, _ => none

/-- Uploads create rows; `soft_delete` checks and writes in one statement. -/
def env (db : Db) : Env → Option Db
  | .upload id sourceKey at_ document =>
    match db.rows id with
    | some _ => none
    | none => some { db with
        rows := Function.update db.rows id (some ⟨sourceKey, .pending, at_, document, none⟩)
        history := Function.update db.history id (db.history id ++ [.pending]) }
  | .softDelete id at_ =>
    match db.rows id, db.lock id with
    | some row, none =>
      if row.deletedAt.isSome then none
      else some
        { db with rows := Function.update db.rows id (some { row with deletedAt := some at_ }) }
    | _, _ => none

def pool : Pool Nat Db Call Act Env where
  world := ⟨fun _ => none, fun _ => none, fun _ => []⟩
  client := .idle
  step := step
  env := env

abbrev State := Pool.State Nat Db Call
abbrev Action := Pool.Action Nat Act Env

/-- A step of a call commits its row, or leaves the committed data alone. -/
theorem step_cases {i : Nat} {db db' : Db} {k k' : Call} {a : Act}
    (h : step i db k a = some (db', k')) :
    (∃ uc before video row, k = .saved uc before video row ∧ a = .commit ∧
        db' = db.commit video.id row ∧ k' = .returned video.status) ∨
      (a ≠ .commit ∧ db'.rows = db.rows ∧ db'.history = db.history) := by
  unfold step at h
  split at h
  · split at h <;> (cases h; exact .inr ⟨by simp, rfl, rfl⟩)
  · split at h <;> (cases h; exact .inr ⟨by simp, rfl, rfl⟩)
  · split at h
    · cases h
    · cases h
      exact .inr ⟨by simp, rfl, rfl⟩
  · cases h
    exact .inl ⟨_, _, _, _, rfl, rfl, rfl, rfl⟩
  all_goals first
    | (cases h; exact .inr ⟨by simp, rfl, rfl⟩)
    | cases h

/-- Everything else adds a PENDING video or keeps every status. -/
theorem env_cases {db db' : Db} {e : Env} (h : env db e = some db') :
    (∃ id row, db.rows id = none ∧ row.status = .pending ∧
        db'.rows = Function.update db.rows id (some row) ∧
        db'.history = Function.update db.history id (db.history id ++ [.pending])) ∨
      (∃ id row row', db.rows id = some row ∧ row'.status = row.status ∧
        db'.rows = Function.update db.rows id (some row') ∧ db'.history = db.history) := by
  unfold env at h
  split at h
  · split at h
    · cases h
    · rename_i hn
      cases h
      exact .inl ⟨_, _, hn, rfl, rfl, rfl⟩
  · split at h
    · rename_i hr _
      split at h
      · cases h
      · cases h
        refine .inr ⟨_, _, _, hr, ?_, rfl, rfl⟩
        rfl
    · cases h

end BackendTemplates.Media.StatusCalls
