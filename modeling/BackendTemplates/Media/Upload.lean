import BackendTemplates.Library.Pool
import BackendTemplates.Python.Bytes
import BackendTemplates.Media.Snapshot
import BackendTemplates.Shared.OutboxRelay

namespace BackendTemplates.Media.Upload
open Python Runs
open Shared.OutboxRelay (OutboxRow)

structure UploadVideoCommand where
  sourceKey : String
  document : List (String × Json)
  idempotencyKey : Option String

/-- A row of `idempotency_keys`, without its key. Instants are in microseconds. -/
structure KeyRow where
  fingerprint : String
  response : Json
  expiresAt : Nat

structure VideoUploadedIntegration where
  eventId : Uuid
  occurredAt : Datetime
  videoId : Uuid
  sourceKey : String
  uploadedAt : Datetime

/-- A row, and the transaction that inserted it. -/
structure Stamped (α : Type) where
  row : α
  xmin : Nat

/-- One use of the UoW block: the command, the video built from it, and what the
transaction has written so far. -/
structure Txn where
  command : UploadVideoCommand
  video : Video
  fingerprint : String
  claim : Option KeyRow
  saved : Option VideoRow
  added : List (Uuid × OutboxRow)

/-- A transaction that created a video, and when it committed. -/
structure Commit where
  call : Nat
  txn : Txn
  at_ : Nat

/-- The committed tables, the keys inserted by open transactions, who drew which UUID, and
the commits that created a video. -/
structure World where
  now : Datetime
  videos : Uuid → Option (Stamped VideoRow)
  outbox : Uuid → Option (Stamped OutboxRow)
  keys : String → Option (Stamped KeyRow)
  claims : String → Option Nat
  drawn : Uuid → Option Nat
  log : List Commit

/-- `sha256` gives the hexadecimal digest of a text's bytes, `number` the text of a number that
a JSONB column gives back. -/
structure Config where
  sha256 : String → String
  number : NumText → Option NumText
  ttlSeconds : Nat

/-- How far a call of `UploadVideoUC` has come. -/
inductive Call where
  | idle
  | claiming (t : Txn)
  | inserting (t : Txn) (row : KeyRow)
  | saving (t : Txn)
  | adding (t : Txn) (events : List VideoUploaded)
  | losing (t : Txn)
  | finding (t : Txn)
  | returned (t : Txn) (video : Video) (replayed : Bool)
  | raised (e : Error)
  | crashed

inductive Act where
  | begin (id : Uuid) (command : UploadVideoCommand)
  | claim
  | insert
  | save
  | add (eventId : Uuid)
  | commit
  | commitLost (exc : String)
  | find
  | fail (exc : String)
  | crash

inductive Env where
  | tick (now : Datetime)
  | purge
  | rewrite (id : Uuid) (row : VideoRow)
  | markSent (id : Uuid) (at_ : Datetime)

/-- `msgspec.json.encode` of the event. -/
def VideoUploadedIntegration.json (e : VideoUploadedIntegration) : Json :=
  .obj [("event_id", .str e.eventId.str), ("occurred_at", .str e.occurredAt.jsonText),
    ("version", .num ⟨['1'], by simp [numChar]⟩), ("event_type", .str "video_uploaded"),
    ("video_id", .str e.videoId.str), ("source_key", .str e.sourceKey),
    ("uploaded_at", .str e.uploadedAt.jsonText)]

def VideoUploadedIntegration.payload (e : VideoUploadedIntegration) : List UInt8 := utf8 e.json.text

/-- The row `SqlOutboxRepo.add` inserts. -/
def VideoUploadedIntegration.row (e : VideoUploadedIntegration) : OutboxRow :=
  ⟨"video_uploaded", e.payload, e.occurredAt, none⟩

theorem VideoUploadedIntegration.row_eventType (e : VideoUploadedIntegration) :
    e.row.eventType = "video_uploaded" := by
  simp only [row]

theorem VideoUploadedIntegration.row_payload (e : VideoUploadedIntegration) :
    e.row.payload = e.payload := by
  simp only [row]

def integration (eventId : Uuid) (now : Datetime) (event : VideoUploaded) :
    VideoUploadedIntegration :=
  ⟨eventId, now, event.videoId, event.sourceKey, event.uploadedAt⟩

/-- `_canonical` of the payload the fingerprint is taken of. -/
def canonical (command : UploadVideoCommand) : Json :=
  (Json.obj [("source_key", .str command.sourceKey), ("document", .obj command.document)]).arrange
    (· ≤ ·)

/-- The fingerprint of a command, empty without a key. -/
def fingerprintOf (cfg : Config) (command : UploadVideoCommand) : String :=
  match command.idempotencyKey with
  | none => ""
  | some _ => cfg.sha256 (canonical command).text

/-- The row `claim` inserts. -/
def keyRow (cfg : Config) (now : Datetime) (t : Txn) (response : Json) : KeyRow :=
  ⟨t.fingerprint, response, now.instant + cfg.ttlSeconds * 1000000⟩

/-- The columns for the source key and for the document take what the video holds. -/
def storable (cfg : Config) (video : Video) : Bool := (jsonb cfg.number (snapshot video)).isSome

namespace World

def draw (w : World) (id : Uuid) (i : Nat) : World :=
  { w with drawn := Function.update w.drawn id (some i) }

/-- The transaction of a call ends, and frees the key it inserted. -/
def release (w : World) (i : Nat) : World :=
  { w with claims := fun key => if w.claims key = some i then none else w.claims key }

def insertVideo (w : World) (i : Nat) (t : Txn) : Uuid → Option (Stamped VideoRow) :=
  match t.saved with
  | none => w.videos
  | some row => Function.update w.videos t.video.id (some ⟨row, i⟩)

def insertKey (w : World) (i : Nat) (t : Txn) : String → Option (Stamped KeyRow) :=
  match t.command.idempotencyKey, t.claim with
  | some key, some row => Function.update w.keys key (some ⟨row, i⟩)
  | _, _ => w.keys

def insertOutbox (w : World) (i : Nat) (t : Txn) : Uuid → Option (Stamped OutboxRow) :=
  t.added.foldl (fun outbox r => Function.update outbox r.1 (some ⟨r.2, i⟩)) w.outbox

/-- All writes of the transaction become visible at once. -/
def commit (w : World) (i : Nat) (t : Txn) : World :=
  { w.release i with
    videos := w.insertVideo i t
    keys := w.insertKey i t
    outbox := w.insertOutbox i t
    log := w.log ++ [⟨i, t, w.now.instant⟩] }

/-- `IdempotencySweeper.purge_once`. -/
def purge (w : World) : World :=
  { w with keys := fun key =>
      (w.keys key).filter (fun r => decide (w.now.instant ≤ r.row.expiresAt)) }

def putVideo (w : World) (id : Uuid) (r : Stamped VideoRow) : World :=
  { w with videos := Function.update w.videos id (some r) }

def putOutbox (w : World) (id : Uuid) (r : Stamped OutboxRow) : World :=
  { w with outbox := Function.update w.outbox id (some r) }

end World

/-- How the message of a `PortError` raised at this point starts. -/
def failText : Call → Option String
  | .claiming _ => some "claim idempotency key failed: "
  | .inserting _ _ => some "claim idempotency key failed: "
  | .saving _ => some "save video failed: "
  | .adding _ (_ :: _) => some "add outbox message failed: "
  | .adding _ [] => some "uow finalize failed: "
  | .losing _ => some "uow finalize failed: "
  | .finding _ => some "find idempotency key failed: "
  | _ => none

/-- What a call returns or raises once it has lost the claim. -/
def lost (w : World) (t : Txn) (key : String) : Call :=
  match w.keys key with
  | none => .raised (.port
      ("idempotency key " ++ key ++ " was claimed but is no longer readable"))
  | some stored =>
    match restore stored.row.response with
    | none => .crashed
    | some video =>
      if stored.row.fingerprint ≠ t.fingerprint then .raised (.idempotencyKeyReused key)
      else .returned t video true

/-- One step of `UploadVideoUC`. The insert of a claim, its values already bound, waits while
an open transaction has inserted the key, and wins if that one rolled back. A statement fails
whose values PostgreSQL does not take. Every failure rolls the transaction back, except that
a COMMIT whose reply is lost has been applied. -/
def step (cfg : Config) (i : Nat) (w : World) (k : Call) (a : Act) : Option (World × Call) :=
  match k, a with
  | .idle, .begin id command =>
    if w.drawn id = none then
      match Video.upload id command.sourceKey w.now command.document with
      | .error e => some (w, .raised e)
      | .ok video =>
        let t : Txn := ⟨command, video, fingerprintOf cfg command, none, none, []⟩
        some (w.draw id i, if command.idempotencyKey.isSome then .claiming t else .saving t)
    else none
  | .claiming t, .claim =>
    (jsonb cfg.number (snapshot t.video)).map
      (fun response => (w, .inserting t (keyRow cfg w.now t response)))
  | .inserting t row, .insert =>
    match t.command.idempotencyKey with
    | none => none
    | some key =>
      if w.claims key ≠ none then none
      else if w.keys key ≠ none then some (w, .losing t)
      else some ({ w with claims := Function.update w.claims key (some i) },
        .saving { t with claim := some row })
  | .saving t, .save =>
    if storable cfg t.video then
      some (w, .adding
        { t with
          video := t.video.collectEvents.2
          saved := some (VideoRow.save t.video ((w.videos t.video.id).map Stamped.row)) }
        t.video.collectEvents.1)
    else none
  | .adding t (event :: events), .add eventId =>
    if w.drawn eventId = none then
      some (w.draw eventId i,
        .adding { t with added := t.added ++ [(eventId, (integration eventId w.now event).row)] }
          events)
    else none
  | .adding t [], .commit => some (w.commit i t, .returned t t.video false)
  | .adding t [], .commitLost exc =>
    some (w.commit i t, .raised (.port ("uow finalize failed: " ++ exc)))
  | .losing t, .commit => some (w, .finding t)
  | .finding t, .find => t.command.idempotencyKey.map (fun key => (w, lost w t key))
  | k, .fail exc =>
    (failText k).map (fun text => (w.release i, .raised (.port (text ++ exc))))
  | k, .crash => (failText k).map (fun _ => (w.release i, .crashed))
  | _, _ => none

/-- Time passes, expired keys are purged, videos change and outbox rows are relayed. -/
def env (w : World) : Env → Option World
  | .tick now => if w.now.instant ≤ now.instant then some { w with now := now } else none
  | .purge => some w.purge
  | .rewrite id row => (w.videos id).map (fun r => w.putVideo id { r with row := row })
  | .markSent id at_ =>
    (w.outbox id).map (fun r => w.putOutbox id { r with row := { r.row with sentAt := some at_ } })

def pool (cfg : Config) (start : Datetime) : Pool Nat World Call Act Env where
  world := ⟨start, fun _ => none, fun _ => none, fun _ => none, fun _ => none, fun _ => none, []⟩
  client := .idle
  step := step cfg
  env := env

abbrev State := Pool.State Nat World Call
abbrev Action := Pool.Action Nat Act Env

end BackendTemplates.Media.Upload
