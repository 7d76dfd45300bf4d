import BackendTemplates.Library.Pool
import BackendTemplates.Media.Marks

namespace BackendTemplates.Media.StatusConsumer
open Python Runs

/-- What a consumer reads of a `VideoStatusEventSchema`. -/
structure StatusEvent where
  eventType : String
  videoId : Uuid
  deriving DecidableEq

/-- A stream entry: its `payload` field, and whether some consumer has handled it. -/
structure Entry where
  payload : Option String
  handled : Bool
  deriving DecidableEq

/-- An entry of the group's pending entries list. -/
structure Pending where
  index : Nat
  deliveredAt : Nat
  deriving DecidableEq

structure Group where
  lastDelivered : Nat
  pel : List Pending
  deriving DecidableEq

/-- Time is in milliseconds. `withdrawn` are the videos cancelled or deleted so far. -/
structure World where
  now : Nat
  rows : Uuid → Option VideoRow
  stream : List Entry
  group : Option Group
  withdrawn : List Uuid

/-- `decode` is `msgspec.json.decode` for the schema, `none` its `MsgspecError`. -/
structure Config where
  decode : String → Option StatusEvent
  batch : Nat → Nat
  claimIdleMs : Nat → Nat

/-- A consumer process. `stale` tells the entries of `_claim_stale` from freshly read ones. -/
inductive Consumer where
  | starting
  | idle
  | reading
  | handling (stale : Bool) (todo : List Nat)
  | acking (stale : Bool) (n : Nat) (todo : List Nat)
  deriving DecidableEq

inductive Act where
  | ensureGroup
  | claim (ns : List Nat)
  | claimFail (ns : List Nat)
  | read
  | handle
  | ack
  | fail (applied : Bool)
  | crash
  deriving DecidableEq

inductive Env where
  | xadd (payload : Option String)
  | upload (id : Uuid) (sourceKey : String) (at_ : Datetime) (document : List (String × Json))
  | cancel (id : Uuid)
  | softDelete (id : Uuid) (at_ : Datetime)
  | destroyGroup
  | tick (milliseconds : Nat)

/-- The use case for an event type; other types are dropped. -/
def useCase? (eventType : String) : Option UseCase :=
  if eventType = "video_processing_started" then some .markProcessing
  else if eventType = "video_processed" then some .markDone
  else if eventType = "video_processing_failed" then some .markFailed
  else none

/-- What `_handle` calls for an entry. A malformed one calls nothing. -/
def Entry.mark? (decode : String → Option StatusEvent) (e : Entry) : Option (Uuid × UseCase) :=
  match e.payload with
  | none => none
  | some payload =>
    match decode payload with
    | none => none
    | some event => (useCase? event.eventType).map (fun uc => (event.videoId, uc))

/-- One call of a use case, taken as one step. -/
def call (rows : Uuid → Option VideoRow) (uc : UseCase) (id : Uuid) :
    Except Error (Uuid → Option VideoRow) :=
  match getById rows id with
  | none => .error (.videoNotFound id)
  | some video =>
    match uc.mark video with
    | .error e => .error e
    | .ok video' => .ok (Function.update rows id (some (VideoRow.save video' (rows id))))

namespace World

/-- A `DomainError` or `AppError` is logged, and the entry counts as handled. -/
def apply (w : World) (uc : UseCase) (id : Uuid) : World :=
  match call w.rows uc id with
  | .error _ => w
  | .ok rows => { w with rows := rows }

/-- `_handle`. -/
def handle (decode : String → Option StatusEvent) (w : World) (n : Nat) : World :=
  match w.stream[n]? with
  | none => w
  | some e =>
    match e.mark? decode with
    | none => { w with stream := w.stream.set n { e with handled := true } }
    | some (id, uc) =>
      { w with stream := w.stream.set n { e with handled := true } }.apply uc id

/-- XGROUP CREATE from the start of the stream; BUSYGROUP is tolerated. -/
def ensureGroup (w : World) : World :=
  match w.group with
  | none => { w with group := some ⟨0, []⟩ }
  | some _ => w

/-- XAUTOCLAIM hands the entries over, and their idle time starts again. -/
def adopt (w : World) (g : Group) (ns : List Nat) : World :=
  { w with group := some { g with
      pel := g.pel.map (fun p => if p.index ∈ ns then { p with deliveredAt := w.now } else p) } }

/-- The entries XREADGROUP returns: the oldest ones never delivered to the group. -/
def fresh (w : World) (g : Group) (batch : Nat) : List Nat :=
  List.range' g.lastDelivered (min batch (w.stream.length - g.lastDelivered))

def deliver (w : World) (g : Group) (batch : Nat) : World :=
  { w with group := some ⟨g.lastDelivered + (w.fresh g batch).length,
      g.pel ++ (w.fresh g batch).map (fun n => ⟨n, w.now⟩)⟩ }

/-- XACK takes the entry off the pending list, whoever it was delivered to. -/
def ack (w : World) (n : Nat) : World :=
  { w with group := w.group.map (fun g => { g with pel := g.pel.filter (fun p => p.index ≠ n) }) }

end World

/-- A result XAUTOCLAIM can have: pending entries past the idle threshold, oldest first. -/
def Claimable (w : World) (g : Group) (batch idleMs : Nat) (ns : List Nat) : Prop :=
  ns.Pairwise (· < ·) ∧ ns.length ≤ batch ∧
    ∀ n ∈ ns, ∃ p ∈ g.pel, p.index = n ∧ p.deliveredAt + idleMs ≤ w.now

instance (w : World) (g : Group) (batch idleMs : Nat) (ns : List Nat) :
    Decidable (Claimable w g batch idleMs ns) := by
  unfold Claimable
  infer_instance

/-- After the stale entries come the fresh ones, then the next drain. -/
def resume (stale : Bool) : List Nat → Consumer
  | [] => if stale then .reading else .idle
  | n :: todo => .handling stale (n :: todo)

/-- One step of `drain_once`. An exception ends the drain and leaves the entry at hand and
those behind it pending; the request it comes from may have been carried out. -/
def step (cfg : Config) (i : Nat) (w : World) (k : Consumer) (a : Act) :
    Option (World × Consumer) :=
  match k, a with
  | .starting, .ensureGroup => some (w.ensureGroup, .idle)
  | .idle, .claim ns =>
    match w.group with
    | none => if ns = [] then some (w.ensureGroup, .reading) else none
    | some g =>
      if Claimable w g (cfg.batch i) (cfg.claimIdleMs i) ns then some (w.adopt g ns, resume true ns)
      else none
  | .idle, .claimFail ns =>
    match w.group with
    | none => some (w, .idle)
    | some g =>
      if Claimable w g (cfg.batch i) (cfg.claimIdleMs i) ns then some (w.adopt g ns, .idle)
      else none
  | .reading, .read =>
    match w.group with
    | none => some (w, .idle)
    | some g => some (w.deliver g (cfg.batch i), resume false (w.fresh g (cfg.batch i)))
  | .reading, .fail applied =>
    match w.group with
    | none => some (w, .idle)
    | some g => some (if applied then w.deliver g (cfg.batch i) else w, .idle)
  | .handling stale (n :: todo), .handle => some (w.handle cfg.decode n, .acking stale n todo)
  | .handling _ (n :: _), .fail applied =>
    some (if applied then w.handle cfg.decode n else w, .idle)
  | .acking stale n todo, .ack => some (w.ack n, resume stale todo)
  | .acking _ n _, .fail applied => some (if applied then w.ack n else w, .idle)
  | _, .crash => some (w, .starting)
  | _, _ => none

/-- Entries are added, videos uploaded under fresh ids, cancelled and deleted. -/
def env (cfg : Config) (w : World) : Env → Option World
  | .xadd payload => some { w with stream := w.stream ++ [⟨payload, false⟩] }
  | .upload id sourceKey at_ document =>
    if w.rows id = none ∧ ∀ e ∈ w.stream, (e.mark? cfg.decode).map Prod.fst ≠ some id then
      some { w with
        rows := Function.update w.rows id (some ⟨sourceKey, .pending, at_, document, none⟩) }
    else none
  | .cancel id =>
    match call w.rows .markFailed id with
    | .error _ => some w
    | .ok rows => some { w with rows := rows, withdrawn := id :: w.withdrawn }
  | .softDelete id at_ =>
    match w.rows id with
    | none => some w
    | some row =>
      if row.deletedAt.isSome then some w
      else some { w with
        rows := Function.update w.rows id (some { row with deletedAt := some at_ })
        withdrawn := id :: w.withdrawn }
  | .destroyGroup => some { w with group := none }
  | .tick milliseconds => some { w with now := w.now + milliseconds }

def pool (cfg : Config) : Pool Nat World Consumer Act Env where
  world := ⟨0, fun _ => none, [], none, []⟩
  client := .starting
  step := step cfg
  env := env cfg

abbrev State := Pool.State Nat World Consumer
abbrev Action := Pool.Action Nat Act Env

end BackendTemplates.Media.StatusConsumer
