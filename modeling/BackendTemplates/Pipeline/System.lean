import BackendTemplates.Library.JsonReader
import BackendTemplates.Library.Views
import BackendTemplates.Media.Convergence
import BackendTemplates.Media.UploadEffects
import BackendTemplates.Processing.ProducerOrder
import BackendTemplates.Python.Utf8
import BackendTemplates.Shared.RelayDelivery

namespace BackendTemplates.Pipeline
open Python Runs Media
open Shared

/-- What `handle_uploaded` reads of a `VideoUploadedSchema`. -/
structure UploadedEvent where
  eventId : Uuid
  videoId : Uuid
  deriving DecidableEq

/-- What `ValkeyEventPublisher` encodes. -/
structure VideoStatusIntegration where
  eventId : Uuid
  eventType : String
  videoId : Uuid
  occurredAt : Datetime

theorem version_written : ['1'] ≠ [] ∧ ∀ c ∈ ['1'], numChar c = true :=
  ⟨List.cons_ne_nil _ _, List.forall_mem_singleton.mpr rfl⟩

/-- `msgspec.json.encode` of the event. -/
def VideoStatusIntegration.json (e : VideoStatusIntegration) : Json :=
  .obj [("event_id", .str e.eventId.str), ("event_type", .str e.eventType),
    ("video_id", .str e.videoId.str), ("occurred_at", .str e.occurredAt.jsonText),
    ("version", .num ⟨['1'], version_written⟩)]

def VideoStatusIntegration.payload (e : VideoStatusIntegration) : String := e.json.text

/-- `decodeUploaded` is `msgspec.json.decode` for `VideoUploadedSchema`, `none` its
`MsgspecError`. -/
structure Config where
  upload : Upload.Config
  start : Datetime
  batch : Nat → Nat
  worker : Processing.Config
  decodeUploaded : List UInt8 → Option UploadedEvent
  consumer : StatusConsumer.Config

def Config.api (cfg : Config) : Machine Upload.State Upload.Action :=
  (Upload.pool cfg.upload cfg.start).machine

def Config.relay (cfg : Config) : Machine OutboxRelay.State OutboxRelay.Action :=
  (OutboxRelay.pool cfg.batch).machine

def Config.workers (cfg : Config) : Machine Processing.State Processing.Action :=
  (Processing.pool cfg.worker).machine

def Config.consumers (cfg : Config) : Machine StatusConsumer.State StatusConsumer.Action :=
  (StatusConsumer.pool cfg.consumer).machine

/-- The parts of the system. The first, the second and the last share one database, the
second and the third the stream `video_uploaded`, the last two the stream `video_status`. -/
structure State where
  api : Upload.State
  relay : OutboxRelay.State
  workers : Processing.State
  consumers : StatusConsumer.State

/-- `receive` hands entry `n` of `video_uploaded` to the consumer process `i`, the first time
or again. A worker action comes with the id and the time of the status event it may publish. -/
inductive Action where
  | api (a : Upload.Action)
  | relay (i : Nat) (a : OutboxRelay.Act)
  | receive (i n : Nat)
  | worker (a : Processing.Action) (event : Uuid) (at_ : Datetime)
  | consumer (a : StatusConsumer.Action)

/-- The decoders read what the other side's encoder writes. -/
structure Contract (cfg : Config) : Prop where
  uploaded : ∀ e : Upload.VideoUploadedIntegration,
    cfg.decodeUploaded e.payload = some ⟨e.eventId, e.videoId⟩
  status : ∀ e : VideoStatusIntegration,
    cfg.consumer.decode e.payload = some ⟨e.eventType, e.videoId⟩

/-- Rows change by the consumers and are marked as sent by the relays only. -/
def apiOwn : Upload.Action → Bool
  | .env (.rewrite _ _) => false
  | .env (.markSent _ _) => false
  | _ => true

def workerOwn : Processing.Action → Bool
  | .act _ (.receive _ _) => false
  | _ => true

/-- Entries are added by the workers, and videos by uploads only. -/
def consumerOwn : StatusConsumer.Action → Bool
  | .env (.xadd _) => false
  | .env (.upload _ _ _ _) => false
  | _ => true

def committed (w w' : Upload.World) : List Upload.Commit := w'.log.drop w.log.length

/-- The outbox rows of a commit, where the relays see them. -/
def inserts (c : Upload.Commit) : List OutboxRelay.Action :=
  c.txn.added.flatMap (fun r => [.env (.insert r.1 r.2), .env (.commitInsert r.1)])

/-- The video of a commit, where the consumers see it. -/
def uploads (c : Upload.Commit) : List StatusConsumer.Action :=
  match c.txn.saved with
  | none => []
  | some row => [.env (.upload c.txn.video.id row.sourceKey row.uploadedAt row.document)]

def marksSent : OutboxRelay.Drain → OutboxRelay.Act → List Upload.Action
  | .marked rs at_, .commit => (OutboxRelay.ids rs).map (fun id => .env (.markSent id at_))
  | _, _ => []

def published (w w' : Processing.World) : List Processing.Entry :=
  Processing.stream (w'.log.drop w.log.length)

/-- `_publish` for each entry: XADD to `video_status`. -/
def announcements (event : Uuid) (at_ : Datetime) (entries : List Processing.Entry) :
    List StatusConsumer.Action :=
  entries.map (fun e => .env (.xadd (some
    (VideoStatusIntegration.payload ⟨event, e.eventType, e.videoId, at_⟩))))

/-- The videos whose rows an action of the consumers, or a request to cancel or delete, may
change. -/
def touched (cfg : StatusConsumer.Config) (s : StatusConsumer.State) :
    StatusConsumer.Action → List Uuid
  | .act i a =>
    match s.clients i, StatusConsumer.Handles a with
    | .handling _ (n :: _), true =>
      ((s.world.stream[n]?.bind (StatusConsumer.Entry.mark? cfg.decode)).map Prod.fst).toList
    | _, _ => []
  | .env (.cancel id) => [id]
  | .env (.softDelete id _) => [id]
  | .env _ => []

def rewrites (cfg : StatusConsumer.Config) (s t : StatusConsumer.State)
    (a : StatusConsumer.Action) : List Upload.Action :=
  (touched cfg s a).filterMap
    (fun id => (t.world.rows id).map (fun row => .env (.rewrite id row)))

/-- The payload of entry `n` of `video_uploaded`, decoded. -/
def delivered (cfg : Config) (s : State) (n : Nat) : Option UploadedEvent :=
  s.relay.world.stream[n]?.bind (fun e => cfg.decodeUploaded e.payload)

/-- One part takes a step, and the others see what it wrote or published. A malformed entry
of `video_uploaded` is logged and dropped. -/
def step (cfg : Config) (s : State) : Action → Option State
  | .api a =>
    if apiOwn a then do
      let api ← cfg.api.step s.api a
      let relay ← cfg.relay.exec s.relay ((committed s.api.world api.world).flatMap inserts)
      let consumers ← cfg.consumers.exec s.consumers
        ((committed s.api.world api.world).flatMap uploads)
      some ⟨api, relay, s.workers, consumers⟩
    else none
  | .relay i a => do
    let relay ← cfg.relay.step s.relay (.act i a)
    let api ← cfg.api.exec s.api (marksSent (s.relay.clients i) a)
    some ⟨api, relay, s.workers, s.consumers⟩
  | .receive i n =>
    match delivered cfg s n with
    | none => some s
    | some e => do
      let workers ← cfg.workers.step s.workers (.act i (.receive e.videoId e.eventId))
      some ⟨s.api, s.relay, workers, s.consumers⟩
  | .worker a event at_ =>
    if workerOwn a then do
      let workers ← cfg.workers.step s.workers a
      let consumers ← cfg.consumers.exec s.consumers
        (announcements event at_ (published s.workers.world workers.world))
      some ⟨s.api, s.relay, workers, consumers⟩
    else none
  | .consumer a =>
    if consumerOwn a then do
      let consumers ← cfg.consumers.step s.consumers a
      let api ← cfg.api.exec s.api (rewrites cfg.consumer s.consumers consumers a)
      some ⟨api, s.relay, s.workers, consumers⟩
    else none

def machine (cfg : Config) : Machine State Action where
  start := ⟨cfg.api.start, cfg.relay.start, cfg.workers.start, cfg.consumers.start⟩
  step := step cfg

/-- Everything one step of the system can do. -/
inductive Moves (cfg : Config) (s : State) : Action → State → Prop where
  | api {a : Upload.Action} {api : Upload.State} {relay : OutboxRelay.State}
      {consumers : StatusConsumer.State} (own : apiOwn a = true)
      (stepped : cfg.api.step s.api a = some api)
      (inserted : cfg.relay.exec s.relay
        ((committed s.api.world api.world).flatMap inserts) = some relay)
      (uploaded : cfg.consumers.exec s.consumers
        ((committed s.api.world api.world).flatMap uploads) = some consumers) :
      Moves cfg s (.api a) ⟨api, relay, s.workers, consumers⟩
  | relay {i : Nat} {a : OutboxRelay.Act} {api : Upload.State}
      {relay : OutboxRelay.State} (stepped : cfg.relay.step s.relay (.act i a) = some relay)
      (marked : cfg.api.exec s.api (marksSent (s.relay.clients i) a) = some api) :
      Moves cfg s (.relay i a) ⟨api, relay, s.workers, s.consumers⟩
  | dropped {i n : Nat} (malformed : delivered cfg s n = none) : Moves cfg s (.receive i n) s
  | received {i n : Nat} {e : UploadedEvent} {workers : Processing.State}
      (decoded : delivered cfg s n = some e)
      (stepped : cfg.workers.step s.workers (.act i (.receive e.videoId e.eventId)) =
        some workers) :
      Moves cfg s (.receive i n) ⟨s.api, s.relay, workers, s.consumers⟩
  | worker {a : Processing.Action} {event : Uuid} {at_ : Datetime} {workers : Processing.State}
      {consumers : StatusConsumer.State} (own : workerOwn a = true)
      (stepped : cfg.workers.step s.workers a = some workers)
      (announced : cfg.consumers.exec s.consumers
        (announcements event at_ (published s.workers.world workers.world)) = some consumers) :
      Moves cfg s (.worker a event at_) ⟨s.api, s.relay, workers, consumers⟩
  | consumer {a : StatusConsumer.Action} {api : Upload.State} {consumers : StatusConsumer.State}
      (own : consumerOwn a = true) (stepped : cfg.consumers.step s.consumers a = some consumers)
      (rewritten : cfg.api.exec s.api (rewrites cfg.consumer s.consumers consumers a) =
        some api) :
      Moves cfg s (.consumer a) ⟨api, s.relay, s.workers, consumers⟩

theorem moves_iff {cfg : Config} {s t : State} {a : Action} :
    step cfg s a = some t ↔ Moves cfg s a t := by
  constructor
  · intro h
    cases a with
    | api a =>
      simp only [step, Option.bind_eq_bind, Option.bind_eq_some_iff, Option.ite_none_right_eq_some,
        Option.some.injEq] at h
      obtain ⟨own, api, stepped, relay, inserted, consumers, uploaded, rfl⟩ := h
      exact .api own stepped inserted uploaded
    | relay i a =>
      simp only [step, Option.bind_eq_bind, Option.bind_eq_some_iff, Option.some.injEq] at h
      obtain ⟨relay, stepped, api, marked, rfl⟩ := h
      exact .relay stepped marked
    | receive i n =>
      simp only [step] at h
      split at h
      · cases h
        exact .dropped ‹_›
      · simp only [Option.bind_eq_bind, Option.bind_eq_some_iff, Option.some.injEq] at h
        obtain ⟨workers, stepped, rfl⟩ := h
        exact .received ‹_› stepped
    | worker a event at_ =>
      simp only [step, Option.bind_eq_bind, Option.bind_eq_some_iff, Option.ite_none_right_eq_some,
        Option.some.injEq] at h
      obtain ⟨own, workers, stepped, consumers, announced, rfl⟩ := h
      exact .worker own stepped announced
    | consumer a =>
      simp only [step, Option.bind_eq_bind, Option.bind_eq_some_iff, Option.ite_none_right_eq_some,
        Option.some.injEq] at h
      obtain ⟨own, consumers, stepped, api, rewritten, rfl⟩ := h
      exact .consumer own stepped rewritten
  · intro h
    cases h with
    | api own stepped inserted uploaded => simp [step, own, stepped, inserted, uploaded]
    | relay stepped marked => simp [step, stepped, marked]
    | dropped malformed => simp [step, malformed]
    | received decoded stepped => simp [step, decoded, stepped]
    | worker own stepped announced => simp [step, own, stepped, announced]
    | consumer own stepped rewritten => simp [step, own, stepped, rewritten]

section
variable (cfg : Config)

theorem exec_one {S A : Type} {m : Machine S A} {s t : S} {a : A} (h : m.step s a = some t) :
    m.exec s [a] = some t := by
  simp [exec_cons, h]

def apiView : View (machine cfg) cfg.api where
  of := State.api
  start := rfl
  step s a t h := by
    cases moves_iff.mp h with
    | api own stepped => exact ⟨_, exec_one stepped⟩
    | relay stepped marked => exact ⟨_, marked⟩
    | consumer own stepped rewritten => exact ⟨_, rewritten⟩
    | _ => exact ⟨[], rfl⟩

def relayView : View (machine cfg) cfg.relay where
  of := State.relay
  start := rfl
  step s a t h := by
    cases moves_iff.mp h with
    | api own stepped inserted => exact ⟨_, inserted⟩
    | relay stepped marked => exact ⟨_, exec_one stepped⟩
    | _ => exact ⟨[], rfl⟩

def workersView : View (machine cfg) cfg.workers where
  of := State.workers
  start := rfl
  step s a t h := by
    cases moves_iff.mp h with
    | received decoded stepped => exact ⟨_, exec_one stepped⟩
    | worker own stepped announced => exact ⟨_, exec_one stepped⟩
    | _ => exact ⟨[], rfl⟩

def consumersView : View (machine cfg) cfg.consumers where
  of := State.consumers
  start := rfl
  step s a t h := by
    cases moves_iff.mp h with
    | api own stepped inserted uploaded => exact ⟨_, uploaded⟩
    | worker own stepped announced => exact ⟨_, announced⟩
    | consumer own stepped rewritten => exact ⟨_, exec_one stepped⟩
    | _ => exact ⟨[], rfl⟩

end

def member? (key : String) : Json → Option Json
  | .obj members => (members.find? (fun m => m.1 = key)).map Prod.snd
  | _ => none

def text? (key : String) (j : Json) : Option String :=
  match member? key j with
  | some (.str s) => some s
  | _ => none

def uuid? (key : String) (j : Json) : Option Uuid := (text? key j).bind Uuid.ofStr

/-- The decoders, on texts which name UUIDs as the encoders do. -/
def decodeUploadedSample (payload : List UInt8) : Option UploadedEvent := do
  let j ← Json.ofChars (decodeReplace payload)
  let event ← uuid? "event_id" j
  let video ← uuid? "video_id" j
  some ⟨event, video⟩

def decodeStatusSample (payload : String) : Option StatusConsumer.StatusEvent := do
  let j ← Json.ofChars (decodeReplace (utf8 payload))
  let eventType ← text? "event_type" j
  let video ← uuid? "video_id" j
  some ⟨eventType, video⟩

def defaults : Config :=
  ⟨Upload.defaults, Upload.noon, fun _ => 100, Processing.defaults, decodeUploadedSample,
    ⟨decodeStatusSample, fun _ => 100, fun _ => 60000⟩⟩

theorem defaults_contract : Contract defaults where
  uploaded e := by
    simp [defaults, decodeUploadedSample, Upload.VideoUploadedIntegration.payload,
      decodeReplace_utf8, Json.ofChars_text, Upload.VideoUploadedIntegration.json, uuid?, text?,
      member?, Uuid.ofStr_str]
  status e := by
    simp [defaults, decodeStatusSample, VideoStatusIntegration.payload, decodeReplace_utf8,
      Json.ofChars_text, VideoStatusIntegration.json, uuid?, text?, member?, Uuid.ofStr_str]

def clip : Uuid := Upload.uuid 1

def clipUploaded : Uuid := Upload.uuid 2

def claimed : OutboxRelay.Claimed :=
  ⟨clipUploaded, "video_uploaded",
    (Upload.integration clipUploaded Upload.noon ⟨clip, "a.mp4", Upload.noon⟩).payload⟩

def work (i : Nat) (as : List Processing.Act) : List Action :=
  as.map (fun a => .worker (.act i a) clipUploaded Upload.noon)

def oneUpload : List Action :=
  [.api (.act 0 (.begin clip ⟨"a.mp4", [], none⟩)), .api (.act 0 .save),
    .api (.act 0 (.add clipUploaded)), .api (.act 0 .commit),
    .relay 0 (.claim [claimed]), .relay 0 .xadd, .relay 0 (.mark Upload.noon), .relay 0 .commit,
    .receive 0 0] ++
  work 0 [.seen, .enqueue, .enqueue, .enqueue, .enqueue, .publishStarted, .markProcessed] ++
  work 1 [.dequeue 0, .work, .add] ++ work 2 [.dequeue 0, .work, .add] ++
  work 1 [.dequeue 0, .work, .add, .publishProcessed, .clear] ++
  [.ensureGroup, .claim [], .read, .handle, .ack, .handle, .ack].map
    (fun a => .consumer (.act 0 a))

/-- What this run ends with. -/
structure Observed where
  video : Option VideoStatus
  uploadedEntries : Nat
  statusEntries : Nat
  group : Option StatusConsumer.Group
  withdrawn : List Uuid
  deriving DecidableEq

def observe (s : State) : Observed :=
  ⟨(s.api.world.videos clip).map (fun r => r.row.status), s.relay.world.stream.length,
    s.consumers.world.stream.length, s.consumers.world.group, s.consumers.world.withdrawn⟩

theorem one_upload : ∃ s r, (machine defaults).Reaches oneUpload s ∧
    s.api.world.videos clip = some r ∧ r.row.status = .done ∧
    s.relay.world.stream.length = 1 ∧ s.consumers.world.stream.length = 2 ∧
    s.consumers.world.group = some ⟨2, []⟩ ∧ s.consumers.world.withdrawn = [] := by
  have hr : ((machine defaults).exec (machine defaults).start oneUpload).map observe =
      some ⟨some .done, 1, 2, some ⟨2, []⟩, []⟩ := by
    decide +kernel
  obtain ⟨s, hs, he⟩ := Machine.reaches_of_map hr
  simp only [observe, Observed.mk.injEq, Option.map_eq_some_iff] at he
  obtain ⟨⟨r, hv, hd⟩, hrest⟩ := he
  exact ⟨s, r, hs, hv, hd, hrest⟩

end BackendTemplates.Pipeline
