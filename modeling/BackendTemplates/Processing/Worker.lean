import Mathlib.Data.Finset.Card
import Mathlib.Data.Fintype.Card
import BackendTemplates.Library.Pool
import BackendTemplates.Python.Uuid

namespace BackendTemplates.Processing
open Python Runs

inductive JobKind where
  | transcode
  | plagiarism
  | stt
  deriving DecidableEq, Repr

instance : Fintype JobKind := ⟨{.transcode, .plagiarism, .stt}, fun k => by cases k <;> decide⟩

/-- `for kind in JobKind`. -/
def JobKind.all : List JobKind := [.transcode, .plagiarism, .stt]

def fanOut : Nat := JobKind.all.length

/-- `JoinPolicy.is_complete`. -/
def isComplete (doneCount fanOut : Nat) : Bool := fanOut ≤ doneCount

/-- A job in the queue. `attempts` counts the times it was dequeued. -/
structure Job where
  video : Uuid
  kind : JobKind
  attempts : Nat
  retries : Nat
  deriving DecidableEq

/-- The set `join:{video_id}` and the instant its TTL runs out. -/
structure Join where
  kinds : Finset JobKind
  deadline : Nat

/-- What happened, in order, and in which run. `started`, `processed` and `failed` are
the entries of the `video_status` stream. -/
inductive Event where
  | started (i : Nat) (video : Uuid)
  | ran (i : Nat) (video : Uuid) (kind : JobKind)
  | worked (i : Nat) (video : Uuid) (kind : JobKind)
  | expired (video : Uuid)
  | recorded (i : Nat) (video : Uuid) (kind : JobKind)
  | completed (i : Nat) (video : Uuid) (kind : JobKind)
  | processed (i : Nat) (video : Uuid) (kind : JobKind)
  | returned (i : Nat) (video : Uuid) (kind : JobKind)
  | errored (i : Nat) (video : Uuid) (kind : JobKind)
  | terminal (i : Nat) (video : Uuid) (kind : JobKind)
  | failed (i : Nat) (video : Uuid)
  deriving DecidableEq

/-- Time is in milliseconds. -/
structure World where
  now : Nat
  join : Uuid → Option Join
  inbox : Uuid → Option Nat
  queue : List Job
  log : List Event

structure Config where
  joinTtlSeconds : Nat
  inboxTtlSeconds : Nat
  jobRetries : Nat

/-- A consumer process handling an upload event, or a worker process running a job. -/
inductive Client where
  | idle
  | checking (video event : Uuid)
  | enqueueing (video event : Uuid) (kinds : List JobKind)
  | starting (video event : Uuid)
  | marking (video event : Uuid)
  | working (job : Job)
  | worked (job : Job)
  | completing (job : Job)
  | clearing (job : Job)
  | raised (job : Job)
  | failing (job : Job)
  | cleaning (job : Job)
  deriving DecidableEq

inductive Act where
  | receive (video event : Uuid)
  | seen
  | enqueue
  | publishStarted
  | markProcessed
  | dequeue (n : Nat)
  | work
  | add
  | publishProcessed
  | clear
  | settle
  | publishFailed
  | fail (applied : Bool)
  | crash
  | sweep
  deriving DecidableEq

namespace World

def emit (w : World) (events : List Event) : World := { w with log := w.log ++ events }

/-- The members of the join set, gone once its TTL has run out. -/
def live (w : World) (video : Uuid) : Finset JobKind :=
  match w.join video with
  | none => ∅
  | some j => if w.now < j.deadline then j.kinds else ∅

def overdue (w : World) (video : Uuid) : Bool :=
  match w.join video with
  | none => false
  | some j => j.deadline ≤ w.now

/-- `ValkeyJoinStore.add`: SADD, EXPIRE and SCARD in one MULTI. -/
def add (ttlSeconds : Nat) (w : World) (job : Job) : World :=
  { w with
    join := Function.update w.join job.video
      (some ⟨insert job.kind (w.live job.video), w.now + ttlSeconds * 1000⟩)
    log := w.log ++ if w.overdue job.video then [.expired job.video] else [] }

def doneCount (w : World) (job : Job) : Nat := (insert job.kind (w.live job.video)).card

/-- `ValkeyJoinStore.clear`. -/
def clear (w : World) (video : Uuid) : World :=
  { w with join := Function.update w.join video none }

def push (w : World) (job : Job) : World := { w with queue := w.queue ++ [job] }

/-- `ValkeyInboxStore.seen`. -/
def seen (w : World) (event : Uuid) : Bool :=
  match w.inbox event with
  | none => false
  | some deadline => w.now < deadline

/-- `ValkeyInboxStore.mark_processed`: SET with NX keeps a mark that is there. -/
def markProcessed (ttlSeconds : Nat) (w : World) (event : Uuid) : World :=
  if w.seen event then w
  else { w with inbox := Function.update w.inbox event (some (w.now + ttlSeconds * 1000)) }

end World

/-- The job a worker process is running. -/
def Client.job? : Client → Option Job
  | .working job => some job
  | .worked job => some job
  | .completing job => some job
  | .clearing job => some job
  | .raised job => some job
  | .failing job => some job
  | .cleaning job => some job
  | _ => none

/-- `OnVideoUploadedUC`. An exception leaves the message unacked, so that it is received
again. The request of a failed step may have reached the server. -/
def deliveryStep (cfg : Config) (i : Nat) (w : World) : Client → Act → Option (World × Client)
  | .idle, .receive video event => some (w, .checking video event)
  | .checking video event, .seen =>
    if w.seen event then some (w, .idle) else some (w, .enqueueing video event JobKind.all)
  | .enqueueing video event [], .enqueue => some (w, .starting video event)
  | .enqueueing video event (kind :: kinds), .enqueue =>
    some (w.push ⟨video, kind, 0, cfg.jobRetries⟩, .enqueueing video event kinds)
  | .starting video event, .publishStarted =>
    some (w.emit [.started i video], .marking video event)
  | .marking _ event, .markProcessed => some (w.markProcessed cfg.inboxTtlSeconds event, .idle)
  | .checking _ _, .fail _ => some (w, .idle)
  | .enqueueing video _ (kind :: _), .fail applied =>
    some (if applied then w.push ⟨video, kind, 0, cfg.jobRetries⟩ else w, .idle)
  | .starting video _, .fail applied =>
    some (if applied then w.emit [.started i video] else w, .idle)
  | .marking _ event, .fail applied =>
    some (if applied then w.markProcessed cfg.inboxTtlSeconds event else w, .idle)
  | _, _ => none

/-- One job: its work, `CompleteJobUC`, and after an exception the retry by the queue or
`OnJobFailedUC`, whose own errors are only logged. -/
def jobStep (cfg : Config) (i : Nat) (w : World) : Client → Act → Option (World × Client)
  | .idle, .dequeue n =>
    match w.queue[n]? with
    | none => none
    | some job =>
      some ({ w with queue := w.queue.eraseIdx n }.emit [.ran i job.video job.kind],
        .working { job with attempts := job.attempts + 1 })
  | .working job, .work => some (w.emit [.worked i job.video job.kind], .worked job)
  | .worked job, .add =>
    if isComplete (w.doneCount job) fanOut then
      some ((w.add cfg.joinTtlSeconds job).emit
        [.recorded i job.video job.kind, .completed i job.video job.kind], .completing job)
    else
      some ((w.add cfg.joinTtlSeconds job).emit
        [.recorded i job.video job.kind, .returned i job.video job.kind], .idle)
  | .completing job, .publishProcessed =>
    some (w.emit [.processed i job.video job.kind], .clearing job)
  | .clearing job, .clear =>
    some ((w.clear job.video).emit [.returned i job.video job.kind], .idle)
  | .working job, .fail _ => some (w.emit [.errored i job.video job.kind], .raised job)
  | .worked job, .fail applied =>
    some ((if applied then w.add cfg.joinTtlSeconds job else w).emit
      [.errored i job.video job.kind], .raised job)
  | .completing job, .fail applied =>
    some ((if applied then w.emit [.processed i job.video job.kind] else w).emit
      [.errored i job.video job.kind], .raised job)
  | .clearing job, .fail applied =>
    some ((if applied then w.clear job.video else w).emit
      [.errored i job.video job.kind], .raised job)
  | .raised job, .settle =>
    if job.attempts < job.retries then some (w.push job, .idle)
    else some (w.emit [.terminal i job.video job.kind], .failing job)
  | .failing job, .publishFailed => some (w.emit [.failed i job.video], .cleaning job)
  | .failing job, .fail applied =>
    some (if applied then w.emit [.failed i job.video] else w, .cleaning job)
  | .cleaning job, .clear => some (w.clear job.video, .idle)
  | .cleaning job, .fail applied => some (if applied then w.clear job.video else w, .idle)
  | _, _ => none

/-- A process may die, and the queue may hand out a job again that it takes for stuck. -/
def step (cfg : Config) (i : Nat) (w : World) (k : Client) (a : Act) : Option (World × Client) :=
  match a with
  | .crash =>
    match k.job? with
    | none => some (w, .idle)
    | some job => some (w.emit [.errored i job.video job.kind], .idle)
  | .sweep => k.job?.map (fun job => (w.push job, k))
  | _ => (deliveryStep cfg i w k a).or (jobStep cfg i w k a)

/-- Time passes. -/
def env (w : World) (milliseconds : Nat) : Option World :=
  some { w with now := w.now + milliseconds }

def pool (cfg : Config) : Pool Nat World Client Act Nat where
  world := ⟨0, fun _ => none, fun _ => none, [], []⟩
  client := .idle
  step := step cfg
  env := env

abbrev State := Pool.State Nat World Client
abbrev Action := Pool.Action Nat Act Nat

/-- What the request of a failed step may have done before the exception. -/
inductive Applied (ttl i : Nat) (w : World) (job : Job) : Act → Client → World → Prop where
  | none (a : Act) (k : Client) : Applied ttl i w job a k w
  | add : Applied ttl i w job (.fail true) (.worked job) (w.add ttl job)
  | processed : Applied ttl i w job (.fail true) (.completing job)
      (w.emit [.processed i job.video job.kind])
  | clear : Applied ttl i w job (.fail true) (.clearing job) (w.clear job.video)

/-- Everything one step of a process can do to the join and to the log. -/
inductive Effect (ttl i : Nat) (w : World) : Act → Client → World → Client → Prop where
  | quiet {a : Act} {k k' : Client} {w' : World} (log : w'.log = w.log) (join : w'.join = w.join)
      (next : k' = k ∨ k'.job? = none ∧ (k.job? = none ∨ ∃ job, k = .raised job)) :
      Effect ttl i w a k w' k'
  | started {a : Act} {k k' : Client} (video : Uuid) (before : k.job? = none)
      (next : k'.job? = none) : Effect ttl i w a k (w.emit [.started i video]) k'
  | ran {a : Act} {w' : World} (job : Job)
      (log : w'.log = w.log ++ [.ran i job.video job.kind]) (join : w'.join = w.join) :
      Effect ttl i w a .idle w' (.working job)
  | worked {a : Act} (job : Job) :
      Effect ttl i w a (.working job) (w.emit [.worked i job.video job.kind]) (.worked job)
  | recorded (job : Job) (count : isComplete (w.doneCount job) fanOut = false) :
      Effect ttl i w .add (.worked job) ((w.add ttl job).emit
        [.recorded i job.video job.kind, .returned i job.video job.kind]) .idle
  | completed (job : Job) (count : isComplete (w.doneCount job) fanOut = true) :
      Effect ttl i w .add (.worked job) ((w.add ttl job).emit
        [.recorded i job.video job.kind, .completed i job.video job.kind]) (.completing job)
  | processed {a : Act} (job : Job) :
      Effect ttl i w a (.completing job) (w.emit [.processed i job.video job.kind]) (.clearing job)
  | cleared {a : Act} (job : Job) :
      Effect ttl i w a (.clearing job) ((w.clear job.video).emit
        [.returned i job.video job.kind]) .idle
  | errored {a : Act} {k k' : Client} {w₁ : World} (job : Job) (before : k.job? = some job)
      (applied : Applied ttl i w job a k w₁) (next : k' = .raised job ∨ k' = .idle) :
      Effect ttl i w a k (w₁.emit [.errored i job.video job.kind]) k'
  | terminal {a : Act} (job : Job) :
      Effect ttl i w a (.raised job) (w.emit [.terminal i job.video job.kind]) (.failing job)
  | failed {a : Act} {w' : World} (job : Job)
      (applied : w' = w ∨ w' = w.emit [.failed i job.video]) :
      Effect ttl i w a (.failing job) w' (.cleaning job)
  | cleaned {a : Act} {w' : World} (job : Job) (applied : w' = w ∨ w' = w.clear job.video) :
      Effect ttl i w a (.cleaning job) w' .idle

section
variable {cfg : Config} {i : Nat} {w w' : World} {k k' : Client} {a : Act}

theorem delivery_effect (h : deliveryStep cfg i w k a = some (w', k')) :
    Effect cfg.joinTtlSeconds i w a k w' k' := by
  have mark (event : Uuid) : (w.markProcessed cfg.inboxTtlSeconds event).log = w.log ∧
      (w.markProcessed cfg.inboxTtlSeconds event).join = w.join := by
    unfold World.markProcessed
    split <;> exact ⟨rfl, rfl⟩
  unfold deliveryStep at h
  split at h
  · cases h
    exact .quiet rfl rfl (.inr ⟨rfl, .inl rfl⟩)
  · split at h <;> cases h <;> exact .quiet rfl rfl (.inr ⟨rfl, .inl rfl⟩)
  · cases h
    exact .quiet rfl rfl (.inr ⟨rfl, .inl rfl⟩)
  · cases h
    exact .quiet rfl rfl (.inr ⟨rfl, .inl rfl⟩)
  · cases h
    exact .started _ rfl rfl
  · cases h
    exact .quiet (mark _).1 (mark _).2 (.inr ⟨rfl, .inl rfl⟩)
  · cases h
    exact .quiet rfl rfl (.inr ⟨rfl, .inl rfl⟩)
  · rename_i applied
    cases applied <;> cases h <;> exact .quiet rfl rfl (.inr ⟨rfl, .inl rfl⟩)
  · rename_i applied
    cases applied with
    | true =>
      cases h
      exact .started _ rfl rfl
    | false =>
      cases h
      exact .quiet rfl rfl (.inr ⟨rfl, .inl rfl⟩)
  · rename_i applied
    cases applied with
    | true =>
      cases h
      exact .quiet (mark _).1 (mark _).2 (.inr ⟨rfl, .inl rfl⟩)
    | false =>
      cases h
      exact .quiet rfl rfl (.inr ⟨rfl, .inl rfl⟩)
  · cases h

theorem job_effect (h : jobStep cfg i w k a = some (w', k')) :
    Effect cfg.joinTtlSeconds i w a k w' k' := by
  unfold jobStep at h
  split at h
  · split at h
    · cases h
    · cases h
      exact .ran _ rfl rfl
  · cases h
    exact .worked _
  · split at h
    · rename_i hc
      cases h
      exact .completed _ hc
    · rename_i hc
      cases h
      exact .recorded _ (by simpa using hc)
  · cases h
    exact .processed _
  · cases h
    exact .cleared _
  · cases h
    exact .errored _ rfl (.none _ _) (.inl rfl)
  · rename_i applied
    cases applied <;> cases h
    · exact .errored _ rfl (.none _ _) (.inl rfl)
    · exact .errored _ rfl .add (.inl rfl)
  · rename_i applied
    cases applied <;> cases h
    · exact .errored _ rfl (.none _ _) (.inl rfl)
    · exact .errored _ rfl .processed (.inl rfl)
  · rename_i applied
    cases applied <;> cases h
    · exact .errored _ rfl (.none _ _) (.inl rfl)
    · exact .errored _ rfl .clear (.inl rfl)
  · split at h <;> cases h
    · exact .quiet rfl rfl (.inr ⟨rfl, .inr ⟨_, rfl⟩⟩)
    · exact .terminal _
  · cases h
    exact .failed _ (.inr rfl)
  · rename_i applied
    cases applied <;> cases h
    · exact .failed _ (.inl rfl)
    · exact .failed _ (.inr rfl)
  · cases h
    exact .cleaned _ (.inr rfl)
  · rename_i applied
    cases applied <;> cases h
    · exact .cleaned _ (.inl rfl)
    · exact .cleaned _ (.inr rfl)
  · cases h

theorem step_effect (h : step cfg i w k a = some (w', k')) :
    Effect cfg.joinTtlSeconds i w a k w' k' := by
  have other (h : (deliveryStep cfg i w k a).or (jobStep cfg i w k a) = some (w', k')) :
      Effect cfg.joinTtlSeconds i w a k w' k' := by
    rcases Option.or_eq_some_iff.mp h with hd | ⟨_, hj⟩
    · exact delivery_effect hd
    · exact job_effect hj
  unfold step at h
  split at h
  · split at h
    · rename_i hj
      cases h
      exact .quiet rfl rfl (.inr ⟨rfl, .inl hj⟩)
    · rename_i job hj
      cases h
      exact .errored job hj (.none _ k) (.inr rfl)
  · simp only [Option.map_eq_some_iff, Prod.mk.injEq] at h
    obtain ⟨job, hj, rfl, rfl⟩ := h
    exact .quiet rfl rfl (.inl rfl)
  · exact other h

/-- The log only grows. -/
theorem Effect.log_grows {ttl : Nat} (h : Effect ttl i w a k w' k') :
    ∃ es, w'.log = w.log ++ es := by
  cases h with
  | quiet log => exact ⟨[], by simp [log]⟩
  | ran job log => exact ⟨_, log⟩
  | recorded job => exact ⟨_, List.append_assoc w.log _ _⟩
  | completed job => exact ⟨_, List.append_assoc w.log _ _⟩
  | errored job before applied =>
    cases applied with
    | none => exact ⟨_, rfl⟩
    | add => exact ⟨_, List.append_assoc w.log _ _⟩
    | processed => exact ⟨_, List.append_assoc w.log _ _⟩
    | clear => exact ⟨_, rfl⟩
  | failed job applied =>
    rcases applied with rfl | rfl
    · exact ⟨[], by simp⟩
    · exact ⟨_, rfl⟩
  | cleaned job applied =>
    rcases applied with rfl | rfl <;> exact ⟨[], by simp [World.clear]⟩
  | _ => exact ⟨_, rfl⟩

theorem live_subset {video : Uuid} {kind : JobKind} (h : kind ∈ w.live video) :
    ∃ j, w.join video = some j ∧ kind ∈ j.kinds := by
  unfold World.live at h
  split at h
  · simp at h
  · rename_i j hj
    split at h
    · exact ⟨j, hj, h⟩
    · simp at h

/-- The fan-out is reached when no kind is missing from the set. -/
theorem isComplete_iff (job : Job) : isComplete (w.doneCount job) fanOut = true ↔
    ∀ kind, kind ∈ insert job.kind (w.live job.video) := by
  have hcard : fanOut = Fintype.card JobKind := rfl
  rw [← Finset.eq_univ_iff_forall, ← Finset.card_eq_iff_eq_univ, ← hcard]
  have hle : w.doneCount job ≤ fanOut := Finset.card_le_univ _
  simp only [isComplete, decide_eq_true_eq]
  change fanOut ≤ w.doneCount job ↔ w.doneCount job = fanOut
  omega

end
def clip : Uuid := Uuid.null

def defaults : Config := ⟨3600, 86400, 3⟩

/-- An upload event is fanned out, up to the announcement of the start. -/
def fanOutRun : List Action :=
  [.act 0 (.receive clip clip), .act 0 .seen, .act 0 .enqueue, .act 0 .enqueue, .act 0 .enqueue,
    .act 0 .enqueue]

/-- A worker takes the oldest job from the queue, works and records it. -/
def jobRun (i : Nat) : List Action := [.act i (.dequeue 0), .act i .work, .act i .add]

end BackendTemplates.Processing
