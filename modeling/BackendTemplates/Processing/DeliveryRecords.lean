import BackendTemplates.Processing.Worker

namespace BackendTemplates.Processing.FanOut
open Python Runs

/-- A call of the use case: the process it runs in, and which of its calls it is. -/
structure Delivery where
  process : Nat
  number : Nat
  deriving DecidableEq

/-- A request that reached the server counts as done, also when the call then raised.
`cut` ends a call before its publish has returned, `unmarked` one that failed to mark. -/
inductive Deed where
  | received
  | skipped
  | enqueued (video : Uuid) (kind : JobKind)
  | started (video : Uuid) (returned : Bool)
  | returned
  | cut
  | unmarked
  deriving DecidableEq

structure Entry where
  delivery : Delivery
  event : Uuid
  deed : Deed
  deriving DecidableEq

structure World where
  base : Processing.World
  entries : List Entry

/-- A process and the number of its latest delivery. -/
structure Client where
  number : Nat
  base : Processing.Client

def Deed.job? : Deed → Option (Uuid × JobKind)
  | .enqueued video kind => some (video, kind)
  | _ => none

def Deed.video? : Deed → Option Uuid
  | .started video _ => some video
  | _ => none

def about (event : Uuid) (deeds : List Deed) : List (Uuid × Deed) :=
  deeds.map (fun deed => (event, deed))

def Event.start? : Event → Option (Nat × Uuid)
  | .started i video => some (i, video)
  | _ => none

/-- What a step has put into the queue and published as started. -/
def gained (returned : Bool) (w w' : Processing.World) : List Deed :=
  (w'.queue.drop w.queue.length).map (fun job => .enqueued job.video job.kind) ++
    ((w'.log.drop w.log.length).filterMap Event.start?).map (fun x => .started x.2 returned)

/-- What a step adds to the deeds of the delivery it belongs to. -/
def deeds (w w' : Processing.World) : Processing.Client → Act → List (Uuid × Deed)
  | .idle, .receive _ event => about event [.received]
  | .checking _ event, .seen => about event (if w.seen event then [.skipped] else [])
  | .enqueueing _ event _, .enqueue => about event (gained true w w')
  | .starting _ event, .publishStarted => about event (gained true w w')
  | .marking _ event, .markProcessed => about event [.returned]
  | .checking _ event, .fail _ => about event [.cut]
  | .enqueueing _ event _, .fail _ => about event (gained false w w' ++ [.cut])
  | .starting _ event, .fail _ => about event (gained false w w' ++ [.cut])
  | .marking _ event, .fail _ => about event [.unmarked]
  | .checking _ event, .crash => about event [.cut]
  | .enqueueing _ event _, .crash => about event [.cut]
  | .starting _ event, .crash => about event [.cut]
  | .marking _ event, .crash => about event [.unmarked]
  | _, _ => []

/-- Every delivery of an event carries the video the event is about. -/
def carried (videoOf : Uuid → Uuid) : Act → Prop
  | .receive video event => video = videoOf event
  | _ => True

instance (videoOf : Uuid → Uuid) (a : Act) : Decidable (carried videoOf a) := by
  unfold carried
  split <;> infer_instance

def Client.next (k : Client) : Act → Nat
  | .receive _ _ => k.number + 1
  | _ => k.number

/-- A delivery records its deeds. -/
def extend (entries : List Entry) (d : Delivery) (new : List (Uuid × Deed)) : List Entry :=
  entries ++ new.map (fun x => ⟨d, x.1, x.2⟩)

def step (cfg : Config) (videoOf : Uuid → Uuid) (i : Nat) (w : World) (k : Client) (a : Act) :
    Option (World × Client) :=
  if carried videoOf a then
    (Processing.step cfg i w.base k.base a).map fun r =>
      (⟨r.1, extend w.entries ⟨i, k.next a⟩ (deeds w.base r.1 k.base a)⟩, ⟨k.next a, r.2⟩)
  else none

/-- The processes of `Worker.lean`, deliveries and jobs. -/
def pool (cfg : Config) (videoOf : Uuid → Uuid) : Pool Nat World Client Act Nat where
  world := ⟨⟨0, fun _ => none, fun _ => none, [], []⟩, []⟩
  client := ⟨0, .idle⟩
  step := step cfg videoOf
  env w milliseconds := some { w with base.now := w.base.now + milliseconds }

/-- The deeds of one delivery, in order. -/
def own (d : Delivery) (entries : List Entry) : List (Uuid × Deed) :=
  (entries.filter (fun x => x.delivery = d)).map (fun x => (x.event, x.deed))

/-- The job of every kind is enqueued, one after the other. -/
def enqueuedAll (video : Uuid) : List Deed := JobKind.all.map (Deed.enqueued video)

/-- All of the fan-out for an event, in the order of the use case. -/
def whole (videoOf : Uuid → Uuid) (event : Uuid) : List (Uuid × Deed) :=
  about event (.received :: enqueuedAll (videoOf event) ++ [.started (videoOf event) true])

/-- The jobs that have been enqueued for an event. -/
def enqueuedFor (event : Uuid) (entries : List Entry) : List (Uuid × JobKind) :=
  (entries.filter (fun x => x.event = event)).filterMap (fun x => x.deed.job?)

/-- The event a process is handling. -/
def eventOf : Processing.Client → Option Uuid
  | .checking _ event => some event
  | .enqueueing _ event _ => some event
  | .starting _ event => some event
  | .marking _ event => some event
  | _ => none

/-- Everything one step can do to the inbox and to the delivery it belongs to. -/
inductive Turn (ttl : Nat) (w : Processing.World) : Processing.Client → Processing.World →
    Processing.Client → List (Uuid × Deed) → Prop where
  | outside {k k' : Processing.Client} {w' : Processing.World} (inbox : w'.inbox = w.inbox)
      (before : eventOf k = none) (after : eventOf k' = none) : Turn ttl w k w' k' []
  | received (video event : Uuid) :
      Turn ttl w .idle w (.checking video event) (about event [.received])
  | skipped (video event : Uuid) (seen : w.seen event = true) :
      Turn ttl w (.checking video event) w .idle (about event [.skipped])
  | unseen (video event : Uuid) (seen : w.seen event = false) :
      Turn ttl w (.checking video event) w (.enqueueing video event JobKind.all) []
  | enqueued {w' : Processing.World} (video event : Uuid) (kind : JobKind) (kinds : List JobKind)
      (inbox : w'.inbox = w.inbox) :
      Turn ttl w (.enqueueing video event (kind :: kinds)) w' (.enqueueing video event kinds)
        (about event [.enqueued video kind])
  | ready (video event : Uuid) :
      Turn ttl w (.enqueueing video event []) w (.starting video event) []
  | started {w' : Processing.World} (video event : Uuid) (inbox : w'.inbox = w.inbox) :
      Turn ttl w (.starting video event) w' (.marking video event)
        (about event [.started video true])
  | marked (video event : Uuid) :
      Turn ttl w (.marking video event) (w.markProcessed ttl event) .idle (about event [.returned])
  | cutChecking (video event : Uuid) :
      Turn ttl w (.checking video event) w .idle (about event [.cut])
  | cutEnqueueing {w' : Processing.World} (video event : Uuid) (kinds : List JobKind)
      (applied : List JobKind) (inbox : w'.inbox = w.inbox) :
      Turn ttl w (.enqueueing video event kinds) w' .idle
        (about event (applied.map (Deed.enqueued video) ++ [.cut]))
  | cutStarting {w' : Processing.World} (video event : Uuid) (applied : List Deed)
      (unreturned : ∀ deed ∈ applied, deed = .started video false) (inbox : w'.inbox = w.inbox) :
      Turn ttl w (.starting video event) w' .idle (about event (applied ++ [.cut]))
  | unmarked {w' : Processing.World} (video event : Uuid)
      (inbox : w'.inbox = w.inbox ∨ w' = w.markProcessed ttl event) :
      Turn ttl w (.marking video event) w' .idle (about event [.unmarked])

section
variable {cfg : Config} {i : Nat} {w w' : Processing.World} {k k' : Processing.Client} {a : Act}

@[simp] theorem gained_self (returned : Bool) (w : Processing.World) :
    gained returned w w = [] := by
  simp [gained]

@[simp] theorem gained_push (returned : Bool) (w : Processing.World) (job : Job) :
    gained returned w (w.push job) = [.enqueued job.video job.kind] := by
  simp [gained, World.push]

@[simp] theorem gained_started (returned : Bool) (w : Processing.World) (i : Nat) (video : Uuid) :
    gained returned w (w.emit [.started i video]) = [.started video returned] := by
  simp [gained, World.emit, Event.start?]

theorem markProcessed_now (ttl : Nat) (event : Uuid) : (w.markProcessed ttl event).now = w.now := by
  unfold World.markProcessed
  split <;> rfl

theorem markProcessed_same (ttl : Nat) (event : Uuid) :
    (w.markProcessed ttl event).queue = w.queue ∧ (w.markProcessed ttl event).log = w.log := by
  unfold World.markProcessed
  split <;> exact ⟨rfl, rfl⟩

theorem delivery_turn (h : deliveryStep cfg i w k a = some (w', k')) :
    w'.now = w.now ∧ Turn cfg.inboxTtlSeconds w k w' k' (deeds w w' k a) := by
  unfold deliveryStep at h
  split at h
  · cases h
    exact ⟨rfl, .received _ _⟩
  · split at h
    · rename_i hs
      cases h
      refine ⟨rfl, ?_⟩
      simp only [deeds, hs, if_true]
      exact .skipped _ _ hs
    · rename_i hs
      cases h
      refine ⟨rfl, ?_⟩
      simp only [deeds, hs]
      exact .unseen _ _ (by simpa using hs)
  · cases h
    refine ⟨rfl, ?_⟩
    simp only [deeds, gained_self]
    exact .ready _ _
  · cases h
    refine ⟨rfl, ?_⟩
    simp only [deeds, gained_push]
    exact .enqueued _ _ _ _ rfl
  · cases h
    refine ⟨rfl, ?_⟩
    simp only [deeds, gained_started]
    exact .started _ _ rfl
  · cases h
    exact ⟨markProcessed_now _ _, .marked _ _⟩
  · cases h
    exact ⟨rfl, .cutChecking _ _⟩
  · rename_i video event kind kinds applied
    cases applied with
    | true =>
      cases h
      refine ⟨rfl, ?_⟩
      simp only [deeds, if_true, gained_push]
      exact .cutEnqueueing video event _ [kind] rfl
    | false =>
      cases h
      refine ⟨rfl, ?_⟩
      simp only [deeds, Bool.false_eq_true, if_false, gained_self]
      exact .cutEnqueueing video event _ [] rfl
  · rename_i video event applied
    cases applied with
    | true =>
      cases h
      refine ⟨rfl, ?_⟩
      simp only [deeds, if_true, gained_started]
      exact .cutStarting video event [.started video false] (by simp) rfl
    | false =>
      cases h
      refine ⟨rfl, ?_⟩
      simp only [deeds, Bool.false_eq_true, if_false, gained_self]
      exact .cutStarting video event [] (by simp) rfl
  · rename_i applied
    cases applied with
    | true =>
      cases h
      exact ⟨markProcessed_now _ _, .unmarked _ _ (.inr rfl)⟩
    | false =>
      cases h
      exact ⟨rfl, .unmarked _ _ (.inl rfl)⟩
  · cases h

/-- Jobs leave the inbox alone and belong to no delivery. -/
theorem job_turn (h : jobStep cfg i w k a = some (w', k')) :
    w'.now = w.now ∧ Turn cfg.inboxTtlSeconds w k w' k' (deeds w w' k a) := by
  unfold jobStep at h
  split at h
  · split at h
    · cases h
    · cases h
      exact ⟨rfl, .outside rfl rfl rfl⟩
  · cases h
    exact ⟨rfl, .outside rfl rfl rfl⟩
  · split at h <;> cases h <;> exact ⟨rfl, .outside rfl rfl rfl⟩
  · cases h
    exact ⟨rfl, .outside rfl rfl rfl⟩
  · cases h
    exact ⟨rfl, .outside rfl rfl rfl⟩
  · cases h
    exact ⟨rfl, .outside rfl rfl rfl⟩
  · rename_i applied
    cases applied <;> cases h <;> exact ⟨rfl, .outside rfl rfl rfl⟩
  · rename_i applied
    cases applied <;> cases h <;> exact ⟨rfl, .outside rfl rfl rfl⟩
  · rename_i applied
    cases applied <;> cases h <;> exact ⟨rfl, .outside rfl rfl rfl⟩
  · split at h <;> cases h <;> exact ⟨rfl, .outside rfl rfl rfl⟩
  · cases h
    exact ⟨rfl, .outside rfl rfl rfl⟩
  · rename_i applied
    cases applied <;> cases h <;> exact ⟨rfl, .outside rfl rfl rfl⟩
  · cases h
    exact ⟨rfl, .outside rfl rfl rfl⟩
  · rename_i applied
    cases applied <;> cases h <;> exact ⟨rfl, .outside rfl rfl rfl⟩
  · cases h

theorem crash_turn (ttl : Nat) (hi : w'.inbox = w.inbox) (hw : eventOf k ≠ none → w' = w) :
    Turn ttl w k w' .idle (deeds w w' k .crash) := by
  cases k with
  | checking video event =>
    obtain rfl := hw (by simp [eventOf])
    exact .cutChecking video event
  | enqueueing video event kinds =>
    have hd : deeds w w' (.enqueueing video event kinds) .crash = about event [.cut] := by
      cases kinds <;> rfl
    rw [hd]
    exact .cutEnqueueing video event kinds [] hi
  | starting video event => exact .cutStarting video event [] (by simp) hi
  | marking video event => exact .unmarked video event (.inl hi)
  | _ => exact .outside hi rfl rfl

theorem step_turn (h : Processing.step cfg i w k a = some (w', k')) :
    w'.now = w.now ∧ Turn cfg.inboxTtlSeconds w k w' k' (deeds w w' k a) := by
  have other (h : (deliveryStep cfg i w k a).or (jobStep cfg i w k a) = some (w', k')) :
      w'.now = w.now ∧ Turn cfg.inboxTtlSeconds w k w' k' (deeds w w' k a) := by
    rcases Option.or_eq_some_iff.mp h with hd | ⟨_, hj⟩
    · exact delivery_turn hd
    · exact job_turn hj
  unfold Processing.step at h
  split at h
  · split at h
    · cases h
      exact ⟨rfl, crash_turn _ rfl (fun _ => rfl)⟩
    · rename_i job hj
      cases h
      refine ⟨rfl, crash_turn _ rfl (fun hn => ?_)⟩
      cases k <;> simp [eventOf, Client.job?] at hn hj
  · simp only [Option.map_eq_some_iff, Prod.mk.injEq] at h
    obtain ⟨job, hj, rfl, rfl⟩ := h
    have hd : deeds w (w.push job) k .sweep = [] := by cases k <;> simp [deeds]
    have hn : eventOf k = none := by cases k <;> simp [Client.job?] at hj <;> rfl
    rw [hd]
    exact ⟨rfl, .outside rfl hn hn⟩
  · exact other h

end

/-- The videos published as started, and the process that did it. -/
def starts (w : Processing.World) : List (Nat × Uuid) := w.log.filterMap Event.start?

def Event.run? : Event → Option (Uuid × JobKind)
  | .ran _ video kind => some (video, kind)
  | _ => none

/-- The jobs that have been taken out of the queue. -/
def taken (w : Processing.World) : List (Uuid × JobKind) := w.log.filterMap Event.run?

/-- A job no worker has had yet. -/
def Job.fresh? (job : Job) : Option (Uuid × JobKind) :=
  if job.attempts = 0 then some (job.video, job.kind) else none

def fresh (w : Processing.World) : List (Uuid × JobKind) := w.queue.filterMap Job.fresh?

def jobsIn (new : List (Uuid × Deed)) : List (Uuid × JobKind) := new.filterMap (fun x => x.2.job?)

def startsIn (new : List (Uuid × Deed)) : List Uuid := new.filterMap (fun x => x.2.video?)

/-- What a step does to the queue and to the stream is what the delivery records. A job that
a worker has had may come back into the queue. -/
structure Balance (i : Nat) (w w' : Processing.World) (new : List (Uuid × Deed)) : Prop where
  starts : starts w' = starts w ++ (startsIn new).map (fun video => (i, video))
  kept : ∀ job, (fresh w).count job + (taken w).count job + (jobsIn new).count job ≤
    (fresh w').count job + (taken w').count job
  asked : ∀ job, (fresh w').count job ≤ (fresh w).count job + (jobsIn new).count job

section
variable {cfg : Config} {i : Nat} {w w' : Processing.World} {k k' : Processing.Client} {a : Act}
  {new : List (Uuid × Deed)}

theorem Balance.quiet (hq : w'.queue = w.queue) (hs : FanOut.starts w' = FanOut.starts w)
    (hr : taken w' = taken w) (hj : jobsIn new = []) (hv : startsIn new = []) :
    Balance i w w' new where
  starts := by simp [hs, hv]
  kept job := by simp [fresh, hq, hr, hj]
  asked job := by simp [fresh, hq]

theorem Balance.pushed {job : Job} (hf : job.attempts = 0)
    (hj : jobsIn new = [(job.video, job.kind)]) (hv : startsIn new = []) :
    Balance i w (w.push job) new where
  starts := by simp [FanOut.starts, World.push, hv]
  kept j := by
    simp only [fresh, taken, World.push, List.filterMap_append, List.count_append, hj]
    simp [Job.fresh?, hf]
    omega
  asked j := by
    simp only [fresh, World.push, List.filterMap_append, List.count_append, hj]
    simp [Job.fresh?, hf]

theorem Balance.published {video : Uuid} (hj : jobsIn new = []) (hv : startsIn new = [video]) :
    Balance i w (w.emit [.started i video]) new where
  starts := by simp [FanOut.starts, World.emit, Event.start?, hv]
  kept job := by simp [fresh, taken, World.emit, Event.run?, hj]
  asked job := by simp [fresh, World.emit]

theorem Balance.marked {ttl : Nat} {event : Uuid} (hj : jobsIn new = []) (hv : startsIn new = []) :
    Balance i w (w.markProcessed ttl event) new := by
  obtain ⟨hq, hl⟩ := @markProcessed_same w ttl event
  exact .quiet hq (congrArg (List.filterMap Event.start?) hl)
    (congrArg (List.filterMap Event.run?) hl) hj hv

theorem Balance.pushedAgain {job : Job} (ht : 0 < job.attempts)
    (hj : jobsIn new = []) (hv : startsIn new = []) : Balance i w (w.push job) new where
  starts := by simp [FanOut.starts, World.push, hv]
  kept j := by
    have hne : job.attempts ≠ 0 := by omega
    simp [fresh, taken, World.push, Job.fresh?, hne, hj]
  asked j := by
    have hne : job.attempts ≠ 0 := by omega
    simp [fresh, World.push, Job.fresh?, hne]

theorem Balance.dequeued {job : Job} {n : Nat} (hn : w.queue[n]? = some job)
    (hj : jobsIn new = []) (hv : startsIn new = []) :
    Balance i w ({ w with queue := w.queue.eraseIdx n }.emit [.ran i job.video job.kind]) new := by
  have hperm : (fresh w).Perm ((job :: w.queue.eraseIdx n).filterMap Job.fresh?) := by
    obtain ⟨hlt, rfl⟩ := List.getElem?_eq_some_iff.mp hn
    exact ((List.getElem_cons_eraseIdx_perm hlt).filterMap _).symm
  refine ⟨by simp [FanOut.starts, World.emit, Event.start?, hv], fun j => ?_, fun j => ?_⟩
  · rw [hperm.count_eq]
    simp only [fresh, taken, World.emit, List.filterMap_cons, List.filterMap_append,
      List.count_append, Event.run?, List.filterMap_nil, hj, List.count_nil, Job.fresh?]
    split
    · rename_i hnone
      omega
    · rename_i b hsome
      split at hsome
      · cases hsome
        simp only [List.count_cons, List.count_nil]
        omega
      · cases hsome
  · rw [hperm.count_eq, hj]
    have hsub := (List.sublist_cons_self job (w.queue.eraseIdx n)).filterMap Job.fresh?
    exact Nat.le_add_right_of_le (hsub.count_le j)

/-- The job a process is running has been dequeued. -/
def Tried (k : Processing.Client) : Prop := ∀ job, k.job? = some job → 0 < job.attempts

theorem job_tried (ht : Tried k) (h : jobStep cfg i w k a = some (w', k')) : Tried k' := by
  unfold jobStep at h
  split at h
  · split at h
    · cases h
    · cases h
      intro job hj
      cases hj
      exact Nat.succ_pos _
  all_goals first
    | cases h; intro job hj; cases hj; exact ht _ rfl
    | cases h; intro job hj; cases hj
    | (split at h <;> cases h <;> intro job hj <;> cases hj <;> exact ht _ rfl)
    | cases h

theorem delivery_job (h : deliveryStep cfg i w k a = some (w', k')) :
    k.job? = none ∧ k'.job? = none := by
  unfold deliveryStep at h
  split at h
  case h_2 =>
    split at h <;> cases h <;> exact ⟨rfl, rfl⟩
  all_goals cases h
  all_goals exact ⟨rfl, rfl⟩

theorem step_tried (ht : Tried k) (h : Processing.step cfg i w k a = some (w', k')) : Tried k' := by
  have hidle : Tried .idle := fun job hj => by cases hj
  unfold Processing.step at h
  split at h
  · split at h
    · cases h
      exact hidle
    · cases h
      exact hidle
  · obtain ⟨job, -, he⟩ := Option.map_eq_some_iff.mp h
    cases he
    exact ht
  · rcases Option.or_eq_some_iff.mp h with hd | ⟨-, hj⟩
    · intro job hjob
      rw [(delivery_job hd).2] at hjob
      cases hjob
    · exact job_tried ht hj

theorem delivery_balance (h : deliveryStep cfg i w k a = some (w', k')) :
    Balance i w w' (deeds w w' k a) := by
  unfold deliveryStep at h
  split at h
  · cases h
    exact .quiet rfl rfl rfl rfl rfl
  · split at h
    · rename_i hs
      cases h
      exact .quiet rfl rfl rfl (by simp [deeds, hs, about, jobsIn, Deed.job?])
        (by simp [deeds, hs, about, startsIn, Deed.video?])
    · rename_i hs
      cases h
      exact .quiet rfl rfl rfl (by simp [deeds, hs, about, jobsIn])
        (by simp [deeds, hs, about, startsIn])
  · cases h
    exact .quiet rfl rfl rfl (by simp [deeds, about, jobsIn]) (by simp [deeds, about, startsIn])
  · cases h
    exact .pushed rfl (by simp [deeds, about, jobsIn, Deed.job?])
      (by simp [deeds, about, startsIn, Deed.video?])
  · cases h
    exact .published (by simp [deeds, about, jobsIn, Deed.job?])
      (by simp [deeds, about, startsIn, Deed.video?])
  · cases h
    exact .marked rfl rfl
  · cases h
    exact .quiet rfl rfl rfl rfl rfl
  · rename_i applied
    cases applied with
    | true =>
      cases h
      exact .pushed rfl (by simp [deeds, about, jobsIn, Deed.job?])
        (by simp [deeds, about, startsIn, Deed.video?])
    | false =>
      cases h
      exact .quiet rfl rfl rfl (by simp [deeds, about, jobsIn, Deed.job?])
        (by simp [deeds, about, startsIn, Deed.video?])
  · rename_i applied
    cases applied with
    | true =>
      cases h
      exact .published (by simp [deeds, about, jobsIn, Deed.job?])
        (by simp [deeds, about, startsIn, Deed.video?])
    | false =>
      cases h
      exact .quiet rfl rfl rfl (by simp [deeds, about, jobsIn, Deed.job?])
        (by simp [deeds, about, startsIn, Deed.video?])
  · rename_i applied
    cases applied with
    | true =>
      cases h
      exact .marked rfl rfl
    | false =>
      cases h
      exact .quiet rfl rfl rfl rfl rfl
  · cases h

/-- A job emits no start of a delivery, and leaves the queue alone once it is taken. -/
theorem Balance.emitted {events : List Event} {w₁ : Processing.World} (hq : w₁.queue = w.queue)
    (hs : FanOut.starts w₁ = FanOut.starts w) (hr : taken w₁ = taken w)
    (he : ∀ e ∈ events, Event.start? e = none ∧ Event.run? e = none) :
    Balance i w (w₁.emit events) [] := by
  have hstart : events.filterMap Event.start? = [] :=
    List.filterMap_eq_nil_iff.mpr (fun e h => (he e h).1)
  have hrun : events.filterMap Event.run? = [] :=
    List.filterMap_eq_nil_iff.mpr (fun e h => (he e h).2)
  refine .quiet hq ?_ ?_ rfl rfl
  · simp only [FanOut.starts, World.emit, List.filterMap_append, hstart, List.append_nil]
    exact hs
  · simp only [taken, World.emit, List.filterMap_append, hrun, List.append_nil]
    exact hr

theorem add_same (ttl : Nat) (job : Job) : (w.add ttl job).queue = w.queue ∧
    starts (w.add ttl job) = starts w ∧ taken (w.add ttl job) = taken w := by
  refine ⟨rfl, ?_, ?_⟩
  · simp only [starts, World.add, List.filterMap_append]
    split <;> simp [Event.start?]
  · simp only [taken, World.add, List.filterMap_append]
    split <;> simp [Event.run?]

theorem job_balance (ht : Tried k) (h : jobStep cfg i w k a = some (w', k')) :
    Balance i w w' (deeds w w' k a) := by
  unfold jobStep at h
  split at h
  · split at h
    · cases h
    · rename_i hn
      cases h
      exact .dequeued hn rfl rfl
  · cases h
    exact .emitted rfl rfl rfl (by simp [Event.start?, Event.run?])
  · rename_i job
    obtain ⟨hq, hs, hr⟩ := @add_same w cfg.joinTtlSeconds job
    split at h
    · cases h
      exact .emitted hq hs hr (by simp [Event.start?, Event.run?])
    · cases h
      exact .emitted hq hs hr (by simp [Event.start?, Event.run?])
  · cases h
    exact .emitted rfl rfl rfl (by simp [Event.start?, Event.run?])
  · cases h
    exact .emitted rfl rfl rfl (by simp [Event.start?, Event.run?])
  · cases h
    exact .emitted rfl rfl rfl (by simp [Event.start?, Event.run?])
  · rename_i job applied
    obtain ⟨hq, hs, hr⟩ := @add_same w cfg.joinTtlSeconds job
    cases applied with
    | true =>
      cases h
      exact .emitted hq hs hr (by simp [Event.start?, Event.run?])
    | false =>
      cases h
      exact .emitted rfl rfl rfl (by simp [Event.start?, Event.run?])
  · rename_i job applied
    cases applied with
    | true =>
      cases h
      exact .emitted rfl (by simp [starts, World.emit, Event.start?])
        (by simp [taken, World.emit, Event.run?]) (by simp [Event.start?, Event.run?])
    | false =>
      cases h
      exact .emitted rfl rfl rfl (by simp [Event.start?, Event.run?])
  · rename_i applied
    cases applied with
    | true =>
      cases h
      exact .emitted rfl rfl rfl (by simp [Event.start?, Event.run?])
    | false =>
      cases h
      exact .emitted rfl rfl rfl (by simp [Event.start?, Event.run?])
  · split at h
    · cases h
      exact .pushedAgain (ht _ rfl) rfl rfl
    · cases h
      exact .emitted rfl rfl rfl (by simp [Event.start?, Event.run?])
  · cases h
    exact .emitted rfl rfl rfl (by simp [Event.start?, Event.run?])
  · rename_i applied
    cases applied with
    | true =>
      cases h
      exact .emitted rfl rfl rfl (by simp [Event.start?, Event.run?])
    | false =>
      cases h
      exact .quiet rfl rfl rfl rfl rfl
  · cases h
    exact .quiet rfl rfl rfl rfl rfl
  · rename_i applied
    cases applied with
    | true =>
      cases h
      exact .quiet rfl rfl rfl rfl rfl
    | false =>
      cases h
      exact .quiet rfl rfl rfl rfl rfl
  · cases h

theorem step_balance (ht : Tried k) (h : Processing.step cfg i w k a = some (w', k')) :
    Balance i w w' (deeds w w' k a) := by
  unfold Processing.step at h
  split at h
  · split at h
    · cases h
      cases k with
      | enqueueing video event kinds => exact .quiet rfl rfl rfl rfl rfl
      | _ => exact .quiet rfl rfl rfl rfl rfl
    · rename_i job hj
      cases h
      have hd : deeds w (w.emit [.errored i job.video job.kind]) k .crash = [] := by
        cases k <;> simp [deeds, Client.job?] at hj ⊢
      rw [hd]
      exact .emitted rfl rfl rfl (by simp [Event.start?, Event.run?])
  · obtain ⟨job, hj, he⟩ := Option.map_eq_some_iff.mp h
    cases he
    have hd : deeds w (w.push job) k .sweep = [] := by cases k <;> simp [deeds]
    rw [hd]
    exact .pushedAgain (ht job hj) rfl rfl
  · rcases Option.or_eq_some_iff.mp h with hd | ⟨-, hj⟩
    · exact delivery_balance hd
    · exact job_balance ht hj

end

/-- The jobs all deliveries together have enqueued. -/
def enqueued (entries : List Entry) : List (Uuid × JobKind) :=
  entries.filterMap (fun x => x.deed.job?)

/-- The starts all deliveries together have published. -/
def published (entries : List Entry) : List (Nat × Uuid) :=
  entries.filterMap (fun x => x.deed.video?.map (fun video => (x.delivery.process, video)))

/-- The deliveries' records are the starts in the stream, and the jobs that are in the queue
or have been taken out of it. -/
structure Accounted (w : World) : Prop where
  starts : starts w.base = published w.entries
  kept : ∀ job, (enqueued w.entries).count job ≤
    (fresh w.base).count job + (taken w.base).count job
  asked : ∀ job, (fresh w.base).count job ≤ (enqueued w.entries).count job

section
variable {cfg : Config} {videoOf : Uuid → Uuid} {i : Nat}

theorem enqueued_extend (entries : List Entry) (d : Delivery) (new : List (Uuid × Deed)) :
    enqueued (extend entries d new) = enqueued entries ++ jobsIn new := by
  rw [enqueued, extend, List.filterMap_append, List.filterMap_map]
  rfl

theorem published_extend (entries : List Entry) (d : Delivery) (new : List (Uuid × Deed)) :
    published (extend entries d new) =
      published entries ++ (startsIn new).map (fun video => (d.process, video)) := by
  rw [published, extend, List.filterMap_append, List.filterMap_map, startsIn, List.map_filterMap]
  rfl

theorem step_accounted {w w' : World} {k k' : Client} {a : Act} (hw : Accounted w)
    (hk : Tried k.base) (h : step cfg videoOf i w k a = some (w', k')) :
    Accounted w' ∧ Tried k'.base := by
  unfold step at h
  split at h
  · simp only [Option.map_eq_some_iff, Prod.exists, Prod.mk.injEq] at h
    obtain ⟨b, c, hb, rfl, rfl⟩ := h
    have hbal := step_balance hk hb
    refine ⟨⟨?_, fun job => ?_, fun job => ?_⟩, step_tried hk hb⟩
    · simp only [published_extend, hbal.starts, hw.starts]
    · have := hbal.kept job
      have := hw.kept job
      simp only [enqueued_extend, List.count_append]
      omega
    · have := hbal.asked job
      have := hw.asked job
      simp only [enqueued_extend, List.count_append]
      omega
  · cases h

theorem accounted {as : List (Pool.Action Nat Act Nat)} {s : Pool.State Nat World Client}
    (h : (pool cfg videoOf).machine.Reaches as s) : Accounted s.world := by
  have hgood : Pool.Good Accounted (fun (_ : Nat) _ k => Tried k.base) s := by
    refine Pool.good_of_reaches ?_ ?_ ?_ h
    · exact ⟨⟨rfl, fun job => Nat.le_refl _, fun job => Nat.le_refl _⟩,
        fun i job hj => by cases hj⟩
    · intro s i a w k hg hs
      obtain ⟨hw, hk⟩ := step_accounted hg.1 (hg.2 i) hs
      exact ⟨hw, hk, fun j _ => hg.2 j⟩
    · intro s e w hg hs
      cases hs
      exact ⟨⟨hg.1.starts, hg.1.kept, hg.1.asked⟩, hg.2⟩
  exact hgood.1

end

end BackendTemplates.Processing.FanOut
