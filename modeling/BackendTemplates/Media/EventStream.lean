import BackendTemplates.Library.Runs

namespace BackendTemplates.Media.EventStream
open Runs

/-- An encoded event of the channel. -/
abbrev Event := List UInt8

inductive SSEData where
  | message (event : Event)
  | comment (text : String)
  deriving DecidableEq

def keepAlive : SSEData := .comment "keep-alive"

/-- Where `_event_stream` stands: at a yield, in `wait_for` for some time, or returned. -/
inductive Phase where
  | suspended
  | awaiting (waited : Nat)
  | ended
  deriving DecidableEq

/-- The subscriber's queue, whether the generator over it is finished, the events published
since the subscription, and what the stream has yielded. -/
structure Stream where
  queue : List Event
  finished : Bool
  phase : Phase
  published : List Event
  yielded : List SSEData
  deriving DecidableEq

inductive Act where
  | publish (event : Event)
  | pull
  | wake
  | idle (microseconds : Nat)
  deriving DecidableEq

/-- `anext(events)` while there is an event, and the yield of it. -/
def Stream.deliver (s : Stream) (event : Event) (queue : List Event) : Stream :=
  { s with queue := queue, phase := .suspended, yielded := s.yielded ++ [.message event] }

/-- What the channel puts into the subscriber's queue. -/
def Stream.receive (s : Stream) (events : List Event) : Stream :=
  { s with queue := s.queue ++ events, published := s.published ++ events }

def step (heartbeat : Nat) (s : Stream) : Act → Option Stream
  | .publish event => some (s.receive [event])
  | .pull =>
    if s.phase = .suspended then
      if s.finished then some { s with phase := .ended }
      else match s.queue with
        | event :: queue => some (s.deliver event queue)
        | [] => some { s with phase := .awaiting 0 }
    else none
  | .wake =>
    match s.phase, s.queue with
    | .awaiting _, event :: queue => some (s.deliver event queue)
    | _, _ => none
  | .idle microseconds =>
    match s.phase with
    | .awaiting waited =>
      if waited + microseconds < heartbeat then
        some { s with phase := .awaiting (waited + microseconds) }
      -- the timeout cancels the `anext`, and the cancellation leaves the generator
      else some
        { s with finished := true, phase := .suspended, yielded := s.yielded ++ [keepAlive] }
    | _ => some s

def machine (heartbeat : Nat) : Machine Stream Act where
  start := ⟨[], false, .suspended, [], []⟩
  step := step heartbeat

def messages (yielded : List SSEData) : List Event :=
  yielded.filterMap fun
    | .message event => some event
    | .comment _ => none

/-- The client asks for more, or the loop goes on with an event that has come. -/
def Act.isRead : Act → Bool
  | .pull => true
  | .wake => true
  | _ => false

/-- The stream has not ended, and whatever is published next it yields too: every event
once and in order, with keep-alive comments between them. -/
def Serves (heartbeat : Nat) (s : Stream) : Prop :=
  s.phase ≠ .ended ∧ ∀ more, ∃ bs t, (∀ a ∈ bs, Act.isRead a = true) ∧
    (machine heartbeat).exec s (more.map .publish ++ bs) = some t ∧ t.phase ≠ .ended ∧
    messages t.yielded = s.published ++ more ∧ ∀ text, .comment text ∈ t.yielded →
      SSEData.comment text = keepAlive

/-- While the stream waits, less than a heartbeat passes. -/
def Punctual (heartbeat : Nat) (s : Stream) : Act → Prop
  | .idle microseconds => ∀ waited, s.phase = .awaiting waited → waited + microseconds < heartbeat
  | _ => True

/-- Nothing is lost on the way to the client. -/
structure Sound (s : Stream) : Prop where
  complete : messages s.yielded ++ s.queue = s.published
  comments : ∀ text, .comment text ∈ s.yielded → SSEData.comment text = keepAlive
  finished : s.finished = true → ∀ waited, s.phase ≠ .awaiting waited

def Alive (s : Stream) : Prop := s.finished = false ∧ s.phase ≠ .ended

section
variable {heartbeat : Nat} {s t : Stream}

@[simp] theorem messages_append (xs ys : List SSEData) :
    messages (xs ++ ys) = messages xs ++ messages ys := by
  simp [messages]

@[simp] theorem messages_message (event : Event) : messages [.message event] = [event] := rfl

@[simp] theorem messages_keepAlive : messages [keepAlive] = [] := rfl

theorem Sound.deliver (h : Sound s) {event : Event} {queue : List Event}
    (hq : s.queue = event :: queue) : Sound (s.deliver event queue) where
  complete := by
    have hc := h.complete
    rw [hq] at hc
    simpa [Stream.deliver] using hc
  comments text ht := by
    apply h.comments text
    simpa [Stream.deliver] using ht
  finished _ _ := by simp [Stream.deliver]

theorem Sound.step (h : Sound s) {a : Act} (ht : step heartbeat s a = some t) : Sound t := by
  cases a with
  | publish event =>
    cases ht
    refine ⟨?_, h.comments, h.finished⟩
    simp only [Stream.receive, ← h.complete, List.append_assoc]
  | pull =>
    simp only [EventStream.step] at ht
    split at ht
    · split at ht
      · cases ht
        exact ⟨h.complete, h.comments, fun _ _ => by simp⟩
      · rename_i hopen
        split at ht
        · rename_i event queue hq
          cases ht
          exact h.deliver hq
        · cases ht
          exact ⟨h.complete, h.comments, fun hf => absurd hf hopen⟩
    · cases ht
  | wake =>
    simp only [EventStream.step] at ht
    split at ht
    · rename_i hq
      cases ht
      exact h.deliver hq
    · cases ht
  | idle microseconds =>
    simp only [EventStream.step] at ht
    split at ht
    · rename_i waited hw
      split at ht
      · cases ht
        exact ⟨h.complete, h.comments, fun hf => absurd hw (h.finished hf waited)⟩
      · cases ht
        refine ⟨by simpa using h.complete, ?_, fun _ _ => by simp⟩
        intro text hx
        rcases List.mem_append.mp hx with hx | hx
        · exact h.comments text hx
        · exact List.mem_singleton.mp hx
    · cases ht
      exact h

theorem Sound.exec (h : Sound s) {as : List Act} (ht : (machine heartbeat).exec s as = some t) :
    Sound t := by
  refine exec_invariant_of_meets ?_ h ht (meets_trivial _ _)
  intro s a t hs _ ht
  exact hs.step ht

theorem Sound.of_reaches {as : List Act} (h : (machine heartbeat).Reaches as s) : Sound s := by
  have hstart : Sound (machine heartbeat).start :=
    ⟨rfl, by simp [machine], by simp [machine]⟩
  exact hstart.exec h

/-- A stream that is alive stays so exactly under a step that keeps the heartbeat. -/
theorem alive_step_iff (h : Alive s) {a : Act} (ht : step heartbeat s a = some t) :
    Alive t ↔ Punctual heartbeat s a := by
  obtain ⟨hopen, hphase⟩ := h
  cases a with
  | publish event =>
    cases ht
    exact iff_of_true ⟨hopen, hphase⟩ trivial
  | pull =>
    refine iff_of_true ?_ trivial
    simp only [EventStream.step, hopen] at ht
    split at ht
    · simp only [Bool.false_eq_true, if_false] at ht
      split at ht
      · cases ht
        exact ⟨hopen, by simp [Stream.deliver]⟩
      · cases ht
        exact ⟨rfl, by simp⟩
    · cases ht
  | wake =>
    refine iff_of_true ?_ trivial
    simp only [EventStream.step] at ht
    split at ht
    · cases ht
      exact ⟨hopen, by simp [Stream.deliver]⟩
    · cases ht
  | idle microseconds =>
    simp only [EventStream.step] at ht
    split at ht
    · rename_i waited hw
      split at ht
      · rename_i hin
        cases ht
        refine iff_of_true ⟨hopen, by simp⟩ ?_
        intro waited' hw'
        cases hw.symm.trans hw'
        exact hin
      · rename_i hlate
        cases ht
        apply iff_of_false (fun hx => by cases hx.1)
        intro hx
        exact hlate (hx waited hw)
    · rename_i hno
      cases ht
      exact iff_of_true ⟨hopen, hphase⟩ (fun waited hw => absurd hw (hno waited))

/-- A living stream can hand out the event that is next in its queue. -/
theorem deliverable (h : Alive s) {event : Event} {queue : List Event}
    (hq : s.queue = event :: queue) :
    ∃ a, Act.isRead a = true ∧ step heartbeat s a = some (s.deliver event queue) := by
  obtain ⟨hopen, hphase⟩ := h
  cases hp : s.phase with
  | suspended => exact ⟨.pull, rfl, by simp [step, hp, hopen, hq]⟩
  | awaiting waited => exact ⟨.wake, rfl, by simp [step, hp, hq]⟩
  | ended => exact absurd hp hphase

/-- A living stream hands out all of its queue, one read after the other. -/
theorem drained (h : Alive s) : ∃ bs t, (∀ a ∈ bs, Act.isRead a = true) ∧
    (machine heartbeat).exec s bs = some t ∧ Alive t ∧ t.queue = [] ∧
    t.published = s.published := by
  induction hq : s.queue generalizing s with
  | nil => exact ⟨[], s, by simp, rfl, h, hq, rfl⟩
  | cons event queue ih =>
    obtain ⟨a, hread, ha⟩ := deliverable h hq
    have halive : Alive (s.deliver event queue) := ⟨h.1, by simp [Stream.deliver]⟩
    obtain ⟨bs, t, hreads, hexec, ht, hempty, hpub⟩ := ih halive rfl
    refine ⟨a :: bs, t, ?_, ?_, ht, hempty, hpub⟩
    · intro b hb
      rcases List.mem_cons.mp hb with rfl | hb
      · exact hread
      · exact hreads b hb
    · rw [exec_cons]
      change (step heartbeat s a).bind _ = _
      rw [ha]
      exact hexec

theorem exec_publish (more : List Event) : (machine heartbeat).exec s (more.map .publish) =
    some (s.receive more) := by
  induction more generalizing s with
  | nil => simp [Stream.receive]
  | cons event more ih =>
    rw [List.map_cons, exec_cons]
    change Option.bind (some _) _ = _
    rw [Option.bind_some, ih]
    simp [Stream.receive]

/-- Where the generator is finished, asking for more ends the stream. -/
theorem finished_read (h : s.finished = true) (hs : ∀ waited, s.phase ≠ .awaiting waited)
    {a : Act} (ha : Act.isRead a = true) (ht : step heartbeat s a = some t) :
    t.phase = .ended := by
  cases a with
  | publish event => cases ha
  | idle microseconds => cases ha
  | pull =>
    simp only [step, h, if_true] at ht
    split at ht
    · cases ht
      rfl
    · cases ht
  | wake =>
    simp only [step] at ht
    split at ht
    · rename_i waited _ _ hw _
      exact absurd hw (hs waited)
    · cases ht

theorem ended_reads (h : s.phase = .ended) {a : Act} (ha : Act.isRead a = true) :
    step heartbeat s a = none := by
  cases a with
  | publish event => cases ha
  | idle microseconds => cases ha
  | pull => simp [step, h]
  | wake => simp [step, h]

/-- Reading on from a finished generator does nothing but end the stream. -/
theorem finished_reads (h : s.finished = true) (hs : ∀ waited, s.phase ≠ .awaiting waited)
    {bs : List Act} (hbs : ∀ a ∈ bs, Act.isRead a = true)
    (ht : (machine heartbeat).exec s bs = some t) : t = s ∨ t.phase = .ended := by
  cases bs with
  | nil =>
    cases ht
    exact .inl rfl
  | cons a bs =>
    rw [exec_cons] at ht
    obtain ⟨u, hu, ht⟩ := Option.bind_eq_some_iff.mp ht
    have hended : u.phase = .ended := finished_read h hs (hbs a (by simp)) hu
    cases bs with
    | nil =>
      cases ht
      exact .inr hended
    | cons b bs =>
      rw [exec_cons] at ht
      obtain ⟨v, hv, -⟩ := Option.bind_eq_some_iff.mp ht
      have hnone : step heartbeat u b = none := ended_reads hended (hbs b (by simp))
      cases hnone.symm.trans hv

theorem Alive.serves (h : Alive s) (hs : Sound s) : Serves heartbeat s := by
  refine ⟨h.2, fun more => ?_⟩
  have halive : Alive (s.receive more) := h
  obtain ⟨bs, t, hreads, hexec, ht, hempty, hpub⟩ := drained halive
  have hfull : (machine heartbeat).exec s (more.map .publish ++ bs) = some t := by
    rw [exec_append, exec_publish]
    exact hexec
  have hsound : Sound t := hs.exec hfull
  refine ⟨bs, t, hreads, hfull, ht.2, ?_, hsound.comments⟩
  calc messages t.yielded = messages t.yielded ++ t.queue := by rw [hempty, List.append_nil]
    _ = t.published := hsound.complete
    _ = s.published ++ more := hpub

theorem Serves.alive (h : Serves heartbeat s) (hs : Sound s) : Alive s := by
  obtain ⟨hphase, hmore⟩ := h
  refine ⟨?_, hphase⟩
  by_contra hopen
  have hfinished : s.finished = true := by simpa using hopen
  obtain ⟨bs, t, hreads, hexec, ht, hall, -⟩ := hmore [[]]
  rw [exec_append, exec_publish, Option.bind_some] at hexec
  have hstill : (s.receive [[]]).finished = true := hfinished
  rcases finished_reads hstill (hs.finished hfinished) hreads hexec with rfl | hended
  · change messages s.yielded = s.published ++ [[]] at hall
    have hlen := congrArg List.length hs.complete
    have hlen' := congrArg List.length hall
    simp only [List.length_append, List.length_singleton] at hlen hlen'
    omega
  · exact ht hended

end

/-- A run in which the stream goes on serving throughout is one in which no wait reaches the
heartbeat: the first keep-alive is also the last thing the stream yields. -/
theorem stream_serves_iff {heartbeat : Nat} {as : List Act} {s : Stream}
    (h : (machine heartbeat).Reaches as s) :
    (∀ bs t, bs <+: as → (machine heartbeat).Reaches bs t → Serves heartbeat t) ↔
      (machine heartbeat).Meets (Punctual heartbeat) (machine heartbeat).start as := by
  refine h.throughout_iff ?_ ?_
  · have halive : Alive (machine heartbeat).start := ⟨rfl, by simp [machine]⟩
    exact halive.serves ⟨rfl, by simp [machine], by simp [machine]⟩
  · intro as s a t hr hs ht
    have hsound : Sound s := Sound.of_reaches hr
    have hiff := alive_step_iff (hs.alive hsound) ht
    constructor
    · intro hserves
      exact hiff.mp (hserves.alive (hsound.step ht))
    · intro hpunctual
      exact (hiff.mpr hpunctual).serves (hsound.step ht)

/-- Two gaps shorter than the heartbeat, and one in which the client asks for nothing. -/
def shortGaps : List Act :=
  [.pull, .idle 14, .publish [97], .wake, .idle 20, .publish [98], .pull]

theorem short_gaps_serve : ∃ s, (machine 15).Reaches shortGaps s ∧
    s.yielded = [.message [97], .message [98]] ∧
    ∀ bs t, bs <+: shortGaps → (machine 15).Reaches bs t → Serves 15 t := by
  have hr : ((machine 15).exec (machine 15).start shortGaps).map Stream.yielded =
      some [.message [97], .message [98]] := by decide +kernel
  obtain ⟨s, hs, hyielded⟩ := Machine.reaches_of_map hr
  refine ⟨s, hs, hyielded, (stream_serves_iff hs).mpr ?_⟩
  simp [shortGaps, Machine.Meets, machine, Punctual, step, Stream.deliver, Stream.receive]

/-- One whole heartbeat without an event: the read that follows it ends the stream, and the
event that came meanwhile is not yielded. -/
theorem one_heartbeat_ends_the_stream :
    ¬ ∀ (heartbeat : Nat) (as : List Act) (s : Stream), (machine heartbeat).Reaches as s →
      Serves heartbeat s := by
  intro hall
  have hr : ((machine 15).exec (machine 15).start
      [.pull, .idle 15, .publish [97], .pull]).map Stream.phase = some .ended := by
    decide +kernel
  obtain ⟨s, hs, hended⟩ := Machine.reaches_of_map hr
  exact (hall 15 _ s hs).1 hended

end BackendTemplates.Media.EventStream
