import BackendTemplates.Library.Views
import BackendTemplates.Media.EventStream
import BackendTemplates.Media.StatusPaths
import BackendTemplates.Python.Bytes

namespace BackendTemplates.Media.LiveFeed
open Python Runs EventStream

/-- What `publish` broadcasts about a video. -/
structure Broadcast where
  videoId : Uuid
  status : VideoStatus
  deriving DecidableEq

/-- The bytes a subscriber of the channel gets. -/
def Broadcast.event (b : Broadcast) : Event :=
  utf8 (Json.obj [("video_id", .str b.videoId.str), ("status", .str b.status.value)]).text

/-- One open `GET /videos/feed`, and how many broadcasts there were when it subscribed. -/
structure Viewer where
  since : Nat
  stream : Stream

/-- The calls of the use cases, the broadcasts that calls which have committed are about to
make, the channel, the broadcasts that failed, and the open feeds. -/
structure Feed where
  calls : StatusCalls.State
  unsent : List Broadcast
  channel : List Broadcast
  lost : List Broadcast
  viewers : Nat → Option Viewer

/-- `swallow` is a publish that fails, or a process that ends before it. -/
inductive Act where
  | call (a : StatusCalls.Action)
  | publish (b : Broadcast)
  | swallow (b : Broadcast)
  | subscribe (n : Nat)
  | view (n : Nat) (a : EventStream.Act)

/-- What is left of a call once this step of it is done: the publish behind the commit. -/
def announced (calls : StatusCalls.State) : StatusCalls.Action → List Broadcast
  | .act i .commit =>
    match calls.clients i with
    | .saved _ _ video _ => [⟨video.id, video.status⟩]
    | _ => []
  | _ => []

def Viewer.receive (v : Viewer) (event : Event) : Viewer :=
  { v with stream := v.stream.receive [event] }

def Feed.put (s : Feed) (n : Nat) (viewer : Viewer) : Feed :=
  { s with viewers := Function.update s.viewers n (some viewer) }

/-- `.publish` is the channel's broadcast; the call itself has only queued the event. That it
reaches all who have subscribed by then is assumed of Litestar. -/
def step (heartbeat : Nat) (s : Feed) : Act → Option Feed
  | .call a => (StatusCalls.pool.machine.step s.calls a).map fun calls =>
      { s with calls := calls, unsent := s.unsent ++ announced s.calls a }
  | .publish b =>
    if b ∈ s.unsent then some { s with
      unsent := s.unsent.erase b
      channel := s.channel ++ [b]
      viewers := fun n => (s.viewers n).map (Viewer.receive · b.event) }
    else none
  | .swallow b =>
    if b ∈ s.unsent then some { s with unsent := s.unsent.erase b, lost := s.lost ++ [b] }
    else none
  | .subscribe n =>
    match s.viewers n with
    | some _ => none
    | none => some (s.put n ⟨s.channel.length, (EventStream.machine heartbeat).start⟩)
  | .view n a =>
    match s.viewers n, a with
    | _, .publish _ => none
    | none, _ => none
    | some viewer, a => (EventStream.step heartbeat viewer.stream a).map fun stream =>
        s.put n { viewer with stream := stream }

def machine (heartbeat : Nat) : Machine Feed Act where
  start := ⟨StatusCalls.pool.machine.start, [], [], [], fun _ => none⟩
  step := step heartbeat

/-- The statuses broadcast about a video. -/
def about (id : Uuid) (bs : List Broadcast) : List VideoStatus :=
  (bs.filter (·.videoId = id)).map Broadcast.status

/-- A call commits for a video when none that has committed for it is still to publish. -/
def Prompt (s : Feed) : Act → Prop
  | .call a => ∀ b ∈ announced s.calls a, about b.videoId s.unsent = []
  | _ => True

/-- It commits on the status it was decided on. -/
def Current (s : Feed) : Act → Prop
  | .call a => StatusCalls.Unmoved s.calls a
  | _ => True

instance (s : Feed) (a : Act) : Decidable (Prompt s a) := by
  unfold Prompt
  split <;> infer_instance

instance (s : Feed) (a : Act) : Decidable (Current s a) := by
  unfold Current
  split <;> infer_instance

theorem event_injective {b b' : Broadcast} (h : b.event = b'.event) : b = b' := by
  have hj := Json.text_injective (utf8_injective h)
  simp only [Json.obj.injEq, List.cons.injEq, Prod.mk.injEq, Json.str.injEq, true_and,
    and_true] at hj
  obtain ⟨hid, hstatus⟩ := hj
  obtain ⟨id, status⟩ := b
  obtain ⟨id', status'⟩ := b'
  obtain rfl : id = id' := Uuid.str_injective hid
  have hs := VideoStatus.ofValue_value status
  rw [hstatus, VideoStatus.ofValue_value] at hs
  cases hs
  rfl

section
variable {heartbeat : Nat} {s t : Feed}

/-- The row a call is about to commit has the status it will broadcast. -/
def Kept (_ : Nat) (_ : StatusCalls.Db) : StatusCalls.Call → Prop
  | .saved _ _ video row => video.status = row.status
  | _ => True

theorem kept_step {i : Nat} {db db' : StatusCalls.Db} {k k' : StatusCalls.Call}
    {a : StatusCalls.Act} (h : StatusCalls.step i db k a = some (db', k')) : Kept i db' k' := by
  unfold StatusCalls.step at h
  split at h
  · split at h <;> (cases h; trivial)
  · split at h <;> (cases h; trivial)
  · split at h
    · cases h
    · cases h
      exact (VideoRow.save_status _ _).symm
  all_goals first
    | (cases h; trivial)
    | cases h

theorem kept {as : List StatusCalls.Action} {calls : StatusCalls.State}
    (h : StatusCalls.pool.machine.Reaches as calls) :
    ∀ i, Kept i calls.world (calls.clients i) := by
  have hgood : Pool.Good (fun _ => True) Kept calls := by
    refine Pool.good_of_reaches (p := StatusCalls.pool) ⟨trivial, fun _ => trivial⟩ ?_ ?_ h
    · intro s i a w k hg hs
      exact ⟨trivial, kept_step hs, fun j _ => hg.2 j⟩
    · intro s e w hg _
      exact ⟨trivial, hg.2⟩
  exact hgood.2

/-- What one step of the calls adds to the histories. -/
inductive Adds (calls calls' : StatusCalls.State) : List Broadcast → Prop where
  | nothing (same : calls'.world.history = calls.world.history) : Adds calls calls' []
  | upload (id : Uuid) (new : calls.world.history id = [])
      (first : calls'.world.history = Function.update calls.world.history id [.pending]) :
      Adds calls calls' []
  | commit (b : Broadcast) (moved : b.status ≠ .pending)
      (there : calls.world.history b.videoId ≠ [])
      (next : calls'.world.history = Function.update calls.world.history b.videoId
        (calls.world.history b.videoId ++ [b.status])) : Adds calls calls' [b]

theorem adds {as : List StatusCalls.Action} {calls calls' : StatusCalls.State}
    {a : StatusCalls.Action} (h : StatusCalls.pool.machine.Reaches as calls)
    (hs : StatusCalls.pool.machine.step calls a = some calls') :
    Adds calls calls' (announced calls a) := by
  obtain ⟨hlogged, hconsistent⟩ := StatusCalls.good h
  cases a with
  | act i a =>
    obtain ⟨db', k', hw, rfl⟩ := Pool.act_step.mp hs
    rcases StatusCalls.step_cases hw with ⟨uc, before, video, row, he, rfl, rfl, rfl⟩ |
      ⟨hne, -, hh⟩
    · have hc := hconsistent i
      have hkept := kept h i
      rw [he] at hc hkept
      obtain ⟨hbefore, hstatus, -⟩ := hc
      have hrow : video.status = row.status := hkept
      simp only [announced, he]
      refine .commit ⟨video.id, video.status⟩ ?_ (List.ne_nil_of_mem hbefore) ?_
      · simp only [hrow, hstatus]
        cases uc <;> simp [UseCase.target]
      · simp only [hrow]
        rfl
    · have hnone : announced calls (.act i a) = [] := by
        cases a with
        | commit => exact absurd rfl hne
        | _ => rfl
      rw [hnone]
      exact .nothing hh
  | env e =>
    obtain ⟨db', hw, rfl⟩ := Pool.env_step.mp hs
    rcases StatusCalls.env_cases hw with ⟨id, row, hn, -, -, hh⟩ | ⟨_, _, _, -, -, -, hh⟩
    · have hnil : calls.world.history id = [] := by
        have hl := hlogged.last id
        simpa [hn] using hl
      rw [hnil] at hh
      exact .upload id hnil hh
    · exact .nothing hh

/-- The calls of a run of the feed are a run of the calls. -/
def callsView (heartbeat : Nat) : View (machine heartbeat) StatusCalls.pool.machine where
  of := Feed.calls
  start := rfl
  step s a t h := by
    cases a with
    | call a =>
      obtain ⟨calls, hc, rfl⟩ := Option.map_eq_some_iff.mp h
      exact ⟨[a], by rw [exec_cons, hc]; rfl⟩
    | publish b =>
      simp only [machine, step, Option.ite_none_right_eq_some, Option.some.injEq] at h
      obtain ⟨-, rfl⟩ := h
      exact ⟨[], rfl⟩
    | swallow b =>
      simp only [machine, step, Option.ite_none_right_eq_some, Option.some.injEq] at h
      obtain ⟨-, rfl⟩ := h
      exact ⟨[], rfl⟩
    | subscribe n =>
      simp only [machine, step] at h
      split at h
      · cases h
      · cases h
        exact ⟨[], rfl⟩
    | view n a =>
      simp only [machine, step] at h
      split at h
      · cases h
      · cases h
      · obtain ⟨stream, -, rfl⟩ := Option.map_eq_some_iff.mp h
        exact ⟨[], rfl⟩

/-- Each status a call has committed is to be broadcast, has been, or is lost. -/
def Balanced (s : Feed) : Prop := ∀ b, s.channel.count b + s.lost.count b + s.unsent.count b =
  if b.status = .pending then 0 else (s.calls.world.history b.videoId).count b.status

theorem Balanced.call (h : Balanced s) {as : List Act} (hs : (machine heartbeat).Reaches as s)
    {a : StatusCalls.Action} (ht : step heartbeat s (.call a) = some t) : Balanced t := by
  obtain ⟨calls, hc, rfl⟩ := Option.map_eq_some_iff.mp ht
  obtain ⟨bs, hcalls⟩ := (callsView heartbeat).reaches hs
  intro b
  have hb := h b
  have hadds : Adds s.calls calls (announced s.calls a) := adds hcalls hc
  simp only [List.count_append, ← Nat.add_assoc, hb]
  generalize announced s.calls a = new at hadds
  cases hadds with
  | nothing same => simp [same]
  | upload id fresh first =>
    by_cases hp : b.status = .pending
    · simp [hp]
    · by_cases hid : b.videoId = id
      · subst hid
        simp [hp, first, fresh, Ne.symm hp]
      · simp [hp, first, hid]
  | commit c moved there next =>
    by_cases hbc : b = c
    · subst hbc
      simp [moved, next]
    · by_cases hid : b.videoId = c.videoId
      · have hstatus : b.status ≠ c.status := fun he => hbc (by
          obtain ⟨_, _⟩ := b
          obtain ⟨_, _⟩ := c
          simp_all)
        simp [next, hid, Ne.symm hstatus, Ne.symm hbc]
      · simp [next, hid, Ne.symm hbc]

theorem Balanced.publish (h : Balanced s) {b : Broadcast}
    (ht : step heartbeat s (.publish b) = some t) : Balanced t := by
  simp only [step, Option.ite_none_right_eq_some, Option.some.injEq] at ht
  obtain ⟨hmem, rfl⟩ := ht
  intro c
  rw [← h c]
  have hpos := List.count_pos_iff.mpr hmem
  simp only [List.count_append, List.count_erase, List.count_singleton]
  by_cases hbc : b = c
  · subst hbc
    simp only [BEq.rfl, if_true]
    omega
  · simp [hbc]

theorem Balanced.swallow (h : Balanced s) {b : Broadcast}
    (ht : step heartbeat s (.swallow b) = some t) : Balanced t := by
  simp only [step, Option.ite_none_right_eq_some, Option.some.injEq] at ht
  obtain ⟨hmem, rfl⟩ := ht
  intro c
  rw [← h c]
  have hpos := List.count_pos_iff.mpr hmem
  simp only [List.count_append, List.count_erase, List.count_singleton]
  by_cases hbc : b = c
  · subst hbc
    simp only [BEq.rfl, if_true]
    omega
  · simp [hbc]

/-- A feed's viewers change nothing else. -/
theorem view_step {n : Nat} {a : EventStream.Act} (h : step heartbeat s (.view n a) = some t) :
    ∃ viewer stream, s.viewers n = some viewer ∧ (∀ event, a ≠ .publish event) ∧
      EventStream.step heartbeat viewer.stream a = some stream ∧
      t = s.put n { viewer with stream := stream } := by
  simp only [step] at h
  split at h
  · cases h
  · cases h
  · rename_i hv hne
    obtain ⟨stream, hstream, rfl⟩ := Option.map_eq_some_iff.mp h
    exact ⟨_, stream, hv, fun event he => hne event he, hstream, rfl⟩

theorem subscribe_step {n : Nat} (h : step heartbeat s (.subscribe n) = some t) :
    t = s.put n ⟨s.channel.length, (EventStream.machine heartbeat).start⟩ := by
  simp only [step] at h
  split at h
  · cases h
  · cases h
    rfl

theorem balanced {as : List Act} (h : (machine heartbeat).Reaches as s) : Balanced s := by
  refine h.induct (P := fun _ s => Balanced s) ?_ ?_
  · intro b
    simp [machine, StatusCalls.pool, Pool.machine]
  · intro as s a t hs hi ht
    cases a with
    | call a => exact hi.call hs ht
    | publish b => exact @Balanced.publish heartbeat _ _ hi _ ht
    | swallow b => exact @Balanced.swallow heartbeat _ _ hi _ ht
    | subscribe n =>
      obtain rfl := subscribe_step ht
      exact hi
    | view n a =>
      obtain ⟨_, _, -, -, -, rfl⟩ := view_step ht
      exact hi

/-- A viewer's stream was handed what was broadcast since it subscribed. -/
structure Viewer.Hears (v : Viewer) (channel : List Broadcast) : Prop where
  sound : Sound v.stream
  since : v.since ≤ channel.length
  handed : v.stream.published = (channel.drop v.since).map Broadcast.event

theorem Viewer.Hears.receive {v : Viewer} {channel : List Broadcast} (h : v.Hears channel)
    (b : Broadcast) : (v.receive b.event).Hears (channel ++ [b]) where
  sound := @Sound.step 0 _ _ h.sound (.publish b.event) rfl
  since := by
    simp only [Viewer.receive, List.length_append]
    exact Nat.le_trans h.since (Nat.le_add_right _ _)
  handed := by
    simp only [Viewer.receive, Stream.receive, h.handed, List.drop_append_of_le_length h.since,
      List.map_append, List.map_singleton]

/-- Reading hands nothing to a stream. -/
theorem published_step {stream stream' : Stream} {a : EventStream.Act}
    (hne : ∀ event, a ≠ .publish event) (h : EventStream.step heartbeat stream a = some stream') :
    stream'.published = stream.published := by
  cases a with
  | publish event => exact absurd rfl (hne event)
  | pull =>
    simp only [EventStream.step] at h
    split at h
    · split at h
      · cases h
        rfl
      · split at h <;> (cases h; rfl)
    · cases h
  | wake =>
    simp only [EventStream.step] at h
    split at h
    · cases h
      rfl
    · cases h
  | idle microseconds =>
    simp only [EventStream.step] at h
    split at h
    · split at h <;> (cases h; rfl)
    · cases h
      rfl

theorem hears {as : List Act} (h : (machine heartbeat).Reaches as s) :
    ∀ n viewer, s.viewers n = some viewer → viewer.Hears s.channel := by
  refine h.induct (P := fun _ s => ∀ n viewer, s.viewers n = some viewer →
    viewer.Hears s.channel) (by simp [machine]) ?_
  intro as s a t _ hi ht
  cases a with
  | call a =>
    obtain ⟨calls, -, rfl⟩ := Option.map_eq_some_iff.mp ht
    exact hi
  | publish b =>
    simp only [machine, step, Option.ite_none_right_eq_some, Option.some.injEq] at ht
    obtain ⟨-, rfl⟩ := ht
    intro n viewer hv
    obtain ⟨old, hold, rfl⟩ := Option.map_eq_some_iff.mp hv
    exact (hi n old hold).receive b
  | swallow b =>
    simp only [machine, step, Option.ite_none_right_eq_some, Option.some.injEq] at ht
    obtain ⟨-, rfl⟩ := ht
    exact hi
  | subscribe n =>
    obtain rfl := subscribe_step ht
    intro m viewer hv
    by_cases hm : m = n
    · subst hm
      obtain rfl := Option.some.inj ((Function.update_self m _ s.viewers).symm.trans hv)
      exact ⟨@Sound.of_reaches heartbeat _ [] rfl, Nat.le_refl _,
        by simp [EventStream.machine, Feed.put]⟩
    · exact hi m viewer (by simpa [Feed.put, hm] using hv)
  | view n a =>
    obtain ⟨viewer, stream, hviewer, hne, hstream, rfl⟩ := view_step ht
    intro m viewer' hv
    by_cases hm : m = n
    · subst hm
      obtain rfl := Option.some.inj ((Function.update_self m _ s.viewers).symm.trans hv)
      have hh := hi m viewer hviewer
      exact ⟨hh.sound.step hstream, hh.since, (published_step hne hstream).trans hh.handed⟩
    · exact hi m viewer' (by simpa [Feed.put, hm] using hv)

theorem about_append (id : Uuid) (bs cs : List Broadcast) :
    about id (bs ++ cs) = about id bs ++ about id cs := by
  simp [about]

theorem about_single (id : Uuid) (b : Broadcast) :
    about id [b] = if b.videoId = id then [b.status] else [] := by
  by_cases h : b.videoId = id <;> simp [about, h]

theorem about_sublist {bs cs : List Broadcast} (h : bs.Sublist cs) (id : Uuid) :
    (about id bs).Sublist (about id cs) :=
  (h.filter _).map _

/-- What is taken from the unsent ones is all there is of its video, and nothing else goes. -/
theorem about_erase {bs : List Broadcast} {b : Broadcast} (hb : b ∈ bs) {id : Uuid}
    (h : (about id bs).length ≤ 1) :
    about id bs = about id [b] ++ about id (bs.erase b) := by
  have hperm : (about id bs).Perm (about id [b] ++ about id (bs.erase b)) := by
    rw [← about_append]
    exact ((List.perm_cons_erase hb).filter _).map _
  generalize about id [b] ++ about id (bs.erase b) = cs at hperm
  match hbs : about id bs, h with
  | [], _ => exact (List.nil_perm.mp (hbs ▸ hperm)).symm ▸ rfl
  | [x], _ => exact List.singleton_perm.mp (hbs ▸ hperm)

/-- The broadcasts of each video come in the order of its history, with the one that is still
to be made behind them; where none was lost they are all of it behind the upload. -/
structure Ordered (s : Feed) (id : Uuid) : Prop where
  one : (about id s.unsent).length ≤ 1
  inOrder : (about id s.channel ++ about id s.unsent).Sublist (s.calls.world.history id).tail
  whole : about id s.lost = [] →
    about id s.channel ++ about id s.unsent = (s.calls.world.history id).tail

theorem Ordered.call {id : Uuid} (h : Ordered s id) {as : List Act}
    (hs : (machine heartbeat).Reaches as s) {a : StatusCalls.Action} (hp : Prompt s (.call a))
    (ht : step heartbeat s (.call a) = some t) : Ordered t id := by
  obtain ⟨calls, hc, rfl⟩ := Option.map_eq_some_iff.mp ht
  obtain ⟨bs, hcalls⟩ := (callsView heartbeat).reaches hs
  have hadds : Adds s.calls calls (announced s.calls a) := adds hcalls hc
  simp only [Prompt] at hp
  generalize announced s.calls a = new at hadds hp
  have unchanged (hh : (calls.world.history id).tail = (s.calls.world.history id).tail)
      (hn : about id new = []) :
      Ordered { s with calls := calls, unsent := s.unsent ++ new } id := by
    have hu : about id (s.unsent ++ new) = about id s.unsent := by
      rw [about_append, hn, List.append_nil]
    exact ⟨by simpa only [hu] using h.one, by simpa only [hu, hh] using h.inOrder,
      by simpa only [hu, hh] using h.whole⟩
  cases hadds with
  | nothing same => exact unchanged (by rw [same]) rfl
  | upload id' fresh first =>
    refine unchanged ?_ rfl
    rw [first]
    by_cases hid : id = id'
    · subst hid
      simp [fresh]
    · simp [hid]
  | commit b moved there next =>
    by_cases hid : b.videoId = id
    · subst hid
      have hnone := hp b (by simp)
      have htail : (calls.world.history b.videoId).tail =
          (s.calls.world.history b.videoId).tail ++ [b.status] := by
        rw [next, Function.update_self, List.tail_append_of_ne_nil there]
      have hunsent : about b.videoId (s.unsent ++ [b]) = [b.status] := by
        rw [about_append, hnone, about_single, if_pos rfl, List.nil_append]
      have hin := h.inOrder
      have hwhole := h.whole
      rw [hnone, List.append_nil] at hin hwhole
      refine ⟨by simp [hunsent], ?_, ?_⟩
      · simp only [hunsent, htail]
        exact hin.append (List.Sublist.refl _)
      · intro hl
        simp only [hunsent, htail, hwhole hl]
    · refine unchanged ?_ (by simp [about_single, hid])
      rw [next, Function.update_of_ne (Ne.symm hid)]

theorem Ordered.publish {id : Uuid} (h : Ordered s id) {b : Broadcast}
    (ht : step heartbeat s (.publish b) = some t) : Ordered t id := by
  simp only [step, Option.ite_none_right_eq_some, Option.some.injEq] at ht
  obtain ⟨hmem, rfl⟩ := ht
  have herase := about_erase hmem h.one
  have hall : about id (s.channel ++ [b]) ++ about id (s.unsent.erase b) =
      about id s.channel ++ about id s.unsent := by
    rw [about_append, List.append_assoc, ← herase]
  have hone := h.one
  rw [herase, List.length_append] at hone
  exact ⟨by simp only; omega, hall ▸ h.inOrder, fun hl => hall.trans (h.whole hl)⟩

theorem Ordered.swallow {id : Uuid} (h : Ordered s id) {b : Broadcast}
    (ht : step heartbeat s (.swallow b) = some t) : Ordered t id := by
  simp only [step, Option.ite_none_right_eq_some, Option.some.injEq] at ht
  obtain ⟨hmem, rfl⟩ := ht
  have herase := about_erase hmem h.one
  have hone := h.one
  rw [herase, List.length_append] at hone
  have hin := h.inOrder
  have hwhole := h.whole
  rw [herase] at hin hwhole
  refine ⟨by simp only; omega, ?_, ?_⟩
  · exact (((List.sublist_append_right _ _).append_left _).trans hin)
  · intro hl
    rw [about_append, List.append_eq_nil_iff] at hl
    rw [hl.2, List.nil_append] at hwhole
    exact hwhole hl.1

theorem ordered {as : List Act} (h : (machine heartbeat).Reaches as s)
    (hm : (machine heartbeat).Meets Prompt (machine heartbeat).start as) (id : Uuid) :
    Ordered s id := by
  have start : Ordered (machine heartbeat).start id :=
    ⟨by simp [machine, about], by simp [machine, about], by
      simp [machine, about, StatusCalls.pool, Pool.machine]⟩
  refine h.induct_of_meets (I := fun s => Ordered s id) start ?_ hm
  intro as s a t hs _ hi hp ht
  cases a with
  | call a => exact hi.call hs hp ht
  | publish b => exact @Ordered.publish heartbeat _ _ _ hi _ ht
  | swallow b => exact @Ordered.swallow heartbeat _ _ _ hi _ ht
  | subscribe n =>
    obtain rfl := subscribe_step ht
    exact ⟨hi.one, hi.inOrder, hi.whole⟩
  | view n a =>
    obtain ⟨_, _, -, -, -, rfl⟩ := view_step ht
    exact ⟨hi.one, hi.inOrder, hi.whole⟩

/-- Where every commit finds the status it was decided on, statuses only move forward. -/
theorem forward {as : List Act} (h : (machine heartbeat).Reaches as s)
    (hm : (machine heartbeat).Meets Current (machine heartbeat).start as) (id : Uuid) :
    (s.calls.world.history id).Pairwise (fun a b => StatusCalls.rank a < StatusCalls.rank b) := by
  have hpaths : StatusCalls.AllPaths s.calls.world := by
    refine h.induct_of_meets (I := fun s => StatusCalls.AllPaths s.calls.world) ?_ ?_ hm
    · intro id
      simp [machine, StatusCalls.pool, Pool.machine, StatusCalls.IsPath]
    · intro as s a t hs _ hi hcurrent ht
      obtain ⟨bs, hcalls⟩ := (callsView heartbeat).reaches hs
      cases a with
      | call a =>
        obtain ⟨calls, hc, rfl⟩ := Option.map_eq_some_iff.mp ht
        exact (StatusCalls.paths_step (StatusCalls.good hcalls) hc).mpr ⟨hi, hcurrent⟩
      | publish b =>
        simp only [machine, step, Option.ite_none_right_eq_some, Option.some.injEq] at ht
        obtain ⟨-, rfl⟩ := ht
        exact hi
      | swallow b =>
        simp only [machine, step, Option.ite_none_right_eq_some, Option.some.injEq] at ht
        obtain ⟨-, rfl⟩ := ht
        exact hi
      | subscribe n =>
        obtain rfl := subscribe_step ht
        exact hi
      | view n a =>
        obtain ⟨_, _, -, -, -, rfl⟩ := view_step ht
        exact hi
  have hchain : (s.calls.world.history id).IsChain
      (fun a b => StatusCalls.rank a < StatusCalls.rank b) :=
    (hpaths id).imp fun _ _ => StatusCalls.rank_lt_of_allowed
  have : IsTrans VideoStatus (fun a b => StatusCalls.rank a < StatusCalls.rank b) :=
    ⟨fun _ _ _ => Nat.lt_trans⟩
  exact List.isChain_iff_pairwise.mp hchain

end

/-- Each open feed yields, in order and without a gap, what is broadcast after it subscribed, and
each broadcast is a status committed for its video, never made twice. Where a call publishes
before the next one commits for the video, and commits find the status they were decided on,
no feed sees a video go backwards; and if nothing of the video was lost or is still on its
way, the last status a feed was sent is the video's. -/
theorem viewers_follow {heartbeat : Nat} {as : List Act} {s : Feed}
    (h : (machine heartbeat).Reaches as s) :
    Balanced s ∧ Function.Injective Broadcast.event ∧
    ∀ n viewer, s.viewers n = some viewer → ∃ got waiting,
      messages viewer.stream.yielded = got.map Broadcast.event ∧
      viewer.stream.queue = waiting.map Broadcast.event ∧
      s.channel.drop viewer.since = got ++ waiting ∧
      ((machine heartbeat).Meets (fun s a => Prompt s a ∧ Current s a)
          (machine heartbeat).start as →
        ∀ id, (about id got).Pairwise (fun a b => StatusCalls.rank a < StatusCalls.rank b) ∧
          (about id (s.lost ++ s.unsent ++ waiting) = [] → ∀ status ∈ (about id got).getLast?,
            ∃ row, s.calls.world.rows id = some row ∧ row.status = status)) := by
  refine ⟨balanced h, fun _ _ => event_injective, ?_⟩
  intro n viewer hv
  obtain ⟨sound, since, handed⟩ := hears h n viewer hv
  obtain ⟨got, waiting, hsplit, hgot, hwaiting⟩ := List.map_eq_append_iff.mp
    (handed.symm.trans sound.complete.symm)
  refine ⟨got, waiting, hgot.symm, hwaiting.symm, hsplit, ?_⟩
  intro hm id
  obtain ⟨hprompt, hcurrent⟩ := meets_and.mp hm
  have hordered := ordered h hprompt id
  have hsent : (about id got).Sublist (about id s.channel) := by
    apply about_sublist
    have hdrop : got.Sublist (s.channel.drop viewer.since) := by
      rw [hsplit]
      exact List.sublist_append_left _ _
    exact hdrop.trans (List.drop_sublist _ _)
  have hhistory : (about id s.channel).Sublist (s.calls.world.history id) :=
    (List.sublist_append_left _ _).trans (hordered.inOrder.trans (List.tail_sublist _))
  refine ⟨(forward h hcurrent id).sublist (hsent.trans hhistory), ?_⟩
  intro hall status hstatus
  simp only [about_append, List.append_eq_nil_iff] at hall
  obtain ⟨⟨hlost, hunsent⟩, hnone⟩ := hall
  have hwhole := hordered.whole hlost
  rw [hunsent, List.append_nil] at hwhole
  -- nothing of the video stands behind what the feed was sent
  have hlast : status ∈ (s.calls.world.history id).getLast? := by
    have hchannel : about id s.channel =
        about id (s.channel.take viewer.since) ++ about id got := by
      rw [← List.append_nil (about id got), ← hnone, ← about_append, ← hsplit, ← about_append,
        List.take_append_drop]
    obtain ⟨before, hbefore⟩ := List.getLast?_eq_some_iff.mp hstatus
    rw [hchannel, hbefore, ← List.append_assoc] at hwhole
    cases hh : s.calls.world.history id with
    | nil => simp [hh] at hwhole
    | cons first moves =>
      rw [hh, List.tail_cons] at hwhole
      simp [← hwhole, List.getLast?_cons]
  obtain ⟨bs, hcalls⟩ := (callsView heartbeat).reaches h
  have hlogged := (StatusCalls.good hcalls).1.last id
  have hrow : (s.calls.world.rows id).map VideoRow.status = some status := hlogged.symm.trans hlast
  obtain ⟨row, hrow, hsame⟩ := Option.map_eq_some_iff.mp hrow
  exact ⟨row, hrow, hsame⟩

/-- A feed is opened behind the upload, and the two moves of the video are broadcast. -/
def watched : List Act :=
  [.call (.env (.upload StatusCalls.clip "a.mp4" StatusCalls.noon [])), .subscribe 0] ++
    (StatusCalls.callOf 0 .markProcessing).map .call ++
    [.publish ⟨StatusCalls.clip, .processing⟩, .view 0 .pull] ++
    (StatusCalls.callOf 1 .markDone).map .call ++
    [.publish ⟨StatusCalls.clip, .done⟩, .view 0 .pull]

theorem watcher_sees_done : ∃ s viewer, (machine 15).Reaches watched s ∧
    s.viewers 0 = some viewer ∧
    messages viewer.stream.yielded =
      [(⟨StatusCalls.clip, .processing⟩ : Broadcast).event,
        (⟨StatusCalls.clip, .done⟩ : Broadcast).event] ∧
    ∃ row, s.calls.world.rows StatusCalls.clip = some row ∧ row.status = .done := by
  have hr : ((machine 15).exec (machine 15).start watched).map
      (fun s => (s.channel, s.unsent ++ s.lost,
        (s.viewers 0).map fun v => v.since + v.stream.queue.length)) =
      some ([⟨StatusCalls.clip, .processing⟩, ⟨StatusCalls.clip, .done⟩], [], some 0) := by
    decide +kernel
  obtain ⟨s, hs, he⟩ := Machine.reaches_of_map hr
  simp only [Prod.mk.injEq] at he
  obtain ⟨hchannel, hrest, hviewer⟩ := he
  obtain ⟨hunsent, hlost⟩ := List.append_eq_nil_iff.mp hrest
  obtain ⟨viewer, hv, hzero⟩ := Option.map_eq_some_iff.mp hviewer
  have hsince : viewer.since = 0 := by omega
  have hqueue : viewer.stream.queue = [] := List.length_eq_zero_iff.mp (by omega)
  obtain ⟨-, -, hfeeds⟩ := viewers_follow hs
  obtain ⟨got, waiting, hgot, hwaiting, hsplit, hall⟩ := hfeeds 0 viewer hv
  obtain rfl : waiting = [] := List.map_eq_nil_iff.mp (hwaiting.symm.trans hqueue)
  rw [hchannel, hsince, List.append_nil, List.drop_zero] at hsplit
  have hlast := (hall (by decide +kernel) StatusCalls.clip).2 (by rw [hlost, hunsent]; rfl) .done
    (by rw [← hsplit]; decide)
  refine ⟨s, viewer, hs, hv, ?_, hlast⟩
  rw [hgot, ← hsplit]
  rfl

end BackendTemplates.Media.LiveFeed
