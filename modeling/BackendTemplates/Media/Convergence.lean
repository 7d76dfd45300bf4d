import BackendTemplates.Media.StatusConsumer

namespace BackendTemplates.Media.StatusConsumer
open Python Runs

def Entry.slot? (decode : String → Option StatusEvent) (video : Uuid) (e : Entry) : Option Slot :=
  match e.mark? decode with
  | none => none
  | some (id, uc) => if id = video then some ⟨uc, e.handled⟩ else none

/-- The marks a stream holds for one video. -/
def slots (decode : String → Option StatusEvent) (stream : List Entry) (video : Uuid) : List Slot :=
  stream.filterMap (Entry.slot? decode video)

/-- The status the stream stands for: its marks applied to a new video one by one. -/
def streamStatus (decode : String → Option StatusEvent) (stream : List Entry) (video : Uuid) :
    VideoStatus := replay .pending (marks (slots decode stream video))

def AllAcked (w : World) : Prop :=
  ∃ g, w.group = some g ∧ g.lastDelivered = w.stream.length ∧ g.pel = []

/-- The mark of entry `n` is applied on its turn among those of its video. -/
def FindsTurn (cfg : Config) (w : World) (n : Nat) : Prop :=
  match w.stream[n]?.bind (Entry.mark? cfg.decode) with
  | none => True
  | some (id, uc) =>
    match w.rows id with
    | none => True
    | some row => id ∉ w.withdrawn →
        OnTurn row.status (waiting (slots cfg.decode (w.stream.take n) id)) uc

instance (cfg : Config) (w : World) (n : Nat) : Decidable (FindsTurn cfg w n) := by
  unfold FindsTurn
  split
  · infer_instance
  · split <;> infer_instance

/-- The action runs a use case, also when an error follows it. -/
def Handles : Act → Bool
  | .handle => true
  | .fail true => true
  | _ => false

/-- No entry is handled ahead of an earlier one that would settle its video otherwise. -/
def InTurn (cfg : Config) (s : State) : Action → Prop
  | .act i a =>
    match s.clients i, Handles a with
    | .handling _ (n :: _), true => FindsTurn cfg s.world n
    | _, _ => True
  | .env _ => True

instance (cfg : Config) (s : State) (a : Action) : Decidable (InTurn cfg s a) := by
  unfold InTurn
  split
  · split <;> infer_instance
  · infer_instance

def Handled (w : World) (n : Nat) : Prop := ∃ e, w.stream[n]? = some e ∧ e.handled = true

/-- What is pending has been delivered, and what is acked has been handled. -/
structure Group.Sound (g : Group) (w : World) : Prop where
  delivered : g.lastDelivered ≤ w.stream.length
  pending : ∀ p ∈ g.pel, p.index < g.lastDelivered
  acked : ∀ n < g.lastDelivered, (∀ p ∈ g.pel, p.index ≠ n) → Handled w n

def Grouped (w : World) : Prop := ∀ g, w.group = some g → g.Sound w

/-- A video that was not withdrawn is there, and converging. -/
def Tracks (cfg : Config) (w : World) (video : Uuid) : Prop :=
  ∀ row, w.rows video = some row → video ∉ w.withdrawn → row.deletedAt = none ∧
    (InOrder (marks (slots cfg.decode w.stream video)) →
      Converging row.status (slots cfg.decode w.stream video))

structure Consistent (cfg : Config) (w : World) : Prop where
  videos : ∀ video, Tracks cfg w video
  group : Grouped w

def Holds (_ : Nat) (w : World) : Consumer → Prop
  | .handling _ todo => ∀ n ∈ todo, n < w.stream.length
  | .acking _ n todo => Handled w n ∧ ∀ m ∈ todo, m < w.stream.length
  | _ => True

/-- Entries stay in the stream, and handled ones stay handled. -/
structure Grows (w w' : World) : Prop where
  length : w.stream.length ≤ w'.stream.length
  handled : ∀ n, Handled w n → Handled w' n

/-- What one step of a consumer can do to the world. -/
inductive Touch (cfg : Config) (w : World) (k : Consumer) (a : Act) : World → Prop
  | nothing : Touch cfg w k a w
  | ensureGroup : Touch cfg w k a w.ensureGroup
  | adopt {g : Group} (ns : List Nat) (hg : w.group = some g) : Touch cfg w k a (w.adopt g ns)
  | deliver {g : Group} (batch : Nat) (hg : w.group = some g) : Touch cfg w k a (w.deliver g batch)
  | handle {stale : Bool} {n : Nat} {todo : List Nat} (now : k = .handling stale (n :: todo))
      (ha : Handles a = true) : Touch cfg w k a (w.handle cfg.decode n)
  | ack {stale : Bool} {n : Nat} {todo : List Nat} (now : k = .acking stale n todo) :
      Touch cfg w k a (w.ack n)

section
variable {cfg : Config} {decode : String → Option StatusEvent} {w w' : World} {k : Consumer}
  {stream : List Entry} {video id : Uuid} {uc : UseCase} {e : Entry} {n : Nat} {g : Group}

theorem slots_append (as bs : List Entry) :
    slots decode (as ++ bs) video = slots decode as video ++ slots decode bs video :=
  List.filterMap_append

theorem slots_of_none (h : e.mark? decode = none) : slots decode [e] video = [] := by
  simp [slots, Entry.slot?, h]

theorem slots_of_other (h : e.mark? decode = some (id, uc)) (hv : id ≠ video) :
    slots decode [e] video = [] := by
  simp [slots, Entry.slot?, h, hv]

theorem slots_of_mark (h : e.mark? decode = some (video, uc)) :
    slots decode [e] video = [⟨uc, e.handled⟩] := by
  simp [slots, Entry.slot?, h]

/-- The entry `n` between the earlier and the later ones. -/
theorem stream_split (h : w.stream[n]? = some e) :
    w.stream = w.stream.take n ++ [e] ++ w.stream.drop (n + 1) ∧
      w.stream.set n { e with handled := true } =
        w.stream.take n ++ [{ e with handled := true }] ++ w.stream.drop (n + 1) := by
  obtain ⟨hn, rfl⟩ := List.getElem?_eq_some_iff.mp h
  constructor
  · simp
  · rw [List.set_eq_take_append_cons_drop]
    simp [hn]

/-- A call moves its video along the table, or skips it where the table does not allow it. -/
theorem apply_rows {row : VideoRow} (hr : w.rows id = some row) (hd : row.deletedAt = none) :
    (w.apply uc id).rows =
      Function.update w.rows id (some { row with status := row.status.after uc }) := by
  have hg : getById w.rows id = some (row.toDomain id) := by simp [getById, hr, hd]
  unfold World.apply call
  simp only [hg, UseCase.mark_eq, Video.transition]
  by_cases ht : uc.target ∈ row.status.allowed
  · have ha : row.status.after uc = uc.target := if_pos ht
    rw [if_pos (show uc.target ∈ (row.toDomain id).status.allowed from ht)]
    simp [VideoRow.save, hr, ha]
  · have ha : row.status.after uc = row.status := if_neg ht
    rw [if_neg (show uc.target ∉ (row.toDomain id).status.allowed from ht), ha]
    change w.rows = Function.update w.rows id (some row)
    rw [← hr, Function.update_eq_self]

theorem apply_missing (hr : ∀ row, w.rows id = some row → row.deletedAt ≠ none) :
    w.apply uc id = w := by
  have hg : getById w.rows id = none := by
    cases hv : getById w.rows id with
    | none => rfl
    | some video =>
      obtain ⟨row, hrow, hd, -⟩ := getById_some hv
      exact absurd hd (hr row hrow)
  simp [World.apply, call, hg]

@[simp] theorem apply_stream : (w.apply uc id).stream = w.stream := by
  unfold World.apply
  split <;> rfl

@[simp] theorem apply_group : (w.apply uc id).group = w.group := by
  unfold World.apply
  split <;> rfl

@[simp] theorem apply_withdrawn : (w.apply uc id).withdrawn = w.withdrawn := by
  unfold World.apply
  split <;> rfl

theorem Grows.of_stream (h : w'.stream = w.stream) : Grows w w' :=
  ⟨by rw [h], fun n hn => by rwa [Handled, h]⟩

theorem Holds.grows {i : Nat} (h : Holds i w k) (hg : Grows w w') : Holds i w' k := by
  cases k with
  | handling stale todo => exact fun n hn => lt_of_lt_of_le (h n hn) hg.length
  | acking stale n todo =>
    exact ⟨hg.handled n h.1, fun m hm => lt_of_lt_of_le (h.2 m hm) hg.length⟩
  | _ => trivial

theorem Group.Sound.grows (h : g.Sound w) (hg : Grows w w') : g.Sound w' where
  delivered := h.delivered.trans hg.length
  pending := h.pending
  acked n hn hp := hg.handled n (h.acked n hn hp)

theorem Grouped.grows (h : Grouped w) (hgroup : w'.group = w.group) (hg : Grows w w') :
    Grouped w' := fun g hs => (h g (hgroup ▸ hs)).grows hg

/-- The entry `n` is marked as handled; its use case does nothing else to the stream. -/
theorem handle_stream (h : w.stream[n]? = some e) :
    (w.handle decode n).stream = w.stream.set n { e with handled := true } := by
  unfold World.handle
  simp only [h]
  split
  · rfl
  · rw [apply_stream]

theorem handle_group : (w.handle decode n).group = w.group := by
  unfold World.handle
  split
  · rfl
  · split
    · rfl
    · rw [apply_group]

theorem handle_withdrawn : (w.handle decode n).withdrawn = w.withdrawn := by
  unfold World.handle
  split
  · rfl
  · split
    · rfl
    · rw [apply_withdrawn]

theorem handled_handle (hn : n < w.stream.length) : Handled (w.handle decode n) n := by
  have he : w.stream[n]? = some w.stream[n] := List.getElem?_eq_getElem hn
  refine ⟨{ w.stream[n] with handled := true }, ?_, rfl⟩
  rw [handle_stream he]
  exact List.getElem?_set_self hn

theorem Grows.handle : Grows w (w.handle decode n) := by
  cases he : w.stream[n]? with
  | none =>
    have hw : w.handle decode n = w := by simp [World.handle, he]
    rw [hw]
    exact .of_stream rfl
  | some e =>
    refine ⟨by simp [handle_stream he], fun m hm => ?_⟩
    by_cases hmn : m = n
    · subst hmn
      exact handled_handle (List.getElem?_eq_some_iff.mp he).1
    · obtain ⟨x, hx, hh⟩ := hm
      refine ⟨x, ?_, hh⟩
      rw [handle_stream he, List.getElem?_set_ne (Ne.symm hmn)]
      exact hx

/-- The video of the entry moves on, the other rows stay. -/
theorem handle_rows (he : w.stream[n]? = some e) (hm : e.mark? decode = some (id, uc)) :
    (w.handle decode n).rows = (w.apply uc id).rows := by
  unfold World.handle
  simp only [he, hm, World.apply]
  cases call w.rows uc id <;> rfl

theorem handle_rows_of_none (he : w.stream[n]? = some e) (hm : e.mark? decode = none) :
    (w.handle decode n).rows = w.rows := by
  simp [World.handle, he, hm]

theorem apply_rows_of_ne (hv : video ≠ id) : (w.apply uc id).rows video = w.rows video := by
  unfold World.apply call
  split
  · rfl
  · rename_i rows hc
    split at hc
    · cases hc
    · split at hc
      · cases hc
      · cases hc
        exact Function.update_of_ne hv _ _

/-- The marks of a video around the entry `n`, before and after it is handled. -/
theorem slots_split (he : w.stream[n]? = some e) :
    slots decode w.stream video = slots decode (w.stream.take n) video ++
        (slots decode [e] video ++ slots decode (w.stream.drop (n + 1)) video) ∧
      slots decode (w.handle decode n).stream video = slots decode (w.stream.take n) video ++
        (slots decode [{ e with handled := true }] video ++
          slots decode (w.stream.drop (n + 1)) video) := by
  obtain ⟨hs, hs'⟩ := stream_split he
  rw [handle_stream he, hs', ← slots_append, ← slots_append, ← slots_append, ← slots_append,
    ← List.append_assoc, ← List.append_assoc, ← hs]
  exact ⟨rfl, rfl⟩

/-- Handling an entry leaves the marks of other videos as they are. -/
theorem slots_handle_of_ne (he : w.stream[n]? = some e)
    (hm : ∀ uc, e.mark? decode ≠ some (video, uc)) :
    slots decode (w.handle decode n).stream video = slots decode w.stream video := by
  obtain ⟨hs, hs'⟩ := @slots_split decode w video e n he
  have hnone (b : Bool) : slots decode [{ e with handled := b }] video = [] := by
    cases hx : e.mark? decode with
    | none => exact slots_of_none hx
    | some x =>
      obtain ⟨id, uc⟩ := x
      refine slots_of_other hx ?_
      intro heq
      subst heq
      exact hm uc hx
  rw [hs, hs', hnone true, hnone e.handled]

theorem Tracks.congr (h : Tracks cfg w video) (hr : w'.rows video = w.rows video)
    (hw : w'.withdrawn = w.withdrawn)
    (hs : slots cfg.decode w'.stream video = slots cfg.decode w.stream video) :
    Tracks cfg w' video := by
  unfold Tracks
  rw [hr, hw, hs]
  exact h

/-- The video the entry is about moves on as its mark says. -/
theorem Tracks.handle (h : Tracks cfg w video) (he : w.stream[n]? = some e)
    (hm : e.mark? cfg.decode = some (video, uc)) (ht : FindsTurn cfg w n) :
    Tracks cfg (w.handle cfg.decode n) video := by
  intro row hrow hw
  rw [handle_withdrawn] at hw
  rw [handle_rows he hm] at hrow
  cases hold : w.rows video with
  | none =>
    rw [apply_missing (by simp [hold]), hold] at hrow
    cases hrow
  | some old =>
    obtain ⟨halive, hconv⟩ := h old hold hw
    rw [apply_rows hold halive] at hrow
    simp only [Function.update_self, Option.some.injEq] at hrow
    subst hrow
    refine ⟨halive, fun ho => ?_⟩
    obtain ⟨hs, hs'⟩ := @slots_split cfg.decode w video e n he
    have hm' : ({ e with handled := true } : Entry).mark? cfg.decode = some (video, uc) := hm
    rw [slots_of_mark hm] at hs
    rw [slots_of_mark hm'] at hs'
    rw [hs'] at ho ⊢
    have hturn : OnTurn old.status (waiting (slots cfg.decode (w.stream.take n) video)) uc := by
      simp only [FindsTurn, he, Option.bind_some, hm, hold] at ht
      exact ht hw
    rw [hs] at hconv
    have hin : InOrder (marks (slots cfg.decode (w.stream.take n) video ++
        ([⟨uc, e.handled⟩] ++ slots cfg.decode (w.stream.drop (n + 1)) video))) := by
      simpa using ho
    exact (hconv hin).handle hin hturn

/-- The video of the entry moves on, the other rows stay. -/
theorem tracks_handle (h : ∀ video, Tracks cfg w video) (ht : FindsTurn cfg w n) (video : Uuid) :
    Tracks cfg (w.handle cfg.decode n) video := by
  cases he : w.stream[n]? with
  | none =>
    have hw : w.handle cfg.decode n = w := by simp [World.handle, he]
    rw [hw]
    exact h video
  | some e =>
    cases hm : e.mark? cfg.decode with
    | none =>
      refine (h video).congr ?_ handle_withdrawn ?_
      · rw [handle_rows_of_none he hm]
      · exact slots_handle_of_ne he (by simp [hm])
    | some x =>
      obtain ⟨id, uc⟩ := x
      by_cases hv : video = id
      · subst hv
        exact (h video).handle he hm ht
      · refine (h video).congr ?_ handle_withdrawn ?_
        · rw [handle_rows he hm, apply_rows_of_ne hv]
        · apply slots_handle_of_ne he
          intro c hx
          rw [hm] at hx
          cases hx
          exact hv rfl

theorem ensureGroup_stream : w.ensureGroup.stream = w.stream := by
  unfold World.ensureGroup
  split <;> rfl

theorem Grouped.ensureGroup (h : Grouped w) : Grouped w.ensureGroup := by
  unfold World.ensureGroup
  split
  · intro g hg
    cases hg
    exact ⟨Nat.zero_le _, by simp, by simp⟩
  · exact h

theorem Grouped.adopt {ns : List Nat} (h : Grouped w) (hg : w.group = some g) :
    Grouped (w.adopt g ns) := by
  have hs := h g hg
  intro g' hg'
  cases hg'
  refine ⟨hs.delivered, fun p hp => ?_, fun n hn hp => hs.acked n hn fun p hm he => ?_⟩
  · obtain ⟨q, hq, rfl⟩ := List.mem_map.mp hp
    have hi := hs.pending q hq
    split <;> exact hi
  · apply hp _ (List.mem_map.mpr ⟨p, hm, rfl⟩)
    split <;> exact he

theorem mem_fresh {batch : Nat} : n ∈ w.fresh g batch ↔
    g.lastDelivered ≤ n ∧ n < g.lastDelivered + (w.fresh g batch).length := by
  simp [World.fresh, List.mem_range'_1]

theorem fresh_le {batch : Nat} (h : g.lastDelivered ≤ w.stream.length) :
    g.lastDelivered + (w.fresh g batch).length ≤ w.stream.length := by
  simp only [World.fresh, List.length_range']
  omega

theorem Grouped.deliver {batch : Nat} (h : Grouped w) (hg : w.group = some g) :
    Grouped (w.deliver g batch) := by
  have hs := h g hg
  intro g' hg'
  cases hg'
  refine ⟨fresh_le hs.delivered, fun p hp => ?_, fun n hn hp => ?_⟩
  · rcases List.mem_append.mp hp with hp | hp
    · exact Nat.lt_of_lt_of_le (hs.pending p hp) (Nat.le_add_right _ _)
    · obtain ⟨m, hm, rfl⟩ := List.mem_map.mp hp
      exact (mem_fresh.mp hm).2
  · by_cases hlt : n < g.lastDelivered
    · exact hs.acked n hlt fun p hm => hp p (List.mem_append_left _ hm)
    · have hm : n ∈ w.fresh g batch := mem_fresh.mpr ⟨not_lt.mp hlt, hn⟩
      exact absurd rfl (hp ⟨n, w.now⟩ (List.mem_append_right _ (List.mem_map.mpr ⟨n, hm, rfl⟩)))

theorem Grouped.ack (h : Grouped w) (hn : Handled w n) : Grouped (w.ack n) := by
  intro g' hg'
  obtain ⟨g, hg, rfl⟩ := Option.map_eq_some_iff.mp hg'
  have hs := h g hg
  refine ⟨hs.delivered, fun p hp => hs.pending p (List.mem_filter.mp hp).1, fun m hm hp => ?_⟩
  by_cases hmn : m = n
  · subst hmn
    exact hn
  · apply hs.acked m hm
    intro p hpm he
    refine hp p (List.mem_filter.mpr ⟨hpm, ?_⟩) he
    simpa [he] using hmn

theorem step_touch {i : Nat} {a : Act} {k' : Consumer} (h : step cfg i w k a = some (w', k')) :
    Touch cfg w k a w' := by
  unfold step at h
  split at h
  · cases h
    exact .ensureGroup
  · split at h
    · split at h
      · cases h
        exact .ensureGroup
      · cases h
    · rename_i g hg
      split at h
      · cases h
        exact .adopt _ hg
      · cases h
  · split at h
    · cases h
      exact .nothing
    · rename_i g hg
      split at h
      · cases h
        exact .adopt _ hg
      · cases h
  · split at h
    · cases h
      exact .nothing
    · rename_i g hg
      cases h
      exact .deliver _ hg
  · rename_i applied
    split at h
    · cases h
      exact .nothing
    · rename_i g hg
      cases applied <;> cases h
      · exact .nothing
      · exact .deliver _ hg
  · cases h
    exact .handle rfl rfl
  · rename_i applied
    cases applied <;> cases h
    · exact .nothing
    · exact .handle rfl rfl
  · cases h
    exact .ack rfl
  · rename_i applied
    cases applied <;> cases h
    · exact .nothing
    · exact .ack rfl
  · cases h
    exact .nothing
  · cases h

theorem Touch.grows {a : Act} (ht : Touch cfg w k a w') : Grows w w' := by
  cases ht with
  | ensureGroup => exact .of_stream ensureGroup_stream
  | handle => exact .handle
  | _ => exact .of_stream rfl

theorem Touch.grouped {i : Nat} {a : Act} (ht : Touch cfg w k a w') (h : Grouped w)
    (hk : Holds i w k) : Grouped w' := by
  cases ht with
  | nothing => exact h
  | ensureGroup => exact h.ensureGroup
  | adopt ns hg => exact h.adopt hg
  | deliver batch hg => exact h.deliver hg
  | handle => exact h.grows handle_group .handle
  | ack now =>
    subst now
    exact h.ack hk.1

/-- A video follows the stream where its entries are handled on their turn. -/
theorem Touch.tracks {a : Act} (ht : Touch cfg w k a w') (h : ∀ video, Tracks cfg w video)
    (hturn : ∀ stale n todo, k = .handling stale (n :: todo) → Handles a = true →
      FindsTurn cfg w n) (video : Uuid) : Tracks cfg w' video := by
  cases ht with
  | ensureGroup =>
    refine (h video).congr ?_ ?_ (by rw [ensureGroup_stream]) <;>
      (unfold World.ensureGroup; split <;> rfl)
  | handle now ha => exact tracks_handle h (hturn _ _ _ now ha) video
  | _ => exact (h video).congr rfl rfl rfl

/-- A new entry waits behind the others of its video. -/
theorem Consistent.xadd {payload : Option String} (hc : Consistent cfg w) :
    Consistent cfg { w with stream := w.stream ++ [⟨payload, false⟩] } := by
  have hgrow : Grows w { w with stream := w.stream ++ [⟨payload, false⟩] } := by
    refine ⟨by simp, fun n hn => ?_⟩
    obtain ⟨e, he, hh⟩ := hn
    exact ⟨e, List.getElem?_append_left (List.getElem?_eq_some_iff.mp he).1 ▸ he, hh⟩
  refine ⟨fun video => ?_, hc.group.grows rfl hgrow⟩
  have happ := @slots_append cfg.decode video w.stream [⟨payload, false⟩]
  cases hm : ({ payload := payload, handled := false } : Entry).mark? cfg.decode with
  | none =>
    refine (hc.videos video).congr rfl rfl ?_
    rw [happ, slots_of_none hm, List.append_nil]
  | some x =>
    obtain ⟨id, uc⟩ := x
    by_cases hv : id = video
    · subst hv
      intro row hr hw
      obtain ⟨halive, hconv⟩ := hc.videos id row hr hw
      refine ⟨halive, ?_⟩
      change InOrder (marks (slots cfg.decode (w.stream ++ _) id)) →
        Converging row.status (slots cfg.decode (w.stream ++ _) id)
      rw [happ, slots_of_mark hm]
      intro ho
      have ho' : InOrder (marks (slots cfg.decode w.stream id) ++ [uc]) := by simpa using ho
      exact (hconv (inOrder_of_append ho')).append ho'
    · refine (hc.videos video).congr rfl rfl ?_
      rw [happ, slots_of_other hm hv, List.append_nil]

/-- A row changes for a video that is withdrawn, or not in the stream yet. -/
theorem Consistent.update {row : VideoRow} {withdrawn : List Uuid} (hc : Consistent cfg w)
    (hsub : ∀ video, video ∉ withdrawn → video ∉ w.withdrawn)
    (hid : id ∈ withdrawn ∨ (row.deletedAt = none ∧ row.status = .pending ∧
      slots cfg.decode w.stream id = [])) :
    Consistent cfg
      { w with rows := Function.update w.rows id (some row), withdrawn := withdrawn } := by
  refine ⟨fun video => ?_, hc.group.grows rfl (.of_stream rfl)⟩
  intro row' hr hw
  by_cases hv : video = id
  · subst hv
    simp only [Function.update_self, Option.some.injEq] at hr
    subst hr
    rcases hid with hm | ⟨hd, hp, hs⟩
    · exact absurd hm hw
    · refine ⟨hd, fun _ => ?_⟩
      change Converging row.status (slots cfg.decode w.stream video)
      rw [hp, hs]
      exact .nil
  · simp only [Function.update_of_ne hv] at hr
    exact hc.videos video row' hr (hsub video hw)

theorem holds_resume {i : Nat} {stale : Bool} {todo : List Nat}
    (h : ∀ m ∈ todo, m < w.stream.length) : Holds i w (resume stale todo) := by
  cases todo with
  | nil => cases stale <;> trivial
  | cons m todo => exact h

/-- What a consumer has in hand stays in the stream, and what it has yet to ack is handled. -/
theorem step_holds {i : Nat} {a : Act} {k' : Consumer} (hg : Grouped w) (hk : Holds i w k)
    (h : step cfg i w k a = some (w', k')) : Holds i w' k' := by
  have hpel {g : Group} {ns : List Nat} (hgroup : w.group = some g)
      (hcl : Claimable w g (cfg.batch i) (cfg.claimIdleMs i) ns) :
      ∀ n ∈ ns, n < w.stream.length := by
    intro n hn
    obtain ⟨p, hp, rfl, -⟩ := hcl.2.2 n hn
    exact lt_of_lt_of_le ((hg g hgroup).pending p hp) (hg g hgroup).delivered
  unfold step at h
  split at h
  · cases h
    trivial
  · split at h
    · split at h
      · cases h
        trivial
      · cases h
    · rename_i g hgroup
      split at h
      · rename_i hcl
        cases h
        exact holds_resume (hpel hgroup hcl)
      · cases h
  · split at h
    · cases h
      trivial
    · split at h
      · cases h
        trivial
      · cases h
  · split at h
    · cases h
      trivial
    · rename_i g hgroup
      cases h
      refine holds_resume fun m hm => ?_
      exact lt_of_lt_of_le (mem_fresh.mp hm).2 (fresh_le (hg g hgroup).delivered)
  · split at h <;> (cases h; trivial)
  · rename_i stale n todo
    cases h
    have hgrow : Grows w (w.handle cfg.decode n) := .handle
    refine ⟨handled_handle (hk n (by simp)), fun m hm => ?_⟩
    exact lt_of_lt_of_le (hk m (by simp [hm])) hgrow.length
  · cases h
    trivial
  · cases h
    exact holds_resume hk.2
  · cases h
    trivial
  · cases h
    trivial
  · cases h

/-- One step of a consumer, its use cases on their turn. -/
theorem step_consistent {i : Nat} {a : Act} {k' : Consumer} (hc : Consistent cfg w)
    (hk : Holds i w k) (ht : ∀ stale n todo, k = .handling stale (n :: todo) → Handles a = true →
      FindsTurn cfg w n) (h : step cfg i w k a = some (w', k')) :
    Consistent cfg w' ∧ Holds i w' k' ∧ Grows w w' :=
  have touch := step_touch h
  ⟨⟨touch.tracks hc.videos ht, touch.grouped hc.group hk⟩, step_holds hc.group hk h, touch.grows⟩

theorem slots_eq_nil (h : ∀ e ∈ w.stream, (e.mark? decode).map Prod.fst ≠ some id) :
    slots decode w.stream id = [] := by
  apply List.filterMap_eq_nil_iff.mpr
  intro e he
  have hn := h e he
  unfold Entry.slot?
  split
  · rfl
  · rename_i v uc hm
    rw [hm] at hn
    simp only [Option.map_some, ne_eq, Option.some.injEq] at hn
    simp [hn]

theorem env_consistent {ev : Env} (hc : Consistent cfg w) (h : env cfg w ev = some w') :
    Consistent cfg w' ∧ Grows w w' := by
  have hsub {x : Uuid} : ∀ video, video ∉ x :: w.withdrawn → video ∉ w.withdrawn :=
    fun video hn hm => hn (List.mem_cons_of_mem _ hm)
  cases ev with
  | xadd payload =>
    cases h
    refine ⟨hc.xadd, by simp, fun n hn => ?_⟩
    obtain ⟨e, he, hh⟩ := hn
    exact ⟨e, List.getElem?_append_left (List.getElem?_eq_some_iff.mp he).1 ▸ he, hh⟩
  | upload id sourceKey at_ document =>
    simp only [env] at h
    split at h
    · rename_i hfresh
      cases h
      exact ⟨hc.update (fun _ hn => hn) (.inr ⟨rfl, rfl, slots_eq_nil hfresh.2⟩), .of_stream rfl⟩
    · cases h
  | cancel id =>
    simp only [env] at h
    split at h
    · cases h
      exact ⟨hc, .of_stream rfl⟩
    · rename_i rows hcall
      cases h
      refine ⟨?_, .of_stream rfl⟩
      unfold call at hcall
      split at hcall
      · cases hcall
      · split at hcall
        · cases hcall
        · cases hcall
          exact hc.update hsub (.inl (by simp))
  | softDelete id at_ =>
    simp only [env] at h
    split at h
    · cases h
      exact ⟨hc, .of_stream rfl⟩
    · split at h
      · cases h
        exact ⟨hc, .of_stream rfl⟩
      · cases h
        exact ⟨hc.update hsub (.inl (by simp)), .of_stream rfl⟩
  | destroyGroup =>
    cases h
    exact ⟨⟨fun video => (hc.videos video).congr rfl rfl rfl, fun g hg => (by cases hg)⟩,
      .of_stream rfl⟩
  | tick milliseconds =>
    cases h
    exact ⟨⟨fun video => (hc.videos video).congr rfl rfl rfl,
      hc.group.grows rfl (.of_stream rfl)⟩, .of_stream rfl⟩

/-- Once everything is acked, everything has been handled. -/
theorem handled_of_allAcked (h : Grouped w) (hall : AllAcked w) :
    ∀ n < w.stream.length, Handled w n := by
  obtain ⟨g, hg, hlast, hpel⟩ := hall
  intro n hn
  exact (h g hg).acked n (hlast ▸ hn) (by simp [hpel])

theorem waiting_slots (h : ∀ n < w.stream.length, Handled w n) :
    waiting (slots decode w.stream video) = [] := by
  apply List.filterMap_eq_nil_iff.mpr
  intro x hx
  obtain ⟨e, he, hs⟩ := List.mem_filterMap.mp hx
  obtain ⟨n, hn, rfl⟩ := List.getElem_of_mem he
  obtain ⟨e', he', hh⟩ := h n hn
  rw [List.getElem?_eq_getElem hn, Option.some.injEq] at he'
  unfold Entry.slot? at hs
  split at hs
  · cases hs
  · split at hs
    · cases hs
      rw [he', hh]
      rfl
    · cases hs

end

theorem consistent {cfg : Config} {as : List Action} {s : State}
    (h : (pool cfg).machine.Reaches as s)
    (hm : (pool cfg).machine.Meets (InTurn cfg) (pool cfg).machine.start as) :
    Consistent cfg s.world := by
  refine (Pool.good_of_meets (p := pool cfg) (I := Consistent cfg) (K := Holds) ?_ ?_ ?_ h hm).1
  · exact ⟨⟨fun video row hr => (by cases hr), fun g hg => (by cases hg)⟩, fun _ => trivial⟩
  · intro s i a w k hg hok hs
    obtain ⟨hc, hk⟩ := hg
    obtain ⟨hc', hk', hgrow⟩ := step_consistent hc (hk i) (fun stale n todo hi ha => by
      simpa only [InTurn, hi, ha] using hok) hs
    exact ⟨hc', hk', fun j _ => (hk j).grows hgrow⟩
  · intro s e w hg _ hs
    obtain ⟨hc, hk⟩ := hg
    obtain ⟨hc', hgrow⟩ := env_consistent hc hs
    exact ⟨hc', fun j => (hk j).grows hgrow⟩

/-- Once every entry is acked each video that was not withdrawn has the status of the stream,
in every run in which no entry is handled out of turn; without a failure it is DONE. -/
theorem consumers_converge {cfg : Config} {as : List Action} {s : State}
    (h : (pool cfg).machine.Reaches as s)
    (hm : (pool cfg).machine.Meets (InTurn cfg) (pool cfg).machine.start as)
    (hall : AllAcked s.world) {video : Uuid} {row : VideoRow}
    (hr : s.world.rows video = some row) (hw : video ∉ s.world.withdrawn)
    (ho : InOrder (marks (slots cfg.decode s.world.stream video))) :
    row.status = streamStatus cfg.decode s.world.stream video ∧
      (.markProcessing ∈ marks (slots cfg.decode s.world.stream video) →
        .markDone ∈ marks (slots cfg.decode s.world.stream video) →
        .markFailed ∉ marks (slots cfg.decode s.world.stream video) → row.status = .done) := by
  have hc := consistent h hm
  have hstatus : row.status = streamStatus cfg.decode s.world.stream video := by
    apply ((hc.videos video row hr hw).2 ho).settled
    exact waiting_slots (handled_of_allAcked hc.group hall)
  refine ⟨hstatus, fun hs hd hf => ?_⟩
  rw [hstatus, streamStatus, replay_pending_started ho hs]
  cases hfind : (marks (slots cfg.decode s.world.stream video)).find? settles with
  | none => exact absurd rfl (List.find?_eq_none.mp hfind _ hd)
  | some uc =>
    rcases settles_of_find hfind with rfl | rfl
    · rfl
    · exact absurd (List.mem_of_find?_eq_some hfind) hf

/-- The payload the producers write, for the nil UUID. -/
def payloadText (eventType : String) : String :=
  "\x7b\"event_id\":\"00000000-0000-0000-0000-000000000000\",\"event_type\":\"" ++ eventType ++
    "\",\"video_id\":\"00000000-0000-0000-0000-000000000000\"," ++
    "\"occurred_at\":\"2026-01-01T00:00:00Z\",\"version\":1\x7d"

/-- The decoder on these payloads. -/
def decodeSample (payload : String) : Option StatusEvent :=
  (["video_processing_started", "video_processed"].find? (fun t => payload == payloadText t)).map
    (fun t => ⟨t, Uuid.null⟩)

def defaults : Config := ⟨decodeSample, fun _ => 100, fun _ => 60000⟩

def noon : Datetime := ⟨⟨2024, 1, 1, 12, 0, 0, 0⟩, by decide⟩

/-- One drain without stale entries, up to the entries it reads. -/
def drain (i : Nat) : List Action := [.act i (.claim []), .act i .read]

def handled (i : Nat) : List Action := [.act i .handle, .act i .ack]

def published (eventType : String) : Action := .env (.xadd (some (payloadText eventType)))

/-- A consumer dies between the two entries, and another one takes over. -/
def takenOver : List Action :=
  [.env (.upload Uuid.null "clip.mp4" noon []), .act 0 .ensureGroup, .act 1 .ensureGroup,
    published "video_processing_started", published "video_processed"] ++ drain 0 ++ handled 0 ++
    [.act 0 .crash, .env (.tick 60000), .act 1 (.claim [1])] ++ handled 1

/-- The started entry waits out a `PortError` while the processed one is read and acked. -/
def overtaken : List Action :=
  [.env (.upload Uuid.null "clip.mp4" noon []), .act 0 .ensureGroup,
    published "video_processing_started"] ++ drain 0 ++
    [.act 0 (.fail false), published "video_processed"] ++ drain 0 ++ handled 0 ++
    [.env (.tick 60000), .act 0 (.claim [0])] ++ handled 0

/-- What these runs end with. -/
structure Outcome where
  group : Option Group
  entries : Nat
  status : Option VideoStatus
  withdrawn : List Uuid
  marks : List UseCase
  deriving DecidableEq

def outcome (s : State) : Outcome :=
  ⟨s.world.group, s.world.stream.length, (s.world.rows Uuid.null).map VideoRow.status,
    s.world.withdrawn, marks (slots decodeSample s.world.stream Uuid.null)⟩

theorem taken_over_converges : ∃ s row, (pool defaults).machine.Reaches takenOver s ∧
    s.world.rows Uuid.null = some row ∧ row.status = .done ∧
    row.status = streamStatus decodeSample s.world.stream Uuid.null := by
  have hr : ((pool defaults).machine.exec (pool defaults).machine.start takenOver).map outcome =
      some ⟨some ⟨2, []⟩, 2, some .done, [], [.markProcessing, .markDone]⟩ := by
    decide +kernel
  obtain ⟨s, hs, ho⟩ := Machine.reaches_of_map hr
  simp only [outcome, Outcome.mk.injEq] at ho
  obtain ⟨hg, hl, hrow, hw, hm⟩ := ho
  obtain ⟨row, hrow, -⟩ := Option.map_eq_some_iff.mp hrow
  obtain ⟨hstatus, hdone⟩ := consumers_converge hs (by decide +kernel) ⟨_, hg, hl.symm, rfl⟩ hrow
    (by simp [hw]) (show InOrder (marks (slots decodeSample s.world.stream Uuid.null)) by
      rw [hm]
      exact inOrder_started)
  refine ⟨s, row, hs, hrow, hdone ?_ ?_ ?_, hstatus⟩
  · exact hm ▸ (by decide)
  · exact hm ▸ (by decide)
  · exact hm ▸ (by decide)

theorem overtaken_entry_is_lost : ¬ ∀ (cfg : Config) as s, (pool cfg).machine.Reaches as s →
    AllAcked s.world → ∀ video row, s.world.rows video = some row → video ∉ s.world.withdrawn →
    InOrder (marks (slots cfg.decode s.world.stream video)) →
    row.status = streamStatus cfg.decode s.world.stream video := by
  intro hall
  have hr : ((pool defaults).machine.exec (pool defaults).machine.start overtaken).map outcome =
      some ⟨some ⟨2, []⟩, 2, some .processing, [], [.markProcessing, .markDone]⟩ := by
    decide +kernel
  obtain ⟨s, hs, ho⟩ := Machine.reaches_of_map hr
  simp only [outcome, Outcome.mk.injEq] at ho
  obtain ⟨hg, hl, hrow, hw, hm⟩ := ho
  obtain ⟨row, hrow, hstatus⟩ := Option.map_eq_some_iff.mp hrow
  have heq := hall defaults _ s hs ⟨_, hg, hl.symm, rfl⟩ _ row hrow (by simp [hw])
    (show InOrder (marks (slots decodeSample s.world.stream Uuid.null)) by
      rw [hm]
      exact inOrder_started)
  rw [hstatus, streamStatus] at heq
  change _ = replay .pending (marks (slots decodeSample s.world.stream Uuid.null)) at heq
  rw [hm] at heq
  cases heq

end BackendTemplates.Media.StatusConsumer
