import BackendTemplates.Library.Progress
import BackendTemplates.Media.Convergence

namespace BackendTemplates.Media.StatusConsumer
open Python Runs

def failing : Act → Bool
  | .claimFail _ => true
  | .fail _ => true
  | .crash => true
  | _ => false

/-- A step of one consumer in which nothing fails, or time that passes. -/
def Healthy (i : Nat) (a : Action) : Prop :=
  (∃ act, a = .act i act ∧ failing act = false) ∨ ∃ ms, a = .env (.tick ms)

/-- It is healthy, and where the entries are in order so far it handles none out of turn. -/
def Mends (cfg : Config) (order : Prop) (i : Nat) (s : State) (a : Action) : Prop :=
  Healthy i a ∧ (order → InTurn cfg s a)

/-- A state of a run, in turn so far where the entries are in order. -/
def Ran (cfg : Config) (order : Prop) (s : State) : Prop :=
  ∃ as, (pool cfg).machine.Reaches as s ∧
    (order → (pool cfg).machine.Meets (InTurn cfg) (pool cfg).machine.start as)

/-- The entries pending, oldest first. -/
def pendings (g : Group) : List Nat :=
  (List.range g.lastDelivered).filter (fun n => n ∈ g.pel.map Pending.index)

/-- These are entries, and every one before them is one of them, or handled. -/
def Next (w : World) (ns : List Nat) : Prop :=
  ∀ n ∈ ns, n < w.stream.length ∧ ∀ m < n, m ∈ ns ∨ Handled w m

/-- What is left to do: entries that are pending, and entries never delivered. -/
def left (w : World) : Nat :=
  match w.group with
  | none => w.stream.length + 1
  | some g => (pendings g).length + (w.stream.length - g.lastDelivered)

/-- The same entries, and the same videos. -/
structure Alike (w w' : World) : Prop where
  payloads : w'.stream.map Entry.payload = w.stream.map Entry.payload
  withdrawn : w'.withdrawn = w.withdrawn
  rows : ∀ id, w'.rows id = none ↔ w.rows id = none

section
variable {cfg : Config} {order : Prop} {i : Nat} {s t : State} {w w' : World} {g : Group}

/-- A use case changes rows, and creates none. -/
theorem apply_alike (uc : UseCase) (id : Uuid) : Alike w (w.apply uc id) := by
  refine ⟨by rw [apply_stream], apply_withdrawn, fun video => ?_⟩
  unfold World.apply call
  split
  · rfl
  · rename_i rows hc
    split at hc
    · cases hc
    · rename_i found hg
      obtain ⟨row, hrow, -⟩ := getById_some hg
      split at hc
      · cases hc
      · cases hc
        by_cases hv : video = id
        · simp [hv, hrow]
        · simp [Function.update_of_ne hv]

theorem handle_alike {decode : String → Option StatusEvent} (n : Nat) :
    Alike w (w.handle decode n) := by
  unfold World.handle
  split
  · exact ⟨rfl, rfl, fun _ => Iff.rfl⟩
  · rename_i e he
    have hmarked : (w.stream.set n { e with handled := true }).map Entry.payload =
        w.stream.map Entry.payload := by
      obtain ⟨hn, rfl⟩ := List.getElem?_eq_some_iff.mp he
      have hself := @List.set_getElem_self _ (w.stream.map Entry.payload) n (by simpa using hn)
      rw [List.getElem_map] at hself
      rw [List.map_set, hself]
    split
    · exact ⟨hmarked, rfl, fun _ => Iff.rfl⟩
    · obtain ⟨hpayloads, hwithdrawn, hrows⟩ := @apply_alike
        { w with stream := w.stream.set n { e with handled := true } } _ _
      exact ⟨hpayloads.trans hmarked, hwithdrawn, hrows⟩

theorem Touch.alike {k : Consumer} {a : Act} (ht : Touch cfg w k a w') : Alike w w' := by
  cases ht with
  | ensureGroup =>
    unfold World.ensureGroup
    split <;> exact ⟨rfl, rfl, fun _ => Iff.rfl⟩
  | @handle _ n => exact handle_alike n
  | _ => exact ⟨rfl, rfl, fun _ => Iff.rfl⟩

theorem healthy_alike {a : Action} (ha : Healthy i a)
    (hs : (pool cfg).machine.step s a = some t) : Alike s.world t.world := by
  rcases ha with ⟨act, rfl, -⟩ | ⟨ms, rfl⟩
  · obtain ⟨w, k, hw, rfl⟩ := Pool.act_step.mp hs
    exact (step_touch hw).alike
  · obtain ⟨w, hw, rfl⟩ := Pool.env_step.mp hs
    cases hw
    exact ⟨rfl, rfl, fun _ => Iff.rfl⟩

/-- The marks of a video are in the payloads alone. -/
theorem marks_slots {decode : String → Option StatusEvent} (xs : List Entry) (video : Uuid) :
    marks (slots decode xs video) = (xs.map Entry.payload).filterMap
      (fun payload => (Entry.slot? decode video ⟨payload, false⟩).map Slot.uc) := by
  rw [marks, slots, List.map_filterMap, List.filterMap_map]
  congr 1
  funext e
  have hm : e.mark? decode = Entry.mark? decode ⟨e.payload, false⟩ := rfl
  unfold Entry.slot?
  simp only [Function.comp_apply, hm]
  split
  · rfl
  · split <;> rfl

theorem Alike.marks (h : Alike w w') (video : Uuid) :
    marks (slots cfg.decode w'.stream video) = marks (slots cfg.decode w.stream video) := by
  rw [marks_slots, marks_slots, h.payloads]

theorem Alike.trans {v : World} (h : Alike v w) (h' : Alike w w') : Alike v w' :=
  ⟨h'.payloads.trans h.payloads, h'.withdrawn.trans h.withdrawn,
    fun id => (h'.rows id).trans (h.rows id)⟩

theorem Ran.step {a : Action} (h : Ran cfg order s) (ha : order → InTurn cfg s a)
    (hs : (pool cfg).machine.step s a = some t) : Ran cfg order t := by
  obtain ⟨as, has, hmeets⟩ := h
  refine ⟨as ++ [a], exec_snoc.mpr ⟨s, has, hs⟩, ?_⟩
  intro ho
  refine meets_snoc.mpr ⟨hmeets ho, ?_⟩
  intro u hu
  obtain rfl : s = u := Option.some.inj (has.symm.trans hu)
  exact ha ho

theorem Ran.consistent (h : Ran cfg order s) (ho : order) : Consistent cfg s.world := by
  obtain ⟨as, has, hmeets⟩ := h
  exact StatusConsumer.consistent has (hmeets ho)

theorem handle_length {decode : String → Option StatusEvent} {n : Nat} :
    (w.handle decode n).stream.length = w.stream.length := by
  cases he : w.stream[n]? with
  | none => simp [World.handle, he]
  | some e => simp [handle_stream he]

theorem env_grows {e : Env} (hs : env cfg w e = some w') :
    Grows w w' ∧ (w'.group = w.group ∨ w'.group = none) := by
  unfold env at hs
  split at hs
  · cases hs
    refine ⟨⟨by simp, fun n hn => ?_⟩, .inl rfl⟩
    obtain ⟨e, he, hh⟩ := hn
    exact ⟨e, List.getElem?_append_left (List.getElem?_eq_some_iff.mp he).1 ▸ he, hh⟩
  · split at hs
    · cases hs
      exact ⟨.of_stream rfl, .inl rfl⟩
    · cases hs
  · split at hs <;> (cases hs; exact ⟨.of_stream rfl, .inl rfl⟩)
  · split at hs
    · cases hs
      exact ⟨.of_stream rfl, .inl rfl⟩
    · split at hs <;> (cases hs; exact ⟨.of_stream rfl, .inl rfl⟩)
  · cases hs
    exact ⟨.of_stream rfl, .inr rfl⟩
  · cases hs
    exact ⟨.of_stream rfl, .inl rfl⟩

/-- In every run, whatever is out of turn in it, what is acked has been handled. -/
theorem grouped {as : List Action} (h : (pool cfg).machine.Reaches as s) : Grouped s.world := by
  refine (Pool.good_of_reaches (p := pool cfg) (I := Grouped) (K := Holds) ?_ ?_ ?_ h).1
  · exact ⟨fun g hg => (by cases hg), fun _ => trivial⟩
  · intro s i a w k hg hs
    obtain ⟨hgroup, hk⟩ := hg
    have touch := step_touch hs
    exact ⟨touch.grouped hgroup (hk i), step_holds hgroup (hk i) hs,
      fun j _ => (hk j).grows touch.grows⟩
  · intro s e w hg hs
    obtain ⟨hgroup, hk⟩ := hg
    obtain ⟨hgrow, hkeep⟩ := env_grows hs
    refine ⟨?_, fun j => (hk j).grows hgrow⟩
    rcases hkeep with hkeep | hnone
    · exact hgroup.grows hkeep hgrow
    · intro g hg
      rw [hnone] at hg
      cases hg

theorem Ran.grouped (h : Ran cfg order s) : Grouped s.world := by
  obtain ⟨as, has, -⟩ := h
  exact StatusConsumer.grouped has

theorem alike_of_exec {as : List Action} (h : (pool cfg).machine.exec s as = some t)
    (ha : ∀ a ∈ as, Healthy i a) : Alike s.world t.world := by
  refine exec_invariant_of_meets (I := fun t => Alike s.world t.world) ?_
    ⟨rfl, rfl, fun _ => Iff.rfl⟩ h ((meets_action h).mpr ha)
  intro u a v hu ha hs
  exact hu.trans (healthy_alike ha hs)

/-- Behind nothing that waits an entry is on its turn. -/
theorem onTurn_nil (status : VideoStatus) (uc : UseCase) : OnTurn status [] uc := by
  cases status <;> cases uc <;> simp [OnTurn]

theorem findsTurn_of_handled {n : Nat} (h : ∀ m < n, Handled w m) : FindsTurn cfg w n := by
  have hwaiting (id : Uuid) : waiting (slots cfg.decode (w.stream.take n) id) = [] := by
    apply @waiting_slots cfg.decode { w with stream := w.stream.take n } id
    intro m hm
    have hlt : m < n := Nat.lt_of_lt_of_le hm (List.length_take_le n w.stream)
    obtain ⟨e, he, hh⟩ := h m hlt
    exact ⟨e, by rw [List.getElem?_take_of_lt hlt, he], hh⟩
  unfold FindsTurn
  split
  · trivial
  · split
    · trivial
    · intro _
      rw [hwaiting]
      exact onTurn_nil _ _

/-- What working through entries does to the world. -/
structure Worked (w w' : World) (ns : List Nat) : Prop where
  group : w'.group = w.group.map (fun g => { g with pel := g.pel.filter (·.index ∉ ns) })
  length : w'.stream.length = w.stream.length
  grows : Grows w w'
  done : ∀ n ∈ ns, n < w.stream.length → Handled w' n

/-- The entries at hand are handled and acked one by one. -/
theorem can_work {stale : Bool} {ns : List Nat} (hk : s.clients i = resume stale ns)
    (hsorted : ns.Pairwise (· < ·)) (hnext : order → Next s.world ns) :
    (pool cfg).machine.CanReach (Mends cfg order i) s fun t =>
      t.clients i = resume stale [] ∧ Worked s.world t.world ns := by
  induction ns generalizing s with
  | nil =>
    refine .here ⟨hk, ?_, rfl, .of_stream rfl, by simp⟩
    cases s.world.group <;> simp
  | cons n ns ih =>
    obtain ⟨hfirst, hrest⟩ := List.pairwise_cons.mp hsorted
    have hk : s.clients i = .handling stale (n :: ns) := hk
    have hturn (ho : order) : FindsTurn cfg s.world n := by
      refine findsTurn_of_handled fun m hm => ?_
      rcases (hnext ho n (by simp)).2 m hm with hmem | hhandled
      · rcases List.mem_cons.mp hmem with rfl | hmem
        · exact absurd hm (Nat.lt_irrefl m)
        · exact absurd (hfirst m hmem) (Nat.lt_asymm hm)
      · exact hhandled
    have hhandle : (pool cfg).machine.step s (.act i .handle) =
        some ⟨s.world.handle cfg.decode n, Function.update s.clients i (.acking stale n ns)⟩ := by
      simp [Pool.machine, pool, StatusConsumer.step, hk]
    have hack : (pool cfg).machine.step ⟨s.world.handle cfg.decode n,
        Function.update s.clients i (.acking stale n ns)⟩ (.act i .ack) =
        some ⟨(s.world.handle cfg.decode n).ack n, Function.update
          (Function.update s.clients i (.acking stale n ns)) i (resume stale ns)⟩ := by
      simp [Pool.machine, pool, StatusConsumer.step]
    have hgrows : Grows s.world ((s.world.handle cfg.decode n).ack n) :=
      ⟨(Grows.handle : Grows s.world (s.world.handle cfg.decode n)).length,
        (Grows.handle : Grows s.world (s.world.handle cfg.decode n)).handled⟩
    have hdone (hn : n < s.world.stream.length) :
        Handled ((s.world.handle cfg.decode n).ack n) n := handled_handle hn
    have hok : Mends cfg order i s (.act i .handle) :=
      ⟨.inl ⟨_, rfl, rfl⟩, fun ho => by simpa [InTurn, hk, Handles] using hturn ho⟩
    refine .step hok hhandle (.step ⟨.inl ⟨_, rfl, rfl⟩, fun _ => by simp [InTurn, Handles]⟩ hack
      ((ih (by simp) hrest ?_).mono ?_))
    · intro ho x hx
      obtain ⟨hlen, hbefore⟩ := hnext ho x (by simp [hx])
      refine ⟨Nat.lt_of_lt_of_le hlen hgrows.length, fun m hm => ?_⟩
      rcases hbefore m hm with hmem | hhandled
      · rcases List.mem_cons.mp hmem with rfl | hmem
        · exact .inr (hdone (hnext ho m (by simp)).1)
        · exact .inl hmem
      · exact .inr (hgrows.handled m hhandled)
    · intro t ht
      obtain ⟨hidle, hworked⟩ := ht
      refine ⟨hidle, ?_, ?_, ?_, ?_⟩
      · rw [hworked.group]
        simp only [World.ack, handle_group, Option.map_map]
        congr 1
        funext g
        simp [List.filter_filter, Bool.and_comm]
      · rw [hworked.length]
        exact handle_length
      · exact ⟨hgrows.length.trans hworked.grows.length,
          fun m hm => hworked.grows.handled m (hgrows.handled m hm)⟩
      · intro m hm hlen
        rcases List.mem_cons.mp hm with rfl | hm
        · exact hworked.grows.handled m (hdone hlen)
        · exact hworked.done m hm (Nat.lt_of_lt_of_le hlen hgrows.length)

theorem mem_pendings (h : g.Sound w) {n : Nat} :
    n ∈ pendings g ↔ n ∈ g.pel.map Pending.index := by
  simp only [pendings, List.mem_filter, List.mem_range, decide_eq_true_eq, and_iff_right_iff_imp]
  intro hn
  obtain ⟨p, hp, rfl⟩ := List.mem_map.mp hn
  exact h.pending p hp

theorem pendings_sorted (g : Group) : (pendings g).Pairwise (· < ·) :=
  List.pairwise_lt_range.filter _

theorem pendings_nodup (g : Group) : (pendings g).Nodup := List.nodup_range.filter _

theorem pendings_le (g : Group) : (pendings g).length ≤ g.pel.length := by
  have hsub : pendings g ⊆ g.pel.map Pending.index := fun n hn => by
    simpa using (List.mem_filter.mp hn).2
  simpa using List.Nodup.length_le_of_subset (pendings_nodup g) hsub

/-- The group behind a drain which took over `ns` and read `fresh`. -/
structure Drained (g g' : Group) (ns fresh : List Nat) : Prop where
  delivered : g'.lastDelivered = g.lastDelivered + fresh.length
  pending : ∀ p ∈ g'.pel, p.index ∈ g.pel.map Pending.index ∧ p.index ∉ ns

theorem Drained.pendings_le {g' : Group} {batch : Nat} {fresh : List Nat} (hw : g.Sound w)
    (h : Drained g g' ((pendings g).take batch) fresh) :
    (pendings g').length ≤ (pendings g).length - batch := by
  have hsub : pendings g' ⊆ (pendings g).drop batch := by
    intro n hn
    obtain ⟨p, hp, rfl⟩ : ∃ p ∈ g'.pel, p.index = n := by
      simpa using (List.mem_filter.mp hn).2
    obtain ⟨hold, htaken⟩ := h.pending p hp
    have hmem := (mem_pendings hw).mpr hold
    rw [← List.take_append_drop batch (pendings g)] at hmem
    exact (List.mem_append.mp hmem).resolve_left htaken
  simpa using List.Nodup.length_le_of_subset (pendings_nodup g') hsub

/-- A drain which takes over all that is pending leaves nothing pending. -/
theorem Drained.pel_nil {g' : Group} {batch : Nat} {fresh : List Nat} (hw : g.Sound w)
    (h : Drained g g' ((pendings g).take batch) fresh) (hfits : g.pel.length ≤ batch) :
    g'.pel = [] := by
  rw [List.take_of_length_le (Nat.le_trans (StatusConsumer.pendings_le g) hfits)] at h
  refine List.eq_nil_iff_forall_not_mem.mpr fun p hp => ?_
  obtain ⟨hold, htaken⟩ := h.pending p hp
  exact htaken ((mem_pendings hw).mpr hold)

theorem indices_adopt {w : World} (g : Group) (ns : List Nat) :
    (g.pel.map (fun p => if p.index ∈ ns then { p with deliveredAt := w.now } else p)).map
      Pending.index = g.pel.map Pending.index := by
  rw [List.map_map]
  refine List.map_congr_left fun p _ => ?_
  simp only [Function.comp_apply]
  split <;> rfl

theorem delivered_by (pel : List Pending) : ∃ ms, ∀ p ∈ pel, p.deliveredAt ≤ ms := by
  induction pel with
  | nil => exact ⟨0, by simp⟩
  | cons p pel ih =>
    obtain ⟨ms, hms⟩ := ih
    refine ⟨max p.deliveredAt ms, List.forall_mem_cons.mpr ⟨Nat.le_max_left _ _, ?_⟩⟩
    exact fun q hq => Nat.le_trans (hms q hq) (Nat.le_max_right _ _)

/-- What is pending is taken over once it has been so for long enough. -/
theorem can_claim (h : Grouped s.world) (hk : s.clients i = .idle) (hg : s.world.group = some g) :
    (pool cfg).machine.CanReach (Mends cfg order i) s fun t =>
      t.clients i = resume true ((pendings g).take (cfg.batch i)) ∧
        t.world.stream = s.world.stream ∧ ∃ g', t.world.group = some g' ∧
          g'.lastDelivered = g.lastDelivered ∧
          g'.pel.map Pending.index = g.pel.map Pending.index := by
  obtain ⟨delivered, hdelivered⟩ := delivered_by g.pel
  let ms := cfg.claimIdleMs i + delivered
  let later : World := { s.world with now := s.world.now + ms }
  have hclaimable : Claimable later g (cfg.batch i) (cfg.claimIdleMs i)
      ((pendings g).take (cfg.batch i)) := by
    refine ⟨(pendings_sorted g).sublist (List.take_sublist _ _), List.length_take_le _ _, ?_⟩
    intro n hn
    obtain ⟨p, hp, rfl⟩ := List.mem_map.mp
      ((mem_pendings (h g hg)).mp (List.mem_of_mem_take hn))
    refine ⟨p, hp, rfl, ?_⟩
    have hle := hdelivered p hp
    simp only [later, ms]
    omega
  have htick : (pool cfg).machine.step s (.env (.tick ms)) = some ⟨later, s.clients⟩ := rfl
  have hclaim : (pool cfg).machine.step ⟨later, s.clients⟩
      (.act i (.claim ((pendings g).take (cfg.batch i)))) =
      some ⟨later.adopt g ((pendings g).take (cfg.batch i)),
        Function.update s.clients i (resume true ((pendings g).take (cfg.batch i)))⟩ := by
    have hg' : later.group = some g := hg
    simp [Pool.machine, pool, StatusConsumer.step, hk, hg', hclaimable]
  refine .step ⟨.inr ⟨_, rfl⟩, fun _ => trivial⟩ htick (.step ⟨.inl ⟨_, rfl, rfl⟩, fun _ => by
    simp [InTurn, Handles]⟩ hclaim (.here ⟨by simp, rfl, _, rfl, rfl, ?_⟩))
  exact indices_adopt g _

/-- What was pending is worked through, and the next entries of the stream are read. -/
def Read (batch : Nat) (s : State) (i : Nat) (g : Group) (t : State) : Prop :=
  t.world.stream.length = s.world.stream.length ∧ ∃ g' fresh,
    t.clients i = resume false fresh ∧ t.world.group = some g' ∧
    fresh = List.range' g.lastDelivered (min batch (s.world.stream.length - g.lastDelivered)) ∧
    g'.lastDelivered = g.lastDelivered + fresh.length ∧
    ∀ p ∈ g'.pel, p.index ∉ fresh →
      p.index ∈ g.pel.map Pending.index ∧ p.index ∉ (pendings g).take batch

/-- All that is pending comes before nothing else that waits. -/
theorem next_pendings (h : Ran cfg order s) (hg : s.world.group = some g) {batch : Nat}
    (hfits : g.pel.length ≤ batch) : Next s.world ((pendings g).take batch) := by
  have hw := h.grouped g hg
  rw [List.take_of_length_le (Nat.le_trans (pendings_le g) hfits)]
  intro n hn
  have hlt : n < g.lastDelivered := by simpa using (List.mem_filter.mp hn).1
  refine ⟨Nat.lt_of_lt_of_le hlt hw.delivered, fun m hm => ?_⟩
  by_cases hpending : m ∈ g.pel.map Pending.index
  · exact .inl ((mem_pendings hw).mpr hpending)
  · refine .inr (hw.acked m (Nat.lt_trans hm hlt) fun p hp he => ?_)
    exact hpending (List.mem_map.mpr ⟨p, hp, he⟩)

theorem read_step (hk : s.clients i = .reading) (hg : s.world.group = some g) :
    (pool cfg).machine.step s (.act i .read) = some ⟨s.world.deliver g (cfg.batch i),
      Function.update s.clients i (resume false (s.world.fresh g (cfg.batch i)))⟩ := by
  simp [Pool.machine, pool, StatusConsumer.step, hk, hg]

theorem can_read (h : Ran cfg order s) (hk : s.clients i = .idle) (hg : s.world.group = some g)
    (hfits : order → g.pel.length ≤ cfg.batch i) :
    (pool cfg).machine.CanReach (Mends cfg order i) s (Read (cfg.batch i) s i g) := by
  refine (can_claim h.grouped hk hg).trans ?_
  intro t ht
  obtain ⟨hclient, hstream, g₁, hg₁, hlast, hindices⟩ := ht
  have hnext (ho : order) : Next t.world ((pendings g).take (cfg.batch i)) := by
    have hn := next_pendings h hg (hfits ho)
    simpa only [Next, Handled, hstream] using hn
  refine (can_work hclient ((pendings_sorted g).sublist (List.take_sublist _ _)) hnext).trans ?_
  intro u hu
  obtain ⟨hreading, hworked⟩ := hu
  have hg₂ := hworked.group
  rw [hg₁, Option.map_some] at hg₂
  have hlen : u.world.stream.length = s.world.stream.length := by rw [hworked.length, hstream]
  refine .step ⟨.inl ⟨_, rfl, rfl⟩, fun _ => by simp [InTurn, Handles]⟩
    (read_step hreading hg₂) (.here ?_)
  refine ⟨hlen, _, _, Function.update_self _ _ _, rfl, ?_, ?_, ?_⟩
  · simp only [World.fresh, hlen, hlast]
  · simp only [hlast]
  · intro p hp hfresh
    rcases List.mem_append.mp hp with hp | hp
    · obtain ⟨hold, htaken⟩ := List.mem_filter.mp hp
      refine ⟨?_, by simpa using htaken⟩
      rw [← hindices]
      exact List.mem_map_of_mem hold
    · obtain ⟨n, hn, rfl⟩ := List.mem_map.mp hp
      exact absurd hn hfresh

/-- One drain leaves less to do, and where all that was pending fits in it, nothing pending. -/
theorem can_drain (h : Ran cfg order s) (hk : s.clients i = .idle) (hg : s.world.group = some g)
    (hb : 0 < cfg.batch i) (hfits : order → g.pel.length ≤ cfg.batch i) :
    (pool cfg).machine.CanReach (Mends cfg order i) s fun t => Ran cfg order t ∧
      t.clients i = .idle ∧ t.world.stream.length = s.world.stream.length ∧
      (order → ∃ g', t.world.group = some g' ∧ g'.pel = []) ∧
      (left s.world ≠ 0 → left t.world < left s.world) ∧ t.world.group ≠ none := by
  have run {u : State} {P : State → Prop} (hu : Ran cfg order u)
      (hcan : (pool cfg).machine.CanReach (Mends cfg order i) u P) :=
    hcan.keep (I := Ran cfg order) (fun _ _ _ hI ha hs => hI.step ha.2 hs) hu
  have hw := h.grouped g hg
  refine (run h (can_read h hk hg hfits)).trans ?_
  intro t ht
  obtain ⟨hran, hlen, g₁, fresh, hclient, hg₁, hfresh, hlast, hpel⟩ := ht
  have hsorted : fresh.Pairwise (· < ·) := by
    rw [hfresh]
    exact List.pairwise_lt_range'
  have hcount : fresh.length =
      min (cfg.batch i) (s.world.stream.length - g.lastDelivered) := by
    rw [hfresh, List.length_range']
  have hwithin := hran.grouped g₁ hg₁
  have hmem (n : Nat) :
      n ∈ fresh ↔ g.lastDelivered ≤ n ∧ n < g.lastDelivered + fresh.length := by
    rw [hfresh, List.mem_range'_1, List.length_range']
  have hnext (ho : order) : Next t.world fresh := by
    intro n hn
    have hlt := ((hmem n).mp hn).2
    refine ⟨Nat.lt_of_lt_of_le hlt (hlast ▸ hwithin.delivered), fun m hm => ?_⟩
    by_cases hold : m ∈ fresh
    · exact .inl hold
    · -- it was delivered before, and nothing of that is pending any longer
      refine .inr (hwithin.acked m (by omega) fun p hp he => ?_)
      obtain ⟨hpending, htaken⟩ := hpel p hp (he ▸ hold)
      rw [List.take_of_length_le (Nat.le_trans (pendings_le g) (hfits ho))] at htaken
      exact htaken ((mem_pendings hw).mpr hpending)
  refine (run hran (can_work hclient hsorted hnext)).mono ?_
  intro u hu
  obtain ⟨hran', hidle, hworked⟩ := hu
  have hg₂ := hworked.group
  rw [hg₁, Option.map_some] at hg₂
  have hdrained : Drained g { g₁ with pel := g₁.pel.filter (·.index ∉ fresh) }
      ((pendings g).take (cfg.batch i)) fresh := by
    refine ⟨hlast, fun p hp => ?_⟩
    obtain ⟨hp, hout⟩ := List.mem_filter.mp hp
    exact hpel p hp (by simpa using hout)
  refine ⟨hran', hidle, hworked.length.trans hlen, ?_, ?_, by simp [hg₂]⟩
  · intro ho
    exact ⟨_, hg₂, hdrained.pel_nil hw (hfits ho)⟩
  · intro hne
    have hless := hdrained.pendings_le hw
    have hlen' := hworked.length.trans hlen
    have hdelivered := hw.delivered
    simp only [left, hg, hg₂, hlen', hlast] at hne hless ⊢
    omega

theorem allAcked_of_left (h : Grouped w) (hz : left w = 0) : AllAcked w := by
  unfold left at hz
  split at hz
  · cases hz
  · rename_i g hg
    have hw := h g hg
    have hdelivered := hw.delivered
    have hnil : pendings g = [] := List.length_eq_zero_iff.mp (by omega)
    refine ⟨g, hg, by omega, List.eq_nil_iff_forall_not_mem.mpr fun p hp => ?_⟩
    have hmem := (mem_pendings hw).mpr (List.mem_map_of_mem hp)
    rw [hnil] at hmem
    cases hmem

/-- A consumer can die at any time. -/
theorem step_crash (w : World) (k : Consumer) :
    step cfg i w k .crash = some (w, .starting) := by
  cases k with
  | handling stale todo => cases todo <;> rfl
  | _ => rfl

/-- The group it creates has nothing pending; one that is there is left alone. -/
theorem ensureGroup_group (hg : w.ensureGroup.group = some g) : g.pel = [] ∨ w.group = some g := by
  unfold World.ensureGroup at hg
  split at hg
  · cases hg
    exact .inl rfl
  · exact .inr hg

theorem ensureGroup_ne_none : w.ensureGroup.group ≠ none := by
  cases hg : w.group <;> simp [World.ensureGroup, hg]

/-- The consumer is between two drains. -/
structure Between (cfg : Config) (order : Prop) (i length : Nat) (s : State) : Prop where
  ran : Ran cfg order s
  idle : s.clients i = .idle
  length : s.world.stream.length = length
  group : s.world.group ≠ none
  fits : order → ∀ g, s.world.group = some g → g.pel.length ≤ cfg.batch i

theorem can_finish {length : Nat} (hb : 0 < cfg.batch i) (h : Between cfg order i length s) :
    (pool cfg).machine.CanReach (Mends cfg order i) s fun t =>
      Between cfg order i length t ∧ left t.world = 0 := by
  refine Machine.CanReach.descend (fun s => left s.world) ?_ h
  intro s hs hne
  obtain ⟨g, hg⟩ := Option.ne_none_iff_exists'.mp hs.group
  refine (can_drain hs.ran hs.idle hg hb fun ho => hs.fits ho g hg).mono ?_
  intro t ht
  obtain ⟨hran, hidle, hlen, hpel, hless, hgroup⟩ := ht
  refine ⟨⟨hran, hidle, hlen.trans hs.length, hgroup, fun ho g' hg' => ?_⟩, hless hne⟩
  obtain ⟨g'', hg'', hnil⟩ := hpel ho
  obtain rfl := Option.some.inj (hg'.symm.trans hg'')
  simp [hnil]

/-- A consumer that is started again can finish. -/
theorem can_restart (h : Ran cfg order s) (hb : 0 < cfg.batch i)
    (hfits : order → ∀ g, s.world.group = some g → g.pel.length ≤ cfg.batch i) :
    ∃ bs t, (pool cfg).machine.exec s (.act i .crash :: bs) = some t ∧
      (∀ a ∈ bs, Healthy i a) ∧ Ran cfg order t ∧ AllAcked t.world ∧ Alike s.world t.world := by
  let crashed : State := ⟨s.world, Function.update s.clients i .starting⟩
  have hcrash : (pool cfg).machine.step s (.act i .crash) = some crashed := by
    simp [Pool.machine, pool, step_crash, crashed]
  let started : State := ⟨s.world.ensureGroup, Function.update crashed.clients i .idle⟩
  have hensure : (pool cfg).machine.step crashed (.act i .ensureGroup) = some started := by
    simp [Pool.machine, pool, StatusConsumer.step, crashed, started]
  have hran : Ran cfg order crashed := h.step (fun _ => by simp [InTurn, Handles]) hcrash
  have hmends : Mends cfg order i crashed (.act i .ensureGroup) :=
    ⟨.inl ⟨_, rfl, rfl⟩, fun _ => by simp [InTurn, Handles]⟩
  have hbetween : Between cfg order i s.world.stream.length started := by
    refine ⟨hran.step hmends.2 hensure, by simp [started], ?_, ensureGroup_ne_none, ?_⟩
    · rw [ensureGroup_stream]
    · intro ho g hg
      rcases ensureGroup_group hg with hnil | hg
      · simp [hnil]
      · exact hfits ho g hg
  obtain ⟨bs, t, ht, hmeets, hdone, hleft⟩ := Machine.CanReach.step hmends hensure
    (can_finish hb hbetween)
  have hhealthy : ∀ a ∈ bs, Healthy i a := by
    have hboth : (pool cfg).machine.Meets
        (fun s a => Healthy i a ∧ (order → InTurn cfg s a)) crashed bs := hmeets
    exact (meets_action ht).mp (meets_and.mp hboth).1
  exact ⟨bs, t, by rw [exec_cons, hcrash]; exact ht, hhealthy, hdone.ran,
    allAcked_of_left hdone.ran.grouped hleft, alike_of_exec (s := crashed) ht hhealthy⟩

/-- In order, and with everything acked, a video is where the stream puts it. -/
theorem Ran.settled (h : Ran cfg order s) (ho : order) (hall : AllAcked s.world) {video : Uuid}
    {row : VideoRow} (hrow : s.world.rows video = some row) (hw : video ∉ s.world.withdrawn)
    (hin : InOrder (marks (slots cfg.decode s.world.stream video))) :
    row.status = streamStatus cfg.decode s.world.stream video := by
  have hc := h.consistent ho
  exact ((hc.videos video row hrow hw).2 hin).settled
    (waiting_slots (handled_of_allAcked hc.group hall))

end

/-- Wherever a run has come to, whatever crashed on the way, one consumer can go on alone: it is
started again, and then without a failure it can work until every entry of the stream is handled
and acked. If all was handled in turn, and what is pending fits in one batch, each video
that was not withdrawn, and whose entries stand in order, has the status that the stream stands
for in the end. -/
theorem consumer_recovers {cfg : Config} {as : List Action} {s : State}
    (h : (pool cfg).machine.Reaches as s) {i : Nat} (hb : 0 < cfg.batch i) :
    ∃ bs t, (pool cfg).machine.exec s (.act i .crash :: bs) = some t ∧
      (∀ a ∈ bs, Healthy i a) ∧ (∀ n < t.world.stream.length, Handled t.world n) ∧
      AllAcked t.world ∧ Alike s.world t.world ∧
      ((pool cfg).machine.Meets (InTurn cfg) (pool cfg).machine.start as →
        (∀ g, s.world.group = some g → g.pel.length ≤ cfg.batch i) →
        ∀ video row, s.world.rows video = some row → video ∉ s.world.withdrawn →
          InOrder (marks (slots cfg.decode s.world.stream video)) →
          ∃ row', t.world.rows video = some row' ∧
            row'.status = streamStatus cfg.decode s.world.stream video) := by
  -- what pends now is in order as far as the run that led here was
  let order : Prop := (pool cfg).machine.Meets (InTurn cfg) (pool cfg).machine.start as ∧
    ∀ g, s.world.group = some g → g.pel.length ≤ cfg.batch i
  have hran : Ran cfg order s := ⟨as, h, fun ho => ho.1⟩
  obtain ⟨bs, t, ht, hhealthy, hran', hall, halike⟩ := can_restart hran hb fun ho => ho.2
  refine ⟨bs, t, ht, hhealthy, handled_of_allAcked hran'.grouped hall, hall, halike, ?_⟩
  intro hm hfits video row hrow hw hin
  obtain ⟨row', hrow'⟩ := Option.ne_none_iff_exists'.mp fun hnone => by
    simp [(halike.rows video).mp hnone] at hrow
  have hmarks : marks (slots cfg.decode t.world.stream video) =
      marks (slots cfg.decode s.world.stream video) := halike.marks video
  refine ⟨row', hrow', ?_⟩
  rw [streamStatus, ← hmarks]
  exact hran'.settled ⟨hm, hfits⟩ hall hrow' (halike.withdrawn ▸ hw) (hmarks ▸ hin)

/-- A consumer dies between the two entries of an upload. -/
def abandoned : List Action :=
  [.env (.upload Uuid.null "clip.mp4" noon []), .act 0 .ensureGroup,
    published "video_processing_started", published "video_processed"] ++ drain 0 ++ handled 0 ++
    [.act 0 .crash]

theorem abandoned_entry_is_recovered : ∃ s bs t row, (pool defaults).machine.Reaches abandoned s ∧
    (s.world.rows Uuid.null).map VideoRow.status = some .processing ∧
    (pool defaults).machine.exec s (.act 1 .crash :: bs) = some t ∧
    (∀ a ∈ bs, Healthy 1 a) ∧ (∀ n < t.world.stream.length, Handled t.world n) ∧
    t.world.rows Uuid.null = some row ∧ row.status = .done := by
  have hr : ((pool defaults).machine.exec (pool defaults).machine.start abandoned).map outcome =
      some ⟨some ⟨2, [⟨1, 0⟩]⟩, 2, some .processing, [], [.markProcessing, .markDone]⟩ := by
    decide +kernel
  obtain ⟨s, hs, ho⟩ := Machine.reaches_of_map hr
  simp only [outcome, Outcome.mk.injEq] at ho
  obtain ⟨hg, -, hstatus, hw, hm⟩ := ho
  obtain ⟨bs, t, ht, hhealthy, hall, -, -, hstatuses⟩ :=
    consumer_recovers hs (by decide : 0 < 100) (i := 1)
  obtain ⟨row, hrow, -⟩ := Option.map_eq_some_iff.mp hstatus
  have hmarks : marks (slots defaults.decode s.world.stream Uuid.null) =
      [.markProcessing, .markDone] := hm
  obtain ⟨row', hrow', heq⟩ := hstatuses (by decide +kernel)
    (fun g hgroup => by
      obtain rfl := Option.some.inj (hg.symm.trans hgroup)
      decide)
    Uuid.null row hrow (by simp [hw]) (hmarks ▸ inOrder_started)
  refine ⟨s, bs, t, row', hs, hstatus, ht, hhealthy, hall, hrow', ?_⟩
  rw [heq, streamStatus, hmarks]
  decide

end BackendTemplates.Media.StatusConsumer
