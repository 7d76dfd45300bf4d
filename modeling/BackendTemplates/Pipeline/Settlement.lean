import BackendTemplates.Pipeline.EndToEnd

namespace BackendTemplates.Pipeline
open Python Runs Media Shared

/-- The mark an event of the workers asks for, if it is about this video. -/
def reportOf (video : Uuid) : Processing.Event → Option UseCase
  | .started _ v => if v = video then some .markProcessing else none
  | .processed _ v _ => if v = video then some .markDone else none
  | .failed _ v => if v = video then some .markFailed else none
  | _ => none

/-- What the workers have announced about a video, in order. -/
def reported (log : List Processing.Event) (video : Uuid) : List UseCase :=
  log.filterMap (reportOf video)

/-- The first announcement that settles a video settles it. -/
def outcome (reports : List UseCase) : VideoStatus :=
  match reports.find? settles with
  | some uc => uc.target
  | none => if .markProcessing ∈ reports then .processing else .pending

/-- Joins complete after the start was announced, and consumers keep to the order. -/
def Orderly (cfg : Config) (s : State) : Action → Prop
  | .worker a _ _ => Processing.AfterStart s.workers a
  | .consumer a => StatusConsumer.InTurn cfg.consumer s.consumers a
  | _ => True

instance (cfg : Config) (s : State) (a : Action) : Decidable (Orderly cfg s a) := by
  unfold Orderly
  split <;> infer_instance

section
variable {cfg : Config} {as : List Action} {s : State}

theorem reportOf_eq (video : Uuid) (e : Processing.Event) :
    reportOf video e = (e.entry?.bind markOf).bind
      (fun m => if m.1 = video then some m.2 else none) := by
  cases e <;> simp [reportOf, Processing.Event.entry?, markOf_started, markOf_processed,
    markOf_failed]

/-- The consumers' stream says of a video what the workers announced. -/
theorem Agree.marks_eq (ha : Agree cfg s) (video : Uuid) :
    marks (StatusConsumer.slots cfg.consumer.decode s.consumers.world.stream video) =
      reported s.workers.world.log video := by
  let pick (m : Option (Uuid × UseCase)) : Option UseCase :=
    m.bind (fun m => if m.1 = video then some m.2 else none)
  have hleft : marks (StatusConsumer.slots cfg.consumer.decode s.consumers.world.stream video) =
      (s.consumers.world.stream.map (StatusConsumer.Entry.mark? cfg.consumer.decode)).filterMap
        pick := by
    rw [Media.marks, StatusConsumer.slots, List.map_filterMap, List.filterMap_map]
    apply List.filterMap_congr
    intro e _
    unfold StatusConsumer.Entry.slot?
    simp only [Function.comp_apply, pick]
    cases e.mark? cfg.consumer.decode with
    | none => rfl
    | some m =>
      obtain ⟨id, uc⟩ := m
      by_cases hv : id = video <;> simp [hv]
  rw [hleft, ha.status, List.filterMap_map, Processing.stream, List.filterMap_filterMap]
  apply List.filterMap_congr
  intro e _
  rw [reportOf_eq]
  cases e.entry? <;> rfl

/-- No completion is announced ahead of the start. -/
theorem started_first {log : List Processing.Event} (video : Uuid)
    (h : Justified Processing.StartedBefore log) (pre post : List UseCase)
    (he : reported log video = pre ++ .markDone :: post) : .markProcessing ∈ pre := by
  have hj : Justified (fun (uc : UseCase) pre => uc = .markDone → .markProcessing ∈ pre)
      (reported log video) := by
    refine h.filterMap fun e uc pre he hneed huc => ?_
    subst huc
    cases e with
    | processed i v kind =>
      by_cases hv : v = video
      · subst hv
        obtain ⟨x, hx, hent⟩ := List.mem_filterMap.mp hneed
        refine List.mem_filterMap.mpr ⟨x, hx, ?_⟩
        rw [reportOf_eq, hent]
        simp [markOf_started]
      · simp [reportOf, hv] at he
    | started i v => by_cases hv : v = video <;> simp [reportOf, hv] at he
    | failed i v => by_cases hv : v = video <;> simp [reportOf, hv] at he
    | _ => cases he
  exact hj pre _ post he rfl

theorem replay_outcome {reports : List UseCase}
    (h : ∀ pre post, reports = pre ++ .markDone :: post → .markProcessing ∈ pre) :
    replay .pending reports = outcome reports := by
  have ho : InOrder reports := fun pre post he => .inl (h pre post he)
  unfold outcome
  by_cases hs : .markProcessing ∈ reports
  · rw [replay_pending_started ho hs]
    cases reports.find? settles <;> simp [hs]
  · rw [replay_pending_unstarted hs]
    cases hf : reports.find? settles with
    | none =>
      have hn : .markFailed ∉ reports :=
        fun hm => absurd rfl (List.find?_eq_none.mp hf _ hm)
      simp [hs, hn]
    | some uc =>
      rcases settles_of_find hf with rfl | rfl
      · obtain ⟨pre, post, he⟩ := List.append_of_mem (List.mem_of_find?_eq_some hf)
        exact absurd (he ▸ List.mem_append_left _ (h pre post he)) hs
      · simp [List.mem_of_find?_eq_some hf, UseCase.target]

theorem meets_worker (h : (machine cfg).Reaches as s)
    (hm : (machine cfg).Meets (Orderly cfg) (machine cfg).start as) :
    Justified Processing.StartedBefore s.workers.world.log := by
  have hmeets : ∃ bs, cfg.workers.Reaches bs s.workers ∧
      cfg.workers.Meets Processing.AfterStart cfg.workers.start bs := by
    refine (workersView cfg).reaches_meeting (I := fun _ => True) trivial
      (fun _ _ _ _ _ _ => trivial) (fun s a t _ hok hs => ?_) h hm
    cases moves_iff.mp hs with
    | received decoded stepped => exact ⟨_, exec_one stepped, trivial, fun _ _ => trivial⟩
    | worker own stepped announced => exact ⟨_, exec_one stepped, hok, fun _ _ => trivial⟩
    | _ => exact ⟨[], rfl, trivial⟩
  obtain ⟨bs, hb, hbm⟩ := hmeets
  exact Processing.ordered hb hbm

theorem meets_consumers (h : (machine cfg).Reaches as s)
    (hm : (machine cfg).Meets (Orderly cfg) (machine cfg).start as) :
    StatusConsumer.Consistent cfg.consumer s.consumers.world := by
  have links {bs : List StatusConsumer.Action} {u : StatusConsumer.State}
      (hb : ∀ b ∈ bs, ∃ e, b = .env e) :
      cfg.consumers.Meets (StatusConsumer.InTurn cfg.consumer) u bs :=
    meets_of_forall fun b hm v => by
      obtain ⟨e, rfl⟩ := hb b hm
      trivial
  have hmeets : ∃ bs, cfg.consumers.Reaches bs s.consumers ∧
      cfg.consumers.Meets (StatusConsumer.InTurn cfg.consumer) cfg.consumers.start bs := by
    refine (consumersView cfg).reaches_meeting (I := fun _ => True) trivial
      (fun _ _ _ _ _ _ => trivial) (fun s a t _ hok hs => ?_) h hm
    cases moves_iff.mp hs with
    | api own stepped inserted uploaded =>
      refine ⟨_, uploaded, links fun b hb => ?_⟩
      obtain ⟨c, -, hc⟩ := List.mem_flatMap.mp hb
      unfold uploads at hc
      split at hc
      · cases hc
      · exact ⟨_, List.mem_singleton.mp hc⟩
    | worker own stepped announced =>
      refine ⟨_, announced, links fun b hb => ?_⟩
      obtain ⟨e, -, rfl⟩ := List.mem_map.mp hb
      exact ⟨_, rfl⟩
    | consumer own stepped rewritten => exact ⟨_, exec_one stepped, hok, fun _ _ => trivial⟩
    | _ => exact ⟨[], rfl, trivial⟩
  obtain ⟨bs, hb, hbm⟩ := hmeets
  exact StatusConsumer.consistent hb hbm

/-- Once the consumers have acked everything, each video that was not withdrawn stands where
the workers' first settling announcement puts it: DONE after a completion, FAILED after a
failure, and until then at work or pending. -/
theorem pipeline_settles (hc : Contract cfg) (h : (machine cfg).Reaches as s)
    (hm : (machine cfg).Meets (Orderly cfg) (machine cfg).start as)
    (hall : StatusConsumer.AllAcked s.consumers.world) {id : Uuid}
    {r : Upload.Stamped VideoRow} (hr : s.api.world.videos id = some r)
    (hw : id ∉ s.consumers.world.withdrawn) :
    r.row.status = outcome (reported s.workers.world.log id) := by
  have ha := agree hc h
  have hfirst := started_first id (meets_worker h hm)
  have hcons := meets_consumers h hm
  have hrow : s.consumers.world.rows id = some r.row := by simp [ha.videos, hr]
  have hmarks := ha.marks_eq id
  obtain ⟨g, hg, hlast, hpel⟩ := hall
  have ho : InOrder
      (marks (StatusConsumer.slots cfg.consumer.decode s.consumers.world.stream id)) := by
    rw [hmarks]
    exact fun pre post he => .inl (hfirst pre post he)
  have hsettled : r.row.status = replay .pending
      (marks (StatusConsumer.slots cfg.consumer.decode s.consumers.world.stream id)) := by
    apply ((hcons.videos id r.row hrow hw).2 ho).settled
    apply StatusConsumer.waiting_slots
    intro n hn
    exact (hcons.group g hg).acked n (hlast ▸ hn) (by simp [hpel])
  rw [hsettled, hmarks, replay_outcome hfirst]

end

theorem clip_settles : ∃ s, (machine defaults).Reaches oneUpload s ∧
    outcome (reported s.workers.world.log clip) = .done := by
  obtain ⟨s, r, hs, hv, hd, -, hlen, hgroup, hw⟩ := one_upload
  have hm : (machine defaults).Meets (Orderly defaults) (machine defaults).start oneUpload := by
    decide +kernel
  have h := pipeline_settles defaults_contract hs hm ⟨_, hgroup, by simp [hlen], rfl⟩ hv
    (by simp [hw])
  exact ⟨s, hs, h.symm.trans hd⟩

end BackendTemplates.Pipeline
