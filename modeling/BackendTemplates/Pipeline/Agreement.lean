import BackendTemplates.Pipeline.Links

namespace BackendTemplates.Pipeline
open Python Runs Media Shared

/-- A transaction that created this video has committed. -/
def Uploaded (s : State) (video : Uuid) : Prop := ∃ c ∈ s.api.world.log, c.txn.video.id = video

/-- The mark an entry of `video_status` asks for. -/
def markOf (e : Processing.Entry) : Option (Uuid × UseCase) :=
  (StatusConsumer.useCase? e.eventType).map (fun uc => (e.videoId, uc))

/-- What the parts know of each other. -/
structure Agree (cfg : Config) (s : State) : Prop where
  videos : ∀ id, s.consumers.world.rows id = (s.api.world.videos id).map Upload.Stamped.row
  outbox : ∀ id, s.relay.world.rows id = (s.api.world.outbox id).map Upload.Stamped.row
  inserting : ∀ id, s.relay.world.inserting id = none
  status : s.consumers.world.stream.map (StatusConsumer.Entry.mark? cfg.consumer.decode) =
    (Processing.stream s.workers.world.log).map markOf
  known : Processing.Known (Uploaded s) s.workers.world
  knows : ∀ i, Processing.Knows (Uploaded s) (s.workers.clients i)

/-- What the runs of the parts guarantee on their own. -/
structure Facts (cfg : Config) (s : State) : Prop where
  booked : Upload.Booked cfg.upload s.api.world
  calls : ∀ i, Upload.Holds cfg.upload i s.api.world (s.api.clients i)
  new : Upload.AllNew s.api.world
  fresh : ∀ i, Upload.Fresh (s.api.clients i)
  ledger : OutboxRelay.Ledger s.relay.world
  drains : ∀ i, OutboxRelay.Consistent i s.relay.world (s.relay.clients i)

theorem facts {cfg : Config} {as : List Action} {s : State} (h : (machine cfg).Reaches as s) :
    Facts cfg s := by
  obtain ⟨bs, hb⟩ := (apiView cfg).reaches h
  obtain ⟨cs, hc⟩ := (relayView cfg).reaches h
  obtain ⟨hbooked, hcalls⟩ := Upload.good hb
  obtain ⟨hnew, hfresh⟩ := Upload.new_rows hb
  obtain ⟨hledger, hdrains⟩ := OutboxRelay.good hc
  exact ⟨hbooked, hcalls, hnew, hfresh, hledger, hdrains⟩

section
variable {cfg : Config} {s t : State}

/-- An entry of `video_status` is about a video that was uploaded. -/
theorem Agree.marked (ha : Agree cfg s) {e : StatusConsumer.Entry} {id : Uuid} {uc : UseCase}
    (he : e ∈ s.consumers.world.stream) (hm : e.mark? cfg.consumer.decode = some (id, uc)) :
    Uploaded s id := by
  have hmem : some (id, uc) ∈ (Processing.stream s.workers.world.log).map markOf := by
    rw [← ha.status, ← hm]
    exact List.mem_map_of_mem he
  obtain ⟨entry, hentry, hmark⟩ := List.mem_map.mp hmem
  obtain ⟨ev, hev, hsome⟩ := List.mem_filterMap.mp hentry
  obtain ⟨_, -, heq⟩ := Option.map_eq_some_iff.mp hmark
  have hvideo : ev.video = id := by
    cases ev <;> cases hsome <;> exact congrArg Prod.fst heq
  exact hvideo ▸ ha.known.log ev hev

/-- A call that is about to commit has used its ids for nothing yet. -/
theorem commit_links (hf : Facts cfg s) (ha : Agree cfg s) {i : Nat} {txn : Upload.Txn}
    (hk : s.api.clients i = .adding txn []) :
    ∃ o e, txn.added = [(o, Upload.VideoUploadedIntegration.row e)] ∧ e.videoId = txn.video.id ∧
      txn.saved = some (Upload.newRow txn.video) ∧
      cfg.relay.exec s.relay (inserts (Upload.entry i s.api.world txn)) =
        some ⟨insertRow s.relay.world o e.row, s.relay.clients⟩ ∧
      cfg.consumers.exec s.consumers (uploads (Upload.entry i s.api.world txn)) =
        some ⟨insertVideo s.consumers.world txn.video.id (Upload.newRow txn.video),
          s.consumers.clients⟩ := by
  have hcall := hf.calls i
  have hfresh := hf.fresh i
  rw [hk] at hcall hfresh
  obtain ⟨hu, -, hclaim, hstage, -⟩ := hcall
  have hvideo := (hf.booked.drawn_unused hu hclaim.drawn).1
  rcases hstage with ⟨-, e, he, -⟩ | ⟨-, o, e, hadded, hid, hdrawn⟩
  · cases he
  · have hrow := (hf.booked.drawn_unused hu hdrawn).2
    refine ⟨o, e, hadded, hid, hfresh.1, ?_, ?_⟩
    · exact exec_inserts hadded (by simp [ha.outbox, hrow]) (ha.inserting o) rfl
    · refine exec_uploads hfresh.1 (by simp [ha.videos, Upload.entry, hvideo]) fun x hx hm => ?_
      obtain ⟨⟨id, uc⟩, hmark, hfst⟩ := Option.map_eq_some_iff.mp hm
      simp only [Upload.entry] at hfst
      subst hfst
      obtain ⟨c, hc, heq⟩ := ha.marked hx hmark
      have hd := (hf.booked.drawn c hc).1
      rw [heq, hclaim.drawn] at hd
      exact hu c hc (Option.some.inj hd).symm

/-- A step of the API leaves the shared tables alone, or commits an upload. -/
theorem api_cases {a : Upload.Action} {api : Upload.State} (own : apiOwn a = true)
    (h : cfg.api.step s.api a = some api) :
    (api.world.videos = s.api.world.videos ∧ api.world.outbox = s.api.world.outbox ∧
      api.world.log = s.api.world.log) ∨
    ∃ i txn, s.api.clients i = .adding txn [] ∧ api.world = s.api.world.commit i txn := by
  cases a with
  | act i a =>
    obtain ⟨w, k, hw, rfl⟩ := Pool.act_step.mp h
    rcases Upload.step_tables hw with hsame | ⟨txn, hk, rfl⟩
    · exact .inl hsame
    · exact .inr ⟨i, txn, hk, rfl⟩
  | env e =>
    obtain ⟨w, hw, rfl⟩ := Pool.env_step.mp h
    cases e with
    | tick now =>
      simp only [Upload.pool, Upload.env] at hw
      split at hw <;> cases hw
      exact .inl ⟨rfl, rfl, rfl⟩
    | purge =>
      cases hw
      exact .inl ⟨rfl, rfl, rfl⟩
    | rewrite id row => cases own
    | markSent id at_ => cases own

theorem commit_outbox {w : Upload.World} {i : Nat} {txn : Upload.Txn} {o : Uuid}
    {row : OutboxRelay.OutboxRow} (h : txn.added = [(o, row)]) :
    (w.commit i txn).outbox = Function.update w.outbox o (some ⟨row, i⟩) := by
  simp [Upload.World.commit, Upload.World.insertOutbox, h]

theorem commit_videos {w : Upload.World} {i : Nat} {txn : Upload.Txn} {row : VideoRow}
    (h : txn.saved = some row) :
    (w.commit i txn).videos = Function.update w.videos txn.video.id (some ⟨row, i⟩) := by
  simp [Upload.World.commit, Upload.World.insertVideo, h]

theorem map_update {α β : Type} (f : α → β) (m : Uuid → Option α) (id x : Uuid) (a : α) :
    (Function.update m id (some a) x).map f =
      Function.update (fun x => (m x).map f) id (some (f a)) x := by
  by_cases hx : x = id
  · subst hx
    simp
  · simp [hx]

/-- The same uploads, seen after more of them. -/
theorem Uploaded.grow (h : ∀ c ∈ s.api.world.log, c ∈ t.api.world.log) {video : Uuid}
    (hu : Uploaded s video) : Uploaded t video := by
  obtain ⟨c, hc, he⟩ := hu
  exact ⟨c, h c hc, he⟩

theorem committed_nil {w w' : Upload.World} (h : w'.log = w.log) : committed w w' = [] := by
  simp [committed, h]

theorem committed_commit (w : Upload.World) (i : Nat) (txn : Upload.Txn) :
    committed w (w.commit i txn) = [Upload.entry i w txn] := by
  simp [committed, Upload.commit_log]

theorem Agree.api (ha : Agree cfg s) (hf : Facts cfg s) {a : Upload.Action} {api : Upload.State}
    {relay : OutboxRelay.State} {consumers : StatusConsumer.State} (own : apiOwn a = true)
    (stepped : cfg.api.step s.api a = some api)
    (inserted : cfg.relay.exec s.relay
      ((committed s.api.world api.world).flatMap inserts) = some relay)
    (uploaded : cfg.consumers.exec s.consumers
      ((committed s.api.world api.world).flatMap uploads) = some consumers) :
    Agree cfg ⟨api, relay, s.workers, consumers⟩ := by
  rcases api_cases own stepped with ⟨hv, ho, hl⟩ | ⟨i, txn, hk, hw⟩
  · rw [committed_nil hl] at inserted uploaded
    cases inserted
    cases uploaded
    have hgrow {video : Uuid} (hu : Uploaded s video) :
        Uploaded ⟨api, s.relay, s.workers, s.consumers⟩ video := hu.grow (by simp [hl])
    exact ⟨by simpa only [hv] using ha.videos, by simpa only [ho] using ha.outbox, ha.inserting,
      ha.status, ha.known.mono fun _ => hgrow, fun i => (ha.knows i).mono fun _ => hgrow⟩
  · obtain ⟨o, e, hadded, -, hsaved, hins, hup⟩ := commit_links hf ha hk
    rw [hw, committed_commit, List.flatMap_singleton] at inserted uploaded
    obtain rfl := Option.some.inj (hins.symm.trans inserted)
    obtain rfl := Option.some.inj (hup.symm.trans uploaded)
    have hgrow {video : Uuid} (hu : Uploaded s video) : Uploaded ⟨api,
        ⟨insertRow s.relay.world o e.row, s.relay.clients⟩, s.workers,
        ⟨insertVideo s.consumers.world txn.video.id (Upload.newRow txn.video),
          s.consumers.clients⟩⟩ video :=
      hu.grow (by
        intro c hc
        rw [hw]
        exact Upload.mem_commit_log.mpr (.inl hc))
    refine ⟨fun id => ?_, fun id => ?_, fun id => ?_, ha.status, ha.known.mono fun _ => hgrow,
      fun i => (ha.knows i).mono fun _ => hgrow⟩
    · rw [hw, commit_videos hsaved, map_update]
      simp only [insertVideo, funext ha.videos]
    · rw [hw, commit_outbox hadded, map_update]
      simp only [insertRow, funext ha.outbox]
    · by_cases hx : id = o
      · simp [insertRow, hx]
      · simpa [insertRow, hx] using ha.inserting id

theorem Agree.relay (ha : Agree cfg s) (hf : Facts cfg s) {i : Nat} {a : OutboxRelay.Act}
    {relay : OutboxRelay.State} (stepped : cfg.relay.step s.relay (.act i a) = some relay) :
    ∃ outbox, cfg.api.exec s.api (marksSent (s.relay.clients i) a) =
        some ⟨{ s.api.world with outbox := outbox }, s.api.clients⟩ ∧
      Agree cfg ⟨⟨{ s.api.world with outbox := outbox }, s.api.clients⟩, relay, s.workers,
        s.consumers⟩ := by
  obtain ⟨w, k, hw, rfl⟩ := Pool.act_step.mp stepped
  obtain ⟨hins, ⟨hmarks, hrows⟩ | ⟨rs, at_, hk, rfl, rfl⟩⟩ := relay_rows hw
  · refine ⟨s.api.world.outbox, by rw [hmarks]; rfl, ha.videos, ?_, ?_, ha.status, ha.known,
      ha.knows⟩
    · simpa only [hrows] using ha.outbox
    · simpa only [hins] using ha.inserting
  · have hdrain := hf.drains i
    rw [hk] at hdrain
    have hthere : ∀ id ∈ OutboxRelay.ids rs, s.api.world.outbox id ≠ none := by
      intro id hid hn
      obtain ⟨row, hrow, -⟩ := hdrain.unsent_of_mem (by simpa using hid)
      rw [ha.outbox, hn] at hrow
      cases hrow
    have hexec := @exec_marksSent cfg _ (OutboxRelay.ids rs) at_ hthere
    refine ⟨(markAll s.api.world (OutboxRelay.ids rs) at_).outbox, by rw [hk]; exact hexec,
      ha.videos, fun id => ?_, ha.inserting, ha.status, ha.known, ha.knows⟩
    simp only [OutboxRelay.World.commit, markAll, ha.outbox]
    split
    · simp only [Option.map_map]
      rfl
    · rfl

/-- What a worker may publish next is about an upload. -/
theorem delivered_uploaded (hc : Contract cfg) (hf : Facts cfg s) (ha : Agree cfg s) {n : Nat}
    {e : UploadedEvent} (h : delivered cfg s n = some e) : Uploaded s e.videoId := by
  obtain ⟨entry, hentry, hdecode⟩ := Option.bind_eq_some_iff.mp h
  obtain ⟨r, ⟨row, hrow, -, hpayload⟩, rfl⟩ := hf.ledger.known entry (List.mem_of_getElem? hentry)
  rw [ha.outbox] at hrow
  obtain ⟨stamped, hstamped, rfl⟩ := Option.map_eq_some_iff.mp hrow
  obtain ⟨c, hcm, ⟨ev, -, hid, -, hpl⟩, -⟩ := hf.booked.outbox _ _ hstamped
  change cfg.decodeUploaded r.payload = some e at hdecode
  rw [← hpayload, hpl, hc.uploaded, Option.some.injEq] at hdecode
  subst hdecode
  exact ⟨c, hcm, hid.symm⟩

theorem Agree.received (ha : Agree cfg s) (hc : Contract cfg) (hf : Facts cfg s) {i n : Nat}
    {e : UploadedEvent} {workers : Processing.State} (decoded : delivered cfg s n = some e)
    (stepped : cfg.workers.step s.workers (.act i (.receive e.videoId e.eventId)) =
      some workers) : Agree cfg ⟨s.api, s.relay, workers, s.consumers⟩ := by
  have hlog : workers.world.log = s.workers.world.log := by
    obtain ⟨w, k, hw, rfl⟩ := Pool.act_step.mp stepped
    rw [receive_world hw]
  have hknown := Processing.machine_known ⟨ha.known, ha.knows⟩ (fun j v ev hb => by
    cases hb
    exact delivered_uploaded hc hf ha decoded) stepped
  exact ⟨ha.videos, ha.outbox, ha.inserting, by simpa only [hlog] using ha.status, hknown.1,
    hknown.2⟩

theorem worker_log {a : Processing.Action} {workers : Processing.State}
    (h : cfg.workers.step s.workers a = some workers) :
    ∃ es, workers.world.log = s.workers.world.log ++ es := by
  cases a with
  | act i a =>
    obtain ⟨w, k, hw, rfl⟩ := Pool.act_step.mp h
    exact (Processing.step_effect hw).log_grows
  | env ms =>
    obtain ⟨w, hw, rfl⟩ := Pool.env_step.mp h
    cases hw
    exact ⟨[], by simp⟩

theorem Agree.worker (ha : Agree cfg s) (hc : Contract cfg) {a : Processing.Action}
    {event : Uuid} {at_ : Datetime} {workers : Processing.State} {consumers : StatusConsumer.State}
    (own : workerOwn a = true) (stepped : cfg.workers.step s.workers a = some workers)
    (announced : cfg.consumers.exec s.consumers
      (announcements event at_ (published s.workers.world workers.world)) = some consumers) :
    Agree cfg ⟨s.api, s.relay, workers, consumers⟩ := by
  rw [exec_announcements] at announced
  cases announced
  have hknown := Processing.machine_known ⟨ha.known, ha.knows⟩ (fun j v ev hb => by
    subst hb
    cases own) stepped
  obtain ⟨es, hes⟩ := worker_log stepped
  refine ⟨ha.videos, ha.outbox, ha.inserting, ?_, hknown.1, hknown.2⟩
  have hpub : published s.workers.world workers.world = Processing.stream es := by
    simp [published, hes]
  simp only [hpub, hes, Processing.stream, List.map_append, List.filterMap_append, List.map_map]
  rw [ha.status]
  congr 1
  apply List.map_congr_left
  intro e _
  simp [StatusConsumer.Entry.mark?, hc.status, markOf]

theorem Agree.consumer (ha : Agree cfg s) {a : StatusConsumer.Action}
    {consumers : StatusConsumer.State} (own : consumerOwn a = true)
    (stepped : cfg.consumers.step s.consumers a = some consumers) :
    ∃ videos, cfg.api.exec s.api (rewrites cfg.consumer s.consumers consumers a) =
        some ⟨{ s.api.world with videos := videos }, s.api.clients⟩ ∧
      Agree cfg ⟨⟨{ s.api.world with videos := videos }, s.api.clients⟩, s.relay, s.workers,
        consumers⟩ := by
  obtain ⟨hmarks, hrows⟩ := own_rows own stepped
  have hthere : ∀ id, consumers.world.rows id ≠ none → s.api.world.videos id ≠ none := by
    intro id hr hn
    have hnone : s.consumers.world.rows id = none := by simp [ha.videos, hn]
    rcases hrows id with h | ⟨-, row, -, h, -⟩
    · exact hr (h.trans hnone)
    · rw [hnone] at h
      cases h
  have hexec := @exec_rewrites cfg _ (touched cfg.consumer s.consumers a)
    consumers.world.rows hthere
  refine ⟨(rewriteAll s.api.world (touched cfg.consumer s.consumers a)
    consumers.world.rows).videos, hexec, fun id => ?_, ha.outbox, ha.inserting, ?_, ha.known,
    ha.knows⟩
  · simp only [rewriteAll]
    rcases hrows id with h | ⟨hid, row, row', h, h', -⟩
    · rw [h]
      have hv := ha.videos id
      cases hr : s.api.world.videos id with
      | none => simp [hv, hr]
      | some r =>
        simp only [hr, Option.map_some] at hv
        simp only [hv, Option.map_some]
        split <;> rfl
    · have hv := ha.videos id
      rw [h] at hv
      obtain ⟨r, hr, -⟩ := Option.map_eq_some_iff.mp hv.symm
      simp [h', hid, hr]
  · rw [hmarks]
    exact ha.status

theorem agree (hc : Contract cfg) {as : List Action} (h : (machine cfg).Reaches as s) :
    Agree cfg s := by
  refine Machine.Reaches.induct (P := fun _ s => Agree cfg s) ?_ ?_ h
  · refine ⟨fun _ => rfl, fun _ => rfl, fun _ => rfl, rfl, ⟨?_, ?_⟩, fun i => Processing.knows_idle⟩
    · intro job hj
      cases hj
    · intro e he
      cases he
  · intro as s a t hr ha hs
    have hf := facts hr
    cases moves_iff.mp hs with
    | api own stepped inserted uploaded => exact ha.api hf own stepped inserted uploaded
    | relay stepped marked =>
      obtain ⟨outbox, hexec, hagree⟩ := ha.relay hf stepped
      obtain rfl := Option.some.inj (hexec.symm.trans marked)
      exact hagree
    | dropped malformed => exact ha
    | received decoded stepped => exact ha.received hc hf decoded stepped
    | worker own stepped announced => exact ha.worker hc own stepped announced
    | consumer own stepped rewritten =>
      obtain ⟨videos, hexec, hagree⟩ := ha.consumer own stepped
      obtain rfl := Option.some.inj (hexec.symm.trans rewritten)
      exact hagree

theorem step_api (ha : Agree cfg s) (hf : Facts cfg s) {a : Upload.Action}
    (own : apiOwn a = true) : (step cfg s (.api a)).map State.api = cfg.api.step s.api a := by
  cases hstep : cfg.api.step s.api a with
  | none => simp [step, own, hstep]
  | some api =>
    have hlinks : ∃ relay consumers,
        cfg.relay.exec s.relay ((committed s.api.world api.world).flatMap inserts) =
          some relay ∧
        cfg.consumers.exec s.consumers ((committed s.api.world api.world).flatMap uploads) =
          some consumers := by
      rcases api_cases own hstep with ⟨-, -, hl⟩ | ⟨i, txn, hk, hw⟩
      · rw [committed_nil hl]
        exact ⟨_, _, rfl, rfl⟩
      · obtain ⟨o, e, -, -, -, hins, hup⟩ := commit_links hf ha hk
        rw [hw, committed_commit, List.flatMap_singleton, List.flatMap_singleton]
        exact ⟨_, _, hins, hup⟩
    obtain ⟨relay, consumers, hins, hup⟩ := hlinks
    rw [moves_iff.mpr (.api own hstep hins hup)]
    rfl

theorem step_relay (ha : Agree cfg s) (hf : Facts cfg s) (i : Nat) (a : OutboxRelay.Act) :
    (step cfg s (.relay i a)).map State.relay = cfg.relay.step s.relay (.act i a) := by
  cases hstep : cfg.relay.step s.relay (.act i a) with
  | none => simp [step, hstep]
  | some relay =>
    obtain ⟨outbox, hexec, -⟩ := ha.relay hf hstep
    rw [moves_iff.mpr (.relay hstep hexec)]
    rfl

theorem step_worker {a : Processing.Action} (event : Uuid) (at_ : Datetime)
    (own : workerOwn a = true) :
    (step cfg s (.worker a event at_)).map State.workers = cfg.workers.step s.workers a := by
  cases hstep : cfg.workers.step s.workers a with
  | none => simp [step, own, hstep]
  | some workers =>
    rw [moves_iff.mpr (.worker own hstep (exec_announcements event at_ _))]
    rfl

theorem step_consumer (ha : Agree cfg s) {a : StatusConsumer.Action} (own : consumerOwn a = true) :
    (step cfg s (.consumer a)).map State.consumers = cfg.consumers.step s.consumers a := by
  cases hstep : cfg.consumers.step s.consumers a with
  | none => simp [step, own, hstep]
  | some consumers =>
    obtain ⟨videos, hexec, -⟩ := ha.consumer own hstep
    rw [moves_iff.mpr (.consumer own hstep hexec)]
    rfl

/-- In every run the parts see one database, and a part can do in the system exactly what it
can do on its own: no write of another part ever stands in its way. -/
theorem parts_agree (hc : Contract cfg) {as : List Action} (h : (machine cfg).Reaches as s) :
    (∀ id, s.consumers.world.rows id = (s.api.world.videos id).map Upload.Stamped.row) ∧
    (∀ id, s.relay.world.rows id = (s.api.world.outbox id).map Upload.Stamped.row) ∧
    (∀ a, apiOwn a = true → (step cfg s (.api a)).map State.api = cfg.api.step s.api a) ∧
    (∀ i a, (step cfg s (.relay i a)).map State.relay = cfg.relay.step s.relay (.act i a)) ∧
    (∀ a event at_, workerOwn a = true →
      (step cfg s (.worker a event at_)).map State.workers = cfg.workers.step s.workers a) ∧
    ∀ a, consumerOwn a = true →
      (step cfg s (.consumer a)).map State.consumers = cfg.consumers.step s.consumers a := by
  have ha := agree hc h
  have hf := facts h
  exact ⟨ha.videos, ha.outbox, fun _ => step_api ha hf, step_relay ha hf,
    fun _ event at_ => step_worker event at_, fun _ => step_consumer ha⟩

end

theorem upload_seen_by_all : ∃ s r, (machine defaults).Reaches oneUpload s ∧
    s.api.world.videos clip = some r ∧ s.consumers.world.rows clip = some r.row ∧
    ∀ a, apiOwn a = true →
      (step defaults s (.api a)).map State.api = defaults.api.step s.api a := by
  obtain ⟨s, r, hs, hv, -⟩ := one_upload
  have h := parts_agree defaults_contract hs
  exact ⟨s, r, hs, hv, by simp [h.1, hv], h.2.2.1⟩

end BackendTemplates.Pipeline
