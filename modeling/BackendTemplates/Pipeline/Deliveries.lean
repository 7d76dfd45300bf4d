import BackendTemplates.Pipeline.Agreement

namespace BackendTemplates.Pipeline
open Python Runs Media Shared

/-- Where an entry of `video_uploaded` comes from. -/
structure Origin (s : State) (x : OutboxRelay.Entry) (o : Uuid) (c : Upload.Commit) : Prop where
  commit : c ∈ s.api.world.log
  field : x.eventId = o.str
  outbox : ∃ r, s.api.world.outbox o = some r ∧ r.xmin = c.call
  added : ∃ e : Upload.VideoUploadedIntegration, c.txn.added = [(o, e.row)] ∧ e.eventId = o ∧
    e.videoId = c.txn.video.id ∧ x.payload = e.payload

section
variable {cfg : Config} {s : State}

theorem payload_eventId {e e' : Upload.VideoUploadedIntegration} (h : e.payload = e'.payload) :
    e.eventId = e'.eventId := by
  have hj := Json.text_injective (utf8_injective h)
  simp only [Upload.VideoUploadedIntegration.json, Json.obj.injEq, List.cons.injEq, Prod.mk.injEq,
    Json.str.injEq, true_and] at hj
  exact Uuid.str_injective hj.1

/-- A commit has filed its one event under the event's own id. -/
theorem added_filed (hf : Facts cfg s) {c : Upload.Commit} (hc : c ∈ s.api.world.log) {o : Uuid}
    {row : OutboxRelay.OutboxRow} (ha : c.Added o row) :
    ∃ e : Upload.VideoUploadedIntegration, c.txn.added = [(o, e.row)] ∧ e.eventId = o ∧
      e.videoId = c.txn.video.id ∧ row.payload = e.payload := by
  obtain ⟨e, hadded, hid, -, hp⟩ := ha
  obtain ⟨e', hrow, hfiled⟩ := (hf.new c hc).2 (o, e.row) (by simp [hadded])
  have hpayload : e.row.payload = e'.row.payload := congrArg OutboxRelay.OutboxRow.payload hrow
  rw [e.row_payload, e'.row_payload] at hpayload
  exact ⟨e, hadded, (payload_eventId hpayload).trans hfiled, hid, hp⟩

theorem entry_origin (hf : Facts cfg s) (ha : Agree cfg s) {x : OutboxRelay.Entry}
    (hx : x ∈ s.relay.world.stream) : ∃ o c, Origin s x o c := by
  obtain ⟨r, ⟨row, hrow, -, hpayload⟩, rfl⟩ := hf.ledger.known x hx
  rw [ha.outbox] at hrow
  obtain ⟨stamped, hstamped, rfl⟩ := Option.map_eq_some_iff.mp hrow
  obtain ⟨c, hcm, hadded, hcall⟩ := hf.booked.outbox _ _ hstamped
  obtain ⟨e, he, hfiled, hid, hp⟩ := added_filed hf hcm hadded
  exact ⟨r.id, c, hcm, rfl, ⟨stamped, hstamped, hcall.symm⟩, e, he, hfiled, hid,
    hpayload.symm.trans hp⟩

theorem Origin.decoded (hc : Contract cfg) {x : OutboxRelay.Entry} {o : Uuid} {c : Upload.Commit}
    (h : Origin s x o c) : cfg.decodeUploaded x.payload = some ⟨o, c.txn.video.id⟩ := by
  obtain ⟨e, -, hfiled, hid, hp⟩ := h.added
  rw [hp, hc.uploaded, hfiled, hid]

theorem delivered_origin (hc : Contract cfg) (hf : Facts cfg s) (ha : Agree cfg s) {n : Nat}
    {e : UploadedEvent} (h : delivered cfg s n = some e) :
    ∃ x c, s.relay.world.stream[n]? = some x ∧ Origin s x e.eventId c ∧
      c.txn.video.id = e.videoId := by
  obtain ⟨x, hx, hdecode⟩ := Option.bind_eq_some_iff.mp h
  obtain ⟨o, c, hor⟩ := entry_origin hf ha (List.mem_of_getElem? hx)
  rw [hor.decoded hc, Option.some.injEq] at hdecode
  subst hdecode
  exact ⟨x, c, hx, hor, rfl⟩

/-- An event is of one commit, and a commit of one event. -/
theorem Origin.same_event {x y : OutboxRelay.Entry} {o p : Uuid} {c d : Upload.Commit}
    (hf : Facts cfg s) (h : Origin s x o c) (h' : Origin s y p d) :
    o = p ↔ c.txn.video.id = d.txn.video.id := by
  constructor
  · rintro rfl
    obtain ⟨r, hr, hcall⟩ := h.outbox
    obtain ⟨r', hr', hcall'⟩ := h'.outbox
    obtain rfl := Option.some.inj (hr.symm.trans hr')
    rw [hf.booked.same_commit h.commit h'.commit (hcall.symm.trans hcall')]
  · intro hv
    have hd := (hf.booked.drawn c h.commit).1
    rw [hv, (hf.booked.drawn d h'.commit).1, Option.some.injEq] at hd
    obtain rfl := hf.booked.same_commit h'.commit h.commit hd
    obtain ⟨e, hadded, -⟩ := h.added
    obtain ⟨e', hadded', -⟩ := h'.added
    rw [hadded] at hadded'
    simpa using congrArg Prod.fst (List.cons.inj hadded').1

/-- From the upload to the workers nothing is lost, garbled or mixed up. Every entry of
`video_uploaded` decodes to the event of a committed upload; an upload whose row is marked
as sent has such an entry; an event is delivered at most once more than relays failed on it;
and the ids of events and of videos stand for each other. -/
theorem uploads_are_delivered (hc : Contract cfg) {as : List Action}
    (h : (machine cfg).Reaches as s) :
    (∀ n < s.relay.world.stream.length, ∃ e, delivered cfg s n = some e ∧
      Uploaded s e.videoId) ∧
    (∀ c ∈ s.api.world.log, ∃ o r, s.api.world.outbox o = some r ∧ r.xmin = c.call ∧
      (r.row.sentAt ≠ none → ∃ n, delivered cfg s n = some ⟨o, c.txn.video.id⟩)) ∧
    (∀ o, s.relay.world.stream.countP
        (fun x => (cfg.decodeUploaded x.payload).map UploadedEvent.eventId = some o) ≤
      OutboxRelay.aborts s.relay.world o + 1) ∧
    ∀ n m e e', delivered cfg s n = some e → delivered cfg s m = some e' →
      (e.eventId = e'.eventId ↔ e.videoId = e'.videoId) := by
  have ha := agree hc h
  have hf := facts h
  refine ⟨fun n hn => ?_, fun c hcm => ?_, fun o => ?_, fun n m e e' hn hm => ?_⟩
  · obtain ⟨o, c, hor⟩ := entry_origin hf ha (List.getElem_mem hn)
    refine ⟨⟨o, c.txn.video.id⟩, ?_, c, hor.commit, rfl⟩
    simp [delivered, List.getElem?_eq_getElem hn, hor.decoded hc]
  · obtain ⟨o, r, hr, hadded, hcall⟩ := hf.booked.added c hcm
    refine ⟨o, r, hr, hcall, fun hsent => ?_⟩
    have hrow : s.relay.world.rows o = some r.row := by simp [ha.outbox, hr]
    have hmem := hf.ledger.entry_of_sent hrow hsent
    obtain ⟨n, hn, hx⟩ := List.getElem_of_mem hmem
    obtain ⟨e, -, hfiled, hid, hp⟩ := added_filed hf hcm hadded
    refine ⟨n, ?_⟩
    simp only [delivered, List.getElem?_eq_getElem hn, hx, Option.bind_some]
    change cfg.decodeUploaded r.row.payload = _
    rw [hp, hc.uploaded, hfiled, hid]
  · refine le_trans (List.countP_mono_left fun x hx hdec => ?_)
      (OutboxRelay.published_le hf.ledger hf.drains o)
    obtain ⟨p, c, hor⟩ := entry_origin hf ha hx
    simp only [hor.decoded hc, Option.map_some, Option.some.injEq, decide_eq_true_eq] at hdec
    simp [hor.field, hdec]
  · obtain ⟨x, c, -, hor, hv⟩ := delivered_origin hc hf ha hn
    obtain ⟨y, d, -, hor', hv'⟩ := delivered_origin hc hf ha hm
    rw [← hv, ← hv']
    exact hor.same_event hf hor'

end

theorem clip_delivered : ∃ s e, (machine defaults).Reaches oneUpload s ∧
    delivered defaults s 0 = some e ∧ Uploaded s e.videoId := by
  obtain ⟨s, -, hs, -, -, hlen, -⟩ := one_upload
  obtain ⟨e, he⟩ := (uploads_are_delivered defaults_contract hs).1 0 (by omega)
  exact ⟨s, e, hs, he⟩

end BackendTemplates.Pipeline
