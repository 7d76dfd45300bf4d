import BackendTemplates.Media.NewVideos
import BackendTemplates.Media.StatusOrigins
import BackendTemplates.Pipeline.System
import BackendTemplates.Processing.Provenance

namespace BackendTemplates.Pipeline
open Python Runs Media Shared

/-- The outbox after a relay committed. -/
def markAll (w : Upload.World) (ids : List Uuid) (at_ : Datetime) : Upload.World :=
  { w with outbox := fun id =>
      if id ∈ ids then
        (w.outbox id).map (fun r => { r with row := { r.row with sentAt := some at_ } })
      else w.outbox id }

/-- The outbox as the relays see it, after an upload committed. -/
def insertRow (w : OutboxRelay.World) (o : Uuid) (row : OutboxRelay.OutboxRow) :
    OutboxRelay.World :=
  { w with
    rows := Function.update w.rows o (some row)
    inserting := Function.update w.inserting o none }

/-- The videos as the consumers see them, after an upload committed. -/
def insertVideo (w : StatusConsumer.World) (id : Uuid) (row : VideoRow) : StatusConsumer.World :=
  { w with rows := Function.update w.rows id (some row) }

/-- The videos after their rows changed under the consumers. -/
def rewriteAll (w : Upload.World) (ids : List Uuid) (rows : Uuid → Option VideoRow) :
    Upload.World :=
  { w with videos := fun id =>
      match rows id with
      | none => w.videos id
      | some row =>
        if id ∈ ids then (w.videos id).map (fun r => { r with row := row }) else w.videos id }

section
variable {cfg : Config}

theorem exec_marksSent {u : Upload.State} (ids : List Uuid) (at_ : Datetime)
    (h : ∀ id ∈ ids, u.world.outbox id ≠ none) :
    cfg.api.exec u (ids.map (fun id => .env (.markSent id at_))) =
      some ⟨markAll u.world ids at_, u.clients⟩ := by
  induction ids generalizing u with
  | nil => simp [markAll]
  | cons id ids ih =>
    obtain ⟨r, hr⟩ := Option.ne_none_iff_exists'.mp (h id (by simp))
    have hstep : cfg.api.step u (.env (.markSent id at_)) = some
        ⟨u.world.putOutbox id { r with row := { r.row with sentAt := some at_ } }, u.clients⟩ :=
      Pool.env_step.mpr ⟨_, by simp [Upload.pool, Upload.env, hr], rfl⟩
    rw [List.map_cons, exec_cons, hstep, Option.bind_some, ih]
    · simp only [markAll, Upload.World.putOutbox, Option.some.injEq]
      congr 2
      funext x
      by_cases hx : x = id
      · subst hx
        simp [hr]
      · simp [hx]
    · intro x hx
      by_cases hxi : x = id
      · simp [Upload.World.putOutbox, hxi]
      · simpa [Upload.World.putOutbox, hxi] using h x (by simp [hx])

theorem exec_inserts {u : OutboxRelay.State} {c : Upload.Commit} {o : Uuid}
    {row : OutboxRelay.OutboxRow} (hc : c.txn.added = [(o, row)]) (hr : u.world.rows o = none)
    (hi : u.world.inserting o = none) (hs : row.sentAt = none) :
    cfg.relay.exec u (inserts c) = some ⟨insertRow u.world o row, u.clients⟩ := by
  have hinsert : cfg.relay.step u (.env (.insert o row)) = some
      ⟨{ u.world with inserting := Function.update u.world.inserting o (some row) }, u.clients⟩ :=
    Pool.env_step.mpr ⟨_, by simp [OutboxRelay.pool, OutboxRelay.env, hr, hi, hs], rfl⟩
  have hcommit : cfg.relay.step ⟨{ u.world with
        inserting := Function.update u.world.inserting o (some row) }, u.clients⟩
      (.env (.commitInsert o)) = some ⟨insertRow u.world o row, u.clients⟩ :=
    Pool.env_step.mpr ⟨_, by simp [OutboxRelay.pool, OutboxRelay.env, hr, insertRow], rfl⟩
  simp only [inserts, hc, List.flatMap_cons, List.flatMap_nil, List.append_nil, exec_cons, hinsert,
    hcommit, Option.bind_some, exec_nil]

theorem exec_uploads {u : StatusConsumer.State} {c : Upload.Commit}
    (hc : c.txn.saved = some (Upload.newRow c.txn.video))
    (hr : u.world.rows c.txn.video.id = none)
    (hn : ∀ e ∈ u.world.stream,
      (e.mark? cfg.consumer.decode).map Prod.fst ≠ some c.txn.video.id) :
    cfg.consumers.exec u (uploads c) =
      some ⟨insertVideo u.world c.txn.video.id (Upload.newRow c.txn.video), u.clients⟩ := by
  simp only [uploads, hc]
  exact exec_one (Pool.env_step.mpr ⟨_, if_pos (show _ ∧ _ from ⟨hr, hn⟩), rfl⟩)

theorem exec_announcements {u : StatusConsumer.State} (event : Uuid) (at_ : Datetime)
    (entries : List Processing.Entry) :
    cfg.consumers.exec u (announcements event at_ entries) = some
      ⟨{ u.world with stream := u.world.stream ++ entries.map (fun e =>
          ⟨some (VideoStatusIntegration.payload ⟨event, e.eventType, e.videoId, at_⟩), false⟩) },
        u.clients⟩ := by
  induction entries generalizing u with
  | nil => simp [announcements]
  | cons e entries ih =>
    simp only [announcements, List.map_cons, exec_cons] at ih ⊢
    rw [show cfg.consumers.step u (.env (.xadd _)) = some _ from
      Pool.env_step.mpr ⟨_, rfl, rfl⟩, Option.bind_some, ih]
    simp

theorem exec_rewrites {u : Upload.State} (ids : List Uuid) (rows : Uuid → Option VideoRow)
    (h : ∀ id, rows id ≠ none → u.world.videos id ≠ none) :
    cfg.api.exec u (ids.filterMap
        (fun id => (rows id).map (fun row => .env (.rewrite id row)))) =
      some ⟨rewriteAll u.world ids rows, u.clients⟩ := by
  induction ids generalizing u with
  | nil =>
    have hv : (rewriteAll u.world [] rows).videos = u.world.videos := by
      funext x
      simp only [rewriteAll]
      cases rows x <;> simp
    simp only [rewriteAll] at hv ⊢
    rw [hv]
    rfl
  | cons id ids ih =>
    cases hrow : rows id with
    | none =>
      rw [List.filterMap_cons_none (by simp [hrow]), ih h]
      simp only [rewriteAll, Option.some.injEq]
      congr 2
      funext x
      by_cases hx : x = id
      · simp [hx, hrow]
      · simp [hx]
    | some row =>
      obtain ⟨r, hr⟩ := Option.ne_none_iff_exists'.mp (h id (by simp [hrow]))
      have hstep : cfg.api.step u (.env (.rewrite id row)) =
          some ⟨u.world.putVideo id { r with row := row }, u.clients⟩ :=
        Pool.env_step.mpr ⟨_, by simp [Upload.pool, Upload.env, hr], rfl⟩
      rw [List.filterMap_cons_some (by rw [hrow]; rfl), exec_cons, hstep, Option.bind_some, ih]
      · simp only [rewriteAll, Upload.World.putVideo, Option.some.injEq]
        congr 2
        funext x
        by_cases hx : x = id
        · subst hx
          simp [hrow, hr]
        · simp [hx]
      · intro x hx
        by_cases hxi : x = id
        · simp [Upload.World.putVideo, hxi]
        · simpa [Upload.World.putVideo, hxi] using h x hx

/-- A relay's step changes the rows by its commit only. -/
theorem relay_rows {i : Nat} {w w' : OutboxRelay.World} {k k' : OutboxRelay.Drain}
    {a : OutboxRelay.Act} (h : OutboxRelay.step cfg.batch i w k a = some (w', k')) :
    w'.inserting = w.inserting ∧ ((marksSent k a = [] ∧ w'.rows = w.rows) ∨
      ∃ rs at_, k = .marked rs at_ ∧ a = .commit ∧ w' = w.commit rs at_) := by
  unfold OutboxRelay.step at h
  split at h
  · split at h
    · split at h <;> cases h <;> exact ⟨rfl, .inl ⟨rfl, rfl⟩⟩
    · cases h
  · cases h
    exact ⟨rfl, .inl ⟨rfl, rfl⟩⟩
  · split at h <;> cases h <;> exact ⟨rfl, .inl ⟨rfl, rfl⟩⟩
  · cases h
    exact ⟨rfl, .inl ⟨rfl, rfl⟩⟩
  · cases h
    exact ⟨rfl, .inr ⟨_, _, rfl, rfl, rfl⟩⟩
  · cases h
    exact ⟨rfl, .inl ⟨rfl, rfl⟩⟩
  · cases h
    exact ⟨rfl, .inl ⟨rfl, rfl⟩⟩
  · cases h

/-- Receiving an event changes nothing but the process that receives it. -/
theorem receive_world {i : Nat} {w w' : Processing.World} {k k' : Processing.Client}
    {video event : Uuid}
    (h : Processing.step cfg.worker i w k (.receive video event) = some (w', k')) : w' = w := by
  cases k <;>
    simp [Processing.step, Processing.deliveryStep, Processing.jobStep] at h
  exact h.1.symm

/-- What an action of the consumers' side may do to the rows, and to what the entries say. -/
structure OwnRows (cfg : Config) (u v : StatusConsumer.State) (b : StatusConsumer.Action) :
    Prop where
  marks : v.world.stream.map (StatusConsumer.Entry.mark? cfg.consumer.decode) =
    u.world.stream.map (StatusConsumer.Entry.mark? cfg.consumer.decode)
  rows : ∀ id, v.world.rows id = u.world.rows id ∨ (id ∈ touched cfg.consumer u b ∧
    ∃ row row', u.world.rows id = some row ∧ v.world.rows id = some row' ∧
      StatusConsumer.SameVideo row row')

theorem handle_marks (decode : String → Option StatusConsumer.StatusEvent)
    (w : StatusConsumer.World) (n : Nat) :
    (w.handle decode n).stream.map (StatusConsumer.Entry.mark? decode) =
      w.stream.map (StatusConsumer.Entry.mark? decode) := by
  cases he : w.stream[n]? with
  | none => simp [StatusConsumer.World.handle, he]
  | some e =>
    rw [StatusConsumer.handle_stream he, List.map_set]
    apply List.ext_getElem?
    intro m
    by_cases hm : n = m
    · subst hm
      obtain ⟨hn, rfl⟩ := List.getElem?_eq_some_iff.mp he
      rw [List.getElem?_set_self (by simpa using hn), List.getElem?_map, he]
      rfl
    · rw [List.getElem?_set_ne hm]

theorem own_rows {u v : StatusConsumer.State} {b : StatusConsumer.Action}
    (hb : consumerOwn b = true) (h : cfg.consumers.step u b = some v) : OwnRows cfg u v b := by
  cases b with
  | act i a =>
    obtain ⟨w, k, hw, rfl⟩ := Pool.act_step.mp h
    rcases StatusConsumer.step_shape hw with ⟨hr, hs⟩ | ⟨stale, n, todo, hk, ha, rfl⟩
    · exact ⟨by simp only [hs], fun id => .inl (by simp only [hr])⟩
    · refine ⟨handle_marks _ _ _, fun id => ?_⟩
      rcases StatusConsumer.handle_cases cfg.consumer.decode u.world n with
        hr | ⟨e, x, uc, row, he, hm, hrow, -, hr⟩
      · exact .inl (congrFun hr id)
      · by_cases hx : id = x
        · subst hx
          refine .inr ⟨by simp [touched, hk, ha, he, hm], row, { row with status := uc.target },
            hrow, ?_, rfl⟩
          exact (congrFun hr id).trans (Function.update_self ..)
        · exact .inl ((congrFun hr id).trans (Function.update_of_ne hx ..))
  | env e =>
    obtain ⟨w, hw, rfl⟩ := Pool.env_step.mp h
    cases e with
    | xadd payload => cases hb
    | upload id sourceKey at_ document => cases hb
    | cancel x =>
      simp only [StatusConsumer.pool, StatusConsumer.env] at hw
      split at hw
      · cases hw
        exact ⟨rfl, fun id => .inl rfl⟩
      · rename_i rows hcall
        cases hw
        obtain ⟨row, hr, -, -, rfl⟩ := StatusConsumer.call_ok hcall
        refine ⟨rfl, fun id => ?_⟩
        by_cases hx : id = x
        · subst hx
          exact .inr ⟨by simp [touched], row, _, hr, Function.update_self .., rfl⟩
        · exact .inl (Function.update_of_ne hx ..)
    | softDelete x at_ =>
      simp only [StatusConsumer.pool, StatusConsumer.env] at hw
      split at hw
      · cases hw
        exact ⟨rfl, fun id => .inl rfl⟩
      · rename_i row hr
        split at hw <;> cases hw
        · exact ⟨rfl, fun id => .inl rfl⟩
        · refine ⟨rfl, fun id => ?_⟩
          by_cases hx : id = x
          · subst hx
            exact .inr ⟨by simp [touched], row, _, hr, Function.update_self .., rfl⟩
          · exact .inl (Function.update_of_ne hx ..)
    | destroyGroup =>
      cases hw
      exact ⟨rfl, fun id => .inl rfl⟩
    | tick milliseconds =>
      cases hw
      exact ⟨rfl, fun id => .inl rfl⟩

end
end BackendTemplates.Pipeline
