import BackendTemplates.Pipeline.Agreement
import BackendTemplates.Processing.JoinSoundness

namespace BackendTemplates.Pipeline
open Python Runs Media Shared
open Processing (Worked Started)

/-- The uploads and the cancellations that explain the rows of the videos. -/
structure Accounted (cfg : Config) (as : List Action) (s : State) : Prop where
  agree : Agree cfg s
  kept : ∀ id row, s.consumers.world.rows id = some row → ∃ c ∈ s.api.world.log,
    c.txn.video.id = id ∧ StatusConsumer.SameVideo (Upload.newRow c.txn.video) row
  explained : StatusConsumer.Explained cfg.consumer
    (fun id => .consumer (.env (.cancel id)) ∈ as) s.consumers.world

section
variable {cfg : Config} {as : List Action} {s t : State}

/-- Only a request to cancel a video cancels it. -/
theorem exec_explained {cancelled : Uuid → Prop} {bs : List StatusConsumer.Action}
    {u v : StatusConsumer.State} (h : StatusConsumer.Explained cfg.consumer cancelled u.world)
    (hb : ∀ b ∈ bs, ∀ id, b ≠ .env (.cancel id)) (hs : cfg.consumers.exec u bs = some v) :
    StatusConsumer.Explained cfg.consumer cancelled v.world :=
  exec_invariant_of_meets
    (I := fun u : StatusConsumer.State =>
      StatusConsumer.Explained cfg.consumer cancelled u.world)
    (fun _ _ _ hI hok hstep =>
      StatusConsumer.machine_explained hI (fun id he => absurd he (hok id)) hstep)
    h hs ((meets_action hs).mpr hb)

theorem uploads_no_cancel (cs : List Upload.Commit) :
    ∀ b ∈ cs.flatMap uploads, ∀ id, b ≠ .env (.cancel id) := by
  intro b hb id hx
  subst hx
  obtain ⟨c, -, hc⟩ := List.mem_flatMap.mp hb
  unfold uploads at hc
  split at hc <;> simp at hc

theorem announcements_no_cancel (event : Uuid) (at_ : Datetime) (es : List Processing.Entry) :
    ∀ b ∈ announcements event at_ es, ∀ id, b ≠ .env (.cancel id) := by
  intro b hb id hx
  subst hx
  obtain ⟨e, -, he⟩ := List.mem_map.mp hb
  cases he

theorem accounted (hc : Contract cfg) (h : (machine cfg).Reaches as s) : Accounted cfg as s := by
  refine Machine.Reaches.induct (P := Accounted cfg) ?_ ?_ h
  · refine ⟨agree hc (show (machine cfg).Reaches [] _ from rfl), ?_, ?_⟩
    · intro id row hr
      cases hr
    · intro id row hr
      cases hr
  · intro as s a t hr ha hs
    have hf := facts hr
    have hagree : Agree cfg t := agree hc (hr.append (exec_one hs))
    have hexpl : StatusConsumer.Explained cfg.consumer
        (fun id => .consumer (.env (.cancel id)) ∈ as ++ [a]) s.consumers.world :=
      ha.explained.mono fun id hm => List.mem_append_left _ hm
    cases moves_iff.mp hs with
    | api own stepped inserted uploaded =>
      refine ⟨hagree, ?_, exec_explained hexpl (uploads_no_cancel _) uploaded⟩
      rcases api_cases own stepped with ⟨-, -, hl⟩ | ⟨i, txn, hk, hw⟩
      · rw [committed_nil hl] at uploaded
        cases uploaded
        simpa only [hl] using ha.kept
      · obtain ⟨o, e, -, -, -, -, hup⟩ := commit_links hf ha.agree hk
        rw [hw, committed_commit, List.flatMap_singleton] at uploaded
        obtain rfl := Option.some.inj (hup.symm.trans uploaded)
        intro id row hrow
        simp only [hw]
        by_cases hx : id = txn.video.id
        · subst hx
          simp only [insertVideo, Function.update_self, Option.some.injEq] at hrow
          subst hrow
          exact ⟨_, Upload.mem_commit_log.mpr (.inr rfl), rfl, .refl _⟩
        · obtain ⟨c, hcm, hc⟩ := ha.kept id row (by simpa [insertVideo, hx] using hrow)
          exact ⟨c, Upload.mem_commit_log.mpr (.inl hcm), hc⟩
    | relay stepped marked =>
      obtain ⟨outbox, hexec, -⟩ := ha.agree.relay hf stepped
      obtain rfl := Option.some.inj (hexec.symm.trans marked)
      exact ⟨hagree, ha.kept, hexpl⟩
    | dropped malformed => exact ⟨hagree, ha.kept, hexpl⟩
    | received decoded stepped => exact ⟨hagree, ha.kept, hexpl⟩
    | worker own stepped announced =>
      refine ⟨hagree, ?_, exec_explained hexpl (announcements_no_cancel _ _ _) announced⟩
      rw [exec_announcements] at announced
      cases announced
      exact ha.kept
    | consumer own stepped rewritten =>
      obtain ⟨videos, hexec, -⟩ := ha.agree.consumer own stepped
      obtain rfl := Option.some.inj (hexec.symm.trans rewritten)
      refine ⟨hagree, fun id row' hrow' => ?_, StatusConsumer.machine_explained hexpl
        (fun id he => by simp [he]) stepped⟩
      rcases (own_rows own stepped).rows id with hsame | ⟨-, row, x, hrow, hx, hv⟩
      · exact ha.kept id row' (hsame.symm.trans hrow')
      · obtain rfl := Option.some.inj (hx.symm.trans hrow')
        obtain ⟨c, hcm, hid, hold⟩ := ha.kept id row hrow
        exact ⟨c, hcm, hid, hold.trans hv⟩

theorem markOf_started (video : Uuid) :
    markOf (Processing.startedEntry video) = some (video, .markProcessing) := by
  simp [markOf, Processing.startedEntry, StatusConsumer.useCase?]

theorem markOf_processed (video : Uuid) :
    markOf (Processing.processedEntry video) = some (video, .markDone) := by
  simp [markOf, Processing.processedEntry, StatusConsumer.useCase?]

theorem markOf_failed (video : Uuid) :
    markOf (Processing.failedEntry video) = some (video, .markFailed) := by
  simp [markOf, Processing.failedEntry, StatusConsumer.useCase?]

/-- The event that put an entry with this mark on `video_status`. -/
theorem Agree.published (ha : Agree cfg s) {id : Uuid} {uc : UseCase}
    (h : StatusConsumer.Applied cfg.consumer.decode s.consumers.world.stream id uc) :
    ∃ e ∈ s.workers.world.log, match uc with
      | .markProcessing => ∃ i, e = .started i id
      | .markDone => ∃ i kind, e = .processed i id kind
      | .markFailed => ∃ i, e = .failed i id := by
  obtain ⟨x, hx, hm, -⟩ := h
  have hmem : some (id, uc) ∈ (Processing.stream s.workers.world.log).map markOf := by
    rw [← ha.status, ← hm]
    exact List.mem_map_of_mem hx
  obtain ⟨entry, hentry, hmark⟩ := List.mem_map.mp hmem
  obtain ⟨e, he, hsome⟩ := List.mem_filterMap.mp hentry
  refine ⟨e, he, ?_⟩
  cases e with
  | started i video =>
    cases hsome
    rw [markOf_started] at hmark
    cases hmark
    exact ⟨i, rfl⟩
  | processed i video kind =>
    cases hsome
    rw [markOf_processed] at hmark
    cases hmark
    exact ⟨i, kind, rfl⟩
  | failed i video =>
    cases hsome
    rw [markOf_failed] at hmark
    cases hmark
    exact ⟨i, rfl⟩
  | _ => cases hsome

/-- What the row of a video says about the run so far. -/
structure Earned (as : List Action) (s : State) (id : Uuid) (row : VideoRow) : Prop where
  uploaded : ∃ c ∈ s.api.world.log,
    c.txn.video.id = id ∧ StatusConsumer.SameVideo (Upload.newRow c.txn.video) row
  processing : row.status = .processing → Started s.workers.world.log id
  done : row.status = .done →
    Started s.workers.world.log id ∧ ∀ kind, Worked s.workers.world.log id kind
  failed : row.status = .failed → .consumer (.env (.cancel id)) ∈ as ∨
    ∃ i kind, Processing.Event.terminal i id kind ∈ s.workers.world.log

theorem started_of_mem {log : List Processing.Event} {i : Nat} {id : Uuid}
    (h : .started i id ∈ log) : Started log id :=
  List.mem_filterMap.mpr ⟨_, h, rfl⟩

/-- In every run of the services together a video is at work only once its jobs were
announced, DONE only once a job of each kind has finished for it, and FAILED only if its
cancellation was requested or a job gave up; and every job that ever ran is for a video that was
uploaded. -/
theorem status_is_earned (hc : Contract cfg) (h : (machine cfg).Reaches as s) :
    (∀ id r, s.api.world.videos id = some r → Earned as s id r.row) ∧
      ∀ e ∈ s.workers.world.log, Uploaded s e.video := by
  have ha := accounted hc h
  obtain ⟨bs, hb⟩ := (workersView cfg).reaches h
  have hbacked := Processing.backed hb
  have hterminal := Processing.failures_terminal hb
  refine ⟨fun id r hr => ?_, ha.agree.known.log⟩
  have hrow : s.consumers.world.rows id = some r.row := by simp [ha.agree.videos, hr]
  have hexpl := ha.explained id r.row hrow
  refine ⟨ha.kept id r.row hrow, fun hs => ?_, fun hs => ?_, fun hs => ?_⟩
  · rw [hs] at hexpl
    obtain ⟨e, he, i, rfl⟩ := ha.agree.published hexpl
    exact started_of_mem he
  · rw [hs] at hexpl
    obtain ⟨e, he, i, rfl⟩ := ha.agree.published hexpl.1
    obtain ⟨e', he', j, kind, rfl⟩ := ha.agree.published hexpl.2
    refine ⟨started_of_mem he, fun k => ?_⟩
    obtain ⟨pre, post, hlog⟩ := List.append_of_mem he'
    obtain ⟨m, hm⟩ := hbacked.processed pre _ post hlog k
    exact ⟨m, hlog ▸ List.mem_append_left _ hm⟩
  · rw [hs] at hexpl
    rcases hexpl with hcancel | happlied
    · exact .inl hcancel
    · obtain ⟨e, he, i, rfl⟩ := ha.agree.published happlied
      obtain ⟨pre, post, hlog⟩ := List.append_of_mem he
      obtain ⟨j, kind, hm⟩ := hterminal pre _ post hlog
      exact .inr ⟨j, kind, hlog ▸ List.mem_append_left _ hm⟩

end

theorem clip_earned_done : ∃ s, (machine defaults).Reaches oneUpload s ∧
    ∀ kind, Worked s.workers.world.log clip kind := by
  obtain ⟨s, r, hs, hv, hd, -⟩ := one_upload
  exact ⟨s, hs, (((status_is_earned defaults_contract hs).1 clip r hv).done hd).2⟩

end BackendTemplates.Pipeline
