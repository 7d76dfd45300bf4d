import BackendTemplates.Media.Convergence

namespace BackendTemplates.Media.StatusConsumer
open Python Runs

/-- Some handled entry of the stream asks for this mark. -/
def Applied (decode : String → Option StatusEvent) (stream : List Entry) (id : Uuid)
    (uc : UseCase) : Prop :=
  ∃ e ∈ stream, e.mark? decode = some (id, uc) ∧ e.handled = true

/-- What must have happened for a video to have this status. `cancelled` are the videos a
request was made to cancel. -/
def Explains (decode : String → Option StatusEvent) (cancelled : Uuid → Prop)
    (stream : List Entry) (id : Uuid) : VideoStatus → Prop
  | .pending => True
  | .processing => Applied decode stream id .markProcessing
  | .done => Applied decode stream id .markProcessing ∧ Applied decode stream id .markDone
  | .failed => cancelled id ∨ Applied decode stream id .markFailed

def Explained (cfg : Config) (cancelled : Uuid → Prop) (w : World) : Prop :=
  ∀ id row, w.rows id = some row → Explains cfg.decode cancelled w.stream id row.status

/-- The two rows differ in the status and the deletion mark only. -/
def SameVideo (row row' : VideoRow) : Prop :=
  row' = { row with status := row'.status, deletedAt := row'.deletedAt }

section
variable {cfg : Config} {decode : String → Option StatusEvent} {cancelled cancelled' : Uuid → Prop}
  {w w' : World} {k k' : Consumer} {id : Uuid} {uc : UseCase} {n i : Nat} {a : Act}
  {stream stream' : List Entry} {status : VideoStatus}

theorem SameVideo.refl (row : VideoRow) : SameVideo row row := rfl

theorem SameVideo.trans {a b c : VideoRow} (h : SameVideo a b) (h' : SameVideo b c) :
    SameVideo a c := by
  unfold SameVideo at *
  rw [h', h]

/-- Apart from the group, a step of a consumer at most handles the entry at hand. -/
theorem step_shape (h : step cfg i w k a = some (w', k')) :
    (w'.rows = w.rows ∧ w'.stream = w.stream) ∨
      ∃ stale n todo, k = .handling stale (n :: todo) ∧ Handles a = true ∧
        w' = w.handle cfg.decode n := by
  have hens : w.ensureGroup.rows = w.rows ∧ w.ensureGroup.stream = w.stream := by
    unfold World.ensureGroup
    split <;> exact ⟨rfl, rfl⟩
  unfold step at h
  split at h
  · cases h
    exact .inl hens
  · split at h
    · split at h <;> cases h
      exact .inl hens
    · split at h <;> cases h
      exact .inl ⟨rfl, rfl⟩
  · split at h
    · cases h
      exact .inl ⟨rfl, rfl⟩
    · split at h <;> cases h
      exact .inl ⟨rfl, rfl⟩
  · split at h <;> cases h <;> exact .inl ⟨rfl, rfl⟩
  · rename_i applied
    split at h
    · cases h
      exact .inl ⟨rfl, rfl⟩
    · cases applied <;> cases h <;> exact .inl ⟨rfl, rfl⟩
  · rename_i stale n todo
    cases h
    exact .inr ⟨stale, n, todo, rfl, rfl, rfl⟩
  · rename_i stale n todo applied
    cases applied <;> cases h
    · exact .inl ⟨rfl, rfl⟩
    · exact .inr ⟨stale, n, todo, rfl, rfl, rfl⟩
  · cases h
    exact .inl ⟨rfl, rfl⟩
  · rename_i applied
    cases applied <;> cases h <;> exact .inl ⟨rfl, rfl⟩
  · cases h
    exact .inl ⟨rfl, rfl⟩
  · cases h

/-- A call that returns has moved a video that is there along the table. -/
theorem call_ok {rows rows' : Uuid → Option VideoRow} (h : call rows uc id = .ok rows') :
    ∃ row, rows id = some row ∧ row.deletedAt = none ∧ uc.target ∈ row.status.allowed ∧
      rows' = Function.update rows id (some { row with status := uc.target }) := by
  unfold call at h
  split at h
  · cases h
  · rename_i video hv
    obtain ⟨row, hr, hd, rfl⟩ := getById_some hv
    split at h
    · cases h
    · rename_i video' hm
      rw [UseCase.mark_eq] at hm
      obtain ⟨ha, rfl⟩ := Video.transition_ok.mp hm
      cases h
      exact ⟨row, hr, hd, ha, by simp [hr, VideoRow.save]⟩

/-- Handling an entry moves the video it is about, or nothing. -/
theorem handle_cases (decode : String → Option StatusEvent) (w : World) (n : Nat) :
    (w.handle decode n).rows = w.rows ∨
      ∃ e id uc row, w.stream[n]? = some e ∧ e.mark? decode = some (id, uc) ∧
        w.rows id = some row ∧ uc.target ∈ row.status.allowed ∧ (w.handle decode n).rows =
          Function.update w.rows id (some { row with status := uc.target }) := by
  cases he : w.stream[n]? with
  | none => exact .inl (by simp [World.handle, he])
  | some e =>
    cases hm : e.mark? decode with
    | none => exact .inl (handle_rows_of_none he hm)
    | some m =>
      obtain ⟨id, uc⟩ := m
      have hrows := handle_rows he hm
      unfold World.apply at hrows
      cases hc : call w.rows uc id with
      | error e =>
        rw [hc] at hrows
        exact .inl hrows
      | ok rows' =>
        rw [hc] at hrows
        obtain ⟨row, hr, -, ha, rfl⟩ := call_ok hc
        exact .inr ⟨e, id, uc, row, rfl, hm, hr, ha, hrows⟩

theorem Applied.set {e : Entry} (h : Applied decode stream id uc) (he : stream[n]? = some e) :
    Applied decode (stream.set n { e with handled := true }) id uc := by
  obtain ⟨x, hx, hm, hh⟩ := h
  obtain ⟨m, hml, rfl⟩ := List.getElem_of_mem hx
  by_cases hmn : m = n
  · subst hmn
    rw [List.getElem?_eq_getElem hml, Option.some.injEq] at he
    subst he
    exact ⟨_, List.mem_set hml _, hm, rfl⟩
  · refine ⟨stream[m], ?_, hm, hh⟩
    exact List.mem_iff_getElem?.mpr ⟨m, by
      rw [List.getElem?_set_ne (Ne.symm hmn), List.getElem?_eq_getElem hml]⟩

theorem Applied.handle (h : Applied decode w.stream id uc) :
    Applied decode (w.handle decode n).stream id uc := by
  cases he : w.stream[n]? with
  | none => simpa [World.handle, he] using h
  | some e =>
    rw [handle_stream he]
    exact h.set he

theorem applied_handle {e : Entry} (he : w.stream[n]? = some e)
    (hm : e.mark? decode = some (id, uc)) : Applied decode (w.handle decode n).stream id uc := by
  rw [handle_stream he]
  exact ⟨_, List.mem_set (List.getElem?_eq_some_iff.mp he).1 _, hm, rfl⟩

theorem Explains.mono (h : Explains decode cancelled stream id status)
    (hc : ∀ id, cancelled id → cancelled' id)
    (ha : ∀ uc, Applied decode stream id uc → Applied decode stream' id uc) :
    Explains decode cancelled' stream' id status := by
  cases status with
  | pending => trivial
  | processing => exact ha _ h
  | done => exact ⟨ha _ h.1, ha _ h.2⟩
  | failed => exact h.imp (hc id) (ha _)

/-- A step along the table is explained by what asked for it. -/
theorem Explains.move (h : Explains decode cancelled stream id status)
    (ht : uc.target ∈ status.allowed)
    (ha : Applied decode stream id uc ∨ uc = .markFailed ∧ cancelled id) :
    Explains decode cancelled stream id uc.target := by
  cases uc with
  | markProcessing => exact ha.resolve_right (by simp)
  | markDone =>
    cases status with
    | processing => exact ⟨h, ha.resolve_right (by simp)⟩
    | _ => simp [UseCase.target, VideoStatus.allowed] at ht
  | markFailed => exact ha.elim .inr (fun hc => .inl hc.2)

theorem Explained.handle (h : Explained cfg cancelled w) :
    Explained cfg cancelled (w.handle cfg.decode n) := by
  have kept {id : Uuid} {row : VideoRow} (hr : w.rows id = some row) :
      Explains cfg.decode cancelled (w.handle cfg.decode n).stream id row.status :=
    (h id row hr).mono (fun _ hc => hc) (fun _ ha => ha.handle)
  intro id row hr
  rcases handle_cases cfg.decode w n with hrows | ⟨e, v, uc, old, he, hm, ho, ht, hrows⟩
  · exact kept (hrows ▸ hr)
  · rw [hrows] at hr
    by_cases hv : id = v
    · subst hv
      rw [Function.update_self, Option.some.injEq] at hr
      subst hr
      exact (kept ho).move ht (.inl (applied_handle he hm))
    · rw [Function.update_of_ne hv] at hr
      exact kept hr

theorem Explained.congr (h : Explained cfg cancelled w) (hr : w'.rows = w.rows)
    (hs : w'.stream = w.stream) : Explained cfg cancelled w' := by
  unfold Explained
  rw [hr, hs]
  exact h

theorem Explained.mono (h : Explained cfg cancelled w) (hc : ∀ id, cancelled id → cancelled' id) :
    Explained cfg cancelled' w :=
  fun id row hr => (h id row hr).mono hc (fun _ ha => ha)

theorem env_explained {ev : Env} (h : Explained cfg cancelled w)
    (hc : ∀ id, ev = .cancel id → cancelled id) (hs : env cfg w ev = some w') :
    Explained cfg cancelled w' := by
  cases ev with
  | xadd payload =>
    cases hs
    refine fun id row hr => (h id row hr).mono (fun _ hc => hc) (fun uc ha => ?_)
    obtain ⟨e, he, hm⟩ := ha
    exact ⟨e, List.mem_append_left _ he, hm⟩
  | upload id sourceKey at_ document =>
    simp only [env] at hs
    split at hs
    · cases hs
      intro x row hr
      by_cases hx : x = id
      · subst hx
        simp only [Function.update_self, Option.some.injEq] at hr
        subst hr
        trivial
      · exact h x row (by simpa [hx] using hr)
    · cases hs
  | cancel id =>
    simp only [env] at hs
    split at hs
    · cases hs
      exact h
    · rename_i rows hcall
      cases hs
      obtain ⟨row, hr, -, ht, rfl⟩ := call_ok hcall
      intro x row' hr'
      by_cases hx : x = id
      · subst hx
        simp only [Function.update_self, Option.some.injEq] at hr'
        subst hr'
        exact (h x row hr).move ht (.inr ⟨rfl, hc x rfl⟩)
      · exact h x row' (by simpa [hx] using hr')
  | softDelete id at_ =>
    simp only [env] at hs
    split at hs
    · cases hs
      exact h
    · rename_i row hr
      split at hs
      · cases hs
        exact h
      · cases hs
        intro x row' hr'
        by_cases hx : x = id
        · subst hx
          simp only [Function.update_self, Option.some.injEq] at hr'
          subst hr'
          exact h x row hr
        · exact h x row' (by simpa [hx] using hr')
  | destroyGroup =>
    cases hs
    exact h
  | tick milliseconds =>
    cases hs
    exact h

theorem machine_explained {s t : State} {b : Action} (h : Explained cfg cancelled s.world)
    (hc : ∀ id, b = .env (.cancel id) → cancelled id) (hs : (pool cfg).machine.step s b = some t) :
    Explained cfg cancelled t.world := by
  cases b with
  | act i a =>
    obtain ⟨w, k, hw, rfl⟩ := Pool.act_step.mp hs
    rcases step_shape hw with ⟨hr, hst⟩ | ⟨stale, n, todo, -, -, rfl⟩
    · exact h.congr hr hst
    · exact h.handle
  | env e =>
    obtain ⟨w, hw, rfl⟩ := Pool.env_step.mp hs
    exact env_explained h (fun id he => hc id (by rw [he])) hw

end
end BackendTemplates.Media.StatusConsumer
