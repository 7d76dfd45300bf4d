import BackendTemplates.Media.StatusCalls

namespace BackendTemplates.Media.StatusCalls
open Python Runs

/-- Consecutive committed values are moves of the transition table. -/
def IsPath (history : List VideoStatus) : Prop := history.IsChain (fun a b => b ∈ a.allowed)

/-- No status is committed after a terminal one. -/
def TerminalLast (history : List VideoStatus) : Prop :=
  ∀ pre s post, history = pre ++ s :: post → s = .done ∨ s = .failed → post = []

/-- The row still has the status the committing call read. A cancellation which read
PENDING may also find PROCESSING. -/
def Unmoved (s : State) : Action → Prop
  | .act i .commit =>
    match s.clients i with
    | .saved uc before video _ =>
      match s.world.rows video.id with
      | some row => row.status = before ∨
          uc = .markFailed ∧ before = .pending ∧ row.status = .processing
      | none => True
    | _ => True
  | _ => True

instance (s : State) (a : Action) : Decidable (Unmoved s a) := by
  unfold Unmoved
  split
  · split
    · split <;> infer_instance
    · infer_instance
  · infer_instance

theorem IsPath.terminal {history : List VideoStatus} (h : IsPath history) :
    TerminalLast history := by
  intro pre s post he hs
  subst he
  cases post with
  | nil => rfl
  | cons t post =>
    have hm : t ∈ s.allowed := by
      have ht := (List.isChain_append.mp h).2.1
      exact (List.isChain_cons_cons.mp ht).1
    rcases hs with rfl | rfl <;> simp [VideoStatus.allowed] at hm

/-- Each row's status is the last one committed for it, and the first was PENDING. -/
structure Logged (db : Db) : Prop where
  last : ∀ id, (db.history id).getLast? = (db.rows id).map VideoRow.status
  first : ∀ id, ∀ s ∈ (db.history id).head?, s = .pending

/-- What a call has read was committed, and its move was allowed from there. -/
def Consistent (_ : Nat) (db : Db) : Call → Prop
  | .loaded _ video => video.status ∈ db.history video.id
  | .marked uc before video =>
    before ∈ db.history video.id ∧ video.status = uc.target ∧ uc.target ∈ before.allowed
  | .saved uc before video row =>
    before ∈ db.history video.id ∧ row.status = uc.target ∧ uc.target ∈ before.allowed
  | _ => True

theorem Consistent.mono {i : Nat} {db db' : Db} {k : Call} (h : Consistent i db k)
    (hh : ∀ id, ∀ s ∈ db.history id, s ∈ db'.history id) : Consistent i db' k := by
  cases k with
  | loaded uc video => exact hh _ _ h
  | marked uc before video => exact ⟨hh _ _ h.1, h.2⟩
  | saved uc before video row => exact ⟨hh _ _ h.1, h.2⟩
  | _ => trivial

theorem Logged.mem_of_row {db : Db} (h : Logged db) {id : Uuid} {row : VideoRow}
    (hr : db.rows id = some row) : row.status ∈ db.history id := by
  apply List.mem_of_getLast?
  rw [h.last, hr]
  rfl

/-- A committed value becomes the row's; the first one has to be PENDING. -/
theorem Logged.append {db db' : Db} (h : Logged db) {id : Uuid} {row : VideoRow}
    (hr : db'.rows = Function.update db.rows id (some row))
    (hh : db'.history = Function.update db.history id (db.history id ++ [row.status]))
    (hf : db.history id = [] → row.status = .pending) : Logged db' := by
  refine ⟨fun x => ?_, fun x s hs => ?_⟩
  · rw [hr, hh]
    by_cases he : x = id
    · subst x
      simp
    · simpa [he] using h.last x
  · rw [hh] at hs
    by_cases he : x = id
    · subst x
      cases hd : db.history id with
      | nil =>
        simp only [Function.update_self, hd, List.nil_append, List.head?_cons,
          Option.mem_some] at hs
        exact hs ▸ hf hd
      | cons a l =>
        simp only [Function.update_self, hd, List.cons_append, List.head?_cons,
          Option.mem_some] at hs
        exact h.first id s (by simp [hd, hs])
    · exact h.first x s (by simpa [he] using hs)

theorem history_grows (db : Db) (id : Uuid) (row : VideoRow) (x : Uuid) :
    ∀ s ∈ db.history x, s ∈ (db.commit id row).history x := by
  intro s hs
  by_cases he : x = id
  · subst x
    simp [Db.commit, hs]
  · simpa [Db.commit, he] using hs

/-- A call stays consistent through its own steps, and its row is there when it commits. -/
theorem step_consistent {i : Nat} {db db' : Db} {k k' : Call} {a : Act} (hl : Logged db)
    (hk : Consistent i db k) (h : step i db k a = some (db', k'))
    (hh : db'.history = db.history) : Consistent i db' k' := by
  unfold step at h
  split at h
  · split at h
    · cases h
      trivial
    · rename_i hg
      cases h
      obtain ⟨row, hr, _, rfl⟩ := getById_some hg
      exact hl.mem_of_row hr
  · split at h
    · cases h
      trivial
    · rename_i hm
      cases h
      rw [UseCase.mark_eq] at hm
      obtain ⟨ha, rfl⟩ := Video.transition_ok.mp hm
      exact ⟨hk, rfl, ha⟩
  · split at h
    · cases h
    · cases h
      exact ⟨hk.1, by rw [VideoRow.save_status, hk.2.1], hk.2.2⟩
  all_goals first
    | (cases h; trivial)
    | cases h

/-- Everything read exists: a committing call finds the row it is about. -/
theorem Logged.row_of_mem {db : Db} (h : Logged db) {id : Uuid} {s : VideoStatus}
    (hs : s ∈ db.history id) : ∃ row, db.rows id = some row := by
  cases hr : db.rows id with
  | some row => exact ⟨row, rfl⟩
  | none =>
    have hn := h.last id
    simp only [hr, Option.map_none, List.getLast?_eq_none_iff] at hn
    simp [hn] at hs

theorem good {as : List Action} {s : State} (h : pool.machine.Reaches as s) :
    Pool.Good Logged Consistent s := by
  refine Pool.good_of_reaches (p := pool) ?_ ?_ ?_ h
  · exact ⟨⟨fun _ => rfl, fun _ s hs => by simp [pool, Pool.machine] at hs⟩, fun _ => trivial⟩
  · intro s i a db' k' hg hs
    obtain ⟨hl, hk⟩ := hg
    rcases step_cases hs with ⟨uc, before, video, row, he, -, rfl, rfl⟩ | ⟨-, hr, hh⟩
    · have hc := hk i
      rw [he] at hc
      refine ⟨hl.append rfl rfl (fun hn => ?_), trivial,
        fun j _ => (hk j).mono (history_grows _ _ _)⟩
      simp [Consistent, hn] at hc
    · refine ⟨⟨fun x => ?_, fun x => ?_⟩, step_consistent hl (hk i) hs hh, fun j _ => ?_⟩
      · rw [hh, hr]
        exact hl.last x
      · rw [hh]
        exact hl.first x
      · exact (hk j).mono (fun x t ht => by rwa [hh])
  · intro s e db' hg hs
    obtain ⟨hl, hk⟩ := hg
    rcases env_cases hs with ⟨id, row, hn, hp, hr, hh⟩ | ⟨id, row, row', ho, he, hr, hh⟩
    · refine ⟨hl.append hr (hp ▸ hh) (fun _ => hp), fun j => (hk j).mono fun x t ht => ?_⟩
      rw [hh]
      by_cases hx : x = id
      · subst x
        simp [ht]
      · simpa [hx] using ht
    · refine ⟨⟨fun x => ?_, fun x => hh ▸ hl.first x⟩,
        fun j => (hk j).mono (fun x t ht => by rwa [hh])⟩
      rw [hr, hh]
      by_cases hx : x = id
      · subst x
        simp [hl.last id, ho, he]
      · simpa [hx] using hl.last x

/-- In a path the statuses only move forward. -/
def rank : VideoStatus → Nat
  | .pending => 0
  | .processing => 1
  | .done => 2
  | .failed => 2

theorem rank_lt_of_allowed : ∀ {a b : VideoStatus}, b ∈ a.allowed → rank a < rank b := by
  intro a b h
  cases a <;> cases b <;> first | decide | (revert h; decide)

theorem IsPath.forward {history : List VideoStatus} (h : IsPath history) {a b : VideoStatus}
    (ha : a ∈ history) (hb : history.getLast? = some b) : a = b ∨ rank a < rank b := by
  have hp : history.Pairwise (fun a b => rank a < rank b) := by
    have hc : history.IsChain (fun a b => rank a < rank b) := h.imp fun _ _ => rank_lt_of_allowed
    have : IsTrans VideoStatus (fun a b => rank a < rank b) := ⟨fun _ _ _ => Nat.lt_trans⟩
    exact List.isChain_iff_pairwise.mp hc
  obtain ⟨pre, rfl⟩ := List.getLast?_eq_some_iff.mp hb
  rcases List.mem_append.mp ha with hm | hm
  · exact .inr ((List.pairwise_append.mp hp).2.2 a hm b (by simp))
  · exact .inl (by simpa using hm)

/-- Seen from a status read earlier on the path, the move of a call is still allowed
exactly when the row has not moved in a way that matters. -/
theorem allowed_iff_unmoved {before current : VideoStatus} {uc : UseCase}
    (ha : uc.target ∈ before.allowed) (hf : before = current ∨ rank before < rank current) :
    uc.target ∈ current.allowed ↔
      current = before ∨ uc = .markFailed ∧ before = .pending ∧ current = .processing := by
  cases uc <;> cases before <;> cases current <;> revert ha hf <;> decide

theorem isPath_append {history : List VideoStatus} {a b : VideoStatus}
    (ha : history.getLast? = some a) :
    IsPath (history ++ [b]) ↔ IsPath history ∧ b ∈ a.allowed := by
  simp [IsPath, List.isChain_append, ha]

def AllPaths (db : Db) : Prop := ∀ id, IsPath (db.history id)

theorem paths_update {db db' : Db} {id : Uuid} {h : List VideoStatus}
    (hh : db'.history = Function.update db.history id h)
    (hi : IsPath h → IsPath (db.history id)) :
    AllPaths db' ↔ AllPaths db ∧ IsPath h := by
  unfold AllPaths
  rw [hh]
  constructor
  · intro hp
    have hid := hp id
    rw [Function.update_self] at hid
    refine ⟨fun x => ?_, hid⟩
    by_cases hx : x = id
    · subst x
      exact hi hid
    · simpa [hx] using hp x
  · intro hboth x
    obtain ⟨hp, hid⟩ := hboth
    by_cases hx : x = id
    · subst x
      simpa using hid
    · simpa [hx] using hp x

/-- One action keeps the paths exactly when it meets the condition. -/
theorem paths_step {s t : State} {a : Action} (hg : Pool.Good Logged Consistent s)
    (hs : pool.machine.step s a = some t) :
    AllPaths t.world ↔ AllPaths s.world ∧ Unmoved s a := by
  obtain ⟨hl, hk⟩ := hg
  cases a with
  | act i a =>
    obtain ⟨db', k', hw, rfl⟩ := Pool.act_step.mp hs
    rcases step_cases hw with ⟨uc, before, video, row, he, rfl, rfl, rfl⟩ | ⟨hne, -, hh⟩
    · have hc := hk i
      rw [he] at hc
      obtain ⟨hb, hst, ha⟩ := hc
      obtain ⟨old, ho⟩ := hl.row_of_mem hb
      have hlast : (s.world.history video.id).getLast? = some old.status := by
        rw [hl.last, ho]
        rfl
      have hu : Unmoved s (.act i .commit) ↔ old.status = before ∨
          uc = .markFailed ∧ before = .pending ∧ old.status = .processing := by
        simp [Unmoved, he, ho]
      rw [paths_update rfl (fun hp => ((isPath_append hlast).mp hp).1), isPath_append hlast,
        hst, hu]
      constructor
      · intro hboth
        obtain ⟨hp, hpid, hal⟩ := hboth
        exact ⟨hp, (allowed_iff_unmoved ha (hpid.forward hb hlast)).mp hal⟩
      · intro hboth
        obtain ⟨hp, hu⟩ := hboth
        exact ⟨hp, hp _, (allowed_iff_unmoved ha ((hp _).forward hb hlast)).mpr hu⟩
    · have hu : Unmoved s (.act i a) := by
        cases a with
        | commit => exact absurd rfl hne
        | _ => trivial
      simp [AllPaths, hh, hu]
  | env e =>
    obtain ⟨db', hw, rfl⟩ := Pool.env_step.mp hs
    have hu : Unmoved s (.env e) := trivial
    rcases env_cases hw with ⟨id, row, hn, hp, hr, hh⟩ | ⟨id, row, row', ho, he, hr, hh⟩
    · have hnil : s.world.history id = [] := by
        have h := hl.last id
        simpa [hn] using h
      rw [hnil] at hh
      rw [paths_update hh (fun _ => by simp [hnil, IsPath])]
      simp [hu, IsPath]
    · simp [AllPaths, hh, hu]

/-- The committed statuses form paths of the transition table in exactly the runs whose
commits all find the status they were decided on. -/
theorem status_paths_iff_unmoved {as : List Action} {s : State}
    (h : pool.machine.Reaches as s) :
    (∀ id, IsPath (s.world.history id) ∧ TerminalLast (s.world.history id)) ↔
      pool.machine.Meets Unmoved pool.machine.start as := by
  have hp : (∀ id, IsPath (s.world.history id) ∧ TerminalLast (s.world.history id)) ↔
      AllPaths s.world := ⟨fun hp id => (hp id).1, fun hp id => ⟨hp id, (hp id).terminal⟩⟩
  rw [hp]
  refine h.induct (P := fun as s => AllPaths s.world ↔
    pool.machine.Meets Unmoved pool.machine.start as) ?_ ?_
  · exact ⟨fun _ => trivial, fun _ _ => by simp [pool, Pool.machine, IsPath]⟩
  · intro as s a t hr ih hs
    rw [paths_step (good hr) hs, ih, meets_snoc]
    constructor
    · intro hx
      obtain ⟨hm, hu⟩ := hx
      refine ⟨hm, fun u hu' => ?_⟩
      cases hr.symm.trans hu'
      exact hu
    · intro hx
      obtain ⟨hm, hu⟩ := hx
      exact ⟨hm, hu s hr⟩

def clip : Uuid := Uuid.null

def noon : Datetime := ⟨⟨2025, 1, 1, 12, 0, 0, 0⟩, by decide⟩

/-- One whole call, with no other between its steps. -/
def callOf (i : Nat) (uc : UseCase) : List Action :=
  [.act i (.get uc clip), .act i .mark, .act i .save, .act i .commit]

def oneByOne : List Action :=
  .env (.upload clip "a.mp4" noon []) :: (callOf 0 .markProcessing ++ callOf 1 .markDone)

theorem one_by_one_is_path : ∃ s, pool.machine.Reaches oneByOne s ∧
    ∀ id, IsPath (s.world.history id) ∧ TerminalLast (s.world.history id) := by
  have hr : (pool.machine.exec pool.machine.start oneByOne).map (fun _ => ()) = some () := by
    decide
  obtain ⟨s, hs, -⟩ := Machine.reaches_of_map hr
  exact ⟨s, hs, (status_paths_iff_unmoved hs).mpr (by decide)⟩

/-- The cancellation reads PROCESSING, the job's completion commits DONE, and the
cancellation then writes FAILED over it. -/
def staleCancel : List Action :=
  .env (.upload clip "a.mp4" noon []) :: (callOf 0 .markProcessing ++
    [.act 2 (.get .markFailed clip), .act 2 .mark] ++ callOf 1 .markDone ++
    [.act 2 .save, .act 2 .commit])

theorem stale_cancel_leaves_done : ¬ ∀ as s, pool.machine.Reaches as s →
    ∀ id, IsPath (s.world.history id) ∧ TerminalLast (s.world.history id) := by
  intro hall
  have hr : (pool.machine.exec pool.machine.start staleCancel).map
      (fun s => s.world.history clip) = some [.pending, .processing, .done, .failed] := by
    decide
  obtain ⟨s, hs, hh⟩ := Machine.reaches_of_map hr
  have hp := (hall _ _ hs clip).1
  rw [hh] at hp
  simp [IsPath, VideoStatus.allowed] at hp

end BackendTemplates.Media.StatusCalls
