import BackendTemplates.Processing.Worker

namespace BackendTemplates.Processing
open Python Runs

def Returned (log : List Event) (video : Uuid) (kind : JobKind) : Prop :=
  ∃ i, Event.returned i video kind ∈ log

def Processed (log : List Event) (video : Uuid) : Prop :=
  ∃ i kind, Event.processed i video kind ∈ log

def Terminal (log : List Event) (video : Uuid) : Prop :=
  ∃ i kind, Event.terminal i video kind ∈ log

/-- Where all kinds returned and none failed for good, the video was published. -/
def NotForgotten (video : Uuid) (w : World) : Prop :=
  (∀ kind, Returned w.log video kind) → ¬ Terminal w.log video → Processed w.log video

def isProcessed (video : Uuid) : Event → Bool
  | .processed _ v _ => v == video
  | _ => false

/-- The action runs `add`, also when its reply is lost. -/
def Adds : Act → Bool
  | .add => true
  | .fail true => true
  | _ => false

/-- Until the video is published, no completion finds the join of the video run out with
another kind in it. -/
def Remembered (video : Uuid) (s : State) : Action → Prop
  | .act i a =>
    match s.clients i, Adds a with
    | .worked job, true =>
      match s.world.join video with
      | some j => job.video = video → s.world.log.any (isProcessed video) = false →
          j.kinds ⊆ insert job.kind (s.world.live video)
      | none => True
    | _, _ => True
  | .env _ => True

instance (video : Uuid) (s : State) (a : Action) : Decidable (Remembered video s a) := by
  unfold Remembered
  split
  · split
    · split <;> infer_instance
    · infer_instance
  · infer_instance

theorem processed_iff {log : List Event} {video : Uuid} :
    Processed log video ↔ log.any (isProcessed video) = true := by
  rw [List.any_eq_true]
  constructor
  · intro hx
    obtain ⟨i, kind, h⟩ := hx
    exact ⟨_, h, by simp [isProcessed]⟩
  · intro hx
    obtain ⟨e, he, hp⟩ := hx
    cases e with
    | processed i v kind =>
      simp only [isProcessed, beq_iff_eq] at hp
      subst hp
      exact ⟨i, kind, he⟩
    | _ => simp [isProcessed] at hp

/-- The join set holds every kind that returned, and some kind has not. -/
structure Waiting (video : Uuid) (w : World) : Prop where
  recorded : ∀ kind, Returned w.log video kind → ∃ j, w.join video = some j ∧ kind ∈ j.kinds
  missing : ∃ kind, ¬ Returned w.log video kind

/-- A video is settled once it is published or failed for good. -/
def Settled (video : Uuid) (w : World) : Prop := Processed w.log video ∨ Terminal w.log video

def Open (video : Uuid) (w : World) : Prop := ¬ Settled video w → Waiting video w

/-- Only settled videos are cleared. -/
def Clears (video : Uuid) (_ : Nat) (w : World) : Client → Prop
  | .clearing job => job.video = video → Settled video w
  | .failing job => job.video = video → Settled video w
  | .cleaning job => job.video = video → Settled video w
  | _ => True

section
variable {video : Uuid} {ttl i : Nat} {w w' : World} {k k' : Client} {a : Act}

theorem Settled.append {es : List Event} (h : Settled video w) (hl : w'.log = w.log ++ es) :
    Settled video w' := by
  unfold Settled Processed Terminal at *
  rw [hl]
  rcases h with ⟨i, kind, h⟩ | ⟨i, kind, h⟩
  · exact .inl ⟨i, kind, List.mem_append_left _ h⟩
  · exact .inr ⟨i, kind, List.mem_append_left _ h⟩

theorem Clears.append {es : List Event} (h : Clears video i w k) (hl : w'.log = w.log ++ es) :
    Clears video i w' k := by
  cases k with
  | clearing job => exact fun hv => (h hv).append hl
  | failing job => exact fun hv => (h hv).append hl
  | cleaning job => exact fun hv => (h hv).append hl
  | _ => trivial

theorem clears_of_no_job (h : k.job? = none) : Clears video i w k := by
  cases k <;> trivial

/-- Steps which return no job of the video and keep its join. -/
theorem Open.quiet {es : List Event} (h : Open video w) (hl : w'.log = w.log ++ es)
    (hj : ∀ j, w.join video = some j → ∃ j', w'.join video = some j' ∧ j.kinds ⊆ j'.kinds)
    (hes : ∀ i kind, Event.returned i video kind ∉ es) : Open video w' := by
  intro hn
  have hw := h (fun hs => hn (hs.append hl))
  have hret {kind : JobKind} (hr : Returned w'.log video kind) : Returned w.log video kind := by
    obtain ⟨i, hr⟩ := hr
    rw [hl] at hr
    rcases List.mem_append.mp hr with hr | hr
    · exact ⟨i, hr⟩
    · exact absurd hr (hes i kind)
  refine ⟨fun kind hr => ?_, ?_⟩
  · obtain ⟨j, hjoin, hm⟩ := hw.recorded kind (hret hr)
    obtain ⟨j', hj', hsub⟩ := hj j hjoin
    exact ⟨j', hj', hsub hm⟩
  · obtain ⟨kind, hk⟩ := hw.missing
    exact ⟨kind, fun hr => hk (hret hr)⟩

theorem Open.of_settled {es : List Event} (h : Settled video w) (hl : w'.log = w.log ++ es) :
    Open video w' :=
  fun hn => absurd (h.append hl) hn

/-- Steps which leave the join of the video alone and return none of its jobs. -/
theorem Open.append {es : List Event} (h : Open video w) (hl : w'.log = w.log ++ es)
    (hj : w'.join video = w.join video) (hes : ∀ i kind, Event.returned i video kind ∉ es) :
    Open video w' :=
  h.quiet hl (fun j hjoin => ⟨j, by rw [hj, hjoin], Finset.Subset.refl _⟩) hes

/-- What a completion needs to find: no kind in the join that it would forget. -/
def Keeps (video : Uuid) (w : World) (job : Job) : Prop :=
  job.video = video → ¬ Processed w.log video → ∀ j, w.join video = some j →
    j.kinds ⊆ insert job.kind (w.live video)

theorem add_log_eq (job : Job) (es : List Event) : ∃ es', ((w.add ttl job).emit es).log =
    w.log ++ es' ∧ ∀ e ∈ es', e ∈ es ∨ e = .expired job.video := by
  refine ⟨_, List.append_assoc w.log _ _, fun e he => ?_⟩
  rcases List.mem_append.mp he with he | he
  · split at he
    · exact .inr (by simpa using he)
    · simp at he
  · exact .inl he

theorem add_join (job : Job) (es : List Event) : ((w.add ttl job).emit es).join job.video =
    some ⟨insert job.kind (w.live job.video), w.now + ttl * 1000⟩ :=
  Function.update_self ..

/-- A completion that forgets nothing, whatever it logs but the return of a job. -/
theorem Open.add {job : Job} {es : List Event} (h : Open video w) (hk : Keeps video w job)
    (hes : ∀ i kind, Event.returned i video kind ∉ es) :
    Open video ((w.add ttl job).emit es) := by
  obtain ⟨es', hl, hmem⟩ := @add_log_eq ttl w job es
  have hes' (i : Nat) (kind : JobKind) : Event.returned i video kind ∉ es' := by
    intro he
    rcases hmem _ he with he | he
    · exact hes i kind he
    · cases he
  by_cases hs : Settled video w
  · exact Open.of_settled hs hl
  · refine h.quiet hl (fun j hj => ?_) hes'
    by_cases hv : job.video = video
    · subst hv
      exact ⟨_, add_join job es, hk rfl (fun hp => hs (.inl hp)) j hj⟩
    · exact ⟨j, by simpa [World.emit, World.add, Ne.symm hv] using hj, Finset.Subset.refl _⟩

/-- A completion below the fan-out: its kind is in the set when the job returns, and the
missing kinds have not returned. -/
theorem Open.record {job : Job} (h : Open video w) (hk : Keeps video w job)
    (hc : isComplete (w.doneCount job) fanOut = false) :
    Open video ((w.add ttl job).emit
      [.recorded i job.video job.kind, .returned i job.video job.kind]) := by
  obtain ⟨es', hl, hmem⟩ := @add_log_eq ttl w job
    [.recorded i job.video job.kind, .returned i job.video job.kind]
  by_cases hs : Settled video w
  · exact Open.of_settled hs hl
  by_cases hv : job.video = video
  · subst hv
    intro _
    have hw := h hs
    have hrec (kind : JobKind) (hr : Returned ((w.add ttl job).emit
        [.recorded i job.video job.kind, .returned i job.video job.kind]).log job.video kind) :
        kind ∈ insert job.kind (w.live job.video) := by
      obtain ⟨n, hr⟩ := hr
      rw [hl] at hr
      rcases List.mem_append.mp hr with hr | hr
      · obtain ⟨j, hj, hm⟩ := hw.recorded kind ⟨n, hr⟩
        exact hk rfl (fun hp => hs (.inl hp)) j hj hm
      · rcases hmem _ hr with hr | hr
        · simp only [List.mem_cons, reduceCtorEq, Event.returned.injEq, List.not_mem_nil, or_false,
            false_or] at hr
          rw [hr.2.2]
          exact Finset.mem_insert_self _ _
        · cases hr
    refine ⟨fun kind hr => ⟨_, add_join job _, hrec kind hr⟩, ?_⟩
    by_contra hall
    have hfull : isComplete (w.doneCount job) fanOut = true :=
      (isComplete_iff job).mpr fun kind => by
        by_contra hm
        exact hall ⟨kind, fun hr => hm (hrec kind hr)⟩
    rw [hc] at hfull
    cases hfull
  · apply h.append hl (by simp [World.emit, World.add, Ne.symm hv])
    intro n kind he
    rcases hmem _ he with he | he
    · simp only [List.mem_cons, reduceCtorEq, Event.returned.injEq, List.not_mem_nil, or_false,
        false_or] at he
      exact hv he.2.1.symm
    · cases he

/-- Clearing a settled video, or another one. -/
theorem Open.clear {job : Job} {es : List Event} (h : Open video w)
    (hc : job.video = video → Settled video w)
    (hes : job.video ≠ video → ∀ i kind, Event.returned i video kind ∉ es) :
    Open video ((w.clear job.video).emit es) := by
  by_cases hv : job.video = video
  · exact Open.of_settled (hc hv) rfl
  · exact h.append rfl (by simp [World.emit, World.clear, Ne.symm hv]) (hes hv)

theorem open_step (ho : Open video w) (hc : Clears video i w k)
    (hadd : Adds a = true → ∀ job, k = .worked job → Keeps video w job)
    (h : Effect ttl i w a k w' k') : Open video w' ∧ Clears video i w' k' := by
  cases h with
  | quiet log join next =>
    have hl : w'.log = w.log ++ [] := by simp [log]
    refine ⟨ho.append hl (by rw [join]) (by simp), ?_⟩
    rcases next with rfl | ⟨hn, _⟩
    · exact hc.append hl
    · exact clears_of_no_job hn
  | started v before next => exact ⟨ho.append rfl rfl (by simp), clears_of_no_job next⟩
  | ran job log join => exact ⟨ho.append log (by rw [join]) (by simp), trivial⟩
  | worked job => exact ⟨ho.append rfl rfl (by simp), trivial⟩
  | recorded job count => exact ⟨ho.record (hadd rfl job rfl) count, trivial⟩
  | completed job count => exact ⟨ho.add (hadd rfl job rfl) (by simp), trivial⟩
  | processed job =>
    refine ⟨ho.append rfl rfl (by simp), fun hv => .inl ⟨i, job.kind, ?_⟩⟩
    simp [World.emit, hv]
  | cleared job =>
    refine ⟨ho.clear hc fun hv n kind he => ?_, trivial⟩
    simp only [List.mem_singleton, Event.returned.injEq] at he
    exact hv he.2.1.symm
  | errored job before applied next =>
    refine ⟨?_, by rcases next with rfl | rfl <;> trivial⟩
    cases applied with
    | none => exact ho.append rfl rfl (by simp)
    | add => exact ho.add (hadd rfl job rfl) (by simp)
    | processed =>
      exact ho.append (List.append_assoc w.log _ _) rfl (by simp)
    | clear => exact ho.clear hc (by simp)
  | terminal job =>
    refine ⟨ho.append rfl rfl (by simp), fun hv => .inr ⟨i, job.kind, ?_⟩⟩
    simp [World.emit, hv]
  | failed job applied =>
    rcases applied with rfl | rfl
    · exact ⟨ho, hc⟩
    · exact ⟨ho.append rfl rfl (by simp), fun hv => (hc hv).append rfl⟩
  | cleaned job applied =>
    refine ⟨?_, trivial⟩
    rcases applied with rfl | rfl
    · exact ho
    · by_cases hv : job.video = video
      · exact Open.of_settled (hc hv) (List.append_nil _).symm
      · exact ho.append (List.append_nil _).symm (by simp [World.clear, Ne.symm hv]) (by simp)

end

/-- A video all of whose jobs returned is published, in every run in which no completion
finds the join run out with another kind in it. -/
theorem join_not_forgotten {cfg : Config} {video : Uuid} {as : List Action} {s : State}
    (h : (pool cfg).machine.Reaches as s)
    (hm : (pool cfg).machine.Meets (Remembered video) (pool cfg).machine.start as) :
    NotForgotten video s.world := by
  have ho : Open video s.world := by
    refine (Pool.good_of_meets (p := pool cfg) (I := Open video) (K := Clears video)
      ?_ ?_ ?_ h hm).1
    · exact ⟨fun _ => ⟨fun _ hr => (by cases hr.choose_spec), .stt,
        fun hr => (by cases hr.choose_spec)⟩, fun _ => trivial⟩
    · intro s i a w k hg hok hs
      obtain ⟨ho, hk⟩ := hg
      have he := step_effect hs
      have hadd : Adds a = true → ∀ job, s.clients i = .worked job → Keeps video s.world job := by
        intro ha job hkj hv hp j hj
        simp only [Remembered, hkj, ha, hj] at hok
        exact hok hv (by simpa [processed_iff] using hp)
      obtain ⟨ho', hk'⟩ := open_step ho (hk i) hadd he
      obtain ⟨es, hl⟩ := he.log_grows
      exact ⟨ho', hk', fun j _ => (hk j).append hl⟩
    · intro s e w hg _ hs
      obtain ⟨ho, hk⟩ := hg
      cases hs
      exact ⟨ho.append (List.append_nil _).symm rfl (by simp),
        fun j => (hk j).append (List.append_nil _).symm⟩
  intro hall hnt
  by_contra hp
  obtain ⟨kind, hk⟩ := (ho (fun hs => hs.elim hp hnt)).missing
  exact hk (hall kind)

/-- The second job takes most of the TTL, and still finds the first one's kind. -/
def slowJob : List Action :=
  fanOutRun ++ [.act 0 .publishStarted, .act 0 .markProcessed] ++ jobRun 1 ++ [.env 3599999] ++
    jobRun 2 ++ jobRun 3 ++ [.act 3 .publishProcessed, .act 3 .clear]

theorem slow_job_not_forgotten : ∃ s, (pool defaults).machine.Reaches slowJob s ∧
    NotForgotten clip s.world := by
  have hr : ((pool defaults).machine.exec (pool defaults).machine.start slowJob).map
      (fun _ => ()) = some () := by
    decide
  obtain ⟨s, hs, -⟩ := Machine.reaches_of_map hr
  exact ⟨s, hs, join_not_forgotten hs (by decide)⟩

/-- The queue takes longer than the TTL to get to the second job. -/
def lateJob : List Action :=
  fanOutRun ++ [.act 0 .publishStarted, .act 0 .markProcessed] ++ jobRun 1 ++ [.env 3601000] ++
    jobRun 2 ++ jobRun 3

theorem late_job_forgets_video : ¬ ∀ (cfg : Config) (video : Uuid) as s,
    (pool cfg).machine.Reaches as s → NotForgotten video s.world := by
  intro hall
  have hr : ((pool defaults).machine.exec (pool defaults).machine.start lateJob).map
      (fun s => s.world.log) = some [.started 0 clip,
        .ran 1 clip .transcode, .worked 1 clip .transcode, .recorded 1 clip .transcode,
        .returned 1 clip .transcode,
        .ran 2 clip .plagiarism, .worked 2 clip .plagiarism, .expired clip,
        .recorded 2 clip .plagiarism, .returned 2 clip .plagiarism,
        .ran 3 clip .stt, .worked 3 clip .stt, .recorded 3 clip .stt, .returned 3 clip .stt] := by
    decide
  obtain ⟨s, hs, hl⟩ := Machine.reaches_of_map hr
  have hret (kind : JobKind) : Returned s.world.log clip kind := by
    rw [hl]
    cases kind with
    | transcode => exact ⟨1, by simp⟩
    | plagiarism => exact ⟨2, by simp⟩
    | stt => exact ⟨3, by simp⟩
  have hnt : ¬ Terminal s.world.log clip := by
    rw [hl]
    intro hx
    obtain ⟨i, kind, h⟩ := hx
    simp at h
  obtain ⟨i, kind, h⟩ := hall defaults clip _ s hs hret hnt
  rw [hl] at h
  simp at h

end BackendTemplates.Processing
