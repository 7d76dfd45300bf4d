import BackendTemplates.Processing.JoinSoundness

namespace BackendTemplates.Processing
open Python Runs

/-- The stages a run of a job passes without errors. -/
inductive Stage where
  | ran
  | recorded
  | returned
  | completed
  | processed
  deriving DecidableEq

def Event.stage? : Event → Option (Stage × Nat × Uuid × JobKind)
  | .ran i video kind => some (.ran, i, video, kind)
  | .recorded i video kind => some (.recorded, i, video, kind)
  | .returned i video kind => some (.returned, i, video, kind)
  | .completed i video kind => some (.completed, i, video, kind)
  | .processed i video kind => some (.processed, i, video, kind)
  | .started _ _ => none
  | .worked _ _ _ => none
  | .expired _ => none
  | .errored _ _ _ => none
  | .terminal _ _ _ => none
  | .failed _ _ => none

/-- The run and the kind of an event of this stage, for one video. -/
def Event.reached (video : Uuid) (stage : Stage) (e : Event) : Option (Nat × JobKind) :=
  match e.stage? with
  | none => none
  | some (st, i, v, kind) => if st = stage ∧ v = video then some (i, kind) else none

def runs (video : Uuid) (stage : Stage) (log : List Event) : List (Nat × JobKind) :=
  log.filterMap (Event.reached video stage)

/-- No run of the video's jobs met an error or a join that had run out, and no kind of job
was run twice. -/
structure Clean (video : Uuid) (log : List Event) : Prop where
  errors : ∀ i kind, Event.errored i video kind ∉ log
  expiry : Event.expired video ∉ log
  once : ∀ kind, ((runs video .ran log).map Prod.snd).count kind ≤ 1

namespace Client

def unrecorded (video : Uuid) (kind : JobKind) : Client → Nat
  | .working job => if job.video = video ∧ job.kind = kind then 1 else 0
  | .worked job => if job.video = video ∧ job.kind = kind then 1 else 0
  | _ => 0

def unreturned (video : Uuid) (kind : JobKind) : Client → Nat
  | .completing job => if job.video = video ∧ job.kind = kind then 1 else 0
  | .clearing job => if job.video = video ∧ job.kind = kind then 1 else 0
  | _ => 0

def unpublished (video : Uuid) (kind : JobKind) : Client → Nat
  | .completing job => if job.video = video ∧ job.kind = kind then 1 else 0
  | _ => 0

theorem unpublished_le (k : Client) (video : Uuid) (kind : JobKind) :
    k.unpublished video kind ≤ k.unreturned video kind := by
  cases k <;> simp [unpublished, unreturned]

/-- The job of a process that failed on it. -/
def broken? : Client → Option Job
  | .raised job => some job
  | .failing job => some job
  | .cleaning job => some job
  | _ => none

/-- The job of a process that found the join complete. -/
def complete? : Client → Option Job
  | .completing job => some job
  | .clearing job => some job
  | _ => none

end Client

/-- The runs of one process on the video's jobs are accounted for stage by stage. -/
structure Tally (video : Uuid) (i : Nat) (log : List Event) (k : Client) : Prop where
  recorded : ∀ kind, (runs video .ran log).count (i, kind) =
    (runs video .recorded log).count (i, kind) + k.unrecorded video kind
  returned : ∀ kind, (runs video .recorded log).count (i, kind) =
    (runs video .returned log).count (i, kind) + k.unreturned video kind
  published : ∀ kind, (runs video .completed log).count (i, kind) =
    (runs video .processed log).count (i, kind) + k.unpublished video kind
  complete : ∀ job, k.complete? = some job → job.video = video →
    (i, job.kind) ∈ runs video .completed log
  sound : ∀ job, k.broken? = some job → job.video ≠ video

def kindsOf (w : World) (video : Uuid) : Finset JobKind :=
  match w.join video with
  | none => ∅
  | some j => j.kinds

def Recorded (video : Uuid) (log : List Event) (kind : JobKind) : Prop :=
  kind ∈ (runs video .recorded log).map Prod.snd

/-- Until every kind is recorded the join set holds the recorded ones and nobody has found
it complete; from then on exactly one run has. -/
structure Progress (video : Uuid) (w : World) : Prop where
  partly : (∃ kind, ¬ Recorded video w.log kind) →
    (∀ kind, kind ∈ kindsOf w video ↔ Recorded video w.log kind) ∧
      runs video .completed w.log = []
  fully : (∀ kind, Recorded video w.log kind) → (runs video .completed w.log).length = 1

def Counted (video : Uuid) (w : World) : Prop := Clean video w.log → Progress video w

def Accounted (video : Uuid) (i : Nat) (w : World) (k : Client) : Prop :=
  Clean video w.log → Tally video i w.log k

section
variable {video : Uuid} {ttl i : Nat} {w w' : World} {k k' : Client} {a : Act}
  {log es : List Event}

@[simp] theorem runs_nil (stage : Stage) : runs video stage [] = [] := rfl

@[simp] theorem runs_cons (stage : Stage) (e : Event) :
    runs video stage (e :: es) = (e.reached video stage).toList ++ runs video stage es := by
  cases he : e.reached video stage with
  | none => simp [runs, List.filterMap_cons_none he]
  | some x => simp [runs, List.filterMap_cons_some he]

theorem runs_append (stage : Stage) :
    runs video stage (log ++ es) = runs video stage log ++ runs video stage es := by
  simp [runs]

theorem runs_add (stage : Stage) (job : Job) :
    runs video stage (w.add ttl job).log = runs video stage w.log := by
  have hn : runs video stage (if w.overdue job.video then [.expired job.video] else []) = [] := by
    split
    · rfl
    · rfl
  simp only [World.add, runs_append, hn, List.append_nil]

theorem Clean.of_append (h : Clean video (log ++ es)) : Clean video log := by
  refine ⟨fun i kind hm => h.errors i kind (List.mem_append_left _ hm),
    fun hm => h.expiry (List.mem_append_left _ hm), fun kind => ?_⟩
  have ho := h.once kind
  rw [runs_append, List.map_append, List.count_append] at ho
  omega

theorem count_snd_two (l : List (Nat × JobKind)) (kind : JobKind) {i j : Nat} (hij : i ≠ j) :
    l.count (i, kind) + l.count (j, kind) ≤ (l.map Prod.snd).count kind := by
  induction l with
  | nil => simp
  | cons x l ih =>
    obtain ⟨n, c⟩ := x
    simp only [List.count_cons, List.map_cons, beq_iff_eq, Prod.mk.injEq]
    split <;> split <;> split <;> grind

theorem count_snd_one (l : List (Nat × JobKind)) (i : Nat) (kind : JobKind) :
    l.count (i, kind) ≤ (l.map Prod.snd).count kind := by
  induction l with
  | nil => simp
  | cons x l ih =>
    obtain ⟨n, c⟩ := x
    simp only [List.count_cons, List.map_cons, beq_iff_eq, Prod.mk.injEq]
    split <;> split <;> grind

/-- Where an error has been logged, the job was one of another video. -/
theorem Clean.errored_elsewhere (h : Clean video log) (i : Nat) {job : Job}
    (hm : .errored i job.video job.kind ∈ log) : job.video ≠ video := by
  rintro rfl
  exact h.errors i job.kind hm

/-- Of a kind that was run at most once there is at most one run. -/
theorem Clean.one_run (h : Clean video log) {i j : Nat} {kind : JobKind}
    (hi : 1 ≤ (runs video .ran log).count (i, kind))
    (hj : 1 ≤ (runs video .ran log).count (j, kind)) :
    i = j ∧ (runs video .ran log).count (i, kind) = 1 := by
  have ho := h.once kind
  by_cases hij : i = j
  · have h1 := count_snd_one (runs video .ran log) i kind
    exact ⟨hij, by omega⟩
  · have h2 := count_snd_two (runs video .ran log) kind hij
    omega

@[simp] theorem runs_emit (stage : Stage) :
    runs video stage (w.emit es).log = runs video stage w.log ++ runs video stage es :=
  runs_append stage

/-- The accounts stay balanced when what is logged and where the process moves agree. -/
theorem Tally.step (ht : Tally video i log k)
    (hr : ∀ kind, (runs video .ran es).count (i, kind) + k.unrecorded video kind =
      (runs video .recorded es).count (i, kind) + k'.unrecorded video kind)
    (hu : ∀ kind, (runs video .recorded es).count (i, kind) + k.unreturned video kind =
      (runs video .returned es).count (i, kind) + k'.unreturned video kind)
    (hp : ∀ kind, (runs video .completed es).count (i, kind) + k.unpublished video kind =
      (runs video .processed es).count (i, kind) + k'.unpublished video kind)
    (hc : ∀ job, k'.complete? = some job → job.video = video →
      k.complete? = some job ∨ (i, job.kind) ∈ runs video .completed es)
    (hs : ∀ job, k'.broken? = some job → job.video ≠ video) : Tally video i (log ++ es) k' := by
  refine ⟨fun kind => ?_, fun kind => ?_, fun kind => ?_, fun job hj hv => ?_, hs⟩
  · have h := ht.recorded kind
    have h' := hr kind
    simp only [runs_append, List.count_append]
    omega
  · have h := ht.returned kind
    have h' := hu kind
    simp only [runs_append, List.count_append]
    omega
  · have h := ht.published kind
    have h' := hp kind
    simp only [runs_append, List.count_append]
    omega
  · rw [runs_append, List.mem_append]
    rcases hc job hj hv with hk | hm
    · exact .inl (ht.complete job hk hv)
    · exact .inr hm

/-- A process that is not at a job of the video. -/
def Client.Foreign (video : Uuid) (k : Client) : Prop :=
  ∀ job, k.job? = some job → job.video ≠ video

theorem foreign_of_no_job (h : k.job? = none) : k.Foreign video := by
  intro job hj
  rw [h] at hj
  cases hj

theorem foreign_of_job {job : Job} (h : k.job? = some job) (hv : job.video ≠ video) :
    k.Foreign video := by
  intro job' hj
  rw [h] at hj
  cases hj
  exact hv

theorem Client.Foreign.counts (h : k.Foreign video) (kind : JobKind) :
    k.unrecorded video kind = 0 ∧ k.unreturned video kind = 0 ∧ k.unpublished video kind = 0 := by
  cases k <;> first
    | exact ⟨rfl, rfl, rfl⟩
    | simp [unrecorded, unreturned, unpublished, h _ rfl]

theorem Client.Foreign.jobs (h : k.Foreign video) {job : Job}
    (hj : k.complete? = some job ∨ k.broken? = some job) : job.video ≠ video := by
  cases k <;> simp only [complete?, broken?, reduceCtorEq, or_self, or_false, false_or] at hj
  all_goals exact h job hj

/-- Steps that have nothing to do with the video. -/
theorem Tally.foreign (ht : Tally video i log k) (hk : k.Foreign video) (hk' : k'.Foreign video)
    (hes : ∀ stage, runs video stage es = []) : Tally video i (log ++ es) k' := by
  refine ht.step (fun kind => ?_) (fun kind => ?_) (fun kind => ?_)
    (fun job hj hv => absurd hv (hk'.jobs (.inl hj))) (fun job hj => hk'.jobs (.inr hj))
  · simp [hes, (hk.counts kind).1, (hk'.counts kind).1]
  · simp [hes, (hk.counts kind).2.1, (hk'.counts kind).2.1]
  · simp [hes, (hk.counts kind).2.2, (hk'.counts kind).2.2]

theorem Tally.congr {log' : List Event} (ht : Tally video i log k)
    (hr : ∀ stage, runs video stage log' = runs video stage log) : Tally video i log' k where
  recorded kind := by simpa only [hr] using ht.recorded kind
  returned kind := by simpa only [hr] using ht.returned kind
  published kind := by simpa only [hr] using ht.published kind
  complete job hj hv := by simpa only [hr] using ht.complete job hj hv
  sound := ht.sound

theorem tally_step (ht : Tally video i w.log k) (hc : Clean video w'.log)
    (h : Effect ttl i w a k w' k') : Tally video i w'.log k' := by
  cases h with
  | quiet log join next =>
    rcases next with rfl | ⟨hk', hk⟩
    · rwa [log]
    · have hl : w'.log = w.log ++ [] := by simp [log]
      rw [hl]
      refine ht.foreign ?_ (foreign_of_no_job hk') (fun _ => rfl)
      rcases hk with hk | ⟨job, rfl⟩
      · exact foreign_of_no_job hk
      · exact foreign_of_job rfl (ht.sound job rfl)
  | started v before next =>
    exact ht.foreign (foreign_of_no_job before) (foreign_of_no_job next) (fun _ => rfl)
  | ran job log join =>
    rw [log]
    refine ht.step ?_ ?_ ?_ ?_ ?_ <;> by_cases hv : job.video = video <;>
      simp [hv, List.count_singleton, Event.reached, Event.stage?, Client.unrecorded,
        Client.unreturned, Client.unpublished, Client.complete?, Client.broken?]
  | worked job =>
    refine ht.step ?_ ?_ ?_ ?_ ?_ <;>
      simp [Event.reached, Event.stage?, Client.unrecorded, Client.unreturned, Client.unpublished,
        Client.complete?, Client.broken?]
  | recorded job count =>
    refine (ht.congr (fun stage => runs_add stage job)).step ?_ ?_ ?_ ?_ ?_ <;>
      by_cases hv : job.video = video <;>
      simp [hv, List.count_singleton, Event.reached, Event.stage?, Client.unrecorded,
        Client.unreturned, Client.unpublished, Client.complete?, Client.broken?]
  | completed job count =>
    refine (ht.congr (fun stage => runs_add stage job)).step ?_ ?_ ?_ ?_ ?_ <;>
      by_cases hv : job.video = video <;>
      simp [hv, List.count_singleton, Event.reached, Event.stage?, Client.unrecorded,
        Client.unreturned, Client.unpublished, Client.complete?, Client.broken?]
  | processed job =>
    refine ht.step ?_ ?_ ?_ ?_ ?_ <;> by_cases hv : job.video = video <;>
      simp [hv, List.count_singleton, Event.reached, Event.stage?, Client.unrecorded,
        Client.unreturned, Client.unpublished, Client.complete?, Client.broken?]
  | cleared job =>
    refine ht.step ?_ ?_ ?_ ?_ ?_ <;> by_cases hv : job.video = video <;>
      simp [hv, List.count_singleton, Event.reached, Event.stage?, Client.unrecorded,
        Client.unreturned, Client.unpublished, Client.complete?, Client.broken?]
  | errored job before applied next =>
    have hv : job.video ≠ video := hc.errored_elsewhere i (by simp [World.emit])
    have hk := foreign_of_job before hv
    have hk' : k'.Foreign video := by
      rcases next with rfl | rfl
      · exact foreign_of_job rfl hv
      · exact foreign_of_no_job rfl
    cases applied with
    | none => exact ht.foreign hk hk' (fun _ => rfl)
    | add => exact (ht.congr (fun stage => runs_add stage job)).foreign hk hk' (fun _ => rfl)
    | processed =>
      have hl : ∀ stage, runs video stage [.processed i job.video job.kind] = [] := fun stage => by
        simp [Event.reached, Event.stage?, hv]
      exact (ht.foreign hk hk hl).foreign hk hk' (fun _ => rfl)
    | clear => exact ht.foreign hk hk' (fun _ => rfl)
  | terminal job =>
    have hv := ht.sound job rfl
    exact ht.foreign (foreign_of_job rfl hv) (foreign_of_job rfl hv) (fun _ => rfl)
  | failed job applied =>
    have hv := ht.sound job rfl
    rcases applied with rfl | rfl
    · exact { ht with sound := fun job' hj => ht.sound job' hj }
    · exact ht.foreign (foreign_of_job rfl hv) (foreign_of_job rfl hv) (fun _ => rfl)
  | cleaned job applied =>
    have hv := ht.sound job rfl
    have hl : w'.log = w.log ++ [] := by rcases applied with rfl | rfl <;> simp [World.clear]
    rw [hl]
    exact ht.foreign (foreign_of_job rfl hv) (foreign_of_no_job rfl) (fun _ => rfl)

/-- Events of other processes, and those that belong to no stage, do not count for `i`. -/
def Own (i : Nat) (es : List Event) : Prop :=
  ∀ e ∈ es, e.stage?.all (fun p => p.2.1 == i)

theorem Own.run_eq (h : Own i es) {stage : Stage} {x : Nat × JobKind}
    (hx : x ∈ runs video stage es) : x.1 = i := by
  obtain ⟨e, he, hr⟩ := List.mem_filterMap.mp hx
  unfold Event.reached at hr
  split at hr
  · cases hr
  · rename_i st n v c hst
    split at hr
    · cases hr
      simpa [hst] using h e he
    · cases hr

theorem own_add (job : Job) (h : Own i es) :
    ∃ es', ((w.add ttl job).emit es).log = w.log ++ es' ∧ Own i es' := by
  refine ⟨_, List.append_assoc w.log _ _, fun e he => ?_⟩
  rcases List.mem_append.mp he with he | he
  · split at he
    · simp only [List.mem_singleton] at he
      subst he
      simp [Event.stage?]
    · simp at he
  · exact h e he

theorem Effect.own (h : Effect ttl i w a k w' k') : ∃ es, w'.log = w.log ++ es ∧ Own i es := by
  cases h with
  | quiet log join next => exact ⟨[], by simp [log], by simp [Own]⟩
  | started v before next => exact ⟨_, rfl, by simp [Own, Event.stage?]⟩
  | ran job log join => exact ⟨_, log, by simp [Own, Event.stage?]⟩
  | worked job => exact ⟨_, rfl, by simp [Own, Event.stage?]⟩
  | recorded job count => exact own_add job (by simp [Own, Event.stage?])
  | completed job count => exact own_add job (by simp [Own, Event.stage?])
  | processed job => exact ⟨_, rfl, by simp [Own, Event.stage?]⟩
  | cleared job => exact ⟨_, rfl, by simp [Own, Event.stage?]⟩
  | errored job before applied next =>
    cases applied with
    | none => exact ⟨_, rfl, by simp [Own, Event.stage?]⟩
    | add => exact own_add job (by simp [Own, Event.stage?])
    | processed => exact ⟨_, List.append_assoc w.log _ _, by simp [Own, Event.stage?]⟩
    | clear => exact ⟨_, rfl, by simp [Own, Event.stage?]⟩
  | terminal job => exact ⟨_, rfl, by simp [Own, Event.stage?]⟩
  | failed job applied =>
    rcases applied with rfl | rfl
    · exact ⟨[], by simp, by simp [Own]⟩
    · exact ⟨_, rfl, by simp [Own, Event.stage?]⟩
  | cleaned job applied =>
    rcases applied with rfl | rfl <;> exact ⟨[], by simp [World.clear], by simp [Own]⟩

/-- The accounts of the other processes are untouched. -/
theorem Tally.frame {j : Nat} (ht : Tally video j log k) (hji : j ≠ i) (ho : Own i es) :
    Tally video j (log ++ es) k := by
  have hn (stage : Stage) (kind : JobKind) : (runs video stage es).count (j, kind) = 0 :=
    List.count_eq_zero.mpr fun hm => hji (ho.run_eq hm)
  refine ⟨fun kind => ?_, fun kind => ?_, fun kind => ?_, fun job hj hv => ?_, ht.sound⟩
  · simpa [runs_append, hn] using ht.recorded kind
  · simpa [runs_append, hn] using ht.returned kind
  · simpa [runs_append, hn] using ht.published kind
  · rw [runs_append]
    exact List.mem_append_left _ (ht.complete job hj hv)

theorem Progress.congr (hp : Progress video w) (hk : kindsOf w' video = kindsOf w video)
    (hr : ∀ stage, stage = .recorded ∨ stage = .completed →
      runs video stage w'.log = runs video stage w.log) : Progress video w' := by
  have h1 := hr .recorded (.inl rfl)
  have h2 := hr .completed (.inr rfl)
  have hrec (kind : JobKind) : Recorded video w'.log kind ↔ Recorded video w.log kind := by
    unfold Recorded
    rw [h1]
  refine ⟨fun he => ?_, fun hall => ?_⟩
  · simp only [hrec] at he ⊢
    rw [hk, h2]
    exact hp.partly he
  · simp only [hrec] at hall
    rw [h2]
    exact hp.fully hall

theorem live_eq_kindsOf (h : w.overdue video = false) : w.live video = kindsOf w video := by
  unfold World.overdue at h
  unfold World.live kindsOf
  cases hj : w.join video with
  | none => rfl
  | some j =>
    have hlt : w.now < j.deadline := by simpa [hj] using h
    exact if_pos hlt

theorem Clean.not_overdue {job : Job} (hc : Clean video ((w.add ttl job).emit es).log)
    (hv : job.video = video) : w.overdue video = false := by
  subst hv
  by_contra ho
  have ho' : w.overdue job.video = true := by simpa using ho
  exact hc.expiry (by simp [World.emit, World.add, ho'])

/-- A run about to record its kind is the only run of that kind, so it records it first. -/
theorem Tally.first {job : Job} (ht : Tally video i w.log (.worked job)) (hv : job.video = video)
    (hc : Clean video w.log) (hall : ∀ j, ∃ k, Tally video j w.log k) :
    ¬ Recorded video w.log job.kind := by
  intro hr
  obtain ⟨⟨j, kind⟩, hm, rfl⟩ := List.mem_map.mp hr
  obtain ⟨kj, hj⟩ := hall j
  have hpos : 1 ≤ (runs video .recorded w.log).count (j, job.kind) := List.one_le_count_iff.mpr hm
  have h1 := hj.recorded job.kind
  have h2 := ht.recorded job.kind
  have hone : Client.unrecorded video job.kind (.worked job) = 1 := by
    simp [Client.unrecorded, hv]
  have hi : 1 ≤ (runs video .ran w.log).count (i, job.kind) := by omega
  obtain ⟨rfl, heq⟩ := hc.one_run hi (show 1 ≤ (runs video .ran w.log).count (j, job.kind) by omega)
  omega

@[simp] theorem kindsOf_emit : kindsOf (w.emit es) video = kindsOf w video := rfl

theorem kindsOf_add {job : Job} (hv : job.video = video) :
    kindsOf (w.add ttl job) video = insert job.kind (w.live video) := by
  simp [kindsOf, World.add, hv]

theorem kindsOf_add_of_ne {job : Job} (hv : job.video ≠ video) :
    kindsOf (w.add ttl job) video = kindsOf w video := by
  simp [kindsOf, World.add, Function.update_of_ne hv.symm]

theorem kindsOf_clear_of_ne {job : Job} (hv : job.video ≠ video) :
    kindsOf (w.clear job.video) video = kindsOf w video := by
  simp [kindsOf, World.clear, Function.update_of_ne hv.symm]

/-- The first add of a kind puts it into the join set, which then decides whether the run
finds the join complete. -/
theorem Progress.add {job : Job} (hp : Progress video w) (hv : job.video = video)
    (hlive : w.live video = kindsOf w video) (hn : ¬ Recorded video w.log job.kind)
    (hr : (runs video .recorded es).map Prod.snd = [job.kind])
    (hsome : (∃ kind, kind ∉ insert job.kind (w.live video)) → runs video .completed es = [])
    (hall : (∀ kind, kind ∈ insert job.kind (w.live video)) →
      (runs video .completed es).length = 1) :
    Progress video ((w.add ttl job).emit es) := by
  obtain ⟨hk, hnone⟩ := hp.partly ⟨_, hn⟩
  have hrec (kind : JobKind) : Recorded video ((w.add ttl job).emit es).log kind ↔
      kind ∈ insert job.kind (w.live video) := by
    rw [Finset.mem_insert, hlive, hk]
    simp only [Recorded, runs_emit, runs_add, hr, List.map_append, List.mem_append,
      List.mem_singleton]
    exact or_comm
  have hdone : runs video .completed ((w.add ttl job).emit es).log = runs video .completed es := by
    simp only [runs_emit, runs_add, hnone, List.nil_append]
  refine ⟨fun he => ?_, fun h => ?_⟩
  · simp only [hrec] at he ⊢
    rw [hdone]
    exact ⟨fun kind => by rw [kindsOf_emit, kindsOf_add hv], hsome he⟩
  · simp only [hrec] at h
    rw [hdone]
    exact hall h

theorem progress_step (hp : Progress video w) (ht : Tally video i w.log k)
    (hall : ∀ j, ∃ k, Tally video j w.log k) (hc : Clean video w'.log)
    (h : Effect ttl i w a k w' k') : Progress video w' := by
  have hc₀ : Clean video w.log := by
    obtain ⟨es, hl⟩ := h.log_grows
    exact (hl ▸ hc).of_append
  cases h with
  | quiet log join next =>
    exact hp.congr (by rw [kindsOf, join, kindsOf]) (fun _ _ => by rw [log])
  | started v before next =>
    exact hp.congr rfl (by simp [Event.reached, Event.stage?])
  | ran job log join =>
    refine hp.congr (by rw [kindsOf, join, kindsOf]) (fun stage hs => ?_)
    rcases hs with rfl | rfl <;> simp [log, runs_append, Event.reached, Event.stage?]
  | worked job => exact hp.congr rfl (by simp [Event.reached, Event.stage?])
  | recorded job count =>
    by_cases hv : job.video = video
    · have hlive := live_eq_kindsOf (hc.not_overdue hv)
      have hmiss : ¬ ∀ kind, kind ∈ insert job.kind (w.live video) := fun h =>
        absurd ((isComplete_iff job).mpr (hv ▸ h)) (by simp [count])
      exact hp.add hv hlive (ht.first hv hc₀ hall) (by simp [Event.reached, Event.stage?, hv])
        (fun _ => by simp [Event.reached, Event.stage?]) (fun h => absurd h hmiss)
    · refine hp.congr (kindsOf_add_of_ne hv) (fun stage _ => ?_)
      simp [runs_add, Event.reached, Event.stage?, hv]
  | completed job count =>
    by_cases hv : job.video = video
    · have hlive := live_eq_kindsOf (hc.not_overdue hv)
      have hevery := (isComplete_iff job).mp count
      rw [hv] at hevery
      exact hp.add hv hlive (ht.first hv hc₀ hall) (by simp [Event.reached, Event.stage?, hv])
        (fun hn => absurd (hevery hn.choose) hn.choose_spec)
        (fun _ => by simp [Event.reached, Event.stage?, hv])
    · refine hp.congr (kindsOf_add_of_ne hv) (fun stage _ => ?_)
      simp [runs_add, Event.reached, Event.stage?, hv]
  | processed job => exact hp.congr rfl (by simp [Event.reached, Event.stage?])
  | cleared job =>
    by_cases hv : job.video = video
    · -- the set is cleared only after the join was complete, when nothing is missing any more
      have hm := ht.complete job rfl hv
      have hrec (stage : Stage) (hs : stage = .recorded ∨ stage = .completed) :
          runs video stage ((w.clear job.video).emit [.returned i job.video job.kind]).log =
            runs video stage w.log := by
        rcases hs with rfl | rfl <;> simp [World.clear, Event.reached, Event.stage?]
      have hfull (kind : JobKind) : Recorded video w.log kind := by
        by_contra hn
        rw [(hp.partly ⟨kind, hn⟩).2] at hm
        simp at hm
      refine ⟨fun hn => ?_, fun _ => ?_⟩
      · obtain ⟨kind, hn⟩ := hn
        unfold Recorded at hn
        rw [hrec .recorded (.inl rfl)] at hn
        exact absurd (hfull kind) hn
      · rw [hrec .completed (.inr rfl)]
        exact hp.fully hfull
    · refine hp.congr (kindsOf_clear_of_ne hv) (fun stage _ => ?_)
      simp [World.clear, Event.reached, Event.stage?, hv]
  | errored job before applied next =>
    have hv : job.video ≠ video := hc.errored_elsewhere i (by simp [World.emit])
    have hnone (stage : Stage) :
        runs video stage [.errored i job.video job.kind] = [] := rfl
    cases applied with
    | none => exact hp.congr rfl (fun stage _ => by rw [runs_emit, hnone, List.append_nil])
    | add =>
      refine hp.congr (kindsOf_add_of_ne hv) (fun stage _ => ?_)
      rw [runs_emit, hnone, List.append_nil, runs_add]
    | processed =>
      refine hp.congr rfl (fun stage _ => ?_)
      simp [Event.reached, Event.stage?, hv]
    | clear =>
      refine hp.congr (kindsOf_clear_of_ne hv) (fun stage _ => ?_)
      rw [runs_emit, hnone, List.append_nil]
      rfl
  | terminal job => exact hp.congr rfl (by simp [Event.reached, Event.stage?])
  | failed job applied =>
    rcases applied with rfl | rfl
    · exact hp
    · exact hp.congr rfl (by simp [Event.reached, Event.stage?])
  | cleaned job applied =>
    rcases applied with rfl | rfl
    · exact hp
    · exact hp.congr (kindsOf_clear_of_ne (ht.sound job rfl)) (fun _ _ => rfl)

end

/-- Counts of what happened to a video whose runs met no error are kept by every run. -/
theorem accounted {cfg : Config} {as : List Action} {s : State} (video : Uuid)
    (h : (pool cfg).machine.Reaches as s) :
    Counted video s.world ∧ ∀ i, Accounted video i s.world (s.clients i) := by
  refine Pool.good_of_reaches (p := pool cfg) (K := Accounted video) ?_ ?_ ?_ h
  · refine ⟨fun _ => ⟨fun _ => ⟨fun kind => ?_, rfl⟩, fun hr => ?_⟩, fun i _ => ?_⟩
    · simp [pool, Pool.machine, kindsOf, Recorded]
    · simpa [Recorded, pool, Pool.machine] using hr .transcode
    · exact ⟨fun _ => rfl, fun _ => rfl, fun _ => rfl, fun _ hj => (by cases hj),
        fun _ hj => (by cases hj)⟩
  · intro s i a w k hg hs
    obtain ⟨hp, ht⟩ := hg
    have he := step_effect hs
    obtain ⟨es, hl, ho⟩ := he.own
    have hback (hc : Clean video w.log) : Clean video s.world.log := (hl ▸ hc).of_append
    refine ⟨fun hc => ?_, fun hc => tally_step (ht i (hback hc)) hc he, fun j hj hc => ?_⟩
    · exact progress_step (hp (hback hc)) (ht i (hback hc)) (fun j => ⟨_, ht j (hback hc)⟩) hc he
    · rw [hl]
      exact (ht j (hback hc)).frame hj ho
  · intro s e w hg hs
    cases hs
    exact ⟨fun hc => (hg.1 hc).congr rfl (fun _ _ => rfl), hg.2⟩

/-- Once a job of every kind has returned, what was found complete has been published. -/
theorem Tally.published_of_returned {video : Uuid} {log : List Event} {ks : Nat → Client}
    (ht : ∀ i, Tally video i log (ks i)) (hc : Clean video log)
    (hret : ∀ kind, ∃ i, Event.returned i video kind ∈ log) (i : Nat) (kind : JobKind) :
    (runs video .completed log).count (i, kind) = (runs video .processed log).count (i, kind) := by
  obtain ⟨j, hj⟩ := hret kind
  have hjr : 1 ≤ (runs video .returned log).count (j, kind) :=
    List.one_le_count_iff.mpr
      (List.mem_filterMap.mpr ⟨_, hj, by simp [Event.reached, Event.stage?]⟩)
  have hle := (ks i).unpublished_le video kind
  have hi := (ht i).recorded kind
  have hi' := (ht i).returned kind
  have hj' := (ht j).recorded kind
  have hj'' := (ht j).returned kind
  have hp := (ht i).published kind
  by_cases hu : (ks i).unpublished video kind = 0
  · omega
  · obtain ⟨rfl, hone⟩ := hc.one_run
      (show 1 ≤ (runs video .ran log).count (i, kind) by omega)
      (show 1 ≤ (runs video .ran log).count (j, kind) by omega)
    omega

/-- In every run a video is processed only after a job of every kind has finished its work
for it, and once when its three jobs run once each and meet no error and no expiry. -/
theorem join_sound {cfg : Config} {as : List Action} {s : State}
    (h : (pool cfg).machine.Reaches as s) :
    (∀ video pre i kind post, s.world.log = pre ++ .processed i video kind :: post →
      ∀ kind', ∃ j, Event.worked j video kind' ∈ pre) ∧
    (∀ video, (∀ kind, ((runs video .ran s.world.log).map Prod.snd).count kind = 1) →
      (∀ i kind, Event.errored i video kind ∉ s.world.log) →
      Event.expired video ∉ s.world.log →
      (∀ kind, ∃ i, Event.returned i video kind ∈ s.world.log) →
      (runs video .processed s.world.log).length = 1) := by
  refine ⟨fun video pre i kind post hl => ?_, fun video honce herr hexp hret => ?_⟩
  · exact (backed h).processed pre _ post hl
  · obtain ⟨hp, ht⟩ := accounted video h
    have hc : Clean video s.world.log := ⟨herr, hexp, fun kind => (honce kind).le⟩
    have hrec (kind : JobKind) : Recorded video s.world.log kind := by
      obtain ⟨i, hi⟩ := hret kind
      have hm : 1 ≤ (runs video .returned s.world.log).count (i, kind) :=
        List.one_le_count_iff.mpr
          (List.mem_filterMap.mpr ⟨_, hi, by simp [Event.reached, Event.stage?]⟩)
      have he := (ht i hc).returned kind
      exact List.mem_map.mpr ⟨(i, kind), List.one_le_count_iff.mp (by omega), rfl⟩
    have hperm : (runs video .completed s.world.log).Perm (runs video .processed s.world.log) :=
      List.perm_iff_count.mpr fun (i, kind) =>
        Tally.published_of_returned (fun i => ht i hc) hc hret i kind
    rw [← hperm.length_eq]
    exact (hp hc).fully hrec

/-- The three jobs of an upload, two of them at work at the same time. -/
def threeJobs : List Action :=
  fanOutRun ++ [.act 0 .publishStarted, .act 0 .markProcessed] ++ jobRun 1 ++
    [.act 2 (.dequeue 0), .act 3 (.dequeue 0), .act 3 .work, .act 2 .work, .act 3 .add,
      .act 2 .add, .act 2 .publishProcessed, .act 2 .clear]

theorem three_jobs_processed_once : ∃ s, (pool defaults).machine.Reaches threeJobs s ∧
    (runs clip .processed s.world.log).length = 1 ∧
    ∀ kind, ∃ j, Event.worked j clip kind ∈ s.world.log := by
  have hr : ((pool defaults).machine.exec (pool defaults).machine.start threeJobs).map
      (fun s => s.world.log) = some ([.started 0 clip,
        .ran 1 clip .transcode, .worked 1 clip .transcode, .recorded 1 clip .transcode,
        .returned 1 clip .transcode,
        .ran 2 clip .plagiarism, .ran 3 clip .stt, .worked 3 clip .stt,
        .worked 2 clip .plagiarism, .recorded 3 clip .stt, .returned 3 clip .stt,
        .recorded 2 clip .plagiarism, .completed 2 clip .plagiarism] ++
        .processed 2 clip .plagiarism :: [.returned 2 clip .plagiarism]) := by
    decide
  obtain ⟨s, hs, hl⟩ := Machine.reaches_of_map hr
  obtain ⟨hbefore, honce⟩ := join_sound hs
  refine ⟨s, hs, honce clip ?_ ?_ ?_ ?_, fun kind => ?_⟩
  · rw [hl]
    decide
  · simp [hl]
  · simp [hl]
  · intro kind
    rw [hl]
    cases kind with
    | transcode => exact ⟨1, by simp⟩
    | plagiarism => exact ⟨2, by simp⟩
    | stt => exact ⟨3, by simp⟩
  · obtain ⟨j, hj⟩ := hbefore clip _ _ _ _ hl kind
    rw [hl]
    exact ⟨j, List.mem_append_left _ hj⟩

end BackendTemplates.Processing
