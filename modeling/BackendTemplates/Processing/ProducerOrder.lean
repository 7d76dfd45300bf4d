import BackendTemplates.Library.History
import BackendTemplates.Processing.Worker

namespace BackendTemplates.Processing
open Python Runs

/-- An entry of the `video_status` stream. -/
structure Entry where
  eventType : String
  videoId : Uuid
  deriving DecidableEq

def startedEntry (video : Uuid) : Entry := ⟨"video_processing_started", video⟩
def processedEntry (video : Uuid) : Entry := ⟨"video_processed", video⟩
def failedEntry (video : Uuid) : Entry := ⟨"video_processing_failed", video⟩

def Event.entry? : Event → Option Entry
  | .started _ video => some (startedEntry video)
  | .processed _ video _ => some (processedEntry video)
  | .failed _ video => some (failedEntry video)
  | _ => none

def stream (log : List Event) : List Entry := log.filterMap Event.entry?

/-- A `video_processed` entry precedes the first `video_processing_started` entry. -/
def Overtaken (video : Uuid) (entries : List Entry) : Prop :=
  ∃ pre mid post, entries = pre ++ processedEntry video :: (mid ++ startedEntry video :: post) ∧
    startedEntry video ∉ pre

def Started (log : List Event) (video : Uuid) : Prop := startedEntry video ∈ stream log

instance (log : List Event) (video : Uuid) : Decidable (Started log video) := by
  unfold Started
  infer_instance

def FindsStarted (w : World) : Client → Prop
  | .worked job => isComplete (w.doneCount job) fanOut = true → Started w.log job.video
  | _ => True

instance (w : World) (k : Client) : Decidable (FindsStarted w k) := by
  unfold FindsStarted
  split <;> infer_instance

/-- A completion that reaches the fan-out finds the video announced as started. -/
def AfterStart (s : State) : Action → Prop
  | .act i .add => FindsStarted s.world (s.clients i)
  | _ => True

instance (s : State) (a : Action) : Decidable (AfterStart s a) := by
  unfold AfterStart
  split <;> infer_instance

def StartedBefore : Event → List Event → Prop
  | .processed _ video _, pre => Started pre video
  | _, _ => True

/-- A process about to publish a completion knows that the start was announced. -/
def Announced (_ : Nat) (w : World) : Client → Prop
  | .completing job => Started w.log job.video
  | _ => True

section
variable {ttl i : Nat} {w w' : World} {k k' : Client} {a : Act}

theorem Started.append {log es : List Event} {video : Uuid} (h : Started log video) :
    Started (log ++ es) video := by
  unfold Started stream at *
  rw [List.filterMap_append]
  exact List.mem_append_left _ h

theorem Announced.append {es : List Event} (h : Announced i w k) (hl : w'.log = w.log ++ es) :
    Announced i w' k := by
  cases k with
  | completing job =>
    change Started w'.log _
    rw [hl]
    exact Started.append h
  | _ => trivial

theorem announced_of_no_job (h : k.job? = none) : Announced i w k := by
  cases k <;> trivial

theorem add_log (job : Job) : ∃ es, (w.add ttl job).log = w.log ++ es ∧
    ∀ e ∈ es, e = .expired job.video := by
  refine ⟨_, rfl, fun e he => ?_⟩
  split at he
  · simpa using he
  · simp at he

theorem ordered_add {job : Job} (h : Justified StartedBefore w.log) :
    Justified StartedBefore (w.add ttl job).log := by
  obtain ⟨es, hl, hes⟩ := @add_log ttl w job
  rw [hl]
  apply h.append
  intro e he l
  rw [hes e he]
  trivial

theorem ordered_step (hj : Justified StartedBefore w.log) (hk : Announced i w k)
    (hadd : a = .add → ∀ job, k = .worked job → isComplete (w.doneCount job) fanOut = true →
      Started w.log job.video)
    (h : Effect ttl i w a k w' k') : Justified StartedBefore w'.log ∧ Announced i w' k' := by
  cases h with
  | quiet log join next =>
    refine ⟨by rwa [log], ?_⟩
    rcases next with rfl | ⟨hn, _⟩
    · exact hk.append (show w'.log = w.log ++ [] by simp [log])
    · exact announced_of_no_job hn
  | started video before next =>
    exact ⟨hj.append (by simp [StartedBefore]), announced_of_no_job next⟩
  | ran job log join => exact ⟨log ▸ hj.append (by simp [StartedBefore]), trivial⟩
  | worked job => exact ⟨hj.append (by simp [StartedBefore]), trivial⟩
  | recorded job count => exact ⟨(ordered_add hj).append (by simp [StartedBefore]), trivial⟩
  | completed job count =>
    obtain ⟨es, hl, _⟩ := @add_log ttl w job
    refine ⟨(ordered_add hj).append (by simp [StartedBefore]), ?_⟩
    change Started ((w.add ttl job).log ++ _) _
    rw [hl]
    exact (hadd rfl job rfl count).append.append
  | processed job => exact ⟨justified_snoc.mpr ⟨hj, hk⟩, trivial⟩
  | cleared job => exact ⟨hj.append (by simp [StartedBefore]), trivial⟩
  | errored job before applied next =>
    refine ⟨?_, by rcases next with rfl | rfl <;> trivial⟩
    cases applied with
    | none => exact hj.append (by simp [StartedBefore])
    | add => exact (ordered_add hj).append (by simp [StartedBefore])
    | processed =>
      have hp : Justified StartedBefore (w.log ++ [.processed i job.video job.kind]) :=
        justified_snoc.mpr ⟨hj, hk⟩
      exact hp.append (by simp [StartedBefore])
    | clear => exact hj.append (by simp [StartedBefore])
  | terminal job => exact ⟨hj.append (by simp [StartedBefore]), trivial⟩
  | failed job applied =>
    refine ⟨?_, trivial⟩
    rcases applied with rfl | rfl
    · exact hj
    · exact hj.append (by simp [StartedBefore])
  | cleaned job applied =>
    refine ⟨?_, trivial⟩
    rcases applied with rfl | rfl <;> exact hj

end

theorem ordered {cfg : Config} {as : List Action} {s : State}
    (h : (pool cfg).machine.Reaches as s)
    (hm : (pool cfg).machine.Meets AfterStart (pool cfg).machine.start as) :
    Justified StartedBefore s.world.log := by
  refine (Pool.good_of_meets (p := pool cfg) (I := fun w => Justified StartedBefore w.log)
    (K := Announced) ?_ ?_ ?_ h hm).1
  · exact ⟨Justified.nil, fun _ => trivial⟩
  · intro s i a w k hg hok hs
    obtain ⟨hj, hk⟩ := hg
    have he := step_effect hs
    have hadd : a = .add → ∀ job, s.clients i = .worked job →
        isComplete (s.world.doneCount job) fanOut = true → Started s.world.log job.video := by
      intro heq job hkj hc
      subst heq
      simp only [AfterStart, hkj] at hok
      exact hok hc
    obtain ⟨hj', hk'⟩ := ordered_step hj (hk i) hadd he
    obtain ⟨es, hl⟩ := he.log_grows
    exact ⟨hj', hk', fun j _ => (hk j).append hl⟩
  · intro s e w hg _ hs
    obtain ⟨hj, hk⟩ := hg
    cases hs
    exact ⟨hj, fun j => (hk j).append (List.append_nil _).symm⟩

/-- Where every processed entry comes after a started one, none overtakes the first. -/
theorem not_overtaken {log : List Event} (h : Justified StartedBefore log) (video : Uuid) :
    ¬ Overtaken video (stream log) := by
  intro hx
  obtain ⟨pre, mid, post, he, hn⟩ := hx
  have hj : Justified (fun (b : Entry) (pre : List Entry) =>
      b = processedEntry b.videoId → startedEntry b.videoId ∈ pre) (stream log) := by
    refine h.filterMap fun e b pre hb hneed hp => ?_
    cases e with
    | processed i v kind =>
      cases hb
      exact hneed
    | started i v =>
      cases hb
      simp [startedEntry, processedEntry] at hp
    | failed i v =>
      cases hb
      simp [failedEntry, processedEntry] at hp
    | _ => cases hb
  exact hn (hj pre _ _ he rfl)

/-- A join completed while the upload event is still being handled: its entry can be
published before the start is announced. -/
def overtake (i j : Nat) : List Action :=
  [.act i .add, .act i .publishProcessed, .act j .publishStarted]

theorem overtakes {cfg : Config} {s : State} {i j : Nat} {job : Job} {event : Uuid}
    (hi : s.clients i = .worked job) (hj : s.clients j = .starting job.video event)
    (hc : isComplete (s.world.doneCount job) fanOut = true) (hn : ¬ Started s.world.log job.video) :
    ∃ t, (pool cfg).machine.exec s (overtake i j) = some t ∧
      Overtaken job.video (stream t.world.log) := by
  have hne : j ≠ i := by
    intro heq
    subst heq
    rw [hi] at hj
    cases hj
  obtain ⟨es, hl, hes⟩ := @add_log cfg.joinTtlSeconds s.world job
  have hquiet : es.filterMap Event.entry? = [] := by
    apply List.filterMap_eq_nil_iff.mpr
    intro e he
    rw [hes e he]
    rfl
  let added := (s.world.add cfg.joinTtlSeconds job).emit
    [.recorded i job.video job.kind, .completed i job.video job.kind]
  let published := added.emit [.processed i job.video job.kind]
  let clients := Function.update (Function.update s.clients i (.completing job)) i (.clearing job)
  refine ⟨⟨published.emit [.started j job.video],
    Function.update clients j (.marking job.video event)⟩, ?_,
    stream s.world.log, [], [], ?_, hn⟩
  · simp [overtake, exec_cons, exec_nil, pool, Pool.machine, step, deliveryStep, jobStep, hi, hj,
      hc, hne, clients, published, added]
  · simp only [stream, published, added, World.emit, hl, List.filterMap_append, hquiet,
      List.append_assoc]
    rfl

/-- While the start has been announced whenever a join completes, no processed entry
overtakes it; and a join that completes earlier can have its entry overtake. -/
theorem started_before_processed {cfg : Config} :
    (∀ as s, (pool cfg).machine.Reaches as s →
      (pool cfg).machine.Meets AfterStart (pool cfg).machine.start as →
      ∀ video, ¬ Overtaken video (stream s.world.log)) ∧
    (∀ as s i j job event, (pool cfg).machine.Reaches as s → s.clients i = .worked job →
      s.clients j = .starting job.video event →
      isComplete (s.world.doneCount job) fanOut = true → ¬ Started s.world.log job.video →
      ∃ t, (pool cfg).machine.Reaches (as ++ overtake i j) t ∧
        Overtaken job.video (stream t.world.log)) := by
  constructor
  · intro as s h hm video
    exact not_overtaken (ordered h hm) video
  · intro as s i j job event h hi hj hc hn
    obtain ⟨t, ht, ho⟩ := overtakes hi hj hc hn
    exact ⟨t, h.append ht, ho⟩

def announcedFirst : List Action :=
  fanOutRun ++ [.act 0 .publishStarted, .act 0 .markProcessed] ++ jobRun 1 ++ jobRun 2 ++
    jobRun 3 ++ [.act 3 .publishProcessed, .act 3 .clear]

theorem announced_first_not_overtaken : ∃ s,
    (pool defaults).machine.Reaches announcedFirst s ∧
      stream s.world.log = [startedEntry clip, processedEntry clip] ∧
      ∀ video, ¬ Overtaken video (stream s.world.log) := by
  have hr : ((pool defaults).machine.exec (pool defaults).machine.start announcedFirst).map
      (fun s => stream s.world.log) = some [startedEntry clip, processedEntry clip] := by
    decide
  obtain ⟨s, hs, he⟩ := Machine.reaches_of_map hr
  exact ⟨s, hs, he, started_before_processed.1 _ s hs (by decide)⟩

/-- All three jobs finish before the handler announces the start. -/
def announcedLast : List Action :=
  fanOutRun ++ jobRun 1 ++ jobRun 2 ++ jobRun 3 ++
    [.act 3 .publishProcessed, .act 0 .publishStarted]

theorem fast_jobs_overtake_start : ¬ ∀ (cfg : Config) as s,
    (pool cfg).machine.Reaches as s → ∀ video, ¬ Overtaken video (stream s.world.log) := by
  intro hall
  have hr : ((pool defaults).machine.exec (pool defaults).machine.start announcedLast).map
      (fun s => stream s.world.log) = some [processedEntry clip, startedEntry clip] := by
    decide
  obtain ⟨s, hs, he⟩ := Machine.reaches_of_map hr
  refine hall defaults _ s hs clip ⟨[], [], [], ?_, by simp⟩
  rw [he]
  rfl

end BackendTemplates.Processing
