import BackendTemplates.Library.History
import BackendTemplates.Processing.Worker

namespace BackendTemplates.Processing
open Python Runs

/-- A job of this kind has finished its work for the video. -/
def Worked (log : List Event) (video : Uuid) (kind : JobKind) : Prop :=
  ∃ i, Event.worked i video kind ∈ log

/-- A video is processed only after a job of every kind has finished its work for it. -/
def WorkedBefore : Event → List Event → Prop
  | .processed _ video _, pre => ∀ kind, Worked pre video kind
  | _, _ => True

/-- The join sets hold kinds whose work is done, and so do the published entries. -/
structure Backed (w : World) : Prop where
  join : ∀ video j, w.join video = some j → ∀ kind ∈ j.kinds, Worked w.log video kind
  processed : Justified WorkedBefore w.log

def Earned (_ : Nat) (w : World) : Client → Prop
  | .worked job => Worked w.log job.video job.kind
  | .completing job => ∀ kind, Worked w.log job.video kind
  | _ => True

section
variable {ttl i : Nat} {w w' : World} {k k' : Client} {a : Act}

theorem Worked.append {log es : List Event} {video : Uuid} {kind : JobKind}
    (h : Worked log video kind) : Worked (log ++ es) video kind := by
  obtain ⟨j, hj⟩ := h
  exact ⟨j, List.mem_append_left _ hj⟩

theorem Earned.append {es : List Event} (h : Earned i w k) (hl : w'.log = w.log ++ es) :
    Earned i w' k := by
  cases k with
  | worked job =>
    change Worked w'.log _ _
    rw [hl]
    exact Worked.append h
  | completing job =>
    intro kind
    rw [hl]
    exact (h kind).append
  | _ => trivial

theorem earned_of_no_job (h : k.job? = none) : Earned i w k := by
  cases k <;> trivial

theorem Backed.live {video : Uuid} {kind : JobKind} (h : Backed w) (hk : kind ∈ w.live video) :
    Worked w.log video kind := by
  obtain ⟨j, hj, hm⟩ := live_subset hk
  exact h.join video j hj kind hm

/-- Steps which leave the joins alone and publish nothing. -/
theorem Backed.append {es : List Event} (h : Backed w) (hl : w'.log = w.log ++ es)
    (hj : w'.join = w.join) (hes : ∀ e ∈ es, ∀ l, WorkedBefore e l) : Backed w' := by
  refine ⟨fun video j hjn kind hm => ?_, hl ▸ h.processed.append hes⟩
  rw [hl]
  exact (h.join video j (hj ▸ hjn) kind hm).append

theorem Backed.emit {es : List Event} (h : Backed w)
    (hes : ∀ e ∈ es, ∀ l, WorkedBefore e l) : Backed (w.emit es) := h.append rfl rfl hes

theorem Backed.add {job : Job} (h : Backed w) (hw : Worked w.log job.video job.kind) :
    Backed (w.add ttl job) := by
  refine ⟨fun video j hj kind hm => ?_, h.processed.append ?_⟩
  · by_cases hv : video = job.video
    · subst hv
      simp only [World.add, Function.update_self, Option.some.injEq] at hj
      subst hj
      rcases Finset.mem_insert.mp hm with rfl | hm
      · exact hw.append
      · exact (h.live hm).append
    · simp only [World.add, ne_eq, hv, not_false_eq_true, Function.update_of_ne] at hj
      exact (h.join video j hj kind hm).append
  · intro e he l
    split at he
    · simp only [List.mem_singleton] at he
      subst he
      trivial
    · simp at he

theorem Backed.clear {video : Uuid} (h : Backed w) : Backed (w.clear video) := by
  refine ⟨fun x j hj kind hm => ?_, h.processed⟩
  by_cases hv : x = video
  · subst hv
    simp [World.clear] at hj
  · simp only [World.clear, ne_eq, hv, not_false_eq_true, Function.update_of_ne] at hj
    exact h.join x j hj kind hm

theorem Backed.publish {j : Nat} {job : Job} (h : Backed w)
    (hw : ∀ kind, Worked w.log job.video kind) :
    Backed (w.emit [.processed j job.video job.kind]) := by
  refine ⟨fun video j hj kind hm => (h.join video j hj kind hm).append, ?_⟩
  exact justified_snoc.mpr ⟨h.processed, hw⟩

theorem backed_step (hb : Backed w) (he : Earned i w k) (h : Effect ttl i w a k w' k') :
    Backed w' ∧ Earned i w' k' := by
  cases h with
  | quiet log join next =>
    refine ⟨hb.append (show w'.log = w.log ++ [] by simp [log]) join (by simp), ?_⟩
    rcases next with rfl | ⟨hn, _⟩
    · exact he.append (show w'.log = w.log ++ [] by simp [log])
    · exact earned_of_no_job hn
  | started video before next =>
    exact ⟨hb.emit (by simp [WorkedBefore]), earned_of_no_job next⟩
  | ran job log join => exact ⟨hb.append log join (by simp [WorkedBefore]), trivial⟩
  | worked job => exact ⟨hb.emit (by simp [WorkedBefore]), i, by simp [World.emit]⟩
  | recorded job count => exact ⟨(hb.add he).emit (by simp [WorkedBefore]), trivial⟩
  | completed job count =>
    refine ⟨(hb.add he).emit (by simp [WorkedBefore]), fun kind => ?_⟩
    rcases Finset.mem_insert.mp ((isComplete_iff job).mp count kind) with rfl | hm
    · exact (Worked.append he).append
    · exact ((hb.live hm).append).append
  | processed job => exact ⟨hb.publish he, trivial⟩
  | cleared job => exact ⟨hb.clear.emit (by simp [WorkedBefore]), trivial⟩
  | errored job before applied next =>
    refine ⟨?_, by rcases next with rfl | rfl <;> trivial⟩
    cases applied with
    | none => exact hb.emit (by simp [WorkedBefore])
    | add => exact (hb.add he).emit (by simp [WorkedBefore])
    | processed => exact (hb.publish he).emit (by simp [WorkedBefore])
    | clear => exact hb.clear.emit (by simp [WorkedBefore])
  | terminal job => exact ⟨hb.emit (by simp [WorkedBefore]), trivial⟩
  | failed job applied =>
    refine ⟨?_, trivial⟩
    rcases applied with rfl | rfl
    · exact hb
    · exact hb.emit (by simp [WorkedBefore])
  | cleaned job applied =>
    refine ⟨?_, trivial⟩
    rcases applied with rfl | rfl
    · exact hb
    · exact hb.clear

end

theorem backed {cfg : Config} {as : List Action} {s : State}
    (h : (pool cfg).machine.Reaches as s) : Backed s.world := by
  refine (Pool.good_of_reaches (p := pool cfg) (K := Earned) ?_ ?_ ?_ h).1
  · exact ⟨⟨fun _ j hj => (by cases hj), Justified.nil⟩, fun _ => trivial⟩
  · intro s i a w k hg hs
    obtain ⟨hb, hk⟩ := hg
    have he := step_effect hs
    obtain ⟨hb', hk'⟩ := backed_step hb (hk i) he
    obtain ⟨es, hl⟩ := he.log_grows
    exact ⟨hb', hk', fun j _ => (hk j).append hl⟩
  · intro s e w hg hs
    obtain ⟨hb, hk⟩ := hg
    cases hs
    exact ⟨⟨hb.join, hb.processed⟩, fun j => (hk j).append (List.append_nil _).symm⟩

end BackendTemplates.Processing
