import BackendTemplates.Processing.ProducerOrder

namespace BackendTemplates.Processing
open Python Runs

def Event.video : Event → Uuid
  | .started _ video => video
  | .ran _ video _ => video
  | .worked _ video _ => video
  | .expired video => video
  | .recorded _ video _ => video
  | .completed _ video _ => video
  | .processed _ video _ => video
  | .returned _ video _ => video
  | .errored _ video _ => video
  | .terminal _ video _ => video
  | .failed _ video => video

/-- The video a process is busy with. -/
def Client.video? : Client → Option Uuid
  | .idle => none
  | .checking video _ => some video
  | .enqueueing video _ _ => some video
  | .starting video _ => some video
  | .marking video _ => some video
  | .working job => some job.video
  | .worked job => some job.video
  | .completing job => some job.video
  | .clearing job => some job.video
  | .raised job => some job.video
  | .failing job => some job.video
  | .cleaning job => some job.video

/-- Every video in the queue and in the log is one of these. -/
structure Known (P : Uuid → Prop) (w : World) : Prop where
  queue : ∀ job ∈ w.queue, P job.video
  log : ∀ e ∈ w.log, P e.video

def Knows (P : Uuid → Prop) (k : Client) : Prop := ∀ video, k.video? = some video → P video

/-- A failure is published after some job of the video failed for the last time. -/
def TerminalBefore : Event → List Event → Prop
  | .failed _ video, pre => ∃ i kind, Event.terminal i video kind ∈ pre
  | _, _ => True

def GaveUp (_ : Nat) (w : World) : Client → Prop
  | .failing job => ∃ i kind, Event.terminal i job.video kind ∈ w.log
  | _ => True

section
variable {P Q : Uuid → Prop} {cfg : Config} {ttl i : Nat} {w w' : World} {k k' : Client} {a : Act}

theorem Known.mono (h : Known P w) (hq : ∀ video, P video → Q video) : Known Q w :=
  ⟨fun job hj => hq _ (h.queue job hj), fun e he => hq _ (h.log e he)⟩

theorem Knows.mono (h : Knows P k) (hq : ∀ video, P video → Q video) : Knows Q k :=
  fun video hv => hq video (h video hv)

theorem Known.emit {es : List Event} (h : Known P w) (hes : ∀ e ∈ es, P e.video) :
    Known P (w.emit es) := by
  refine ⟨h.queue, fun e he => ?_⟩
  rcases List.mem_append.mp he with he | he
  · exact h.log e he
  · exact hes e he

theorem Known.push {job : Job} (h : Known P w) (hj : P job.video) : Known P (w.push job) := by
  refine ⟨fun x hx => ?_, h.log⟩
  rcases List.mem_append.mp hx with hx | hx
  · exact h.queue x hx
  · obtain rfl := List.mem_singleton.mp hx
    exact hj

theorem Known.add {job : Job} (h : Known P w) (hj : P job.video) : Known P (w.add ttl job) := by
  refine ⟨h.queue, fun e he => ?_⟩
  obtain ⟨es, hl, hes⟩ := @add_log ttl w job
  rw [hl] at he
  rcases List.mem_append.mp he with he | he
  · exact h.log e he
  · rw [hes e he]
    exact hj

theorem Known.clear {video : Uuid} (h : Known P w) : Known P (w.clear video) :=
  ⟨h.queue, h.log⟩

theorem Known.markProcessed {event : Uuid} (h : Known P w) :
    Known P (w.markProcessed ttl event) := by
  unfold World.markProcessed
  split
  · exact h
  · exact ⟨h.queue, h.log⟩

theorem knows_idle : Knows P .idle := by
  intro video hv
  cases hv

theorem knows_of (h : P video) (hk : k.video? = some video) : Knows P k := by
  intro v hv
  rw [hk] at hv
  cases hv
  exact h

theorem delivery_known (hw : Known P w) (hk : Knows P k)
    (ha : ∀ video event, a = .receive video event → P video)
    (h : deliveryStep cfg i w k a = some (w', k')) : Known P w' ∧ Knows P k' := by
  unfold deliveryStep at h
  split at h
  · cases h
    exact ⟨hw, knows_of (ha _ _ rfl) rfl⟩
  · split at h <;> cases h
    · exact ⟨hw, knows_idle⟩
    · exact ⟨hw, knows_of (hk _ rfl) rfl⟩
  · cases h
    exact ⟨hw, knows_of (hk _ rfl) rfl⟩
  · cases h
    exact ⟨hw.push (hk _ rfl), knows_of (hk _ rfl) rfl⟩
  · cases h
    exact ⟨hw.emit (by simpa [Event.video] using hk _ rfl), knows_of (hk _ rfl) rfl⟩
  · cases h
    exact ⟨hw.markProcessed, knows_idle⟩
  · cases h
    exact ⟨hw, knows_idle⟩
  · rename_i applied
    cases applied <;> cases h
    · exact ⟨hw, knows_idle⟩
    · exact ⟨hw.push (hk _ rfl), knows_idle⟩
  · rename_i applied
    cases applied <;> cases h
    · exact ⟨hw, knows_idle⟩
    · exact ⟨hw.emit (by simpa [Event.video] using hk _ rfl), knows_idle⟩
  · rename_i applied
    cases applied <;> cases h
    · exact ⟨hw, knows_idle⟩
    · exact ⟨hw.markProcessed, knows_idle⟩
  · cases h

theorem job_known (hw : Known P w) (hk : Knows P k)
    (h : jobStep cfg i w k a = some (w', k')) : Known P w' ∧ Knows P k' := by
  unfold jobStep at h
  split at h
  · split at h
    · cases h
    · rename_i job hj
      cases h
      have hp : P job.video := hw.queue job (List.mem_of_getElem? hj)
      refine ⟨Known.emit ⟨fun x hx => hw.queue x (List.mem_of_mem_eraseIdx hx), hw.log⟩ ?_,
        knows_of hp rfl⟩
      simpa [Event.video] using hp
  · cases h
    exact ⟨hw.emit (by simpa [Event.video] using hk _ rfl), knows_of (hk _ rfl) rfl⟩
  · split at h <;> cases h
    · exact ⟨(hw.add (hk _ rfl)).emit (by simpa [Event.video] using hk _ rfl),
        knows_of (hk _ rfl) rfl⟩
    · exact ⟨(hw.add (hk _ rfl)).emit (by simpa [Event.video] using hk _ rfl), knows_idle⟩
  · cases h
    exact ⟨hw.emit (by simpa [Event.video] using hk _ rfl), knows_of (hk _ rfl) rfl⟩
  · cases h
    exact ⟨hw.clear.emit (by simpa [Event.video] using hk _ rfl), knows_idle⟩
  · cases h
    exact ⟨hw.emit (by simpa [Event.video] using hk _ rfl), knows_of (hk _ rfl) rfl⟩
  · rename_i applied
    cases applied <;> cases h
    · exact ⟨hw.emit (by simpa [Event.video] using hk _ rfl), knows_of (hk _ rfl) rfl⟩
    · exact ⟨(hw.add (hk _ rfl)).emit (by simpa [Event.video] using hk _ rfl),
        knows_of (hk _ rfl) rfl⟩
  · rename_i applied
    cases applied <;> cases h
    · exact ⟨hw.emit (by simpa [Event.video] using hk _ rfl), knows_of (hk _ rfl) rfl⟩
    · exact ⟨(hw.emit (by simpa [Event.video] using hk _ rfl)).emit
        (by simpa [Event.video] using hk _ rfl), knows_of (hk _ rfl) rfl⟩
  · rename_i applied
    cases applied <;> cases h
    · exact ⟨hw.emit (by simpa [Event.video] using hk _ rfl), knows_of (hk _ rfl) rfl⟩
    · exact ⟨hw.clear.emit (by simpa [Event.video] using hk _ rfl), knows_of (hk _ rfl) rfl⟩
  · split at h <;> cases h
    · exact ⟨hw.push (hk _ rfl), knows_idle⟩
    · exact ⟨hw.emit (by simpa [Event.video] using hk _ rfl), knows_of (hk _ rfl) rfl⟩
  · cases h
    exact ⟨hw.emit (by simpa [Event.video] using hk _ rfl), knows_of (hk _ rfl) rfl⟩
  · rename_i applied
    cases applied <;> cases h
    · exact ⟨hw, knows_of (hk _ rfl) rfl⟩
    · exact ⟨hw.emit (by simpa [Event.video] using hk _ rfl), knows_of (hk _ rfl) rfl⟩
  · cases h
    exact ⟨hw.clear, knows_idle⟩
  · rename_i applied
    cases applied <;> cases h
    · exact ⟨hw, knows_idle⟩
    · exact ⟨hw.clear, knows_idle⟩
  · cases h

/-- No step brings in a video, except that of the event it receives. -/
theorem step_known (hw : Known P w) (hk : Knows P k)
    (ha : ∀ video event, a = .receive video event → P video)
    (h : step cfg i w k a = some (w', k')) : Known P w' ∧ Knows P k' := by
  have job {job : Job} (hj : k.job? = some job) : P job.video := by
    cases k <;> simp only [Client.job?, reduceCtorEq, Option.some.injEq] at hj <;> subst hj <;>
      exact hk _ rfl
  have other (h : (deliveryStep cfg i w k a).or (jobStep cfg i w k a) = some (w', k')) :
      Known P w' ∧ Knows P k' := by
    rcases Option.or_eq_some_iff.mp h with hd | ⟨_, hj⟩
    · exact delivery_known hw hk ha hd
    · exact job_known hw hk hj
  unfold step at h
  split at h
  · split at h
    · cases h
      exact ⟨hw, knows_idle⟩
    · rename_i hj
      cases h
      exact ⟨hw.emit (by simpa [Event.video] using job hj), knows_idle⟩
  · simp only [Option.map_eq_some_iff, Prod.mk.injEq] at h
    obtain ⟨_, hj, rfl, rfl⟩ := h
    exact ⟨hw.push (job hj), hk⟩
  · exact other h

theorem machine_known {s t : State} {b : Action}
    (h : Known P s.world ∧ ∀ i, Knows P (s.clients i))
    (hb : ∀ i video event, b = .act i (.receive video event) → P video)
    (hs : (pool cfg).machine.step s b = some t) : Known P t.world ∧ ∀ i, Knows P (t.clients i) := by
  obtain ⟨hw, hk⟩ := h
  cases b with
  | act i a =>
    obtain ⟨w, k, hw', rfl⟩ := Pool.act_step.mp hs
    obtain ⟨hn, hkn⟩ := step_known hw (hk i) (fun v e he => hb i v e (by rw [he])) hw'
    refine ⟨hn, fun j => ?_⟩
    by_cases hj : j = i
    · subst j
      simpa using hkn
    · simpa [hj] using hk j
  | env ms =>
    obtain ⟨w, hw', rfl⟩ := Pool.env_step.mp hs
    cases hw'
    exact ⟨⟨hw.queue, hw.log⟩, hk⟩

theorem gaveUp_of_no_job (h : k.job? = none) : GaveUp i w k := by
  cases k <;> trivial

theorem GaveUp.append {es : List Event} (h : GaveUp i w k) (hl : w'.log = w.log ++ es) :
    GaveUp i w' k := by
  cases k with
  | failing job =>
    obtain ⟨j, kind, hm⟩ := h
    exact ⟨j, kind, hl ▸ List.mem_append_left _ hm⟩
  | _ => trivial

theorem add_terminal {job : Job} (h : Justified TerminalBefore w.log) :
    Justified TerminalBefore (w.add ttl job).log := by
  obtain ⟨es, hl, hes⟩ := @add_log ttl w job
  rw [hl]
  apply h.append
  intro e he l
  rw [hes e he]
  trivial

theorem terminal_step (hj : Justified TerminalBefore w.log) (hk : GaveUp i w k)
    (h : Effect ttl i w a k w' k') : Justified TerminalBefore w'.log ∧ GaveUp i w' k' := by
  cases h with
  | quiet log join next =>
    refine ⟨by rwa [log], ?_⟩
    rcases next with rfl | ⟨hn, _⟩
    · exact hk.append (show w'.log = w.log ++ [] by simp [log])
    · exact gaveUp_of_no_job hn
  | started video before next =>
    exact ⟨hj.append (by simp [TerminalBefore]), gaveUp_of_no_job next⟩
  | ran job log join => exact ⟨log ▸ hj.append (by simp [TerminalBefore]), trivial⟩
  | worked job => exact ⟨hj.append (by simp [TerminalBefore]), trivial⟩
  | recorded job count => exact ⟨(add_terminal hj).append (by simp [TerminalBefore]), trivial⟩
  | completed job count => exact ⟨(add_terminal hj).append (by simp [TerminalBefore]), trivial⟩
  | processed job => exact ⟨hj.append (by simp [TerminalBefore]), trivial⟩
  | cleared job => exact ⟨hj.append (by simp [TerminalBefore]), trivial⟩
  | errored job before applied next =>
    refine ⟨?_, by rcases next with rfl | rfl <;> trivial⟩
    cases applied with
    | none => exact hj.append (by simp [TerminalBefore])
    | add => exact (add_terminal hj).append (by simp [TerminalBefore])
    | processed =>
      have hp : Justified TerminalBefore (w.log ++ [.processed i job.video job.kind]) :=
        hj.append (by simp [TerminalBefore])
      exact hp.append (by simp [TerminalBefore])
    | clear => exact hj.append (by simp [TerminalBefore])
  | terminal job =>
    refine ⟨hj.append (by simp [TerminalBefore]), i, job.kind, ?_⟩
    simp [World.emit]
  | failed job applied =>
    refine ⟨?_, trivial⟩
    rcases applied with rfl | rfl
    · exact hj
    · exact justified_snoc.mpr ⟨hj, hk⟩
  | cleaned job applied =>
    refine ⟨?_, trivial⟩
    rcases applied with rfl | rfl <;> exact hj

end

theorem failures_terminal {cfg : Config} {as : List Action} {s : State}
    (h : (pool cfg).machine.Reaches as s) : Justified TerminalBefore s.world.log := by
  refine (Pool.good_of_reaches (p := pool cfg) (I := fun w => Justified TerminalBefore w.log)
    (K := GaveUp) ?_ ?_ ?_ h).1
  · exact ⟨Justified.nil, fun _ => trivial⟩
  · intro s i a w k hg hs
    obtain ⟨hj, hk⟩ := hg
    have he := step_effect hs
    obtain ⟨hj', hk'⟩ := terminal_step hj (hk i) he
    obtain ⟨es, hl⟩ := he.log_grows
    exact ⟨hj', hk', fun j _ => (hk j).append hl⟩
  · intro s e w hg hs
    obtain ⟨hj, hk⟩ := hg
    cases hs
    exact ⟨hj, fun j => (hk j).append (List.append_nil _).symm⟩

end BackendTemplates.Processing
