import BackendTemplates.Media.Video

namespace BackendTemplates.Media

/-- An inapplicable transition is skipped. -/
def VideoStatus.after (s : VideoStatus) (uc : UseCase) : VideoStatus :=
  if uc.target ∈ s.allowed then uc.target else s

/-- The status after applying the marks one by one. -/
def replay (s : VideoStatus) (marks : List UseCase) : VideoStatus := marks.foldl VideoStatus.after s

def settles (uc : UseCase) : Bool := uc != .markProcessing

/-- No `markDone` precedes the first `markProcessing`. -/
def InOrder (marks : List UseCase) : Prop :=
  ∀ pre post, marks = pre ++ .markDone :: post →
    .markProcessing ∈ pre ∨ .markProcessing ∉ post

/-- A mark applied ahead of the `waiting` ones does not take the place of the one among
them which would settle the video. -/
def OnTurn (status : VideoStatus) (waiting : List UseCase) (uc : UseCase) : Prop :=
  match status, uc with
  | .pending, .markDone => .markProcessing ∈ waiting → waiting.find? settles ≠ none
  | .pending, .markFailed => .markProcessing ∈ waiting → waiting.find? settles ≠ some .markDone
  | .processing, .markDone => waiting.find? settles ≠ some .markFailed
  | .processing, .markFailed => waiting.find? settles ≠ some .markDone
  | _, _ => True

instance (status : VideoStatus) (waiting : List UseCase) (uc : UseCase) :
    Decidable (OnTurn status waiting uc) := by
  unfold OnTurn
  split <;> infer_instance

section
variable {s : VideoStatus} {marks as bs : List UseCase} {uc : UseCase}

@[simp] theorem replay_nil : replay s [] = s := rfl

@[simp] theorem replay_cons : replay s (uc :: marks) = replay (s.after uc) marks := rfl

@[simp] theorem replay_append : replay s (as ++ bs) = replay (replay s as) bs :=
  List.foldl_append

theorem replay_done : replay .done marks = .done := by
  induction marks with
  | nil => rfl
  | cons uc marks ih => cases uc <;> exact ih

theorem replay_failed : replay .failed marks = .failed := by
  induction marks with
  | nil => rfl
  | cons uc marks ih => cases uc <;> exact ih

/-- A video at work is settled by the first mark that can. -/
theorem replay_processing : replay .processing marks =
    ((marks.find? settles).map UseCase.target).getD .processing := by
  induction marks with
  | nil => rfl
  | cons uc marks ih =>
    cases uc with
    | markProcessing => exact ih
    | markDone => exact replay_done
    | markFailed => exact replay_failed

theorem inOrder_of_append (h : InOrder (as ++ bs)) : InOrder as := by
  intro pre post he
  rcases h pre (post ++ bs) (by simp [he]) with hp | hp
  · exact .inl hp
  · exact .inr (fun hm => hp (List.mem_append_left _ hm))

theorem inOrder_started : InOrder (.markProcessing :: marks) := by
  intro pre post he
  cases pre with
  | nil => simp at he
  | cons uc pre =>
    simp only [List.cons_append, List.cons.injEq] at he
    exact .inl (by simp [he.1])

/-- Without a `markProcessing` only a failure settles a pending video. -/
theorem replay_pending_unstarted (h : .markProcessing ∉ marks) :
    replay .pending marks = if .markFailed ∈ marks then .failed else .pending := by
  induction marks with
  | nil => rfl
  | cons uc marks ih =>
    simp only [List.mem_cons, not_or] at h
    cases uc with
    | markProcessing => exact absurd rfl h.1
    | markDone =>
      change replay .pending marks = _
      rw [ih h.2]
      simp
    | markFailed =>
      change replay .failed marks = _
      rw [replay_failed]
      simp

/-- In order, a pending video which gets started ends as the first settling mark says. -/
theorem replay_pending_started (ho : InOrder marks) (h : .markProcessing ∈ marks) :
    replay .pending marks = ((marks.find? settles).map UseCase.target).getD .processing := by
  cases marks with
  | nil => simp at h
  | cons uc marks =>
    cases uc with
    | markProcessing => exact replay_processing
    | markFailed => exact replay_failed
    | markDone =>
      simp only [List.mem_cons, reduceCtorEq, false_or] at h
      rcases ho [] marks rfl with hp | hp
      · simp at hp
      · exact absurd h hp

end

/-- A mark in the stream, and whether a consumer has handled it. -/
structure Slot where
  uc : UseCase
  handled : Bool
  deriving DecidableEq

def marks (slots : List Slot) : List UseCase := slots.map Slot.uc

/-- The marks nobody has handled yet. -/
def waiting (slots : List Slot) : List UseCase :=
  slots.filterMap (fun e => if e.handled then none else some e.uc)

/-- Some mark among these still waits and would settle the video. -/
def Guarded (slots : List Slot) : Prop := ∃ uc, settles uc ∧ ⟨uc, false⟩ ∈ slots

/-- Applying the waiting marks in order would still give the status of the whole stream. -/
structure Converging (status : VideoStatus) (slots : List Slot) : Prop where
  replay : replay status (waiting slots) = replay .pending (marks slots)
  started : status = .pending → ⟨.markProcessing, true⟩ ∉ slots
  failed : status = .pending ∨ status = .processing → ⟨.markFailed, true⟩ ∉ slots
  skipped : status = .pending ∨ status = .processing →
    ∀ pre post, slots = pre ++ ⟨.markDone, true⟩ :: post →
      Guarded pre ∨ (status = .pending ∧ .markProcessing ∉ marks slots)

section
variable {status : VideoStatus} {slots pre post : List Slot} {uc : UseCase} {b : Bool}

@[simp] theorem marks_append : marks (pre ++ post) = marks pre ++ marks post := List.map_append

@[simp] theorem marks_cons (e : Slot) : marks (e :: post) = e.uc :: marks post := rfl

@[simp] theorem marks_nil : marks [] = [] := rfl

@[simp] theorem waiting_nil : waiting [] = [] := rfl

@[simp] theorem waiting_append : waiting (pre ++ post) = waiting pre ++ waiting post :=
  List.filterMap_append

@[simp] theorem waiting_handled : waiting (⟨uc, true⟩ :: post) = waiting post := rfl

@[simp] theorem waiting_unhandled : waiting (⟨uc, false⟩ :: post) = uc :: waiting post := rfl

theorem mem_waiting : uc ∈ waiting slots ↔ ⟨uc, false⟩ ∈ slots := by
  simp only [waiting, List.mem_filterMap]
  constructor
  · intro hx
    obtain ⟨⟨c, b⟩, hm, he⟩ := hx
    cases b with
    | true => simp at he
    | false =>
      simp only [Bool.false_eq_true, ↓reduceIte, Option.some.injEq] at he
      subst he
      exact hm
  · intro hm
    exact ⟨_, hm, rfl⟩

theorem mem_marks : uc ∈ marks slots ↔ ∃ b, ⟨uc, b⟩ ∈ slots := by
  simp only [marks, List.mem_map]
  constructor
  · intro hx
    obtain ⟨⟨c, b⟩, hm, rfl⟩ := hx
    exact ⟨b, hm⟩
  · intro hx
    obtain ⟨b, hm⟩ := hx
    exact ⟨_, hm, rfl⟩

theorem Converging.nil : Converging .pending [] :=
  ⟨rfl, fun _ => by simp, fun _ => by simp, fun _ pre post h => by simp at h⟩

/-- A new entry waits behind the others. -/
theorem Converging.append (h : Converging status slots) (ho : InOrder (marks slots ++ [uc])) :
    Converging status (slots ++ [⟨uc, false⟩]) where
  replay := by simp [h.replay]
  started hs := by simpa using h.started hs
  failed hs := by simpa using h.failed hs
  skipped hs := by
    intro pre post he
    rcases List.eq_nil_or_concat post with rfl | ⟨post', e, rfl⟩
    · have := List.append_inj' he rfl
      simp at this
    · have he' : slots ++ [⟨uc, false⟩] = (pre ++ ⟨.markDone, true⟩ :: post') ++ [e] := by
        simpa using he
      obtain ⟨hs', hlast⟩ := List.append_inj' he' rfl
      rcases h.skipped hs pre post' hs' with hw | ⟨hp, hn⟩
      · exact .inl hw
      · refine .inr ⟨hp, ?_⟩
        have hnew := ho (marks pre) (marks post' ++ [uc]) (by simp [hs'])
        rw [marks_append]
        rw [hs'] at hn ⊢
        simp only [marks_append, marks_cons, List.mem_append, not_or] at hn
        rcases hnew with hm | hm
        · exact absurd hm hn.1
        · simpa [hn, not_or] using hm

theorem guarded_iff : Guarded slots ↔ (waiting slots).find? settles ≠ none := by
  rw [Ne, List.find?_eq_none]
  push Not
  simp only [mem_waiting]
  constructor
  · intro hx
    obtain ⟨uc, hs, hm⟩ := hx
    exact ⟨uc, hm, hs⟩
  · intro hx
    obtain ⟨uc, hm, hs⟩ := hx
    exact ⟨uc, hs, hm⟩

/-- The first settling mark is this one, unless one of the other kind comes before it. -/
theorem find_settles {as bs : List UseCase} (hs : settles uc)
    (h : ∀ other, as.find? settles = some other → other = uc) :
    (as ++ uc :: bs).find? settles = some uc := by
  rw [List.find?_append]
  cases hf : as.find? settles with
  | none => simp [hs]
  | some other =>
    rw [h other hf]
    rfl

theorem settles_of_find {as : List UseCase} (h : as.find? settles = some uc) :
    uc = .markDone ∨ uc = .markFailed := by
  have hs := List.find?_some h
  cases uc with
  | markProcessing => simp [settles] at hs
  | markDone => exact .inl rfl
  | markFailed => exact .inr rfl

/-- While the video is pending the waiting marks are in order, too. -/
theorem inOrder_waiting (ho : InOrder (marks slots)) (hn : ⟨.markProcessing, true⟩ ∉ slots) :
    InOrder (waiting slots) := by
  intro pre post he
  obtain ⟨l, r, rfl, rfl, hr⟩ := List.filterMap_eq_append_iff.mp he
  obtain ⟨m, e, r', rfl, hm, hd, rfl⟩ := List.filterMap_eq_cons_iff.mp hr
  obtain ⟨uc, b⟩ := e
  cases b with
  | true => simp at hd
  | false =>
    simp only [Bool.false_eq_true, ↓reduceIte, Option.some.injEq] at hd
    subst hd
    rcases ho (marks l ++ marks m) (marks r') (by simp) with hp | hp
    · left
      have hlm : .markProcessing ∈ marks (l ++ m) := by simpa using hp
      obtain ⟨b, hb⟩ := mem_marks.mp hlm
      cases b with
      | true =>
        refine absurd ?_ hn
        rcases List.mem_append.mp hb with hb | hb
        · simp [hb]
        · simp [hb]
      | false =>
        rcases List.mem_append.mp hb with hb | hb
        · exact mem_waiting.mpr hb
        · have := hm _ hb
          simp at this
    · right
      intro hw
      exact hp (mem_marks.mpr ⟨_, mem_waiting.mp hw⟩)

theorem mem_marks_of_waiting (h : uc ∈ waiting slots) : uc ∈ marks slots :=
  mem_marks.mpr ⟨_, mem_waiting.mp h⟩

/-- Behind an unstarted `markDone` there is no `markProcessing`, waiting or handled. -/
theorem Converging.unstarted (h : Converging .pending (pre ++ ⟨.markDone, b⟩ :: post))
    (ho : InOrder (marks (pre ++ ⟨.markDone, b⟩ :: post)))
    (hw : .markProcessing ∉ waiting pre) :
    .markProcessing ∉ marks (pre ++ ⟨.markDone, b⟩ :: post) := by
  have hpre : .markProcessing ∉ marks pre := by
    intro hm
    obtain ⟨c, hc⟩ := mem_marks.mp hm
    cases c with
    | true => exact h.started rfl (List.mem_append_left _ hc)
    | false => exact hw (mem_waiting.mpr hc)
  rcases ho (marks pre) (marks post) (by simp) with hp | hp
  · exact absurd hp hpre
  · simp [hpre, hp]

theorem Converging.replay_pending (h : Converging .pending (pre ++ ⟨uc, b⟩ :: post))
    (ho : InOrder (marks (pre ++ ⟨uc, b⟩ :: post))) (ht : OnTurn .pending (waiting pre) uc) :
    Media.replay (VideoStatus.pending.after uc) (waiting pre ++ waiting post) =
      Media.replay .pending (marks (pre ++ ⟨uc, b⟩ :: post)) := by
  rw [← h.replay]
  have hin := inOrder_waiting ho (h.started rfl)
  cases b with
  | true =>
    cases uc with
    | markProcessing => exact absurd (by simp) (h.started rfl)
    | markDone => simp [VideoStatus.after, UseCase.target, VideoStatus.allowed]
    | markFailed => exact absurd (by simp) (h.failed (.inl rfl))
  | false =>
    simp only [waiting_append, waiting_unhandled] at hin ⊢
    cases uc with
    | markProcessing =>
      rw [replay_pending_started hin (by simp)]
      change Media.replay .processing _ = _
      rw [replay_processing]
      simp [settles]
    | markDone =>
      change Media.replay .pending _ = _
      by_cases hw : .markProcessing ∈ waiting pre
      · -- an earlier mark settles the video, with this one or without it
        obtain ⟨other, hf⟩ := Option.ne_none_iff_exists'.mp (ht hw)
        have hin' : InOrder (waiting pre ++ waiting post) := by
          have hnew := @inOrder_waiting (pre ++ ⟨.markDone, true⟩ :: post) (by simpa using ho)
            (by simpa using h.started rfl)
          simpa using hnew
        rw [replay_pending_started hin (by simp [hw]), replay_pending_started hin' (by simp [hw])]
        simp [List.find?_append, hf]
      · have hout : .markProcessing ∉ waiting pre ++ .markDone :: waiting post := by
          intro hm
          apply h.unstarted ho hw
          apply mem_marks_of_waiting
          simpa using hm
        rw [replay_pending_unstarted hout, replay_pending_unstarted (by simpa using hout)]
        simp
    | markFailed =>
      change Media.replay .failed _ = _
      rw [replay_failed]
      by_cases hs : .markProcessing ∈ waiting pre ++ .markFailed :: waiting post
      · have hfirst : ∀ other, (waiting pre).find? settles = some other → other = .markFailed := by
          intro other hf
          rcases settles_of_find hf with rfl | rfl
          · exfalso
            by_cases hw : .markProcessing ∈ waiting pre
            · exact ht hw hf
            · obtain ⟨p, q, hpq⟩ := List.append_of_mem (List.mem_of_find?_eq_some hf)
              rw [hpq] at hw hs hin
              simp only [List.mem_append, List.mem_cons, reduceCtorEq, false_or, not_or] at hw hs
              rcases hin p (q ++ .markFailed :: waiting post) (by simp) with hp | hp
              · exact hw.1 hp
              · simp only [List.mem_append, List.mem_cons, reduceCtorEq, false_or, not_or] at hp
                rcases hs with hs | hs
                · exact hs.elim hw.1 hw.2
                · exact hp.2 hs
          · rfl
        rw [replay_pending_started hin hs, find_settles rfl hfirst]
        rfl
      · rw [replay_pending_unstarted hs]
        simp

theorem Converging.replay_at_work (h : Converging .processing (pre ++ ⟨uc, b⟩ :: post))
    (ht : OnTurn .processing (waiting pre) uc) :
    Media.replay (VideoStatus.processing.after uc) (waiting pre ++ waiting post) =
      Media.replay .pending (marks (pre ++ ⟨uc, b⟩ :: post)) := by
  rw [← h.replay]
  cases uc with
  | markProcessing =>
    change Media.replay .processing _ = _
    rw [replay_processing, replay_processing]
    cases b <;> simp [settles]
  | markDone =>
    change Media.replay .done _ = _
    rw [replay_done, replay_processing]
    have hfirst : ∀ other, (waiting pre).find? settles = some other → other = .markDone := by
      intro other hf
      rcases settles_of_find hf with rfl | rfl
      · rfl
      · exact absurd hf ht
    cases b with
    | false =>
      simp only [waiting_append, waiting_unhandled]
      rw [find_settles rfl hfirst]
      rfl
    | true =>
      rcases h.skipped (.inr rfl) pre post rfl with hg | ⟨hp, -⟩
      · obtain ⟨other, hf⟩ := Option.ne_none_iff_exists'.mp (guarded_iff.mp hg)
        obtain rfl := hfirst other hf
        simp [List.find?_append, hf, UseCase.target]
      · cases hp
  | markFailed =>
    change Media.replay .failed _ = _
    rw [replay_failed, replay_processing]
    have hfirst : ∀ other, (waiting pre).find? settles = some other → other = .markFailed := by
      intro other hf
      rcases settles_of_find hf with rfl | rfl
      · exact absurd hf ht
      · rfl
    cases b with
    | false =>
      simp only [waiting_append, waiting_unhandled]
      rw [find_settles rfl hfirst]
      rfl
    | true => exact absurd (by simp) (h.failed (.inr rfl))

/-- A step that leaves the video open is no failure, and skips what it does not apply. -/
theorem after_open (h : status.after uc = .pending ∨ status.after uc = .processing) :
    (status = .pending ∨ status = .processing) ∧ uc ≠ .markFailed ∧
      (uc = .markDone → status = .pending) ∧ (status.after uc = .pending → uc = .markDone) := by
  revert h
  cases status <;> cases uc <;> decide

/-- What an older mark had to skip stays guarded when another one is handled. -/
theorem Converging.skipped_handle (h : Converging status (pre ++ ⟨uc, b⟩ :: post))
    (ho : InOrder (marks (pre ++ ⟨uc, b⟩ :: post))) (ht : OnTurn status (waiting pre) uc)
    (hs : status.after uc = .pending ∨ status.after uc = .processing) {l r : List Slot}
    (he : pre ++ ⟨uc, true⟩ :: post = l ++ ⟨.markDone, true⟩ :: r) :
    Guarded l ∨ (status.after uc = .pending ∧
      .markProcessing ∉ marks (pre ++ ⟨uc, b⟩ :: post)) := by
  obtain ⟨hopen, -, hdone, hpend⟩ := after_open hs
  -- a `markDone` handled now, or one behind it whose guard was this mark
  have hself (hd : uc = .markDone) : Guarded pre ∨ (status.after uc = .pending ∧
      .markProcessing ∉ marks (pre ++ ⟨uc, b⟩ :: post)) := by
    subst hd
    obtain rfl := hdone rfl
    by_cases hw : .markProcessing ∈ waiting pre
    · exact .inl (guarded_iff.mpr (ht hw))
    · exact .inr ⟨rfl, h.unstarted ho hw⟩
  -- the mark handled now is no `markProcessing` of a video that had none
  have hkeep (hp : status = .pending) (hn : .markProcessing ∉ marks (pre ++ ⟨uc, b⟩ :: post)) :
      status.after uc = .pending := by
    subst hp
    cases uc with
    | markProcessing => simp at hn
    | markDone => rfl
    | markFailed => simp [VideoStatus.after, UseCase.target, VideoStatus.allowed] at hs
  rcases List.append_eq_append_iff.mp he with ⟨a, rfl, ha⟩ | ⟨c, rfl, hc⟩
  · cases a with
    | nil =>
      simp only [List.nil_append, List.cons.injEq, Slot.mk.injEq, and_true] at ha
      simpa using hself ha.1
    | cons e a =>
      simp only [List.cons_append, List.cons.injEq] at ha
      obtain ⟨rfl, rfl⟩ := ha
      rcases h.skipped hopen (pre ++ ⟨uc, b⟩ :: a) r (by simp) with ⟨c, hc, hm⟩ | ⟨hp, hn⟩
      · rcases List.mem_append.mp hm with hm | hm
        · exact .inl ⟨c, hc, List.mem_append_left _ hm⟩
        · rcases List.mem_cons.mp hm with hm | hm
          · have hcu : c = uc := congrArg Slot.uc hm
            have huc : uc = .markDone := by
              rw [hcu] at hc
              cases uc with
              | markProcessing => simp [settles] at hc
              | markDone => rfl
              | markFailed => exact absurd rfl (after_open hs).2.1
            rcases hself huc with ⟨o, ho, hmo⟩ | hn
            · exact .inl ⟨o, ho, List.mem_append_left _ hmo⟩
            · exact .inr hn
          · exact .inl ⟨c, hc, List.mem_append_right _ (List.mem_cons_of_mem _ hm)⟩
      · exact .inr ⟨hkeep hp hn, hn⟩
  · cases c with
    | nil =>
      simp only [List.nil_append, List.cons.injEq, Slot.mk.injEq, and_true] at hc
      simpa using hself hc.1.symm
    | cons e c =>
      simp only [List.cons_append, List.cons.injEq] at hc
      obtain ⟨rfl, rfl⟩ := hc
      rcases h.skipped hopen l (c ++ ⟨uc, b⟩ :: post) (by simp) with hg | ⟨hp, hn⟩
      · exact .inl hg
      · exact .inr ⟨hkeep hp hn, hn⟩

/-- Handling a mark on its turn, for the first time or again, keeps the video converging. -/
theorem Converging.handle (h : Converging status (pre ++ ⟨uc, b⟩ :: post))
    (ho : InOrder (marks (pre ++ ⟨uc, b⟩ :: post))) (ht : OnTurn status (waiting pre) uc) :
    Converging (status.after uc) (pre ++ ⟨uc, true⟩ :: post) := by
  have hold {c : UseCase} (hc : c ≠ uc) (hm : ⟨c, true⟩ ∈ pre ++ ⟨uc, true⟩ :: post) :
      ⟨c, true⟩ ∈ pre ++ ⟨uc, b⟩ :: post := by
    simp only [List.mem_append, List.mem_cons, Slot.mk.injEq, and_true, hc, false_or] at hm
    rcases hm with hm | hm
    · exact List.mem_append_left _ hm
    · exact List.mem_append_right _ (List.mem_cons_of_mem _ hm)
  refine ⟨?_, fun hs hm => ?_, fun hs hm => ?_, fun hs l r he => ?_⟩
  · simp only [waiting_append, waiting_handled, marks_append, marks_cons]
    cases status with
    | pending => simpa using h.replay_pending ho ht
    | processing => simpa using h.replay_at_work ht
    | done =>
      have hr := h.replay
      rw [replay_done] at hr
      have ha : VideoStatus.done.after uc = .done := by cases uc <;> rfl
      rw [ha, replay_done, hr, marks_append, marks_cons]
    | failed =>
      have hr := h.replay
      rw [replay_failed] at hr
      have ha : VideoStatus.failed.after uc = .failed := by cases uc <;> rfl
      rw [ha, replay_failed, hr, marks_append, marks_cons]
  · obtain ⟨-, -, hdone, hpend⟩ := after_open (.inl hs)
    have hd := hpend hs
    refine h.started (hdone hd) (hold ?_ hm)
    rw [hd]
    decide
  · obtain ⟨hopen, hf, -⟩ := after_open hs
    exact h.failed hopen (hold hf.symm hm)
  · simpa using h.skipped_handle ho ht hs he

/-- Once every mark is handled the status is the one of the whole stream. -/
theorem Converging.settled (h : Converging status slots) (hw : waiting slots = []) :
    status = Media.replay .pending (marks slots) := by
  rw [← h.replay, hw]
  rfl

/-- A mark handled out of turn at the end of the stream is lost: the waiting marks then lead
elsewhere than the stream does. -/
theorem Converging.onTurn_iff (h : Converging status (pre ++ [⟨uc, false⟩]))
    (ho : InOrder (marks (pre ++ [⟨uc, false⟩]))) :
    OnTurn status (waiting pre) uc ↔ Media.replay (status.after uc) (waiting pre) =
      Media.replay .pending (marks (pre ++ [⟨uc, false⟩])) := by
  constructor
  · intro ht
    simpa using (h.handle ho ht).replay
  · intro he
    rw [← h.replay] at he
    simp only [waiting_append, waiting_unhandled, waiting_nil, replay_append, replay_cons,
      replay_nil] at he
    cases status with
    | done => trivial
    | failed => trivial
    | pending =>
      have hall := inOrder_waiting ho (h.started rfl)
      rw [waiting_append] at hall
      have hin := inOrder_of_append hall
      cases uc with
      | markProcessing => trivial
      | markDone =>
        intro hw hf
        change Media.replay .pending (waiting pre) = _ at he
        rw [replay_pending_started hin hw, hf] at he
        cases he
      | markFailed =>
        intro hw hf
        change Media.replay .failed (waiting pre) = _ at he
        rw [replay_failed, replay_pending_started hin hw, hf] at he
        cases he
    | processing =>
      cases uc with
      | markProcessing => trivial
      | markDone =>
        intro hf
        change Media.replay .done (waiting pre) = _ at he
        rw [replay_done, replay_processing, hf] at he
        cases he
      | markFailed =>
        intro hf
        change Media.replay .failed (waiting pre) = _ at he
        rw [replay_failed, replay_processing, hf] at he
        cases he

end
end BackendTemplates.Media
