import BackendTemplates.Media.UploadEffects

namespace BackendTemplates.Media.Upload
open Python Runs

/-- The row of a new video: pending, with what the upload said. -/
def newRow (video : Video) : VideoRow :=
  ⟨video.sourceKey, .pending, video.uploadedAt, video.document, none⟩

/-- Every outbox row is filed under the id of the event it carries. -/
def Filed (t : Txn) : Prop :=
  ∀ r ∈ t.added, ∃ e : VideoUploadedIntegration, r.2 = e.row ∧ e.eventId = r.1

/-- What a call has saved is the row of a new video. -/
def Fresh : Call → Prop
  | .claiming t => t.added = []
  | .inserting t _ => t.added = []
  | .saving t => t.added = []
  | .adding t _ => t.saved = some (newRow t.video) ∧ Filed t
  | _ => True

def AllNew (w : World) : Prop :=
  ∀ c ∈ w.log, c.txn.saved = some (newRow c.txn.video) ∧ Filed c.txn

section
variable {cfg : Config} {i : Nat} {w w' : World} {k k' : Call} {a : Act} {t : Txn}

/-- Nobody has a row under an id a call has drawn and not committed. -/
theorem Booked.drawn_unused (hb : Booked cfg w) (hu : Unwritten i w) {id : Uuid}
    (hd : w.drawn id = some i) : w.videos id = none ∧ w.outbox id = none := by
  refine ⟨Option.eq_none_iff_forall_not_mem.mpr fun r hr => ?_,
    Option.eq_none_iff_forall_not_mem.mpr fun r hr => ?_⟩
  · obtain ⟨c, hc, rfl, -⟩ := hb.videos id r hr
    have he := (hb.drawn c hc).1
    rw [hd] at he
    exact hu c hc (Option.some.inj he).symm
  · obtain ⟨c, hc, ⟨e, ha, -⟩, -⟩ := hb.outbox id r hr
    have he := (hb.drawn c hc).2 id _ ha
    rw [hd] at he
    exact hu c hc (Option.some.inj he).symm

/-- Only the commit of a new video changes the tables the other parts see. -/
theorem step_tables (h : step cfg i w k a = some (w', k')) :
    (w'.videos = w.videos ∧ w'.outbox = w.outbox ∧ w'.log = w.log) ∨
      ∃ t, k = .adding t [] ∧ w' = w.commit i t := by
  unfold step at h
  split at h
  · split at h
    · split at h <;> cases h <;> exact .inl ⟨rfl, rfl, rfl⟩
    · cases h
  · obtain ⟨response, -, he⟩ := Option.map_eq_some_iff.mp h
    cases he
    exact .inl ⟨rfl, rfl, rfl⟩
  · split at h
    · cases h
    · split at h
      · cases h
      · split at h <;> cases h <;> exact .inl ⟨rfl, rfl, rfl⟩
  · obtain ⟨-, h⟩ := Option.ite_none_right_eq_some.mp h
    cases h
    exact .inl ⟨rfl, rfl, rfl⟩
  · split at h <;> cases h
    exact .inl ⟨rfl, rfl, rfl⟩
  · cases h
    exact .inr ⟨_, rfl, rfl⟩
  · cases h
    exact .inr ⟨_, rfl, rfl⟩
  · cases h
    exact .inl ⟨rfl, rfl, rfl⟩
  all_goals first
    | (simp only [Option.map_eq_some_iff, Prod.mk.injEq] at h
       obtain ⟨_, _, rfl, rfl⟩ := h
       exact .inl ⟨rfl, rfl, rfl⟩)
    | cases h

/-- A video is saved under an id nobody has used, so its row is a new one. -/
theorem saved_new (hb : Booked cfg w) (hk : Holds cfg i w (.saving t)) :
    VideoRow.save t.video ((w.videos t.video.id).map Stamped.row) = newRow t.video := by
  obtain ⟨hu, hbuilt, -, hclaim⟩ := hk
  rw [(hb.drawn_unused hu hclaim.drawn).1, Option.map_none]
  simp [VideoRow.save, newRow, hbuilt.status]

theorem lost_fresh {key : String} : Fresh (lost w t key) := by
  unfold lost
  split
  · trivial
  · split
    · trivial
    · split <;> trivial

theorem Filed.add {r : Uuid × VideoUploadedIntegration} (h : Filed t) (hr : r.2.eventId = r.1) :
    Filed { t with added := t.added ++ [(r.1, r.2.row)] } := by
  intro x hx
  rcases List.mem_append.mp hx with hx | hx
  · exact h x hx
  · obtain rfl := List.mem_singleton.mp hx
    exact ⟨r.2, rfl, hr⟩

theorem step_fresh (hb : Booked cfg w) (hk : Holds cfg i w k) (hf : Fresh k)
    (h : step cfg i w k a = some (w', k')) : Fresh k' := by
  unfold step at h
  split at h
  · split at h
    · split at h <;> cases h
      · trivial
      · split <;> rfl
    · cases h
  · obtain ⟨response, -, he⟩ := Option.map_eq_some_iff.mp h
    cases he
    exact hf
  · split at h
    · cases h
    · split at h
      · cases h
      · split at h <;> cases h
        · trivial
        · exact hf
  · rename_i t
    obtain ⟨-, h⟩ := Option.ite_none_right_eq_some.mp h
    cases h
    have hempty : t.added = [] := hf
    refine ⟨?_, fun r hr => ?_⟩
    · change some _ = some _
      rw [saved_new hb hk]
      rfl
    · rw [hempty] at hr
      cases hr
  · split at h <;> cases h
    exact ⟨hf.1, hf.2.add (r := (_, integration _ _ _)) rfl⟩
  · cases h
    trivial
  · cases h
    trivial
  · cases h
    trivial
  · simp only [Option.map_eq_some_iff, Prod.mk.injEq] at h
    obtain ⟨_, _, rfl, rfl⟩ := h
    exact lost_fresh
  all_goals first
    | (simp only [Option.map_eq_some_iff, Prod.mk.injEq] at h
       obtain ⟨_, _, rfl, rfl⟩ := h
       trivial)
    | cases h

theorem step_allNew (hn : AllNew w) (hf : Fresh k) (h : step cfg i w k a = some (w', k')) :
    AllNew w' := by
  rcases step_tables h with ⟨-, -, hl⟩ | ⟨t, rfl, rfl⟩
  · intro c hc
    exact hn c (hl ▸ hc)
  · intro c hc
    rcases mem_commit_log.mp hc with hc | rfl
    · exact hn c hc
    · exact hf

end

/-- Every video enters the table as a new one. -/
theorem new_rows {cfg : Config} {start : Datetime} {as : List Action} {s : State}
    (h : (pool cfg start).machine.Reaches as s) :
    AllNew s.world ∧ ∀ i, Fresh (s.clients i) := by
  have hall : Pool.Good (fun w => Booked cfg w ∧ AllNew w)
      (fun i w k => Holds cfg i w k ∧ Fresh k) s := by
    refine Pool.good_of_reaches (p := pool cfg start) ?_ ?_ ?_ h
    · obtain ⟨hb, hk⟩ := good (show (pool cfg start).machine.Reaches [] _ from rfl)
      exact ⟨⟨hb, fun c hc => by cases hc⟩, fun i => ⟨hk i, trivial⟩⟩
    · intro s i a w k hg hs
      obtain ⟨⟨hb, hn⟩, hk⟩ := hg
      obtain ⟨hb', hk', hf⟩ := step_good hb (hk i).1 hs
      exact ⟨⟨hb', step_allNew hn (hk i).2 hs⟩, ⟨hk', step_fresh hb (hk i).1 (hk i).2 hs⟩,
        fun j hj => ⟨(hk j).1.frame hf hj, (hk j).2⟩⟩
    · intro s e w hg hs
      obtain ⟨⟨hb, hn⟩, hk⟩ := hg
      obtain ⟨hb', hd, hc, hl⟩ := env_good hb hs
      refine ⟨⟨hb', fun c hc => hn c (hl ▸ hc)⟩, fun j => ⟨?_, (hk j).2⟩⟩
      have hf : Frame (j + 1) s.world w :=
        ⟨fun _ _ _ h => by rwa [hd], fun _ _ _ h => by rwa [hc], fun _ h => by rwa [hl],
          fun _ h => .inl (by rwa [hl] at h)⟩
      exact (hk j).1.frame hf (Nat.ne_of_lt (Nat.lt_succ_self j))
  exact ⟨hall.1.2, fun i => (hall.2 i).2⟩

end BackendTemplates.Media.Upload
