import BackendTemplates.Shared.OutboxRelay

namespace BackendTemplates.Shared.OutboxRelay
open Python Runs

/-- A committed row with this data, sent or not. -/
def Stored (w : World) (r : Claimed) : Prop :=
  ∃ row, w.rows r.id = some row ∧ row.eventType = r.eventType ∧ row.payload = r.payload

theorem Unsent.stored {w : World} {r : Claimed} (h : Unsent w r) : Stored w r := by
  obtain ⟨row, hr, _, hd⟩ := h
  exact ⟨row, hr, hd⟩

/-- The stream agrees with the table: every entry is of a committed row, and a row at rest
has one entry for each aborted drain that published it, and one more once it is sent. -/
structure Ledger (w : World) : Prop where
  known : ∀ e ∈ w.stream, ∃ r, Stored w r ∧ e = r.entry
  aborted : ∀ l ∈ w.aborted, ∀ id ∈ l, w.rows id ≠ none
  inserting : ∀ id row, w.inserting id = some row → row.sentAt = none
  sent : ∀ id row, w.rows id = some row → row.sentAt ≠ none →
    w.lock id = none ∧ published w id = aborts w id + 1
  unsent : ∀ id row, w.rows id = some row → row.sentAt = none → w.lock id = none →
    published w id = aborts w id

/-- An open drain holds the locks of exactly its rows; it has added one entry for each row
it is done with. -/
structure Holds (i : Nat) (w : World) (done todo : List Claimed) : Prop where
  nodup : (ids (done ++ todo)).Nodup
  locked : ∀ id, w.lock id = some i ↔ id ∈ ids (done ++ todo)
  rows : ∀ r ∈ done ++ todo, Unsent w r
  published : ∀ id ∈ ids done, published w id = aborts w id + 1
  waiting : ∀ id ∈ ids todo, OutboxRelay.published w id = aborts w id

def Consistent (i : Nat) (w : World) : Drain → Prop
  | .idle => Holds i w [] []
  | .publishing done todo => Holds i w done todo
  | .marked rs _ => Holds i w rs []

section
variable {w : World} {i : Nat} {done todo : List Claimed}

theorem Ledger.published_missing (h : Ledger w) {id : Uuid} (hn : w.rows id = none) :
    published w id = 0 := by
  apply List.countP_eq_zero.mpr
  intro e he
  obtain ⟨r, ⟨row, hr, _⟩, rfl⟩ := h.known e he
  intro heq
  have hid : r.id = id := Uuid.str_injective (of_decide_eq_true heq)
  rw [hid, hn] at hr
  cases hr

theorem Ledger.aborts_missing (h : Ledger w) {id : Uuid} (hn : w.rows id = none) :
    aborts w id = 0 := by
  apply List.countP_eq_zero.mpr
  intro l hl hm
  exact h.aborted l hl id (by simpa using hm) hn

theorem Holds.unsent_of_mem (h : Holds i w done todo) {id : Uuid}
    (hm : id ∈ ids (done ++ todo)) : ∃ row, w.rows id = some row ∧ row.sentAt = none := by
  obtain ⟨r, hr, rfl⟩ := List.mem_map.mp hm
  obtain ⟨row, he, hs, _⟩ := h.rows r hr
  exact ⟨row, he, hs⟩

/-- What does not touch the rows a drain has locked leaves it consistent. -/
theorem Holds.frame {w' : World} (h : Holds i w done todo)
    (hl : ∀ id, w'.lock id = some i ↔ w.lock id = some i)
    (hw : ∀ id, w.lock id = some i → w'.rows id = w.rows id ∧
      OutboxRelay.published w' id = OutboxRelay.published w id ∧ aborts w' id = aborts w id) :
    Holds i w' done todo := by
  have hid {id : Uuid} (hm : id ∈ ids (done ++ todo)) := hw id ((h.locked id).mpr hm)
  refine ⟨h.nodup, fun id => (hl id).trans (h.locked id), fun r hr => ?_, fun id hm => ?_,
    fun id hm => ?_⟩
  · obtain ⟨row, he, hd⟩ := h.rows r hr
    exact ⟨row, by rw [(hid (List.mem_map_of_mem hr)).1, he], hd⟩
  · obtain ⟨_, hp, ha⟩ := hid (by rw [ids_append]; exact List.mem_append_left _ hm)
    rw [hp, ha, h.published id hm]
  · obtain ⟨_, hp, ha⟩ := hid (by rw [ids_append]; exact List.mem_append_right _ hm)
    rw [hp, ha, h.waiting id hm]

theorem Consistent.frame {w' : World} {k : Drain} (h : Consistent i w k)
    (hl : ∀ id, w'.lock id = some i ↔ w.lock id = some i)
    (hw : ∀ id, w.lock id = some i → w'.rows id = w.rows id ∧
      published w' id = published w id ∧ aborts w' id = aborts w id) : Consistent i w' k := by
  cases k with
  | idle => exact Holds.frame h hl hw
  | publishing done todo => exact Holds.frame h hl hw
  | marked rs at_ => exact Holds.frame h hl hw

variable {rs : List Claimed} {batch : Nat}

theorem Claimable.not_sent (h : Claimable batch w rs) {id : Uuid} (hm : id ∈ ids rs) :
    ∃ row, w.rows id = some row ∧ row.sentAt = none ∧ w.lock id = none := by
  obtain ⟨r, hr, rfl⟩ := List.mem_map.mp hm
  obtain ⟨row, he, hs, _⟩ := h.unsent r hr
  exact ⟨row, he, hs, h.unlocked r hr⟩

theorem Ledger.claim (h : Ledger w) (hc : Claimable batch w rs) : Ledger (w.lockRows i rs) := by
  refine ⟨h.known, h.aborted, h.inserting, fun id row hr hs => ?_, fun id row hr hs hl => ?_⟩
  · obtain ⟨hl, hp⟩ := h.sent id row hr hs
    have hn : id ∉ ids rs := by
      intro hm
      obtain ⟨row', hr', hs', _⟩ := hc.not_sent hm
      cases hr.symm.trans hr'
      exact hs hs'
    exact ⟨by simpa only [World.lockRows, hn, ↓reduceIte] using hl, hp⟩
  · by_cases hm : id ∈ ids rs
    · simp only [World.lockRows, hm, ↓reduceIte, reduceCtorEq] at hl
    · exact h.unsent id row hr hs (by simpa only [World.lockRows, hm, ↓reduceIte] using hl)

theorem Holds.claim (h : Holds i w [] []) (hl : Ledger w) (hc : Claimable batch w rs) :
    Holds i (w.lockRows i rs) [] rs := by
  refine ⟨hc.nodup, fun id => ?_, hc.unsent, fun id hm => by simp at hm, fun id hm => ?_⟩
  · by_cases hm : id ∈ ids rs
    · simp only [World.lockRows, hm, ↓reduceIte, List.nil_append]
    · have hn := h.locked id
      simp only [World.lockRows, hm, ↓reduceIte, List.nil_append, iff_false]
      simpa using hn
  · obtain ⟨row, hr, hs, hlock⟩ := hc.not_sent hm
    exact hl.unsent id row hr hs hlock

theorem Ledger.xadd {r : Claimed} (h : Ledger w) (hh : Holds i w done (r :: todo)) :
    Ledger (w.xadd r) := by
  have hlock : w.lock r.id = some i := (hh.locked r.id).mpr (by simp [ids])
  have hu : Unsent w r := hh.rows r (by simp)
  refine ⟨fun e he => ?_, h.aborted, h.inserting, fun id row hr hs => ?_,
    fun id row hr hs hl => ?_⟩
  · rcases List.mem_append.mp he with he | he
    · exact h.known e he
    · exact ⟨r, hu.stored, by simpa using he⟩
  · obtain ⟨hl, hp⟩ := h.sent id row hr hs
    have hne : r.id ≠ id := by
      intro hsame
      subst hsame
      rw [hlock] at hl
      cases hl
    exact ⟨hl, by simpa [hne] using hp⟩
  · have hne : r.id ≠ id := by
      intro hsame
      subst hsame
      exact absurd (hlock.symm.trans hl) (by simp)
    simpa [hne] using h.unsent id row hr hs hl

theorem Holds.xadd {r : Claimed} (h : Holds i w done (r :: todo)) :
    Holds i (w.xadd r) (done ++ [r]) todo := by
  have he : done ++ [r] ++ todo = done ++ r :: todo := by simp
  have hn := h.nodup
  simp only [ids, List.map_append, List.map_cons, List.nodup_append, List.nodup_cons,
    List.mem_cons] at hn
  obtain ⟨_, ⟨hrt, _⟩, hdis⟩ := hn
  refine ⟨he ▸ h.nodup, fun id => he ▸ h.locked id, fun x hx => h.rows x (he ▸ hx),
    fun id hm => ?_, fun id hm => ?_⟩
  · simp only [ids, List.map_append, List.mem_append, List.map_cons, List.map_nil,
      List.mem_singleton] at hm
    rcases hm with hm | rfl
    · have hne : r.id ≠ id := fun heq => hdis id hm r.id (.inl rfl) heq.symm
      simpa [hne] using h.published id hm
    · simpa using h.waiting r.id (by simp [ids])
  · have hne : r.id ≠ id := by
      intro hsame
      subst hsame
      exact hrt hm
    simpa [hne] using h.waiting id (by simp only [ids, List.map_cons, List.mem_cons]; exact .inr hm)

theorem Ledger.abort (h : Ledger w) (hh : Holds i w done todo) :
    Ledger (w.abort done (done ++ todo)) := by
  have hsplit (id : Uuid) : id ∈ ids (done ++ todo) ↔ id ∈ ids done ∨ id ∈ ids todo := by
    rw [ids_append, List.mem_append]
  refine ⟨h.known, fun l hl id hid => ?_, h.inserting, fun id row hr hs => ?_,
    fun id row hr hs hl => ?_⟩
  · rcases List.mem_append.mp hl with hl | hl
    · exact h.aborted l hl id hid
    · simp only [List.mem_singleton] at hl
      subst l
      obtain ⟨row, hr, _⟩ := hh.unsent_of_mem ((hsplit id).mpr (.inl hid))
      simp [World.abort, hr]
  · have hn : id ∉ ids (done ++ todo) := by
      intro hm
      obtain ⟨row', hr', hs'⟩ := hh.unsent_of_mem hm
      cases hr.symm.trans hr'
      exact hs hs'
    have hd : id ∉ ids done := fun hm => hn ((hsplit id).mpr (.inl hm))
    obtain ⟨hl, hp⟩ := h.sent id row hr hs
    refine ⟨?_, by simpa only [published_abort, aborts_abort, hd, ↓reduceIte] using hp⟩
    simpa only [World.abort, hn, ↓reduceIte] using hl
  · simp only [published_abort, aborts_abort]
    by_cases hd : id ∈ ids done
    · simpa only [hd, ↓reduceIte] using hh.published id hd
    · simp only [hd, ↓reduceIte, Nat.add_zero]
      by_cases ht : id ∈ ids todo
      · exact hh.waiting id ht
      · have hn : id ∉ ids (done ++ todo) := fun hm => ((hsplit id).mp hm).elim hd ht
        exact h.unsent id row hr hs (by simpa only [World.abort, hn, ↓reduceIte] using hl)

theorem Holds.abort (h : Holds i w done todo) : Holds i (w.abort done (done ++ todo)) [] [] := by
  refine ⟨by simp, fun id => ?_, by simp, by simp, by simp⟩
  by_cases hm : id ∈ ids (done ++ todo)
  · simp only [World.abort, hm, ↓reduceIte]
    simp
  · have hn := h.locked id
    simp only [World.abort, hm, ↓reduceIte, hn]
    simp

theorem Ledger.commit {at_ : Datetime} (h : Ledger w) (hh : Holds i w rs []) :
    Ledger (w.commit rs at_) := by
  refine ⟨fun e he => ?_, fun l hl id hid => ?_, h.inserting, fun id row hr hs => ?_,
    fun id row hr hs hl => ?_⟩
  · obtain ⟨r, ⟨row, hr, hd⟩, rfl⟩ := h.known e he
    refine ⟨r, ?_, rfl⟩
    by_cases hm : r.id ∈ ids rs
    · exact ⟨{ row with sentAt := some at_ }, by simp only [World.commit, hm, ↓reduceIte, hr,
        Option.map_some], hd⟩
    · exact ⟨row, by simpa only [World.commit, hm, ↓reduceIte] using hr, hd⟩
  · have hne := h.aborted l hl id hid
    by_cases hm : id ∈ ids rs
    · simpa only [World.commit, hm, ↓reduceIte, ne_eq, Option.map_eq_none_iff] using hne
    · simpa only [World.commit, hm, ↓reduceIte] using hne
  · by_cases hm : id ∈ ids rs
    · exact ⟨by simp only [World.commit, hm, ↓reduceIte], hh.published id hm⟩
    · simp only [World.commit, hm, ↓reduceIte] at hr ⊢
      exact h.sent id row hr hs
  · by_cases hm : id ∈ ids rs
    · simp only [World.commit, hm, ↓reduceIte, Option.map_eq_some_iff] at hr
      obtain ⟨old, _, rfl⟩ := hr
      cases hs
    · simp only [World.commit, hm, ↓reduceIte] at hr hl
      exact h.unsent id row hr hs hl

theorem Holds.commit {at_ : Datetime} (h : Holds i w rs []) :
    Holds i (w.commit rs at_) [] [] := by
  refine ⟨by simp, fun id => ?_, by simp, by simp, by simp⟩
  have hn := h.locked id
  rw [List.append_nil] at hn
  by_cases hm : id ∈ ids rs
  · simp only [World.commit, hm, ↓reduceIte]
    simp
  · simp only [World.commit, hm, ↓reduceIte, hn]
    simp

variable {j : Nat} {k : Drain}

theorem Consistent.claim (h : Consistent j w k) (hji : j ≠ i) (hc : Claimable batch w rs) :
    Consistent j (w.lockRows i rs) k := by
  refine h.frame (fun id => ?_) (fun id _ => ⟨rfl, rfl, rfl⟩)
  by_cases hm : id ∈ ids rs
  · obtain ⟨_, _, _, hn⟩ := hc.not_sent hm
    simp [World.lockRows, hm, hn, hji.symm]
  · simp [World.lockRows, hm]

theorem Consistent.xadd {r : Claimed} (h : Consistent j w k) (hji : j ≠ i)
    (hr : w.lock r.id = some i) : Consistent j (w.xadd r) k := by
  refine h.frame (fun id => Iff.rfl) (fun id hid => ⟨rfl, ?_, rfl⟩)
  have hne : r.id ≠ id := by
    intro heq
    subst heq
    rw [hr] at hid
    exact hji (Option.some.inj hid).symm
  simp [hne]

/-- Nobody else had the locks a drain gives up when it ends. -/
theorem Holds.released (h : Holds i w done todo) (hji : j ≠ i) (id : Uuid) :
    (if id ∈ ids (done ++ todo) then none else w.lock id) = some j ↔ w.lock id = some j := by
  by_cases hm : id ∈ ids (done ++ todo)
  · simp [hm, (h.locked id).mpr hm, hji.symm]
  · simp [hm]

theorem Consistent.abort (h : Consistent j w k) (hji : j ≠ i) (hh : Holds i w done todo) :
    Consistent j (w.abort done (done ++ todo)) k := by
  refine h.frame (hh.released hji) (fun id hid => ⟨rfl, rfl, ?_⟩)
  have hn : id ∉ ids done := by
    intro hm
    have hi := (hh.locked id).mpr (by rw [ids_append]; exact List.mem_append_left _ hm)
    rw [hid] at hi
    exact hji (Option.some.inj hi)
  simp [hn]

theorem Consistent.commit {at_ : Datetime} (h : Consistent j w k) (hji : j ≠ i)
    (hh : Holds i w rs []) : Consistent j (w.commit rs at_) k := by
  refine h.frame (fun id => ?_) (fun id hid => ⟨?_, rfl, rfl⟩)
  · have hr := hh.released hji id
    rw [List.append_nil] at hr
    exact hr
  · have hn : id ∉ ids rs := by
      intro hm
      have hi := (hh.locked id).mpr (by rwa [List.append_nil])
      rw [hid] at hi
      exact hji (Option.some.inj hi)
    simp [World.commit, hn]

/-- The step of one drain keeps the ledger, its own locks and everyone else's. -/
theorem step_good {batch : Nat → Nat} {w' : World} {k k' : Drain} {a : Act}
    (hl : Ledger w) (hc : Consistent i w k) (hs : step batch i w k a = some (w', k')) :
    Ledger w' ∧ Consistent i w' k' ∧
      ∀ j, j ≠ i → ∀ o, Consistent j w o → Consistent j w' o := by
  unfold step at hs
  split at hs
  · split at hs
    · rename_i hcl
      split at hs
      · cases hs
        exact ⟨hl, hc, fun j _ o ho => ho⟩
      · cases hs
        exact ⟨hl.claim hcl, Holds.claim hc hl hcl, fun j hji o ho => ho.claim hji hcl⟩
    · cases hs
  · rename_i done r todo
    cases hs
    have hr : w.lock r.id = some i := (Holds.locked hc r.id).mpr (by simp [ids])
    exact ⟨hl.xadd hc, Holds.xadd hc, fun j hji o ho => ho.xadd hji hr⟩
  · rename_i done r todo applied
    have hc : Holds i w done (r :: todo) := hc
    split at hs
    · cases hs
      have hr : w.lock r.id = some i := (hc.locked r.id).mpr (by simp [ids])
      have he : done ++ r :: todo = done ++ [r] ++ todo := by simp
      rw [he]
      exact ⟨(hl.xadd hc).abort hc.xadd, hc.xadd.abort,
        fun j hji o ho => (ho.xadd hji hr).abort hji hc.xadd⟩
    · cases hs
      exact ⟨hl.abort hc, hc.abort, fun j hji o ho => ho.abort hji hc⟩
  · cases hs
    exact ⟨hl, hc, fun j _ o ho => ho⟩
  · cases hs
    exact ⟨hl.commit hc, Holds.commit hc, fun j hji o ho => ho.commit hji hc⟩
  · cases hs
    exact ⟨hl.abort hc, Holds.abort hc, fun j hji o ho => ho.abort hji hc⟩
  · rename_i rs at_
    cases hs
    have hc : Holds i w rs [] := hc
    have hl' := hl.abort hc
    have hc' := hc.abort
    have ho' (j : Nat) (hji : j ≠ i) (o : Drain) (ho : Consistent j w o) := ho.abort hji hc
    rw [List.append_nil] at hl' hc' ho'
    exact ⟨hl', hc', ho'⟩
  · cases hs

theorem Ledger.committed {id : Uuid} {row : OutboxRow} {m : Uuid → Option OutboxRow}
    (h : Ledger w) (hn : w.rows id = none) (hs : row.sentAt = none)
    (hm : ∀ x r, m x = some r → r.sentAt = none) :
    Ledger { w with rows := Function.update w.rows id (some row), inserting := m } := by
  refine ⟨fun e he => ?_, fun l hl x hx => ?_, hm, fun x r hr hsent => ?_, fun x r hr hu hlk => ?_⟩
  · obtain ⟨r, ⟨old, hr, hd⟩, rfl⟩ := h.known e he
    refine ⟨r, ⟨old, ?_, hd⟩, rfl⟩
    have hne : r.id ≠ id := by
      intro heq
      subst heq
      rw [hn] at hr
      cases hr
    simpa [hne] using hr
  · by_cases hx' : x = id
    · subst x
      simp
    · simpa [hx'] using h.aborted l hl x hx
  · by_cases hx' : x = id
    · subst x
      simp only [Function.update_self, Option.some.injEq] at hr
      subst r
      exact absurd hs hsent
    · exact h.sent x r (by simpa [hx'] using hr) hsent
  · by_cases hx' : x = id
    · subst x
      exact (h.published_missing hn).trans (h.aborts_missing hn).symm
    · exact h.unsent x r (by simpa [hx'] using hr) hu hlk

theorem Holds.committed {id : Uuid} {row : OutboxRow} {m : Uuid → Option OutboxRow}
    (h : Holds i w done todo) (hn : w.rows id = none) :
    Holds i { w with rows := Function.update w.rows id (some row), inserting := m } done todo := by
  refine h.frame (fun _ => Iff.rfl) (fun x hx => ⟨?_, rfl, rfl⟩)
  obtain ⟨old, ho, _⟩ := h.unsent_of_mem ((h.locked x).mp hx)
  have hne : x ≠ id := by
    intro heq
    subst heq
    rw [hn] at ho
    cases ho
  simp [hne]

theorem env_good {w' : World} {e : Env} (hl : Ledger w) (hs : env w e = some w') :
    Ledger w' ∧ ∀ j o, Consistent j w o → Consistent j w' o := by
  have frame {m : Uuid → Option OutboxRow} (j : Nat) (o : Drain) (ho : Consistent j w o) :
      Consistent j { w with inserting := m } o :=
    ho.frame (fun _ => Iff.rfl) (fun _ _ => ⟨rfl, rfl, rfl⟩)
  unfold env at hs
  split at hs
  · rename_i id row
    split at hs
    · rename_i hg
      cases hs
      refine ⟨⟨hl.known, hl.aborted, fun x r hr => ?_, hl.sent, hl.unsent⟩, frame⟩
      by_cases hx : x = id
      · subst x
        simp only [Function.update_self, Option.some.injEq] at hr
        exact hr ▸ hg.2.2
      · exact hl.inserting x r (by simpa [hx] using hr)
    · cases hs
  · rename_i id
    split at hs
    · cases hs
    · rename_i row hi
      split at hs
      · rename_i hn
        cases hs
        refine ⟨hl.committed hn (hl.inserting id row hi) (fun x r hr => ?_), fun j o ho => ?_⟩
        · by_cases hx : x = id
          · subst x
            simp at hr
          · exact hl.inserting x r (by simpa [hx] using hr)
        · cases o with
          | idle => exact Holds.committed ho hn
          | publishing done todo => exact Holds.committed ho hn
          | marked rs at_ => exact Holds.committed ho hn
      · cases hs
  · rename_i id
    split at hs
    · cases hs
    · cases hs
      refine ⟨⟨hl.known, hl.aborted, fun x r hr => ?_, hl.sent, hl.unsent⟩, frame⟩
      by_cases hx : x = id
      · subst x
        simp at hr
      · exact hl.inserting x r (by simpa [hx] using hr)

end

theorem good {batch : Nat → Nat} {as : List Action} {s : State}
    (h : (pool batch).machine.Reaches as s) : Pool.Good Ledger Consistent s := by
  refine Pool.good_of_reaches (p := pool batch) ?_ ?_ ?_ h
  · refine ⟨⟨?_, ?_, ?_, ?_, ?_⟩, fun i => ⟨?_, ?_, ?_, ?_, ?_⟩⟩ <;>
      simp [pool, Pool.machine, ids]
  · intro s i a w k hg hs
    obtain ⟨hl, hk⟩ := hg
    obtain ⟨hl', hk', ho⟩ := step_good hl (hk i) hs
    exact ⟨hl', hk', fun j hji => ho j hji _ (hk j)⟩
  · intro s e w hg hs
    obtain ⟨hl, hk⟩ := hg
    obtain ⟨hl', ho⟩ := env_good hl hs
    exact ⟨hl', fun j => ho j _ (hk j)⟩

/-- An action which ends a drain without its commit. -/
def Act.fails : Act → Bool
  | .xaddFail _ => true
  | .rollback => true
  | _ => false

def fails : Action → Bool
  | .act _ a => a.fails
  | .env _ => false

theorem step_aborted {batch : Nat → Nat} {i : Nat} {w w' : World} {k k' : Drain} {a : Act}
    (hf : a.fails = false) (hs : step batch i w k a = some (w', k')) :
    w'.aborted = w.aborted := by
  unfold step at hs
  split at hs
  · split at hs
    · split at hs <;> (cases hs; rfl)
    · cases hs
  all_goals first
    | (simp [Act.fails] at hf; done)
    | (cases hs; rfl)
    | cases hs

theorem env_aborted {w w' : World} {e : Env} (hs : env w e = some w') :
    w'.aborted = w.aborted := by
  unfold env at hs
  split at hs
  · split at hs
    · cases hs
      rfl
    · cases hs
  · split at hs
    · cases hs
    · split at hs
      · cases hs
        rfl
      · cases hs
  · split at hs
    · cases hs
    · cases hs
      rfl

theorem aborted_of_no_failure {batch : Nat → Nat} {as : List Action} {s : State}
    (h : (pool batch).machine.Reaches as s) (hf : ∀ a ∈ as, fails a = false) :
    s.world.aborted = [] := by
  revert hf
  refine h.induct (P := fun as s => (∀ a ∈ as, fails a = false) → s.world.aborted = [])
    (fun _ => rfl) ?_
  intro as s a t _ ih hs hf
  have hlast := ih (fun b hb => hf b (by simp [hb]))
  have ha := hf a (by simp)
  cases a with
  | act i a =>
    obtain ⟨w, k, hw, rfl⟩ := Pool.act_step.mp hs
    exact (step_aborted ha hw).trans hlast
  | env e =>
    obtain ⟨w, hw, rfl⟩ := Pool.env_step.mp hs
    exact (env_aborted hw).trans hlast

/-- A row has at most one entry more than there were drains which published it in vain. -/
theorem published_le {i : Nat → Drain} {w : World} (hl : Ledger w)
    (hk : ∀ j, Consistent j w (i j)) (id : Uuid) : published w id ≤ aborts w id + 1 := by
  have held {j : Nat} {done todo : List Claimed} (h : Holds j w done todo)
      (hj : w.lock id = some j) : published w id ≤ aborts w id + 1 := by
    have hm := (h.locked id).mp hj
    rw [ids_append, List.mem_append] at hm
    rcases hm with hm | hm
    · exact (h.published id hm).le
    · have hp := h.waiting id hm
      omega
  cases hr : w.rows id with
  | none =>
    have hp := hl.published_missing hr
    omega
  | some row =>
    by_cases hs : row.sentAt = none
    · cases hlk : w.lock id with
      | none =>
        have hp := hl.unsent id row hr hs hlk
        omega
      | some j =>
        have hc := hk j
        cases hkj : i j with
        | idle => exact held (hkj ▸ hc) hlk
        | publishing done todo => exact held (hkj ▸ hc) hlk
        | marked rs at_ => exact held (hkj ▸ hc) hlk
    · exact (hl.sent id row hr hs).2.le

def entryOf (id : Uuid) (row : OutboxRow) : Entry := ⟨id.str, row.eventType, row.payload⟩

theorem Ledger.entry_of_sent {w : World} (hl : Ledger w) {id : Uuid} {row : OutboxRow}
    (hr : w.rows id = some row) (hs : row.sentAt ≠ none) : entryOf id row ∈ w.stream := by
  have hp := (hl.sent id row hr hs).2
  obtain ⟨e, he, hid⟩ : ∃ e ∈ w.stream, decide (e.eventId = id.str) = true :=
    List.countP_pos_iff.mp (by change 0 < published w id; omega)
  obtain ⟨r, ⟨old, ho, ht, hpl⟩, rfl⟩ := hl.known e he
  have hrid : r.id = id := Uuid.str_injective (of_decide_eq_true hid)
  rw [hrid, hr] at ho
  cases ho
  simpa [entryOf, Claimed.entry, hrid, ht, hpl] using he

/-- Nothing is lost, nothing is invented, and what is duplicated is duplicated by drains
that did not commit. -/
theorem relay_delivers {batch : Nat → Nat} {as : List Action} {s : State}
    (h : (pool batch).machine.Reaches as s) :
    (∀ id row, s.world.rows id = some row → row.sentAt ≠ none →
      entryOf id row ∈ s.world.stream) ∧
    (∀ e ∈ s.world.stream, ∃ id row, s.world.rows id = some row ∧ e = entryOf id row) ∧
    (∀ id, published s.world id ≤ aborts s.world id + 1) ∧
    ((∀ a ∈ as, fails a = false) → ∀ id, published s.world id ≤ 1 ∧
      ∀ row, s.world.rows id = some row → row.sentAt ≠ none → published s.world id = 1) := by
  obtain ⟨hl, hk⟩ := good h
  refine ⟨fun id row hr hs => hl.entry_of_sent hr hs, fun e he => ?_, published_le hl hk,
    fun hf id => ?_⟩
  · obtain ⟨r, ⟨row, hr, ht, hp⟩, rfl⟩ := hl.known e he
    exact ⟨r.id, row, hr, by simp [entryOf, Claimed.entry, ht, hp]⟩
  · have ha : aborts s.world id = 0 := by simp [aborts, aborted_of_no_failure h hf]
    have hle := published_le hl hk id
    refine ⟨by omega, fun row hr hs => ?_⟩
    have hp := (hl.sent id row hr hs).2
    omega

def event : Uuid := Uuid.null

def midnight : Datetime := ⟨⟨2025, 1, 1, 0, 0, 0, 0⟩, by decide⟩

def claimed : Claimed := ⟨event, "video_uploaded", [123, 125]⟩

/-- The first relay publishes the row and dies; a second one drains it again. -/
def secondRelay : List Action :=
  [.env (.insert event ⟨"video_uploaded", [123, 125], midnight, none⟩), .env (.commitInsert event),
    .act 0 (.claim [claimed]), .act 0 .xadd, .act 0 .rollback,
    .act 1 (.claim [claimed]), .act 1 .xadd, .act 1 (.mark midnight), .act 1 .commit]

theorem second_relay_delivers : ∃ s, (pool fun _ => 100).machine.Reaches secondRelay s ∧
    (∃ row, s.world.rows event = some row ∧ row.sentAt ≠ none ∧
      entryOf event row ∈ s.world.stream) ∧
    published s.world event ≤ aborts s.world event + 1 := by
  have hr : ((pool fun _ => 100).machine.exec (pool fun _ => 100).machine.start secondRelay).map
      (fun s => s.world.rows event) =
        some (some ⟨"video_uploaded", [123, 125], midnight, some midnight⟩) := by
    decide
  obtain ⟨s, hs, he⟩ := Machine.reaches_of_map hr
  obtain ⟨h1, -, h3, -⟩ := relay_delivers hs
  exact ⟨s, hs, ⟨_, he, by simp, h1 _ _ he (by simp)⟩, h3 event⟩

end BackendTemplates.Shared.OutboxRelay
