import Mathlib.Algebra.Order.BigOperators.Group.List
import Mathlib.Data.List.Dedup
import BackendTemplates.Library.Progress
import BackendTemplates.Shared.RelayDelivery

namespace BackendTemplates.Shared.OutboxRelay
open Python Runs

/-- The row without the time it was sent. -/
def OutboxRow.event (row : OutboxRow) : String × List UInt8 × Datetime :=
  (row.eventType, row.payload, row.createdAt)

/-- One for a committed row that is not marked as sent. -/
def owed (w : World) (id : Uuid) : Nat :=
  match w.rows id with
  | none => 0
  | some row => if row.sentAt = none then 1 else 0

/-- Open drains are rolled back, and one relay drains without a failure, alone: its claim is the
query's result over the committed rows. -/
def Repairs (batch : Nat → Nat) (i : Nat) (u : State) : Action → Prop
  | .act _ .rollback => True
  | .act j (.claim rs) => j = i ∧ (∀ k, u.clients k = .idle) ∧
      ∃ table, Listing u.world table ∧ rs = oldest (batch i) u.world table
  | .act _ (.xaddFail _) => False
  | .act j _ => j = i
  | .env _ => False

/-- The same rows, and each published as often as before, and once more if it was owed and is
not any longer. -/
structure Kept (s t : State) : Prop where
  rows : ∀ id, (t.world.rows id).map OutboxRow.event = (s.world.rows id).map OutboxRow.event
  published : ∀ id, published t.world id + owed t.world id =
    published s.world id + owed s.world id

/-- A state of a run, from which the rows of another one are kept. -/
structure Repaired (batch : Nat → Nat) (s t : State) : Prop where
  reached : ∃ as, (pool batch).machine.Reaches as t
  kept : Kept s t

section
variable {batch : Nat → Nat} {s t u : State} {i : Nat}

theorem Kept.trans (h : Kept s t) (h' : Kept t u) : Kept s u :=
  ⟨fun id => (h'.rows id).trans (h.rows id), fun id => (h'.published id).trans (h.published id)⟩

/-- No step of a drain adds a row. -/
theorem step_support {w w' : World} {k k' : Drain} {a : Act}
    (h : step batch i w k a = some (w', k')) :
    w'.inserting = w.inserting ∧ ∀ id, w'.rows id ≠ none → w.rows id ≠ none := by
  unfold step at h
  split at h
  · split at h
    · split at h <;> (cases h; exact ⟨rfl, fun _ hr => hr⟩)
    · cases h
  · cases h
    exact ⟨rfl, fun _ hr => hr⟩
  · split at h <;> (cases h; exact ⟨rfl, fun _ hr => hr⟩)
  · cases h
    exact ⟨rfl, fun _ hr => hr⟩
  · cases h
    refine ⟨rfl, ?_⟩
    intro id hr hn
    apply hr
    simp only [World.commit, hn, Option.map_none, ite_self]
  · cases h
    exact ⟨rfl, fun _ hr => hr⟩
  · cases h
    exact ⟨rfl, fun _ hr => hr⟩
  · cases h

theorem env_support {w w' : World} {e : Env} (h : env w e = some w') : ∃ new, ∀ id,
    w'.rows id ≠ none ∨ w'.inserting id ≠ none →
      id = new ∨ w.rows id ≠ none ∨ w.inserting id ≠ none := by
  unfold env at h
  split at h
  · rename_i new row
    split at h
    · cases h
      refine ⟨new, fun id hid => ?_⟩
      by_cases he : id = new
      · exact .inl he
      · exact .inr (by simpa [he] using hid)
    · cases h
  · rename_i new
    split at h
    · cases h
    · split at h
      · cases h
        refine ⟨new, fun id hid => ?_⟩
        by_cases he : id = new
        · exact .inl he
        · exact .inr (by simpa [he] using hid)
      · cases h
  · rename_i new
    split at h
    · cases h
    · cases h
      refine ⟨new, fun id hid => ?_⟩
      by_cases he : id = new
      · exact .inl he
      · exact .inr (by simpa [he] using hid)

/-- Only so many rows have ever been there, and only so many drains. -/
theorem finitely_many {as : List Action} (h : (pool batch).machine.Reaches as s) :
    (∃ ids : List Uuid, ∀ id, s.world.rows id ≠ none ∨ s.world.inserting id ≠ none → id ∈ ids) ∧
      ∃ drains : List Nat, ∀ j, s.clients j ≠ .idle → j ∈ drains := by
  refine h.induct (P := fun _ s =>
    (∃ ids : List Uuid, ∀ id, s.world.rows id ≠ none ∨ s.world.inserting id ≠ none → id ∈ ids) ∧
      ∃ drains : List Nat, ∀ j, s.clients j ≠ .idle → j ∈ drains) ?_ ?_
  · exact ⟨⟨[], by simp [pool, Pool.machine]⟩, [], by simp [pool, Pool.machine]⟩
  · intro as s a t _ hi ht
    obtain ⟨⟨ids, hids⟩, drains, hdrains⟩ := hi
    cases a with
    | act i a =>
      obtain ⟨w, k, hw, rfl⟩ := Pool.act_step.mp ht
      obtain ⟨hinserting, hrows⟩ := step_support hw
      refine ⟨⟨ids, fun id hid => hids id ?_⟩, i :: drains, fun j hj => ?_⟩
      · exact hid.imp (hrows id) (fun hne => hinserting ▸ hne)
      · by_cases he : j = i
        · simp [he]
        · exact List.mem_cons_of_mem i (hdrains j (by simpa [he] using hj))
    | env e =>
      obtain ⟨w, hw, rfl⟩ := Pool.env_step.mp ht
      obtain ⟨new, hnew⟩ := env_support hw
      refine ⟨⟨new :: ids, fun id hid => ?_⟩, drains, hdrains⟩
      exact List.mem_cons.mpr ((hnew id hid).imp_right (hids id))

theorem Repaired.step {a : Action} (h : Repaired batch s t)
    (hs : (pool batch).machine.step t a = some u) (hk : Kept t u) : Repaired batch s u := by
  obtain ⟨as, has⟩ := h.reached
  exact ⟨⟨as ++ [a], exec_snoc.mpr ⟨t, has, hs⟩⟩, h.kept.trans hk⟩

/-- An open drain can be rolled back. -/
theorem can_close (i j : Nat) (h : Repaired batch s t) :
    (pool batch).machine.CanReach (Repairs batch i) t fun u =>
      Repaired batch s u ∧ u.clients j = .idle ∧
        ∀ k, t.clients k = .idle → u.clients k = .idle := by
  have close (w : World) (hw : OutboxRelay.step batch j t.world (t.clients j) .rollback =
      some (w, Drain.idle)) (hk : Kept t ⟨w, Function.update t.clients j Drain.idle⟩) :
      (pool batch).machine.CanReach (Repairs batch i) t fun u => Repaired batch s u ∧
        u.clients j = .idle ∧ ∀ k, t.clients k = .idle → u.clients k = .idle := by
    have hs := (@Pool.act_step _ _ _ _ _ _ (pool batch) t _ j .rollback).mpr
      ⟨w, Drain.idle, hw, rfl⟩
    refine .step (a := .act j .rollback) trivial hs
      (.here ⟨h.step hs hk, by simp, ?_⟩)
    intro k hk
    by_cases he : k = j
    · simp [he]
    · simpa [he] using hk
  cases hj : t.clients j with
  | idle => exact .here ⟨h, hj, fun _ hk => hk⟩
  | publishing done todo =>
    exact close (t.world.abort done (done ++ todo)) (by rw [hj]; cases todo <;> rfl)
      ⟨fun _ => rfl, fun _ => rfl⟩
  | marked rs at_ =>
    exact close (t.world.abort rs rs) (by rw [hj]; rfl) ⟨fun _ => rfl, fun _ => rfl⟩

/-- Between drains no row is locked. -/
theorem unlocked {as : List Action} (h : (pool batch).machine.Reaches as t)
    (idle : ∀ j, t.clients j = .idle) (id : Uuid) : t.world.lock id = none := by
  cases hl : t.world.lock id with
  | none => rfl
  | some j =>
    have hc := (good h).2 j
    rw [idle j] at hc
    have hm := (hc.locked id).mp hl
    simp at hm

/-- Every drain is over. -/
def Rested (batch : Nat → Nat) (s t : State) : Prop :=
  Repaired batch s t ∧ ∀ j, t.clients j = .idle

@[simp] theorem xadds_rows (w : World) (rs : List Claimed) :
    (rs.foldl World.xadd w).rows = w.rows := by
  induction rs generalizing w with
  | nil => rfl
  | cons r rs ih => exact ih (w.xadd r)

theorem xadds_published (w : World) (rs : List Claimed) (id : Uuid) :
    published (rs.foldl World.xadd w) id = published w id + (ids rs).count id := by
  induction rs generalizing w with
  | nil => rfl
  | cons r rs ih =>
    have hcount : (ids (r :: rs)).count id = (ids rs).count id + if r.id = id then 1 else 0 := by
      simp [ids, List.count_cons]
    rw [List.foldl_cons, ih, published_xadd, hcount]
    omega

/-- The world once a drain is through. -/
def drained (w : World) (i : Nat) (rs : List Claimed) (at_ : Datetime) : World :=
  (rs.foldl World.xadd (w.lockRows i rs)).commit rs at_

theorem drained_rows (w : World) (rs : List Claimed) (at_ : Datetime) (id : Uuid) :
    (drained w i rs at_).rows id = if id ∈ ids rs then
      (w.rows id).map (fun row => { row with sentAt := some at_ }) else w.rows id := by
  simp [drained, World.commit, World.lockRows]

theorem drained_owed (w : World) (rs : List Claimed) (at_ : Datetime) (id : Uuid) :
    owed (drained w i rs at_) id = if id ∈ ids rs then 0 else owed w id := by
  unfold owed
  rw [drained_rows]
  by_cases hid : id ∈ ids rs
  · rw [if_pos hid, if_pos hid]
    cases w.rows id <;> simp
  · rw [if_neg hid, if_neg hid]

theorem select_of_owed {w : World} {id : Uuid} (h : owed w id ≠ 0) : ∃ r, select w id = some r := by
  unfold owed at h
  split at h
  · exact absurd rfl h
  · rename_i row hrow
    have hunsent : row.sentAt = none := by
      by_contra hsent
      exact h (if_neg hsent)
    exact ⟨⟨id, row.eventType, row.payload⟩,
      select_eq_some.mpr ⟨rfl, row, hrow, hunsent, rfl, rfl⟩⟩

theorem Unsent.owed {w : World} {r : Claimed} (h : Unsent w r) : owed w r.id = 1 := by
  obtain ⟨row, hrow, hunsent, -⟩ := h
  simp [OutboxRelay.owed, hrow, hunsent]

theorem drained_kept {rs : List Claimed} {clients : Nat → Drain} (at_ : Datetime)
    (unsent : ∀ r ∈ rs, Unsent t.world r) (nodup : (ids rs).Nodup) :
    Kept t ⟨drained t.world i rs at_, clients⟩ := by
  constructor
  · intro id
    simp only [drained_rows]
    split
    · cases t.world.rows id <;> rfl
    · rfl
  · intro id
    have hpublished : published (drained t.world i rs at_) id =
        published t.world id + (ids rs).count id := xadds_published _ rs id
    rw [hpublished, drained_owed]
    by_cases hid : id ∈ ids rs
    · obtain ⟨r, hr, rfl⟩ := List.mem_map.mp hid
      rw [if_pos hid, (unsent r hr).owed, List.count_eq_one_of_mem nodup hid]
    · rw [if_neg hid, List.count_eq_zero_of_not_mem hid, Nat.add_zero]

/-- A drain that has claimed its rows can go on to its commit. -/
theorem can_commit (at_ : Datetime) {done todo : List Claimed}
    (hi : t.clients i = .publishing done todo) :
    (pool batch).machine.CanReach (Repairs batch i) t fun u =>
      u = ⟨(todo.foldl World.xadd t.world).commit (done ++ todo) at_,
        Function.update t.clients i .idle⟩ := by
  induction todo generalizing t done with
  | nil =>
    have hmark : (pool batch).machine.step t (.act i (.mark at_)) =
        some ⟨t.world, Function.update t.clients i (.marked done at_)⟩ :=
      Pool.act_step.mpr ⟨_, _, by rw [hi]; rfl, rfl⟩
    have hcommit : (pool batch).machine.step
        ⟨t.world, Function.update t.clients i (.marked done at_)⟩ (.act i .commit) =
        some ⟨t.world.commit done at_, Function.update t.clients i .idle⟩ :=
      Pool.act_step.mpr ⟨t.world.commit done at_, .idle, by simp [pool, OutboxRelay.step], by simp⟩
    refine .step (a := .act i (.mark at_)) rfl hmark
      (.step (a := .act i .commit) rfl hcommit (.here ?_))
    simp
  | cons r todo ih =>
    have hxadd : (pool batch).machine.step t (.act i .xadd) =
        some ⟨t.world.xadd r, Function.update t.clients i (.publishing (done ++ [r]) todo)⟩ :=
      Pool.act_step.mpr ⟨_, _, by rw [hi]; rfl, rfl⟩
    refine .step (a := .act i .xadd) rfl hxadd ((@ih ⟨t.world.xadd r, Function.update t.clients i
      (.publishing (done ++ [r]) todo)⟩ (done ++ [r]) (by simp)).mono ?_)
    rintro u rfl
    simp

theorem Listing.kept {table : List Uuid} (h : Listing s.world table) (hk : Kept s t) :
    Listing t.world table where
  nodup := h.nodup
  rows id := by
    have hsame := hk.rows id
    rw [h.rows]
    cases hs : s.world.rows id <;> cases ht : t.world.rows id <;> simp_all

/-- How many rows of the table are owed. -/
def debt (table : List Uuid) (t : State) : Nat := (table.map (owed t.world)).sum

/-- A drain makes the debt smaller. -/
theorem can_drain (hb : 0 < batch i) (at_ : Datetime) {table : List Uuid}
    (hl : Listing s.world table) (h : Rested batch s t) (howed : debt table t ≠ 0) :
    (pool batch).machine.CanReach (Repairs batch i) t fun u =>
      Rested batch s u ∧ debt table u < debt table t := by
  obtain ⟨hrepaired, idle⟩ := h
  obtain ⟨as, has⟩ := hrepaired.reached
  have hlt : Listing t.world table := hl.kept hrepaired.kept
  obtain ⟨rs, hrs⟩ : ∃ rs, rs = oldest (batch i) t.world table := ⟨_, rfl⟩
  have hclaim : Claimable (batch i) t.world rs := hrs ▸ oldest_claimable hlt (unlocked has idle)
  -- some row is owed, so the query has a result
  have hne : rs ≠ [] := by
    obtain ⟨id, hid, hpos⟩ : ∃ id ∈ table, owed t.world id ≠ 0 := by
      by_contra hall
      exact howed (List.sum_eq_zero_iff.mpr (by simpa using hall))
    obtain ⟨r, hr⟩ := select_of_owed hpos
    have hmem : r ∈ table.filterMap (select t.world) := List.mem_filterMap.mpr ⟨id, hid, hr⟩
    rw [hrs, oldest, Ne, List.take_eq_nil_iff, not_or]
    exact ⟨by omega, List.ne_nil_of_mem (List.mem_mergeSort.mpr hmem)⟩
  have hstep : (pool batch).machine.step t (.act i (.claim rs)) =
      some ⟨t.world.lockRows i rs, Function.update t.clients i (.publishing [] rs)⟩ :=
    Pool.act_step.mpr ⟨t.world.lockRows i rs, .publishing [] rs,
      by simp [pool, OutboxRelay.step, idle i, hclaim, hne], rfl⟩
  obtain ⟨bs, u, hu, hm, rfl⟩ : (pool batch).machine.CanReach (Repairs batch i) t fun u =>
      u = ⟨drained t.world i rs at_, Function.update t.clients i .idle⟩ := by
    refine .step (a := .act i (.claim rs)) ⟨rfl, idle, table, hlt, hrs⟩ hstep
      ((can_commit at_ (Function.update_self ..)).mono ?_)
    rintro u rfl
    simp [drained]
  have hkept := @drained_kept t i rs (Function.update t.clients i .idle) at_ hclaim.unsent
    hclaim.nodup
  refine ⟨bs, _, hu, hm, ⟨⟨⟨_, has.append hu⟩, hrepaired.kept.trans hkept⟩, ?_⟩, ?_⟩
  · intro j
    by_cases he : j = i
    · simp [he]
    · simpa [he] using idle j
  · obtain ⟨r, hr⟩ := List.exists_mem_of_ne_nil rs hne
    refine List.sum_lt_sum _ _ ?_ ⟨r.id, (mem_oldest (hrs ▸ hr)).1, ?_⟩
    · intro id _
      rw [drained_owed]
      split <;> omega
    · have hid : r.id ∈ ids rs := List.mem_map_of_mem hr
      rw [drained_owed, if_pos hid, (hclaim.unsent r hr).owed]
      exact Nat.one_pos

/-- Once the open drains are closed every row can be sent. -/
theorem can_send_all {as : List Action} (h : (pool batch).machine.Reaches as s) (hb : 0 < batch i)
    (at_ : Datetime) : (pool batch).machine.CanReach (Repairs batch i) s fun t =>
      Rested batch s t ∧ ∀ id, owed t.world id = 0 := by
  obtain ⟨⟨ids, hids⟩, drains, hdrains⟩ := finitely_many h
  have start : Repaired batch s s := ⟨⟨as, h⟩, fun _ => rfl, fun _ => rfl⟩
  -- a drain that was never open stays so, and the others are closed one by one
  have hrested : (pool batch).machine.CanReach (Repairs batch i) s (Rested batch s) := by
    refine (Machine.CanReach.each (I := fun t => Repaired batch s t ∧
      ∀ j ∉ drains, t.clients j = .idle) (D := fun j t => t.clients j = .idle) ?_ drains
      ⟨start, fun j hj => not_not.mp (mt (hdrains j) hj)⟩).mono ?_
    · intro j t ht
      refine (can_close i j ht.1).mono ?_
      intro u hu
      obtain ⟨hrepaired, hj, hkeep⟩ := hu
      exact ⟨⟨hrepaired, fun k hk => hkeep k (ht.2 k hk)⟩, hj, hkeep⟩
    · intro t ht
      obtain ⟨⟨hrepaired, hout⟩, hin⟩ := ht
      refine ⟨hrepaired, fun j => ?_⟩
      by_cases hj : j ∈ drains
      · exact hin j hj
      · exact hout j hj
  obtain ⟨table, hl⟩ : ∃ table, Listing s.world table := by
    refine ⟨ids.dedup.filter (fun id => (s.world.rows id).isSome), ?_, ?_⟩
    · exact (List.nodup_dedup ids).filter _
    · intro id
      have hmem := hids id
      cases hrow : s.world.rows id <;> simp_all
  refine (hrested.trans fun t ht => Machine.CanReach.descend (debt table)
    (fun u hu hne => can_drain hb at_ hl hu hne) ht).mono ?_
  intro t ht
  obtain ⟨hrest, hdebt⟩ := ht
  refine ⟨hrest, fun id => ?_⟩
  by_cases hid : id ∈ table
  · exact List.sum_eq_zero_iff.mp hdebt _ (List.mem_map_of_mem hid)
  · have hnone : t.world.rows id = none := by
      by_contra hrow
      exact hid (((hl.kept hrest.1.kept).rows id).mpr hrow)
    rw [owed, hnone]

end

/-- Wherever a run has come to, whatever crashed on the way, one relay can go on alone: once the
open drains are rolled back its drains, each of the oldest rows that are not sent, lead to where
every committed row is sent, each just once, so that no lock is held, no row is owed, and every
row has its entry. -/
theorem relay_recovers {batch : Nat → Nat} {as : List Action} {s : State}
    (h : (pool batch).machine.Reaches as s) {i : Nat} (hb : 0 < batch i) (at_ : Datetime) :
    ∃ bs t, (pool batch).machine.exec s bs = some t ∧
      (pool batch).machine.Meets (Repairs batch i) s bs ∧ (∀ id, t.world.lock id = none) ∧
      ∀ id, (t.world.rows id).map OutboxRow.event = (s.world.rows id).map OutboxRow.event ∧
        published t.world id = published s.world id + owed s.world id ∧
        ∀ row, t.world.rows id = some row →
          row.sentAt ≠ none ∧ entryOf id row ∈ t.world.stream := by
  obtain ⟨bs, t, hbs, hmeets, ⟨hrepaired, idle⟩, settled⟩ := can_send_all h hb at_
  obtain ⟨cs, hcs⟩ := hrepaired.reached
  refine ⟨bs, t, hbs, hmeets, unlocked hcs idle, fun id => ⟨hrepaired.kept.rows id, ?_, ?_⟩⟩
  · have hsame := hrepaired.kept.published id
    rwa [settled, Nat.add_zero] at hsame
  · intro row hrow
    have hsent : row.sentAt ≠ none := by
      intro hnone
      have hsettled := settled id
      simp [owed, hrow, hnone] at hsettled
    exact ⟨hsent, (good hcs).1.entry_of_sent hrow hsent⟩

/-- A relay has published the row and gone silent, with the lock in its hands. -/
def silentRelay : List Action :=
  [.env (.insert event ⟨"video_uploaded", [123, 125], midnight, none⟩), .env (.commitInsert event),
    .act 0 (.claim [claimed]), .act 0 .xadd]

theorem silent_relay_replaced : ∃ s bs t, (pool fun _ => 100).machine.Reaches silentRelay s ∧
    s.world.lock event = some 0 ∧ (pool fun _ => 100).machine.exec s bs = some t ∧
    t.world.lock event = none ∧ published s.world event = 1 ∧ published t.world event = 2 := by
  have hr : ((pool fun _ => 100).machine.exec (pool fun _ => 100).machine.start silentRelay).map
      (fun s => (s.world.lock event, published s.world event, owed s.world event)) =
        some (some 0, 1, 1) := by
    decide
  obtain ⟨s, hs, he⟩ := Machine.reaches_of_map hr
  obtain ⟨hlock, hpublished, howed⟩ : s.world.lock event = some 0 ∧
      published s.world event = 1 ∧ owed s.world event = 1 := by simpa using he
  obtain ⟨bs, t, hbs, -, hfree, hall⟩ := relay_recovers hs (by decide : 0 < 100) (i := 1) midnight
  exact ⟨s, bs, t, hs, hlock, hbs, hfree event, hpublished, by
    rw [(hall event).2.1, hpublished, howed]⟩

end BackendTemplates.Shared.OutboxRelay
