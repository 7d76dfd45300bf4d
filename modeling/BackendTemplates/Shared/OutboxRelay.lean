import BackendTemplates.Library.Pool
import BackendTemplates.Python.Uuid
import BackendTemplates.Python.Datetime

namespace BackendTemplates.Shared.OutboxRelay
open Python Runs

/-- A row of `outbox_messages`, without its key. -/
structure OutboxRow where
  eventType : String
  payload : List UInt8
  createdAt : Datetime
  sentAt : Option Datetime
  deriving DecidableEq

/-- What the claiming query selects of a row. -/
structure Claimed where
  id : Uuid
  eventType : String
  payload : List UInt8
  deriving DecidableEq

structure Entry where
  eventId : String
  eventType : String
  payload : List UInt8
  deriving DecidableEq

def Claimed.entry (r : Claimed) : Entry := ⟨r.id.str, r.eventType, r.payload⟩

def ids (rs : List Claimed) : List Uuid := rs.map Claimed.id

@[simp] theorem ids_nil : ids [] = [] := rfl

theorem ids_append (as bs : List Claimed) : ids (as ++ bs) = ids as ++ ids bs := List.map_append

/-- Committed rows, rows of open inserting transactions, row locks, the stream, and for
each drain that ended without a commit the rows it had published. -/
structure World where
  rows : Uuid → Option OutboxRow
  inserting : Uuid → Option OutboxRow
  lock : Uuid → Option Nat
  stream : List Entry
  aborted : List (List Uuid)

/-- The drain transaction of one relay. -/
inductive Drain where
  | idle
  | publishing (done todo : List Claimed)
  | marked (rs : List Claimed) (at_ : Datetime)
  deriving DecidableEq

inductive Act where
  | claim (rs : List Claimed)
  | xadd
  | xaddFail (applied : Bool)
  | mark (at_ : Datetime)
  | commit
  | rollback
  deriving DecidableEq

inductive Env where
  | insert (id : Uuid) (row : OutboxRow)
  | commitInsert (id : Uuid)
  | rollbackInsert (id : Uuid)

/-- The row is committed with this data and `sent_at IS NULL`. -/
def Unsent (w : World) (r : Claimed) : Prop :=
  ∃ row, w.rows r.id = some row ∧ row.sentAt = none ∧ row.eventType = r.eventType ∧
    row.payload = r.payload

instance (w : World) (r : Claimed) : Decidable (Unsent w r) :=
  match h : w.rows r.id with
  | none => isFalse (by simp [Unsent, h])
  | some row => decidable_of_iff
      (row.sentAt = none ∧ row.eventType = r.eventType ∧ row.payload = r.payload)
      (by simp [Unsent, h])

def createdAt (w : World) (r : Claimed) : Nat :=
  match w.rows r.id with
  | none => 0
  | some row => row.createdAt.instant

/-- A result the claiming query can have. Which of the rows come back depends on its
snapshot and on the locks it runs into; none of them is sent or locked by another
transaction, and they come oldest first. -/
structure Claimable (batch : Nat) (w : World) (rs : List Claimed) : Prop where
  unsent : ∀ r ∈ rs, Unsent w r
  unlocked : ∀ r ∈ rs, w.lock r.id = none
  nodup : (ids rs).Nodup
  limit : rs.length ≤ batch
  ordered : rs.Pairwise (fun a b => createdAt w a ≤ createdAt w b)

instance (batch : Nat) (w : World) (rs : List Claimed) : Decidable (Claimable batch w rs) :=
  decidable_of_iff ((∀ r ∈ rs, Unsent w r) ∧ (∀ r ∈ rs, w.lock r.id = none) ∧ (ids rs).Nodup ∧
      rs.length ≤ batch ∧ rs.Pairwise (fun a b => createdAt w a ≤ createdAt w b))
    ⟨fun ⟨u, l, n, b, o⟩ => ⟨u, l, n, b, o⟩, fun ⟨u, l, n, b, o⟩ => ⟨u, l, n, b, o⟩⟩

/-- What the claiming query selects of the row, if that is not sent. -/
def select (w : World) (id : Uuid) : Option Claimed :=
  match w.rows id with
  | none => none
  | some row => if row.sentAt = none then some ⟨id, row.eventType, row.payload⟩ else none

/-- The claiming query's result while no other drain is open: the oldest rows of the table that
are not sent. Rows of one time come as the table has them. -/
def oldest (batch : Nat) (w : World) (table : List Uuid) : List Claimed :=
  ((table.filterMap (select w)).mergeSort (fun a b => createdAt w a ≤ createdAt w b)).take batch

/-- The committed rows, each once. -/
structure Listing (w : World) (table : List Uuid) : Prop where
  nodup : table.Nodup
  rows : ∀ id, id ∈ table ↔ w.rows id ≠ none

theorem select_eq_some {w : World} {id : Uuid} {r : Claimed} :
    select w id = some r ↔ r.id = id ∧ Unsent w r := by
  unfold select Unsent
  constructor
  · intro h
    split at h
    · cases h
    · rename_i row hrow
      split at h
      · rename_i hsent
        cases h
        exact ⟨rfl, row, hrow, hsent, rfl, rfl⟩
      · cases h
  · rintro ⟨rfl, row, hrow, hsent, htype, hpayload⟩
    simp [hrow, hsent, htype, hpayload]

theorem mem_oldest {batch : Nat} {w : World} {table : List Uuid} {r : Claimed}
    (h : r ∈ oldest batch w table) : r.id ∈ table ∧ Unsent w r := by
  obtain ⟨id, hid, hr⟩ := List.mem_filterMap.mp (List.mem_mergeSort.mp (List.mem_of_mem_take h))
  obtain ⟨rfl, hunsent⟩ := select_eq_some.mp hr
  exact ⟨hid, hunsent⟩

/-- The rows that come back are ones that can come back. -/
theorem oldest_claimable {batch : Nat} {w : World} {table : List Uuid} (h : Listing w table)
    (free : ∀ id, w.lock id = none) : Claimable batch w (oldest batch w table) where
  unsent _ hr := (mem_oldest hr).2
  unlocked r _ := free r.id
  nodup := by
    have hrows : (table.filterMap (select w)).Pairwise (fun a b => a.id ≠ b.id) := by
      refine List.pairwise_filterMap.mpr (h.nodup.imp ?_)
      intro x y hxy a ha b hb
      rw [(select_eq_some.mp ha).1, (select_eq_some.mp hb).1]
      exact hxy
    have hsorted := (List.mergeSort_perm (table.filterMap (select w))
      (fun a b => createdAt w a ≤ createdAt w b)).map Claimed.id
    have hall : (ids ((table.filterMap (select w)).mergeSort
        (fun a b => createdAt w a ≤ createdAt w b))).Nodup :=
      hsorted.nodup_iff.mpr (List.pairwise_map.mpr hrows)
    exact hall.sublist ((List.take_sublist _ _).map Claimed.id)
  limit := List.length_take_le _ _
  ordered := by
    have hsorted := @List.pairwise_mergeSort _ (fun a b => createdAt w a ≤ createdAt w b)
      (by simpa using fun a b c => Nat.le_trans) (by simpa using fun a b => Nat.le_total _ _)
      (table.filterMap (select w))
    rw [oldest]
    simpa using hsorted.sublist (List.take_sublist batch _)

namespace World

def lockRows (w : World) (i : Nat) (rs : List Claimed) : World :=
  { w with lock := fun id => if id ∈ ids rs then some i else w.lock id }

def xadd (w : World) (r : Claimed) : World := { w with stream := w.stream ++ [r.entry] }

/-- The transaction ends without a commit; what was published stays published. -/
def abort (w : World) (published locked : List Claimed) : World :=
  { w with
    lock := fun id => if id ∈ ids locked then none else w.lock id
    aborted := w.aborted ++ [ids published] }

def commit (w : World) (rs : List Claimed) (at_ : Datetime) : World :=
  { w with
    rows := fun id =>
      if id ∈ ids rs then (w.rows id).map (fun row => { row with sentAt := some at_ })
      else w.rows id
    lock := fun id => if id ∈ ids rs then none else w.lock id }

end World

/-- One step of `_drain_once`. A failed `XADD` may still have added its entry, and at any
point the transaction may be rolled back: a statement or the commit failed, or the relay
crashed. -/
def step (batch : Nat → Nat) (i : Nat) (w : World) : Drain → Act → Option (World × Drain)
  | .idle, .claim rs =>
    if Claimable (batch i) w rs then
      if rs = [] then some (w, .idle) else some (w.lockRows i rs, .publishing [] rs)
    else none
  | .publishing done (r :: todo), .xadd => some (w.xadd r, .publishing (done ++ [r]) todo)
  | .publishing done (r :: todo), .xaddFail applied =>
    if applied then some ((w.xadd r).abort (done ++ [r]) (done ++ r :: todo), .idle)
    else some (w.abort done (done ++ r :: todo), .idle)
  | .publishing done [], .mark at_ => some (w, .marked done at_)
  | .marked rs at_, .commit => some (w.commit rs at_, .idle)
  | .publishing done todo, .rollback => some (w.abort done (done ++ todo), .idle)
  | .marked rs _, .rollback => some (w.abort rs rs, .idle)
  | _, _ => none

/-- Transactions which insert rows commit or roll back on their own. -/
def env (w : World) : Env → Option World
  | .insert id row =>
    if w.rows id = none ∧ w.inserting id = none ∧ row.sentAt = none then
      some { w with inserting := Function.update w.inserting id (some row) }
    else none
  | .commitInsert id =>
    match w.inserting id with
    | none => none
    | some row =>
      if w.rows id = none then
        some { w with
          rows := Function.update w.rows id (some row)
          inserting := Function.update w.inserting id none }
      else none
  | .rollbackInsert id =>
    match w.inserting id with
    | none => none
    | some _ => some { w with inserting := Function.update w.inserting id none }

def pool (batch : Nat → Nat) : Pool Nat World Drain Act Env where
  world := ⟨fun _ => none, fun _ => none, fun _ => none, [], []⟩
  client := .idle
  step := step batch
  env := env

abbrev State := Pool.State Nat World Drain
abbrev Action := Pool.Action Nat Act Env

/-- The entries which carry a row's id. -/
def published (w : World) (id : Uuid) : Nat := w.stream.countP (fun e => e.eventId = id.str)

/-- The drains which published a row and did not commit. -/
def aborts (w : World) (id : Uuid) : Nat := w.aborted.countP (fun l => id ∈ l)

@[simp] theorem published_xadd (w : World) (r : Claimed) (id : Uuid) :
    published (w.xadd r) id = published w id + if r.id = id then 1 else 0 := by
  have he : r.id.str = id.str ↔ r.id = id := ⟨Uuid.str_injective, fun h => by rw [h]⟩
  simp [published, World.xadd, Claimed.entry, List.countP_append, List.countP_cons, he]

@[simp] theorem aborts_abort (w : World) (ps ls : List Claimed) (id : Uuid) :
    aborts (w.abort ps ls) id = aborts w id + if id ∈ ids ps then 1 else 0 := by
  simp [aborts, World.abort, List.countP_append, List.countP_cons]

@[simp] theorem published_abort (w : World) (ps ls : List Claimed) (id : Uuid) :
    published (w.abort ps ls) id = published w id := rfl

@[simp] theorem aborts_xadd (w : World) (r : Claimed) (id : Uuid) :
    aborts (w.xadd r) id = aborts w id := rfl

end BackendTemplates.Shared.OutboxRelay
