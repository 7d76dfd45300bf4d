import Mathlib.Data.List.Nodup
import Mathlib.Data.List.Perm.Basic
import BackendTemplates.Auth.Genuine

namespace BackendTemplates.Auth

def UserRow.isActive (row : UserRow) : Bool := row.deletedAt.isNone

/-- The emails that the unique index holds. -/
def activeEmails (rows : List UserRow) : List String :=
  (rows.filter UserRow.isActive).map UserRow.email

section
variable {rows rows' users : List UserRow} {row : UserRow} {user : Python.Uuid} {deletedAt : Int}
  {email : String}

@[simp] theorem deleteAt_id : (row.deleteAt user deletedAt).id = row.id := by
  unfold UserRow.deleteAt
  split <;> rfl

@[simp] theorem deleteAt_email : (row.deleteAt user deletedAt).email = row.email := by
  unfold UserRow.deleteAt
  split <;> rfl

@[simp] theorem deleteAt_role : (row.deleteAt user deletedAt).role = row.role := by
  unfold UserRow.deleteAt
  split <;> rfl

theorem deleteAt_deleted (h : row.deletedAt ≠ none) : row.deleteAt user deletedAt = row :=
  if_neg (fun hx => h hx.2)

theorem deleteAt_isActive (h : (row.deleteAt user deletedAt).isActive = true) :
    row.deleteAt user deletedAt = row := by
  unfold UserRow.deleteAt at h ⊢
  split
  · rename_i hx
    rw [if_pos hx] at h
    cases h
  · rfl

theorem softDelete_ids : (softDelete users user deletedAt).map UserRow.id =
    users.map UserRow.id := by
  simp [softDelete, Function.comp_def]

/-- A soft delete only takes emails out of the index. -/
theorem softDelete_emails : (activeEmails (softDelete users user deletedAt)).Sublist
    (activeEmails users) := by
  apply List.Sublist.map
  induction users with
  | nil => exact .slnil
  | cons row users ih =>
    simp only [softDelete, List.map_cons] at ih ⊢
    cases hnew : (row.deleteAt user deletedAt).isActive with
    | false =>
      rw [List.filter_cons_of_neg (by simp [hnew])]
      exact ih.trans ((List.sublist_cons_self row users).filter _)
    | true =>
      have hsame := deleteAt_isActive hnew
      rw [hsame] at hnew ⊢
      rw [List.filter_cons_of_pos hnew, List.filter_cons_of_pos hnew]
      exact ih.cons_cons row

/-- Where the emails of active rows differ, at most one active row has a given one. -/
theorem length_activeWith (h : (activeEmails rows).Nodup) :
    (rows.filter (UserRow.activeWith email)).length ≤ 1 := by
  have hsub : (rows.filter (UserRow.activeWith email)).Sublist
      (rows.filter UserRow.isActive) := by
    have hboth : UserRow.activeWith email = fun row => row.email == email && row.isActive := rfl
    rw [hboth, ← List.filter_filter]
    exact List.filter_sublist
  have hnodup := h.sublist (hsub.map UserRow.email)
  have hall : (rows.filter (UserRow.activeWith email)).map UserRow.email =
      List.replicate (rows.filter (UserRow.activeWith email)).length email := by
    apply List.eq_replicate_iff.mpr
    refine ⟨List.length_map _, ?_⟩
    intro x hx
    obtain ⟨row, hrow, rfl⟩ := List.mem_map.mp hx
    have hboth := (List.mem_filter.mp hrow).2
    simp only [UserRow.activeWith, Bool.and_eq_true, beq_iff_eq] at hboth
    exact hboth.1
  rw [hall] at hnodup
  exact List.nodup_replicate.mp hnodup

theorem Deactivated.softDelete {other : Python.Uuid} (h : Deactivated users user) :
    Deactivated (softDelete users other deletedAt) user := by
  obtain ⟨row, hrow, hid, hdeleted⟩ := h
  refine ⟨row, ?_, hid, hdeleted⟩
  rw [← @deleteAt_deleted row other deletedAt hdeleted]
  exact List.mem_map_of_mem hrow

/-- With distinct ids, no active row has the id of a deleted one. -/
theorem Deactivated.not_active (h : Deactivated users user) (hids : (users.map UserRow.id).Nodup)
    (hrow : row ∈ users) (hactive : row.deletedAt = none) : row.id ≠ user := by
  obtain ⟨gone, hgone, hid, hdeleted⟩ := h
  intro he
  have hsame := List.inj_on_of_nodup_map hids hrow hgone (he.trans hid.symm)
  rw [← hsame] at hdeleted
  exact hdeleted hactive

theorem isActive_iff : isActive users user = true ↔
    ∃ row ∈ users, row.id = user ∧ row.deletedAt = none := by
  simp [isActive, List.any_eq_true]

end
namespace Facade
open Python Runs

/-- The rows of the table and of the open registrations. -/
def World.rows (w : World) : List UserRow := w.users ++ w.inserting.map Registration.row

def World.messages (w : World) : List OutboxRow :=
  w.outbox ++ w.inserting.map Registration.message

/-- The message announces the row. -/
def Announces (row : UserRow) (message : OutboxRow) : Prop :=
  message.eventType = "user_registered" ∧ message.payload.userId = row.id ∧
    message.payload.role = row.role.value

/-- Ids and active emails are unique among all rows, open registrations included, and each
row has its message. -/
structure Ledger (f : AuthFacade) (w : World) : Prop where
  ids : (w.rows.map UserRow.id).Nodup
  drawn : ∀ row ∈ w.rows, row.id ∈ w.drawn
  sent : ∀ message ∈ w.messages, message.id ∈ w.drawn
  emails : (activeEmails w.rows).Nodup
  normal : ∀ row ∈ w.rows, ∃ address, row.email = f.normalizeEmail address
  announced : List.Forall₂ Announces w.users w.outbox
  pending : ∀ x ∈ w.inserting, Announces x.row x.message

/-- No row has the identifiers that a rejected registration has drawn. -/
structure Unused (w : World) (userId eventId : Uuid) : Prop where
  drawn : userId ∈ w.drawn ∧ eventId ∈ w.drawn
  rows : ∀ row ∈ w.rows, row.id ≠ userId
  messages : ∀ message ∈ w.messages, message.id ≠ eventId

/-- What a call has done to the tables, and the pair it has. -/
def Placed (f : AuthFacade) (i : Nat) (w : World) : Call → Prop
  | .registering email _ => ∃ address, email = f.normalizeEmail address
  | .inserted row message => ⟨i, row, message⟩ ∈ w.inserting
  | .emailTaken _ userId eventId => Unused w userId eventId
  | .deactivated user => Deactivated w.users user
  | .paired (some r) =>
    f.jwt.issuePair r.issuedAt r.role r.subject r.accessId r.refreshId = some r.pair
  | _ => True

/-- What a step of one call leaves to the others. -/
structure Leaves (i : Nat) (w w' : World) : Prop where
  drawn : ∀ id ∈ w.drawn, id ∈ w'.drawn
  rows : ∀ row ∈ w'.rows, row.id ∈ w.rows.map UserRow.id ∨ row.id ∉ w.drawn
  messages : ∀ message ∈ w'.messages, message ∈ w.messages ∨ message.id ∉ w.drawn
  inserting : ∀ x ∈ w.inserting, x.client ≠ i → x ∈ w'.inserting
  deactivated : ∀ user, Deactivated w.users user → Deactivated w'.users user

section
variable {f : AuthFacade} {i j : Nat} {w w' : World} {k k' : Call} {a : Act} {x : Registration}
  {user : Uuid} {row : UserRow} {message : OutboxRow}

theorem Announces.deleteAt {deletedAt : Int} (h : Announces row message) :
    Announces (row.deleteAt user deletedAt) message := by
  unfold Announces at h ⊢
  rwa [deleteAt_id, deleteAt_role]

theorem rows_commit (hx : x ∈ w.inserting) : (w.commit x).rows.Perm w.rows := by
  have herase := (List.perm_cons_erase hx).map Registration.row
  have hmiddle : (w.commit x).rows.Perm
      (w.users ++ x.row :: (w.inserting.erase x).map Registration.row) := List.perm_middle.symm
  exact hmiddle.trans (herase.symm.append_left w.users)

theorem rows_insert : (w.insert x).rows.Perm (x.row :: w.rows) := List.perm_middle

theorem rows_rollBack : (w.rollBack x).rows.Sublist w.rows :=
  (List.Sublist.refl _).append (List.erase_sublist.map _)

theorem messages_commit (hx : x ∈ w.inserting) : (w.commit x).messages.Perm w.messages := by
  have herase := (List.perm_cons_erase hx).map Registration.message
  have hmiddle : (w.commit x).messages.Perm
      (w.outbox ++ x.message :: (w.inserting.erase x).map Registration.message) :=
    List.perm_middle.symm
  exact hmiddle.trans (herase.symm.append_left w.outbox)

theorem messages_rollBack : (w.rollBack x).messages.Sublist w.messages :=
  (List.Sublist.refl _).append (List.erase_sublist.map _)

theorem messages_insert : (w.insert x).messages.Perm (x.message :: w.messages) :=
  List.perm_middle

theorem Ledger.commit (h : Ledger f w) (hx : x ∈ w.inserting) : Ledger f (w.commit x) := by
  have hperm := rows_commit hx
  exact
    { ids := (hperm.map UserRow.id).nodup_iff.mpr h.ids
      drawn := fun row hrow => h.drawn row (hperm.mem_iff.mp hrow)
      sent := fun m hm => h.sent m ((messages_commit hx).mem_iff.mp hm)
      emails := ((hperm.filter _).map UserRow.email).nodup_iff.mpr h.emails
      normal := fun row hrow => h.normal row (hperm.mem_iff.mp hrow)
      announced := .cons (h.pending x hx) h.announced
      pending := fun y hy => h.pending y (List.mem_of_mem_erase hy) }

theorem Ledger.rollBack (h : Ledger f w) : Ledger f (w.rollBack x) where
  ids := h.ids.sublist (rows_rollBack.map _)
  drawn row hrow := h.drawn row (rows_rollBack.subset hrow)
  sent m hm := h.sent m (messages_rollBack.subset hm)
  emails := h.emails.sublist ((rows_rollBack.filter _).map _)
  normal row hrow := h.normal row (rows_rollBack.subset hrow)
  announced := h.announced
  pending y hy := h.pending y (List.mem_of_mem_erase hy)

theorem mem_rows : row ∈ w.rows ↔ row ∈ w.users ∨ ∃ x ∈ w.inserting, x.row = row := by
  simp [World.rows]

/-- The index sees no active row with the email, committed or not. -/
theorem free_email {email : String}
    (halone : w.inserting.any (fun x => x.row.email == email) = false)
    (hfree : w.users.any (UserRow.activeWith email) = false) : email ∉ activeEmails w.rows := by
  intro hmem
  obtain ⟨row, hrow, rfl⟩ := List.mem_map.mp hmem
  obtain ⟨hrow, hactive⟩ := List.mem_filter.mp hrow
  rcases mem_rows.mp hrow with hrow | ⟨x, hx, rfl⟩
  · have hno := List.any_eq_false.mp hfree row hrow
    exact hno (by simpa [UserRow.activeWith, UserRow.isActive] using hactive)
  · exact List.any_eq_false.mp halone x hx (by simp)

theorem Ledger.insert (h : Ledger f w) (hf : w.Fresh [x.row.id, x.message.id])
    (hactive : x.row.isActive = true) (hemail : x.row.email ∉ activeEmails w.rows)
    (hnormal : ∃ address, x.row.email = f.normalizeEmail address)
    (hsent : Announces x.row x.message) : Ledger f (w.insert x) := by
  have hperm := @rows_insert w x
  have hid : x.row.id ∉ w.rows.map UserRow.id := by
    intro hmem
    obtain ⟨row, hrow, he⟩ := List.mem_map.mp hmem
    exact hf.2 x.row.id (by simp) (he ▸ h.drawn row hrow)
  have hemails : activeEmails (x.row :: w.rows) = x.row.email :: activeEmails w.rows := by
    rw [activeEmails, List.filter_cons_of_pos hactive]
    rfl
  constructor
  · exact (hperm.map UserRow.id).nodup_iff.mpr (List.nodup_cons.mpr ⟨hid, h.ids⟩)
  · intro row hrow
    rcases List.mem_cons.mp (hperm.mem_iff.mp hrow) with rfl | hrow
    · exact List.mem_append_left _ (by simp)
    · exact List.mem_append_right _ (h.drawn row hrow)
  · intro m hm
    rcases List.mem_cons.mp (messages_insert.mem_iff.mp hm) with rfl | hm
    · exact List.mem_append_left _ (by simp)
    · exact List.mem_append_right _ (h.sent m hm)
  · have hboth := (hperm.filter UserRow.isActive).map UserRow.email
    apply hboth.nodup_iff.mpr
    change (activeEmails (x.row :: w.rows)).Nodup
    rw [hemails]
    exact List.nodup_cons.mpr ⟨hemail, h.emails⟩
  · intro row hrow
    rcases List.mem_cons.mp (hperm.mem_iff.mp hrow) with rfl | hrow
    · exact hnormal
    · exact h.normal row hrow
  · exact h.announced
  · intro y hy
    rcases List.mem_cons.mp hy with rfl | hy
    · exact hsent
    · exact h.pending y hy

theorem mem_softDelete {deletedAt : Int} (h : row ∈ (w.softDelete user deletedAt).rows) :
    ∃ old ∈ w.rows, row.id = old.id ∧ row.email = old.email := by
  rcases mem_rows.mp h with h | ⟨x, hx, rfl⟩
  · obtain ⟨old, hold, rfl⟩ := List.mem_map.mp h
    exact ⟨old, mem_rows.mpr (.inl hold), deleteAt_id, deleteAt_email⟩
  · exact ⟨x.row, mem_rows.mpr (.inr ⟨x, hx, rfl⟩), rfl, rfl⟩

theorem Ledger.softDelete {deletedAt : Int} (h : Ledger f w) :
    Ledger f (w.softDelete user deletedAt) := by
  constructor
  · have hids := h.ids
    rw [World.rows, List.map_append] at hids ⊢
    rwa [World.softDelete, softDelete_ids]
  · intro row hrow
    obtain ⟨old, hold, hid, _⟩ := mem_softDelete hrow
    rw [hid]
    exact h.drawn old hold
  · exact h.sent
  · have hemails := h.emails
    rw [World.rows, activeEmails, List.filter_append, List.map_append] at hemails ⊢
    exact hemails.sublist (softDelete_emails.append (List.Sublist.refl _))
  · intro row hrow
    obtain ⟨old, hold, _, hemail⟩ := mem_softDelete hrow
    rw [hemail]
    exact h.normal old hold
  · apply List.forall₂_map_left_iff.mpr
    exact h.announced.imp (fun _ _ => Announces.deleteAt)
  · exact h.pending

/-- Steps that leave the tables alone keep the ledger. -/
theorem Ledger.of_same (h : Ledger f w) (hu : w'.users = w.users) (ho : w'.outbox = w.outbox)
    (hi : w'.inserting = w.inserting) (hd : ∀ id ∈ w.drawn, id ∈ w'.drawn) : Ledger f w' := by
  have hrows : w'.rows = w.rows := by rw [World.rows, hu, hi, World.rows]
  have hmessages : w'.messages = w.messages := by rw [World.messages, ho, hi, World.messages]
  exact
    { ids := hrows ▸ h.ids
      drawn := fun row hrow => hd _ (h.drawn row (hrows ▸ hrow))
      sent := fun m hm => hd _ (h.sent m (hmessages ▸ hm))
      emails := hrows ▸ h.emails
      normal := fun row hrow => h.normal row (hrows ▸ hrow)
      announced := by rw [hu, ho]; exact h.announced
      pending := fun x hx => h.pending x (hi ▸ hx) }

theorem drawn_log {r : Issued} {id : Uuid} (h : id ∈ w.drawn) : id ∈ (w.log r).drawn :=
  List.mem_cons_of_mem _ (List.mem_cons_of_mem _ h)

theorem Ledger.log {r : Issued} (h : Ledger f w) : Ledger f (w.log r) :=
  h.of_same rfl rfl rfl (fun _ => drawn_log)

theorem newMessage_announces {email passwordHash : String} {userId eventId : Uuid}
    {createdAt : Int} :
    Announces (newRow email passwordHash userId createdAt) (newMessage w userId eventId) :=
  ⟨rfl, rfl, rfl⟩

theorem Turn.ledger (h : Turn f i w k a w' k') (hl : Ledger f w) (hk : Placed f i w k) :
    Ledger f w' := by
  cases h with
  | taken => exact hl.of_same rfl rfl rfl (fun _ => List.mem_append_right _)
  | inserted fresh alone free =>
    exact hl.insert fresh rfl (free_email alone free) hk newMessage_announces
  | committed => exact hl.commit hk
  | rolledBack => exact hl.rollBack
  | deactivated => exact hl.softDelete
  | loggedIn => exact hl.log
  | minted => exact hl.log
  | rotated => exact hl.log
  | _ => exact hl.of_same rfl rfl rfl (fun _ h => h)

theorem Leaves.of_same (hu : w'.users = w.users) (ho : w'.outbox = w.outbox)
    (hi : w'.inserting = w.inserting) (hd : ∀ id ∈ w.drawn, id ∈ w'.drawn) : Leaves i w w' := by
  have hrows : w'.rows = w.rows := by rw [World.rows, hu, hi, World.rows]
  have hmessages : w'.messages = w.messages := by rw [World.messages, ho, hi, World.messages]
  exact
    { drawn := hd
      rows := fun row hrow => .inl (List.mem_map_of_mem (hrows ▸ hrow))
      messages := fun m hm => .inl (hmessages ▸ hm)
      inserting := fun x hx _ => hi ▸ hx
      deactivated := fun user h => hu ▸ h }

theorem Leaves.log {r : Issued} : Leaves i w (w.log r) :=
  .of_same rfl rfl rfl (fun _ => drawn_log)

theorem Leaves.insert (hf : w.Fresh [x.row.id, x.message.id]) : Leaves i w (w.insert x) where
  drawn _ := List.mem_append_right _
  rows row hrow := by
    rcases List.mem_cons.mp (rows_insert.mem_iff.mp hrow) with rfl | hrow
    · exact .inr (hf.2 _ (by simp))
    · exact .inl (List.mem_map_of_mem hrow)
  messages m hm := by
    rcases List.mem_cons.mp (messages_insert.mem_iff.mp hm) with rfl | hm
    · exact .inr (hf.2 _ (by simp))
    · exact .inl hm
  inserting _ hx _ := List.mem_cons_of_mem _ hx
  deactivated _ h := h

theorem Leaves.commit (hx : x ∈ w.inserting) (hi : x.client = i) : Leaves i w (w.commit x) where
  drawn _ h := h
  rows row hrow := .inl (List.mem_map_of_mem ((rows_commit hx).mem_iff.mp hrow))
  messages m hm := .inl ((messages_commit hx).mem_iff.mp hm)
  inserting y hy hne := by
    refine (List.mem_erase_of_ne ?_).mpr hy
    rintro rfl
    exact hne hi
  deactivated user h := by
    obtain ⟨row, hrow, hid, hdeleted⟩ := h
    exact ⟨row, List.mem_cons_of_mem _ hrow, hid, hdeleted⟩

theorem Leaves.rollBack (hi : x.client = i) : Leaves i w (w.rollBack x) where
  drawn _ h := h
  rows row hrow := .inl (List.mem_map_of_mem (rows_rollBack.subset hrow))
  messages m hm := .inl (messages_rollBack.subset hm)
  inserting y hy hne := by
    refine (List.mem_erase_of_ne ?_).mpr hy
    rintro rfl
    exact hne hi
  deactivated _ h := h

theorem Leaves.softDelete {deletedAt : Int} : Leaves i w (w.softDelete user deletedAt) where
  drawn _ h := h
  rows row hrow := by
    obtain ⟨old, hold, hid, _⟩ := mem_softDelete hrow
    exact .inl (List.mem_map.mpr ⟨old, hold, hid.symm⟩)
  messages _ hm := .inl hm
  inserting _ hx _ := hx
  deactivated _ h := h.softDelete

theorem Turn.leaves (h : Turn f i w k a w' k') (hk : Placed f i w k) : Leaves i w w' := by
  cases h with
  | taken => exact .of_same rfl rfl rfl (fun _ => List.mem_append_right _)
  | inserted fresh => exact .insert fresh
  | committed => exact .commit hk rfl
  | rolledBack => exact .rollBack rfl
  | deactivated => exact .softDelete
  | loggedIn => exact .log
  | minted => exact .log
  | rotated => exact .log
  | _ => exact .of_same rfl rfl rfl (fun _ h => h)

theorem Unused.mono {userId eventId : Uuid} (h : Unused w userId eventId) (hl : Leaves i w w') :
    Unused w' userId eventId where
  drawn := ⟨hl.drawn _ h.drawn.1, hl.drawn _ h.drawn.2⟩
  rows row hrow := by
    intro he
    rcases hl.rows row hrow with hold | hnew
    · obtain ⟨old, hold, hid⟩ := List.mem_map.mp hold
      exact h.rows old hold (hid.trans he)
    · exact hnew (he ▸ h.drawn.1)
  messages m hm := by
    intro he
    rcases hl.messages m hm with hold | hnew
    · exact h.messages m hold he
    · exact hnew (he ▸ h.drawn.2)

theorem Placed.mono (h : Placed f j w k) (hl : Leaves i w w') (hne : j ≠ i) :
    Placed f j w' k := by
  unfold Placed at h ⊢
  split at h
  · exact h
  · exact hl.inserting _ h hne
  · exact h.mono hl
  · exact hl.deactivated _ h
  · exact h
  · trivial

theorem Call.Inert.placed (h : k.Inert) : Placed f i w k := by
  unfold Call.Inert at h
  split at h <;> trivial

theorem Turn.placed (h : Turn f i w k a w' k') (hl : Ledger f w) : Placed f i w' k' := by
  cases h with
  | quiet inert => exact inert.placed
  | registering => exact ⟨_, rfl⟩
  | taken fresh =>
    obtain ⟨_, hnew⟩ := fresh
    refine ⟨⟨by simp [World.draw], by simp [World.draw]⟩, ?_, ?_⟩
    · intro row hrow he
      exact hnew _ (by simp) (he ▸ hl.drawn row hrow)
    · intro m hm he
      exact hnew _ (by simp) (he ▸ hl.sent m hm)
  | inserted => exact List.mem_cons_self
  | committed result => rcases result with rfl | ⟨_, rfl⟩ <;> trivial
  | loggedIn fresh pair => exact issuePair_encoded pair
  | minted fresh pair => exact issuePair_encoded pair
  | rotated fresh pair => exact issuePair_encoded pair
  | deactivated result =>
    rcases result with ⟨rfl, hactive⟩ | inert
    · obtain ⟨row, hrow, hid, hnone⟩ := isActive_iff.mp hactive
      refine ⟨_, List.mem_map_of_mem hrow, deleteAt_id.trans hid, ?_⟩
      rw [UserRow.deleteAt, if_pos ⟨hid, hnone⟩]
      exact Option.some_ne_none _
    · exact inert.placed
  | _ => trivial

/-- The subject is not the id of the user. -/
def Foreign (user : Uuid) (subject : Option String) : Prop :=
  ∀ text, subject = some text → Uuid.ofStr text ≠ some user

/-- The call has neither the user's row nor a token of the user that it will rotate. -/
def Severed (user : Uuid) : Call → Prop
  | .found row _ => row.id ≠ user
  | .refreshing _ _ (.checkingUser v id) =>
    ∀ text, v.subject = some text → Uuid.ofStr text = some id
  | .refreshing _ _ (.ready v) => Foreign user v.subject
  | .refreshing _ _ (.adding v _) => Foreign user v.subject
  | .refreshing _ _ (.added v) => Foreign user v.subject
  | .paired (some r) => Foreign user r.subject
  | _ => True

theorem Call.Inert.severed (h : k.Inert) : Severed user k := by
  unfold Call.Inert at h
  split at h <;> trivial

theorem foreign_none : Foreign user none := by
  intro text ht
  cases ht

theorem Ledger.users_nodup (h : Ledger f w) : (w.users.map UserRow.id).Nodup :=
  h.ids.sublist ((List.sublist_append_left _ _).map _)

theorem Turn.severed (h : Turn f i w k a w' k') (hl : Ledger f w)
    (hd : Deactivated w.users user) (hk : Severed user k) : Severed user k' := by
  cases h with
  | quiet inert => exact inert.severed
  | committed result => rcases result with rfl | ⟨_, rfl⟩ <;> trivial
  | @found email password row a one =>
    have hmem : row ∈ credentialsByEmail w.users email := by simp [one]
    obtain ⟨hrow, hactive⟩ := List.mem_filter.mp hmem
    have hnone : row.deletedAt = none := by
      simp only [UserRow.activeWith, Bool.and_eq_true, Option.isNone_iff_eq_none] at hactive
      exact hactive.2
    exact hd.not_active hl.users_nodup hrow hnone
  | @loggedIn row password accessId refreshId a r fresh pair =>
    obtain ⟨_, _, rfl⟩ := Option.map_eq_some_iff.mp pair
    intro text ht
    cases ht
    rw [Uuid.ofStr_str]
    exact fun he => hk (Option.some.inj he)
  | minted fresh pair =>
    obtain ⟨_, _, rfl⟩ := Option.map_eq_some_iff.mp pair
    exact foreign_none
  | roleOnly subject =>
    change Foreign user _
    rw [subject]
    exact foreign_none
  | userBound bound id =>
    intro text ht
    rw [bound] at ht
    cases ht
    exact id
  | active active =>
    obtain ⟨row, hrow, hid, hnone⟩ := isActive_iff.mp active
    have hne := hd.not_active hl.users_nodup hrow hnone
    intro text ht he
    rw [hk text ht] at he
    exact hne (hid.trans (Option.some.inj he))
  | measured => exact hk
  | spent => exact hk
  | rotated fresh pair =>
    obtain ⟨_, _, rfl⟩ := Option.map_eq_some_iff.mp pair
    exact hk
  | deactivated result =>
    rcases result with ⟨rfl, _⟩ | inert
    · trivial
    · exact inert.severed
  | _ => trivial

variable {now : Int}

theorem ledger_initial : Ledger f (.initial now []) where
  ids := .nil
  drawn _ h := by cases h
  sent _ h := by cases h
  emails := .nil
  normal _ h := by cases h
  announced := .nil
  pending _ h := by cases h

theorem env_lifecycle {e : Env} (h : env w e = some w') (hl : Ledger f w) :
    Ledger f w' ∧ ∀ i, Leaves i w w' := by
  rw [env_frame h]
  exact ⟨hl.of_same rfl rfl rfl (fun _ h => h), fun _ => .of_same rfl rfl rfl (fun _ h => h)⟩

/-- In every state of a run the ledger is in order, and each call knows what it has done to
it. -/
theorem placed_of_reaches {as : List Action} {s : State}
    (h : (pool f (.initial now [])).machine.Reaches as s) :
    Pool.Good (Ledger f) (Placed f) s := by
  refine Pool.good_of_reaches ⟨ledger_initial, fun _ => trivial⟩ ?_ ?_ h
  · intro s i a w k hg hw
    obtain ⟨hl, hk⟩ := hg
    have hturn := step_turn hw
    have hleaves := hturn.leaves (hk i)
    exact ⟨hturn.ledger hl (hk i), hturn.placed hl, fun j hj => (hk j).mono hleaves hj⟩
  · intro s e w hg hw
    obtain ⟨hl, hk⟩ := hg
    obtain ⟨hledger, hleaves⟩ := env_lifecycle hw hl
    exact ⟨hledger, fun j => (hk j).mono (hleaves (j + 1)) (Nat.succ_ne_self j).symm⟩

/-- Once a user's row is deleted, calls that start later stay severed from the user. -/
theorem severed_of_exec {as bs : List Action} {s t : State}
    (h : (pool f (.initial now [])).machine.Reaches as s)
    (ht : (pool f (.initial now [])).machine.exec s bs = some t)
    (hd : Deactivated s.world.users user) (hj : s.clients j = .idle) :
    Severed user (t.clients j) := by
  have hs := placed_of_reaches h
  have hgood := @Pool.good_of_exec _ _ _ _ _ _ (pool f (.initial now []))
    (fun w => Ledger f w ∧ Deactivated w.users user)
    (fun l w k => Placed f l w k ∧ (s.clients l = .idle → Severed user k)) (fun _ _ => True)
    ?_ ?_ bs s t ⟨⟨hs.1, hd⟩, ?_⟩ ht (meets_trivial _ _)
  · exact (hgood.2 j).2 hj
  · intro u i a w k hg _ hw
    obtain ⟨⟨hl, hd⟩, hk⟩ := hg
    have hturn := step_turn hw
    have hleaves := hturn.leaves (hk i).1
    refine ⟨⟨hturn.ledger hl (hk i).1, hleaves.deactivated _ hd⟩, ⟨hturn.placed hl, ?_⟩, ?_⟩
    · intro hidle
      exact hturn.severed hl hd ((hk i).2 hidle)
    · intro l hne
      exact ⟨(hk l).1.mono hleaves hne, (hk l).2⟩
  · intro u e w hg _ hw
    obtain ⟨⟨hl, hd⟩, hk⟩ := hg
    obtain ⟨hledger, hleaves⟩ := env_lifecycle hw hl
    refine ⟨⟨hledger, (hleaves 0).deactivated _ hd⟩, fun l => ⟨?_, (hk l).2⟩⟩
    exact (hk l).1.mono (hleaves (l + 1)) (Nat.succ_ne_self l).symm
  · intro l
    refine ⟨hs.2 l, fun hidle => ?_⟩
    rw [hidle]
    trivial

theorem announced_row {users : List UserRow} {outbox : List OutboxRow}
    (h : List.Forall₂ Announces users outbox) (hm : message ∈ outbox) :
    ∃ row ∈ users, Announces row message := by
  induction h with
  | nil => cases hm
  | cons hhead _ ih =>
    rcases List.mem_cons.mp hm with rfl | hm
    · exact ⟨_, List.mem_cons_self, hhead⟩
    · obtain ⟨row, hrow, ha⟩ := ih hm
      exact ⟨row, List.mem_cons_of_mem _ hrow, ha⟩

/-- Among rows of distinct ids, each has one message. -/
theorem one_message {users : List UserRow} {outbox : List OutboxRow}
    (h : List.Forall₂ Announces users outbox) (hids : (users.map UserRow.id).Nodup)
    (hrow : row ∈ users) : ∃ message, Announces row message ∧
      outbox.filter (fun message => message.payload.userId == row.id) = [message] := by
  induction h with
  | nil => cases hrow
  | @cons head m users outbox hhead htail ih =>
    obtain ⟨hnew, hids⟩ := List.nodup_cons.mp hids
    have hid := hhead.2.1
    rcases List.mem_cons.mp hrow with rfl | hrow
    · refine ⟨m, hhead, ?_⟩
      rw [List.filter_cons_of_pos (by simp [hid]), List.filter_eq_nil_iff.mpr]
      intro m' hm' he
      obtain ⟨row', hrow', ha⟩ := announced_row htail hm'
      have hsame : row'.id = row.id := ha.2.1.symm.trans (beq_iff_eq.mp he)
      exact hnew (hsame ▸ List.mem_map_of_mem hrow')
    · obtain ⟨m', ha, hfilter⟩ := ih hids hrow
      refine ⟨m', ha, ?_⟩
      have hne : m.payload.userId ≠ row.id := by
        intro he
        rw [hid] at he
        exact hnew (he ▸ List.mem_map_of_mem hrow)
      rw [List.filter_cons_of_neg (by simpa using hne), hfilter]

/-- One active row at most for a normalized email, one message for each row and none for a
rejected registration; and no pair for a user whose row is deleted, from any call that starts
later. -/
theorem user_lifecycle {as : List Action} {s : State}
    (h : (pool f (.initial now [])).machine.Reaches as s) :
    (∀ address, (s.world.users.filter
      (UserRow.activeWith (f.normalizeEmail address))).length ≤ 1) ∧
    (∀ row ∈ s.world.users, (∃ address, row.email = f.normalizeEmail address) ∧
      ∃ message, Announces row message ∧ s.world.outbox.filter
        (fun message => message.payload.userId == row.id) = [message]) ∧
    (∀ message ∈ s.world.outbox, ∃ row ∈ s.world.users, Announces row message) ∧
    (∀ i email userId eventId, s.clients i = .emailTaken email userId eventId →
      (∀ row ∈ s.world.users, row.id ≠ userId) ∧
      ∀ message ∈ s.world.outbox, message.id ≠ eventId ∧ message.payload.userId ≠ userId) ∧
    (∀ i user, s.clients i = .deactivated user → Deactivated s.world.users user) ∧
    ∀ bs t, (pool f (.initial now [])).machine.exec s bs = some t →
      ∀ user, Deactivated s.world.users user → ∀ j r, s.clients j = .idle →
        t.clients j = .paired (some r) →
        f.jwt.issuePair r.issuedAt r.role r.subject r.accessId r.refreshId = some r.pair ∧
          ∀ text, r.subject = some text → Uuid.ofStr text ≠ some user := by
  obtain ⟨hl, hk⟩ := placed_of_reaches h
  have hrows : ∀ row ∈ s.world.users, row ∈ s.world.rows :=
    fun _ hrow => List.mem_append_left _ hrow
  refine ⟨?_, ?_, ?_, ?_, ?_, ?_⟩
  · intro address
    apply length_activeWith
    exact hl.emails.sublist (((List.sublist_append_left _ _).filter _).map _)
  · intro row hrow
    exact ⟨hl.normal row (hrows row hrow), one_message hl.announced hl.users_nodup hrow⟩
  · intro message hm
    exact announced_row hl.announced hm
  · intro i email userId eventId hi
    have hunused := hk i
    rw [hi] at hunused
    refine ⟨fun row hrow => hunused.rows row (hrows row hrow), fun m hm => ⟨?_, ?_⟩⟩
    · exact hunused.messages m (List.mem_append_left _ hm)
    · obtain ⟨row, hrow, ha⟩ := announced_row hl.announced hm
      rw [ha.2.1]
      exact hunused.rows row (hrows row hrow)
  · intro i user hi
    have hplaced := hk i
    rwa [hi] at hplaced
  · intro bs t ht user hd j r hj hpair
    have hplaced := (placed_of_reaches (h.append ht)).2 j
    have hsevered := severed_of_exec h ht hd hj
    rw [hpair] at hplaced hsevered
    exact ⟨hplaced, hsevered⟩

end

def Call.pair? : Call → Option Issued
  | .paired pair => pair
  | _ => none

theorem Call.paired_of_pair {k : Call} {r : Issued} (h : k.pair? = some r) :
    k = .paired (some r) := by
  unfold Call.pair? at h
  split at h
  · rw [h]
  · cases h

/-- A registration and the deactivation of the user. -/
def deactivation : List Action :=
  [.act 0 (.register "a@x" "pw"), .act 0 (.insert (nth 7) (nth 8) 0), .act 0 .commit,
    .act 1 (.deactivate (nth 7)), .act 1 (.softDelete 0)]

/-- The address is registered again, and its new owner logs in. -/
def newOwner : List Action :=
  [.act 2 (.register "a@x" "pw"), .act 2 (.insert (nth 9) (nth 10) 0), .act 2 .commit,
    .act 3 (.login "a@x" "pw"), .act 3 .find, .act 3 (.issue (nth 1) (nth 2))]

theorem new_owner_is_another_user : ∃ s t r,
    (pool (sampleFacade []) (.initial 0 [])).machine.Reaches deactivation s ∧
      (pool (sampleFacade []) (.initial 0 [])).machine.exec s newOwner = some t ∧
      t.clients 3 = .paired (some r) ∧ r.subject = some (nth 9).str ∧
      ∀ text, r.subject = some text → Uuid.ofStr text ≠ some (nth 7) := by
  have hr : ((pool (sampleFacade []) (.initial 0 [])).machine.exec
      (pool (sampleFacade []) (.initial 0 [])).machine.start deactivation).map
      (fun s => (s.clients 1, s.clients 3)) = some (.deactivated (nth 7), .idle) := by
    decide +kernel
  obtain ⟨s, hs, hc⟩ := Machine.reaches_of_map hr
  obtain ⟨hdeactivated, hidle⟩ := Prod.mk.inj hc
  have ht : ((pool (sampleFacade []) (.initial 0 [])).machine.exec
      (pool (sampleFacade []) (.initial 0 [])).machine.start (deactivation ++ newOwner)).map
      (fun s => (s.clients 3).pair?.map Issued.subject) = some (some (some (nth 9).str)) := by
    decide +kernel
  rw [exec_append, hs] at ht
  obtain ⟨t, hst, hclient⟩ := Option.map_eq_some_iff.mp ht
  obtain ⟨r, hpair, hsubject⟩ := Option.map_eq_some_iff.mp hclient
  have hpaired := Call.paired_of_pair hpair
  obtain ⟨_, _, _, _, hgone, hlater⟩ := user_lifecycle hs
  refine ⟨s, t, r, hs, hst, hpaired, hsubject, ?_⟩
  exact (hlater newOwner t hst _ (hgone 1 _ hdeactivated) 3 r hidle hpaired).2

end Facade
end BackendTemplates.Auth
