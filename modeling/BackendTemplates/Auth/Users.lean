import BackendTemplates.Auth.Refresh

namespace BackendTemplates.Auth
open Python

structure UserRow where
  id : Uuid
  email : String
  passwordHash : String
  role : Role
  createdAt : Int
  deletedAt : Option Int
  deriving DecidableEq

structure UserRecord where
  id : Uuid
  email : String
  role : Role
  createdAt : Int
  deriving DecidableEq

def UserRow.toUserRecord (row : UserRow) : UserRecord :=
  ⟨row.id, row.email, row.role, row.createdAt⟩

structure UserRegisteredIntegration where
  eventId : Uuid
  occurredAt : Int
  version : Int
  eventType : String
  userId : Uuid
  role : String
  deriving DecidableEq

/-- A row of the outbox. Its payload is the encoded event. -/
structure OutboxRow where
  id : Uuid
  eventType : String
  payload : UserRegisteredIntegration
  deriving DecidableEq

def userRegistered (eventId : Uuid) (occurredAt : Int) (userId : Uuid) (role : Role) :
    UserRegisteredIntegration :=
  ⟨eventId, occurredAt, 1, "user_registered", userId, role.value⟩

def outboxRow (event : UserRegisteredIntegration) : OutboxRow :=
  ⟨event.eventId, event.eventType, event⟩

/-- The row that the partial unique index and the lookups by email see. -/
def UserRow.activeWith (email : String) (row : UserRow) : Bool :=
  row.email == email && row.deletedAt.isNone

/-- `find_credentials_by_email`: the rows it selects. -/
def credentialsByEmail (users : List UserRow) (email : String) : List UserRow :=
  users.filter (UserRow.activeWith email)

def isActive (users : List UserRow) (user : Uuid) : Bool :=
  users.any (fun row => row.id == user && row.deletedAt.isNone)

def UserRow.deleteAt (user : Uuid) (deletedAt : Int) (row : UserRow) : UserRow :=
  if row.id = user ∧ row.deletedAt = none then { row with deletedAt := some deletedAt } else row

/-- The update of `soft_delete`. It matches a row exactly when the user is active. -/
def softDelete (users : List UserRow) (user : Uuid) (deletedAt : Int) : List UserRow :=
  users.map (UserRow.deleteAt user deletedAt)

/-- The user's row is there, and deleted. -/
def Deactivated (users : List UserRow) (user : Uuid) : Prop :=
  ∃ row ∈ users, row.id = user ∧ row.deletedAt ≠ none

end BackendTemplates.Auth
