import BackendTemplates.Auth.Users

namespace BackendTemplates.Auth
open Python Runs

/-- The token service, how its codec writes an instant, Python's `strip` and `lower`,
and the check of the password hasher. -/
structure AuthFacade where
  jwt : JwtService
  timestamp : Int → Int
  strip : String → String
  lower : String → String
  verifyPassword : String → String → Bool

namespace AuthFacade

/-- `normalize_email`. -/
def normalizeEmail (f : AuthFacade) (email : String) : String := f.lower (f.strip email)

/-- A claim as it is decoded again. -/
def wireValue (f : AuthFacade) : ClaimValue → ClaimValue
  | .time t => .int (f.timestamp t)
  | value => value

def wire (f : AuthFacade) (claims : Claims) : Claims :=
  claims.map (fun c => (c.1, f.wireValue c.2))

def ttl (f : AuthFacade) : TokenType → Int
  | .access => f.jwt.accessTtl
  | .refresh => f.jwt.refreshTtl

end AuthFacade

structure Principal where
  role : Role
  tokenId : String
  subject : Option String
  deriving DecidableEq

namespace Facade

/-- Where a pair comes from: the login of a stored user, an admin's request, or the
rotation of a refresh token. -/
inductive Origin where
  | login (user : UserRow)
  | mint
  | refresh (token : String)
  deriving DecidableEq

/-- A pair that was issued, by whom and with what. -/
structure Issued where
  client : Nat
  origin : Origin
  role : Role
  subject : Option String
  issuedAt : Int
  accessId : Uuid
  refreshId : Uuid
  pair : TokenPair
  deriving DecidableEq

namespace Issued

def token (r : Issued) : TokenType → String
  | .access => r.pair.access
  | .refresh => r.pair.refresh

def id (r : Issued) : TokenType → Uuid
  | .access => r.accessId
  | .refresh => r.refreshId

def claims (f : AuthFacade) (r : Issued) (type : TokenType) : Claims :=
  f.jwt.claims r.role type (f.ttl type) r.issuedAt r.subject (r.id type)

end Issued

/-- The rows that an open registration has inserted. -/
structure Registration where
  client : Nat
  row : UserRow
  message : OutboxRow
  deriving DecidableEq

/-- The clock, the denylist, the committed rows, those of open transactions, the identifiers
drawn so far, and a record of the pairs issued. -/
structure World where
  now : Int
  denylist : String → Option Int
  users : List UserRow
  outbox : List OutboxRow
  inserting : List Registration
  drawn : List Uuid
  issued : List Issued

namespace World

def base (w : World) : Auth.World := ⟨w.now, w.denylist, isActive w.users⟩

def contains (w : World) (jti : String) : Bool := w.base.contains jti

def deny (w : World) (jti : String) (ttlSeconds : Int) : World :=
  { w with denylist := (w.base.add jti ttlSeconds).denylist }

/-- `uuid4` has not given these before. -/
def Fresh (w : World) (ids : List Uuid) : Prop := ids.Nodup ∧ ∀ id ∈ ids, id ∉ w.drawn

instance (w : World) (ids : List Uuid) : Decidable (w.Fresh ids) :=
  inferInstanceAs (Decidable (_ ∧ _))

def draw (w : World) (ids : List Uuid) : World := { w with drawn := ids ++ w.drawn }

def log (w : World) (r : Issued) : World :=
  { w with issued := r :: w.issued, drawn := r.accessId :: r.refreshId :: w.drawn }

end World

/-- How far one call has come. -/
inductive Call where
  | idle
  | registering (email passwordHash : String)
  | inserted (row : UserRow) (message : OutboxRow)
  | registered (user : UserRecord)
  | emailTaken (email : String) (userId eventId : Uuid)
  | loggingIn (email password : String)
  | found (user : UserRow) (password : String)
  | paired (pair : Option Issued)
  | resolving (token : String) (readAt : Int) (v : VerifiedToken)
  | resolved (token : String) (principal : Option Principal)
  | refreshing (token : String) (readAt : Int) (call : Auth.Call)
  | revoking (token : String) (v : VerifiedToken)
  | denying (token : String) (v : VerifiedToken) (ttl : Int)
  | revoked (token : String)
  | deactivating (user : Uuid)
  | deactivated (user : Uuid)
  | userNotFound (user : Uuid)
  | raised (message : String)
  deriving DecidableEq

inductive Act where
  | register (email passwordHash : String)
  | insert (userId eventId : Uuid) (createdAt : Int)
  | commit
  | commitLost (message : String)
  | login (email password : String)
  | find
  | mint (accessId refreshId : Uuid)
  | issue (accessId refreshId : Uuid)
  | resolve (token : String)
  | contains
  | refresh (token : String)
  | rotate (act : Auth.Act)
  | revoke (token : String)
  | measure
  | add
  | addLost (message : String)
  | deactivate (user : Uuid)
  | softDelete (deletedAt : Int)
  | softDeleteLost (deletedAt : Int) (message : String)
  | fail (message : String)
  deriving DecidableEq

inductive Env where
  | tick (microseconds : Nat)
  | linger (jti : String) (microseconds : Nat)

section
variable (f : AuthFacade) (i : Nat) (w : World)

/-- `issue_pair`, with the pair on record. -/
def issuePair (origin : Origin) (role : Role) (subject : Option String)
    (accessId refreshId : Uuid) : Option Issued :=
  (f.jwt.issuePair w.now role subject accessId refreshId).map
    (fun pair => ⟨i, origin, role, subject, w.now, accessId, refreshId, pair⟩)

/-- `RegisterUserUC`. The insert waits for an open transaction with the same email, and
the index rejects a second active row with it. -/
def register : Call → Act → Option (World × Call)
  | .idle, .register email passwordHash =>
    some (w, .registering (f.normalizeEmail email) passwordHash)
  | .registering email passwordHash, .insert userId eventId createdAt =>
    let row : UserRow := ⟨userId, email, passwordHash, .user, createdAt, none⟩
    let message := outboxRow (userRegistered eventId w.now userId .user)
    if w.Fresh [userId, eventId] then
      if w.inserting.any (fun x => x.row.email == email) then none
      else if w.users.any (UserRow.activeWith email) then
        some (w.draw [userId, eventId], .emailTaken email userId eventId)
      else some ({ w.draw [userId, eventId] with inserting := ⟨i, row, message⟩ :: w.inserting },
        .inserted row message)
    else none
  | .inserted row message, .commit =>
    some ({ w with
      users := row :: w.users
      outbox := message :: w.outbox
      inserting := w.inserting.erase ⟨i, row, message⟩ }, .registered row.toUserRecord)
  | .inserted row message, .commitLost error =>
    some ({ w with
      users := row :: w.users
      outbox := message :: w.outbox
      inserting := w.inserting.erase ⟨i, row, message⟩ }, .raised error)
  | .inserted row message, .fail error =>
    some ({ w with inserting := w.inserting.erase ⟨i, row, message⟩ }, .raised error)
  | .registering _ _, .fail error => some (w, .raised error)
  | _, _ => none

/-- `LoginUserUC`. -/
def login : Call → Act → Option (World × Call)
  | .idle, .login email password => some (w, .loggingIn (f.normalizeEmail email) password)
  | .loggingIn email password, .find =>
    match credentialsByEmail w.users email with
    | [] => some (w, .paired none)
    | [user] => some (w, .found user password)
    | _ => some (w, .raised "find user by email failed")
  | .found user password, .issue accessId refreshId =>
    if f.verifyPassword password user.passwordHash then
      if w.Fresh [accessId, refreshId] then
        match issuePair f i w (.login user) user.role (some user.id.str) accessId refreshId with
        | none => some (w, .raised "JWT issuance is not configured")
        | some r => some (w.log r, .paired (some r))
      else none
    else some (w, .paired none)
  | .loggingIn _ _, .fail error => some (w, .raised error)
  | _, _ => none

/-- `IssueTokensUC`, for the role its controller asks for. -/
def issueTokens : Call → Act → Option (World × Call)
  | .idle, .mint accessId refreshId =>
    if w.Fresh [accessId, refreshId] then
      match issuePair f i w .mint .admin none accessId refreshId with
      | none => some (w, .raised "JWT issuance is not configured")
      | some r => some (w.log r, .paired (some r))
    else none
  | _, _ => none

/-- `JwtTokenResolver.resolve`. -/
def resolve : Call → Act → Option (World × Call)
  | .idle, .resolve token =>
    if token.toList.count '.' ≠ 2 then some (w, .resolved token none)
    else match f.jwt.verify w.now token (some .access) with
      | .error error => some (w, .raised error)
      | .ok none => some (w, .resolved token none)
      | .ok (some v) => some (w, .resolving token w.now v)
  | .resolving token _ v, .contains =>
    if w.contains v.jti then some (w, .resolved token none)
    else some (w, .resolved token (some ⟨v.role, v.jti, v.subject⟩))
  | .resolving _ _ _, .fail error => some (w, .raised error)
  | _, _ => none

/-- `RefreshTokensUC`. -/
def refresh : Call → Act → Option (World × Call)
  | .idle, .refresh token =>
    (Auth.step f.jwt token w.base .idle .verify).map
      (fun r => (w, .refreshing token w.now r.2))
  | .refreshing _ _ .idle, .rotate _ => none
  | .refreshing token _ (.added v), .rotate (.issue accessId refreshId) =>
    if w.Fresh [accessId, refreshId] then
      match issuePair f i w (.refresh token) v.role v.subject accessId refreshId with
      | none => some (w, .paired none)
      | some r => some (w.log r, .paired (some r))
    else none
  | .refreshing token readAt call, .rotate act =>
    (Auth.step f.jwt token w.base call act).map
      (fun r => ({ w with denylist := r.1.denylist }, .refreshing token readAt r.2))
  | .refreshing _ _ (.adding v ttl), .addLost error => some (w.deny v.jti ttl, .raised error)
  | _, _ => none

/-- `RevokeTokenUC`. -/
def revoke : Call → Act → Option (World × Call)
  | .idle, .revoke token =>
    match f.jwt.verify w.now token none with
    | .error error => some (w, .raised error)
    | .ok none => some (w, .revoked token)
    | .ok (some v) => some (w, .revoking token v)
  | .revoking token v, .measure =>
    some (w, .denying token v (ceilSeconds (v.expiresAt - w.now)))
  | .denying token v ttl, .add => some (w.deny v.jti ttl, .revoked token)
  | .denying _ v ttl, .addLost error => some (w.deny v.jti ttl, .raised error)
  | .denying _ _ _, .fail error => some (w, .raised error)
  | _, _ => none

/-- `DeactivateUserUC`. -/
def deactivate : Call → Act → Option (World × Call)
  | .idle, .deactivate user => some (w, .deactivating user)
  | .deactivating user, .softDelete deletedAt =>
    some ({ w with users := softDelete w.users user deletedAt },
      if isActive w.users user then .deactivated user else .userNotFound user)
  | .deactivating user, .softDeleteLost deletedAt error =>
    some ({ w with users := softDelete w.users user deletedAt }, .raised error)
  | .deactivating _, .fail error => some (w, .raised error)
  | _, _ => none

/-- One step of the call of a client. -/
def step (k : Call) (a : Act) : Option (World × Call) :=
  register f i w k a <|> login f i w k a <|> issueTokens f i w k a <|> resolve f w k a <|>
    refresh f i w k a <|> revoke f w k a <|> deactivate w k a

end

/-- Time passes, and Valkey keeps a live key for longer than it was asked to. -/
def env (w : World) : Env → Option World
  | .tick microseconds => some { w with now := w.now + microseconds }
  | .linger jti microseconds =>
    match w.denylist (Auth.World.key jti) with
    | none => none
    | some expiry =>
      let kept := Function.update w.denylist (Auth.World.key jti) (some (expiry + microseconds))
      if w.now < expiry then some { w with denylist := kept } else none

def pool (f : AuthFacade) (w : World) : Pool Nat World Call Act Env where
  world := w
  client := .idle
  step := step f
  env := env

abbrev State := Pool.State Nat World Call
abbrev Action := Pool.Action Nat Act Env

/-- The call holds no row and no token, and has neither a pair nor a principal. -/
def Call.Inert : Call → Prop
  | .loggingIn _ _ => True
  | .paired none => True
  | .resolved _ none => True
  | .refreshing _ _ (.returned none) => True
  | .refreshing _ _ (.raised _) => True
  | .deactivating _ => True
  | .userNotFound _ => True
  | .raised _ => True
  | _ => False

/-- The rows of a registration, as its transaction inserts them. -/
def newRow (email passwordHash : String) (userId : Uuid) (createdAt : Int) : UserRow :=
  ⟨userId, email, passwordHash, .user, createdAt, none⟩

def newMessage (w : World) (userId eventId : Uuid) : OutboxRow :=
  outboxRow (userRegistered eventId w.now userId .user)

def World.insert (w : World) (x : Registration) : World :=
  { w.draw [x.row.id, x.message.id] with inserting := x :: w.inserting }

def World.rollBack (w : World) (x : Registration) : World :=
  { w with inserting := w.inserting.erase x }

def World.commit (w : World) (x : Registration) : World :=
  { w.rollBack x with users := x.row :: w.users, outbox := x.message :: w.outbox }

def World.softDelete (w : World) (user : Uuid) (deletedAt : Int) : World :=
  { w with users := Auth.softDelete w.users user deletedAt }

inductive Turn (f : AuthFacade) (i : Nat) (w : World) : Call → Act → World → Call → Prop where
  | quiet {k k' : Call} {a : Act} (inert : k'.Inert) : Turn f i w k a w k'
  | registering {email passwordHash : String} {a : Act} :
      Turn f i w .idle a w (.registering (f.normalizeEmail email) passwordHash)
  | taken {email passwordHash : String} {userId eventId : Uuid} {a : Act}
      (fresh : w.Fresh [userId, eventId]) :
      Turn f i w (.registering email passwordHash) a (w.draw [userId, eventId])
        (.emailTaken email userId eventId)
  | inserted {email passwordHash : String} {userId eventId : Uuid} {createdAt : Int} {a : Act}
      (fresh : w.Fresh [userId, eventId])
      (alone : w.inserting.any (fun x => x.row.email == email) = false)
      (free : w.users.any (UserRow.activeWith email) = false) :
      Turn f i w (.registering email passwordHash) a
        (w.insert
          ⟨i, newRow email passwordHash userId createdAt, newMessage w userId eventId⟩)
        (.inserted (newRow email passwordHash userId createdAt) (newMessage w userId eventId))
  | committed {row : UserRow} {message : OutboxRow} {a : Act} {k' : Call}
      (result : k' = .registered row.toUserRecord ∨ ∃ error, k' = .raised error) :
      Turn f i w (.inserted row message) a (w.commit ⟨i, row, message⟩) k'
  | rolledBack {row : UserRow} {message : OutboxRow} {a : Act} {error : String} :
      Turn f i w (.inserted row message) a (w.rollBack ⟨i, row, message⟩) (.raised error)
  | found {email password : String} {user : UserRow} {a : Act}
      (one : credentialsByEmail w.users email = [user]) :
      Turn f i w (.loggingIn email password) a w (.found user password)
  | loggedIn {user : UserRow} {password : String} {accessId refreshId : Uuid} {a : Act}
      {r : Issued} (fresh : w.Fresh [accessId, refreshId])
      (pair : issuePair f i w (.login user) user.role (some user.id.str) accessId refreshId =
        some r) :
      Turn f i w (.found user password) a (w.log r) (.paired (some r))
  | minted {accessId refreshId : Uuid} {a : Act} {r : Issued}
      (fresh : w.Fresh [accessId, refreshId])
      (pair : issuePair f i w .mint .admin none accessId refreshId = some r) :
      Turn f i w .idle a (w.log r) (.paired (some r))
  | resolving {token : String} {v : VerifiedToken}
      (alive : f.jwt.verify w.now token (some .access) = .ok (some v)) :
      Turn f i w .idle (.resolve token) w (.resolving token w.now v)
  | resolved {token : String} {readAt : Int} {v : VerifiedToken}
      (unlisted : w.contains v.jti = false) :
      Turn f i w (.resolving token readAt v) .contains w
        (.resolved token (some ⟨v.role, v.jti, v.subject⟩))
  | verified {token : String} {v : VerifiedToken}
      (alive : f.jwt.verify w.now token (some .refresh) = .ok (some v)) :
      Turn f i w .idle (.refresh token) w (.refreshing token w.now (.verified v))
  | unlisted {token : String} {readAt : Int} {v : VerifiedToken}
      (unlisted : w.contains v.jti = false) :
      Turn f i w (.refreshing token readAt (.verified v)) (.rotate .contains) w
        (.refreshing token readAt (.unlisted v))
  | roleOnly {token : String} {readAt : Int} {v : VerifiedToken} {a : Act}
      (subject : v.subject = none) :
      Turn f i w (.refreshing token readAt (.unlisted v)) a w (.refreshing token readAt (.ready v))
  | userBound {token subject : String} {readAt : Int} {v : VerifiedToken} {user : Uuid} {a : Act}
      (bound : v.subject = some subject) (id : Uuid.ofStr subject = some user) :
      Turn f i w (.refreshing token readAt (.unlisted v)) a w
        (.refreshing token readAt (.checkingUser v user))
  | active {token : String} {readAt : Int} {v : VerifiedToken} {user : Uuid} {a : Act}
      (active : isActive w.users user = true) :
      Turn f i w (.refreshing token readAt (.checkingUser v user)) a w
        (.refreshing token readAt (.ready v))
  | measured {token : String} {readAt : Int} {v : VerifiedToken} {a : Act} :
      Turn f i w (.refreshing token readAt (.ready v)) a w
        (.refreshing token readAt (.adding v (ceilSeconds (v.expiresAt - w.now))))
  | spent {token : String} {readAt : Int} {v : VerifiedToken} {ttl : Int} {a : Act} :
      Turn f i w (.refreshing token readAt (.adding v ttl)) a (w.deny v.jti ttl)
        (.refreshing token readAt (.added v))
  | spentLost {token error : String} {readAt : Int} {v : VerifiedToken} {ttl : Int} {a : Act} :
      Turn f i w (.refreshing token readAt (.adding v ttl)) a (w.deny v.jti ttl) (.raised error)
  | rotated {token : String} {readAt : Int} {v : VerifiedToken} {accessId refreshId : Uuid}
      {a : Act} {r : Issued} (fresh : w.Fresh [accessId, refreshId])
      (pair : issuePair f i w (.refresh token) v.role v.subject accessId refreshId = some r) :
      Turn f i w (.refreshing token readAt (.added v)) a (w.log r) (.paired (some r))
  | dead {token : String} (dead : f.jwt.verify w.now token none = .ok none) :
      Turn f i w .idle (.revoke token) w (.revoked token)
  | revoking {token : String} {v : VerifiedToken}
      (alive : f.jwt.verify w.now token none = .ok (some v)) :
      Turn f i w .idle (.revoke token) w (.revoking token v)
  | denying {token : String} {v : VerifiedToken} {a : Act} :
      Turn f i w (.revoking token v) a w
        (.denying token v (ceilSeconds (v.expiresAt - w.now)))
  | revoked {token : String} {v : VerifiedToken} {ttl : Int} {a : Act} :
      Turn f i w (.denying token v ttl) a (w.deny v.jti ttl) (.revoked token)
  | revokedLost {token error : String} {v : VerifiedToken} {ttl : Int} {a : Act} :
      Turn f i w (.denying token v ttl) a (w.deny v.jti ttl) (.raised error)
  | deactivated {user : Uuid} {deletedAt : Int} {a : Act} {k' : Call}
      (result : (k' = .deactivated user ∧ isActive w.users user = true) ∨ k'.Inert) :
      Turn f i w (.deactivating user) a (w.softDelete user deletedAt) k'

section
variable {f : AuthFacade} {i : Nat} {w w' : World} {k k' : Call} {a : Act}

theorem register_turn (h : register f i w k a = some (w', k')) : Turn f i w k a w' k' := by
  unfold register at h
  split at h
  · cases h
    exact .registering
  · split at h
    · rename_i fresh
      split at h
      · cases h
      · rename_i alone
        split at h
        · cases h
          exact .taken fresh
        · rename_i free
          cases h
          exact .inserted fresh (by simpa using alone) (by simpa using free)
    · cases h
  · cases h
    exact .committed (.inl rfl)
  · cases h
    exact .committed (.inr ⟨_, rfl⟩)
  · cases h
    exact .rolledBack
  · cases h
    exact .quiet trivial
  · cases h

theorem login_turn (h : login f i w k a = some (w', k')) : Turn f i w k a w' k' := by
  unfold login at h
  split at h
  · cases h
    exact .quiet trivial
  · split at h
    · cases h
      exact .quiet trivial
    · rename_i one
      cases h
      exact .found one
    · cases h
      exact .quiet trivial
  · split at h
    · split at h
      · rename_i fresh
        split at h
        · cases h
          exact .quiet trivial
        · rename_i pair
          cases h
          exact .loggedIn fresh pair
      · cases h
    · cases h
      exact .quiet trivial
  · cases h
    exact .quiet trivial
  · cases h

theorem issueTokens_turn (h : issueTokens f i w k a = some (w', k')) : Turn f i w k a w' k' := by
  unfold issueTokens at h
  split at h
  · split at h
    · rename_i fresh
      split at h
      · cases h
        exact .quiet trivial
      · rename_i pair
        cases h
        exact .minted fresh pair
    · cases h
  · cases h

theorem resolve_turn (h : resolve f w k a = some (w', k')) : Turn f i w k a w' k' := by
  unfold resolve at h
  split at h
  · split at h
    · cases h
      exact .quiet trivial
    · split at h
      · cases h
        exact .quiet trivial
      · cases h
        exact .quiet trivial
      · rename_i alive
        cases h
        exact .resolving alive
  · split at h
    · cases h
      exact .quiet trivial
    · rename_i unlisted
      cases h
      exact .resolved (by simpa using unlisted)
  · cases h
    exact .quiet trivial
  · cases h

/-- The steps of `Auth.step` between its lookup and its issue. -/
theorem rotate_turn {token : String} {readAt : Int} {call : Auth.Call} {act : Auth.Act}
    {r : Auth.World × Auth.Call} (hidle : call ≠ .idle)
    (hissue : ∀ v accessId refreshId, call = .added v → act ≠ .issue accessId refreshId)
    (h : Auth.step f.jwt token w.base call act = some r) :
    Turn f i w (.refreshing token readAt call) (.rotate act) { w with denylist := r.1.denylist }
      (.refreshing token readAt r.2) := by
  unfold Auth.step at h
  split at h
  · exact absurd rfl hidle
  · split at h
    · cases h
      exact .quiet trivial
    · rename_i unlisted
      cases h
      exact .unlisted (by simpa [World.contains] using unlisted)
  · split at h
    · rename_i subject
      cases h
      exact .roleOnly subject
    · rename_i bound
      split at h
      · cases h
        exact .quiet trivial
      · rename_i id
        cases h
        exact .userBound bound id
  · split at h
    · rename_i active
      cases h
      exact .active active
    · cases h
      exact .quiet trivial
  · cases h
    exact .measured
  · cases h
    exact .spent
  · exact absurd rfl (hissue _ _ _ rfl)
  · cases h
    exact .quiet trivial
  · cases h
    exact .quiet trivial
  · cases h
    exact .quiet trivial
  · cases h

/-- The start of `Auth.step`. -/
theorem verify_turn {token : String} {r : Auth.World × Auth.Call}
    (h : Auth.step f.jwt token w.base .idle .verify = some r) :
    Turn f i w .idle (.refresh token) w (.refreshing token w.now r.2) := by
  simp only [Auth.step] at h
  split at h
  · cases h
    exact .quiet trivial
  · cases h
    exact .quiet trivial
  · rename_i alive
    cases h
    exact .verified alive

theorem refresh_turn (h : refresh f i w k a = some (w', k')) : Turn f i w k a w' k' := by
  unfold refresh at h
  split at h
  · obtain ⟨r, hs, he⟩ := Option.map_eq_some_iff.mp h
    cases he
    exact verify_turn hs
  · cases h
  · split at h
    · rename_i fresh
      split at h
      · cases h
        exact .quiet trivial
      · rename_i pair
        cases h
        exact .rotated fresh pair
    · cases h
  · rename_i hidle hissue
    obtain ⟨r, hs, he⟩ := Option.map_eq_some_iff.mp h
    cases he
    refine rotate_turn hidle ?_ hs
    intro v accessId refreshId hv ha
    exact hissue v accessId refreshId hv ha
  · cases h
    exact .spentLost
  · cases h

theorem revoke_turn (h : revoke f w k a = some (w', k')) : Turn f i w k a w' k' := by
  unfold revoke at h
  split at h
  · split at h
    · cases h
      exact .quiet trivial
    · rename_i dead
      cases h
      exact .dead dead
    · rename_i alive
      cases h
      exact .revoking alive
  · cases h
    exact .denying
  · cases h
    exact .revoked
  · cases h
    exact .revokedLost
  · cases h
    exact .quiet trivial
  · cases h

theorem deactivate_turn (h : deactivate w k a = some (w', k')) : Turn f i w k a w' k' := by
  unfold deactivate at h
  split at h
  · cases h
    exact .quiet trivial
  · cases h
    apply Turn.deactivated
    split
    · rename_i active
      exact .inl ⟨rfl, active⟩
    · exact .inr trivial
  · cases h
    exact .deactivated (.inr trivial)
  · cases h
    exact .quiet trivial
  · cases h

theorem step_turn (h : step f i w k a = some (w', k')) : Turn f i w k a w' k' := by
  simp only [step, Option.orElse_eq_some] at h
  rcases h with h | ⟨_, h | ⟨_, h | ⟨_, h | ⟨_, h | ⟨_, h | ⟨_, h⟩⟩⟩⟩⟩⟩
  · exact register_turn h
  · exact login_turn h
  · exact issueTokens_turn h
  · exact resolve_turn h
  · exact refresh_turn h
  · exact revoke_turn h
  · exact deactivate_turn h

theorem issuePair_eq {origin : Origin} {role : Role} {subject : Option String}
    {accessId refreshId : Uuid} {r : Issued}
    (h : issuePair f i w origin role subject accessId refreshId = some r) :
    r = ⟨i, origin, role, subject, w.now, accessId, refreshId, r.pair⟩ := by
  obtain ⟨pair, _, rfl⟩ := Option.map_eq_some_iff.mp h
  rfl

theorem issuePair_encoded {origin : Origin} {role : Role} {subject : Option String}
    {accessId refreshId : Uuid} {r : Issued}
    (h : issuePair f i w origin role subject accessId refreshId = some r) :
    f.jwt.issuePair r.issuedAt r.role r.subject r.accessId r.refreshId = some r.pair := by
  obtain ⟨pair, hpair, rfl⟩ := Option.map_eq_some_iff.mp h
  exact hpair

/-- Time and Valkey leave the tables and the records alone. -/
theorem env_frame {e : Env} (h : env w e = some w') :
    w' = { w with now := w'.now, denylist := w'.denylist } := by
  cases e with
  | tick microseconds =>
    cases h
    rfl
  | linger jti microseconds =>
    simp only [env] at h
    split at h
    · cases h
    · split at h
      · cases h
        rfl
      · cases h

end

/-- A start, at some time, over some users. -/
def World.initial (now : Int) (users : List UserRow) : World :=
  ⟨now, fun _ => none, users, [], [], [], []⟩

end Facade
end BackendTemplates.Auth
