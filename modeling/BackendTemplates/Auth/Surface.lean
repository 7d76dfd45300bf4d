import BackendTemplates.Auth.BreakGlass
import BackendTemplates.Auth.Chains
import BackendTemplates.Library.Views

namespace BackendTemplates.Auth.Surface
open Python Runs Queries

structure ApiKeyRow where
  id : Uuid
  keyHash : String
  name : String
  role : Role
  createdAt : Int
  deletedAt : Option Int
  deriving DecidableEq

def ApiKeyRow.activeWith (keyHash : String) (row : ApiKeyRow) : Bool :=
  row.keyHash == keyHash && row.deletedAt.isNone

/-- `find_active_by_hash`. `scalar_one_or_none` raises where there are several rows. -/
def findActiveByHash (keys : List ApiKeyRow) (keyHash : String) : Option (Option ApiKeyRecord) :=
  match keys.filter (ApiKeyRow.activeWith keyHash) with
  | [] => some none
  | [row] => some (some ⟨row.id, row.role⟩)
  | _ => none

/-- `list_active`. -/
def listActive (keys : List ApiKeyRow) : List ApiKeyRow :=
  (keys.filter (fun row => row.deletedAt.isNone)).mergeSort (fun a b => b.createdAt ≤ a.createdAt)

def ApiKeyRow.deleteAt (id : Uuid) (deletedAt : Int) (row : ApiKeyRow) : ApiKeyRow :=
  if row.id = id ∧ row.deletedAt = none then { row with deletedAt := some deletedAt } else row

/-- The update of `soft_delete`. -/
def softDeleteKey (keys : List ApiKeyRow) (id : Uuid) (deletedAt : Int) : List ApiKeyRow :=
  keys.map (ApiKeyRow.deleteAt id deletedAt)

/-- Whether the update matches a row. -/
def isActiveKey (keys : List ApiKeyRow) (id : Uuid) : Bool :=
  keys.any (fun row => row.id == id && row.deletedAt.isNone)

/-- The routes of the auth controllers with what their handlers get, and those of the other
contexts with the roles of their guards. -/
inductive Endpoint where
  | register (email passwordHash : String)
  | login (email password : String)
  | refresh (token : String)
  | revoke (token : String)
  | me
  | issue
  | deactivate (user : Uuid)
  | createKey (name : String)
  | listKeys
  | revokeKey (id : Uuid)
  | other (roles : Option (List Role))
  deriving DecidableEq

/-- The arguments of `require_role`, where the route has a guard. -/
def Endpoint.roles : Endpoint → Option (List Role)
  | .register _ _ | .login _ _ | .refresh _ | .revoke _ => none
  | .me => some [.user, .admin]
  | .issue | .deactivate _ | .createKey _ | .listKeys | .revokeKey _ => some [.admin]
  | .other roles => roles

inductive Refusal where
  | notAuthorized (detail : String)
  | permissionDenied (detail : String)
  deriving DecidableEq

/-- The guard of `require_role`. -/
def requireRole (roles : List Role) (user : Principal) : Except Refusal Unit :=
  if user.role = .unknown then .error (.notAuthorized "authentication required")
  else if user.role ∉ roles then
    .error (.permissionDenied ("requires one of: " ++ ", ".intercalate (roles.map Role.value)))
  else .ok ()

/-- The call of the facade a handler begins with. -/
def Endpoint.begins : Endpoint → Facade.Act → Bool
  | .register email passwordHash, .register email' passwordHash' =>
    email == email' && passwordHash == passwordHash'
  | .login email password, .login email' password' => email == email' && password == password'
  | .refresh token, .refresh token' => token == token'
  | .revoke token, .revoke token' => token == token'
  | .issue, .mint _ _ => true
  | .deactivate user, .deactivate user' => user == user'
  | _, _ => false

/-- The routes of the API-key controller. -/
def Endpoint.onKeys : Endpoint → Bool
  | .createKey _ | .listKeys | .revokeKey _ => true
  | _ => false

/-- What has come of a handler of the API-key controller. -/
inductive Work where
  | pending
  | created (id : Uuid) (apiKey : String)
  | listed (rows : List ApiKeyRow)
  | revoked
  | apiKeyNotFound (id : Uuid)
  | raised (message : String)
  deriving DecidableEq

abbrev Authenticating := Prog Query Query.Answer (Option Principal)

/-- How far a request has come: through the middleware and the guard to the handler, or
through `login_submit`. A backend answers a question some time before the request goes on
with `rest`, which is missing where the answer is a `PortError`. -/
inductive Phase where
  | idle
  | authenticating (e : Endpoint) (token : String) (rest : Authenticating)
  | resuming (e : Endpoint) (token : String) (rest : Option Authenticating)
  | admitted (e : Endpoint) (token : Option String) (user : Principal) (work : Work)
  | refused (refusal : Refusal)
  | failed (message : String)
  | signingIn (token : String) (rest : Authenticating)
  | resumingSignIn (token : String) (rest : Option Authenticating)
  | signedIn (token : String)
  | signInRejected (status : Nat)

/-- A key that was generated, by whose request. -/
structure Grant where
  client : Nat
  plaintext : String
  row : ApiKeyRow
  deriving DecidableEq

structure Config where
  facade : AuthFacade
  sha256 : String → String
  adminToken : Option String
  now : Int

structure State where
  facade : Facade.State
  keys : List ApiKeyRow
  grants : List Grant
  requests : Nat → Phase

/-- `lost` is the error of a commit that has been made all the same. -/
inductive Action where
  | arrive (i : Nat) (r : Request) (e : Endpoint)
  | signIn (i : Nat) (field : String)
  | answer (i : Nat)
  | resume (i : Nat)
  | outage (i : Nat)
  | work (i : Nat) (a : Facade.Act)
  | insertKey (i : Nat) (id : Uuid) (entropy : String) (createdAt : Int) (lost : Option String)
  | listKeys (i : Nat)
  | deleteKey (i : Nat) (deletedAt : Int) (lost : Option String)
  | failKeys (i : Nat) (message : String)
  | env (e : Facade.Env)

def Config.machine (cfg : Config) : Machine Facade.State Facade.Action :=
  (Facade.pool cfg.facade (.initial cfg.now [])).machine

def State.put (s : State) (i : Nat) (phase : Phase) : State :=
  { s with requests := Function.update s.requests i phase }

/-- The backend's answer. `none` is its `PortError`. -/
def State.answer (s : State) : (q : Query) → Option (Query.Answer q)
  | .contains jti => some (s.facade.world.contains jti)
  | .findActiveByHash keyHash => findActiveByHash s.keys keyHash

/-- The guard, when the middleware has attached the principal. -/
def attach (e : Endpoint) (token : Option String) (user : Principal) : Phase :=
  match e.roles with
  | none => .admitted e token user .pending
  | some roles => match requireRole roles user with
    | .ok () => .admitted e token user .pending
    | .error refusal => .refused refusal

def advance (e : Endpoint) (token : String) : Authenticating → Phase
  | .done principal => attach e (some token) (principal.getD anonymous)
  | .raise message => .failed message
  | rest => .authenticating e token rest

/-- The end of `login_submit`, whose cookie holds the token. -/
def advanceSignIn (token : String) : Authenticating → Phase
  | .done none => .signInRejected 401
  | .done (some principal) =>
    if principal.role = .admin then .signedIn token else .signInRejected 401
  | .raise message => .failed message
  | rest => .signingIn token rest

def Config.authenticate (cfg : Config) (s : State) (token : String) : Authenticating :=
  compositeTokenResolver
    (tokenResolvers cfg.facade.jwt s.facade.world.now cfg.sha256 cfg.adminToken) token

/-- The key of `generate_api_key`, and its row. -/
def Config.generate (cfg : Config) (i : Nat) (name : String) (id : Uuid) (entropy : String)
    (createdAt : Int) : Grant :=
  ⟨i, apiKeyPrefix ++ entropy,
    ⟨id, cfg.sha256 (apiKeyPrefix ++ entropy), name, .admin, createdAt, none⟩⟩

/-- The primary key and the index on active hashes accept the row. -/
def accepts (keys : List ApiKeyRow) (row : ApiKeyRow) : Bool :=
  !keys.any (fun r => r.id == row.id || r.activeWith row.keyHash)

def step (cfg : Config) (s : State) : Action → Option State
  | .arrive i r e =>
    match s.requests i with
    | .idle => match extractToken r with
      | none => some (s.put i (attach e none anonymous))
      | some token => some (s.put i (advance e token (cfg.authenticate s token)))
    | _ => none
  | .signIn i field =>
    match s.requests i with
    | .idle =>
      let token := String.ofList (strip isSpace field.toList)
      if token = "" then some (s.put i (.signInRejected 400))
      else if maxTokenLen < token.toList.length then some (s.put i (.signInRejected 401))
      else some (s.put i (advanceSignIn token (cfg.authenticate s token)))
    | _ => none
  | .answer i =>
    match s.requests i with
    | .authenticating e token (.ask q next) =>
      some (s.put i (.resuming e token ((s.answer q).map next)))
    | .signingIn token (.ask q next) =>
      some (s.put i (.resumingSignIn token ((s.answer q).map next)))
    | _ => none
  | .resume i =>
    match s.requests i with
    | .resuming e token none => some (s.put i (attach e (some token) anonymous))
    | .resuming e token (some rest) => some (s.put i (advance e token rest))
    | .resumingSignIn _ none => some (s.put i (.failed "find api key by hash failed"))
    | .resumingSignIn token (some rest) => some (s.put i (advanceSignIn token rest))
    | _ => none
  | .outage i =>
    match s.requests i with
    | .authenticating e token _ => some (s.put i (attach e (some token) anonymous))
    | .resuming e token _ => some (s.put i (attach e (some token) anonymous))
    | .signingIn _ _ => some (s.put i (.failed "unavailable"))
    | .resumingSignIn _ _ => some (s.put i (.failed "unavailable"))
    | _ => none
  | .work i a =>
    match s.requests i with
    | .admitted e _ _ _ =>
      if s.facade.clients i = .idle → e.begins a = true then
        (cfg.machine.step s.facade (.act i a)).map (fun facade => { s with facade := facade })
      else none
    | _ => none
  | .insertKey i id entropy createdAt lost =>
    match s.requests i with
    | .admitted (.createKey name) token user .pending =>
      let grant := cfg.generate i name id entropy createdAt
      if accepts s.keys grant.row then
        some ({ s with keys := grant.row :: s.keys, grants := grant :: s.grants }.put i
          (.admitted (.createKey name) token user
            (lost.elim (.created id grant.plaintext) .raised)))
      else some (s.put i (.admitted (.createKey name) token user
        (.raised "create api key failed")))
    | _ => none
  | .listKeys i =>
    match s.requests i with
    | .admitted .listKeys token user .pending =>
      some (s.put i (.admitted .listKeys token user (.listed (listActive s.keys))))
    | _ => none
  | .deleteKey i deletedAt lost =>
    match s.requests i with
    | .admitted (.revokeKey id) token user .pending =>
      some ({ s with keys := softDeleteKey s.keys id deletedAt }.put i
        (.admitted (.revokeKey id) token user (lost.elim
          (if isActiveKey s.keys id then .revoked else .apiKeyNotFound id) .raised)))
    | _ => none
  | .failKeys i message =>
    match s.requests i with
    | .admitted e token user .pending =>
      if e.onKeys then some (s.put i (.admitted e token user (.raised message))) else none
    | _ => none
  | .env e => (cfg.machine.step s.facade (.env e)).map (fun facade => { s with facade := facade })

def machine (cfg : Config) : Machine State Action where
  start := ⟨cfg.machine.start, [], [], fun _ => .idle⟩
  step := step cfg

/-- What can come of a request while keys and facade stay as they are. -/
inductive Turn (cfg : Config) (s : State) : Action → Phase → Phase → Prop where
  | unknown {i : Nat} {r : Request} {e : Endpoint} (untold : extractToken r = none) :
      Turn cfg s (.arrive i r e) .idle (attach e none anonymous)
  | arrived {i : Nat} {r : Request} {e : Endpoint} {token : String}
      (extracted : extractToken r = some token) :
      Turn cfg s (.arrive i r e) .idle (advance e token (cfg.authenticate s token))
  | rejected {i status : Nat} {field : String} :
      Turn cfg s (.signIn i field) .idle (.signInRejected status)
  | signingIn {i : Nat} {field token : String}
      (stripped : token = String.ofList (strip isSpace field.toList)) :
      Turn cfg s (.signIn i field) .idle (advanceSignIn token (cfg.authenticate s token))
  | answered {a : Action} {e : Endpoint} {token : String} {q : Query}
      {next : q.Answer → Authenticating} :
      Turn cfg s a (.authenticating e token (.ask q next))
        (.resuming e token ((s.answer q).map next))
  | resumed {a : Action} {e : Endpoint} {token : String} {rest : Authenticating} :
      Turn cfg s a (.resuming e token (some rest)) (advance e token rest)
  | unavailable {a : Action} {e : Endpoint} {token : String} {rest : Authenticating} :
      Turn cfg s a (.authenticating e token rest) (attach e (some token) anonymous)
  | unanswered {a : Action} {e : Endpoint} {token : String} {rest : Option Authenticating} :
      Turn cfg s a (.resuming e token rest) (attach e (some token) anonymous)
  | signInAnswered {a : Action} {token : String} {q : Query}
      {next : q.Answer → Authenticating} :
      Turn cfg s a (.signingIn token (.ask q next))
        (.resumingSignIn token ((s.answer q).map next))
  | signInResumed {a : Action} {token : String} {rest : Authenticating} :
      Turn cfg s a (.resumingSignIn token (some rest)) (advanceSignIn token rest)
  | signInFailed {a : Action} {token message : String} {rest : Authenticating} :
      Turn cfg s a (.signingIn token rest) (.failed message)
  | signInUnanswered {a : Action} {token message : String} {rest : Option Authenticating} :
      Turn cfg s a (.resumingSignIn token rest) (.failed message)
  | worked {a : Action} {e : Endpoint} {token : Option String} {user : Principal} {work : Work}
      (kept : work ≠ .revoked) :
      Turn cfg s a (.admitted e token user .pending) (.admitted e token user work)

inductive Moves (cfg : Config) (s : State) : Action → State → Prop where
  | request {a : Action} {i : Nat} {phase phase' : Phase} (now : s.requests i = phase)
      (turn : Turn cfg s a phase phase') : Moves cfg s a (s.put i phase')
  | work {i : Nat} {a : Facade.Act} {e : Endpoint} {token : Option String} {user : Principal}
      {work : Work} {facade : Facade.State} (now : s.requests i = .admitted e token user work)
      (begins : s.facade.clients i = .idle → e.begins a = true)
      (stepped : cfg.machine.step s.facade (.act i a) = some facade) :
      Moves cfg s (.work i a) { s with facade := facade }
  | granted {i : Nat} {id : Uuid} {name entropy : String} {createdAt : Int}
      {lost : Option String} {token : Option String} {user : Principal} {work : Work}
      (now : s.requests i = .admitted (.createKey name) token user .pending)
      (accepted : accepts s.keys (cfg.generate i name id entropy createdAt).row = true)
      (kept : work ≠ .revoked) :
      Moves cfg s (.insertKey i id entropy createdAt lost) ({ s with
        keys := (cfg.generate i name id entropy createdAt).row :: s.keys
        grants := cfg.generate i name id entropy createdAt :: s.grants }.put i
          (.admitted (.createKey name) token user work))
  | deleted {a : Action} {i : Nat} {id : Uuid} {deletedAt : Int} {token : Option String}
      {user : Principal} {work : Work}
      (now : s.requests i = .admitted (.revokeKey id) token user .pending)
      (matched : work = .revoked → isActiveKey s.keys id = true) :
      Moves cfg s a ({ s with keys := softDeleteKey s.keys id deletedAt }.put i
        (.admitted (.revokeKey id) token user work))
  | env {e : Facade.Env} {facade : Facade.State}
      (stepped : cfg.machine.step s.facade (.env e) = some facade) :
      Moves cfg s (.env e) { s with facade := facade }

theorem step_moves {cfg : Config} {s t : State} {a : Action} (h : step cfg s a = some t) :
    Moves cfg s a t := by
  cases a with
  | arrive i r e =>
    simp only [step] at h
    split at h
    · rename_i hidle
      split at h
      · cases h
        exact .request hidle (.unknown ‹_›)
      · cases h
        exact .request hidle (.arrived ‹_›)
    · cases h
  | signIn i field =>
    simp only [step] at h
    split at h
    · rename_i hidle
      split at h
      · cases h
        exact .request hidle .rejected
      · split at h
        · cases h
          exact .request hidle .rejected
        · cases h
          exact .request hidle (.signingIn rfl)
    · cases h
  | answer i =>
    simp only [step] at h
    split at h
    · cases h
      exact .request ‹_› .answered
    · cases h
      exact .request ‹_› .signInAnswered
    · cases h
  | resume i =>
    simp only [step] at h
    split at h
    · cases h
      exact .request ‹_› .unanswered
    · cases h
      exact .request ‹_› .resumed
    · cases h
      exact .request ‹_› .signInUnanswered
    · cases h
      exact .request ‹_› .signInResumed
    · cases h
  | outage i =>
    simp only [step] at h
    split at h
    · cases h
      exact .request ‹_› .unavailable
    · cases h
      exact .request ‹_› .unanswered
    · cases h
      exact .request ‹_› .signInFailed
    · cases h
      exact .request ‹_› .signInUnanswered
    · cases h
  | work i a =>
    simp only [step] at h
    split at h
    · rename_i hphase
      obtain ⟨hbegins, h⟩ := Option.ite_none_right_eq_some.mp h
      obtain ⟨facade, hstep, rfl⟩ := Option.map_eq_some_iff.mp h
      exact .work hphase hbegins hstep
    · cases h
  | insertKey i id entropy createdAt lost =>
    simp only [step] at h
    split at h
    · rename_i hphase
      split at h
      · cases h
        exact .granted hphase ‹_› (by cases lost <;> simp)
      · cases h
        exact .request hphase (.worked (by simp))
    · cases h
  | listKeys i =>
    simp only [step] at h
    split at h
    · cases h
      exact .request ‹_› (.worked (by simp))
    · cases h
  | deleteKey i deletedAt lost =>
    simp only [step] at h
    split at h
    · rename_i hphase
      cases h
      refine .deleted hphase fun hrevoked => ?_
      cases lost with
      | none =>
        by_contra hx
        simp [hx] at hrevoked
      | some message => cases hrevoked
    · cases h
  | failKeys i message =>
    simp only [step] at h
    split at h
    · obtain ⟨-, h⟩ := Option.ite_none_right_eq_some.mp h
      cases h
      exact .request ‹_› (.worked (by simp))
    · cases h
  | env e =>
    obtain ⟨facade, hstep, rfl⟩ := Option.map_eq_some_iff.mp h
    exact .env hstep

end BackendTemplates.Auth.Surface
