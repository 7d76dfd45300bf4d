import BackendTemplates.Library.Pool
import BackendTemplates.Python.Uuid

namespace BackendTemplates.Auth
open Python Runs

inductive Role where
  | unknown
  | user
  | admin
  deriving DecidableEq, Repr

def Role.value : Role → String
  | unknown => "unknown"
  | user => "user"
  | admin => "admin"

/-- `Role(text)`. `none` is the `ValueError`. -/
def Role.ofValue (text : String) : Option Role :=
  [Role.unknown, .user, .admin].find? (fun r => r.value == text)

@[simp] theorem Role.ofValue_value (role : Role) : Role.ofValue role.value = some role := by
  cases role <;> rfl

inductive TokenType where
  | access
  | refresh
  deriving DecidableEq, Repr

def TokenType.value : TokenType → String
  | access => "access"
  | refresh => "refresh"

theorem TokenType.value_injective {type type' : TokenType} (h : type.value = type'.value) :
    type = type' := by
  cases type <;> cases type' <;> first | rfl | exact absurd h (by decide)

/-- A claim as Python sees it. Booleans are `int` there too. Instants are in
microseconds since the epoch. -/
inductive ClaimValue where
  | str (s : String)
  | int (n : Int)
  | time (t : Int)
  | other
  deriving DecidableEq

abbrev Claims := List (String × ClaimValue)

structure VerifiedToken where
  role : Role
  jti : String
  expiresAt : Int
  subject : Option String
  deriving DecidableEq

structure TokenPair where
  access : String
  refresh : String
  expiresIn : Int
  deriving DecidableEq

/-- `JwtService` over its codec, which signs and checks tokens and answers `none`
when JWT is disabled. A token can make the codec raise what it does not catch. -/
structure JwtService where
  decode : String → Except String (Option Claims)
  encode : Claims → Option String
  issuer : String
  accessTtl : Int
  refreshTtl : Int

namespace JwtService

/-- The seconds `datetime.fromtimestamp` accepts. -/
def inCalendar (exp : Int) : Bool := -62135596800 ≤ exp && exp ≤ 253402300799

def subjectOf (role : Role) : Option ClaimValue → Option String
  | some (.str sub) => if sub = role.value then none else some sub
  | _ => none

def typeMatches (claims : Claims) : Option TokenType → Bool
  | none => true
  | some expected => claims.lookup "type" == some (.str expected.value)

/-- The codec has claims for the token. -/
def accepts (jwt : JwtService) (token : String) : Bool :=
  match jwt.decode token with
  | .ok (some _) => true
  | _ => false

/-- `verify`. An `exp` outside the calendar raises. -/
def verify (jwt : JwtService) (now : Int) (token : String) (expected : Option TokenType) :
    Except String (Option VerifiedToken) :=
  match jwt.decode token with
  | .error message => .error message
  | .ok none => .ok none
  | .ok (some claims) =>
    if claims.lookup "iss" ≠ some (.str jwt.issuer) then .ok none
    else if typeMatches claims expected = false then .ok none
    else match claims.lookup "role", claims.lookup "jti", claims.lookup "exp" with
      | some (.str roleValue), some (.str jti), some (.int exp) =>
        match Role.ofValue roleValue with
        | none => .ok none
        | some role =>
          if inCalendar exp = false then .error "timestamp out of range"
          else if exp * 1000000 ≤ now then .ok none
          else .ok (some ⟨role, jti, exp * 1000000, subjectOf role (claims.lookup "sub")⟩)
      | _, _, _ => .ok none

def claims (jwt : JwtService) (role : Role) (type : TokenType) (ttl now : Int)
    (subject : Option String) (jti : Uuid) : Claims :=
  [("iss", .str jwt.issuer), ("sub", .str (subject.getD role.value)), ("role", .str role.value),
    ("type", .str type.value), ("jti", .str (String.ofList (hexText jti.digits))),
    ("iat", .time now), ("exp", .time (now + ttl * 1000000))]

/-- `issue_pair`, given the identifiers `uuid4` draws. -/
def issuePair (jwt : JwtService) (now : Int) (role : Role) (subject : Option String)
    (accessId refreshId : Uuid) : Option TokenPair := do
  let access ← jwt.encode (jwt.claims role .access jwt.accessTtl now subject accessId)
  let refresh ← jwt.encode (jwt.claims role .refresh jwt.refreshTtl now subject refreshId)
  some ⟨access, refresh, jwt.accessTtl⟩

end JwtService

/-- `ceil` of a duration in seconds. -/
def ceilSeconds (microseconds : Int) : Int := (microseconds + 999999) / 1000000

/-- The clock, the denylist in Valkey with the instants its keys expire at, and the
users who are active. -/
structure World where
  now : Int
  denylist : String → Option Int
  active : Uuid → Bool

namespace World

def key (jti : String) : String := "denylist:" ++ jti

/-- `ValkeyDenylist.contains`. -/
def contains (w : World) (jti : String) : Bool :=
  match w.denylist (key jti) with
  | none => false
  | some expiry => w.now < expiry

/-- `ValkeyDenylist.add`. -/
def add (w : World) (jti : String) (ttlSeconds : Int) : World :=
  if ttlSeconds ≤ 0 then w
  else { w with denylist :=
    Function.update w.denylist (key jti) (some (w.now + ttlSeconds * 1000000)) }

end World

/-- How far one call has come. -/
inductive Call where
  | idle
  | verified (v : VerifiedToken)
  | unlisted (v : VerifiedToken)
  | checkingUser (v : VerifiedToken) (user : Uuid)
  | ready (v : VerifiedToken)
  | adding (v : VerifiedToken) (ttl : Int)
  | added (v : VerifiedToken)
  | returned (pair : Option TokenPair)
  | raised (message : String)
  deriving DecidableEq

inductive Act where
  | verify
  | contains
  | readSubject
  | isActive
  | measure
  | add
  | issue (accessId refreshId : Uuid)
  | fail (message : String)
  deriving DecidableEq

inductive Env where
  | tick (microseconds : Nat)
  | activate (user : Uuid)
  | deactivate (user : Uuid)

/-- One step of `RefreshTokensUC` on the token. Every await may raise instead. -/
def step (jwt : JwtService) (token : String) (w : World) : Call → Act → Option (World × Call)
  | .idle, .verify =>
    match jwt.verify w.now token (some .refresh) with
    | .error message => some (w, .raised message)
    | .ok none => some (w, .returned none)
    | .ok (some v) => some (w, .verified v)
  | .verified v, .contains =>
    if w.contains v.jti then some (w, .returned none) else some (w, .unlisted v)
  | .unlisted v, .readSubject =>
    match v.subject with
    | none => some (w, .ready v)
    | some subject =>
      match Uuid.ofStr subject with
      | none => some (w, .returned none)
      | some user => some (w, .checkingUser v user)
  | .checkingUser v user, .isActive =>
    if w.active user then some (w, .ready v) else some (w, .returned none)
  | .ready v, .measure => some (w, .adding v (ceilSeconds (v.expiresAt - w.now)))
  | .adding v ttl, .add => some (w.add v.jti ttl, .added v)
  | .added v, .issue accessId refreshId =>
    some (w, .returned (jwt.issuePair w.now v.role v.subject accessId refreshId))
  | .verified _, .fail message => some (w, .raised message)
  | .checkingUser _ _, .fail message => some (w, .raised message)
  | .adding _ _, .fail message => some (w, .raised message)
  | _, _ => none

def env (w : World) : Env → Option World
  | .tick microseconds => some { w with now := w.now + microseconds }
  | .activate user => some { w with active := Function.update w.active user true }
  | .deactivate user => some { w with active := Function.update w.active user false }

def pool (jwt : JwtService) (token : String) (w : World) : Pool Nat World Call Act Env where
  world := w
  client := .idle
  step := fun _ => step jwt token
  env := env

abbrev State := Pool.State Nat World Call
abbrev Action := Pool.Action Nat Act Env

/-- A call denylists a token which is still alive and still not denylisted. -/
def StillUnspent (s : State) : Action → Prop
  | .act i .add =>
    match s.clients i with
    | .adding v _ => s.world.contains v.jti = false ∧ s.world.now < v.expiresAt
    | _ => True
  | _ => True

instance (s : State) (a : Action) : Decidable (StillUnspent s a) := by
  unfold StillUnspent
  split
  · split <;> infer_instance
  · infer_instance

/-- The token a call works on, once verified. -/
def Call.token? : Call → Option VerifiedToken
  | .verified v => some v
  | .unlisted v => some v
  | .checkingUser v _ => some v
  | .ready v => some v
  | .adding v _ => some v
  | .added v => some v
  | _ => none

/-- The call has been through its denylist write. -/
def Call.Spent : Call → Prop
  | .added _ => True
  | .returned (some _) => True
  | _ => False

/-- The claims of a token that verifies, whatever type is asked for. -/
structure Contents (jwt : JwtService) (token : String) (v : VerifiedToken) (claims : Claims) :
    Prop where
  decoded : jwt.decode token = .ok (some claims)
  issuer : claims.lookup "iss" = some (.str jwt.issuer)
  role : ∃ value, claims.lookup "role" = some (.str value) ∧ Role.ofValue value = some v.role
  jti : claims.lookup "jti" = some (.str v.jti)
  expiry : ∃ exp, claims.lookup "exp" = some (.int exp) ∧ JwtService.inCalendar exp = true ∧
    v.expiresAt = exp * 1000000
  subject : v.subject = JwtService.subjectOf v.role (claims.lookup "sub")

section
variable {jwt : JwtService} {token : String} {w₀ : World}

theorem verify_iff {now : Int} {expected : Option TokenType} {v : VerifiedToken} :
    jwt.verify now token expected = .ok (some v) ↔
    ∃ claims, Contents jwt token v claims ∧ JwtService.typeMatches claims expected = true ∧
      now < v.expiresAt := by
  unfold JwtService.verify
  constructor
  · intro h
    split at h
    · cases h
    · cases h
    · rename_i claims hd
      split at h
      · cases h
      · rename_i hissuer
        split at h
        · cases h
        · rename_i htype
          split at h
          · rename_i roleValue jti exp hrole hjti hexp
            split at h
            · cases h
            · rename_i role hof
              split at h
              · cases h
              · rename_i hcalendar
                split at h
                · cases h
                · rename_i halive
                  cases h
                  exact ⟨claims, ⟨hd, by simpa using hissuer, ⟨_, hrole, hof⟩, hjti,
                    ⟨exp, hexp, by simpa using hcalendar, rfl⟩, rfl⟩, by simpa using htype,
                    Int.not_le.mp halive⟩
          · cases h
  · intro h
    obtain ⟨claims, ⟨hd, hissuer, ⟨value, hrole, hof⟩, hjti, ⟨exp, hexp, hcalendar, hv⟩, hsub⟩,
      htype, halive⟩ := h
    have hdead : ¬ v.expiresAt ≤ now := Int.not_le.mpr halive
    simp only [hd, hissuer, htype, hrole, hof, hjti, hexp, hcalendar, hdead, ← hsub, ← hv, ne_eq,
      not_true_eq_false, Bool.true_eq_false, ↓reduceIte]

theorem accepts_of_verify {now : Int} {expected : Option TokenType} {v : VerifiedToken}
    (h : jwt.verify now token expected = .ok (some v)) : jwt.accepts token = true := by
  obtain ⟨claims, hc, -⟩ := verify_iff.mp h
  simp [JwtService.accepts, hc.decoded]

theorem verify_alive {now : Int} {expected : Option TokenType} {v : VerifiedToken}
    (h : jwt.verify now token expected = .ok (some v)) : now < v.expiresAt ∧
      ∀ now', now' < v.expiresAt → jwt.verify now' token expected = .ok (some v) := by
  obtain ⟨claims, hc, htype, halive⟩ := verify_iff.mp h
  exact ⟨halive, fun now' hlt => verify_iff.mpr ⟨claims, hc, htype, hlt⟩⟩

/-- Whenever a token verifies, it verifies to the same contents. -/
theorem verify_same {now now' : Int} {expected : Option TokenType} {v v' : VerifiedToken}
    (h : jwt.verify now token expected = .ok (some v))
    (h' : jwt.verify now' token expected = .ok (some v')) : v = v' := by
  obtain ⟨hn, hv⟩ := verify_alive h
  obtain ⟨hn', hv'⟩ := verify_alive h'
  have he := (hv (min now now') (by omega)).symm.trans (hv' (min now now') (by omega))
  simpa using he

theorem le_ceilSeconds (d : Int) : d ≤ ceilSeconds d * 1000000 := by
  unfold ceilSeconds
  omega

/-- Calls hold the token as it verifies, a measured lifetime still covers the rest of
its life, and a spent token stays denylisted for all of it. -/
structure Rotation (jwt : JwtService) (token : String) (s : State) : Prop where
  holds : ∀ i v, (s.clients i).token? = some v →
    ∃ now, jwt.verify now token (some .refresh) = .ok (some v)
  lifetime : ∀ i v ttl, s.clients i = .adding v ttl →
    v.expiresAt - s.world.now ≤ ttl * 1000000
  denied : ∀ i, (s.clients i).Spent → ∀ now v,
    jwt.verify now token (some .refresh) = .ok (some v) →
      ∃ expiry, s.world.denylist (World.key v.jti) = some expiry ∧ v.expiresAt ≤ expiry
  once : ∀ i j, (s.clients i).Spent → (s.clients j).Spent → i = j

theorem Rotation.start : Rotation jwt token (pool jwt token w₀).machine.start where
  holds i v h := by cases h
  lifetime i v ttl h := by cases h
  denied i h := h.elim
  once i j h := h.elim

/-- While a call still has to denylist a live token that is not listed, no other call
has been through that write. -/
theorem Rotation.unspent {s : State} (h : Rotation jwt token s) {i : Nat} {v : VerifiedToken}
    (ht : (s.clients i).token? = some v) (hc : s.world.contains v.jti = false)
    (hn : s.world.now < v.expiresAt) (j : Nat) : ¬ (s.clients j).Spent := by
  intro hj
  obtain ⟨now, hv⟩ := h.holds i v ht
  obtain ⟨expiry, he, hle⟩ := h.denied j hj now v hv
  simp only [World.contains, he, decide_eq_false_iff_not] at hc
  omega

/-- A step of a call writes the denylist, or leaves the world alone. -/
theorem step_cases {w w' : World} {k k' : Call} {a : Act}
    (h : step jwt token w k a = some (w', k')) :
    (∃ v ttl, a = .add ∧ k = .adding v ttl ∧ w' = w.add v.jti ttl ∧ k' = .added v) ∨
      (w' = w ∧ (k'.Spent → k.Spent) ∧
        (∀ v, k'.token? = some v → k.token? = some v ∨
          jwt.verify w.now token (some .refresh) = .ok (some v)) ∧
        ∀ v ttl, k' = .adding v ttl → ttl = ceilSeconds (v.expiresAt - w.now)) := by
  unfold step at h
  split at h
  · split at h
    · cases h
      exact .inr ⟨rfl, False.elim, by simp [Call.token?], by simp⟩
    · cases h
      exact .inr ⟨rfl, False.elim, by simp [Call.token?], by simp⟩
    · rename_i hv
      cases h
      refine .inr ⟨rfl, False.elim, fun v he => .inr ?_, by simp⟩
      cases he
      exact hv
  · split at h <;> cases h <;>
      exact .inr ⟨rfl, False.elim, by simp [Call.token?], by simp⟩
  · split at h
    · cases h
      exact .inr ⟨rfl, False.elim, by simp [Call.token?], by simp⟩
    · split at h <;> cases h <;>
        exact .inr ⟨rfl, False.elim, by simp [Call.token?], by simp⟩
  · split at h <;> cases h <;>
      exact .inr ⟨rfl, False.elim, by simp [Call.token?], by simp⟩
  · cases h
    refine .inr ⟨rfl, False.elim, by simp [Call.token?], fun v ttl he => ?_⟩
    cases he
    rfl
  · cases h
    exact .inl ⟨_, _, rfl, rfl, rfl, rfl⟩
  · cases h
    exact .inr ⟨rfl, fun _ => trivial, by simp [Call.token?], by simp⟩
  all_goals first
    | (cases h; exact .inr ⟨rfl, False.elim, by simp [Call.token?], by simp⟩)
    | cases h

theorem Rotation.call {s : State} {i : Nat} {k : Call} (h : Rotation jwt token s)
    (hs : k.Spent → (s.clients i).Spent)
    (ht : ∀ v, k.token? = some v → (s.clients i).token? = some v ∨
      jwt.verify s.world.now token (some .refresh) = .ok (some v))
    (hm : ∀ v ttl, k = .adding v ttl → ttl = ceilSeconds (v.expiresAt - s.world.now)) :
    Rotation jwt token ⟨s.world, Function.update s.clients i k⟩ := by
  have spent (j : Nat) (hj : (Function.update s.clients i k j).Spent) : (s.clients j).Spent := by
    by_cases he : j = i
    · subst j
      exact hs (by simpa using hj)
    · simpa [he] using hj
  refine ⟨fun j v hv => ?_, fun j v ttl hv => ?_, fun j hj => h.denied j (spent j hj),
    fun j l hj hl => h.once j l (spent j hj) (spent l hl)⟩
  · by_cases he : j = i
    · subst j
      rcases ht v (by simpa using hv) with hv | hv
      · exact h.holds i v hv
      · exact ⟨_, hv⟩
    · exact h.holds j v (by simpa [he] using hv)
  · by_cases he : j = i
    · subst j
      rw [hm v ttl (by simpa using hv)]
      exact le_ceilSeconds _
    · exact h.lifetime j v ttl (by simpa [he] using hv)

/-- The denylist write of a token still unspent: the writer is the only call past it. -/
theorem Rotation.add {s : State} {i : Nat} {v : VerifiedToken} {ttl : Int}
    (h : Rotation jwt token s) (hi : s.clients i = .adding v ttl)
    (hc : s.world.contains v.jti = false) (hn : s.world.now < v.expiresAt) :
    Rotation jwt token ⟨s.world.add v.jti ttl, Function.update s.clients i (.added v)⟩ := by
  have ht : (s.clients i).token? = some v := by rw [hi]; rfl
  have hfirst := h.unspent ht hc hn
  have httl := h.lifetime i v ttl hi
  have hpos : ¬ ttl ≤ 0 := by omega
  have only (j : Nat) (hj : (Function.update s.clients i (.added v) j).Spent) : j = i := by
    by_contra he
    exact hfirst j (by simpa [he] using hj)
  refine ⟨fun j u hu => ?_, fun j u t hu => ?_, fun j hj now u hu => ?_,
    fun j l hj hl => (only j hj).trans (only l hl).symm⟩
  · by_cases he : j = i
    · subst j
      exact h.holds i u (by rw [ht]; simpa [Call.token?] using hu)
    · exact h.holds j u (by simpa [he] using hu)
  · by_cases he : j = i
    · subst j
      simp at hu
    · have hl := h.lifetime j u t (by simpa [he] using hu)
      simpa [World.add, hpos] using hl
  · obtain ⟨now', hv⟩ := h.holds i v ht
    cases verify_same hu hv
    exact ⟨s.world.now + ttl * 1000000, by simp [World.add, hpos], by omega⟩

theorem Rotation.env {s : State} {e : Env} {w : World} (h : Rotation jwt token s)
    (he : Auth.env s.world e = some w) : Rotation jwt token ⟨w, s.clients⟩ := by
  have hw : w.denylist = s.world.denylist ∧ s.world.now ≤ w.now := by
    cases e with
    | tick microseconds =>
      cases he
      exact ⟨rfl, Int.le_add_of_nonneg_right (Int.natCast_nonneg _)⟩
    | activate user => cases he; exact ⟨rfl, Int.le_refl _⟩
    | deactivate user => cases he; exact ⟨rfl, Int.le_refl _⟩
  refine ⟨h.holds, fun i v ttl hv => ?_, fun i hi now v hv => ?_, h.once⟩
  · have hl := h.lifetime i v ttl hv
    have hle := hw.2
    change v.expiresAt - w.now ≤ ttl * 1000000
    omega
  · rw [hw.1]
    exact h.denied i hi now v hv

/-- A refresh token rotates at most once in every run in which each denylist write finds
the token alive and not denylisted yet. -/
theorem rotates_once {as : List Action} {s : State}
    (h : (pool jwt token w₀).machine.Reaches as s)
    (hm : (pool jwt token w₀).machine.Meets StillUnspent (pool jwt token w₀).machine.start as)
    {i j : Nat} {pair pair' : TokenPair} (hi : s.clients i = .returned (some pair))
    (hj : s.clients j = .returned (some pair')) : i = j := by
  have hr : Rotation jwt token s := by
    refine h.invariant_of_meets Rotation.start ?_ hm
    intro s a t hr hok hs
    cases a with
    | act i a =>
      obtain ⟨w, k, hw, rfl⟩ := Pool.act_step.mp hs
      rcases step_cases hw with ⟨v, ttl, rfl, hi, rfl, rfl⟩ | ⟨rfl, hsp, ht, hl⟩
      · simp only [StillUnspent, hi] at hok
        exact hr.add hi hok.1 hok.2
      · exact hr.call hsp ht hl
    | env e =>
      obtain ⟨w, hw, rfl⟩ := Pool.env_step.mp hs
      exact hr.env hw
  exact hr.once i j (by rw [hi]; trivial) (by rw [hj]; trivial)

end

def Call.pair? : Call → Option TokenPair
  | .returned pair => pair
  | _ => none

/-- A codec over two tokens, and the claims of the refresh token it signed. -/
def sample : JwtService where
  decode token := .ok (if token = "h.refresh.s" then
    some [("iss", .str "api"), ("sub", .str "user"), ("role", .str "user"),
      ("type", .str "refresh"), ("jti", .str "7f"), ("exp", .int 100)] else none)
  encode claims := match claims.lookup "type" with
    | some (.str type) => some ("h." ++ type ++ ".s")
    | _ => none
  issuer := "api"
  accessTtl := 900
  refreshTtl := 3600

def zero : Uuid := Uuid.null

def look (i : Nat) : List Action :=
  [.act i .verify, .act i .contains, .act i .readSubject, .act i .measure]

def spend (i : Nat) : List Action := [.act i .add, .act i (.issue zero zero)]

/-- The second call looks the token up only after the first has denylisted it. -/
def inTurn : List Action := look 0 ++ spend 0 ++ [.act 1 .verify, .act 1 .contains]

theorem in_turn_rotates_once : ∃ s,
    (pool sample "h.refresh.s" ⟨0, fun _ => none, fun _ => true⟩).machine.Reaches inTurn s ∧
      (s.clients 0).pair? ≠ none ∧ ∀ i j pair pair', s.clients i = .returned (some pair) →
        s.clients j = .returned (some pair') → i = j := by
  have hr : ((pool sample "h.refresh.s" ⟨0, fun _ => none, fun _ => true⟩).machine.exec
      (pool sample "h.refresh.s" ⟨0, fun _ => none, fun _ => true⟩).machine.start inTurn).map
      (fun s => (s.clients 0).pair?) = some (some ⟨"h.access.s", "h.refresh.s", 900⟩) := by
    decide
  obtain ⟨s, hs, hp⟩ := Machine.reaches_of_map hr
  exact ⟨s, hs, by simp [hp], fun i j pair pair' hi hj => rotates_once hs (by decide) hi hj⟩

/-- Both calls look the token up before either has denylisted it. -/
def overlapping : List Action := look 0 ++ look 1 ++ spend 0 ++ spend 1

theorem overlapping_calls_both_rotate : ¬ ∀ (jwt : JwtService) (token : String) (w : World) as s,
    (pool jwt token w).machine.Reaches as s → ∀ i j pair pair',
      s.clients i = .returned (some pair) → s.clients j = .returned (some pair') → i = j := by
  intro hall
  have hr : ((pool sample "h.refresh.s" ⟨0, fun _ => none, fun _ => true⟩).machine.exec
      (pool sample "h.refresh.s" ⟨0, fun _ => none, fun _ => true⟩).machine.start overlapping).map
      (fun s => (s.clients 0, s.clients 1)) =
        some (.returned (some ⟨"h.access.s", "h.refresh.s", 900⟩),
          .returned (some ⟨"h.access.s", "h.refresh.s", 900⟩)) := by
    decide
  obtain ⟨s, hs, hp⟩ := Machine.reaches_of_map hr
  have h0 := congrArg Prod.fst hp
  have h1 := congrArg Prod.snd hp
  exact absurd (hall _ _ _ _ s hs 0 1 _ _ h0 h1) (by decide)

end BackendTemplates.Auth
