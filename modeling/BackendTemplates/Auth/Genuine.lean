import BackendTemplates.Auth.Facade

namespace BackendTemplates.Auth.Facade
open Python Runs

def World.tokens (w : World) : List String :=
  w.issued.flatMap (fun r => [r.token .access, r.token .refresh])

/-- Every token encoded so far decodes to its claims. -/
def World.Decodes (f : AuthFacade) (w : World) : Prop :=
  ∀ r ∈ w.issued, f.jwt.decode (r.token .access) = .ok (some (f.wire (r.claims f .access))) ∧
    f.jwt.decode (r.token .refresh) = .ok (some (f.wire (r.claims f .refresh)))

instance (f : AuthFacade) (w : World) : Decidable (w.Decodes f) :=
  inferInstanceAs (Decidable (∀ r ∈ w.issued, _ ∧ _))

/-- The token that a call starts with. -/
def Act.token? : Act → Option String
  | .resolve token => some token
  | .refresh token => some token
  | .revoke token => some token
  | _ => none

/-- The codec decodes to what it has encoded, and nothing else. -/
def Genuine (f : AuthFacade) (s : State) : Action → Prop
  | .act i a => (∀ r ∈ step f i s.world (s.clients i) a, r.1.Decodes f) ∧
      ∀ token ∈ a.token?, f.jwt.accepts token = true → token ∈ s.world.tokens
  | .env _ => True

instance (f : AuthFacade) (s : State) : ∀ a, Decidable (Genuine f s a)
  | .act i a => inferInstanceAs (Decidable ((∀ r ∈ step f i s.world (s.clients i) a, _) ∧
      ∀ token ∈ a.token?, _))
  | .env _ => isTrue trivial

section
variable {f : AuthFacade} {token : String} {now now' : Int} {expected : Option TokenType}
  {v : VerifiedToken} {w : World} {r : Issued} {type : TokenType}

theorem mem_tokens : token ∈ w.tokens ↔ ∃ r ∈ w.issued, ∃ type, token = r.token type := by
  simp only [World.tokens, List.mem_flatMap, List.mem_cons, List.not_mem_nil, or_false]
  constructor
  · intro h
    obtain ⟨r, hr, h | h⟩ := h
    · exact ⟨r, hr, _, h⟩
    · exact ⟨r, hr, _, h⟩
  · intro h
    obtain ⟨r, hr, type, h⟩ := h
    cases type with
    | access => exact ⟨r, hr, .inl h⟩
    | refresh => exact ⟨r, hr, .inr h⟩

theorem World.Decodes.claims (h : w.Decodes f) (hr : r ∈ w.issued) (type : TokenType) :
    f.jwt.decode (r.token type) = .ok (some (f.wire (r.claims f type))) := by
  cases type with
  | access => exact (h r hr).1
  | refresh => exact (h r hr).2

/-- Whatever type a call asks for, a token that verifies does so for any type. -/
theorem verify_any {jwt : JwtService} (h : jwt.verify now token expected = .ok (some v)) :
    jwt.verify now token none = .ok (some v) := by
  obtain ⟨claims, hc, _, halive⟩ := verify_iff.mp h
  exact verify_iff.mpr ⟨claims, hc, rfl, halive⟩

theorem claims_lookup : (f.wire (r.claims f type)).lookup "role" = some (.str r.role.value) ∧
    (f.wire (r.claims f type)).lookup "jti" =
      some (.str (String.ofList (hexText (r.id type).digits))) ∧
    (f.wire (r.claims f type)).lookup "exp" =
      some (.int (f.timestamp (r.issuedAt + f.ttl type * 1000000))) ∧
    (f.wire (r.claims f type)).lookup "sub" = some (.str (r.subject.getD r.role.value)) ∧
    (f.wire (r.claims f type)).lookup "type" = some (.str type.value) := by
  simp [AuthFacade.wire, AuthFacade.wireValue, Issued.claims, JwtService.claims, List.lookup_cons]

/-- What a token verifies to that decodes to the claims of an issued one. -/
theorem verify_claims (hd : f.jwt.decode token = .ok (some (f.wire (r.claims f type))))
    (h : f.jwt.verify now token expected = .ok (some v)) :
    v = ⟨r.role, String.ofList (hexText (r.id type).digits),
        f.timestamp (r.issuedAt + f.ttl type * 1000000) * 1000000,
        JwtService.subjectOf r.role (some (.str (r.subject.getD r.role.value)))⟩ ∧
      ∀ e, expected = some e → e = type := by
  obtain ⟨claims, hc, htype, _⟩ := verify_iff.mp h
  obtain rfl := Option.some.inj (Except.ok.inj (hd.symm.trans hc.decoded))
  obtain ⟨crole, cjti, cexp, csub, ctype⟩ := @claims_lookup f r type
  obtain ⟨value, hrole, hof⟩ := hc.role
  obtain ⟨exp, hexp, _, hexpires⟩ := hc.expiry
  have hjti := hc.jti
  have hsub := hc.subject
  rw [crole, Option.some.injEq, ClaimValue.str.injEq] at hrole
  rw [← hrole, Role.ofValue_value, Option.some.injEq] at hof
  rw [cjti, Option.some.injEq, ClaimValue.str.injEq] at hjti
  rw [cexp, Option.some.injEq, ClaimValue.int.injEq] at hexp
  rw [csub, ← hof] at hsub
  rw [← hexp] at hexpires
  constructor
  · rw [← hsub, ← hexpires, hjti, hof]
  · intro e he
    subst he
    simp only [JwtService.typeMatches, ctype, beq_iff_eq, Option.some.injEq,
      ClaimValue.str.injEq] at htype
    exact (TokenType.value_injective htype).symm

end

/-- The identifier whose digits are all the same. -/
def nth (d : Nat) : Uuid :=
  (Uuid.ofStr (String.ofList (List.replicate 32 (Json.hexChar d)))).getD Uuid.null

def compact (claims : Claims) : Option String :=
  match claims.lookup "type", claims.lookup "jti" with
  | some (.str type), some (.str jti) => some (type ++ "." ++ jti ++ ".s")
  | _, _ => none

def seconds (claims : Claims) : Claims :=
  claims.map (fun c => (c.1, match c.2 with
    | .time t => .int (t / 1000000)
    | value => value))

/-- A service that decodes what it has encoded of these claims. -/
def tabulated (encoded : List Claims) : JwtService where
  decode token := .ok ((encoded.find? (fun claims => compact claims == some token)).map seconds)
  encode := compact
  issuer := "api"
  accessTtl := 900
  refreshTtl := 3600

/-- Each role and subject of the list has a pair, issued at time zero. -/
def sampleFacade (pairs : List (Role × Option String × Uuid × Uuid)) : AuthFacade where
  jwt := tabulated (pairs.flatMap (fun p =>
    [(tabulated []).claims p.1 .access 900 0 p.2.1 p.2.2.1,
      (tabulated []).claims p.1 .refresh 3600 0 p.2.1 p.2.2.2]))
  timestamp t := t / 1000000
  strip email := email
  lower email := email
  verifyPassword password passwordHash := password == passwordHash

def accessToken (id : Uuid) : String := "access." ++ String.ofList (hexText id.digits) ++ ".s"

def refreshToken (id : Uuid) : String := "refresh." ++ String.ofList (hexText id.digits) ++ ".s"

end BackendTemplates.Auth.Facade
