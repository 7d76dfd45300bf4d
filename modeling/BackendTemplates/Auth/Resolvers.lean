import BackendTemplates.Auth.Facade
import BackendTemplates.Auth.TokenExtraction
import BackendTemplates.Library.Queries
import BackendTemplates.Python.Bytes

namespace BackendTemplates.Auth
open Python Queries

/-- What the resolvers ask: the denylist for a `jti`, the API-key table for a hash. -/
inductive Query where
  | contains (jti : String)
  | findActiveByHash (keyHash : String)
  deriving DecidableEq

structure ApiKeyRecord where
  id : Uuid
  role : Role
  deriving DecidableEq

abbrev Query.Answer : Query → Type
  | .contains _ => Bool
  | .findActiveByHash _ => Option ApiKeyRecord

/-- An `ITokenResolver`. No resolver catches a `PortError`. -/
abbrev Resolver := String → Prog Query Query.Answer (Option Principal)

/-- `JwtTokenResolver`, whose service reads the clock at `now`. -/
def jwtTokenResolver (jwt : JwtService) (now : Int) : Resolver := fun token =>
  if token.toList.count '.' ≠ 2 then .done none
  else match jwt.verify now token (some .access) with
    | .error message => .raise message
    | .ok none => .done none
    | .ok (some v) => .ask (.contains v.jti) fun listed =>
        .done (if listed = true then none else some ⟨v.role, v.jti, v.subject⟩)

/-- `API_KEY_PREFIX`. -/
def apiKeyPrefix : String := "ak_"

/-- `ApiKeyResolver`. `sha256` is the hexadecimal digest of a text. -/
def apiKeyResolver (sha256 : String → String) : Resolver := fun token =>
  if startswith token apiKeyPrefix = false then .done none
  else .ask (.findActiveByHash (sha256 token)) fun record =>
    .done (record.map fun r => ⟨r.role, String.ofList ((hexText r.id.digits).take 8), none⟩)

/-- `StaticTokenResolver`. -/
def staticTokenResolver (sha256 : String → String) (adminToken : Option String) : Resolver :=
  fun token => match adminToken with
    | none => .done none
    | some adminValue =>
      if adminValue = "" then .done none
      else if utf8 token ≠ utf8 adminValue then .done none
      else .done (some ⟨.admin, String.ofList ((sha256 token).toList.take 8), none⟩)

/-- `CompositeTokenResolver`: the first resolver that knows the token. -/
def compositeTokenResolver : List Resolver → Resolver
  | [], _ => .done none
  | resolver :: resolvers, token => (resolver token).bind fun
      | some principal => .done (some principal)
      | none => compositeTokenResolver resolvers token

/-- The program takes the steps of the resolver among the calls of the facade. -/
theorem resolve_eq_program (f : AuthFacade) (w : Facade.World) (token : String) :
    match jwtTokenResolver f.jwt w.now token with
    | .done principal =>
      Facade.resolve f w .idle (.resolve token) = some (w, .resolved token principal)
    | .raise message => Facade.resolve f w .idle (.resolve token) = some (w, .raised message)
    | .ask q next => ∃ v, ∃ hq : q = .contains v.jti,
        Facade.resolve f w .idle (.resolve token) = some (w, .resolving token w.now v) ∧
        ∀ w' : Facade.World, ∃ principal, next (hq ▸ w'.contains v.jti) = .done principal ∧
          Facade.resolve f w' (.resolving token w.now v) .contains =
            some (w', .resolved token principal) := by
  unfold jwtTokenResolver
  by_cases hdots : token.toList.count '.' = 2
  · simp only [Facade.resolve, hdots, ne_eq, not_true_eq_false, if_false]
    cases hv : f.jwt.verify w.now token (some .access) with
    | error message => rfl
    | ok verified =>
      cases verified with
      | none => rfl
      | some v =>
        refine ⟨v, rfl, rfl, fun w' => ?_⟩
        cases hc : w'.contains v.jti <;> exact ⟨_, rfl, by simp⟩
  · simp [Facade.resolve, hdots]

/-- A JWT gives a principal only after the denylist has denied knowing it. -/
theorem jwt_checked {jwt : JwtService} {now : Int} {token : String} {n : Nat}
    {b : Backends Query Query.Answer} {principal : Principal}
    (h : (run b n (jwtTokenResolver jwt now token)).2 = .returned (some principal)) :
    ∃ v, jwt.verify now token (some .access) = .ok (some v) ∧
      (run b n (jwtTokenResolver jwt now token)).1 = [.contains v.jti] ∧
      b.answer n (.contains v.jti) = false := by
  unfold jwtTokenResolver at h ⊢
  by_cases hdots : token.toList.count '.' = 2
  · simp only [hdots, ne_eq, not_true_eq_false, if_false] at h ⊢
    cases hv : jwt.verify now token (some .access) with
    | error message => simp [hv, run] at h
    | ok verified =>
      cases verified with
      | none => simp [hv, run] at h
      | some v =>
        simp only [hv, run] at h ⊢
        split at h
        · cases h
        · rename_i hup
          refine ⟨v, rfl, by simp [hup], ?_⟩
          cases hlisted : b.answer n (.contains v.jti) with
          | false => rfl
          | true => simp [hlisted] at h
  · simp [hdots, run] at h

/-- `_ANON`. -/
def anonymous : Principal := ⟨.unknown, "anonymous", none⟩

/-- What comes of `authenticate_request`. -/
inductive Authentication where
  | attached (principal : Principal)
  | raised (message : String)
  deriving DecidableEq

def authenticateRequest (resolvers : List Resolver) (r : Request)
    (b : Backends Query Query.Answer) : Authentication :=
  match extractToken r with
  | none => .attached anonymous
  | some token => match (run b 0 (compositeTokenResolver resolvers token)).2 with
    | .unavailable => .attached anonymous
    | .raised message => .raised message
    | .returned none => .attached anonymous
    | .returned (some principal) => .attached principal

/-- The chain, with the place of the resolver that wins. -/
def wonBy : List Resolver → String → Prog Query Query.Answer (Option (Nat × Principal))
  | [], _ => .done none
  | resolver :: resolvers, token => (resolver token).bind fun
      | some principal => .done (some (0, principal))
      | none => (wonBy resolvers token).map (Option.map fun w => (w.1 + 1, w.2))

/-- The composite resolver, without the place of the winner. -/
theorem composite_eq (resolvers : List Resolver) (token : String) :
    compositeTokenResolver resolvers token = (wonBy resolvers token).map (Option.map Prod.snd) := by
  induction resolvers with
  | nil => rfl
  | cons resolver resolvers ih =>
    simp only [compositeTokenResolver, wonBy, map_bind]
    congr 1
    funext found
    cases found with
    | some principal => rfl
    | none =>
      have hg : (Option.map Prod.snd ∘ Option.map fun w : Nat × Principal => (w.1 + 1, w.2)) =
          Option.map Prod.snd := by
        funext w
        cases w <;> rfl
      rw [map_map, hg]
      exact ih

/-- The winner's questions are the last ones of the chain. -/
theorem wonBy_run {resolvers : List Resolver} {token : String} {n place : Nat}
    {b : Backends Query Query.Answer} {principal : Principal}
    (h : (run b n (wonBy resolvers token)).2 = .returned (some (place, principal))) :
    ∃ resolver before, resolvers[place]? = some resolver ∧
      (run b (n + before.length) (resolver token)).2 = .returned (some principal) ∧
      (run b n (wonBy resolvers token)).1 =
        before ++ (run b (n + before.length) (resolver token)).1 := by
  induction resolvers generalizing n place with
  | nil => cases h
  | cons resolver resolvers ih =>
    obtain ⟨found, hfound, hrest, hasked⟩ := run_bind h
    cases found with
    | some winner =>
      cases hrest
      refine ⟨resolver, [], rfl, hfound, ?_⟩
      rw [wonBy, hasked]
      simp [run]
    | none =>
      simp only [run_map] at hrest hasked
      cases ho : (run b (n + (run b n (resolver token)).1.length) (wonBy resolvers token)).2 with
      | unavailable =>
        rw [ho] at hrest
        cases hrest
      | raised message =>
        rw [ho] at hrest
        cases hrest
      | returned won =>
        rw [ho] at hrest
        cases won with
        | none => cases hrest
        | some won =>
          cases hrest
          obtain ⟨winner, before, hplace, hwon, hlast⟩ := ih ho
          refine ⟨winner, (run b n (resolver token)).1 ++ before, hplace, ?_, ?_⟩
          · rwa [List.length_append, ← Nat.add_assoc]
          · rw [wonBy, hasked, hlast, List.length_append, Nat.add_assoc, List.append_assoc]

/-- With backends failing in any way, a request gets the anonymous principal or the one it
gets with all of them healthy, from the same resolver and after the same questions. If that
is the resolver of JWTs, the denylist was asked about the token and denied knowing it. -/
theorem outage_fails_closed (resolvers : List Resolver) (r : Request)
    (b : Backends Query Query.Answer) {principal : Principal}
    (h : authenticateRequest resolvers r b = .attached principal) :
    principal = anonymous ∨
      authenticateRequest resolvers r b.healthy = .attached principal ∧
      ∃ token place, extractToken r = some token ∧
        run b 0 (wonBy resolvers token) = run b.healthy 0 (wonBy resolvers token) ∧
        (run b 0 (wonBy resolvers token)).2 = .returned (some (place, principal)) ∧
        ∀ jwt now, resolvers[place]? = some (jwtTokenResolver jwt now) →
          ∃ v n, jwt.verify now token (some .access) = .ok (some v) ∧
            (run b 0 (wonBy resolvers token)).1[n]? = some (.contains v.jti) ∧
            b.answer n (.contains v.jti) = false := by
  simp only [authenticateRequest] at h ⊢
  cases ht : extractToken r with
  | none =>
    rw [ht] at h
    cases h
    exact .inl rfl
  | some token =>
    rw [ht] at h
    simp only [composite_eq, run_map] at h ⊢
    rcases run_healthy (b := b) 0 (wonBy resolvers token) with hu | he
    · rw [hu] at h
      cases h
      exact .inl rfl
    · cases ho : (run b 0 (wonBy resolvers token)).2 with
      | unavailable =>
        rw [ho] at h
        cases h
        exact .inl rfl
      | raised message =>
        rw [ho] at h
        cases h
      | returned found =>
        rw [ho] at h
        cases found with
        | none =>
          cases h
          exact .inl rfl
        | some w =>
          cases h
          right
          refine ⟨?_, token, w.1, rfl, he, ho, fun jwt now hjwt => ?_⟩
          · rw [← he, ho]
            rfl
          · obtain ⟨resolver, before, hplace, hwon, hlast⟩ := wonBy_run ho
            obtain rfl : jwtTokenResolver jwt now = resolver :=
              Option.some.inj (hjwt.symm.trans hplace)
            obtain ⟨v, hverify, hasked, hanswer⟩ := jwt_checked hwon
            rw [Nat.zero_add] at hlast hasked hanswer
            refine ⟨v, before.length, hverify, ?_, hanswer⟩
            rw [hlast, hasked]
            simp

/-- Nothing can be asked. -/
def allDown : Backends Query Query.Answer where
  answer _ q := match q with
    | .contains _ => false
    | .findActiveByHash _ => none
  fails _ _ := true

/-- The static token behind a resolver that would ask Postgres. -/
def staticBehindKeys : List Resolver := [apiKeyResolver id, staticTokenResolver id (some "s3cret")]

def staticRequest : Request := ⟨"/", some "Bearer s3cret", none⟩

theorem static_token_wins_in_outage :
    authenticateRequest staticBehindKeys staticRequest allDown.healthy =
      .attached ⟨.admin, "s3cret", none⟩ := by
  have hdown : authenticateRequest staticBehindKeys staticRequest allDown =
      .attached ⟨.admin, "s3cret", none⟩ := by decide +kernel
  rcases outage_fails_closed _ _ _ hdown with hanon | ⟨hup, _⟩
  · exact absurd hanon (by decide)
  · exact hup

end BackendTemplates.Auth
