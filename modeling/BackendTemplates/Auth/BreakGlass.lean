import BackendTemplates.Auth.Resolvers

namespace BackendTemplates.Auth
open Python Queries

inductive AppEnv where
  | dev
  | prod
  deriving DecidableEq

/-- The settings that `RootConfig` checks, with the token that `AuthConfig` loads. -/
structure RootConfig where
  appEnv : AppEnv
  adminToken : Option String
  csrfSecret : Option String

/-- A setting is there and is not blank. -/
def isSet (value : Option String) : Bool :=
  value.any (fun text => strip isSpace text.toList != [])

/-- `_validate_prod_invariants`. -/
def RootConfig.validateProdInvariants (cfg : RootConfig) : Except String Unit :=
  if cfg.appEnv = .prod then
    if isSet cfg.adminToken = false then .error "AUTH_ADMIN_TOKEN must be set when APP_ENV=prod"
    else if isSet cfg.csrfSecret = false then .error "CSRF_SECRET must be set when APP_ENV=prod"
    else .ok ()
  else .ok ()

/-- The chain of `AuthProvider`. -/
def tokenResolvers (jwt : JwtService) (now : Int) (sha256 : String → String)
    (adminToken : Option String) : List Resolver :=
  [jwtTokenResolver jwt now, apiKeyResolver sha256, staticTokenResolver sha256 adminToken]

def Printable (token : String) : Prop := ∀ c ∈ token.toList, 32 ≤ c.toNat ∧ c.toNat ≤ 126

instance (token : String) : Decidable (Printable token) :=
  decidable_of_iff (token.toList.all (fun c => 32 ≤ c.toNat && c.toNat ≤ 126) = true)
    (by simp [Printable])

theorem lineGroup_eq {cs : List Char} (hne : cs ≠ []) (hline : '\n' ∉ cs) :
    lineGroup cs = some cs := by
  have htake : cs.takeWhile (· != '\n') = cs := by
    apply List.takeWhile_eq_self_iff.mpr
    intro c hc
    apply bne_iff_ne.mpr
    rintro rfl
    exact hline hc
  simp [lineGroup, htake, hne]

/-- The group of a header of one line is the token without the whitespace before it. -/
theorem bearerMatch_eq {cs : List Char} (hne : cs.dropWhile isSpace ≠ []) (hline : '\n' ∉ cs) :
    bearerMatch ("Bearer ".toList ++ cs) = some (cs.dropWhile isSpace) := by
  have hdrop : cs.drop (cs.takeWhile isSpace).length = cs.dropWhile isSpace := by
    calc cs.drop (cs.takeWhile isSpace).length
        = (cs.takeWhile isSpace ++ cs.dropWhile isSpace).drop (cs.takeWhile isSpace).length := by
          rw [List.takeWhile_append_dropWhile]
      _ = cs.dropWhile isSpace := List.drop_left
  have hword : (("Bearer ".toList ++ cs).take 6).map Char.toLower =
      ['b', 'e', 'a', 'r', 'e', 'r'] := by rfl
  have hrest : ("Bearer ".toList ++ cs).drop 6 = ' ' :: cs := rfl
  have hspace : isSpace ' ' = true := by decide
  have hgroup : lineGroup (cs.dropWhile isSpace) = some (cs.dropWhile isSpace) := by
    apply lineGroup_eq hne
    intro hmem
    exact hline ((List.dropWhile_suffix isSpace).subset hmem)
  simp only [bearerMatch, hword, hrest, if_true, List.takeWhile_cons, hspace, List.length_cons,
    afterSpaces, List.drop_succ_cons, hdrop, hgroup]

theorem bearerToken_eq {token : String} (hline : '\n' ∉ token.toList)
    (hset : strip isSpace token.toList ≠ []) :
    bearerToken (some ("Bearer " ++ token)) =
      if token.toList.length ≤ maxTokenLen + 9 ∧
          (strip isSpace token.toList).length ≤ maxTokenLen then
        some (String.ofList (strip isSpace token.toList))
      else none := by
  have hgroup := bearerMatch_eq (dropWhile_ne_nil_of_strip hset) hline
  have hlen : ("Bearer ".toList ++ token.toList).length = token.toList.length + 7 := by
    rw [List.length_append, Nat.add_comm]
    rfl
  simp only [bearerToken, Option.bind_eq_bind, Option.bind_some, String.toList_append, hlen,
    hgroup, strip_dropWhile, ne_eq, hset, not_false_eq_true, true_and]
  by_cases hlong : maxTokenLen + 16 < token.toList.length + 7
  · have hno : ¬ token.toList.length ≤ maxTokenLen + 9 := by omega
    rw [if_pos hlong, if_neg (fun h => hno h.1)]
  · have hfits : token.toList.length ≤ maxTokenLen + 9 := by omega
    rw [if_neg hlong]
    simp only [hfits, true_and]

/-- The header hands on the token as it is, if it fits and nothing is stripped off it. -/
theorem bearerToken_self_iff {token : String} (hline : '\n' ∉ token.toList)
    (hset : strip isSpace token.toList ≠ []) :
    bearerToken (some ("Bearer " ++ token)) = some token ↔
      token.toList.length ≤ maxTokenLen ∧ strip isSpace token.toList = token.toList := by
  rw [bearerToken_eq hline hset]
  constructor
  · intro h
    obtain ⟨hfits, he⟩ := Option.ite_none_right_eq_some.mp h
    have hstrip : strip isSpace token.toList = token.toList := by
      have hchars := congrArg String.toList (Option.some.inj he)
      rwa [String.toList_ofList] at hchars
    rw [hstrip] at hfits
    exact ⟨hfits.2, hstrip⟩
  · intro h
    obtain ⟨hlen, hstrip⟩ := h
    have hfits : token.toList.length ≤ maxTokenLen + 9 := by omega
    rw [hstrip, if_pos ⟨hfits, hlen⟩, String.ofList_toList]

section
variable {jwt : JwtService} {now : Int} {sha256 : String → String} {token adminToken : String}

theorem jwt_passes
    (hjwt : token.toList.count '.' = 2 → jwt.verify now token (some .access) = .ok none) :
    jwtTokenResolver jwt now token = .done none := by
  unfold jwtTokenResolver
  by_cases hdots : token.toList.count '.' = 2
  · simp [hdots, hjwt hdots]
  · simp [hdots]

/-- A token that no resolver before it takes reaches the static one. -/
theorem composite_static (hak : startswith token apiKeyPrefix = false)
    (hjwt : token.toList.count '.' = 2 → jwt.verify now token (some .access) = .ok none) :
    compositeTokenResolver (tokenResolvers jwt now sha256 (some adminToken)) token =
      (staticTokenResolver sha256 (some adminToken) token).bind fun
        | some principal => .done (some principal)
        | none => .done none := by
  have hfirst := @jwt_passes jwt now token hjwt
  have hsecond : apiKeyResolver sha256 token = .done none := by simp [apiKeyResolver, hak]
  simp only [tokenResolvers, compositeTokenResolver, hfirst, hsecond]
  rfl

/-- With all backends down only the static token gets a principal, and only if no resolver
before it asks. -/
theorem composite_allDown {principal : Principal}
    (h : (run allDown 0 (compositeTokenResolver
      (tokenResolvers jwt now sha256 (some adminToken)) token)).2 = .returned (some principal)) :
    token = adminToken ∧ startswith token apiKeyPrefix = false ∧
      (token.toList.count '.' = 2 → jwt.verify now token (some .access) = .ok none) := by
  have hjwt : token.toList.count '.' = 2 → jwt.verify now token (some .access) = .ok none := by
    intro hdots
    simp only [tokenResolvers, compositeTokenResolver, jwtTokenResolver, hdots, ne_eq,
      not_true_eq_false, if_false] at h
    cases hv : jwt.verify now token (some .access) with
    | error message => simp [hv, Prog.bind, run] at h
    | ok verified =>
      cases verified with
      | none => rfl
      | some v => simp [hv, Prog.bind, run, allDown] at h
  have hfirst := @jwt_passes jwt now token hjwt
  have hak : startswith token apiKeyPrefix = false := by
    by_contra hx
    simp [tokenResolvers, compositeTokenResolver, hfirst, apiKeyResolver, hx, Prog.bind, run,
      allDown] at h
  refine ⟨?_, hak, hjwt⟩
  rw [composite_static hak hjwt] at h
  by_contra hne
  have hbytes : utf8 token ≠ utf8 adminToken := fun he => hne (utf8_injective he)
  by_cases hempty : adminToken = ""
  · simp [staticTokenResolver, hempty, Prog.bind, run] at h
  · simp [staticTokenResolver, hempty, hbytes, Prog.bind, run] at h

/-- A request that becomes an admin while all backends are down has the admin token in its
header. -/
theorem admin_allDown {header : String} {principal : Principal}
    (h : authenticateRequest (tokenResolvers jwt now sha256 (some adminToken))
      ⟨"/", some header, none⟩ allDown = .attached principal) (hrole : principal.role = .admin) :
    bearerToken (some header) = some adminToken ∧ startswith adminToken apiKeyPrefix = false ∧
      (adminToken.toList.count '.' = 2 →
        jwt.verify now adminToken (some .access) = .ok none) := by
  simp only [authenticateRequest, extractToken] at h
  cases hb : bearerToken (some header) with
  | none =>
    simp only [hb, cookieToken, Option.bind_eq_bind, Option.bind_none] at h
    cases h
    cases hrole
  | some token =>
    simp only [hb] at h
    split at h
    · cases h
      cases hrole
    · cases h
    · cases h
      cases hrole
    · rename_i hrun
      obtain ⟨rfl, hak, hjwt⟩ := composite_allDown hrun
      exact ⟨rfl, hak, hjwt⟩

/-- The static token asks nothing. -/
theorem admin_static (hne : adminToken ≠ "") (hak : startswith adminToken apiKeyPrefix = false)
    (hjwt : adminToken.toList.count '.' = 2 →
      jwt.verify now adminToken (some .access) = .ok none) {r : Request}
    (htoken : bearerToken r.authorization = some adminToken)
    (b : Backends Query Query.Answer) :
    ∃ principal, authenticateRequest (tokenResolvers jwt now sha256 (some adminToken)) r b =
      .attached principal ∧ principal.role = .admin := by
  simp only [authenticateRequest, extractToken, htoken, composite_static hak hjwt,
    staticTokenResolver, hne, ne_eq, not_true_eq_false, if_false, Prog.bind, run]
  exact ⟨_, rfl, rfl⟩

end

/-- The admin token authenticates as an admin whatever the backends do, if and only if it
fits, has no whitespace at its ends, and has the shape of no other credential. -/
theorem break_glass_iff {cfg : RootConfig} {token : String} (hprod : cfg.appEnv = .prod)
    (haccepted : cfg.validateProdInvariants = .ok ()) (hadmin : cfg.adminToken = some token)
    (hprint : Printable token) (jwt : JwtService) (now : Int) (sha256 : String → String) :
    (∀ path cookie b, ∃ principal, authenticateRequest
      (tokenResolvers jwt now sha256 cfg.adminToken)
        ⟨path, some ("Bearer " ++ token), cookie⟩ b = .attached principal ∧
          principal.role = .admin) ↔
      token.toList.length ≤ maxTokenLen ∧ strip isSpace token.toList = token.toList ∧
        startswith token apiKeyPrefix = false ∧
        (token.toList.count '.' = 2 → jwt.verify now token (some .access) = .ok none) := by
  have hline : '\n' ∉ token.toList := by
    intro hmem
    have hx := (hprint _ hmem).1
    exact absurd hx (by decide)
  have hset : strip isSpace token.toList ≠ [] := by
    intro hblank
    simp [RootConfig.validateProdInvariants, hprod, hadmin, isSet, hblank] at haccepted
  have hself := bearerToken_self_iff hline hset
  have hnonempty : token ≠ "" := by
    rintro rfl
    exact hset rfl
  rw [hadmin]
  constructor
  · intro h
    obtain ⟨principal, ha, hrole⟩ := h "/" none allDown
    obtain ⟨htoken, hak, hjwt⟩ := admin_allDown ha hrole
    obtain ⟨hlen, hstrip⟩ := hself.mp htoken
    exact ⟨hlen, hstrip, hak, hjwt⟩
  · intro h path cookie b
    obtain ⟨hlen, hstrip, hak, hjwt⟩ := h
    apply admin_static hnonempty hak hjwt
    exact hself.mpr ⟨hlen, hstrip⟩

/-- A service without a signing secret. -/
def jwtDisabled : JwtService := ⟨fun _ => .ok none, fun _ => none, "litestar-base", 900, 1209600⟩

def hexTokenConfig : RootConfig := ⟨.prod, some "6f1ed002ab5595859014ebf0951522d9", some "csrf"⟩

theorem hex_token_is_admin : ∃ principal, authenticateRequest
    (tokenResolvers jwtDisabled 0 (fun _ => "2bb80d53") hexTokenConfig.adminToken)
      ⟨"/", some ("Bearer " ++ "6f1ed002ab5595859014ebf0951522d9"), none⟩ allDown =
        .attached principal ∧ principal.role = .admin := by
  have hprod : hexTokenConfig.appEnv = .prod := rfl
  apply (break_glass_iff hprod (by decide) rfl (by decide) jwtDisabled 0 _).mpr
  refine ⟨by decide, by decide, by decide, fun _ => rfl⟩

/-- An admin token of the shape of an API key, while Postgres is down. -/
theorem api_key_shaped_token_is_rejected : ¬ ∀ (cfg : RootConfig) (token : String),
    cfg.appEnv = .prod → cfg.validateProdInvariants = .ok () → cfg.adminToken = some token →
    Printable token → ∀ (jwt : JwtService) (now : Int) (sha256 : String → String) path cookie b,
      ∃ principal, authenticateRequest (tokenResolvers jwt now sha256 cfg.adminToken)
        ⟨path, some ("Bearer " ++ token), cookie⟩ b = .attached principal ∧
          principal.role = .admin := by
  intro hall
  obtain ⟨principal, ha, hrole⟩ := hall ⟨.prod, some "ak_root", some "csrf"⟩ "ak_root" rfl
    (by decide) rfl (by decide) jwtDisabled 0 (fun _ => "2bb80d53") "/" none allDown
  have hanon : authenticateRequest
      (tokenResolvers jwtDisabled 0 (fun _ => "2bb80d53") (some "ak_root"))
        ⟨"/", some ("Bearer " ++ "ak_root"), none⟩ allDown = .attached anonymous := by
    decide +kernel
  rw [hanon] at ha
  cases ha
  cases hrole

end BackendTemplates.Auth
