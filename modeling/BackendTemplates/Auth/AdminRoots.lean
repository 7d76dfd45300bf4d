import BackendTemplates.Auth.Revocation
import BackendTemplates.Auth.Lifecycle
import BackendTemplates.Auth.Surface

namespace BackendTemplates.Auth.Facade
open Python Runs

section
variable {f : AuthFacade} {i : Nat} {w w' : World} {k k' : Call} {a : Act}

/-- A pair is new with the call that has issued it, and a minted one with a call that
begins. -/
theorem Turn.issued (h : Turn f i w k a w' k') : ∀ r ∈ w'.issued, r ∈ w.issued ∨
    r.client = i ∧ k' = .paired (some r) ∧ (r.origin = .mint → k = .idle) := by
  have log {r : Issued} {origin : Origin} (ho : r.origin = origin) (hi : r.client = i)
      (hk : k' = .paired (some r)) (hm : origin = .mint → k = .idle) :
      ∀ x ∈ (w.log r).issued, x ∈ w.issued ∨
        x.client = i ∧ k' = .paired (some x) ∧ (x.origin = .mint → k = .idle) := by
    intro x hx
    rcases List.mem_cons.mp hx with rfl | hx
    · exact .inr ⟨hi, hk, fun hx => hm (ho ▸ hx)⟩
    · exact .inl hx
  cases h with
  | loggedIn _ pair =>
    have he := issuePair_eq pair
    exact log (by rw [he]) (by rw [he]) rfl (fun h => by cases h)
  | minted _ pair =>
    have he := issuePair_eq pair
    exact log (by rw [he]) (by rw [he]) rfl (fun _ => rfl)
  | rotated _ pair =>
    have he := issuePair_eq pair
    exact log (by rw [he]) (by rw [he]) rfl (fun h => by cases h)
  | _ => exact fun _ hx => .inl hx

/-- Registration gives every account the role of a user. -/
def UserRoles (w : World) : Prop := ∀ row ∈ w.users, row.role = .user

def InsertsUser : Call → Prop
  | .inserted row _ => row.role = .user ∧ row.deletedAt = none
  | _ => True

theorem Call.Inert.insertsUser (h : k.Inert) : InsertsUser k := by
  unfold Call.Inert at h
  split at h <;> first | exact h.elim | trivial

theorem Turn.userRoles (h : Turn f i w k a w' k') (hw : UserRoles w) (hk : InsertsUser k) :
    UserRoles w' ∧ InsertsUser k' := by
  cases h with
  | quiet inert => exact ⟨hw, inert.insertsUser⟩
  | inserted => exact ⟨hw, rfl, rfl⟩
  | committed result =>
    refine ⟨?_, by rcases result with rfl | ⟨_, rfl⟩ <;> trivial⟩
    intro row hrow
    rcases List.mem_cons.mp hrow with rfl | hrow
    · exact hk.1
    · exact hw row hrow
  | deactivated result =>
    constructor
    · intro row hrow
      obtain ⟨old, hold, rfl⟩ := List.mem_map.mp hrow
      rw [deleteAt_role]
      exact hw old hold
    · rcases result with ⟨rfl, -⟩ | inert
      · trivial
      · exact inert.insertsUser
  | _ => exact ⟨hw, trivial⟩

theorem deactivating_begins {user : Uuid} (h : step f i w k a = some (w', .deactivating user)) :
    k = .idle ∧ a = .deactivate user := by
  simp only [step, Option.orElse_eq_some] at h
  rcases h with h | ⟨-, h | ⟨-, h | ⟨-, h | ⟨-, h | ⟨-, h | ⟨-, h⟩⟩⟩⟩⟩⟩
  · unfold register at h
    repeat' split at h
    all_goals simp at h
  · unfold login at h
    repeat' split at h
    all_goals simp at h
  · unfold issueTokens at h
    repeat' split at h
    all_goals simp at h
  · unfold resolve at h
    repeat' split at h
    all_goals simp at h
  · unfold refresh at h
    repeat' split at h
    all_goals simp at h
  · unfold revoke at h
    repeat' split at h
    all_goals simp at h
  · unfold deactivate at h
    repeat' split at h
    all_goals simp at h
    exact ⟨rfl, congrArg Act.deactivate h.2⟩

/-- A row is deleted by a deactivation of its user. -/
theorem Turn.deleted (h : Turn f i w k a w' k') (hk : InsertsUser k) : ∀ row ∈ w'.users,
    row.deletedAt ≠ none → row ∈ w.users ∨ k = .deactivating row.id := by
  intro row hrow hd
  cases h with
  | committed result =>
    rcases List.mem_cons.mp hrow with rfl | hrow
    · exact absurd hk.2 hd
    · exact .inl hrow
  | deactivated result =>
    obtain ⟨old, hold, rfl⟩ := List.mem_map.mp hrow
    unfold UserRow.deleteAt at hd ⊢
    split
    · rename_i hmatch
      rw [← hmatch.1]
      exact .inr rfl
    · exact .inl hold
  | _ => exact .inl hrow

theorem userRoles_of_reaches {now : Int} {as : List Action} {s : State}
    (h : (pool f (.initial now [])).machine.Reaches as s) :
    Pool.Good UserRoles (fun _ _ k => InsertsUser k) s := by
  refine Pool.good_of_reaches
    ⟨fun _ hrow => absurd hrow List.not_mem_nil, fun _ => ?_⟩ ?_ ?_ h
  · trivial
  · intro s i a w k hg hw
    obtain ⟨hroles, hk⟩ := hg
    obtain ⟨hroles', hk'⟩ := (step_turn hw).userRoles hroles (hk i)
    exact ⟨hroles', hk', fun j _ => hk j⟩
  · intro s e w hg hw
    obtain ⟨hroles, hk⟩ := hg
    rw [env_frame hw]
    exact ⟨hroles, hk⟩

/-- The pair comes, through refreshes, from this one. -/
inductive Descends (w : World) : Issued → Issued → Prop where
  | self {r : Issued} : Descends w r r
  | refresh {r parent first : Issued} (origin : r.origin = .refresh parent.pair.refresh)
      (issued : parent ∈ w.issued) (descends : Descends w parent first) : Descends w r first

theorem Descends.mono {r first : Issued} (h : Descends w r first)
    (hi : ∀ r ∈ w.issued, r ∈ w'.issued) : Descends w' r first := by
  induction h with
  | self => exact .self
  | refresh origin issued _ ih => exact .refresh origin (hi _ issued) ih

/-- Where no account has an admin's role, an admin's pair comes from a minted one. -/
theorem Root.minted {r : Issued} {role : Role} {subject : Option String}
    (hf : ∀ r ∈ w.issued, Faithful f w r) (hu : UserRoles w) (h : Root w r role subject)
    (hr : r ∈ w.issued) (hrole : role = .admin) :
    ∃ first ∈ w.issued, first.origin = .mint ∧ Descends w r first := by
  induction h with
  | login origin =>
    obtain ⟨⟨row, hrow, -, hsame⟩, -, -⟩ := (hf _ hr).login _ origin
    rw [hrole, hu row hrow] at hsame
    cases hsame
  | mint origin => exact ⟨_, hr, origin, .self⟩
  | refresh origin issued _ ih =>
    obtain ⟨first, hfirst, hmint, hd⟩ := ih issued hrole
    exact ⟨first, hfirst, hmint, .refresh origin issued hd⟩

end
end BackendTemplates.Auth.Facade

namespace BackendTemplates.Auth.Surface
open Python Runs Queries

/-- An admin, by this token, is behind the guard of the endpoint. -/
def State.Admin (s : State) (i : Nat) (e : Endpoint) (token : String) : Prop :=
  ∃ user work, s.requests i = .admitted e (some token) user work ∧ user.role = .admin

/-- The token is the static one, or stands for a key or a pair that an admin has been given
by a request with such a token. -/
inductive Rooted (cfg : Config) (s : State) : String → Prop where
  | static {token : String} (configured : cfg.adminToken = some token) (set : token ≠ "") :
      Rooted cfg s token
  | key {g : Grant} {name parent token : String} (granted : g ∈ s.grants)
      (hash : cfg.sha256 token = cfg.sha256 g.plaintext)
      (request : s.Admin g.client (.createKey name) parent) (root : Rooted cfg s parent) :
      Rooted cfg s token
  | pair {r first : Facade.Issued} {parent : String} (issued : r ∈ s.facade.world.issued)
      (descends : Facade.Descends s.facade.world r first)
      (request : s.Admin first.client .issue parent) (root : Rooted cfg s parent) :
      Rooted cfg s r.pair.access

/-- The codec decodes the tokens that it has encoded, and no others. -/
def Genuine (cfg : Config) (s : State) : Action → Prop
  | .arrive _ r _ => ∀ token ∈ extractToken r, cfg.facade.jwt.accepts token = true →
      token ∈ s.facade.world.tokens
  | .signIn _ field => cfg.facade.jwt.accepts (String.ofList (strip isSpace field.toList)) = true →
      String.ofList (strip isSpace field.toList) ∈ s.facade.world.tokens
  | .work i a => Facade.Genuine cfg.facade s.facade (.act i a)
  | _ => True

instance (cfg : Config) (s : State) : ∀ a, Decidable (Genuine cfg s a)
  | .arrive _ r _ => inferInstanceAs (Decidable (∀ token ∈ extractToken r, _))
  | .signIn _ _ => inferInstanceAs (Decidable (_ → _))
  | .work i a => inferInstanceAs (Decidable (Facade.Genuine cfg.facade s.facade (.act i a)))
  | .answer _ | .resume _ | .outage _ | .insertKey _ _ _ _ _ | .listKeys _ | .deleteKey _ _ _
  | .failKeys _ _ | .env _ => isTrue trivial

/-- Grants and pairs stay on record, and requests admitted. -/
structure Later (s t : State) : Prop where
  issued : ∀ r ∈ s.facade.world.issued, r ∈ t.facade.world.issued
  grants : ∀ g ∈ s.grants, g ∈ t.grants
  admin : ∀ i e token, s.Admin i e token → t.Admin i e token

/-- A key the table finds was given to an admin whose token is rooted. -/
def Truthful (cfg : Config) (s : State) : (q : Query) → q.Answer → Prop
  | .contains _, _ => True
  | .findActiveByHash _, none => True
  | .findActiveByHash keyHash, some _ => ∃ g ∈ s.grants, cfg.sha256 g.plaintext = keyHash ∧
      ∃ name parent, s.Admin g.client (.createKey name) parent ∧ Rooted cfg s parent

/-- The resolvers go on to an admin only if the token is rooted. -/
def Promising (cfg : Config) (s : State) (token : String) (rest : Authenticating) : Prop :=
  ∀ t, Later s t → rest.All (Truthful cfg t)
    (fun principal => ∀ user ∈ principal, user.role = .admin → Rooted cfg t token)

def Sound (cfg : Config) (s : State) : Phase → Prop
  | .authenticating _ token rest => Promising cfg s token rest
  | .resuming _ token rest => ∀ r ∈ rest, Promising cfg s token r
  | .signingIn token rest => Promising cfg s token rest
  | .resumingSignIn token rest => ∀ r ∈ rest, Promising cfg s token r
  | .admitted e token user _ => (∀ roles, e.roles = some roles → user.role ∈ roles) ∧
      (user.role = .admin → ∃ text, token = some text ∧ Rooted cfg s text)
  | .signedIn token => Rooted cfg s token
  | _ => True

/-- An admin is behind every key and its end, every minted pair and every deactivation. -/
structure Accounted (cfg : Config) (s : State) : Prop where
  rows : ∀ row ∈ s.keys, ∃ g ∈ s.grants, row.keyHash = cfg.sha256 g.plaintext
  grants : ∀ g ∈ s.grants, ∃ name token, s.Admin g.client (.createKey name) token
  revoked : ∀ row ∈ s.keys, row.deletedAt ≠ none → ∃ i token, s.Admin i (.revokeKey row.id) token
  minted : ∀ r ∈ s.facade.world.issued, r.origin = .mint →
    ∃ token, s.Admin r.client .issue token
  deactivating : ∀ i user, s.facade.clients i = .deactivating user →
    ∃ token, s.Admin i (.deactivate user) token
  deactivated : ∀ row ∈ s.facade.world.users, row.deletedAt ≠ none →
    ∃ i token, s.Admin i (.deactivate row.id) token
  requests : ∀ i, Sound cfg s (s.requests i)

section
variable {cfg : Config} {s t u : State} {token : String} {rest : Authenticating}

theorem Later.refl (s : State) : Later s s := ⟨fun _ h => h, fun _ h => h, fun _ _ _ h => h⟩

theorem Later.trans (h : Later s t) (h' : Later t u) : Later s u where
  issued r hr := h'.issued r (h.issued r hr)
  grants g hg := h'.grants g (h.grants g hg)
  admin i e token ha := h'.admin i e token (h.admin i e token ha)

theorem Rooted.mono (h : Rooted cfg s token) (hl : Later s t) : Rooted cfg t token := by
  induction h with
  | static configured set => exact .static configured set
  | key granted hash request _ ih =>
    exact .key (hl.grants _ granted) hash (hl.admin _ _ _ request) ih
  | pair issued descends request _ ih =>
    exact .pair (hl.issued _ issued) (descends.mono hl.issued) (hl.admin _ _ _ request) ih

theorem Promising.mono (h : Promising cfg s token rest) (hl : Later s t) :
    Promising cfg t token rest :=
  fun u hu => h u (hl.trans hu)

theorem Sound.mono {phase : Phase} (h : Sound cfg s phase) (hl : Later s t) :
    Sound cfg t phase := by
  cases phase with
  | authenticating e token rest => exact Promising.mono h hl
  | resuming e token rest => exact fun r hr => Promising.mono (h r hr) hl
  | signingIn token rest => exact Promising.mono h hl
  | resumingSignIn token rest => exact fun r hr => Promising.mono (h r hr) hl
  | admitted e token user work =>
    refine ⟨h.1, fun hadmin => ?_⟩
    obtain ⟨text, htext, hroot⟩ := h.2 hadmin
    exact ⟨text, htext, hroot.mono hl⟩
  | signedIn token => exact Rooted.mono h hl
  | _ => trivial

theorem Truthful.mono {q : Query} {answer : q.Answer} (h : Truthful cfg s q answer)
    (hl : Later s t) : Truthful cfg t q answer := by
  unfold Truthful at h ⊢
  split at h
  · trivial
  · trivial
  · obtain ⟨g, hg, hhash, name, parent, hadmin, hroot⟩ := h
    exact ⟨g, hl.grants g hg, hhash, name, parent, hl.admin _ _ _ hadmin, hroot.mono hl⟩

theorem Accounted.rooted (h : Accounted cfg s) {i : Nat} {e : Endpoint} (ha : s.Admin i e token) :
    Rooted cfg s token := by
  obtain ⟨user, work, hphase, hrole⟩ := ha
  have hsound := h.requests i
  rw [hphase] at hsound
  obtain ⟨text, htext, hroot⟩ := hsound.2 hrole
  obtain rfl := Option.some.inj htext
  exact hroot

/-- A chain keeps what each of its resolvers keeps. -/
theorem composite_all {A : (q : Query) → q.Answer → Prop} {P : Principal → Prop}
    {resolvers : List Resolver}
    (h : ∀ resolver ∈ resolvers, (resolver token).All A (fun found => ∀ user ∈ found, P user)) :
    (compositeTokenResolver resolvers token).All A (fun found => ∀ user ∈ found, P user) := by
  induction resolvers with
  | nil => simp [compositeTokenResolver, Prog.All]
  | cons resolver resolvers ih =>
    rw [List.forall_mem_cons] at h
    refine h.1.bind fun found hfound => ?_
    cases found with
    | none => exact ih h.2
    | some user => exact hfound

/-- A valid access token of an admin belongs to a chain that an admin has begun. -/
theorem rooted_of_verified (h : Accounted cfg s) (hd : s.facade.world.Decodes cfg.facade)
    (hf : ∀ r ∈ s.facade.world.issued, Facade.Faithful cfg.facade s.facade.world r)
    (hu : Facade.UserRoles s.facade.world)
    (hg : cfg.facade.jwt.accepts token = true → token ∈ s.facade.world.tokens)
    {v : VerifiedToken}
    (hv : cfg.facade.jwt.verify s.facade.world.now token (some .access) = .ok (some v))
    (hrole : v.role = .admin) : Rooted cfg s token := by
  have hp := Facade.presented_of_genuine hd hg hv
  obtain ⟨r, hr, htoken⟩ := hp.2
  obtain ⟨-, hsame, -⟩ := Facade.presented_claims hd hf hp hr htoken
  obtain ⟨first, hfirst, hmint, hdesc⟩ :=
    (hf r hr).root.minted hf hu hr (hsame.symm.trans hrole)
  obtain ⟨parent, hadmin⟩ := h.minted first hfirst hmint
  rw [← htoken]
  exact .pair hr hdesc hadmin (h.rooted hadmin)

theorem authenticate_promising (h : Accounted cfg s) (hd : s.facade.world.Decodes cfg.facade)
    (hf : ∀ r ∈ s.facade.world.issued, Facade.Faithful cfg.facade s.facade.world r)
    (hu : Facade.UserRoles s.facade.world)
    (hg : cfg.facade.jwt.accepts token = true → token ∈ s.facade.world.tokens) :
    Promising cfg s token (cfg.authenticate s token) := by
  intro t hl
  apply composite_all
  intro resolver hresolver
  simp only [tokenResolvers, List.mem_cons, List.not_mem_nil, or_false] at hresolver
  rcases hresolver with rfl | rfl | rfl
  · unfold jwtTokenResolver
    split
    · simp [Prog.All]
    split
    · trivial
    · simp [Prog.All]
    · rename_i v hv
      intro listed _ user huser hrole
      split at huser
      · cases huser
      · cases huser
        exact (rooted_of_verified h hd hf hu hg hv hrole).mono hl
  · unfold apiKeyResolver
    split
    · simp [Prog.All]
    · intro record hrecord user huser hrole
      cases record with
      | none => cases huser
      | some r =>
        obtain ⟨g, hgrant, hhash, name, parent, hadmin, hroot⟩ := hrecord
        exact .key hgrant hhash.symm hadmin hroot
  · unfold staticTokenResolver
    split
    · simp [Prog.All]
    split
    · simp [Prog.All]
    split
    · simp [Prog.All]
    · rename_i value hvalue hset hsame
      intro user _ _
      obtain rfl := utf8_injective (not_not.mp hsame)
      exact .static hvalue hset

theorem requireRole_ok {roles : List Role} {user : Principal}
    (h : requireRole roles user = .ok ()) : user.role ∈ roles := by
  unfold requireRole at h
  split at h
  · cases h
  split at h
  · cases h
  · exact not_not.mp ‹_›

theorem attach_sound {e : Endpoint} {presented : Option String} {user : Principal}
    (h : user.role = .admin → ∃ text, presented = some text ∧ Rooted cfg s text) :
    Sound cfg s (attach e presented user) := by
  unfold attach
  split
  · rename_i hnone
    exact ⟨fun roles hroles => by simp [hnone] at hroles, h⟩
  · rename_i roles hroles
    split
    · rename_i hok
      refine ⟨fun roles' hroles' => ?_, h⟩
      obtain rfl := Option.some.inj (hroles.symm.trans hroles')
      exact requireRole_ok hok
    · trivial

theorem advance_sound {e : Endpoint} (h : Promising cfg s token rest) :
    Sound cfg s (advance e token rest) := by
  unfold advance
  split
  · rename_i principal
    apply attach_sound
    intro hrole
    cases principal with
    | none => cases hrole
    | some user => exact ⟨token, rfl, h s (.refl s) user rfl hrole⟩
  · trivial
  · exact h

theorem advanceSignIn_sound (h : Promising cfg s token rest) :
    Sound cfg s (advanceSignIn token rest) := by
  unfold advanceSignIn
  split
  · trivial
  · rename_i user
    split
    · exact h s (.refl s) user rfl ‹_›
    · trivial
  · trivial
  · exact h

/-- Whoever is admitted stays so. -/
def Stays (phase phase' : Phase) : Prop := ∀ e token user work,
  phase = .admitted e token user work → ∃ work', phase' = .admitted e token user work'

theorem Turn.stays {a : Action} {phase phase' : Phase} (h : Turn cfg s a phase phase') :
    Stays phase phase' := by
  rintro e token user work rfl
  cases h
  exact ⟨_, rfl⟩

theorem admitted_stays {e : Endpoint} {presented : Option String} {user : Principal}
    {work work' : Work} :
    Stays (.admitted e presented user work) (.admitted e presented user work') := by
  intro _ _ _ _ he
  cases he
  exact ⟨work', rfl⟩

theorem later_put {i : Nat} {phase phase' : Phase} (now : s.requests i = phase)
    (h : Stays phase phase') {keys : List ApiKeyRow} {grants : List Grant}
    (hg : ∀ g ∈ s.grants, g ∈ grants) :
    Later s ({ s with keys := keys, grants := grants }.put i phase') where
  issued _ hr := hr
  grants := hg
  admin j e token ha := by
    obtain ⟨user, work, hphase, hrole⟩ := ha
    by_cases hj : j = i
    · subst hj
      obtain ⟨work', hstays⟩ := h e _ user work (now.symm.trans hphase)
      exact ⟨user, work', (Function.update_self ..).trans hstays, hrole⟩
    · exact ⟨user, work, by simpa [State.put, hj] using hphase, hrole⟩

theorem Accounted.put (h : Accounted cfg s) {i : Nat} {phase : Phase}
    {keys : List ApiKeyRow} {grants : List Grant}
    (hl : Later s ({ s with keys := keys, grants := grants }.put i phase))
    (hrows : ∀ row ∈ keys, ∃ g ∈ grants, row.keyHash = cfg.sha256 g.plaintext)
    (hrevoked : ∀ row ∈ keys, row.deletedAt ≠ none → ∃ i token, s.Admin i (.revokeKey row.id) token)
    (hgrants : ∀ g ∈ grants, g ∈ s.grants ∨ ∃ name token, s.Admin g.client (.createKey name) token)
    (hphase : Sound cfg s phase) :
    Accounted cfg ({ s with keys := keys, grants := grants }.put i phase) where
  rows := hrows
  grants g hg := by
    have hbefore : ∃ name token, s.Admin g.client (.createKey name) token := by
      rcases hgrants g hg with hold | hnew
      · exact h.grants g hold
      · exact hnew
    obtain ⟨name, token, hadmin⟩ := hbefore
    exact ⟨name, token, hl.admin _ _ _ hadmin⟩
  revoked row hrow hd := by
    obtain ⟨j, token, hadmin⟩ := hrevoked row hrow hd
    exact ⟨j, token, hl.admin _ _ _ hadmin⟩
  minted r hr ho := by
    obtain ⟨token, hadmin⟩ := h.minted r hr ho
    exact ⟨token, hl.admin _ _ _ hadmin⟩
  deactivating j user hj := by
    obtain ⟨token, hadmin⟩ := h.deactivating j user hj
    exact ⟨token, hl.admin _ _ _ hadmin⟩
  deactivated row hrow hd := by
    obtain ⟨j, token, hadmin⟩ := h.deactivated row hrow hd
    exact ⟨j, token, hl.admin _ _ _ hadmin⟩
  requests j := by
    by_cases hj : j = i
    · subst hj
      simpa [State.put] using hphase.mono hl
    · simpa [State.put, hj] using (h.requests j).mono hl

/-- The answers of the backends are truthful. -/
theorem Accounted.truthful (h : Accounted cfg s) {q : Query} {answer : q.Answer}
    (ha : s.answer q = some answer) : Truthful cfg s q answer := by
  unfold Truthful
  split
  · trivial
  · trivial
  · rename_i keyHash record
    simp only [State.answer, findActiveByHash] at ha
    split at ha
    · cases ha
    · rename_i row hone
      have hmem : row ∈ s.keys.filter (ApiKeyRow.activeWith keyHash) := by simp [hone]
      obtain ⟨hrow, hactive⟩ := List.mem_filter.mp hmem
      simp only [ApiKeyRow.activeWith, Bool.and_eq_true, beq_iff_eq] at hactive
      obtain ⟨g, hg, hhash⟩ := h.rows row hrow
      obtain ⟨name, parent, hadmin⟩ := h.grants g hg
      exact ⟨g, hg, hhash.symm.trans hactive.1, name, parent, hadmin, h.rooted hadmin⟩
    · cases ha

/-- A truthful answer leaves the resolvers with what they promise. -/
theorem Accounted.promising_answer (h : Accounted cfg s) {q : Query}
    {next : q.Answer → Authenticating} (hp : Promising cfg s token (.ask q next)) :
    ∀ r ∈ (s.answer q).map next, Promising cfg s token r := by
  intro r hr
  obtain ⟨answer, hanswer, rfl⟩ := Option.map_eq_some_iff.mp hr
  exact fun t hl => hp t hl answer ((h.truthful hanswer).mono hl)

/-- What comes of a request is sound. -/
theorem Turn.sound {a : Action} {phase phase' : Phase} (h : Turn cfg s a phase phase')
    (hacc : Accounted cfg s) (hnow : Sound cfg s phase)
    (hpromise : ∀ token, (cfg.facade.jwt.accepts token = true → token ∈ s.facade.world.tokens) →
      Promising cfg s token (cfg.authenticate s token))
    (hg : Genuine cfg s a) : Sound cfg s phase' := by
  cases h with
  | unknown untold => exact attach_sound (fun hrole => by cases hrole)
  | arrived extracted => exact advance_sound (hpromise _ (hg _ extracted))
  | rejected => trivial
  | signingIn stripped =>
    simp only [Genuine] at hg
    rw [← stripped] at hg
    exact advanceSignIn_sound (hpromise _ hg)
  | answered => exact hacc.promising_answer hnow
  | resumed => exact advance_sound (hnow _ rfl)
  | unavailable | unanswered => exact attach_sound (fun hrole => by cases hrole)
  | signInAnswered => exact hacc.promising_answer hnow
  | signInResumed => exact advanceSignIn_sound (hnow _ rfl)
  | signInFailed | signInUnanswered => trivial
  | worked => exact hnow

/-- Only the handler of `issue` begins by minting. -/
theorem begins_mint {e : Endpoint} {f : AuthFacade} {i : Nat} {w w' : Facade.World}
    {a : Facade.Act} {r : Facade.Issued} (hb : e.begins a = true)
    (h : Facade.step f i w .idle a = some (w', .paired (some r))) : e = .issue := by
  cases e with
  | issue => rfl
  | register email passwordHash =>
    cases a with
    | register => simp [Facade.step, Facade.register] at h
    | _ => cases hb
  | login email password =>
    cases a with
    | login => simp [Facade.step, Facade.register, Facade.login] at h
    | _ => cases hb
  | refresh token =>
    cases a with
    | refresh =>
      simp [Facade.step, Facade.register, Facade.login, Facade.issueTokens, Facade.resolve,
        Facade.refresh, Facade.revoke, Facade.deactivate] at h
    | _ => cases hb
  | revoke token =>
    cases a with
    | revoke =>
      simp only [Facade.step, Facade.register, Facade.login, Facade.issueTokens, Facade.resolve,
        Facade.refresh, Facade.revoke, Facade.deactivate] at h
      split at h <;> simp at h
    | _ => cases hb
  | deactivate user =>
    cases a with
    | deactivate =>
      simp [Facade.step, Facade.register, Facade.login, Facade.issueTokens, Facade.resolve,
        Facade.refresh, Facade.revoke, Facade.deactivate] at h
    | _ => cases hb
  | _ => cases a <;> cases hb

theorem begins_deactivate {e : Endpoint} {user : Uuid}
    (h : e.begins (.deactivate user) = true) : e = .deactivate user := by
  cases e with
  | deactivate other => simpa [Endpoint.begins] using h
  | _ => cases h

/-- The guard of an endpoint for admins has let an admin through. -/
theorem Accounted.admin (h : Accounted cfg s) {i : Nat} {e : Endpoint} {presented : Option String}
    {user : Principal} {work : Work} (hphase : s.requests i = .admitted e presented user work)
    (hroles : e.roles = some [.admin]) : ∃ token, s.Admin i e token := by
  have hsound := h.requests i
  rw [hphase] at hsound
  have hrole : user.role = .admin := by simpa using hsound.1 _ hroles
  obtain ⟨text, rfl, -⟩ := hsound.2 hrole
  exact ⟨text, user, work, hphase, hrole⟩

/-- A call of the facade keeps the account, if it is made behind the guard. -/
theorem Accounted.work (h : Accounted cfg s) {i : Nat} {a : Facade.Act} {e : Endpoint}
    {presented : Option String} {user : Principal} {work : Work} {facade : Facade.State}
    (now : s.requests i = .admitted e presented user work)
    (begins : s.facade.clients i = .idle → e.begins a = true)
    (stepped : cfg.machine.step s.facade (.act i a) = some facade)
    (hinserts : Facade.InsertsUser (s.facade.clients i)) :
    Accounted cfg { s with facade := facade } := by
  obtain ⟨w, k, hstep, rfl⟩ := Pool.act_step.mp stepped
  have hturn := Facade.step_turn hstep
  have hl : Later s { s with facade := ⟨w, Function.update s.facade.clients i k⟩ } :=
    ⟨hturn.grows.issued, fun _ hg => hg, fun _ _ _ ha => ha⟩
  exact
    { rows := h.rows
      grants := h.grants
      revoked := h.revoked
      minted := fun r hr ho => by
        rcases hturn.issued r hr with hold | ⟨rfl, rfl, hmint⟩
        · exact h.minted r hold ho
        · have hidle := hmint ho
          rw [hidle] at hstep
          obtain rfl := begins_mint (begins hidle) hstep
          exact h.admin now rfl
      deactivating := fun j user hj => by
        by_cases hji : j = i
        · subst hji
          obtain rfl : k = .deactivating user := by simpa using hj
          obtain ⟨hidle, rfl⟩ := Facade.deactivating_begins hstep
          obtain rfl := begins_deactivate (begins hidle)
          exact h.admin now rfl
        · exact h.deactivating j user (by simpa [hji] using hj)
      deactivated := fun row hrow hd => by
        rcases hturn.deleted hinserts row hrow hd with hold | hnow
        · exact h.deactivated row hold hd
        · exact ⟨i, h.deactivating i row.id hnow⟩
      requests := fun j => (h.requests j).mono hl }

theorem mem_softDeleteKey {keys : List ApiKeyRow} {id : Uuid} {deletedAt : Int} {row : ApiKeyRow}
    (h : row ∈ softDeleteKey keys id deletedAt) : ∃ old ∈ keys, row.keyHash = old.keyHash ∧
      row.id = old.id ∧ (row = old ∨ old.id = id ∧ old.deletedAt = none) := by
  obtain ⟨old, hold, rfl⟩ := List.mem_map.mp h
  unfold ApiKeyRow.deleteAt
  split
  · rename_i hmatch
    exact ⟨old, hold, rfl, rfl, .inr hmatch⟩
  · exact ⟨old, hold, rfl, rfl, .inl rfl⟩

variable {as : List Action}

/-- What the facade does in a step of the whole. -/
theorem facade_exec {a : Action} (h : step cfg s a = some t) :
    ∃ bs, cfg.machine.exec s.facade bs = some t.facade ∧
      (Genuine cfg s a → cfg.machine.Meets (Facade.Genuine cfg.facade) s.facade bs) := by
  cases step_moves h with
  | @work i a _ _ _ _ _ _ _ stepped =>
    exact ⟨[.act i a], by rw [exec_cons, stepped]; rfl, fun hg => ⟨hg, fun _ _ => trivial⟩⟩
  | @env e _ stepped =>
    exact ⟨[.env e], by rw [exec_cons, stepped]; rfl, fun _ => ⟨trivial, fun _ _ => trivial⟩⟩
  | _ => exact ⟨[], rfl, fun _ => trivial⟩

def facadeView (cfg : Config) : View (machine cfg) cfg.machine where
  of := State.facade
  start := rfl
  step _ _ _ h := by
    obtain ⟨bs, hb, -⟩ := facade_exec h
    exact ⟨bs, hb⟩

theorem facade_reaches (h : (machine cfg).Reaches as s)
    (hm : (machine cfg).Meets (Genuine cfg) (machine cfg).start as) :
    ∃ bs, cfg.machine.Reaches bs s.facade ∧
      cfg.machine.Meets (Facade.Genuine cfg.facade) cfg.machine.start bs := by
  refine (facadeView cfg).reaches_meeting (I := fun _ => True) trivial (fun _ _ _ _ _ _ => trivial)
    ?_ h hm
  intro s a t _ hg hs
  obtain ⟨bs, hb, hbm⟩ := facade_exec hs
  exact ⟨bs, hb, hbm hg⟩

theorem Accounted.step {a : Action} (h : Accounted cfg s) (hs : (machine cfg).Reaches as s)
    (hm : (machine cfg).Meets (Genuine cfg) (machine cfg).start as) (hg : Genuine cfg s a)
    (ht : step cfg s a = some t) : Accounted cfg t := by
  obtain ⟨bs, hb, hbm⟩ := facade_reaches hs hm
  obtain ⟨⟨hd, hf⟩, -⟩ := Facade.faithful_of_reaches hb hbm
  obtain ⟨hu, hinserts⟩ := Facade.userRoles_of_reaches hb
  cases step_moves ht with
  | @request _ i _ _ now turn =>
    have hnow := h.requests i
    rw [now] at hnow
    exact h.put (later_put now turn.stays (fun _ hg => hg)) h.rows h.revoked (fun _ hg => .inl hg)
      (turn.sound h hnow (fun token => authenticate_promising h hd hf hu) hg)
  | work now begins stepped => exact h.work now begins stepped (hinserts _)
  | @granted i id name entropy createdAt _ token user work now accepted _ =>
    have hnow := h.requests i
    rw [now] at hnow
    have hadmin := h.admin now rfl
    refine h.put (later_put now admitted_stays (fun _ hg => List.mem_cons_of_mem _ hg))
      ?_ ?_ ?_ hnow
    · intro row hrow
      rcases List.mem_cons.mp hrow with rfl | hrow
      · exact ⟨_, List.mem_cons_self, rfl⟩
      · obtain ⟨g, hg, hhash⟩ := h.rows row hrow
        exact ⟨g, List.mem_cons_of_mem _ hg, hhash⟩
    · intro row hrow hdel
      rcases List.mem_cons.mp hrow with rfl | hrow
      · exact absurd rfl hdel
      · exact h.revoked row hrow hdel
    · intro g hg
      rcases List.mem_cons.mp hg with rfl | hg
      · exact .inr ⟨name, hadmin⟩
      · exact .inl hg
  | @deleted _ i id deletedAt token user work now _ =>
    have hnow := h.requests i
    rw [now] at hnow
    have hadmin := h.admin now rfl
    refine h.put (later_put now admitted_stays (fun _ hg => hg)) ?_ ?_
      (fun _ hg => .inl hg) hnow
    · intro row hrow
      obtain ⟨old, hold, hhash, -⟩ := mem_softDeleteKey hrow
      rw [hhash]
      exact h.rows old hold
    · intro row hrow hdel
      obtain ⟨old, hold, -, hid, rfl | ⟨rfl, -⟩⟩ := mem_softDeleteKey hrow
      · exact h.revoked row hold hdel
      · rw [hid]
        exact ⟨i, hadmin⟩
  | env stepped =>
    obtain ⟨w, henv, rfl⟩ := Pool.env_step.mp stepped
    rw [Facade.env_frame henv]
    have hl : Later s { s with facade := ⟨{ s.facade.world with
        now := w.now, denylist := w.denylist }, s.facade.clients⟩ } :=
      ⟨fun _ hr => hr, fun _ hg => hg, fun _ _ _ ha => ha⟩
    exact { h with requests := fun j => (h.requests j).mono hl }

theorem accounted (h : (machine cfg).Reaches as s)
    (hm : (machine cfg).Meets (Genuine cfg) (machine cfg).start as) : Accounted cfg s := by
  refine h.induct_of_meets ?_ (fun as s a t hs hm hI hg ht => hI.step hs hm hg ht) hm
  exact
    { rows := fun _ hrow => absurd hrow List.not_mem_nil
      grants := fun _ hg => absurd hg List.not_mem_nil
      revoked := fun _ hrow => absurd hrow List.not_mem_nil
      minted := fun _ hr => absurd hr List.not_mem_nil
      deactivating := fun _ _ hj => by cases hj
      deactivated := fun _ hrow => absurd hrow List.not_mem_nil
      requests := fun _ => trivial }

/-- From an empty database, whoever gets through a guard as an admin, or into the admin pages,
has a token that goes back to the static one, through keys and pairs that admins were given.
So does whoever has generated or revoked a key, minted a pair or deactivated a user. Without a
static token there is no admin. -/
theorem admins_are_rooted (h : (machine cfg).Reaches as s)
    (hm : (machine cfg).Meets (Genuine cfg) (machine cfg).start as) :
    (∀ i e token, s.Admin i e token → Rooted cfg s token) ∧
    (∀ i token, s.requests i = .signedIn token → Rooted cfg s token) ∧
    (∀ row ∈ s.keys, ∃ g ∈ s.grants, row.keyHash = cfg.sha256 g.plaintext) ∧
    (∀ g ∈ s.grants, ∃ name token, s.Admin g.client (.createKey name) token) ∧
    (∀ row ∈ s.keys, row.deletedAt ≠ none → ∃ i token, s.Admin i (.revokeKey row.id) token) ∧
    (∀ r ∈ s.facade.world.issued, r.origin = .mint → ∃ token, s.Admin r.client .issue token) ∧
    (∀ row ∈ s.facade.world.users, row.deletedAt ≠ none →
      ∃ i token, s.Admin i (.deactivate row.id) token) ∧
    (cfg.adminToken = none → ∀ token, ¬ Rooted cfg s token) := by
  have hacc := accounted h hm
  refine ⟨fun i e token => hacc.rooted, ?_, hacc.rows, hacc.grants, hacc.revoked, hacc.minted,
    hacc.deactivated, ?_⟩
  · intro i token hi
    have hsound := hacc.requests i
    rw [hi] at hsound
    exact hsound
  · intro hnone token hroot
    induction hroot with
    | static configured set => simp [hnone] at configured
    | key _ _ _ _ ih => exact ih
    | pair _ _ _ _ ih => exact ih

end

/-- A static token, and a codec for one admin's pair. -/
def sample : Config where
  facade := Facade.adminPair
  sha256 text := text
  adminToken := some "s3cret"
  now := 0

def bearing (token : String) : Request := ⟨"/", some ("Bearer " ++ token), none⟩

/-- With the static token a key is generated, with the key a pair is minted, and with the pair
the admin pages are asked for. -/
def threeSteps : List Action :=
  [.arrive 1 (bearing "s3cret") (.createKey "ci"), .insertKey 1 (Facade.nth 7) "k" 0 none,
    .arrive 2 (bearing "ak_k") .issue, .answer 2, .resume 2,
    .work 2 (.mint (Facade.nth 1) (Facade.nth 2)),
    .arrive 3 (bearing (Facade.accessToken (Facade.nth 1))) (.other (some [.admin])), .answer 3,
    .resume 3]

def Phase.token? : Phase → Option (Endpoint × Option String × Role)
  | .admitted e token user _ => some (e, token, user.role)
  | _ => none

theorem pair_is_rooted : ∃ s, (machine sample).Reaches threeSteps s ∧
    s.Admin 3 (.other (some [.admin])) (Facade.accessToken (Facade.nth 1)) ∧
    Rooted sample s (Facade.accessToken (Facade.nth 1)) := by
  have hr : ((machine sample).exec (machine sample).start threeSteps).map
      (fun s => (s.requests 3).token?) = some (some (.other (some [.admin]),
        some (Facade.accessToken (Facade.nth 1)), .admin)) := by decide +kernel
  obtain ⟨s, hs, hphase⟩ := Machine.reaches_of_map hr
  have hadmin : s.Admin 3 (.other (some [.admin])) (Facade.accessToken (Facade.nth 1)) := by
    cases hp : s.requests 3 with
    | admitted e token user work =>
      simp only [hp, Phase.token?, Option.some.injEq, Prod.mk.injEq] at hphase
      obtain ⟨rfl, rfl, hrole⟩ := hphase
      exact ⟨user, work, hp, hrole⟩
    | _ => simp [hp, Phase.token?] at hphase
  exact ⟨s, hs, hadmin, (admins_are_rooted hs (by decide +kernel)).1 3 _ _ hadmin⟩

end BackendTemplates.Auth.Surface
