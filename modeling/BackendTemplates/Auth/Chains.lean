import BackendTemplates.Auth.Genuine

namespace BackendTemplates.Auth.Facade
open Python Runs

/-- The pair descends, through refreshes, from one with this role and subject. -/
inductive Root (w : World) : Issued → Role → Option String → Prop where
  | login {r : Issued} {user : UserRow} (origin : r.origin = .login user) :
      Root w r user.role (some user.id.str)
  | mint {r : Issued} (origin : r.origin = .mint) : Root w r .admin none
  | refresh {r parent : Issued} {role : Role} {subject : Option String}
      (origin : r.origin = .refresh parent.pair.refresh) (issued : parent ∈ w.issued)
      (root : Root w parent role subject) : Root w r role subject

/-- The id and the role are those of a stored row. -/
def Stored (w : World) (user : UserRow) : Prop :=
  ∃ row ∈ w.users, row.id = user.id ∧ row.role = user.role

/-- No subject, or the id of a user. -/
def UserId (subject : Option String) : Prop :=
  subject = none ∨ ∃ user : Uuid, subject = some user.str

/-- The token is one of an issued pair, and verifies as that kind of token. -/
def Presented (f : AuthFacade) (w : World) (token : String) (type : TokenType)
    (v : VerifiedToken) : Prop :=
  (∃ now, f.jwt.verify now token (some type) = .ok (some v)) ∧
    ∃ r ∈ w.issued, r.token type = token

/-- What the record of a pair says of its role, its subject and where they come from. -/
structure Faithful (f : AuthFacade) (w : World) (r : Issued) : Prop where
  encoded : f.jwt.issuePair r.issuedAt r.role r.subject r.accessId r.refreshId = some r.pair
  subject : UserId r.subject
  login : ∀ user, r.origin = .login user →
    Stored w user ∧ r.role = user.role ∧ r.subject = some user.id.str
  mint : r.origin = .mint → r.role = .admin ∧ r.subject = none
  refresh : ∀ token, r.origin = .refresh token →
    ∃ v, Presented f w token .refresh v ∧ v.role = r.role ∧ v.subject = r.subject
  root : Root w r r.role r.subject

/-- What a call has of its user, its token, its principal or its pair. -/
def Traced (f : AuthFacade) (w : World) : Call → Prop
  | .found user _ => Stored w user
  | .paired (some r) => r ∈ w.issued
  | .resolving token _ v => Presented f w token .access v
  | .resolved token (some p) =>
    ∃ v, Presented f w token .access v ∧ p = ⟨v.role, v.jti, v.subject⟩
  | .refreshing token _ (.verified v) => Presented f w token .refresh v
  | .refreshing token _ (.unlisted v) => Presented f w token .refresh v
  | .refreshing token _ (.checkingUser v _) => Presented f w token .refresh v
  | .refreshing token _ (.ready v) => Presented f w token .refresh v
  | .refreshing token _ (.adding v _) => Presented f w token .refresh v
  | .refreshing token _ (.added v) => Presented f w token .refresh v
  | _ => True

/-- Pairs stay on record, and users stored. -/
structure Grows (w w' : World) : Prop where
  issued : ∀ r ∈ w.issued, r ∈ w'.issued
  stored : ∀ user, Stored w user → Stored w' user

section
variable {f : AuthFacade} {i : Nat} {w w' : World} {k k' : Call} {a : Act} {token : String}
  {type : TokenType} {v : VerifiedToken} {r parent : Issued} {role : Role}
  {subject : Option String}

theorem str_ne_value (user : Uuid) (role : Role) : user.str ≠ role.value := by
  intro h
  have hread := Uuid.ofStr_str user
  have hnone : Uuid.ofStr role.value = none := by cases role <;> decide +kernel
  rw [h, hnone] at hread
  cases hread

/-- The subject is read back from `sub`, which is the role's name where there is none. -/
theorem subjectOf_getD (h : UserId subject) :
    JwtService.subjectOf role (some (.str (subject.getD role.value))) = subject := by
  rcases h with rfl | ⟨user, rfl⟩
  · simp [JwtService.subjectOf]
  · simp [JwtService.subjectOf, str_ne_value]

theorem Root.mono (h : Root w r role subject) (hg : Grows w w') : Root w' r role subject := by
  induction h with
  | login origin => exact .login origin
  | mint origin => exact .mint origin
  | refresh origin issued root ih => exact .refresh origin (hg.issued _ issued) ih

theorem Presented.mono (h : Presented f w token type v) (hg : Grows w w') :
    Presented f w' token type v := by
  obtain ⟨hv, r, hr, ht⟩ := h
  exact ⟨hv, r, hg.issued r hr, ht⟩

theorem Faithful.mono (h : Faithful f w r) (hg : Grows w w') : Faithful f w' r where
  encoded := h.encoded
  subject := h.subject
  login user ho := (h.login user ho).imp_left (hg.stored user)
  mint := h.mint
  refresh token ho := by
    obtain ⟨v, hv, hrole⟩ := h.refresh token ho
    exact ⟨v, hv.mono hg, hrole⟩
  root := h.root.mono hg

theorem Traced.mono (h : Traced f w k) (hg : Grows w w') : Traced f w' k := by
  unfold Traced at h ⊢
  split at h
  · exact hg.stored _ h
  · exact hg.issued _ h
  · exact h.mono hg
  · obtain ⟨v, hv, hp⟩ := h
    exact ⟨v, hv.mono hg, hp⟩
  · exact h.mono hg
  · exact h.mono hg
  · exact h.mono hg
  · exact h.mono hg
  · exact h.mono hg
  · exact h.mono hg
  · trivial

/-- A token verifies to the role and subject of every pair that it is a token of. -/
theorem presented_claims {type' : TokenType} (hd : w.Decodes f)
    (hf : ∀ r ∈ w.issued, Faithful f w r) (h : Presented f w token type v) (hr : r ∈ w.issued)
    (ht : r.token type' = token) : type' = type ∧ v.role = r.role ∧ v.subject = r.subject := by
  obtain ⟨⟨now, hv⟩, _⟩ := h
  subst ht
  obtain ⟨rfl, htype⟩ := verify_claims (hd.claims hr type') hv
  exact ⟨(htype type rfl).symm, rfl, subjectOf_getD (hf r hr).subject⟩

/-- A pair has one root, with its own role and subject. -/
theorem Root.unique (hd : w.Decodes f) (hf : ∀ r ∈ w.issued, Faithful f w r)
    (h : Root w r role subject) (hr : r ∈ w.issued) : role = r.role ∧ subject = r.subject := by
  induction h with
  | login origin =>
    obtain ⟨_, hrole, hsubject⟩ := (hf _ hr).login _ origin
    exact ⟨hrole.symm, hsubject.symm⟩
  | mint origin =>
    obtain ⟨hrole, hsubject⟩ := (hf _ hr).mint origin
    exact ⟨hrole.symm, hsubject.symm⟩
  | @refresh r parent role subject origin issued root ih =>
    obtain ⟨hrole, hsubject⟩ := ih issued
    obtain ⟨v, hv, hvrole, hvsubject⟩ := (hf r hr).refresh _ origin
    have htoken : parent.token .refresh = parent.pair.refresh := rfl
    obtain ⟨_, hprole, hpsubject⟩ := presented_claims hd hf hv issued htoken
    exact ⟨hrole.trans (hprole.symm.trans hvrole), hsubject.trans (hpsubject.symm.trans hvsubject)⟩

theorem Call.Inert.traced (h : k.Inert) : Traced f w k := by
  unfold Call.Inert at h
  split at h <;> trivial

theorem stored_softDelete {user : UserRow} {deleted : Uuid} {deletedAt : Int}
    (h : Stored w user) : Stored (w.softDelete deleted deletedAt) user := by
  obtain ⟨row, hrow, hid, hrole⟩ := h
  refine ⟨row.deleteAt deleted deletedAt, List.mem_map_of_mem hrow, ?_⟩
  unfold UserRow.deleteAt
  split
  · exact ⟨hid, hrole⟩
  · exact ⟨hid, hrole⟩

theorem Turn.grows (h : Turn f i w k a w' k') : Grows w w' := by
  cases h with
  | loggedIn => exact ⟨fun _ => List.mem_cons_of_mem _, fun _ h => h⟩
  | minted => exact ⟨fun _ => List.mem_cons_of_mem _, fun _ h => h⟩
  | rotated => exact ⟨fun _ => List.mem_cons_of_mem _, fun _ h => h⟩
  | committed =>
    refine ⟨fun _ h => h, fun user h => ?_⟩
    obtain ⟨row, hrow, hsame⟩ := h
    exact ⟨row, List.mem_cons_of_mem _ hrow, hsame⟩
  | deactivated => exact ⟨fun _ h => h, fun _ => stored_softDelete⟩
  | _ => exact ⟨fun _ h => h, fun _ h => h⟩

/-- The presented token that verifies is one of an issued pair, of that kind. -/
theorem presented_of_genuine (hd : w.Decodes f)
    (hp : f.jwt.accepts token = true → token ∈ w.tokens)
    (hv : f.jwt.verify w.now token (some type) = .ok (some v)) : Presented f w token type v := by
  obtain ⟨r, hr, type', rfl⟩ := mem_tokens.mp (hp (accepts_of_verify hv))
  obtain ⟨_, htype⟩ := verify_claims (hd.claims hr type') hv
  rw [htype type rfl]
  exact ⟨⟨_, htype type rfl ▸ hv⟩, r, hr, rfl⟩

theorem Turn.traced (h : Turn f i w k a w' k') (hk : Traced f w k) (hd : w.Decodes f)
    (hp : ∀ token ∈ a.token?, f.jwt.accepts token = true → token ∈ w.tokens) :
    Traced f w' k' := by
  cases h with
  | quiet inert => exact inert.traced
  | registering => trivial
  | taken => trivial
  | inserted => trivial
  | committed result => rcases result with rfl | ⟨_, rfl⟩ <;> trivial
  | rolledBack => trivial
  | @found email password user a one =>
    have hmem : user ∈ credentialsByEmail w.users email := by simp [one]
    exact ⟨user, List.mem_of_mem_filter hmem, rfl, rfl⟩
  | loggedIn => exact List.mem_cons_self
  | minted => exact List.mem_cons_self
  | resolving alive => exact presented_of_genuine hd (hp _ rfl) alive
  | resolved => exact ⟨_, hk, rfl⟩
  | verified alive => exact presented_of_genuine hd (hp _ rfl) alive
  | unlisted => exact hk
  | roleOnly => exact hk
  | userBound => exact hk
  | active => exact hk
  | measured => exact hk
  | spent => exact hk
  | spentLost => trivial
  | rotated => exact List.mem_cons_self
  | dead => trivial
  | revoking => trivial
  | denying => trivial
  | revoked => trivial
  | revokedLost => trivial
  | deactivated result =>
    rcases result with ⟨rfl, _⟩ | inert
    · trivial
    · exact inert.traced

theorem Faithful.loggedIn {user : UserRow} {accessId refreshId : Uuid} (hs : Stored w user)
    (hp : issuePair f i w (.login user) user.role (some user.id.str) accessId refreshId = some r) :
    Faithful f w r := by
  obtain ⟨pair, hpair, rfl⟩ := Option.map_eq_some_iff.mp hp
  refine ⟨hpair, .inr ⟨user.id, rfl⟩, ?_, nofun, nofun, .login rfl⟩
  intro user' ho
  cases ho
  exact ⟨hs, rfl, rfl⟩

theorem Faithful.minted {accessId refreshId : Uuid}
    (hp : issuePair f i w .mint .admin none accessId refreshId = some r) : Faithful f w r := by
  obtain ⟨pair, hpair, rfl⟩ := Option.map_eq_some_iff.mp hp
  exact ⟨hpair, .inl rfl, nofun, fun _ => ⟨rfl, rfl⟩, nofun, .mint rfl⟩

/-- A refresh hands the role and the subject of its token on. -/
theorem Faithful.rotated {accessId refreshId : Uuid} (hd : w.Decodes f)
    (hf : ∀ r ∈ w.issued, Faithful f w r) (hv : Presented f w token .refresh v)
    (hp : issuePair f i w (.refresh token) v.role v.subject accessId refreshId = some r) :
    Faithful f w r := by
  obtain ⟨pair, hpair, rfl⟩ := Option.map_eq_some_iff.mp hp
  obtain ⟨parent, hparent, htoken⟩ := hv.2
  obtain ⟨_, hrole, hsubject⟩ := presented_claims hd hf hv hparent htoken
  refine ⟨hpair, ?_, nofun, nofun, ?_, ?_⟩
  · rw [hsubject]
    exact (hf parent hparent).subject
  · intro token' ho
    cases ho
    exact ⟨v, hv, rfl, rfl⟩
  · rw [hrole, hsubject]
    exact .refresh (congrArg Origin.refresh htoken.symm) hparent (hf parent hparent).root

/-- The records stay faithful, those of new pairs included. -/
theorem Turn.faithful (h : Turn f i w k a w' k') (hk : Traced f w k) (hd : w.Decodes f)
    (hf : ∀ r ∈ w.issued, Faithful f w r) : ∀ r ∈ w'.issued, Faithful f w' r := by
  have hg := h.grows
  have keep : ∀ r ∈ w.issued, Faithful f w' r := fun r hr => (hf r hr).mono hg
  have log {r : Issued} (hnew : Faithful f w r) (hw : w' = w.log r) :
      ∀ r ∈ w'.issued, Faithful f w' r := by
    intro x hx
    rw [hw] at hx
    rcases List.mem_cons.mp hx with rfl | hx
    · exact hnew.mono hg
    · exact keep x hx
  cases h with
  | loggedIn fresh pair => exact log (.loggedIn hk pair) rfl
  | minted fresh pair => exact log (.minted pair) rfl
  | rotated fresh pair => exact log (.rotated hd hf hk pair) rfl
  | _ => exact keep

theorem env_grows {e : Env} (h : env w e = some w') :
    w'.issued = w.issued ∧ Grows w w' := by
  rw [env_frame h]
  exact ⟨rfl, fun _ hr => hr, fun _ hs => hs⟩

variable {now : Int} {users : List UserRow}

/-- In every state of a run the records are faithful and each call can be traced to them. -/
theorem faithful_of_reaches {as : List Action} {s : State}
    (h : (pool f (.initial now users)).machine.Reaches as s)
    (hm : (pool f (.initial now users)).machine.Meets (Genuine f)
      (pool f (.initial now users)).machine.start as) :
    Pool.Good (fun w => w.Decodes f ∧ ∀ r ∈ w.issued, Faithful f w r)
      (fun _ w k => Traced f w k) s := by
  have hempty : ∀ r, r ∉ (pool f (.initial now users)).machine.start.world.issued :=
    fun _ => List.not_mem_nil
  refine Pool.good_of_meets
    ⟨⟨fun r hr => absurd hr (hempty r), fun r hr => absurd hr (hempty r)⟩, fun _ => trivial⟩
    ?_ ?_ h hm
  · intro s i a w k hg hok hw
    obtain ⟨⟨hd, hf⟩, hk⟩ := hg
    have hturn := step_turn hw
    exact ⟨⟨hok.1 _ hw, hturn.faithful (hk i) hd hf⟩, hturn.traced (hk i) hd hok.2,
      fun j _ => (hk j).mono hturn.grows⟩
  · intro s e w hg _ hw
    obtain ⟨⟨hd, hf⟩, hk⟩ := hg
    obtain ⟨hi, hgrows⟩ := env_grows hw
    refine ⟨⟨fun r hr => hd r (hi ▸ hr), fun r hr => (hf r (hi ▸ hr)).mono hgrows⟩, ?_⟩
    intro j
    exact (hk j).mono hgrows

/-- A principal has the role and the subject of the root of its token's chain. A refresh
token authenticates nothing, an access token is not rotated, and a rotation changes neither
role nor subject. -/
theorem identity_is_preserved {as : List Action} {s : State}
    (h : (pool f (.initial now users)).machine.Reaches as s)
    (hm : (pool f (.initial now users)).machine.Meets (Genuine f)
      (pool f (.initial now users)).machine.start as) :
    (∀ i token p, s.clients i = .resolved token (some p) →
      (∃ r ∈ s.world.issued, r.pair.access = token ∧ Root s.world r p.role p.subject) ∧
      (∀ r ∈ s.world.issued, r.pair.access = token → ∀ role subject,
        Root s.world r role subject → role = p.role ∧ subject = p.subject) ∧
      ∀ r ∈ s.world.issued, r.pair.refresh ≠ token) ∧
    (∀ i r, s.clients i = .paired (some r) → r ∈ s.world.issued) ∧
    (∀ r ∈ s.world.issued,
      f.jwt.issuePair r.issuedAt r.role r.subject r.accessId r.refreshId = some r.pair ∧
      (∀ user, r.origin = .login user → Stored s.world user) ∧
      (∀ token, r.origin = .refresh token →
        (∃ parent ∈ s.world.issued, parent.pair.refresh = token) ∧
        ∀ parent ∈ s.world.issued, parent.pair.access ≠ token ∧
          (parent.pair.refresh = token → parent.role = r.role ∧ parent.subject = r.subject)) ∧
      Root s.world r r.role r.subject) := by
  obtain ⟨⟨hd, hf⟩, hk⟩ := faithful_of_reaches h hm
  refine ⟨?_, ?_, ?_⟩
  · intro i token p hi
    have htraced := hk i
    rw [hi] at htraced
    obtain ⟨v, hv, rfl⟩ := htraced
    refine ⟨?_, ?_, ?_⟩
    · obtain ⟨r, hr, htoken⟩ := hv.2
      obtain ⟨_, hrole, hsubject⟩ := presented_claims hd hf hv hr htoken
      refine ⟨r, hr, htoken, ?_⟩
      rw [hrole, hsubject]
      exact (hf r hr).root
    · intro r hr htoken role subject hroot
      have haccess : r.token .access = token := htoken
      obtain ⟨_, hrole, hsubject⟩ := presented_claims hd hf hv hr haccess
      rw [hrole, hsubject]
      exact hroot.unique hd hf hr
    · intro r hr htoken
      have hrefresh : r.token .refresh = token := htoken
      cases (presented_claims hd hf hv hr hrefresh).1
  · intro i r hi
    have htraced := hk i
    rwa [hi] at htraced
  · intro r hr
    have hfaithful := hf r hr
    refine ⟨hfaithful.encoded, fun user ho => (hfaithful.login user ho).1, ?_, hfaithful.root⟩
    intro token ho
    obtain ⟨v, hv, hrole, hsubject⟩ := hfaithful.refresh token ho
    refine ⟨hv.2, fun parent hparent => ⟨?_, ?_⟩⟩
    · intro htoken
      have haccess : parent.token .access = token := htoken
      cases (presented_claims hd hf hv hparent haccess).1
    · intro htoken
      have hrefresh : parent.token .refresh = token := htoken
      obtain ⟨_, hprole, hpsubject⟩ := presented_claims hd hf hv hparent hrefresh
      exact ⟨hprole.symm.trans hrole, hpsubject.symm.trans hsubject⟩

end
def user : Uuid := nth 9

def rotatedOnce : AuthFacade := sampleFacade
  [(.user, some user.str, nth 1, nth 2), (.user, some user.str, nth 3, nth 4)]

def stored : UserRow := ⟨user, "a@x", "pw", .user, 0, none⟩

/-- A login, a refresh, and a request with the access token it gave. -/
def userChain : List Action :=
  [.act 1 (.login "a@x" "pw"), .act 1 .find, .act 1 (.issue (nth 1) (nth 2)),
    .act 2 (.refresh (refreshToken (nth 2))), .act 2 (.rotate .contains),
    .act 2 (.rotate .readSubject), .act 2 (.rotate .isActive), .act 2 (.rotate .measure),
    .act 2 (.rotate .add), .act 2 (.rotate (.issue (nth 3) (nth 4))),
    .act 3 (.resolve (accessToken (nth 3))), .act 3 .contains]

theorem user_chain_keeps_its_subject : ∃ s p,
    (pool rotatedOnce (.initial 0 [stored])).machine.Reaches userChain s ∧
      s.clients 3 = .resolved (accessToken (nth 3)) (some p) ∧ p.subject = some user.str ∧
      ∃ r ∈ s.world.issued, r.pair.access = accessToken (nth 3) ∧
        Root s.world r p.role p.subject := by
  have hr : ((pool rotatedOnce (.initial 0 [stored])).machine.exec
      (pool rotatedOnce (.initial 0 [stored])).machine.start userChain).map (fun s => s.clients 3) =
        some (.resolved (accessToken (nth 3))
          (some ⟨.user, String.ofList (hexText (nth 3).digits), some user.str⟩)) := by
    decide +kernel
  obtain ⟨s, hs, hclient⟩ := Machine.reaches_of_map hr
  exact ⟨s, _, hs, hclient, rfl,
    ((identity_is_preserved hs (by decide +kernel)).1 3 _ _ hclient).1⟩

end BackendTemplates.Auth.Facade
