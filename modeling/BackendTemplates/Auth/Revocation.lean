import BackendTemplates.Auth.Genuine

namespace BackendTemplates.Auth.Facade
open Python Runs

/-- No identifier has been given to two tokens. -/
structure Distinct (w : World) : Prop where
  unique : ∀ r ∈ w.issued, ∀ r' ∈ w.issued, ∀ type type', r.id type = r'.id type' →
    r = r' ∧ type = type'
  drawn : ∀ r ∈ w.issued, ∀ type, r.id type ∈ w.drawn

/-- The identifier and the expiry are those of an issued token. -/
def Known (f : AuthFacade) (w : World) (v : VerifiedToken) : Prop :=
  ∃ r ∈ w.issued, ∃ type, v.jti = String.ofList (hexText (r.id type).digits) ∧
    v.expiresAt = f.timestamp (r.issuedAt + f.ttl type * 1000000) * 1000000

/-- The token is expired, or denylisted until it will be. -/
def Barred (f : AuthFacade) (w : World) (v : VerifiedToken) : Prop :=
  v.expiresAt ≤ w.now ∨ Known f w v ∧
    ∃ expiry, w.denylist (Auth.World.key v.jti) = some expiry ∧ v.expiresAt ≤ expiry

def Verifies (f : AuthFacade) (token : String) (v : VerifiedToken) : Prop :=
  ∃ now expected, f.jwt.verify now token expected = .ok (some v)

/-- Whatever the token verifies to is barred. -/
def Denied (f : AuthFacade) (w : World) (token : String) : Prop :=
  ∀ v, Verifies f token v → Barred f w v

def Held (f : AuthFacade) (w : World) (token : String) (v : VerifiedToken) : Prop :=
  Known f w v ∧ Verifies f token v

/-- A measured lifetime covers the rest of the token's life. -/
def Covers (w : World) (v : VerifiedToken) (ttl : Int) : Prop :=
  v.expiresAt - w.now ≤ ttl * 1000000

/-- What a call knows of its token, and of the denylist once it has written to it. -/
def Consistent (f : AuthFacade) (w : World) : Call → Prop
  | .resolving token readAt v => Held f w token v ∧ readAt < v.expiresAt
  | .refreshing token readAt (.verified v) => Held f w token v ∧ readAt < v.expiresAt
  | .refreshing token _ (.unlisted v) => Held f w token v
  | .refreshing token _ (.checkingUser v _) => Held f w token v
  | .refreshing token _ (.ready v) => Held f w token v
  | .refreshing token _ (.adding v ttl) => Held f w token v ∧ Covers w v ttl
  | .refreshing token _ (.added _) => Denied f w token
  | .revoking token v => Held f w token v
  | .denying token v ttl => Held f w token v ∧ Covers w v ttl
  | .revoked token => Denied f w token
  | .paired (some r) => ∀ token, r.origin = .refresh token → Denied f w token
  | _ => True

/-- Time goes on, pairs stay on record, and what is barred stays so. -/
structure Later (f : AuthFacade) (w w' : World) : Prop where
  now : w.now ≤ w'.now
  issued : ∀ r ∈ w.issued, r ∈ w'.issued
  barred : ∀ v, Barred f w v → Barred f w' v

section
variable {f : AuthFacade} {i : Nat} {w w' : World} {k k' : Call} {a : Act} {token : String}
  {v u : VerifiedToken} {ttl : Int} {r r' : Issued} {type type' : TokenType}

theorem Distinct.log (h : Distinct w) (hf : w.Fresh [r.accessId, r.refreshId]) :
    Distinct (w.log r) := by
  obtain ⟨hne, hnew⟩ := hf
  have fresh (type : TokenType) : r.id type ∉ w.drawn := by
    cases type with
    | access => exact hnew _ (by simp [Issued.id])
    | refresh => exact hnew _ (by simp [Issued.id])
  constructor
  · intro x hx y hy type type' he
    rcases List.mem_cons.mp hx with hx | hx <;> rcases List.mem_cons.mp hy with hy | hy
    · rw [hx, hy] at he
      refine ⟨hx.trans hy.symm, ?_⟩
      have hids : r.accessId ≠ r.refreshId := by simpa using hne
      cases type <;> cases type' <;> first
        | rfl
        | exact absurd he hids
        | exact absurd he.symm hids
    · rw [hx] at he
      exact absurd (he ▸ h.drawn y hy type') (fresh type)
    · rw [hy] at he
      exact absurd (he ▸ h.drawn x hx type) (fresh type')
    · exact h.unique x hx y hy type type' he
  · intro x hx type
    rcases List.mem_cons.mp hx with hx | hx
    · rw [hx]
      cases type <;> simp [World.log, Issued.id]
    · exact List.mem_cons_of_mem _ (List.mem_cons_of_mem _ (h.drawn x hx type))

theorem Distinct.issue {origin : Origin} {role : Role} {subject : Option String}
    {accessId refreshId : Uuid} (h : Distinct w) (hf : w.Fresh [accessId, refreshId])
    (hp : issuePair f i w origin role subject accessId refreshId = some r) :
    Distinct (w.log r) := by
  apply h.log
  rw [issuePair_eq hp]
  exact hf

theorem Distinct.of_same (h : Distinct w) (hi : w'.issued = w.issued)
    (hd : ∀ id ∈ w.drawn, id ∈ w'.drawn) : Distinct w' where
  unique r hr r' hr' := h.unique r (hi ▸ hr) r' (hi ▸ hr')
  drawn r hr type := hd _ (h.drawn r (hi ▸ hr) type)

theorem jti_injective {x y : Uuid}
    (h : String.ofList (hexText x.digits) = String.ofList (hexText y.digits)) : x = y := by
  have he := hexText_injective (String.ofList_injective h)
  cases x
  cases y
  simpa using he

/-- Tokens of one identifier expire together. -/
theorem Known.unique (h : Distinct w) (hv : Known f w v) (hu : Known f w u)
    (he : v.jti = u.jti) : v.expiresAt = u.expiresAt := by
  obtain ⟨r, hr, type, hjti, hexp⟩ := hv
  obtain ⟨r', hr', type', hjti', hexp'⟩ := hu
  rw [hjti, hjti'] at he
  obtain ⟨rfl, rfl⟩ := h.unique r hr r' hr' type type' (jti_injective he)
  rw [hexp, hexp']

theorem Known.mono (h : Known f w v) (hi : ∀ r ∈ w.issued, r ∈ w'.issued) : Known f w' v := by
  obtain ⟨r, hr, hv⟩ := h
  exact ⟨r, hi r hr, hv⟩

theorem Verifies.unique (h : Verifies f token v) (h' : Verifies f token u) : v = u := by
  obtain ⟨now, expected, hv⟩ := h
  obtain ⟨now', expected', hu⟩ := h'
  exact verify_same (verify_any hv) (verify_any hu)

theorem Held.denied (h : Held f w token v) (hb : Barred f w v) : Denied f w token := by
  intro u hu
  rw [← h.2.unique hu]
  exact hb

theorem deny_denylist (jti : String) (ttl : Int) : (w.deny jti ttl).denylist =
    if ttl ≤ 0 then w.denylist else Function.update w.denylist (Auth.World.key jti)
      (some (w.now + ttl * 1000000)) := by
  unfold World.deny World.base Auth.World.add
  split <;> rfl

theorem key_injective {jti jti' : String} (h : Auth.World.key jti = Auth.World.key jti') :
    jti = jti' := by
  simpa [Auth.World.key] using h

theorem Known.barred_deny (hv : Known f w v) (hc : Covers w v ttl) :
    Barred f (w.deny v.jti ttl) v := by
  unfold Covers at hc
  by_cases hpos : ttl ≤ 0
  · refine .inl ?_
    change v.expiresAt ≤ w.now
    omega
  · refine .inr ⟨hv, w.now + ttl * 1000000, ?_, by omega⟩
    rw [deny_denylist, if_neg hpos, Function.update_self]

/-- A further entry, for whichever token, leaves barred what was barred. -/
theorem Barred.deny (h : Distinct w) (hv : Known f w v) (hc : Covers w v ttl)
    (hb : Barred f w u) : Barred f (w.deny v.jti ttl) u := by
  rcases hb with hb | ⟨hu, expiry, hentry, hle⟩
  · exact .inl hb
  · by_cases hpos : ttl ≤ 0
    · refine .inr ⟨hu, expiry, ?_, hle⟩
      rw [deny_denylist, if_pos hpos, hentry]
    · by_cases he : v.jti = u.jti
      · have hexp := hv.unique h hu he
        unfold Covers at hc
        refine .inr ⟨hu, w.now + ttl * 1000000, ?_, by omega⟩
        rw [deny_denylist, if_neg hpos, he, Function.update_self]
      · refine .inr ⟨hu, expiry, ?_, hle⟩
        have hkey : Auth.World.key u.jti ≠ Auth.World.key v.jti :=
          fun hk => he (key_injective hk).symm
        rw [deny_denylist, if_neg hpos, Function.update_of_ne hkey, hentry]

/-- A barred token that is alive is found on the denylist. -/
theorem Barred.contains (hb : Barred f w v) (ha : w.now < v.expiresAt) :
    w.contains v.jti = true := by
  rcases hb with hb | ⟨_, expiry, hentry, hle⟩
  · omega
  · have hlive : w.now < expiry := by omega
    simp [World.contains, World.base, Auth.World.contains, hentry, hlive]

theorem Later.of_same (hn : w'.now = w.now) (hd : w'.denylist = w.denylist)
    (hi : ∀ r ∈ w.issued, r ∈ w'.issued) : Later f w w' where
  now := Int.le_of_eq hn.symm
  issued := hi
  barred v hv := by
    unfold Barred at hv ⊢
    rw [hn, hd]
    exact hv.imp_right (fun h => ⟨h.1.mono hi, h.2⟩)

theorem Later.deny (h : Distinct w) (hv : Known f w v) (hc : Covers w v ttl) :
    Later f w (w.deny v.jti ttl) where
  now := Int.le_refl _
  issued _ hr := hr
  barred _ hu := hu.deny h hv hc

theorem Held.mono (h : Held f w token v) (hl : Later f w w') : Held f w' token v :=
  ⟨h.1.mono hl.issued, h.2⟩

theorem Covers.mono (h : Covers w v ttl) (hl : Later f w w') : Covers w' v ttl := by
  have hn := hl.now
  unfold Covers at h ⊢
  omega

theorem Denied.mono (h : Denied f w token) (hl : Later f w w') : Denied f w' token :=
  fun v hv => hl.barred v (h v hv)

/-- What a call knows stays true while others take their steps. -/
theorem Consistent.mono (h : Consistent f w k) (hl : Later f w w') : Consistent f w' k := by
  unfold Consistent at h ⊢
  split at h
  · exact ⟨h.1.mono hl, h.2⟩
  · exact ⟨h.1.mono hl, h.2⟩
  · exact h.mono hl
  · exact h.mono hl
  · exact h.mono hl
  · exact ⟨h.1.mono hl, h.2.mono hl⟩
  · exact h.mono hl
  · exact h.mono hl
  · exact ⟨h.1.mono hl, h.2.mono hl⟩
  · exact h.mono hl
  · exact fun token ht => (h token ht).mono hl
  · trivial

theorem Call.Inert.consistent (h : k.Inert) : Consistent f w k := by
  unfold Call.Inert at h
  split at h <;> trivial

/-- The presented token that verifies is an issued one. -/
theorem held_of_genuine {now : Int} {expected : Option TokenType} (hd : w.Decodes f)
    (hp : f.jwt.accepts token = true → token ∈ w.tokens)
    (hv : f.jwt.verify now token expected = .ok (some v)) : Held f w token v := by
  obtain ⟨r, hr, type, rfl⟩ := mem_tokens.mp (hp (accepts_of_verify hv))
  obtain ⟨rfl, _⟩ := verify_claims (hd.claims hr type) hv
  exact ⟨⟨r, hr, type, rfl, rfl⟩, _, _, hv⟩

/-- A token that no longer verifies is expired, or never did. -/
theorem denied_of_dead (h : f.jwt.verify w.now token none = .ok none) : Denied f w token := by
  intro v hv
  obtain ⟨now, expected, hv⟩ := hv
  refine .inl (Int.not_lt.mp fun hlive => ?_)
  rw [(verify_alive (verify_any hv)).2 w.now hlive] at h
  cases h

theorem Turn.later (h : Turn f i w k a w' k') (hd : Distinct w) (hk : Consistent f w k) :
    Later f w w' := by
  cases h with
  | spent => exact .deny hd hk.1.1 hk.2
  | spentLost => exact .deny hd hk.1.1 hk.2
  | revoked => exact .deny hd hk.1.1 hk.2
  | revokedLost => exact .deny hd hk.1.1 hk.2
  | loggedIn => exact .of_same rfl rfl (fun _ hr => List.mem_cons_of_mem _ hr)
  | minted => exact .of_same rfl rfl (fun _ hr => List.mem_cons_of_mem _ hr)
  | rotated => exact .of_same rfl rfl (fun _ hr => List.mem_cons_of_mem _ hr)
  | _ => exact .of_same rfl rfl (fun _ hr => hr)

theorem Turn.distinct (h : Turn f i w k a w' k') (hd : Distinct w) : Distinct w' := by
  cases h with
  | loggedIn fresh pair => exact hd.issue fresh pair
  | minted fresh pair => exact hd.issue fresh pair
  | rotated fresh pair => exact hd.issue fresh pair
  | taken => exact hd.of_same rfl (fun _ => List.mem_append_right _)
  | inserted => exact hd.of_same rfl (fun _ => List.mem_append_right _)
  | _ => exact hd.of_same rfl (fun _ h => h)

theorem Turn.consistent (h : Turn f i w k a w' k') (hd : Distinct w) (hk : Consistent f w k)
    (hdec : w'.Decodes f)
    (hp : ∀ token ∈ a.token?, f.jwt.accepts token = true → token ∈ w.tokens) :
    Consistent f w' k' := by
  have hl := h.later hd hk
  cases h with
  | quiet inert => exact inert.consistent
  | registering => trivial
  | taken => trivial
  | inserted => trivial
  | committed result => rcases result with rfl | ⟨_, rfl⟩ <;> trivial
  | rolledBack => trivial
  | found => trivial
  | loggedIn fresh pair =>
    intro token ht
    rw [issuePair_eq pair] at ht
    cases ht
  | minted fresh pair =>
    intro token ht
    rw [issuePair_eq pair] at ht
    cases ht
  | resolving alive => exact ⟨held_of_genuine hdec (hp _ rfl) alive, (verify_alive alive).1⟩
  | resolved => trivial
  | verified alive => exact ⟨held_of_genuine hdec (hp _ rfl) alive, (verify_alive alive).1⟩
  | unlisted => exact hk.1
  | roleOnly => exact hk
  | userBound => exact hk
  | active => exact hk
  | measured => exact ⟨hk, le_ceilSeconds _⟩
  | spent =>
    obtain ⟨hheld, hcovers⟩ := hk
    exact (hheld.mono hl).denied (hheld.1.barred_deny hcovers)
  | spentLost => trivial
  | rotated fresh pair =>
    intro token ht
    rw [issuePair_eq pair] at ht
    cases ht
    exact Denied.mono hk hl
  | dead dead => exact denied_of_dead dead
  | revoking alive => exact held_of_genuine hdec (hp _ rfl) alive
  | denying => exact ⟨hk, le_ceilSeconds _⟩
  | revoked =>
    obtain ⟨hheld, hcovers⟩ := hk
    exact (hheld.mono hl).denied (hheld.1.barred_deny hcovers)
  | revokedLost => trivial
  | deactivated result =>
    rcases result with ⟨rfl, _⟩ | inert
    · trivial
    · exact inert.consistent

/-- The instant at which `verify` has read the clock, for a call that looks its token up. -/
def readAt? : Call → Act → Option Int
  | .resolving _ readAt _, .contains => some readAt
  | .refreshing _ readAt (.verified _), .rotate .contains => some readAt
  | _, _ => none

/-- Each lookup happens at that instant. -/
def AtOnce (s : State) : Action → Prop
  | .act i a => ∀ readAt ∈ readAt? (s.clients i) a, s.world.now = readAt
  | .env _ => True

instance (s : State) : ∀ a, Decidable (AtOnce s a)
  | .act i a => inferInstanceAs (Decidable (∀ readAt ∈ readAt? (s.clients i) a, _))
  | .env _ => isTrue trivial

/-- The token has been revoked, or consumed by a refresh. -/
def Revoked (token : String) : Call → Prop
  | .revoked token' => token' = token
  | .refreshing token' _ (.added _) => token' = token
  | .paired (some r) => r.origin = .refresh token
  | _ => False

/-- The call has authenticated the token, or is past the lookup of a refresh. -/
def Accepts (token : String) : Call → Prop
  | .resolved token' (some _) => token' = token
  | .refreshing token' _ (.unlisted _) => token' = token
  | .refreshing token' _ (.checkingUser _ _) => token' = token
  | .refreshing token' _ (.ready _) => token' = token
  | .refreshing token' _ (.adding _ _) => token' = token
  | .refreshing token' _ (.added _) => token' = token
  | .paired (some r) => r.origin = .refresh token
  | _ => False

theorem Consistent.denied (h : Consistent f w k) (hr : Revoked token k) : Denied f w token := by
  unfold Revoked at hr
  split at hr
  · subst hr
    exact h
  · subst hr
    exact h
  · exact h token hr
  · exact hr.elim

theorem Call.Inert.not_accepts (h : k.Inert) : ¬ Accepts token k := by
  unfold Call.Inert at h
  split at h <;> first | exact h.elim | exact id

/-- A call does not come to accept a token that is denied. -/
theorem Turn.accepts (h : Turn f i w k a w' k') (hk : Consistent f w k) (hd : Denied f w token)
    (hn : ¬ Accepts token k) (hat : ∀ readAt ∈ readAt? k a, w.now = readAt) :
    ¬ Accepts token k' := by
  have unlisted {token' : String} {readAt : Int} {v : VerifiedToken} (hheld : Held f w token' v)
      (halive : readAt < v.expiresAt) (hnow : w.now = readAt)
      (hu : w.contains v.jti = false) : token' ≠ token := by
    rintro rfl
    rw [(hd v hheld.2).contains (hnow ▸ halive)] at hu
    cases hu
  cases h with
  | quiet inert => exact inert.not_accepts
  | committed result => rcases result with rfl | ⟨_, rfl⟩ <;> exact id
  | loggedIn fresh pair =>
    rw [issuePair_eq pair]
    intro ht
    cases ht
  | minted fresh pair =>
    rw [issuePair_eq pair]
    intro ht
    cases ht
  | resolved absent => exact unlisted hk.1 hk.2 (hat _ rfl) absent
  | unlisted absent => exact unlisted hk.1 hk.2 (hat _ rfl) absent
  | roleOnly => exact hn
  | userBound => exact hn
  | active => exact hn
  | measured => exact hn
  | spent => exact hn
  | rotated fresh pair =>
    rw [issuePair_eq pair]
    intro ht
    cases ht
    exact hn rfl
  | deactivated result =>
    rcases result with ⟨rfl, _⟩ | inert
    · exact id
    · exact inert.not_accepts
  | _ => exact id

theorem env_later {e : Env} (h : env w e = some w') :
    Later f w w' ∧ (Distinct w → Distinct w') := by
  cases e with
  | tick microseconds =>
    cases h
    have hle : w.now ≤ w.now + microseconds := Int.le_add_of_nonneg_right (Int.natCast_nonneg _)
    refine ⟨⟨hle, fun _ hr => hr, fun v hv => ?_⟩, fun hd => hd.of_same rfl (fun _ h => h)⟩
    exact hv.imp (fun hv => Int.le_trans hv hle) (fun hv => hv)
  | linger jti microseconds =>
    simp only [env] at h
    split at h
    · cases h
    · rename_i expiry hentry
      split at h
      · cases h
        refine ⟨⟨Int.le_refl _, fun _ hr => hr, fun v hv => hv.imp_right fun hv => ?_⟩,
          fun hd => hd.of_same rfl (fun _ h => h)⟩
        obtain ⟨hknown, expiry', hentry', hle⟩ := hv
        refine ⟨hknown.mono (fun _ hr => hr), ?_⟩
        by_cases he : Auth.World.key v.jti = Auth.World.key jti
        · rw [he, hentry] at hentry'
          cases hentry'
          exact ⟨expiry + microseconds, by simp [he], by omega⟩
        · exact ⟨expiry', by simpa [he] using hentry', hle⟩
      · cases h

/-- The conditions on the codec and on the lookups. -/
def Sound (f : AuthFacade) (s : State) (a : Action) : Prop := Genuine f s a ∧ AtOnce s a

variable {now : Int} {users : List UserRow}

theorem distinct_initial : Distinct (.initial now users) where
  unique r hr := by cases hr
  drawn r hr := by cases hr

/-- In every state of a run each call is consistent with the denylist. -/
theorem consistent_of_reaches {as : List Action} {s : State}
    (h : (pool f (.initial now users)).machine.Reaches as s)
    (hm : (pool f (.initial now users)).machine.Meets (Sound f)
      (pool f (.initial now users)).machine.start as) :
    Pool.Good Distinct (fun _ w k => Consistent f w k) s := by
  refine Pool.good_of_meets ⟨distinct_initial, fun _ => trivial⟩ ?_ ?_ h hm
  · intro s i a w k hg hok hw
    have hturn := step_turn hw
    have hl := hturn.later hg.1 (hg.2 i)
    refine ⟨hturn.distinct hg.1, ?_, fun j _ => (hg.2 j).mono hl⟩
    exact hturn.consistent hg.1 (hg.2 i) (hok.1.1 _ hw) hok.1.2
  · intro s e w hg _ hw
    obtain ⟨hl, hd⟩ := env_later hw
    exact ⟨hd hg.1, fun j => (hg.2 j).mono hl⟩

/-- A token that has been revoked or consumed is not accepted by any call that starts
later. -/
theorem revocation_is_permanent {as bs : List Action} {s t : State}
    (h : (pool f (.initial now users)).machine.Reaches as s)
    (ht : (pool f (.initial now users)).machine.exec s bs = some t)
    (hm : (pool f (.initial now users)).machine.Meets (Sound f)
      (pool f (.initial now users)).machine.start (as ++ bs))
    {i j : Nat} (hi : Revoked token (s.clients i)) (hj : s.clients j = .idle) :
    ¬ Accepts token (t.clients j) := by
  obtain ⟨hpre, hpost⟩ := meets_append.mp hm
  have hs := consistent_of_reaches h hpre
  have hgood := @Pool.good_of_exec _ _ _ _ _ _ (pool f (.initial now users))
    (fun w => Distinct w ∧ Denied f w token)
    (fun l w k => Consistent f w k ∧ (s.clients l = .idle → ¬ Accepts token k)) (Sound f)
    ?_ ?_ bs s t ⟨⟨hs.1, (hs.2 i).denied hi⟩, ?_⟩ ht (hpost s h)
  · exact (hgood.2 j).2 hj
  · intro u l a w k hg hok hw
    obtain ⟨⟨hd, hdenied⟩, hk⟩ := hg
    have hturn := step_turn hw
    have hl := hturn.later hd (hk l).1
    refine ⟨⟨hturn.distinct hd, hdenied.mono hl⟩, ⟨?_, ?_⟩, fun m _ => ⟨(hk m).1.mono hl, (hk m).2⟩⟩
    · exact hturn.consistent hd (hk l).1 (hok.1.1 _ hw) hok.1.2
    · intro hidle
      exact hturn.accepts (hk l).1 hdenied ((hk l).2 hidle) hok.2
  · intro u e w hg _ hw
    obtain ⟨⟨hd, hdenied⟩, hk⟩ := hg
    obtain ⟨hl, hkeep⟩ := env_later hw
    exact ⟨⟨hkeep hd, hdenied.mono hl⟩, fun m => ⟨(hk m).1.mono hl, (hk m).2⟩⟩
  · intro l
    refine ⟨hs.2 l, fun hidle => ?_⟩
    rw [hidle]
    exact id

end

instance (f : AuthFacade) (s : State) (a : Action) : Decidable (Sound f s a) :=
  inferInstanceAs (Decidable (_ ∧ _))

def adminPair : AuthFacade := sampleFacade [(.admin, none, nth 1, nth 2)]

/-- A revocation half a second after the issue whose write waits for a second. -/
def revokeLate : List Action :=
  [.act 0 (.mint (nth 1) (nth 2)), .env (.tick 500000), .act 1 (.revoke (refreshToken (nth 2))),
    .act 1 .measure, .env (.tick 1000000), .act 1 .add]

/-- A refresh within the last second of the token's life. -/
def refreshAtLast : List Action :=
  [.env (.tick 3598400000), .act 2 (.refresh (refreshToken (nth 2))), .act 2 (.rotate .contains)]

theorem last_refresh_is_refused : ∃ s t,
    (pool adminPair (.initial 0 [])).machine.Reaches revokeLate s ∧
      (pool adminPair (.initial 0 [])).machine.exec s refreshAtLast = some t ∧
      t.clients 2 = .refreshing (refreshToken (nth 2)) 3599900000 (.returned none) ∧
      ¬ Accepts (refreshToken (nth 2)) (t.clients 2) := by
  have hr : ((pool adminPair (.initial 0 [])).machine.exec
      (pool adminPair (.initial 0 [])).machine.start revokeLate).map
      (fun s => (s.clients 1, s.clients 2)) = some (.revoked (refreshToken (nth 2)), .idle) := by
    decide +kernel
  obtain ⟨s, hs, hc⟩ := Machine.reaches_of_map hr
  have ht : ((pool adminPair (.initial 0 [])).machine.exec
      (pool adminPair (.initial 0 [])).machine.start (revokeLate ++ refreshAtLast)).map
      (fun s => s.clients 2) =
        some (.refreshing (refreshToken (nth 2)) 3599900000 (.returned none)) := by
    decide +kernel
  rw [exec_append, hs] at ht
  obtain ⟨t, hst, hclient⟩ := Option.map_eq_some_iff.mp ht
  obtain ⟨hrevoker, hidle⟩ := Prod.mk.inj hc
  have hrevoked : Revoked (refreshToken (nth 2)) (s.clients 1) := by
    rw [hrevoker]
    rfl
  exact ⟨s, t, hs, hst, hclient,
    revocation_is_permanent hs hst (by decide +kernel) hrevoked hidle⟩

end BackendTemplates.Auth.Facade
