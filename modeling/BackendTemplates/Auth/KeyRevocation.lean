import BackendTemplates.Auth.AdminRoots

namespace BackendTemplates.Auth.Surface
open Python Runs Queries

/-- Neither a JWT nor the static token: it can be an API key only. -/
structure KeyShaped (cfg : Config) (token : String) : Prop where
  dots : token.toList.count '.' ≠ 2
  static : cfg.adminToken ≠ some token

instance (cfg : Config) (token : String) : Decidable (KeyShaped cfg token) :=
  decidable_of_iff (token.toList.count '.' ≠ 2 ∧ cfg.adminToken ≠ some token)
    ⟨fun h => ⟨h.1, h.2⟩, fun h => ⟨h.dots, h.static⟩⟩

/-- The request is past the guard as somebody, or has the cookie, by this token. -/
def Phase.LetIn (token : String) : Phase → Prop
  | .admitted _ presented user _ => presented = some token ∧ user.role ≠ .unknown
  | .signedIn presented => presented = token
  | _ => False

instance (token : String) (phase : Phase) : Decidable (phase.LetIn token) := by
  unfold Phase.LetIn
  split <;> infer_instance

/-- The lookup of the token has found a key, and the request has yet to go on with it. -/
def Phase.Found (token : String) : Phase → Prop
  | .resuming _ presented (some (.done (some _))) => presented = token
  | .resumingSignIn presented (some (.done (some _))) => presented = token
  | _ => False

instance (token : String) (phase : Phase) : Decidable (phase.Found token) := by
  unfold Phase.Found
  split <;> infer_instance

/-- Some request to revoke the key has been answered with success. -/
def State.Revoked (s : State) (id : Uuid) : Prop :=
  ∃ j presented user, s.requests j = .admitted (.revokeKey id) presented user .revoked

/-- The action draws a secret with the hash of the token. -/
def Draws (cfg : Config) (token : String) : Action → Prop
  | .insertKey _ _ entropy _ _ => cfg.sha256 (apiKeyPrefix ++ entropy) = cfg.sha256 token
  | _ => False

instance (cfg : Config) (token : String) (a : Action) : Decidable (Draws cfg token a) := by
  unfold Draws
  split <;> infer_instance

/-- What is left to do for such a token: the lookup. -/
def lookup (cfg : Config) (token : String) : Authenticating :=
  .ask (.findActiveByHash (cfg.sha256 token)) fun record => .done
    (record.map fun r => ⟨r.role, String.ofList ((hexText r.id.digits).take 8), none⟩)

def Asking (cfg : Config) (token : String) : Phase → Prop
  | .authenticating _ presented rest => presented = token → rest = lookup cfg token
  | .resuming _ presented rest => presented = token → ∀ r ∈ rest, ∃ found, r = .done found
  | .signingIn presented rest => presented = token → rest = lookup cfg token
  | .resumingSignIn presented rest => presented = token → ∀ r ∈ rest, ∃ found, r = .done found
  | _ => True

/-- Rows stand for grants, revoked keys are deleted, and keys are looked up. -/
structure Tabled (cfg : Config) (s : State) : Prop where
  rows : ∀ row ∈ s.keys, ∃ g ∈ s.grants,
    row.id = g.row.id ∧ row.keyHash = cfg.sha256 g.plaintext
  revoked : ∀ id, s.Revoked id → (∃ row ∈ s.keys, row.id = id) ∧
    ∀ row ∈ s.keys, row.id = id → row.deletedAt ≠ none
  asking : ∀ token, KeyShaped cfg token → ∀ i, Asking cfg token (s.requests i)

/-- No active key has the hash of the token. -/
def Dead (cfg : Config) (token : String) (s : State) : Prop :=
  ∀ row ∈ s.keys, row.keyHash = cfg.sha256 token → row.deletedAt ≠ none

section
variable {cfg : Config} {s t : State} {a : Action} {token : String}

theorem authenticate_key (h : KeyShaped cfg token) :
    cfg.authenticate s token = .done none ∨ cfg.authenticate s token = lookup cfg token := by
  have hjwt : jwtTokenResolver cfg.facade.jwt s.facade.world.now token = .done none := by
    simp [jwtTokenResolver, h.dots]
  have hstatic : staticTokenResolver cfg.sha256 cfg.adminToken token = .done none := by
    unfold staticTokenResolver
    split
    · rfl
    split
    · rfl
    split
    · rfl
    · rename_i value hvalue _ hsame
      exact absurd (utf8_injective (not_not.mp hsame) ▸ hvalue) h.static
  simp only [Config.authenticate, tokenResolvers, compositeTokenResolver, hjwt, hstatic, Prog.bind,
    apiKeyResolver]
  split
  · exact .inl rfl
  · right
    simp only [Prog.bind, lookup]
    congr 1
    funext record
    cases record <;> rfl

/-- Nothing is left to do for the token, or its lookup. -/
def Ends (cfg : Config) (token : String) (rest : Authenticating) : Prop :=
  rest = lookup cfg token ∨ ∃ found, rest = .done found

theorem attach_asking {e : Endpoint} {presented : Option String} {user : Principal} :
    Asking cfg token (attach e presented user) := by
  unfold attach
  repeat' split
  all_goals trivial

theorem advance_asking {e : Endpoint} {presented : String} {rest : Authenticating}
    (h : presented = token → Ends cfg token rest) :
    Asking cfg token (advance e presented rest) := by
  unfold advance
  split
  · exact attach_asking
  · trivial
  · rename_i hdone _
    intro hp
    rcases h hp with hrest | ⟨found, hrest⟩
    · exact hrest
    · exact (hdone found hrest).elim

theorem advanceSignIn_asking {presented : String} {rest : Authenticating}
    (h : presented = token → Ends cfg token rest) :
    Asking cfg token (advanceSignIn presented rest) := by
  unfold advanceSignIn
  split
  · trivial
  · split <;> trivial
  · trivial
  · rename_i hnone hsome _
    intro hp
    rcases h hp with hrest | ⟨found, hrest⟩
    · exact hrest
    · cases found with
      | none => exact (hnone hrest).elim
      | some principal => exact (hsome principal hrest).elim

theorem authenticate_ends (h : KeyShaped cfg token) :
    Ends cfg token (cfg.authenticate s token) := by
  rcases authenticate_key (s := s) h with hrest | hrest
  · exact .inr ⟨none, hrest⟩
  · exact .inl hrest

/-- An answer to the lookup leaves nothing to do. -/
theorem lookup_ends {q : Query} {next : q.Answer → Authenticating}
    (h : Prog.ask q next = lookup cfg token) :
    ∀ r ∈ (s.answer q).map next, ∃ found, r = .done found := by
  intro r hr
  obtain ⟨answer, -, rfl⟩ := Option.map_eq_some_iff.mp hr
  cases h
  exact ⟨_, rfl⟩

theorem Turn.asking {phase phase' : Phase} (h : Turn cfg s a phase phase')
    (hk : KeyShaped cfg token) (hnow : Asking cfg token phase) : Asking cfg token phase' := by
  cases h with
  | unknown => exact attach_asking
  | arrived =>
    apply advance_asking
    rintro rfl
    exact authenticate_ends hk
  | rejected => trivial
  | signingIn =>
    apply advanceSignIn_asking
    rintro rfl
    exact authenticate_ends hk
  | answered => exact fun he => lookup_ends (hnow he)
  | resumed => exact advance_asking (fun he => .inr (hnow he _ rfl))
  | unavailable | unanswered => exact attach_asking
  | signInAnswered => exact fun he => lookup_ends (hnow he)
  | signInResumed => exact advanceSignIn_asking (fun he => .inr (hnow he _ rfl))
  | signInFailed | signInUnanswered => trivial
  | worked => trivial

theorem put_asking {i : Nat} {phase : Phase} (h : ∀ i, Asking cfg token (s.requests i))
    (hp : Asking cfg token phase) (j : Nat) : Asking cfg token ((s.put i phase).requests j) := by
  by_cases hj : j = i
  · subst hj
    simpa [State.put] using hp
  · simpa [State.put, hj] using h j

def Phase.revoked : Phase → Prop
  | .admitted _ _ _ .revoked => True
  | _ => False

theorem attach_not_revoked {e : Endpoint} {presented : Option String} {user : Principal} :
    ¬ (attach e presented user).revoked := by
  unfold attach
  repeat' split
  all_goals exact id

theorem Turn.not_revoked {phase phase' : Phase} (h : Turn cfg s a phase phase') :
    ¬ phase'.revoked := by
  have hadvance {e : Endpoint} {presented : String} {rest : Authenticating} :
      ¬ (advance e presented rest).revoked := by
    unfold advance
    split
    · exact attach_not_revoked
    all_goals exact id
  have hsignIn {presented : String} {rest : Authenticating} :
      ¬ (advanceSignIn presented rest).revoked := by
    unfold advanceSignIn
    repeat' split
    all_goals exact id
  cases h with
  | unknown | unavailable | unanswered => exact attach_not_revoked
  | arrived | resumed => exact hadvance
  | signingIn | signInResumed => exact hsignIn
  | rejected | answered | signInAnswered | signInFailed | signInUnanswered => exact id
  | @worked _ _ _ _ work kept =>
    cases work with
    | revoked => exact absurd rfl kept
    | _ => exact id

/-- A request that has revoked no key by its step leaves it to the others. -/
theorem revoked_put {i : Nat} {phase : Phase} {id : Uuid} {keys : List ApiKeyRow}
    {grants : List Grant} (kept : ¬ phase.revoked)
    (h : State.Revoked ({ s with keys := keys, grants := grants }.put i phase) id) :
    s.Revoked id := by
  obtain ⟨j, presented, user, hj⟩ := h
  by_cases hji : j = i
  · subst hji
    obtain rfl : phase = _ := (Function.update_self ..).symm.trans hj
    exact absurd trivial kept
  · exact ⟨j, presented, user, by simpa [State.put, hji] using hj⟩

theorem isActiveKey_iff {keys : List ApiKeyRow} {id : Uuid} :
    isActiveKey keys id = true ↔ ∃ row ∈ keys, row.id = id ∧ row.deletedAt = none := by
  simp [isActiveKey]

/-- Behind the update no row with the id is active. -/
theorem softDeleteKey_deleted {keys : List ApiKeyRow} {id : Uuid} {deletedAt : Int}
    {row : ApiKeyRow} (h : row ∈ softDeleteKey keys id deletedAt) (hid : row.id = id) :
    row.deletedAt ≠ none := by
  obtain ⟨old, -, rfl⟩ := List.mem_map.mp h
  unfold ApiKeyRow.deleteAt at hid ⊢
  split
  · simp
  · rename_i hno
    rw [if_neg hno] at hid
    exact fun hd => hno ⟨hid, hd⟩

theorem mem_softDeleteKey_of_mem {keys : List ApiKeyRow} {id : Uuid} {deletedAt : Int}
    {row : ApiKeyRow} (h : row ∈ keys) :
    ∃ row' ∈ softDeleteKey keys id deletedAt, row'.id = row.id :=
  ⟨_, List.mem_map_of_mem h, by unfold ApiKeyRow.deleteAt; split <;> rfl⟩

theorem softDeleteKey_keeps {keys : List ApiKeyRow} {id : Uuid} {deletedAt : Int}
    {row : ApiKeyRow} (h : row ∈ softDeleteKey keys id deletedAt) :
    ∃ old ∈ keys, row.id = old.id ∧ row.keyHash = old.keyHash ∧
      (old.deletedAt ≠ none → row.deletedAt ≠ none) := by
  obtain ⟨old, hold, hhash, hid, rfl | ⟨-, hnone⟩⟩ := mem_softDeleteKey h
  · exact ⟨row, hold, rfl, rfl, fun hd => hd⟩
  · exact ⟨old, hold, hid, hhash, fun hd => absurd hnone hd⟩

theorem Tabled.step (h : Tabled cfg s) (ht : step cfg s a = some t) : Tabled cfg t := by
  cases step_moves ht with
  | @request _ i phase phase' now turn =>
    refine ⟨h.rows, fun id hid => h.revoked id (revoked_put turn.not_revoked hid), ?_⟩
    intro token hk
    have hnow := h.asking token hk i
    rw [now] at hnow
    exact put_asking (h.asking token hk) (turn.asking hk hnow)
  | work _ _ stepped => exact ⟨h.rows, h.revoked, h.asking⟩
  | @granted i id name entropy createdAt _ presented user work now accepted kept =>
    have hkept : ¬ (Phase.admitted (.createKey name) presented user work).revoked := by
      cases work with
      | revoked => exact absurd rfl kept
      | _ => exact fun h => h
    refine ⟨?_, ?_, fun token hk => put_asking (s := { s with
      keys := _, grants := _ }) (h.asking token hk) trivial⟩
    · intro row hrow
      rcases List.mem_cons.mp hrow with rfl | hrow
      · exact ⟨_, List.mem_cons_self, rfl, rfl⟩
      · obtain ⟨g, hg, hsame⟩ := h.rows row hrow
        exact ⟨g, List.mem_cons_of_mem _ hg, hsame⟩
    · intro other hother
      obtain ⟨⟨row, hrow, hid⟩, hdeleted⟩ := h.revoked other (revoked_put hkept hother)
      refine ⟨⟨row, List.mem_cons_of_mem _ hrow, hid⟩, ?_⟩
      intro row' hrow' hid'
      rcases List.mem_cons.mp hrow' with rfl | hrow'
      · -- The primary key of a revoked row is not given again.
        simp only [accepts, Bool.not_eq_true', List.any_eq_false] at accepted
        have hno := accepted row hrow
        rw [hid, ← hid'] at hno
        simp at hno
      · exact hdeleted row' hrow' hid'
  | @deleted _ i id deletedAt presented user work now matched =>
    refine ⟨?_, ?_, fun token hk => put_asking (s := { s with keys := _ })
      (h.asking token hk) trivial⟩
    · intro row hrow
      obtain ⟨old, hold, hid, hhash, -⟩ := softDeleteKey_keeps hrow
      rw [hid, hhash]
      exact h.rows old hold
    · intro other hother
      obtain ⟨j, presented', user', hj⟩ := hother
      have hcases : s.Revoked other ∨ other = id ∧ isActiveKey s.keys id = true := by
        by_cases hji : j = i
        · subst hji
          have hphase := (Function.update_self ..).symm.trans hj
          cases hphase
          exact .inr ⟨rfl, matched rfl⟩
        · exact .inl ⟨j, presented', user', by simpa [State.put, hji] using hj⟩
      rcases hcases with hbefore | ⟨rfl, hactive⟩
      · obtain ⟨⟨row, hrow, rfl⟩, hdeleted⟩ := h.revoked other hbefore
        refine ⟨mem_softDeleteKey_of_mem hrow, fun row' hrow' hid' => ?_⟩
        obtain ⟨old, hold, hid, -, hkeeps⟩ := softDeleteKey_keeps hrow'
        exact hkeeps (hdeleted old hold (hid.symm.trans hid'))
      · obtain ⟨row, hrow, rfl, -⟩ := isActiveKey_iff.mp hactive
        exact ⟨mem_softDeleteKey_of_mem hrow,
          fun row' hrow' hid' => softDeleteKey_deleted hrow' hid'⟩
  | env stepped => exact ⟨h.rows, h.revoked, h.asking⟩

theorem tabled {as : List Action} (h : (machine cfg).Reaches as s) : Tabled cfg s := by
  refine h.invariant_of_meets (I := Tabled cfg) ?_ (fun _ _ _ hI _ ht => hI.step ht)
    (meets_trivial _ _)
  exact
    { rows := fun _ hrow => absurd hrow List.not_mem_nil
      revoked := fun _ hid => by
        obtain ⟨_, _, _, hj⟩ := hid
        cases hj
      asking := fun _ _ _ => trivial }

/-- A table without an active row of the hash has nothing to answer. -/
theorem findActiveByHash_dead (h : Dead cfg token s) :
    findActiveByHash s.keys (cfg.sha256 token) = some none := by
  have hnone : s.keys.filter (ApiKeyRow.activeWith (cfg.sha256 token)) = [] := by
    apply List.filter_eq_nil_iff.mpr
    intro row hrow
    simp only [ApiKeyRow.activeWith, Bool.and_eq_true, beq_iff_eq, Option.isNone_iff_eq_none]
    rintro ⟨hhash, hd⟩
    exact h row hrow hhash hd
  rw [findActiveByHash, hnone]

theorem Dead.step (h : Dead cfg token s) (hdraw : ¬ Draws cfg token a)
    (ht : step cfg s a = some t) : Dead cfg token t := by
  cases step_moves ht with
  | granted =>
    intro row hrow hhash
    rcases List.mem_cons.mp hrow with rfl | hrow
    · exact absurd hhash hdraw
    · exact h row hrow hhash
  | deleted =>
    intro row hrow hhash
    obtain ⟨old, hold, -, hsame, hkeeps⟩ := softDeleteKey_keeps hrow
    exact hkeeps (h old hold (hsame.symm.trans hhash))
  | _ => exact h

/-- The request is in with the token, or about to be. -/
def Phase.Through (token : String) (phase : Phase) : Prop := phase.LetIn token ∨ phase.Found token

theorem attach_not_found {e : Endpoint} {presented : Option String} {user : Principal} :
    ¬ (attach e presented user).Found token := by
  unfold attach
  repeat' split
  all_goals exact id

theorem attach_anonymous {e : Endpoint} {presented : Option String} :
    ¬ (attach e presented anonymous).Through token := by
  refine not_or.mpr ⟨?_, attach_not_found⟩
  unfold attach
  repeat' split
  all_goals simp [Phase.LetIn, anonymous]

/-- Nobody is let in by another token. -/
theorem advance_other {e : Endpoint} {presented : String} {rest : Authenticating}
    (h : presented = token → rest = .done none ∨ rest = lookup cfg token) :
    ¬ (advance e presented rest).Through token := by
  by_cases hp : presented = token
  · rcases h hp with rfl | rfl
    · exact attach_anonymous
    · exact not_or.mpr ⟨id, id⟩
  · unfold advance
    split
    · refine not_or.mpr ⟨?_, attach_not_found⟩
      unfold attach
      repeat' split
      all_goals simp [Phase.LetIn, hp]
    all_goals exact not_or.mpr ⟨id, id⟩

theorem advanceSignIn_other {presented : String} {rest : Authenticating}
    (h : presented = token → rest = .done none ∨ rest = lookup cfg token) :
    ¬ (advanceSignIn presented rest).Through token := by
  by_cases hp : presented = token
  · rcases h hp with rfl | rfl <;> exact not_or.mpr ⟨id, id⟩
  · unfold advanceSignIn
    repeat' split
    all_goals first | exact not_or.mpr ⟨hp, id⟩ | exact not_or.mpr ⟨id, id⟩

/-- With no active key of the hash, the lookup finds none. -/
theorem lookup_dead (hd : Dead cfg token s) {q : Query} {next : q.Answer → Authenticating}
    (h : Prog.ask q next = lookup cfg token) : (s.answer q).map next = some (.done none) := by
  cases h
  rw [State.answer, findActiveByHash_dead hd]
  rfl

theorem presented_of_found {e : Endpoint} {presented : String} {rest : Option Authenticating}
    (h : (Phase.resuming e presented rest).Found token) : presented = token := by
  unfold Phase.Found at h
  split at h
  · rename_i hphase
    cases hphase
    exact h
  · rename_i hphase
    cases hphase
  · exact h.elim

theorem presented_of_found_signIn {presented : String} {rest : Option Authenticating}
    (h : (Phase.resumingSignIn presented rest).Found token) : presented = token := by
  unfold Phase.Found at h
  split at h
  · rename_i hphase
    cases hphase
  · rename_i hphase
    cases hphase
    exact h
  · exact h.elim

/-- Where the lookup has found no key, the resolvers end without a principal. -/
theorem ends_of_not_found (cfg : Config) {presented : String} {rest : Authenticating}
    (hask : presented = token → ∀ r ∈ some rest, ∃ found, r = .done found)
    (hnot : ∀ principal, rest = .done (some principal) → presented ≠ token) :
    presented = token → rest = .done none ∨ rest = lookup cfg token := by
  intro he
  obtain ⟨found, rfl⟩ := hask he _ rfl
  cases found with
  | none => exact .inl rfl
  | some principal => exact absurd he (hnot principal rfl)

theorem Turn.not_through {phase phase' : Phase} (h : Turn cfg s a phase phase')
    (hk : KeyShaped cfg token) (hd : Dead cfg token s) (hask : Asking cfg token phase)
    (hnot : ¬ phase.Through token) : ¬ phase'.Through token := by
  obtain ⟨hout, hfound⟩ := not_or.mp hnot
  cases h with
  | unknown | unavailable | unanswered => exact attach_anonymous
  | arrived =>
    apply advance_other
    rintro rfl
    exact authenticate_key hk
  | rejected | signInFailed | signInUnanswered => exact not_or.mpr ⟨id, id⟩
  | signingIn =>
    apply advanceSignIn_other
    rintro rfl
    exact authenticate_key hk
  | answered =>
    refine not_or.mpr ⟨id, fun hx => ?_⟩
    rw [lookup_dead hd (hask (presented_of_found hx))] at hx
    exact hx
  | resumed =>
    refine advance_other (ends_of_not_found cfg hask ?_)
    rintro principal rfl
    exact hfound
  | signInAnswered =>
    refine not_or.mpr ⟨id, fun hx => ?_⟩
    rw [lookup_dead hd (hask (presented_of_found_signIn hx))] at hx
    exact hx
  | signInResumed =>
    refine advanceSignIn_other (ends_of_not_found cfg hask ?_)
    rintro principal rfl
    exact hfound
  | worked => exact not_or.mpr ⟨hout, id⟩

theorem not_through_step (ht : step cfg s a = some t) (hk : KeyShaped cfg token)
    (hd : Dead cfg token s) (hask : ∀ i, Asking cfg token (s.requests i)) {i : Nat}
    (hnot : ¬ (s.requests i).Through token) : ¬ (t.requests i).Through token := by
  have hput {j : Nat} {phase phase' : Phase} (now : s.requests j = phase)
      (hkeeps : ¬ phase.Through token → ¬ phase'.Through token) :
      ¬ (Function.update s.requests j phase' i).Through token := by
    by_cases hij : i = j
    · subst hij
      rw [Function.update_self]
      exact hkeeps (now ▸ hnot)
    · rwa [Function.update_of_ne hij]
  cases step_moves ht with
  | @request _ j _ _ now turn => exact hput now (turn.not_through hk hd (now ▸ hask j))
  | work => exact hnot
  | granted now => exact hput now id
  | deleted now => exact hput now id
  | env => exact hnot

/-- Once every key that a token stands for has been revoked, the token lets nobody in any
more who was not in before, unless the lookup of his request had already found the key. No
list shows such a key. -/
theorem revoked_key_is_refused {as bs : List Action} (h : (machine cfg).Reaches as s)
    (hs : (machine cfg).exec s bs = some t) (hk : KeyShaped cfg token)
    (hrevoked : ∀ g ∈ s.grants, cfg.sha256 g.plaintext = cfg.sha256 token → s.Revoked g.row.id)
    (hdraw : ∀ a ∈ bs, ¬ Draws cfg token a) :
    (∀ i, ¬ (s.requests i).LetIn token → ¬ (s.requests i).Found token →
      ¬ (t.requests i).LetIn token) ∧
      ∀ row ∈ listActive t.keys, row.keyHash ≠ cfg.sha256 token := by
  have htable := tabled h
  have hdead : Dead cfg token s := by
    intro row hrow hhash
    obtain ⟨g, hg, hid, hsame⟩ := htable.rows row hrow
    exact (htable.revoked _ (hrevoked g hg (hsame.symm.trans hhash))).2 row hrow hid
  have hrun : Tabled cfg t ∧ Dead cfg token t ∧
      ∀ i, ¬ (s.requests i).Through token → ¬ (t.requests i).Through token := by
    have hm : (machine cfg).Meets (fun _ a => ¬ Draws cfg token a) s bs :=
      (meets_action hs).mpr hdraw
    refine exec_invariant_of_meets (I := fun u => Tabled cfg u ∧ Dead cfg token u ∧
        ∀ i, ¬ (s.requests i).Through token → ¬ (u.requests i).Through token)
      ?_ ⟨htable, hdead, fun _ hnot => hnot⟩ hs hm
    rintro u a v ⟨htu, hdu, hnot⟩ ha hstep
    exact ⟨htu.step hstep, hdu.step ha hstep,
      fun i hi => not_through_step hstep hk hdu (htu.asking token hk) (hnot i hi)⟩
  refine ⟨fun i hout hfound => (not_or.mp (hrun.2.2 i (not_or.mpr ⟨hout, hfound⟩))).1,
    fun row hrow hhash => ?_⟩
  obtain ⟨hmem, hactive⟩ := List.mem_filter.mp (List.mem_mergeSort.mp hrow)
  exact hrun.2.1 row hmem hhash (by simpa using hactive)

end

/-- The id of the key that a request has revoked. -/
def Phase.revokes? : Phase → Option Uuid
  | .admitted (.revokeKey id) _ _ .revoked => some id
  | _ => none

theorem revoked_of_revokes {s : State} {j : Nat} {id : Uuid}
    (h : (s.requests j).revokes? = some id) : s.Revoked id := by
  unfold Phase.revokes? at h
  split at h
  · rename_i presented user hphase
    cases h
    exact ⟨j, presented, user, hphase⟩
  · cases h

/-- A key is generated and used, a second request with it waits for its lookup, and the key is
revoked. -/
def revocation : List Action :=
  [.arrive 1 (bearing "s3cret") (.createKey "ci"), .insertKey 1 (Facade.nth 7) "k" 0 none,
    .arrive 2 (bearing "ak_k") .me, .answer 2, .resume 2, .arrive 3 (bearing "ak_k") .listKeys,
    .arrive 4 (bearing "s3cret") (.revokeKey (Facade.nth 7)), .deleteKey 4 1 none]

theorem waiting_request_is_refused : ∃ s t, (machine sample).Reaches revocation s ∧
    (machine sample).exec s [.answer 3, .resume 3] = some t ∧
    (s.requests 2).LetIn "ak_k" ∧ ¬ (t.requests 3).LetIn "ak_k" := by
  have hr : ((machine sample).exec (machine sample).start revocation).map (fun s =>
      (s.grants.map (fun g => g.row.id), (s.requests 4).revokes?,
        decide ((s.requests 2).LetIn "ak_k"), decide ((s.requests 3).LetIn "ak_k"),
        decide ((s.requests 3).Found "ak_k"))) =
        some ([Facade.nth 7], some (Facade.nth 7), true, false, false) := by decide +kernel
  obtain ⟨s, hs, hobserved⟩ := Machine.reaches_of_map hr
  simp only [Prod.mk.injEq, decide_eq_true_eq, decide_eq_false_iff_not] at hobserved
  obtain ⟨hgrants, hrevokes, hused, hwaits, hnotFound⟩ := hobserved
  have ht : (((machine sample).exec (machine sample).start
      (revocation ++ [.answer 3, .resume 3])).map (fun _ => ())) = some () := by decide +kernel
  rw [exec_append, hs] at ht
  obtain ⟨t, hst, -⟩ := Option.map_eq_some_iff.mp ht
  have hrevoked : ∀ g ∈ s.grants, sample.sha256 g.plaintext = sample.sha256 "ak_k" →
      s.Revoked g.row.id := by
    intro g hg _
    have hid : g.row.id ∈ s.grants.map (fun g => g.row.id) := List.mem_map_of_mem hg
    rw [hgrants, List.mem_singleton] at hid
    exact hid ▸ revoked_of_revokes hrevokes
  exact ⟨s, t, hs, hst, hused,
    (revoked_key_is_refused hs hst (by decide) hrevoked (by decide)).1 3 hwaits hnotFound⟩

end BackendTemplates.Auth.Surface
