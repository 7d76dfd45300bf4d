import BackendTemplates.Processing.DeliveryRecords

namespace BackendTemplates.Processing.FanOut
open Python Runs

/-- How far a delivery is tells exactly what it has done. -/
def Underway (videoOf : Uuid → Uuid) (own : List (Uuid × Deed)) : Processing.Client → Prop
  | .checking video event => video = videoOf event ∧ own = about event [.received]
  | .enqueueing video event kinds => video = videoOf event ∧ ∃ done, JobKind.all = done ++ kinds ∧
      own = about event (.received :: done.map (Deed.enqueued video))
  | .starting video event => video = videoOf event ∧
      own = about event (.received :: enqueuedAll video)
  | .marking video event => video = videoOf event ∧ own = whole videoOf event
  | _ => True

/-- What the deeds of any delivery tell, also when it has ended. -/
structure Proper (videoOf : Uuid → Uuid) (own : List (Uuid × Deed)) : Prop where
  received : ∀ x ∈ own, (x.1, .received) ∈ own
  returned : ∀ event, (event, .returned) ∈ own → own = whole videoOf event ++ [(event, .returned)]
  cut : ∀ event, (event, .cut) ∈ own → ∀ x ∈ own, ∀ video, x.2 ≠ .started video true

section
variable {cfg : Config} {videoOf : Uuid → Uuid} {i : Nat}

theorem Proper.nil : Proper videoOf [] where
  received x h := by cases h
  returned event h := by cases h
  cut event h := by cases h

theorem own_extend (entries : List Entry) (d : Delivery) (new : List (Uuid × Deed)) :
    own d (extend entries d new) = own d entries ++ new := by
  have hnew : own d (new.map (fun x => ⟨d, x.1, x.2⟩)) = new := by
    induction new with
    | nil => rfl
    | cons x new ih =>
      simp only [own, List.map_cons, List.filter_cons, decide_true, if_true] at ih ⊢
      rw [ih]
  simp only [own, extend, List.filter_append, List.map_append] at hnew ⊢
  rw [hnew]

theorem own_extend_other {d e : Delivery} (h : e ≠ d) (entries : List Entry)
    (new : List (Uuid × Deed)) : own e (extend entries d new) = own e entries := by
  have hnew : own e (new.map (fun x => ⟨d, x.1, x.2⟩)) = [] := by
    induction new with
    | nil => rfl
    | cons x new ih => simpa [own, Ne.symm h] using ih
  simp only [own, extend, List.filter_append, List.map_append] at hnew ⊢
  rw [hnew, List.append_nil]

theorem mem_extend {entries : List Entry} {d : Delivery} {new : List (Uuid × Deed)} {x : Entry} :
    x ∈ extend entries d new ↔ x ∈ entries ∨ x.delivery = d ∧ (x.event, x.deed) ∈ new := by
  simp only [extend, List.mem_append, List.mem_map]
  constructor
  · intro h
    rcases h with h | ⟨y, hy, rfl⟩
    · exact .inl h
    · exact .inr ⟨rfl, hy⟩
  · intro h
    rcases h with h | ⟨rfl, hy⟩
    · exact .inl h
    · exact .inr ⟨_, hy, rfl⟩

theorem mem_own {entries : List Entry} {x : Entry} :
    (x.event, x.deed) ∈ own x.delivery entries ↔ x ∈ entries := by
  simp only [own, List.mem_map, List.mem_filter, decide_eq_true_eq, Prod.mk.injEq]
  constructor
  · intro h
    obtain ⟨y, ⟨hy, hd⟩, he, hdeed⟩ := h
    have hxy : x = y := by
      cases x
      cases y
      cases hd
      cases he
      cases hdeed
      rfl
    exact hxy ▸ hy
  · intro h
    exact ⟨x, ⟨h, rfl⟩, rfl, rfl⟩

theorem about_append (event : Uuid) (xs ys : List Deed) :
    about event (xs ++ ys) = about event xs ++ about event ys := List.map_append

theorem mem_about {event : Uuid} {xs : List Deed} {x : Uuid × Deed} :
    x ∈ about event xs ↔ x.1 = event ∧ x.2 ∈ xs := by
  simp only [about, List.mem_map]
  constructor
  · intro h
    obtain ⟨deed, hd, rfl⟩ := h
    exact ⟨rfl, hd⟩
  · intro h
    obtain ⟨rfl, hd⟩ := h
    exact ⟨x.2, hd, rfl⟩

/-- A delivery that has neither returned nor been cut. -/
theorem Proper.undecided {event : Uuid} {xs : List Deed} (hr : .received ∈ xs)
    (hreturned : .returned ∉ xs) (hcut : .cut ∉ xs) : Proper videoOf (about event xs) where
  received _ hx := mem_about.mpr ⟨(mem_about.mp hx).1, hr⟩
  returned _ hx := absurd (mem_about.mp hx).2 hreturned
  cut _ hx := absurd (mem_about.mp hx).2 hcut

/-- A delivery that has not published. -/
theorem Proper.unstarted {event : Uuid} {xs : List Deed} (hr : .received ∈ xs)
    (hreturned : .returned ∉ xs) (hs : ∀ video, .started video true ∉ xs) :
    Proper videoOf (about event xs) where
  received _ hx := mem_about.mpr ⟨(mem_about.mp hx).1, hr⟩
  returned _ hx := absurd (mem_about.mp hx).2 hreturned
  cut _ _ _ hx video he := hs video (he ▸ (mem_about.mp hx).2)

theorem inbox_markProcessed (ttl : Nat) (w : Processing.World) (event e : Uuid) :
    (w.markProcessed ttl event).inbox e ≠ none ↔ w.inbox e ≠ none ∨ e = event := by
  unfold World.markProcessed
  split
  · rename_i hs
    constructor
    · intro h
      exact .inl h
    · intro h
      rcases h with h | rfl
      · exact h
      · intro hn
        simp [World.seen, hn] at hs
  · by_cases h : e = event
    · simp [h]
    · simp [h]

/-- What a step of one process means for its delivery and for the inbox. -/
structure Moved (videoOf : Uuid → Uuid) (mine : List (Uuid × Deed)) (w w' : Processing.World)
    (k' : Processing.Client) (new : List (Uuid × Deed)) : Prop where
  proper : Proper videoOf (mine ++ new)
  underway : Underway videoOf (mine ++ new) k'
  kept : ∀ event, w.inbox event ≠ none → w'.inbox event ≠ none
  marked : ∀ event, w'.inbox event ≠ none →
    w.inbox event ≠ none ∨ whole videoOf event <+: mine ++ new
  returned : ∀ event, (event, .returned) ∈ new → w'.inbox event ≠ none

variable {w w' : Processing.World} {k k' : Processing.Client} {a : Act} {mine : List (Uuid × Deed)}

theorem Moved.still {new : List (Uuid × Deed)} (hi : w'.inbox = w.inbox)
    (hp : Proper videoOf (mine ++ new)) (hu : Underway videoOf (mine ++ new) k')
    (hn : ∀ event, (event, .returned) ∉ new) : Moved videoOf mine w w' k' new where
  proper := hp
  underway := hu
  kept event h := by rwa [hi]
  marked event h := .inl (by rwa [← hi])
  returned event h := absurd h (hn event)

theorem Moved.undecided {event : Uuid} {xs new : List Deed} (hi : w'.inbox = w.inbox)
    (hr : .received ∈ xs) (hreturned : .returned ∉ xs ++ new) (hcut : .cut ∉ xs ++ new)
    (hu : Underway videoOf (about event (xs ++ new)) k') :
    Moved videoOf (about event xs) w w' k' (about event new) := by
  apply Moved.still hi
  · rw [← about_append]
    exact Proper.undecided (List.mem_append_left _ hr) hreturned hcut
  · rwa [← about_append]
  · intro e he
    exact hreturned (List.mem_append_right _ (mem_about.mp he).2)

theorem Moved.cut {event : Uuid} {xs new : List Deed} (hi : w'.inbox = w.inbox)
    (hr : .received ∈ xs) (hreturned : .returned ∉ xs ++ new)
    (hs : ∀ video, .started video true ∉ xs ++ new) (hu : ∀ mine, Underway videoOf mine k') :
    Moved videoOf (about event xs) w w' k' (about event new) := by
  apply Moved.still hi
  · rw [← about_append]
    exact Proper.unstarted (List.mem_append_left _ hr) hreturned hs
  · exact hu _
  · intro e he
    exact hreturned (List.mem_append_right _ (mem_about.mp he).2)

theorem Proper.of_whole (event : Uuid) :
    Proper videoOf (whole videoOf event ++ about event [.returned]) where
  received _ hx := by
    rw [whole, ← about_append] at hx ⊢
    exact mem_about.mpr ⟨(mem_about.mp hx).1, by simp⟩
  returned e he := by
    rw [whole, ← about_append] at he
    obtain rfl : e = event := (mem_about.mp he).1
    rfl
  cut _ he := by
    rw [whole, ← about_append] at he
    exact absurd (mem_about.mp he).2 (by simp [enqueuedAll])

/-- The mark is set by a delivery that has done everything before it. -/
theorem Moved.marking {event : Uuid} {deed : Deed}
    (hi : ∀ e, w'.inbox e ≠ none ↔ w.inbox e ≠ none ∨ e = event)
    (hp : Proper videoOf (whole videoOf event ++ about event [deed])) :
    Moved videoOf (whole videoOf event) w w' .idle (about event [deed]) where
  proper := hp
  underway := trivial
  kept e he := (hi e).mpr (.inl he)
  marked e he := by
    rcases (hi e).mp he with h | rfl
    · exact .inl h
    · exact .inr (List.prefix_append _ _)
  returned e he := (hi e).mpr (.inr (mem_about.mp he).1)

theorem underway_of_none (h : eventOf k = none) : Underway videoOf mine k := by
  cases k with
  | checking video event => cases h
  | enqueueing video event kinds => cases h
  | starting video event => cases h
  | marking video event => cases h
  | _ => trivial

theorem Turn.moved {ttl : Nat} {new : List (Uuid × Deed)} (h : Turn ttl w k w' k' new)
    (hp : Proper videoOf mine) (hu : Underway videoOf mine k)
    (hr : ∀ video event, k = .idle → k' = .checking video event →
      video = videoOf event ∧ mine = []) :
    Moved videoOf mine w w' k' new := by
  cases h with
  | outside inbox before after =>
    exact Moved.still inbox (by simpa using hp) (underway_of_none after) (by simp)
  | received video event =>
    obtain ⟨hv, rfl⟩ := hr video event rfl rfl
    apply Moved.still rfl
    · exact Proper.undecided (by simp) (by simp) (by simp)
    · exact ⟨hv, rfl⟩
    · simp [about]
  | skipped video event =>
    obtain ⟨hv, rfl⟩ := hu
    exact Moved.undecided rfl (by simp) (by simp) (by simp) trivial
  | unseen video event =>
    obtain ⟨hv, rfl⟩ := hu
    exact Moved.still rfl (by simpa using hp) ⟨hv, [], rfl, rfl⟩ (by simp)
  | enqueued video event kind kinds inbox =>
    obtain ⟨hv, done, hall, rfl⟩ := hu
    refine Moved.undecided inbox (by simp) (by simp) (by simp) ⟨hv, done ++ [kind], ?_, ?_⟩
    · simpa using hall
    · simp
  | ready video event =>
    obtain ⟨hv, done, hall, rfl⟩ := hu
    rw [List.append_nil] at hall
    exact Moved.still rfl (by simpa using hp) ⟨hv, by simp [enqueuedAll, hall]⟩ (by simp)
  | started video event inbox =>
    obtain ⟨rfl, rfl⟩ := hu
    exact Moved.undecided inbox (by simp) (by simp [enqueuedAll]) (by simp [enqueuedAll]) ⟨rfl, rfl⟩
  | marked video event =>
    obtain ⟨hv, rfl⟩ := hu
    exact Moved.marking (inbox_markProcessed _ w event) (Proper.of_whole event)
  | cutChecking video event =>
    obtain ⟨hv, rfl⟩ := hu
    exact Moved.cut rfl (by simp) (by simp) (by simp) (fun _ => trivial)
  | cutEnqueueing video event kinds applied inbox =>
    obtain ⟨hv, done, hall, rfl⟩ := hu
    exact Moved.cut inbox (by simp) (by simp) (by simp) (fun _ => trivial)
  | cutStarting video event applied unreturned inbox =>
    obtain ⟨hv, rfl⟩ := hu
    have hreturned : Deed.returned ∉ applied := fun hx => by cases unreturned _ hx
    have hstarted : ∀ v, Deed.started v true ∉ applied := fun v hx => by cases unreturned _ hx
    exact Moved.cut inbox (by simp) (by simp [enqueuedAll, hreturned])
      (by simp [enqueuedAll, hstarted]) (fun _ => trivial)
  | unmarked video event inbox =>
    obtain ⟨hv, rfl⟩ := hu
    rcases inbox with hi | rfl
    · exact Moved.undecided hi (by simp) (by simp [enqueuedAll]) (by simp [enqueuedAll]) trivial
    · apply Moved.marking (inbox_markProcessed _ w event)
      rw [whole, ← about_append]
      exact Proper.undecided (by simp) (by simp [enqueuedAll]) (by simp [enqueuedAll])

/-- Of each delivery the deeds fit together, and the inbox holds an event only when some
single delivery has fanned it out. -/
structure Sound (videoOf : Uuid → Uuid) (w : World) : Prop where
  proper : ∀ d, Proper videoOf (own d w.entries)
  marked : ∀ event, w.base.inbox event ≠ none → ∃ d, whole videoOf event <+: own d w.entries
  returned : ∀ x ∈ w.entries, x.deed = .returned → w.base.inbox x.event ≠ none

/-- A process knows how far its delivery is, and has not begun a later one. -/
structure Current (videoOf : Uuid → Uuid) (i : Nat) (w : World) (k : Client) : Prop where
  underway : Underway videoOf (own ⟨i, k.number⟩ w.entries) k.base
  unborn : ∀ n, k.number < n → own ⟨i, n⟩ w.entries = []

theorem receive_idle {video event : Uuid} {r : Processing.World × Processing.Client}
    (h : Processing.step cfg i w k (.receive video event) = some r) : k = .idle := by
  cases k with
  | idle => rfl
  | enqueueing _ _ kinds => cases kinds <;> simp [Processing.step, deliveryStep, jobStep] at h
  | _ => simp [Processing.step, deliveryStep, jobStep] at h

/-- A process that begins a delivery begins one that has done nothing yet. -/
theorem received_fresh {w : World} {k : Client} {w' : Processing.World}
    {k' : Processing.Client} (h : Processing.step cfg i w.base k.base a = some (w', k'))
    (hc : carried videoOf a) (hn : ∀ n, k.number < n → own ⟨i, n⟩ w.entries = [])
    (video event : Uuid) (hidle : k.base = .idle) (hk' : k' = .checking video event) :
    video = videoOf event ∧ own ⟨i, k.next a⟩ w.entries = [] := by
  subst hk'
  rw [hidle] at h
  cases a with
  | receive v e =>
    cases h
    exact ⟨hc, hn _ (Nat.lt_succ_self _)⟩
  | dequeue n =>
    simp only [Processing.step, deliveryStep, jobStep, Option.none_or] at h
    split at h <;> cases h
  | _ => cases h

theorem step_good {w w' : World} {k k' : Client} (hw : Sound videoOf w)
    (hk : Current videoOf i w k) (h : step cfg videoOf i w k a = some (w', k')) :
    Sound videoOf w' ∧ Current videoOf i w' k' ∧
      ∀ d : Delivery, d.process ≠ i → own d w'.entries = own d w.entries := by
  unfold step at h
  split at h
  · rename_i hc
    simp only [Option.map_eq_some_iff, Prod.exists, Prod.mk.injEq] at h
    obtain ⟨b, c, hb, rfl, rfl⟩ := h
    have hstay : (∃ video event, a = .receive video event) ∨ k.next a = k.number := by
      cases a with
      | receive video event => exact .inl ⟨video, event, rfl⟩
      | _ => exact .inr rfl
    have hle : k.number ≤ k.next a := by
      rcases hstay with ⟨video, event, rfl⟩ | he
      · exact Nat.le_succ _
      · exact Nat.le_of_eq he.symm
    have hu : Underway videoOf (own ⟨i, k.next a⟩ w.entries) k.base := by
      rcases hstay with ⟨video, event, rfl⟩ | he
      · rw [receive_idle hb]
        trivial
      · rw [he]
        exact hk.underway
    have hm := (step_turn hb).2.moved (hw.proper _) hu (received_fresh hb hc hk.unborn)
    refine ⟨⟨?_, ?_, ?_⟩, ⟨?_, ?_⟩, ?_⟩
    · intro d
      by_cases hd : d = ⟨i, k.next a⟩
      · rw [hd, own_extend]
        exact hm.proper
      · rw [own_extend_other hd]
        exact hw.proper d
    · intro event he
      rcases hm.marked event he with hold | hnew
      · obtain ⟨d, hwhole⟩ := hw.marked event hold
        refine ⟨d, ?_⟩
        by_cases hd : d = ⟨i, k.next a⟩
        · rw [hd, own_extend]
          exact (hd ▸ hwhole).trans (List.prefix_append _ _)
        · rwa [own_extend_other hd]
      · exact ⟨⟨i, k.next a⟩, by rwa [own_extend]⟩
    · intro x hx hdeed
      rcases mem_extend.mp hx with hold | ⟨_, hnew⟩
      · exact hm.kept _ (hw.returned x hold hdeed)
      · exact hm.returned _ (hdeed ▸ hnew)
    · rw [own_extend]
      exact hm.underway
    · intro n hn
      change k.next a < n at hn
      rw [own_extend_other (by simp; omega)]
      exact hk.unborn n (Nat.lt_of_le_of_lt hle hn)
    · intro d hd
      rw [own_extend_other]
      intro he
      exact hd (congrArg Delivery.process he)
  · cases h

theorem good {as : List (Pool.Action Nat Act Nat)} {s : Pool.State Nat World Client}
    (h : (pool cfg videoOf).machine.Reaches as s) :
    Pool.Good (Sound videoOf) (Current videoOf) s := by
  refine Pool.good_of_reaches ?_ ?_ ?_ h
  · refine ⟨⟨fun d => Proper.nil, ?_, ?_⟩, fun i => ⟨trivial, fun n _ => rfl⟩⟩
    · intro event he
      exact absurd rfl he
    · intro x hx
      cases hx
  · intro s i a w k hg hs
    obtain ⟨hw, hk, hframe⟩ := step_good hg.1 (hg.2 i) hs
    refine ⟨hw, hk, fun j hj => ?_⟩
    have hsame (n : Nat) : own ⟨j, n⟩ w.entries = own ⟨j, n⟩ s.world.entries := hframe ⟨j, n⟩ hj
    refine ⟨?_, fun n hn => ?_⟩
    · rw [hsame]
      exact (hg.2 j).underway
    · rw [hsame]
      exact (hg.2 j).unborn n hn
  · intro s e w hg hs
    cases hs
    refine ⟨⟨hg.1.proper, hg.1.marked, hg.1.returned⟩, fun j => ?_⟩
    exact ⟨(hg.2 j).underway, (hg.2 j).unborn⟩

/-- No delivery of the event is past its check. -/
def Quiet (event : Uuid) (k : Processing.Client) : Prop :=
  eventOf k = some event → ∃ video, k = .checking video event

theorem Quiet.ne {event e : Uuid} (h : Quiet event k) (hk : eventOf k = some e)
    (hc : ∀ video, k ≠ .checking video event) : e ≠ event := by
  intro he
  subst he
  obtain ⟨video, hv⟩ := h hk
  exact hc video hv

/-- While the mark has not expired, nothing more is enqueued for the event. -/
theorem Turn.quiet {ttl deadline : Nat} {event : Uuid} {new : List (Uuid × Deed)}
    (h : Turn ttl w k w' k' new) (hq : Quiet event k) (hi : w.inbox event = some deadline)
    (hd : w.now < deadline) :
    Quiet event k' ∧ w'.inbox event = some deadline ∧
      ∀ x ∈ new, x.1 = event → x.2.job? = none := by
  have hidle : Quiet event .idle := fun hx => by cases hx
  have hmark (e : Uuid) (he : e ≠ event) : (w.markProcessed ttl e).inbox event = some deadline := by
    unfold World.markProcessed
    split
    · exact hi
    · simpa [Ne.symm he] using hi
  cases h with
  | outside inbox before after => exact ⟨fun hx => by simp [after] at hx, inbox ▸ hi, by simp⟩
  | received video e =>
    refine ⟨fun hx => ?_, hi, by simp [about, Deed.job?]⟩
    cases hx
    exact ⟨video, rfl⟩
  | skipped video e => exact ⟨hidle, hi, by simp [about, Deed.job?]⟩
  | unseen video e seen =>
    refine ⟨fun hx => ?_, hi, by simp⟩
    cases hx
    simp [World.seen, hi, hd] at seen
  | enqueued video e kind kinds inbox =>
    have hne := hq.ne rfl (by simp)
    exact ⟨fun hx => absurd (Option.some.inj hx) hne, inbox ▸ hi, by simp [about, hne]⟩
  | ready video e =>
    have hne := hq.ne rfl (by simp)
    exact ⟨fun hx => absurd (Option.some.inj hx) hne, hi, by simp⟩
  | started video e inbox =>
    have hne := hq.ne rfl (by simp)
    exact ⟨fun hx => absurd (Option.some.inj hx) hne, inbox ▸ hi, by simp [about, hne]⟩
  | marked video e =>
    have hne := hq.ne rfl (by simp)
    exact ⟨hidle, hmark e hne, by simp [about, hne]⟩
  | cutChecking video e => exact ⟨hidle, hi, by simp [about, Deed.job?]⟩
  | cutEnqueueing video e kinds applied inbox =>
    have hne := hq.ne rfl (by simp)
    exact ⟨hidle, inbox ▸ hi, fun x hx he => absurd ((mem_about.mp hx).1.symm.trans he) hne⟩
  | cutStarting video e applied unreturned inbox =>
    have hne := hq.ne rfl (by simp)
    exact ⟨hidle, inbox ▸ hi, fun x hx he => absurd ((mem_about.mp hx).1.symm.trans he) hne⟩
  | unmarked video e inbox =>
    have hne := hq.ne rfl (by simp)
    refine ⟨hidle, ?_, fun x hx he => absurd ((mem_about.mp hx).1.symm.trans he) hne⟩
    rcases inbox with hsame | rfl
    · exact hsame ▸ hi
    · exact hmark e hne

theorem enqueuedFor_extend {event : Uuid} {new : List (Uuid × Deed)}
    (h : ∀ x ∈ new, x.1 = event → x.2.job? = none) (entries : List Entry) (d : Delivery) :
    enqueuedFor event (extend entries d new) = enqueuedFor event entries := by
  simp only [enqueuedFor, extend, List.filter_append, List.filterMap_append,
    List.append_right_eq_self, List.filterMap_eq_nil_iff]
  intro x hx
  obtain ⟨hx, he⟩ := List.mem_filter.mp hx
  obtain ⟨y, hy, rfl⟩ := List.mem_map.mp hx
  exact h y hy (by simpa using he)

/-- The event is marked until some instant, and every delivery of it is before its check. -/
structure Settled (event : Uuid) (deadline : Nat) (jobs : List (Uuid × JobKind))
    (s : Pool.State Nat World Client) : Prop where
  inbox : s.world.base.inbox event = some deadline
  quiet : ∀ i, Quiet event (s.clients i).base
  jobs : enqueuedFor event s.world.entries = jobs

variable {event : Uuid} {deadline : Nat} {jobs : List (Uuid × JobKind)}
  {s t : Pool.State Nat World Client}

theorem Settled.step {a : Pool.Action Nat Act Nat} (h : Settled event deadline jobs s)
    (hd : s.world.base.now < deadline) (ht : (pool cfg videoOf).machine.step s a = some t) :
    Settled event deadline jobs t := by
  cases a with
  | env e =>
    obtain ⟨w, hw, rfl⟩ := Pool.env_step.mp ht
    cases hw
    exact ⟨h.inbox, h.quiet, h.jobs⟩
  | act i a =>
    obtain ⟨w, k, hw, rfl⟩ := Pool.act_step.mp ht
    change FanOut.step cfg videoOf i s.world (s.clients i) a = some (w, k) at hw
    unfold FanOut.step at hw
    split at hw
    · simp only [Option.map_eq_some_iff, Prod.exists, Prod.mk.injEq] at hw
      obtain ⟨b, c, hb, rfl, rfl⟩ := hw
      obtain ⟨hq, hi, hnew⟩ := (step_turn hb).2.quiet (h.quiet i) h.inbox hd
      refine ⟨hi, fun j => ?_, ?_⟩
      · by_cases hj : j = i
        · subst j
          simpa using hq
        · simpa [hj] using h.quiet j
      · rw [enqueuedFor_extend hnew]
        exact h.jobs
    · cases hw

theorem step_now {a : Pool.Action Nat Act Nat}
    (ht : (pool cfg videoOf).machine.step s a = some t) :
    s.world.base.now ≤ t.world.base.now := by
  cases a with
  | env e =>
    obtain ⟨w, hw, rfl⟩ := Pool.env_step.mp ht
    cases hw
    exact Nat.le_add_right _ _
  | act i a =>
    obtain ⟨w, k, hw, rfl⟩ := Pool.act_step.mp ht
    change FanOut.step cfg videoOf i s.world (s.clients i) a = some (w, k) at hw
    unfold FanOut.step at hw
    split at hw
    · simp only [Option.map_eq_some_iff, Prod.exists, Prod.mk.injEq] at hw
      obtain ⟨b, c, hb, rfl, rfl⟩ := hw
      exact Nat.le_of_eq (step_turn hb).1.symm
    · cases hw

theorem exec_now {bs : List (Pool.Action Nat Act Nat)}
    (h : (pool cfg videoOf).machine.exec s bs = some t) :
    s.world.base.now ≤ t.world.base.now := by
  induction bs generalizing s with
  | nil =>
    cases h
    exact Nat.le_refl _
  | cons a bs ih =>
    rw [exec_cons] at h
    obtain ⟨u, hu, hrest⟩ := Option.bind_eq_some_iff.mp h
    exact Nat.le_trans (step_now hu) (ih hrest)

theorem Settled.exec {bs : List (Pool.Action Nat Act Nat)} (h : Settled event deadline jobs s)
    (ht : (pool cfg videoOf).machine.exec s bs = some t) (hd : t.world.base.now < deadline) :
    Settled event deadline jobs t := by
  induction bs generalizing s with
  | nil =>
    cases ht
    exact h
  | cons a bs ih =>
    have hnow := Nat.lt_of_le_of_lt (exec_now ht) hd
    rw [exec_cons] at ht
    obtain ⟨u, hu, hrest⟩ := Option.bind_eq_some_iff.mp ht
    exact ih (h.step hnow hu) hrest

theorem Underway.open (h : Underway videoOf mine k) (hk : eventOf k = some event) :
    (event, .received) ∈ mine ∧ (event, .returned) ∉ mine := by
  cases k with
  | checking video e =>
    cases hk
    obtain ⟨_, rfl⟩ := h
    simp [about]
  | enqueueing video e kinds =>
    cases hk
    obtain ⟨_, done, _, rfl⟩ := h
    simp [about]
  | starting video e =>
    cases hk
    obtain ⟨_, rfl⟩ := h
    simp [about, enqueuedAll]
  | marking video e =>
    cases hk
    obtain ⟨_, rfl⟩ := h
    simp [about, whole, enqueuedAll]
  | _ => cases hk

/-- After the first delivery of an event has returned, alone so far, the event is settled
with one job for each kind. -/
theorem Settled.of_returned {d : Delivery} (hw : Sound videoOf s.world)
    (hk : ∀ i, Current videoOf i s.world (s.clients i))
    (hr : ⟨d, event, .returned⟩ ∈ s.world.entries)
    (halone : ∀ e, ⟨e, event, .received⟩ ∈ s.world.entries → e = d) :
    ∃ deadline, Settled event deadline
      (JobKind.all.map (fun kind => (videoOf event, kind))) s := by
  obtain ⟨deadline, hi⟩ := Option.ne_none_iff_exists'.mp (hw.returned _ hr rfl)
  have hown : own d s.world.entries = whole videoOf event ++ about event [.returned] :=
    (hw.proper d).returned event (mem_own.mpr hr)
  refine ⟨deadline, hi, fun i he => ?_, ?_⟩
  · obtain ⟨hreceived, hopen⟩ := (hk i).underway.open he
    have hd := halone ⟨i, (s.clients i).number⟩
      (mem_own (x := ⟨⟨i, (s.clients i).number⟩, event, .received⟩).mp hreceived)
    rw [hd] at hopen
    exact absurd (mem_own.mpr hr) hopen
  · have hsame : ∀ x ∈ s.world.entries, (decide (x.event = event)) = decide (x.delivery = d) := by
      intro x hx
      apply decide_eq_decide.mpr
      constructor
      · intro he
        subst he
        exact halone _ (mem_own (x := ⟨x.delivery, x.event, .received⟩).mp
          ((hw.proper x.delivery).received _ (mem_own.mpr hx)))
      · intro hd
        have hmem := mem_own.mpr hx
        rw [hd, hown, whole, ← about_append] at hmem
        exact (mem_about.mp hmem).1
    have hjobs : enqueuedFor event s.world.entries =
        (own d s.world.entries).filterMap (fun x => x.2.job?) := by
      rw [enqueuedFor, List.filter_congr hsame, own, List.filterMap_map]
      rfl
    rw [hjobs, hown]
    rfl

theorem seen_inbox {w : Processing.World} (h : w.seen event = true) : w.inbox event ≠ none := by
  intro hn
  simp [World.seen, hn] at h

/-- When every other delivery so far was cut short, the check finds no mark. -/
theorem unseen_of_cut (hw : Sound videoOf s.world)
    (hu : own ⟨i, (s.clients i).number⟩ s.world.entries = about event [.received])
    (hcut : ∀ e, ⟨e, event, .received⟩ ∈ s.world.entries → e ≠ ⟨i, (s.clients i).number⟩ →
      ⟨e, event, .cut⟩ ∈ s.world.entries) : s.world.base.seen event = false := by
  by_contra hs
  obtain ⟨d, hwhole⟩ := hw.marked event (seen_inbox (by simpa using hs))
  have hmem (deed : Deed) (h : (event, deed) ∈ whole videoOf event) :
      ⟨d, event, deed⟩ ∈ s.world.entries := mem_own.mp (hwhole.subset h)
  have hstarted := hmem (.started (videoOf event) true) (by simp [whole, about])
  by_cases hd : d = ⟨i, (s.clients i).number⟩
  · have hin := mem_own.mpr hstarted
    rw [hd, hu] at hin
    simp [about] at hin
  · have hc := hcut d (hmem .received (by simp [whole, about])) hd
    exact (hw.proper d).cut event (mem_own.mpr hc) _ (mem_own.mpr hstarted) _ rfl

theorem advance {number : Nat} {w' : Processing.World} (hk : s.clients i = ⟨number, k⟩)
    (h : Processing.step cfg i s.world.base k a = some (w', k')) (hc : carried videoOf a)
    (hn : Client.next ⟨number, k⟩ a = number) :
    ∃ t, (pool cfg videoOf).machine.step s (.act i a) = some t ∧
      t.clients i = ⟨number, k'⟩ ∧ t.world.base = w' := by
  have hs : FanOut.step cfg videoOf i s.world (s.clients i) a =
      some (⟨w', extend s.world.entries ⟨i, number⟩ (deeds s.world.base w' k a)⟩,
        ⟨number, k'⟩) := by
    simp [FanOut.step, hc, hk, h, hn]
  exact ⟨_, Pool.act_step.mpr ⟨_, _, hs, rfl⟩, by simp, rfl⟩

/-- The steps of a delivery from its check to its publish. -/
def wholeRun (i : Nat) : List (Pool.Action Nat Act Nat) :=
  [.act i .seen, .act i .enqueue, .act i .enqueue, .act i .enqueue, .act i .enqueue,
    .act i .publishStarted]

/-- The jobs of a fan-out as they are put into the queue. -/
def jobsFor (cfg : Config) (video : Uuid) : List Job :=
  JobKind.all.map (fun kind => ⟨video, kind, 0, cfg.jobRetries⟩)

theorem wholeRun_exec {number : Nat} {video : Uuid}
    (hk : s.clients i = ⟨number, .checking video event⟩)
    (hs : s.world.base.seen event = false) :
    ∃ t, (pool cfg videoOf).machine.exec s (wholeRun i) = some t ∧
      t.clients i = ⟨number, .marking video event⟩ ∧
      t.world.base.queue = s.world.base.queue ++ jobsFor cfg video ∧
      t.world.base.log = s.world.base.log ++ [.started i video] := by
  have hseen : Processing.step cfg i s.world.base (.checking video event) .seen =
      some (s.world.base, .enqueueing video event JobKind.all) := by
    simp [Processing.step, deliveryStep, hs]
  obtain ⟨s₁, e₁, k₁, b₁⟩ := @advance cfg videoOf i _ _ _ s number _ hk hseen trivial rfl
  obtain ⟨s₂, e₂, k₂, b₂⟩ := @advance cfg videoOf i _ _ .enqueue s₁ number _ k₁ rfl trivial rfl
  obtain ⟨s₃, e₃, k₃, b₃⟩ := @advance cfg videoOf i _ _ .enqueue s₂ number _ k₂ rfl trivial rfl
  obtain ⟨s₄, e₄, k₄, b₄⟩ := @advance cfg videoOf i _ _ .enqueue s₃ number _ k₃ rfl trivial rfl
  obtain ⟨s₅, e₅, k₅, b₅⟩ := @advance cfg videoOf i _ _ .enqueue s₄ number _ k₄ rfl trivial rfl
  obtain ⟨s₆, e₆, k₆, b₆⟩ :=
    @advance cfg videoOf i _ _ .publishStarted s₅ number _ k₅ rfl trivial rfl
  refine ⟨s₆, ?_, k₆, ?_, ?_⟩
  · simp only [wholeRun, exec_cons, exec_nil, e₁, e₂, e₃, e₄, e₅, e₆, Option.bind_some]
  · simp [b₆, b₅, b₄, b₃, b₂, b₁, World.emit, World.push, jobsFor, JobKind.all]
  · simp [b₆, b₅, b₄, b₃, b₂, b₁, World.emit, World.push]

/-- What a delivery that has done the whole fan-out has left in the stream and in the queue. -/
theorem Accounted.of_whole {w : World} (hw : Accounted w) {d : Delivery}
    (hd : whole videoOf event <+: own d w.entries) :
    .started d.process (videoOf event) ∈ w.base.log ∧
      ∀ kind, (videoOf event, kind) ∈ fresh w.base ++ taken w.base := by
  have hmem (deed : Deed) (h : (event, deed) ∈ whole videoOf event) :
      ⟨d, event, deed⟩ ∈ w.entries := mem_own.mp (hd.subset h)
  constructor
  · have hstarted := hmem (.started (videoOf event) true) (by simp [whole, about])
    have hp : (d.process, videoOf event) ∈ FanOut.starts w.base := by
      rw [hw.starts]
      exact List.mem_filterMap.mpr ⟨_, hstarted, rfl⟩
    obtain ⟨e, he, hx⟩ := List.mem_filterMap.mp hp
    cases e with
    | started i video =>
      cases hx
      exact he
    | _ => cases hx
  · intro kind
    have hkind : Deed.enqueued (videoOf event) kind ∈ enqueuedAll (videoOf event) :=
      List.mem_map_of_mem (by cases kind <;> decide)
    have hentry := hmem (.enqueued (videoOf event) kind) (by simp [whole, about, hkind])
    have hcount : 0 < (enqueued w.entries).count (videoOf event, kind) :=
      List.count_pos_iff.mpr (List.mem_filterMap.mpr ⟨_, hentry, rfl⟩)
    rw [← List.count_pos_iff, List.count_append]
    exact Nat.lt_of_lt_of_le hcount (hw.kept _)

/-- An event is marked only by a delivery that has fanned it out: the inbox holds it only
then, with its start in the stream and its jobs in the queue or taken out of it; deliveries
cut short leave the next one all to do; and a delivery that completes alone leaves nothing
to do while its mark lasts. -/
theorem marked_when_fanned_out {as : List (Pool.Action Nat Act Nat)}
    (h : (pool cfg videoOf).machine.Reaches as s) (event : Uuid) :
    Accounted s.world ∧
    (s.world.base.seen event = true → ∃ d, whole videoOf event <+: own d s.world.entries ∧
      .started d.process (videoOf event) ∈ s.world.base.log ∧
      ∀ kind, (videoOf event, kind) ∈ fresh s.world.base ++ taken s.world.base) ∧
    (∀ d, ⟨d, event, .returned⟩ ∈ s.world.entries →
      own d s.world.entries = whole videoOf event ++ about event [.returned]) ∧
    (∀ i video, (s.clients i).base = .checking video event →
      (∀ e, ⟨e, event, .received⟩ ∈ s.world.entries → e ≠ ⟨i, (s.clients i).number⟩ →
        ⟨e, event, .cut⟩ ∈ s.world.entries) →
      s.world.base.seen event = false ∧
      ∃ t, (pool cfg videoOf).machine.exec s (wholeRun i) = some t ∧
        own ⟨i, (s.clients i).number⟩ t.world.entries = whole videoOf event ∧
        t.world.base.queue = s.world.base.queue ++ jobsFor cfg (videoOf event) ∧
        t.world.base.log = s.world.base.log ++ [.started i (videoOf event)]) ∧
    (∀ d, ⟨d, event, .returned⟩ ∈ s.world.entries →
      (∀ e, ⟨e, event, .received⟩ ∈ s.world.entries → e = d) →
      ∃ deadline, s.world.base.inbox event = some deadline ∧
        ∀ bs t, (pool cfg videoOf).machine.exec s bs = some t → t.world.base.now < deadline →
          enqueuedFor event t.world.entries =
            JobKind.all.map (fun kind => (videoOf event, kind))) := by
  obtain ⟨hw, hk⟩ := good h
  have haccounted := accounted h
  refine ⟨haccounted, ?_, ?_, ?_, ?_⟩
  · intro hs
    obtain ⟨d, hd⟩ := hw.marked event (seen_inbox hs)
    exact ⟨d, hd, haccounted.of_whole hd⟩
  · intro d hd
    exact (hw.proper d).returned event (mem_own.mpr hd)
  · intro i video hc hcut
    have hu := (hk i).underway
    rw [hc] at hu
    have hs := unseen_of_cut hw hu.2 hcut
    have hclient : s.clients i = ⟨(s.clients i).number, .checking video event⟩ := by
      rw [← hc]
    obtain ⟨t, ht, hkt, hqueue, hlog⟩ := @wholeRun_exec cfg videoOf i event s _ video hclient hs
    have hdone := ((good (h.append ht)).2 i).underway
    rw [hkt] at hdone
    rw [hu.1] at hqueue hlog
    exact ⟨hs, t, ht, hdone.2, hqueue, hlog⟩
  · intro d hd halone
    obtain ⟨deadline, hsettled⟩ := Settled.of_returned hw hk hd halone
    exact ⟨deadline, hsettled.inbox, fun bs t ht hnow => (hsettled.exec ht hnow).jobs⟩

end

/-- A delivery completes, and a duplicate follows. -/
def firstDelivery : List (Pool.Action Nat Act Nat) :=
  .act 0 (.receive clip clip) :: wholeRun 0 ++ [.act 0 .markProcessed]

def duplicate : List (Pool.Action Nat Act Nat) := [.act 1 (.receive clip clip), .act 1 .seen]

set_option synthInstance.maxSize 512 in
theorem duplicate_enqueues_nothing : ∃ s t,
    (pool defaults (fun _ => clip)).machine.Reaches firstDelivery s ∧
    (pool defaults (fun _ => clip)).machine.exec s duplicate = some t ∧
    enqueuedFor clip t.world.entries = JobKind.all.map (fun kind => (clip, kind)) ∧
    t.world.base.queue = jobsFor defaults clip ∧ t.world.base.log = [.started 0 clip] := by
  have hr : ((pool defaults (fun _ => clip)).machine.exec
      (pool defaults (fun _ => clip)).machine.start firstDelivery).map
        (fun s => (s.world.base.inbox clip, s.world.base.now, s.world.entries,
          ((pool defaults (fun _ => clip)).machine.exec s duplicate).map
            (fun t => (t.world.base.now, t.world.base.queue, t.world.base.log)))) =
      some (some 86400000, 0, (whole (fun _ => clip) clip ++ about clip [.returned]).map
        (fun x => ⟨⟨0, 1⟩, x.1, x.2⟩), some (0, jobsFor defaults clip, [.started 0 clip])) := by
    decide +kernel
  obtain ⟨s, hs, he⟩ := Machine.reaches_of_map hr
  simp only [Prod.mk.injEq] at he
  obtain ⟨hinbox, hnow, hentries, hdup⟩ := he
  obtain ⟨t, ht, hend⟩ := Option.map_eq_some_iff.mp hdup
  simp only [Prod.mk.injEq] at hend
  obtain ⟨hnow, hqueue, hlog⟩ := hend
  have hall := (marked_when_fanned_out hs clip).2.2.2.2 ⟨0, 1⟩
    (by rw [hentries]; decide +kernel) (by
      intro e he
      rw [hentries] at he
      obtain ⟨x, _, hx⟩ := List.mem_map.mp he
      exact (congrArg Entry.delivery hx).symm)
  obtain ⟨deadline, hdeadline, hjobs⟩ := hall
  obtain rfl : 86400000 = deadline := Option.some.inj (hinbox.symm.trans hdeadline)
  exact ⟨s, t, hs, ht, hjobs duplicate t ht (by rw [hnow]; decide), hqueue, hlog⟩

end BackendTemplates.Processing.FanOut
