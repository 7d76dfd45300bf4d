import BackendTemplates.Media.UploadEffects

namespace BackendTemplates.Media.Upload
open Python Runs

/-- `to_model`, as msgspec writes it. -/
def videoModel (video : Video) : Json :=
  .obj [("id", .str video.id.str), ("source_key", .str video.sourceKey),
    ("status", .str video.status.value), ("uploaded_at", .str video.uploadedAt.jsonText),
    ("document", .obj video.document)]

/-- The response body. -/
def body (video : Video) : List UInt8 := utf8 (videoModel video).text

/-- The call works on this command, unless it has not begun. -/
def Carries (command : UploadVideoCommand) : Call → Prop
  | .idle => False
  | .claiming t => t.command = command
  | .inserting t _ => t.command = command
  | .saving t => t.command = command
  | .adding t _ => t.command = command
  | .losing t => t.command = command
  | .finding t => t.command = command
  | .returned t _ _ => t.command = command
  | .raised _ => True
  | .crashed => True

section
variable {cfg : Config} {i : Nat} {w w' : World} {k k' : Call} {a : Act}
  {command : UploadVideoCommand}

theorem carries_lost {t : Txn} {key : String} (h : t.command = command) :
    Carries command (lost w t key) := by
  unfold lost
  split
  · trivial
  · split
    · trivial
    · split
      · trivial
      · exact h

theorem begin_carries {id : Uuid} (h : step cfg i w .idle (.begin id command) = some (w', k')) :
    Carries command k' := by
  simp only [step] at h
  split at h
  · split at h
    · cases h
      trivial
    · cases h
      split <;> rfl
  · cases h

theorem Carries.step (hk : Carries command k) (h : step cfg i w k a = some (w', k')) :
    Carries command k' := by
  unfold Upload.step at h
  split at h
  · exact hk.elim
  · obtain ⟨response, -, he⟩ := Option.map_eq_some_iff.mp h
    cases he
    exact hk
  · split at h
    · cases h
    · split at h
      · cases h
      · split at h <;> cases h <;> exact hk
  · obtain ⟨-, h⟩ := Option.ite_none_right_eq_some.mp h
    cases h
    exact hk
  · split at h
    · cases h
      exact hk
    · cases h
  · cases h
    exact hk
  · cases h
    trivial
  · cases h
    exact hk
  · simp only [Option.map_eq_some_iff, Prod.mk.injEq] at h
    obtain ⟨key, -, -, rfl⟩ := h
    exact carries_lost hk
  · simp only [Option.map_eq_some_iff, Prod.mk.injEq] at h
    obtain ⟨text, -, -, rfl⟩ := h
    trivial
  · simp only [Option.map_eq_some_iff, Prod.mk.injEq] at h
    obtain ⟨text, -, -, rfl⟩ := h
    trivial
  · cases h

end

/-- A call keeps the command it began with. -/
theorem carries {cfg : Config} {start : Datetime} {as : List Action} {s : State}
    (h : (pool cfg start).machine.Reaches as s) :
    ∀ i id command, .act i (.begin id command) ∈ as → Carries command (s.clients i) := by
  refine h.induct (P := fun as s => ∀ i id command, .act i (.begin id command) ∈ as →
    Carries command (s.clients i)) ?_ ?_
  · intro i id command hm
    simp at hm
  · intro as s a t _ ih hs i id command hm
    rcases List.mem_append.mp hm with hm | hm
    · have hk := ih i id command hm
      cases a with
      | env e =>
        obtain ⟨w, -, rfl⟩ := Pool.env_step.mp hs
        exact hk
      | act j b =>
        obtain ⟨w, k, hw, rfl⟩ := Pool.act_step.mp hs
        by_cases hij : i = j
        · subst hij
          simpa using hk.step hw
        · simpa [hij] using hk
    · simp only [List.mem_singleton] at hm
      subst hm
      obtain ⟨w, k, hw, rfl⟩ := Pool.act_step.mp hs
      cases hc : s.clients i with
      | idle =>
        rw [hc] at hw
        simpa using begin_carries hw
      | _ =>
        rw [hc] at hw
        simp [pool, step] at hw

/-- A replay has the first body exactly when JSONB keeps the order of the document and the
text of its numbers. -/
theorem body_replayed_iff {number : NumText → Option NumText} {video : Video} {response : Json}
    (h : jsonb number (snapshot video) = some response) :
    body (video.replayed number) = body video ↔
      Json.Arranged jsonbLe (.obj video.document) ∧ Json.Kept number (.obj video.document) := by
  obtain ⟨document, hdocument, -⟩ := jsonb_snapshot h
  obtain ⟨revised, hrevised, harranged⟩ := Option.map_eq_some_iff.mp hdocument
  rw [← Json.arrange_revise_eq_iff hrevised, harranged]
  have hreplayed : video.replayed number =
      Video.reconstitute video.id video.sourceKey video.status video.uploadedAt document := by
    simp [Video.replayed, hdocument, Json.obj?]
  constructor
  · intro h
    have hm := Json.text_injective (utf8_injective h)
    rw [hreplayed] at hm
    simp only [videoModel, Video.reconstitute, Json.obj.injEq, List.cons.injEq, Prod.mk.injEq,
      and_true, true_and] at hm
    rw [hm]
  · intro h
    obtain rfl := Json.obj.inj h
    rw [hreplayed]
    rfl

/-- Within the retention of its key a retry of a request replays it, with the first body
exactly when the document lists its members in the order of JSONB and its numbers are written
as JSONB gives them back. -/
theorem replay_identical_iff {cfg : Config} {start : Datetime} {as : List Action} {s : State}
    (h : (pool cfg start).machine.Reaches as s) {i j : Nat} {id id' : Uuid}
    {command : UploadVideoCommand} {key : String} {t t' : Txn} {first : Video}
    (hkey : command.idempotencyKey = some key)
    (hfirst : .act j (.begin id command) ∈ as) (hj : s.clients j = .returned t first false)
    (hretry : .act i (.begin id' command) ∈ as) (hi : s.clients i = .finding t')
    (hwindow : s.world.now.instant ≤ t.expiresAt) :
    ∃ s' replay, (pool cfg start).machine.step s (.act i .find) = some s' ∧
      s'.clients i = .returned t' replay true ∧
      (body replay = body first ↔ Json.Arranged jsonbLe (.obj command.document) ∧
        Json.Kept cfg.number (.obj command.document)) := by
  obtain ⟨hb, hk⟩ := good h
  have hc := carries h j id command hfirst
  have hc' := carries h i id' command hretry
  have hjk := hk j
  have hik := hk i
  rw [hj] at hc hjk
  rw [hi] at hc' hik
  obtain ⟨hbuilt, rfl, c, hlog, hcall, rfl⟩ := hjk
  change c.txn.command = command at hc
  change t'.command = command at hc'
  rcases hb.window c hlog key (by rw [Commit.key, hc, hkey]) with ⟨r, hr, hx⟩ | hgone
  · obtain ⟨-, c', hlog', -, hx', -, hresp, hfp⟩ := hb.keys key r hr
    rw [hb.same_commit hlog' hlog (hx'.trans hx)] at hresp hfp
    have hlost : lost s.world t' key =
        .returned t' (c.txn.video.replayed cfg.number) true := by
      have hsame : r.row.fingerprint = t'.fingerprint := by
        rw [hfp, hbuilt.fingerprint, hik.2.fingerprint, hc, hc']
      simp [lost, hr, restore_snapshot hresp, hsame]
    refine ⟨⟨s.world, Function.update s.clients i (lost s.world t' key)⟩,
      c.txn.video.replayed cfg.number, ?_, ?_, ?_⟩
    · apply Pool.act_step.mpr
      exact ⟨s.world, lost s.world t' key, by simp [pool, step, hi, hc', hkey], rfl⟩
    · simpa using hlost
    · rw [body_replayed_iff hresp, hbuilt.document, hc]
  · exact absurd hwindow (not_le.mpr hgone)

/-- SHA-256 on the payload of these calls. -/
def sha256Document (text : String) : String :=
  if text = "\x7b\"document\":\x7b\"fps\":\"30\",\"title\":\"Clip\"\x7d," ++
      "\"source_key\":\"a.mp4\"\x7d" then
    "1f900e3f8674e40fb31f7dfa50d2d5f421829e8e3c897cd8422e5383b60e747c"
  else ""

def settings : Config := ⟨sha256Document, some, 86400⟩

def titleFirst : UploadVideoCommand :=
  ⟨"a.mp4", [("title", .str "Clip"), ("fps", .str "30")], some "k"⟩

def fpsFirst : UploadVideoCommand :=
  ⟨"a.mp4", [("fps", .str "30"), ("title", .str "Clip")], some "k"⟩

/-- The retry comes up to the point where it looks up the stored response. -/
def retried (command : UploadVideoCommand) : List Action :=
  wins 0 (uuid 1) (uuid 2) command ++
    [.act 1 (.begin (uuid 3) command), .act 1 .claim, .act 1 .insert, .act 1 .commit]

/-- Whether the retry is about to look up the response, within the retention. -/
def looksUp (s : State) : Bool :=
  match s.clients 0, s.clients 1 with
  | .returned t _ false, .finding _ => decide (s.world.now.instant ≤ t.expiresAt)
  | _, _ => false

theorem sorted_document_replays : ∃ s first t' s' replay,
    (pool settings noon).machine.Reaches (retried fpsFirst) s ∧
    (pool settings noon).machine.step s (.act 1 .find) = some s' ∧
    s'.clients 1 = .returned t' replay true ∧ body replay = body first := by
  have hr : ((pool settings noon).machine.exec (pool settings noon).machine.start
      (retried fpsFirst)).map looksUp = some true := by
    decide +kernel
  obtain ⟨s, hs, hl⟩ := Machine.reaches_of_map hr
  unfold looksUp at hl
  split at hl
  · rename_i t first t' hj hi
    obtain ⟨s', replay, hstep, hret, hbody⟩ := @replay_identical_iff settings noon _ s hs 1 0
      (uuid 1) (uuid 3) fpsFirst "k" t t' first rfl (by simp [retried, wins]) hj
      (by simp [retried, wins]) hi (by simpa using hl)
    refine ⟨s, first, t', s', replay, hs, hstep, hret, hbody.mpr ⟨⟨?_, ?_⟩, ?_⟩⟩
    · decide
    · exact ⟨trivial, trivial, trivial⟩
    · exact ⟨trivial, trivial, trivial⟩
  · cases hl

/-- The bodies of the two responses, and whether the key is still retained. -/
def bodies (s : State) : Option (String × String × Bool) :=
  match s.clients 0, s.clients 1 with
  | .returned t first false, .returned _ replay true => some ((videoModel first).text,
      (videoModel replay).text, decide (s.world.now.instant ≤ t.expiresAt))
  | _, _ => none

theorem unsorted_document_differs : ¬ ∀ (cfg : Config) (start : Datetime) as s,
    (pool cfg start).machine.Reaches as s → ∀ i j id id' command key t t' first replay,
    command.idempotencyKey = some key →
    .act j (.begin id command) ∈ as → s.clients j = .returned t first false →
    .act i (.begin id' command) ∈ as → s.clients i = .returned t' replay true →
    s.world.now.instant ≤ t.expiresAt → body replay = body first := by
  intro hall
  have hr : ((pool settings noon).machine.exec (pool settings noon).machine.start
      (retried titleFirst ++ [.act 1 .find])).map bodies = some (some
        ("\x7b\"id\":\"11111111-1111-1111-1111-111111111111\",\"source_key\":\"a.mp4\"," ++
          "\"status\":\"pending\",\"uploaded_at\":\"2026-01-01T12:00:00Z\"," ++
          "\"document\":\x7b\"title\":\"Clip\",\"fps\":\"30\"\x7d\x7d",
        "\x7b\"id\":\"11111111-1111-1111-1111-111111111111\",\"source_key\":\"a.mp4\"," ++
          "\"status\":\"pending\",\"uploaded_at\":\"2026-01-01T12:00:00Z\"," ++
          "\"document\":\x7b\"fps\":\"30\",\"title\":\"Clip\"\x7d\x7d", true)) := by
    decide +kernel
  obtain ⟨s, hs, ho⟩ := Machine.reaches_of_map hr
  unfold bodies at ho
  split at ho
  · rename_i t first t' replay hj hi
    simp only [Option.some.injEq, Prod.mk.injEq, decide_eq_true_eq] at ho
    obtain ⟨hfirst, hreplay, hw⟩ := ho
    have heq := hall settings noon _ s hs 1 0 (uuid 1) (uuid 3) titleFirst "k" t t' first replay rfl
      (by simp [retried, wins]) hj (by simp [retried, wins]) hi hw
    have htext := utf8_injective heq
    rw [hfirst, hreplay] at htext
    revert htext
    decide +kernel
  · cases ho

end BackendTemplates.Media.Upload
