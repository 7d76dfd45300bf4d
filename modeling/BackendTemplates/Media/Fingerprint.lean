import BackendTemplates.Library.JsonSame
import BackendTemplates.Media.Upload

namespace BackendTemplates.Media.Upload
open Python

/-- `_fingerprint`. -/
def fingerprint (cfg : Config) (command : UploadVideoCommand) : String :=
  cfg.sha256 (canonical command).text

/-- The payload before its members are sorted. -/
def payload (command : UploadVideoCommand) : Json :=
  .obj [("source_key", .str command.sourceKey), ("document", .obj command.document)]

theorem payload_keyed {command : UploadVideoCommand} (h : Json.Keyed (.obj command.document)) :
    Json.Keyed (payload command) := by
  refine .obj (by simp) fun m hm => ?_
  simp only [List.mem_cons, List.not_mem_nil, or_false] at hm
  rcases hm with rfl | rfl
  · exact .str _
  · exact h

theorem same_payload_iff {c d : UploadVideoCommand} :
    Json.Same (payload c) (payload d) ↔
      c.sourceKey = d.sourceKey ∧ Json.Same (.obj c.document) (.obj d.document) := by
  constructor
  · intro h
    cases h with
    | obj h =>
      have hsource := h "source_key"
      have hdocument := h "document"
      simp only [List.lookup_cons] at hsource hdocument
      refine ⟨?_, ?_⟩
      · cases hsource with
        | some h => exact h.str_eq
      · cases hdocument with
        | some h => exact h
  · intro hboth
    obtain ⟨hsource, hdocument⟩ := hboth
    refine .obj fun k => ?_
    by_cases hs : k = "source_key"
    · subst hs
      rw [hsource]
      exact .some (.str _)
    · by_cases hd : k = "document"
      · subst hd
        exact .some hdocument
      · simp [List.lookup_cons, beq_eq_false_iff_ne.mpr hs, beq_eq_false_iff_ne.mpr hd]

/-- Two commands have one fingerprint exactly when they name the same source and the same
document, whatever the order of its members. -/
theorem fingerprint_eq_iff {cfg : Config} {c d : UploadVideoCommand}
    (hc : Json.Keyed (.obj c.document)) (hd : Json.Keyed (.obj d.document))
    (hsha : cfg.sha256 (canonical c).text = cfg.sha256 (canonical d).text →
      (canonical c).text = (canonical d).text) :
    fingerprint cfg c = fingerprint cfg d ↔
      c.sourceKey = d.sourceKey ∧ Json.Same (.obj c.document) (.obj d.document) := by
  have htext : fingerprint cfg c = fingerprint cfg d ↔ canonical c = canonical d := by
    constructor
    · intro h
      exact Json.text_injective (hsha h)
    · intro h
      rw [fingerprint, h, fingerprint]
  rw [htext, ← same_payload_iff]
  exact Json.arrange_eq_iff (payload_keyed hc) (payload_keyed hd)

def thirty : Json := .num ⟨['3', '0'], by simp [numChar]⟩

def written : UploadVideoCommand :=
  ⟨"a.mp4", [("title", .str "Clip"), ("meta", .obj [("fps", thirty), ("hdr", .bool true)])],
    some "first"⟩

def rewritten : UploadVideoCommand :=
  ⟨"a.mp4", [("meta", .obj [("hdr", .bool true), ("fps", thirty)]), ("title", .str "Clip")],
    some "second"⟩

/-- SHA-256 on the payload of these commands. -/
def sha256Written (text : String) : String :=
  if text = "\x7b\"document\":\x7b\"meta\":\x7b\"fps\":30,\"hdr\":true\x7d,\"title\":\"Clip\"\x7d," ++
      "\"source_key\":\"a.mp4\"\x7d" then
    "1946bc5b346b36abaee8e9db7baae1d0f2e24b12fd03edef51495485234b331c"
  else ""

theorem written_keyed : Json.Keyed (.obj written.document) := by
  refine .obj (by decide) fun m hm => ?_
  simp only [written, List.mem_cons, List.not_mem_nil, or_false] at hm
  rcases hm with rfl | rfl
  · exact .str _
  · refine .obj (by decide) fun m hm => ?_
    simp only [List.mem_cons, List.not_mem_nil, or_false] at hm
    rcases hm with rfl | rfl
    · exact .num _
    · exact .bool _

theorem rewritten_keyed : Json.Keyed (.obj rewritten.document) := by
  refine .obj (by decide) fun m hm => ?_
  simp only [rewritten, List.mem_cons, List.not_mem_nil, or_false] at hm
  rcases hm with rfl | rfl
  · refine .obj (by decide) fun m hm => ?_
    simp only [List.mem_cons, List.not_mem_nil, or_false] at hm
    rcases hm with rfl | rfl
    · exact .bool _
    · exact .num _
  · exact .str _

theorem reordered_members_same :
    fingerprint ⟨sha256Written, some, 86400⟩ written =
        fingerprint ⟨sha256Written, some, 86400⟩ rewritten ∧
      Json.Same (.obj written.document) (.obj rewritten.document) := by
  have hw : (canonical written).text = (canonical rewritten).text := by
    decide +kernel
  have h : fingerprint ⟨sha256Written, some, 86400⟩ written =
      fingerprint ⟨sha256Written, some, 86400⟩ rewritten := by
    rw [fingerprint, hw, fingerprint]
  exact ⟨h, ((fingerprint_eq_iff written_keyed rewritten_keyed (fun _ => hw)).mp h).2⟩

end BackendTemplates.Media.Upload
