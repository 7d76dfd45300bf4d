import BackendTemplates.Library.JsonDumps
import BackendTemplates.Library.JsonRevise
import BackendTemplates.Library.Views
import BackendTemplates.Logs.EndOfHistory
import BackendTemplates.Logs.TruncatedRecord
import BackendTemplates.Python.Integers

namespace BackendTemplates.Logs.Writing
open Python Runs JsonGrammar

/-- The depth to which orjson writes a value again. -/
def maxDepth : Nat := 254

/-- A line number in the text `json.dumps` has for it. -/
def LineNumber (n : NumText) : Prop := n.chars.length ≤ 18 ∧ ∀ c ∈ n.chars, c.isDigit = true

/-- An event behind the processors of `configure_structlog`: a dict of values that JSON has, with
the fields of `CallsiteParameterAdder`, and the trace that `merge_contextvars` found. A NaN, a
lone surrogate, a trace that is no text and nesting that orjson refuses are left out. -/
structure Record where
  members : List (String × Json)
  keyed : (Json.obj members).Keyed
  numbered : (Json.obj members).Numbered
  shallow : (Json.obj members).depth ≤ maxDepth
  texts : ∀ key ∈ textKeys, Runtime.Textual (members.lookup key)
  lineno : ∀ j, members.lookup "lineno" = some j → ∃ n, j = .num n ∧ LineNumber n

/-- What `JSONRenderer` makes of it. -/
def Record.rendered (r : Record) : String := String.ofList (Json.ascii.write (.obj r.members))

/-- A record, and the formatter of the process that logs it. -/
structure Written where
  formatter : TruncatingProcessorFormatter
  record : Record

def Written.text (w : Written) : String := w.formatter.format w.record.rendered

/-- The formatter leaves it as it is. -/
def Written.Fits (w : Written) : Prop := (utf8 w.record.rendered).length ≤ w.formatter.max

instance (w : Written) : Decidable w.Fits := inferInstanceAs (Decidable (_ ≤ _))

/-- What `emit` appends to the file: the line and its terminator. -/
def Written.bytes (w : Written) : List UInt8 := utf8 w.text ++ [newline]

def content (ws : List Written) : List UInt8 := ws.flatMap Written.bytes

/-- The entry that `parse` makes of a dict. -/
def entryOf (rt : Runtime) (data : List (String × Json)) : LogEntryVO :=
  let logger := (data.lookup "logger").getD .null
  { timestamp := rt.strOf ((data.lookup "timestamp").getD (.str ""))
    level := rt.upper (rt.strOf ((data.lookup "level").getD (.str "INFO")))
    logger := if rt.truthy logger then rt.strOf logger else ""
    event := rt.strOf ((data.lookup "event").getD (.str ""))
    raw := data }

/-- What orjson reads of a number on its own: nothing if no float is as large. -/
def number (rt : Runtime) (n : NumText) : Option NumText :=
  match rt.loads (String.ofList n.chars) with
  | some (.num m) => some m
  | _ => none

/-- What orjson and pydantic do with such records. -/
structure Faithful (rt : Runtime) : Prop where
  grammar : ∀ text, rt.loads text ≠ none → Text text.toList
  reads : ∀ text j, Text text.toList → Json.ofChars text.toList = some j → j.Keyed →
    j.depth ≤ maxDepth → Json.Kept (number rt) j → rt.loads text = some j
  overflows : ∀ text j, Json.ofChars text.toList = some j → j.Numbered →
    ¬ Json.Kept (number rt) j → rt.loads text = none
  ints : ∀ n, LineNumber n → (rt.intOf (.num n)).isSome
  encodes : ∀ members, (Json.obj members).Numbered → (Json.obj members).depth ≤ maxDepth →
    (rt.dumps members).isSome

/-- The record is in the file as it is, and its numbers are ones that orjson reads. -/
def Written.Legible (rt : Runtime) (w : Written) : Prop :=
  w.Fits ∧ Json.Kept (number rt) (.obj w.record.members)

open Classical in
/-- The rows are those of the legible records, each with what was logged. -/
def Shows (rt : Runtime) (ws : List Written) (rows : List LogEntrySchema) : Prop :=
  List.Forall₂ (fun w row => rt.toEntrySchema (entryOf rt w.record.members) = .ok row)
    (ws.filter (fun w => w.Legible rt)) rows

/-- What has been written behind the start of a tail, and the tail. -/
structure Live where
  written : List Written
  tail : Tail

/-- `emit` is a write of some process, `poll` a step of the tail. -/
inductive Act where
  | emit (w : Written)
  | poll (a : Logs.Act)

def step (s : Live) : Act → Option Live
  | .emit w => (Logs.step s.tail (.append w.bytes)).map fun tail => ⟨s.written ++ [w], tail⟩
  | .poll a =>
    match a with
    | .append _ => none
    | a => (Logs.step s.tail a).map fun tail => ⟨s.written, tail⟩

def machine (before : List Written) : Machine Live Act where
  start := ⟨[], (tail (content before)).start⟩
  step := step

section
variable {rt : Runtime} {w : Written} {ws : List Written}

theorem rendered_object (r : Record) : ObjectText r.rendered.toList := by
  rw [Record.rendered, String.toList_ofList]
  exact Json.ascii_grammatical.object r.numbered

theorem rendered_printed (r : Record) : Json.Printed r.rendered.toList := by
  rw [Record.rendered, String.toList_ofList]
  exact Json.write_printed _

theorem text_printed (w : Written) : Json.Printed w.text.toList := fun c hc =>
  rendered_printed w.record c ((format_start w.formatter w.record.rendered).1.subset hc)

theorem text_of_fits (h : w.Fits) : w.text = w.record.rendered := if_pos h

/-- A record that does not fit is cut. -/
theorem text_ne_of_not_fits (h : ¬ w.Fits) : w.text ≠ w.record.rendered := by
  intro he
  have hbytes := (format_start w.formatter w.record.rendered).2
  rw [show w.formatter.format w.record.rendered = w.record.rendered from he] at hbytes
  exact h hbytes

theorem rstripCr_text (w : Written) : rstripCr w.text.toList = w.text.toList := by
  rw [rstripCr]
  refine List.rdropWhile_eq_self_iff.mpr ?_
  intro hne
  have hlast := text_printed w _ (List.getLast_mem hne)
  intro hcr
  rw [beq_iff_eq.mp hcr] at hlast
  exact absurd hlast (by decide)

theorem ofChars_rendered (r : Record) :
    Json.ofChars r.rendered.toList = some (.obj r.members) := by
  rw [Record.rendered, String.toList_ofList, Json.Style.ofChars_write]

/-- The legible record is read back. -/
theorem parse_legible (hrt : Faithful rt) (h : w.Legible rt) :
    rt.parse w.text.toList = some (entryOf rt w.record.members) := by
  obtain ⟨hfits, hkept⟩ := h
  have hobject := rendered_object w.record
  have hloads : rt.loads w.record.rendered = some (.obj w.record.members) :=
    hrt.reads _ _ (Json.objectText_text hobject) (ofChars_rendered w.record) w.record.keyed
      w.record.shallow hkept
  have hne : w.text.toList.isEmpty = false := by
    rw [text_of_fits hfits, List.isEmpty_eq_false_iff]
    exact hobject.1.ne_nil
  simp only [Runtime.parse, rstripCr_text, hne, Bool.false_eq_true, if_false, String.ofList_toList]
  rw [text_of_fits hfits, hloads]
  rfl

/-- A record that is cut is malformed, and so is one with a number that is too large. -/
theorem parse_illegible (hrt : Faithful rt) (h : ¬ w.Legible rt) :
    rt.parse w.text.toList = none := by
  by_cases hfits : w.Fits
  · have hkept : ¬ Json.Kept (number rt) (.obj w.record.members) := fun hk => h ⟨hfits, hk⟩
    have hloads : rt.loads w.text = none := by
      rw [text_of_fits hfits]
      exact hrt.overflows _ _ (ofChars_rendered w.record) w.record.numbered hkept
    simp only [Runtime.parse, rstripCr_text, String.ofList_toList, hloads, ite_self]
  · refine parse_cut hrt.grammar (rendered_object w.record)
      (format_start w.formatter w.record.rendered).1 ?_
    intro he
    exact text_ne_of_not_fits hfits (String.toList_inj.mp he)

/-- The schema takes every record. -/
theorem record_displayable (hrt : Faithful rt) (r : Record) :
    ∃ row, rt.toEntrySchema (entryOf rt r.members) = .ok row := by
  rw [Runtime.toEntrySchema_ok_iff]
  refine ⟨?_, ?_, ?_⟩
  · rw [Runtime.contextJson_isSome]
    intro _
    exact hrt.encodes _ (r.numbered.filter _)
      (Nat.le_trans (Json.depth_filter _ r.members) r.shallow)
  · rw [Runtime.intField_isSome]
    intro j hj
    obtain ⟨n, rfl, hn⟩ := r.lineno j hj
    exact .inr (hrt.ints n hn)
  · intro key hkey
    exact Runtime.textField_isSome.mpr (r.texts key hkey)

theorem toEntrySchema_event {ent : LogEntryVO} {row : LogEntrySchema}
    (h : rt.toEntrySchema ent = .ok row) : row.event = ent.event := by
  unfold Runtime.toEntrySchema at h
  split at h
  · cases h
  split at h
  · cases h
    rfl
  · cases h

theorem newline_not_mem (w : Written) : newline ∉ utf8 w.text := by
  apply newline_not_mem_utf8
  intro hn
  exact absurd (text_printed w _ hn) (by decide)

theorem content_eq (ws : List Written) :
    content ws = terminate newline (ws.map fun w => utf8 w.text) := by
  rw [content, terminate, List.map_map, List.flatMap_def]
  rfl

theorem content_append (ws vs : List Written) : content (ws ++ vs) = content ws ++ content vs :=
  List.flatMap_append

theorem pieces_content (ws : List Written) :
    pieces newline (content ws) = (ws.map (fun w => utf8 w.text), []) := by
  have h := @pieces_terminate _ _ newline (ws.map fun w => utf8 w.text)
    (by simpa using fun w _ => newline_not_mem w) [] (by simp)
  rwa [List.append_nil, ← content_eq] at h

theorem linesOf_content (ws : List Written) :
    linesOf (content ws) = ws.map (fun w => w.text.toList) := by
  have hline (w : Written) : lineText (utf8 w.text) = w.text.toList := by
    rw [lineText, decodeReplace_utf8, rstripCr_text]
  rw [linesOf, complete, pieces_content, List.map_map]
  exact List.map_congr_left fun w _ => hline w

/-- The rows of some records' lines are what the legible records show. -/
theorem shows_of_rows (hrt : Faithful rt) {rows : List LogEntrySchema}
    (h : Runtime.Rows rt (ws.map fun w => w.text.toList) rows) : Shows rt ws rows := by
  classical
  induction ws generalizing rows with
  | nil =>
    cases h
    exact .nil
  | cons w ws ih =>
    rw [List.map_cons] at h
    by_cases hw : w.Legible rt
    · have hfilter : (w :: ws).filter (fun w => w.Legible rt) =
          w :: ws.filter (fun w => w.Legible rt) :=
        List.filter_cons_of_pos (by simpa using hw)
      cases h with
      | skipped malformed next =>
        rw [parse_legible hrt hw] at malformed
        cases malformed
      | shown parsed valid next =>
        obtain rfl := Option.some.inj ((parse_legible hrt hw).symm.trans parsed)
        rw [Shows, hfilter]
        exact .cons valid (ih next)
    · have hfilter : (w :: ws).filter (fun w => w.Legible rt) = ws.filter (fun w => w.Legible rt) :=
        List.filter_cons_of_neg (by simpa using hw)
      cases h with
      | skipped malformed next =>
        rw [Shows, hfilter]
        exact ih next
      | shown parsed valid next =>
        rw [parse_illegible hrt hw] at parsed
        cases parsed

theorem rows_of_records (hrt : Faithful rt) (ws : List Written) :
    ∃ rows, Runtime.Rows rt (ws.map fun w => w.text.toList) rows ∧ Shows rt ws rows := by
  have hall : ∀ line ∈ ws.map (fun w => w.text.toList), rt.Displayable line := by
    intro line hline
    obtain ⟨w, -, rfl⟩ := List.mem_map.mp hline
    rw [Runtime.displayable_iff]
    intro ent hparse
    by_cases hw : w.Legible rt
    · obtain rfl := Option.some.inj ((parse_legible hrt hw).symm.trans hparse)
      exact record_displayable hrt w.record
    · rw [parse_illegible hrt hw] at hparse
      cases hparse
  obtain ⟨rows, hrows⟩ := Runtime.rows_iff.mpr hall
  exact ⟨rows, hrows, shows_of_rows hrt hrows⟩

theorem toPage_records (hrt : Faithful rt) (ws : List Written) (cursor : Cursor) :
    ∃ rows, Shows rt ws rows ∧
      rt.toPage (rt.map (ws.map fun w => w.text.toList), cursor) = .ok (rows, cursor) := by
  obtain ⟨rows, hrows, hshows⟩ := rows_of_records hrt ws
  exact ⟨rows, hshows, Runtime.toPage_ok_iff.mpr ⟨hrows, rfl⟩⟩

theorem emit_step {s t : Live} (h : step s (.emit w) = some t) :
    t = ⟨s.written ++ [w], { s.tail with content := s.tail.content ++ w.bytes }⟩ := by
  simp only [step, Logs.step, Option.map_some, Option.some.injEq] at h
  exact h.symm

theorem poll_step {s t : Live} {a : Logs.Act} (h : step s (.poll a) = some t) :
    (∀ bytes, a ≠ .append bytes) ∧ t.written = s.written ∧ Logs.step s.tail a = some t.tail := by
  simp only [step] at h
  split at h
  · cases h
  · rename_i hne
    obtain ⟨tail, ht, rfl⟩ := Option.map_eq_some_iff.mp h
    exact ⟨fun bytes he => hne bytes he, rfl, ht⟩

/-- Polls leave the file alone. -/
theorem poll_content {s t : Tail} {a : Logs.Act} (hne : ∀ bytes, a ≠ .append bytes)
    (h : Logs.step s a = some t) : t.content = s.content := by
  have after (s : Tail) (size : Nat) : (s.afterStat size).content = s.content := by
    unfold Tail.afterStat
    split <;> rfl
  cases a with
  | append bytes => exact absurd rfl (hne bytes)
  | stat =>
    simp only [Logs.step] at h
    split at h
    · cases h
    · split at h
      · cases h
        rfl
      · cases h
        exact after _ _
  | drain =>
    simp only [Logs.step] at h
    split at h
    · cases h
      exact after _ _
    · cases h
  | drainError =>
    simp only [Logs.step] at h
    split at h
    · cases h
      exact after _ _
    · cases h
  | read =>
    simp only [Logs.step] at h
    split at h
    · cases h
    · cases h
      rfl
  | _ =>
    simp only [Logs.step] at h
    split at h
    · cases h
      rfl
    · cases h

/-- The tail of a run is a run of the tail. -/
def tailView (before : List Written) : View (machine before) (tail (content before)) where
  of := Live.tail
  start := rfl
  step s a t h := by
    cases a with
    | emit w =>
      obtain rfl := emit_step h
      exact ⟨[.append w.bytes], rfl⟩
    | poll a => exact ⟨[a], Option.bind_eq_some_iff.mpr ⟨_, (poll_step h).2.2, rfl⟩⟩

/-- The file holds what has been written. -/
def OnFile (before : List Written) (s : Live) : Prop :=
  s.tail.content = content (before ++ s.written)

theorem onFile_step {before : List Written} {s t : Live} {a : Act} (h : OnFile before s)
    (ht : step s a = some t) : OnFile before t := by
  cases a with
  | emit w =>
    obtain rfl := emit_step ht
    have hone : content [w] = w.bytes := by simp [content]
    simp only [OnFile] at h ⊢
    rw [h, ← List.append_assoc, content_append (before ++ s.written) [w], hone]
  | poll a =>
    obtain ⟨hne, hwritten, hstep⟩ := poll_step ht
    rw [OnFile, poll_content hne hstep, hwritten]
    exact h

theorem whole_content (ws : List Written) : rest newline (content ws) = [] := by
  rw [rest, pieces_content]

theorem caught {before : List Written} {as : List Act} {s : Live}
    (h : (machine before).Reaches as s) : OnFile before s ∧ Caught (content before) s.tail := by
  have start : OnFile before (machine before).start := by simp [OnFile, machine, tail]
  have onFile : OnFile before s :=
    h.invariant_of_meets start (fun _ _ _ hi _ ht => onFile_step hi ht) (meets_trivial _ _)
  refine ⟨onFile, ?_⟩
  have whole : ∃ bs, (tail (content before)).Reaches bs s.tail ∧
      (tail (content before)).Meets WholeLines (tail (content before)).start bs := by
    refine (tailView before).reaches_meeting (I := OnFile before) start
      (fun _ _ _ hi _ ht => onFile_step hi ht) ?_ h (meets_trivial _ _)
    intro s a t hi _ ht
    cases a with
    | emit w =>
      obtain rfl := emit_step ht
      exact ⟨[.append w.bytes], rfl, trivial, fun _ _ => trivial⟩
    | poll a =>
      refine ⟨[a], Option.bind_eq_some_iff.mpr ⟨_, (poll_step ht).2.2, rfl⟩, ?_, fun _ _ => trivial⟩
      cases a with
      | read =>
        apply rest_eq_nil_iff.mp
        change rest newline s.tail.content = []
        rw [hi, whole_content]
      | _ => trivial
  obtain ⟨bs, hbs, hmeets⟩ := whole
  exact Caught.of_reaches (whole_content before) hbs hmeets

/-- The lines yielded are those of the first records written, of all of them where the tail has
nothing left to read. -/
theorem yielded_records {before : List Written} {s : Live} (onFile : OnFile before s)
    (h : Caught (content before) s.tail) : ∃ k,
      s.tail.yielded = (s.written.take k).map (fun w => w.text.toList) ∧
      (s.tail.content.length ≤ s.tail.pos → s.written.length ≤ k) := by
  obtain ⟨d, hd⟩ := h.kept
  obtain ⟨new, hnew⟩ := h.grown
  have hrest : rest newline d = [] := rest_of_append (by rw [hd]; exact h.whole)
  have hsince : content s.written = d ++ new := by
    rw [OnFile, content_append, ← hnew, ← hd, List.append_assoc] at onFile
    exact (List.append_cancel_left onFile).symm
  have hlines := linesOf_content s.written
  rw [hsince, linesOf_append hrest] at hlines
  have hyielded : s.tail.yielded = linesOf d := by
    rw [h.exact, ← hd, List.drop_left]
  refine ⟨(linesOf d).length, ?_, ?_⟩
  · rw [hyielded, List.map_take, ← hlines, List.take_left]
  · intro hpos
    rw [h.pos, ← hnew, List.length_append] at hpos
    have hnil : new = [] := List.length_eq_zero_iff.mp (by omega)
    have hlen := congrArg List.length hlines
    rw [hnil] at hlen
    simp only [linesOf, complete, pieces, List.map_nil, List.append_nil, List.length_map] at hlen ⊢
    omega

end

open Classical in
/-- A reader of all JSON texts. -/
noncomputable def reading : Runtime where
  loads text := if Text text.toList then Json.ofChars text.toList else none
  dumps members := some (Json.obj members).text
  repr j := j.text
  isZero n := n.chars = ['0']
  upper s := s.map Char.toUpper
  intOf j :=
    match j with
    | .num n => readInt n.chars
    | _ => none

theorem reading_number {n : NumText} (h : Number n.chars) : number reading n = some n := by
  have htext : Text n.chars := by
    refine ⟨⟨[], n.chars, []⟩, ⟨?_, ?_⟩, .number h, ?_⟩
    · exact List.forall_mem_nil _
    · exact List.forall_mem_nil _
    · simp [Spaced.chars]
  have hread : Json.ofChars n.chars = some (.num n) := @Json.Style.ofChars_write Json.ascii (.num n)
  have hloads : reading.loads (String.ofList n.chars) = some (.num n) := by
    simp only [reading, String.toList_ofList, hread]
    exact if_pos (by rwa [String.toList_ofList])
  rw [number, hloads]

theorem reading_kept {j : Json} (h : j.Numbered) : Json.Kept (number reading) j := by
  induction j using Json.ind with
  | num n =>
    cases h with
    | num h => exact reading_number h
  | arr items ih =>
    cases h with
    | arr h => exact Json.keptItems_iff.mpr fun j hj => ih j hj (h j hj)
  | obj members ih =>
    cases h with
    | obj h => exact Json.keptMembers_iff.mpr fun m hm => ih m hm (h m hm)
  | _ => trivial

theorem reading_faithful : Faithful reading where
  grammar text h := by
    by_contra hno
    exact h (if_neg hno)
  reads text j htext hread _ _ _ := (if_pos htext).trans hread
  overflows text j _ hnumbered hkept := absurd (reading_kept hnumbered) hkept
  ints n h := by
    have hlen : n.chars.length ≤ maxStrDigits := Nat.le_trans h.1 (by decide)
    simp only [reading, readInt_digits h.2 n.written.1 hlen, Option.isSome_some]
  encodes _ _ _ := rfl

/-- An event of one field. -/
def eventOf (text : String) : Record where
  members := [("event", .str text)]
  keyed := .obj (by simp) (by simp [Json.Keyed.str])
  numbered := .obj (by simp [Json.Numbered.str])
  shallow := by simp [Json.depth, Json.depthMembers, maxDepth]
  texts := by
    simp only [textKeys, List.forall_mem_cons]
    exact ⟨trivial, trivial, trivial, trivial, by simp⟩
  lineno _ h := nomatch h

/-- One process has room for the record, another one cuts it; a tail watches. -/
def twoProcesses : List Act :=
  [.emit ⟨⟨4096⟩, eventOf "é"⟩, .poll .stat, .emit ⟨⟨12⟩, eventOf "é"⟩, .poll .read]

end BackendTemplates.Logs.Writing
