import BackendTemplates.Library.Json
import BackendTemplates.Logs.LogFile

namespace BackendTemplates.Logs
open Python

/-- What orjson, Python's `str` and `upper` and pydantic do with a value. -/
structure Runtime where
  loads : String → Option Json
  dumps : List (String × Json) → Option String
  repr : Json → String
  isZero : NumText → Bool
  upper : String → String
  intOf : Json → Option Int

structure LogEntryVO where
  timestamp : String
  level : String
  logger : String
  event : String
  raw : List (String × Json)

structure LogEntrySchema where
  timestamp : String
  level : String
  logger : String
  event : String
  pathname : Option String
  lineno : Option Int
  funcName : Option String
  traceId : Option String
  spanId : Option String
  contextJson : String
  deriving DecidableEq

/-- What `_to_entry_schema` can raise: orjson's encode error, or pydantic's validation
error on some fields. -/
inductive Failure where
  | encode
  | validation (fields : List String)
  deriving DecidableEq

structure Cursor where
  inode : Nat
  offset : Int
  deriving DecidableEq

/-- `_PROMOTED_KEYS`. -/
def promotedKeys : List String :=
  ["timestamp", "level", "logger", "event", "pathname", "lineno", "func_name", "trace_id",
    "span_id"]

/-- The promoted fields that are text or null on the wire. -/
def textKeys : List String := ["pathname", "func_name", "trace_id", "span_id"]

namespace Runtime

/-- `str(value)`. -/
def strOf (rt : Runtime) : Json → String
  | .str s => s
  | j => rt.repr j

/-- Whether Python takes the value for true. -/
def truthy (rt : Runtime) : Json → Bool
  | .null => false
  | .bool b => b
  | .num n => !rt.isZero n
  | .str s => s != ""
  | .arr items => !items.isEmpty
  | .obj members => !members.isEmpty

/-- `LogEntryVO.parse`. `none` is `MalformedLogLine`. -/
def parse (rt : Runtime) (line : List Char) : Option LogEntryVO :=
  let text := rstripCr line
  if text.isEmpty then none
  else match rt.loads (String.ofList text) with
    | some (.obj data) =>
      let logger := (data.lookup "logger").getD .null
      some
        { timestamp := rt.strOf ((data.lookup "timestamp").getD (.str ""))
          level := rt.upper (rt.strOf ((data.lookup "level").getD (.str "INFO")))
          logger := if rt.truthy logger then rt.strOf logger else ""
          event := rt.strOf ((data.lookup "event").getD (.str ""))
          raw := data }
    | _ => none

/-- A field `str | None`. The outer `none` is its rejection. -/
def textField : Option Json → Option (Option String)
  | none => some none
  | some .null => some none
  | some (.str s) => some (some s)
  | some _ => none

/-- A field `int | None`. -/
def intField (rt : Runtime) : Option Json → Option (Option Int)
  | none => some none
  | some .null => some none
  | some j => (rt.intOf j).map some

/-- The fields that the schema rejects, in its order. -/
def rejected (rt : Runtime) (raw : List (String × Json)) : List String :=
  [("pathname", (textField (raw.lookup "pathname")).isNone),
    ("lineno", (rt.intField (raw.lookup "lineno")).isNone),
    ("func_name", (textField (raw.lookup "func_name")).isNone),
    ("trace_id", (textField (raw.lookup "trace_id")).isNone),
    ("span_id", (textField (raw.lookup "span_id")).isNone)].filterMap
      (fun f => if f.2 then some f.1 else none)

def context (raw : List (String × Json)) : List (String × Json) :=
  raw.filter (fun m => m.1 ∉ promotedKeys)

def contextJson (rt : Runtime) (raw : List (String × Json)) : Option String :=
  if (context raw).isEmpty then some "\x7b\x7d" else rt.dumps (context raw)

/-- `_to_entry_schema`. -/
def toEntrySchema (rt : Runtime) (ent : LogEntryVO) : Except Failure LogEntrySchema :=
  match rt.contextJson ent.raw with
  | none => .error .encode
  | some contextJson =>
    match textField (ent.raw.lookup "pathname"), rt.intField (ent.raw.lookup "lineno"),
      textField (ent.raw.lookup "func_name"), textField (ent.raw.lookup "trace_id"),
      textField (ent.raw.lookup "span_id") with
    | some pathname, some lineno, some funcName, some traceId, some spanId =>
      .ok ⟨ent.timestamp, ent.level, ent.logger, ent.event, pathname, lineno, funcName, traceId,
        spanId, contextJson⟩
    | _, _, _, _, _ => .error (.validation (rt.rejected ent.raw))

/-- `FileLogReader._map`. -/
def map (rt : Runtime) (lines : List (List Char)) : List LogEntryVO := lines.filterMap rt.parse

def readTail (rt : Runtime) (chunkBytes limit : Nat) (file : LogFile) :
    Option (List LogEntryVO × Cursor) :=
  (readLastLines chunkBytes limit file).map fun r => (rt.map r.1, ⟨r.2.2, r.2.1⟩)

def readBefore (rt : Runtime) (chunkBytes : Nat) (cursor : Cursor) (limit : Nat) (file : LogFile) :
    Option (List LogEntryVO × Cursor) :=
  if cursor.inode ≠ file.inode then some ([], cursor)
  else (readLinesBefore chunkBytes cursor.offset limit file).map fun r =>
    (rt.map r.1, ⟨file.inode, r.2⟩)

/-- A page of entries as the facade returns it. -/
def toPage (rt : Runtime) (r : List LogEntryVO × Cursor) :
    Except Failure (List LogEntrySchema × Cursor) :=
  (r.1.mapM rt.toEntrySchema).map (fun rows => (rows, r.2))

def renderLogPage (rt : Runtime) (chunkBytes limit : Nat) (file : LogFile) :
    Option (Except Failure (List LogEntrySchema × Cursor)) :=
  (rt.readTail chunkBytes limit file).map rt.toPage

def loadOlderLogs (rt : Runtime) (chunkBytes : Nat) (cursor : Cursor) (limit : Nat)
    (file : LogFile) : Option (Except Failure (List LogEntrySchema × Cursor)) :=
  (rt.readBefore chunkBytes cursor limit file).map rt.toPage

/-- `stream_tail` over the lines its source has yielded: the rows it has yielded, and the
exception that has ended it. -/
def streamTail (rt : Runtime) : List (List Char) → List LogEntrySchema × Option Failure
  | [] => ([], none)
  | line :: lines =>
    match rt.parse line with
    | none => streamTail rt lines
    | some ent =>
      match rt.toEntrySchema ent with
      | .error e => ([], some e)
      | .ok row => (row :: (streamTail rt lines).1, (streamTail rt lines).2)

/-- The rows belong to the lines: none to a malformed one, and one, made from it alone, to
any other. -/
inductive Rows (rt : Runtime) : List (List Char) → List LogEntrySchema → Prop where
  | nil : Rows rt [] []
  | skipped {line : List Char} {lines : List (List Char)} {rows : List LogEntrySchema}
      (malformed : rt.parse line = none) (next : Rows rt lines rows) : Rows rt (line :: lines) rows
  | shown {line : List Char} {lines : List (List Char)} {ent : LogEntryVO} {row : LogEntrySchema}
      {rows : List LogEntrySchema} (parsed : rt.parse line = some ent)
      (valid : rt.toEntrySchema ent = .ok row) (next : Rows rt lines rows) :
      Rows rt (line :: lines) (row :: rows)

/-- A field of this value passes `str | None`. -/
def Textual : Option Json → Prop
  | none => True
  | some .null => True
  | some (.str _) => True
  | some _ => False

/-- Its text fields are text or null, its line number is null or has an integer reading,
and orjson encodes the rest of it. -/
def Displayable (rt : Runtime) (line : List Char) : Prop :=
  ∀ ent, rt.parse line = some ent →
    (∀ key ∈ textKeys, Textual (ent.raw.lookup key)) ∧
    (∀ j, ent.raw.lookup "lineno" = some j → j = .null ∨ (rt.intOf j).isSome) ∧
    (context ent.raw ≠ [] → (rt.dumps (context ent.raw)).isSome)

section
variable {rt : Runtime}

theorem textField_isSome {j : Option Json} : (textField j).isSome ↔ Textual j := by
  unfold textField Textual
  split <;> simp_all

theorem intField_isSome {j : Option Json} :
    (rt.intField j).isSome ↔ ∀ v, j = some v → v = .null ∨ (rt.intOf v).isSome := by
  unfold intField
  split
  · simp
  · simp
  · rename_i v hv
    simp only [Option.isSome_map, Option.some.injEq, forall_eq']
    constructor
    · intro h
      exact .inr h
    · intro h
      exact h.resolve_left (by rintro rfl; exact hv rfl)

theorem contextJson_isSome {raw : List (String × Json)} :
    (rt.contextJson raw).isSome ↔ (context raw ≠ [] → (rt.dumps (context raw)).isSome) := by
  unfold contextJson
  by_cases h : context raw = []
  · simp [h]
  · simp [h]

theorem toEntrySchema_ok_iff {ent : LogEntryVO} :
    (∃ row, rt.toEntrySchema ent = .ok row) ↔
      (rt.contextJson ent.raw).isSome ∧ (rt.intField (ent.raw.lookup "lineno")).isSome ∧
        ∀ key ∈ textKeys, (textField (ent.raw.lookup key)).isSome := by
  unfold toEntrySchema
  cases hc : rt.contextJson ent.raw with
  | none => simp
  | some contextJson =>
    simp only [textKeys, List.forall_mem_cons, Option.isSome_some, true_and]
    split
    · rename_i h₁ h₂ h₃ h₄ h₅
      simp [h₁, h₂, h₃, h₄, h₅]
    · rename_i hnone
      simp only [reduceCtorEq, exists_false, false_iff]
      intro h
      obtain ⟨h₂, h₁, h₃, h₄, h₅, _⟩ := h
      obtain ⟨v₁, h₁⟩ := Option.isSome_iff_exists.mp h₁
      obtain ⟨v₂, h₂⟩ := Option.isSome_iff_exists.mp h₂
      obtain ⟨v₃, h₃⟩ := Option.isSome_iff_exists.mp h₃
      obtain ⟨v₄, h₄⟩ := Option.isSome_iff_exists.mp h₄
      obtain ⟨v₅, h₅⟩ := Option.isSome_iff_exists.mp h₅
      exact hnone v₁ v₂ v₃ v₄ v₅ h₁ h₂ h₃ h₄ h₅

theorem displayable_iff {line : List Char} : rt.Displayable line ↔
    ∀ ent, rt.parse line = some ent → ∃ row, rt.toEntrySchema ent = .ok row := by
  unfold Displayable
  simp only [toEntrySchema_ok_iff, contextJson_isSome, intField_isSome, textField_isSome]
  constructor
  · intro h ent hp
    obtain ⟨ht, hi, hd⟩ := h ent hp
    exact ⟨hd, hi, ht⟩
  · intro h ent hp
    obtain ⟨hd, hi, ht⟩ := h ent hp
    exact ⟨ht, hi, hd⟩

/-- The lines have their rows exactly when each of them can be displayed. -/
theorem rows_iff {lines : List (List Char)} :
    (∃ rows, Rows rt lines rows) ↔ ∀ line ∈ lines, rt.Displayable line := by
  induction lines with
  | nil => simpa using ⟨_, Rows.nil⟩
  | cons line lines ih =>
    rw [List.forall_mem_cons, ← ih, displayable_iff]
    constructor
    · intro h
      obtain ⟨rows, hrows⟩ := h
      cases hrows with
      | skipped malformed next =>
        refine ⟨fun ent hp => ?_, _, next⟩
        rw [malformed] at hp
        cases hp
      | shown parsed valid next =>
        refine ⟨fun ent hp => ?_, _, next⟩
        obtain rfl := Option.some.inj (parsed.symm.trans hp)
        exact ⟨_, valid⟩
    · intro h
      obtain ⟨hline, rows, hrows⟩ := h
      cases hp : rt.parse line with
      | none => exact ⟨rows, .skipped hp hrows⟩
      | some ent =>
        obtain ⟨row, hrow⟩ := hline ent hp
        exact ⟨row :: rows, .shown hp hrow hrows⟩

theorem mapM_map_iff {lines : List (List Char)} {rows : List LogEntrySchema} :
    (rt.map lines).mapM rt.toEntrySchema = .ok rows ↔ Rows rt lines rows := by
  induction lines generalizing rows with
  | nil =>
    constructor
    · intro h
      cases h
      exact .nil
    · intro h
      cases h
      rfl
  | cons line lines ih =>
    cases hp : rt.parse line with
    | none =>
      have hmap : rt.map (line :: lines) = rt.map lines := by simp [map, hp]
      rw [hmap, ih]
      constructor
      · exact .skipped hp
      · intro h
        cases h with
        | skipped malformed next => exact next
        | shown parsed valid next => rw [hp] at parsed; cases parsed
    | some ent =>
      have hmap : rt.map (line :: lines) = ent :: rt.map lines := by simp [map, hp]
      rw [hmap, List.mapM_cons]
      constructor
      · intro h
        cases hrow : rt.toEntrySchema ent with
        | error e => rw [hrow] at h; cases h
        | ok row =>
          cases hrest : (rt.map lines).mapM rt.toEntrySchema with
          | error e => rw [hrow, hrest] at h; cases h
          | ok rest =>
            rw [hrow, hrest] at h
            cases h
            exact .shown hp hrow (ih.mp hrest)
      · intro h
        cases h with
        | skipped malformed next => rw [hp] at malformed; cases malformed
        | shown parsed valid next =>
          obtain rfl := Option.some.inj (hp.symm.trans parsed)
          rw [valid, ih.mpr next]
          rfl

theorem streamTail_iff {lines : List (List Char)} {rows : List LogEntrySchema} :
    rt.streamTail lines = (rows, none) ↔ Rows rt lines rows := by
  induction lines generalizing rows with
  | nil =>
    constructor
    · intro h
      cases h
      exact .nil
    · intro h
      cases h
      rfl
  | cons line lines ih =>
    unfold streamTail
    cases hp : rt.parse line with
    | none =>
      simp only [ih]
      constructor
      · exact .skipped hp
      · intro h
        cases h with
        | skipped malformed next => exact next
        | shown parsed valid next => rw [hp] at parsed; cases parsed
    | some ent =>
      simp only
      constructor
      · intro h
        cases hrow : rt.toEntrySchema ent with
        | error e =>
          simp [hrow] at h
        | ok row =>
          simp only [hrow, Prod.mk.injEq] at h
          obtain ⟨rfl, hend⟩ := h
          exact .shown hp hrow (ih.mp (Prod.ext rfl hend))
      · intro h
        cases h with
        | skipped malformed next => rw [hp] at malformed; cases malformed
        | shown parsed valid next =>
          obtain rfl := Option.some.inj (hp.symm.trans parsed)
          simp only [valid, ih.mpr next]

/-- The last lines of a list. -/
def newest (limit : Nat) (lines : List (List Char)) : List (List Char) :=
  lines.drop (lines.length - limit)

/-- The offset is where a line of the file begins or its last one ends. -/
def AtLine (content : List UInt8) (offset : Nat) : Prop :=
  offset ≤ content.length ∧ rest newline (content.take offset) = []

/-- A page that came back with the rows of some lines. -/
def Shown (rt : Runtime) (lines : List (List Char))
    (page : Option (Except Failure (List LogEntrySchema × Cursor))) : Prop :=
  ∃ rows cursor, page = some (.ok (rows, cursor)) ∧ Rows rt lines rows

/-- No line makes a page or the stream fail, and each has its row or is malformed. -/
def Survives (rt : Runtime) (chunkBytes : Nat) (file : LogFile) (followed : List (List Char)) :
    Prop :=
  (∀ limit, 0 < limit → Shown rt (newest limit (linesOf file.content))
    (rt.renderLogPage chunkBytes limit file)) ∧
  (∀ offset limit, 0 < limit → AtLine file.content offset →
    Shown rt (newest limit (linesOf (file.content.take offset)))
      (rt.loadOlderLogs chunkBytes ⟨file.inode, offset⟩ limit file)) ∧
  ∃ rows, rt.streamTail followed = (rows, none) ∧ Rows rt followed rows

theorem shown_iff {lines : List (List Char)} {cursor : Cursor} :
    Shown rt lines (some (rt.toPage (rt.map lines, cursor))) ↔
      ∀ line ∈ lines, rt.Displayable line := by
  rw [← rows_iff]
  constructor
  · intro h
    obtain ⟨rows, _, _, hrows⟩ := h
    exact ⟨rows, hrows⟩
  · intro h
    obtain ⟨rows, hrows⟩ := h
    refine ⟨rows, cursor, ?_, hrows⟩
    simp only [toPage, mapM_map_iff.mpr hrows]
    rfl

variable {chunkBytes limit : Nat} {file : LogFile}

theorem keepLast_lines (hl : 0 < limit) (content : List UInt8) :
    (keepLast limit (complete newline content) 0).1 = newest limit (linesOf content) := by
  rw [keepLast_eq hl, newest, linesOf, List.length_map, List.map_drop]

theorem renderLogPage_shown (hc : 0 < chunkBytes) (hl : 0 < limit) :
    Shown rt (newest limit (linesOf file.content)) (rt.renderLogPage chunkBytes limit file) ↔
      ∀ line ∈ newest limit (linesOf file.content), rt.Displayable line := by
  rw [← shown_iff, renderLogPage, readTail, readLastLines_eq hc hl, keepLast_lines hl]
  rfl

theorem loadOlderLogs_shown (hc : 0 < chunkBytes) (hl : 0 < limit) {offset : Nat}
    (ho : AtLine file.content offset) :
    Shown rt (newest limit (linesOf (file.content.take offset)))
      (rt.loadOlderLogs chunkBytes ⟨file.inode, offset⟩ limit file) ↔
      ∀ line ∈ newest limit (linesOf (file.content.take offset)), rt.Displayable line := by
  have hsame : ¬ file.inode ≠ file.inode := fun h => h rfl
  rw [← shown_iff, loadOlderLogs, readBefore, if_neg hsame, readLinesBefore_eq hc hl ho.1 ho.2,
    Option.map_some, keepLast_lines hl]
  rfl

theorem linesOf_take {content : List UInt8} {offset : Nat} {line : List Char}
    (h : line ∈ linesOf (content.take offset)) : line ∈ linesOf content := by
  have hc : linesOf content = linesOf (content.take offset ++ content.drop offset) := by
    rw [List.take_append_drop]
  rw [hc, linesOf, complete_append, List.map_append]
  exact List.mem_append_left _ h

/-- The viewer survives a file, and what is followed after it, exactly when each line is
malformed or can be displayed. -/
theorem survives_iff (rt : Runtime) (hc : 0 < chunkBytes) (file : LogFile)
    (followed : List (List Char)) : Survives rt chunkBytes file followed ↔
      ∀ line ∈ linesOf file.content ++ followed, rt.Displayable line := by
  rw [List.forall_mem_append]
  constructor
  · intro h
    obtain ⟨hpage, _, rows, _, hrows⟩ := h
    constructor
    · have hall := (renderLogPage_shown hc (Nat.succ_pos _)).mp
        (hpage ((linesOf file.content).length + 1) (Nat.succ_pos _))
      have hnewest : newest ((linesOf file.content).length + 1) (linesOf file.content) =
          linesOf file.content := by
        simp [newest]
      rwa [hnewest] at hall
    · exact rows_iff.mp ⟨rows, hrows⟩
  · intro h
    obtain ⟨hfile, hfollowed⟩ := h
    refine ⟨?_, ?_, ?_⟩
    · intro limit hl
      apply (renderLogPage_shown hc hl).mpr
      intro line hline
      exact hfile line (List.mem_of_mem_drop hline)
    · intro offset limit hl ho
      apply (loadOlderLogs_shown hc hl ho).mpr
      intro line hline
      exact hfile line (linesOf_take (List.mem_of_mem_drop hline))
    · obtain ⟨rows, hrows⟩ := rows_iff.mpr hfollowed
      exact ⟨rows, streamTail_iff.mpr hrows, hrows⟩

end

/-- A runtime that knows one line, a record of the given members. -/
def knowing (text : String) (members : List (String × Json)) : Runtime where
  loads s := if s = text then some (.obj members) else none
  dumps _ := some "\x7b\x7d"
  repr _ := "5"
  isZero _ := false
  upper s := s
  intOf _ := some 5

def five : Json := .num ⟨['5'], by simp [numChar]⟩

def linenoFive : String := "\x7b\"lineno\": 5\x7d"

def pathFive : String := "\x7b\"pathname\": 5\x7d"

theorem knowing_raw {text : String} {members : List (String × Json)} {line : List Char}
    {ent : LogEntryVO} (h : (knowing text members).parse line = some ent) : ent.raw = members := by
  simp only [parse] at h
  split at h
  · cases h
  · split at h
    · rename_i data hload
      simp only [knowing] at hload
      split at hload
      · cases h
        cases hload
        rfl
      · cases hload
    · cases h

theorem knowing_displayable {text : String} {line : List Char} :
    (knowing text [("lineno", five)]).Displayable line := by
  intro ent hp
  rw [knowing_raw hp]
  refine ⟨?_, fun _ _ => .inr rfl, fun h => absurd ?_ h⟩
  · intro key hkey
    simp only [textKeys, List.mem_cons, List.not_mem_nil, or_false] at hkey
    rcases hkey with rfl | rfl | rfl | rfl <;> simp [List.lookup_cons, Textual]
  · simp [context, promotedKeys]

theorem lineno_five_survives : Survives (knowing linenoFive [("lineno", five)]) defaultChunk
    ⟨7, utf8 (linenoFive ++ "\n")⟩ [] := by
  apply (survives_iff _ (by decide) _ _).mpr
  intro line _
  exact knowing_displayable

theorem path_five_fails : ¬ ∀ rt chunkBytes, 0 < chunkBytes → ∀ file followed,
    Survives rt chunkBytes file followed := by
  intro hall
  have hpage := (hall (knowing pathFive [("pathname", five)]) defaultChunk (by decide)
    ⟨7, utf8 (pathFive ++ "\n")⟩ []).1 1 (by decide)
  obtain ⟨rows, cursor, he, _⟩ := hpage
  have hfail : ((knowing pathFive [("pathname", five)]).renderLogPage defaultChunk 1
      ⟨7, utf8 (pathFive ++ "\n")⟩).map (fun r => match r with
        | .error e => some e
        | .ok _ => none) = some (some (.validation ["pathname"])) := by decide +kernel
  rw [he] at hfail
  cases hfail

end Runtime
end BackendTemplates.Logs
