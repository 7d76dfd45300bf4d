import Mathlib.Data.List.Basic

namespace BackendTemplates.Csv

abbrev Row := List (List Char)

/-- A field with such a character is quoted. -/
def special (c : Char) : Bool := c == ',' || c == '"' || c == '\r' || c == '\n'

def double (c : Char) : List Char := if c = '"' then ['"', '"'] else [c]

def writeField (field : List Char) : List Char :=
  if field.any special then '"' :: field.flatMap double ++ ['"'] else field

/-- The first field of a row, and behind commas the others. -/
def writeFields (field : List Char) : Row → List Char
  | [] => writeField field
  | next :: fields => writeField field ++ ',' :: writeFields next fields

/-- A row of one empty field is told from an empty row by its quotes. -/
def writeRow : Row → List Char
  | [] => ['\r', '\n']
  | [[]] => ['"', '"', '\r', '\n']
  | field :: fields => writeFields field fields ++ ['\r', '\n']

/-- Where the reader is. Behind a CR a LF belongs to the same row end. -/
inductive Mode where
  | startRecord
  | afterCr
  | startField
  | inField
  | inQuoted
  | quoteInQuoted
  deriving DecidableEq

structure Reader where
  mode : Mode
  field : List Char
  fields : Row
  rows : List Row
  deriving DecidableEq

namespace Reader

def add (s : Reader) (c : Char) (mode : Mode) : Reader :=
  { s with mode := mode, field := s.field ++ [c] }

def endField (s : Reader) : Reader :=
  { s with mode := .startField, field := [], fields := s.fields ++ [s.field] }

def endRow (s : Reader) (mode : Mode) : Reader :=
  ⟨mode, [], [], s.rows ++ [s.fields ++ [s.field]]⟩

/-- A character outside quotes, in a field or at its start. -/
def plain (s : Reader) (c : Char) : Reader :=
  if c = ',' then s.endField
  else if c = '\r' then s.endRow .afterCr
  else if c = '\n' then s.endRow .startRecord
  else s.add c .inField

def fieldStart (s : Reader) (c : Char) : Reader :=
  if c = '"' then { s with mode := .inQuoted } else s.plain c

def recordStart (s : Reader) (c : Char) : Reader :=
  if c = '\r' then ⟨.afterCr, [], [], s.rows ++ [[]]⟩
  else if c = '\n' then ⟨.startRecord, [], [], s.rows ++ [[]]⟩
  else s.fieldStart c

def step (s : Reader) (c : Char) : Reader :=
  match s.mode with
  | .startRecord => s.recordStart c
  | .afterCr => if c = '\n' then { s with mode := .startRecord } else s.recordStart c
  | .startField => s.fieldStart c
  | .inField => s.plain c
  | .inQuoted => if c = '"' then { s with mode := .quoteInQuoted } else s.add c .inQuoted
  | .quoteInQuoted => if c = '"' then s.add c .inQuoted else s.plain c

/-- What has been read where the text ends. -/
def finish (s : Reader) : List Row :=
  match s.mode with
  | .startRecord => s.rows
  | .afterCr => s.rows
  | _ => s.rows ++ [s.fields ++ [s.field]]

end Reader

def read (text : List Char) : List Row :=
  (text.foldl Reader.step ⟨.startRecord, [], [], []⟩).finish

section
variable {field : List Char} {fields : Row} {rows : List Row} {mode : Mode}

/-- A field without special characters is taken as it stands. -/
theorem run_plain (h : ∀ c ∈ field, special c = false) (hm : mode = .startField ∨ mode = .inField)
    (pre : List Char) :
    ∃ mode', (mode' = .startField ∨ mode' = .inField) ∧
      field.foldl Reader.step ⟨mode, pre, fields, rows⟩ = ⟨mode', pre ++ field, fields, rows⟩ := by
  induction field generalizing mode pre with
  | nil => exact ⟨mode, hm, by simp⟩
  | cons c field ih =>
    have hc := h c (by simp)
    simp only [special, Bool.or_eq_false_iff, beq_eq_false_iff_ne, ne_eq] at hc
    obtain ⟨⟨⟨hcomma, hquote⟩, hcr⟩, hlf⟩ := hc
    have hstep :
        Reader.step ⟨mode, pre, fields, rows⟩ c = ⟨.inField, pre ++ [c], fields, rows⟩ := by
      rcases hm with rfl | rfl <;>
        simp [Reader.step, Reader.fieldStart, Reader.plain, Reader.add, hcomma, hquote, hcr, hlf]
    obtain ⟨mode', hm', hrun⟩ := ih (fun x hx => h x (by simp [hx])) (.inr rfl) (pre ++ [c])
    exact ⟨mode', hm', by rw [List.foldl_cons, hstep, hrun, List.append_assoc]; rfl⟩

/-- Between its quotes any field is taken as it stands. -/
theorem run_quoted (pre : List Char) :
    (field.flatMap double).foldl Reader.step ⟨.inQuoted, pre, fields, rows⟩ =
      ⟨.inQuoted, pre ++ field, fields, rows⟩ := by
  induction field generalizing pre with
  | nil => simp
  | cons c field ih =>
    have hstep : (double c).foldl Reader.step ⟨.inQuoted, pre, fields, rows⟩ =
        ⟨.inQuoted, pre ++ [c], fields, rows⟩ := by
      by_cases hc : c = '"'
      · subst hc
        rfl
      · simp [double, Reader.step, Reader.add, hc]
    rw [List.flatMap_cons, List.foldl_append, hstep, ih, List.append_assoc]
    rfl

/-- A field has been read, up to the character that ends it. -/
theorem run_field (field : List Char) (fields : Row) (rows : List Row) :
    ∃ mode, mode ∈ [Mode.startField, .inField, .quoteInQuoted] ∧
      (writeField field).foldl Reader.step ⟨.startField, [], fields, rows⟩ =
        ⟨mode, field, fields, rows⟩ := by
  unfold writeField
  split
  · refine ⟨.quoteInQuoted, by simp, ?_⟩
    rw [List.foldl_append, List.foldl_cons]
    change [_].foldl Reader.step ((field.flatMap double).foldl Reader.step
      ⟨.inQuoted, [], fields, rows⟩) = _
    rw [run_quoted]
    rfl
  · rename_i h
    simp only [List.any_eq_true, not_exists, not_and, Bool.not_eq_true] at h
    obtain ⟨mode, hm, hrun⟩ := @run_plain field fields rows _ h (.inl rfl) []
    exact ⟨mode, by rcases hm with rfl | rfl <;> simp, hrun⟩

/-- The fields of a row have been read, up to the last one. -/
theorem run_fields (field : List Char) (rest pre : Row) (rows : List Row) :
    (writeFields field rest ++ ['\r', '\n']).foldl Reader.step ⟨.startField, [], pre, rows⟩ =
      ⟨.startRecord, [], [], rows ++ [pre ++ field :: rest]⟩ := by
  induction rest generalizing field pre with
  | nil =>
    obtain ⟨mode, hm, hrun⟩ := run_field field pre rows
    rw [writeFields, List.foldl_append, hrun]
    simp only [List.mem_cons, List.not_mem_nil, or_false] at hm
    rcases hm with rfl | rfl | rfl <;> rfl
  | cons next rest ih =>
    obtain ⟨mode, hm, hrun⟩ := run_field field pre rows
    have hcomma : Reader.step ⟨mode, field, pre, rows⟩ ',' =
        ⟨.startField, [], pre ++ [field], rows⟩ := by
      simp only [List.mem_cons, List.not_mem_nil, or_false] at hm
      rcases hm with rfl | rfl | rfl <;> rfl
    rw [writeFields, List.append_assoc, List.foldl_append, hrun, List.cons_append, List.foldl_cons,
      hcomma, ih, List.append_assoc]
    rfl

/-- At the start of a row a field starts, unless a row end comes first. -/
theorem run_start {c : Char} {cs : List Char} (hcr : c ≠ '\r') (hlf : c ≠ '\n') :
    (c :: cs).foldl Reader.step ⟨.startRecord, [], [], rows⟩ =
      (c :: cs).foldl Reader.step ⟨.startField, [], [], rows⟩ := by
  have hmode : Reader.fieldStart ⟨.startRecord, [], [], rows⟩ c =
      Reader.fieldStart ⟨.startField, [], [], rows⟩ c := by
    unfold Reader.fieldStart Reader.plain
    rw [if_neg hcr, if_neg hcr, if_neg hlf, if_neg hlf]
    split
    · rfl
    split <;> rfl
  simp [Reader.step, Reader.recordStart, hcr, hlf, hmode]

theorem writeField_head {c : Char} {cs : List Char} (h : writeField field = c :: cs) :
    c ≠ '\r' ∧ c ≠ '\n' := by
  unfold writeField at h
  split at h
  · obtain ⟨rfl, -⟩ := List.cons.inj h
    decide
  · rename_i hn
    subst h
    simp only [List.any_cons, special, Bool.or_eq_true, beq_iff_eq, not_or] at hn
    exact ⟨hn.1.1.2, hn.1.2⟩

theorem run_row (row : Row) (rows : List Row) :
    (writeRow row).foldl Reader.step ⟨.startRecord, [], [], rows⟩ =
      ⟨.startRecord, [], [], rows ++ [row]⟩ := by
  unfold writeRow
  split
  · rfl
  · rfl
  · rename_i field fields hne
    have hrun := run_fields field fields [] rows
    rw [List.nil_append] at hrun
    cases hw : writeField field with
    | nil =>
      cases fields with
      | nil =>
        have hnil : field = [] := by
          unfold writeField at hw
          split at hw
          · cases hw
          · exact hw
        exact absurd rfl (hne hnil)
      | cons next rest =>
        rw [writeFields, hw] at hrun ⊢
        simp only [List.nil_append, List.cons_append] at hrun ⊢
        rw [run_start (by decide) (by decide), hrun]
    | cons c cs =>
      obtain ⟨hcr, hlf⟩ := writeField_head hw
      have htext : ∃ ds, writeFields field fields ++ ['\r', '\n'] = c :: ds := by
        cases fields with
        | nil => exact ⟨_, by rw [writeFields, hw]; rfl⟩
        | cons next rest => exact ⟨_, by rw [writeFields, hw]; rfl⟩
      obtain ⟨ds, hds⟩ := htext
      rw [hds] at hrun ⊢
      rw [run_start hcr hlf, hrun]

/-- Whatever the fields hold, the rows written are the rows read. -/
theorem read_write (rows : List Row) : read (rows.flatMap writeRow) = rows := by
  have run : ∀ (rows pre : List Row),
      (rows.flatMap writeRow).foldl Reader.step ⟨.startRecord, [], [], pre⟩ =
        ⟨.startRecord, [], [], pre ++ rows⟩ := by
    intro rows
    induction rows with
    | nil => simp
    | cons row rows ih =>
      intro pre
      rw [List.flatMap_cons, List.foldl_append, run_row, ih, List.append_assoc]
      rfl
  unfold read
  rw [run rows []]
  rfl

end
end BackendTemplates.Csv
