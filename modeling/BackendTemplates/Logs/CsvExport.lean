import BackendTemplates.Library.Csv
import BackendTemplates.Logs.Export
import BackendTemplates.Logs.TruncatedRecord

namespace BackendTemplates.Logs
open Python

/-- `_CSV_HEADER`. -/
def csvHeader : List String := ["timestamp", "level", "logger", "event"]

/-- `_FORMULA_TRIGGERS`. -/
def formulaTriggers : List Char := ['=', '+', '-', '@']

/-- `_defuse`. -/
def defuse (value : String) : String :=
  match value.toList with
  | [] => value
  | c :: _ => if c ∈ formulaTriggers then "\t" ++ value else value

/-- `_row`. -/
def csvRow (entry : LogEntryVO) : List String :=
  [defuse entry.timestamp, defuse entry.level, defuse entry.logger, defuse entry.event]

/-- `writer.writerow`. -/
def writerow (row : List String) : List Char := Csv.writeRow (row.map String.toList)

/-- What `export_ndjson` yields for the lines of `stream_all`. -/
def exportNdjson (lines : List (List Char)) : List (List Char) := lines.map (· ++ ['\n'])

/-- What `export_csv` yields for them. -/
def Runtime.exportCsv (rt : Runtime) (lines : List (List Char)) : List (List Char) :=
  writerow csvHeader ::
    lines.filterMap (fun line => (rt.parse line).map (fun entry => writerow (csvRow entry)))

/-- Rows of texts as a reader of CSV gives them. -/
def sheet (rows : List (List String)) : List Csv.Row := rows.map (·.map String.toList)

/-- What a row of the viewer shows in the columns of the download. -/
def LogEntrySchema.columns (row : LogEntrySchema) : List String :=
  [row.timestamp, row.level, row.logger, row.event]

section
variable {rt : Runtime} {lines : List (List Char)}

theorem defuse_cases (value : String) :
    (defuse value).toList.head? ∉ formulaTriggers.map some ∧
      (defuse value = value ∨ defuse value = "\t" ++ value) := by
  unfold defuse
  split
  · rename_i hnil
    simp [hnil, formulaTriggers]
  · rename_i c cs hcons
    split
    · exact ⟨by simp [formulaTriggers], .inr rfl⟩
    · rename_i hsafe
      exact ⟨by simpa [hcons] using hsafe, .inl rfl⟩

theorem exportCsv_eq : rt.exportCsv lines =
    (csvHeader :: (rt.map lines).map csvRow).map writerow := by
  rw [Runtime.exportCsv, Runtime.map, List.map_cons, List.map_map, List.map_filterMap]
  rfl

/-- The CSV that has been sent so far holds a row for each line that is not malformed. -/
theorem read_exportCsv : Csv.read (rt.exportCsv lines).flatten =
    sheet (csvHeader :: (rt.map lines).map csvRow) := by
  have hrows : ((csvHeader :: (rt.map lines).map csvRow).map writerow).flatten =
      (sheet (csvHeader :: (rt.map lines).map csvRow)).flatMap Csv.writeRow := by
    rw [sheet, List.flatMap_map, List.flatMap_def]
    rfl
  rw [exportCsv_eq, hrows, Csv.read_write]

theorem toEntrySchema_columns {ent : LogEntryVO} {row : LogEntrySchema}
    (h : rt.toEntrySchema ent = .ok row) : csvRow ent = row.columns.map defuse := by
  unfold Runtime.toEntrySchema at h
  split at h
  · cases h
  split at h
  · cases h
    rfl
  · cases h

/-- The rows of the download are those of the viewer, where it can show the lines. -/
theorem Runtime.Rows.columns {rows : List LogEntrySchema} (h : Runtime.Rows rt lines rows) :
    (rt.map lines).map csvRow = rows.map (fun row => row.columns.map defuse) := by
  induction h with
  | nil => rfl
  | skipped malformed _ ih => simpa [Runtime.map, malformed] using ih
  | shown parsed valid _ ih =>
    simpa [Runtime.map, parsed, toEntrySchema_columns valid] using ih

theorem utf8_ndjson (lines : List (List Char)) :
    utf8 (String.ofList (exportNdjson lines).flatten) =
      terminate newline (lines.map fun line => utf8 (String.ofList line)) := by
  simp only [utf8_eq, String.toList_ofList, exportNdjson]
  induction lines with
  | nil => rfl
  | cons line lines ih =>
    simp only [List.map_cons, List.flatten_cons, List.flatMap_append, ih, terminate]
    rfl

/-- A line that was yielded is one line again when it is written. -/
theorem complete_ndjson {raw : List (List UInt8)} (h : ∀ line ∈ raw, newline ∉ line) :
    complete newline (utf8 (String.ofList (exportNdjson (raw.map lineText)).flatten)) =
      (raw.map lineText).map (fun line => utf8 (String.ofList line)) := by
  have hplain : ∀ line ∈ (raw.map lineText).map (fun line => utf8 (String.ofList line)),
      newline ∉ line := by
    simp only [List.map_map, List.mem_map]
    rintro _ ⟨line, hline, rfl⟩
    refine newline_not_mem_utf8 ?_
    rw [String.toList_ofList]
    exact fun hmem => newline_not_mem_decodeReplace (h line hline) ((rstripCr_start _).subset hmem)
  have hpieces := pieces_terminate hplain (@List.not_mem_nil _ newline)
  rw [List.append_nil] at hpieces
  rw [utf8_ndjson, complete, hpieces]

/-- And it is read back as it was. -/
theorem linesOf_ndjson {raw : List (List UInt8)} (h : ∀ line ∈ raw, newline ∉ line) :
    linesOf (utf8 (String.ofList (exportNdjson (raw.map lineText)).flatten)) =
      raw.map lineText := by
  rw [linesOf, complete_ndjson h, List.map_map, List.map_map]
  refine List.map_congr_left fun line _ => ?_
  rw [Function.comp_apply, Function.comp_apply, lineText, decodeReplace_utf8, String.toList_ofList,
    rstripCr_lineText]

theorem exportAfter_content (chunkBytes : Nat) (start : List UInt8)
    (appends : Nat → List UInt8) (n : Nat) :
    ∃ m ≤ n, (exportAfter chunkBytes start appends n).content = start ++ written appends m ∧
      ((exportAfter chunkBytes start appends n).ended = false → m = n) := by
  induction n with
  | zero => exact ⟨0, Nat.le_refl _, by simp [exportAfter, written], fun _ => rfl⟩
  | succ n ih =>
    obtain ⟨m, hm, hcontent, hrunning⟩ := ih
    cases he : (exportAfter chunkBytes start appends n).ended with
    | true => exact ⟨m, Nat.le_succ_of_le hm, by simp [exportAfter, he, hcontent], by
        simp [exportAfter, he]⟩
    | false =>
      obtain rfl := hrunning he
      refine ⟨m + 1, Nat.le_refl _, ?_, fun _ => rfl⟩
      simp only [exportAfter, he, Bool.false_eq_true, if_false, Export.read]
      split <;> simp [hcontent, written]

end

/-- Whenever the download is read, it holds the complete lines of what has been read of the
file, in NDJSON each of them as the reader decodes it, which is byte for byte if they are UTF-8
without a carriage return at their end, and in CSV a row for each that is not malformed, as the
viewer shows it but for the tab in front of a formula. No cell starts one. The download that has
ended holds the whole file. -/
theorem downloads_read_back {chunkBytes : Nat} (hc : 0 < chunkBytes) (rt : Runtime)
    (start : List UInt8) (appends : Nat → List UInt8) (n : Nat) :
    ∃ m ≤ n, ∃ k ≤ (start ++ written appends m).length,
      let e := exportAfter chunkBytes start appends n
      let read := (start ++ written appends m).take k
      let seen := linesOf read
      let ndjson := utf8 (String.ofList (exportNdjson e.yielded).flatten)
      (e.ended = true → k = (start ++ written appends m).length) ∧
      linesOf ndjson = seen ∧
      (complete newline ndjson = complete newline read ↔
        ∀ line ∈ complete newline read, Verbatim line) ∧
      Csv.read (rt.exportCsv e.yielded).flatten =
        sheet (csvHeader :: (rt.map seen).map csvRow) ∧
      (∀ rows, Runtime.Rows rt seen rows →
        (rt.map seen).map csvRow = rows.map (fun row => row.columns.map defuse)) ∧
      ∀ cells ∈ Csv.read (rt.exportCsv e.yielded).flatten, ∀ cell ∈ cells,
        cell.head? ∉ formulaTriggers.map some := by
  obtain ⟨m, hm, hcontent, -⟩ := exportAfter_content chunkBytes start appends n
  have hexact := @exportAfter_exact chunkBytes start appends hc n
  have hpos := hexact.pos
  have hyielded := hexact.yielded
  rw [hcontent] at hpos hyielded
  refine ⟨m, hm, _, hpos, fun he => hcontent ▸ hexact.ended he, ?_, ?_, ?_,
    fun _ hrows => hrows.columns, ?_⟩
  · rw [hyielded]
    exact linesOf_ndjson (fun _ => sep_not_mem_complete)
  · rw [hyielded, linesOf, complete_ndjson (fun _ => sep_not_mem_complete)]
    exact linesOf_bytes_iff
  · rw [hyielded, read_exportCsv]
  · rw [read_exportCsv]
    intro cells hcells cell hcell
    simp only [sheet, List.map_cons, List.mem_cons, List.map_map, List.mem_map] at hcells
    rcases hcells with rfl | ⟨entry, -, rfl⟩
    · obtain ⟨text, htext, rfl⟩ := List.mem_map.mp hcell
      simp only [csvHeader, List.mem_cons, List.not_mem_nil, or_false] at htext
      rcases htext with rfl | rfl | rfl | rfl <;> decide
    · obtain ⟨text, htext, rfl⟩ := List.mem_map.mp hcell
      simp only [csvRow, List.mem_cons, List.not_mem_nil, or_false] at htext
      rcases htext with rfl | rfl | rfl | rfl <;> exact (defuse_cases _).1

/-- A record whose message a spreadsheet would evaluate. -/
def formula : String := "\x7b\"event\": \"=1+1\"\x7d"

theorem formula_is_text :
    Csv.read (((Runtime.knowing formula [("event", .str "=1+1")]).exportCsv
      (exportAfter defaultChunk (utf8 formula ++ [newline]) (fun _ => []) 2).yielded)).flatten =
        sheet [csvHeader, ["", "INFO", "", "\t=1+1"]] := by
  obtain ⟨m, -, k, -, hk, -, -, hread, -, -⟩ := downloads_read_back (by decide : 0 < defaultChunk)
    (Runtime.knowing formula [("event", .str "=1+1")]) (utf8 formula ++ [newline]) (fun _ => []) 2
  have hw (m : Nat) : written (fun _ => []) m = [] := by
    induction m with
    | zero => rfl
    | succ m ih => simp [written, ih]
  rw [hread, hk (by decide +kernel), List.take_length, hw, List.append_nil]
  decide +kernel

end BackendTemplates.Logs
