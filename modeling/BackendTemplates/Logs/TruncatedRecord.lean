import Mathlib.Data.List.DropRight
import BackendTemplates.Library.JsonGrammar
import BackendTemplates.Logs.LogViewer
import BackendTemplates.Python.Utf8

namespace BackendTemplates.Logs
open Python JsonGrammar

/-- `_TruncatingProcessorFormatter`. -/
structure TruncatingProcessorFormatter where
  max : Nat

/-- `format`, of the text that the base class renders. -/
def TruncatingProcessorFormatter.format (f : TruncatingProcessorFormatter) (rendered : String) :
    String :=
  let encoded := utf8 rendered
  if encoded.length ≤ f.max then rendered
  else String.ofList (decodeIgnore (encoded.take f.max))

section
variable {f : TruncatingProcessorFormatter} {rt : Runtime} {rendered : String}

/-- The text is a prefix of the rendering, within the budget. -/
theorem format_start (f : TruncatingProcessorFormatter) (rendered : String) :
    (f.format rendered).toList <+: rendered.toList ∧ (utf8 (f.format rendered)).length ≤ f.max := by
  simp only [TruncatingProcessorFormatter.format]
  split
  · rename_i hfits
    exact ⟨List.prefix_rfl, hfits⟩
  · have hcut := decodeIgnore_take rendered.toList f.max
    rw [← utf8_eq] at hcut
    rw [utf8_eq (String.ofList _), String.toList_ofList]
    exact hcut

theorem rstripCr_start (text : List Char) : rstripCr text <+: text :=
  List.rdropWhile_prefix (· == '\r') text

theorem parse_rstripCr (line : List Char) : rt.parse (rstripCr line) = rt.parse line := by
  have hidem : rstripCr (rstripCr line) = rstripCr line := by
    simp only [rstripCr, List.reverse_reverse, List.dropWhile_idempotent]
  simp only [Runtime.parse, hidem]

/-- A line that is a proper prefix of an object's text is malformed. -/
theorem parse_cut (grammar : ∀ text, rt.loads text ≠ none → Text text.toList)
    {cs line : List Char} (object : ObjectText cs) (hp : line <+: cs) (hne : line ≠ cs) :
    rt.parse line = none := by
  have hstripped : rstripCr line ≠ cs := by
    intro he
    have hlong := (rstripCr_start line).length_le
    rw [he] at hlong
    exact hne (hp.eq_of_length (Nat.le_antisymm hp.length_le hlong))
  have hloads : rt.loads (String.ofList (rstripCr line)) = none := by
    by_contra hx
    have htext := grammar _ hx
    rw [String.toList_ofList] at htext
    exact object.not_text ((rstripCr_start line).trans hp) hstripped htext
  simp only [Runtime.parse, hloads]
  split
  · rfl
  · rfl

/-- What the reader makes of one line of a file. -/
theorem linesOf_line {text : String} (h : '\n' ∉ text.toList) :
    linesOf (utf8 text ++ [newline]) = [rstripCr text.toList] := by
  have hno : newline ∉ utf8 text := newline_not_mem_utf8 h
  have hcomplete : complete newline (utf8 text ++ [newline]) = [utf8 text] := by
    rw [complete, pieces_snoc hno]
  rw [linesOf, hcomplete, List.map_singleton, lineText, decodeReplace_utf8]

end

/-- A record that is cut off is a line of its own, and the reader skips it. -/
theorem truncated_record_skipped (f : TruncatingProcessorFormatter) {rt : Runtime}
    (grammar : ∀ text, rt.loads text ≠ none → Text text.toList) {rendered : String}
    (object : ObjectText rendered.toList) (oneLine : '\n' ∉ rendered.toList) :
    (f.format rendered).toList <+: rendered.toList ∧
      decodeStrict (utf8 (f.format rendered)) = some (f.format rendered) ∧
      (utf8 (f.format rendered)).length ≤ f.max ∧ '\n' ∉ (f.format rendered).toList ∧
      (f.format rendered ≠ rendered → rt.parse (f.format rendered).toList = none ∧
        rt.map (linesOf (utf8 (f.format rendered) ++ [newline])) = []) := by
  obtain ⟨hstart, hbytes⟩ := format_start f rendered
  have hline : '\n' ∉ (f.format rendered).toList := fun hx => oneLine (hstart.subset hx)
  refine ⟨hstart, decodeStrict_utf8 _, hbytes, hline, ?_⟩
  intro hcut
  have hmalformed : rt.parse (f.format rendered).toList = none := by
    apply parse_cut grammar object hstart
    intro he
    exact hcut (String.toList_inj.mp he)
  refine ⟨hmalformed, ?_⟩
  rw [Runtime.map, linesOf_line hline]
  simp [parse_rstripCr, hmalformed]

/-- A record with a character that a budget of twelve bytes cuts in two. -/
def accented : String := "\x7b\"event\": \"é\"\x7d"

theorem accented_object : ObjectText accented.toList := by
  let member : Member := ⟨⟨[], "\"event\"".toList, []⟩, ⟨[' '], "\"é\"".toList, []⟩⟩
  have hkey : Str "\"event\"".toList := str_plain "event".toList (by simp)
  have hvalue : Str "\"é\"".toList := str_plain "é".toList (by simp)
  have hobject : Value ('{' :: [','].intercalate ([member].map Member.chars) ++ ['}']) := by
    apply Value.object
    · simp
    · simp [member, Spaced.Ok, Ws, isWs]
    · simpa [member] using hkey
    · simpa [member] using .string hvalue
  exact ⟨hobject, rfl⟩

/-- Reading `accented` and no other text. -/
def accentedRuntime : Runtime := Runtime.knowing accented [("event", .str "é")]

theorem cut_record_skipped :
    TruncatingProcessorFormatter.format ⟨12⟩ accented = "\x7b\"event\": \"" ∧
      accentedRuntime.parse "\x7b\"event\": \"".toList = none := by
  have hcut : TruncatingProcessorFormatter.format ⟨12⟩ accented = "\x7b\"event\": \"" := by
    decide +kernel
  have grammar (text : String) (h : accentedRuntime.loads text ≠ none) : Text text.toList := by
    by_cases he : text = accented
    · subst he
      exact ⟨⟨[], accented.toList, []⟩, by simp [Spaced.Ok, Ws], accented_object.1,
        by simp [Spaced.chars]⟩
    · exact absurd (if_neg he) h
  have hskip := truncated_record_skipped ⟨12⟩ grammar accented_object (by decide)
  rw [hcut] at hskip
  exact ⟨hcut, (hskip.2.2.2.2 (by decide)).1⟩

end BackendTemplates.Logs
