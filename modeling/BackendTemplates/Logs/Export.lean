import BackendTemplates.Logs.LogFile
import BackendTemplates.Python.Utf8
import Mathlib.Data.List.DropRight
import Mathlib.Data.Nat.Find

namespace BackendTemplates.Logs
open Python

/-- The generator of `iter_all_lines` over the file it opened. -/
structure Export where
  content : List UInt8
  pos : Nat
  buf : List UInt8
  yielded : List (List Char)
  ended : Bool

/-- One round of its loop. -/
def Export.read (chunkBytes : Nat) (e : Export) : Export :=
  let chunk := readAt e.content e.pos chunkBytes
  if chunk = [] then { e with ended := true }
  else
    let data := e.buf ++ chunk
    { e with
      pos := e.pos + chunk.length
      buf := rest newline data
      yielded := e.yielded ++ linesOf data }

/-- The generator after some rounds. Before each of them writers append something. -/
def exportAfter (chunkBytes : Nat) (start : List UInt8) (appends : Nat → List UInt8) :
    Nat → Export
  | 0 => ⟨start, 0, [], [], false⟩
  | n + 1 =>
    let e := exportAfter chunkBytes start appends n
    if e.ended then e else { e with content := e.content ++ appends n }.read chunkBytes

/-- What has been appended before a round. -/
def written (appends : Nat → List UInt8) : Nat → List UInt8
  | 0 => []
  | n + 1 => written appends n ++ appends n

/-- The size of the file a round reads from. -/
def sizeAt (start : List UInt8) (appends : Nat → List UInt8) (n : Nat) : Nat :=
  start.length + (written appends (n + 1)).length

/-- The rounds before have read as much as the file holds: chunk by chunk from the start,
or from any earlier round's end of file. -/
def CaughtUp (chunkBytes : Nat) (start : List UInt8) (appends : Nat → List UInt8) (n : Nat) :
    Prop :=
  sizeAt start appends n ≤ n * chunkBytes ∧
    ∀ j < n, sizeAt start appends n ≤ sizeAt start appends j + (n - 1 - j) * chunkBytes

instance (chunkBytes : Nat) (start : List UInt8) (appends : Nat → List UInt8) (n : Nat) :
    Decidable (CaughtUp chunkBytes start appends n) :=
  inferInstanceAs (Decidable (_ ∧ _))

/-- A line whose text has the same bytes: it is UTF-8 and has no carriage return before its
newline. -/
def Verbatim (line : List UInt8) : Prop :=
  decodeStrict line ≠ none ∧ line.getLast? ≠ some 13

instance (line : List UInt8) : Decidable (Verbatim line) := inferInstanceAs (Decidable (_ ∧ _))

/-- What has been yielded, as the bytes of each line. -/
def Export.bytes (e : Export) : List (List UInt8) :=
  e.yielded.map (fun line => utf8 (String.ofList line))

section
variable {chunkBytes : Nat} {start : List UInt8} {appends : Nat → List UInt8}

/-- The generator has yielded the lines of what it has read and holds the rest. -/
structure Export.Exact (e : Export) : Prop where
  pos : e.pos ≤ e.content.length
  buf : e.buf = rest newline (e.content.take e.pos)
  yielded : e.yielded = linesOf (e.content.take e.pos)
  ended : e.ended = true → e.pos = e.content.length

theorem Export.Exact.append {e : Export} (h : e.Exact) (hn : e.ended = false)
    (bytes : List UInt8) : Export.Exact { e with content := e.content ++ bytes } where
  pos := by
    have hp := h.pos
    simp only [List.length_append]
    omega
  buf := by simpa [List.take_append_of_le_length h.pos] using h.buf
  yielded := by simpa [List.take_append_of_le_length h.pos] using h.yielded
  ended he := by simp [hn] at he

theorem readAt_length {content : List UInt8} {pos count : Nat} :
    (readAt content pos count).length = min count (content.length - pos) := by
  simp [readAt]

theorem readAt_eq_nil_iff {content : List UInt8} {pos count : Nat} (hc : 0 < count) :
    readAt content pos count = [] ↔ content.length ≤ pos := by
  rw [← List.length_eq_zero_iff, readAt_length]
  omega

theorem take_readAt (content : List UInt8) (pos count : Nat) :
    content.take (pos + (readAt content pos count).length) =
      content.take pos ++ readAt content pos count := by
  rw [List.take_add, readAt_length]
  congr 1
  rw [readAt, ← List.take_take, List.take_of_length_le (i := content.length - pos) (by simp)]

theorem Export.Exact.read {e : Export} (h : e.Exact) (hc : 0 < chunkBytes) :
    (e.read chunkBytes).Exact := by
  have hp := h.pos
  unfold Export.read
  by_cases hn : readAt e.content e.pos chunkBytes = []
  · simp only [hn, if_true]
    have hend := (readAt_eq_nil_iff hc).mp hn
    exact { h with ended := fun _ => Nat.le_antisymm hp hend }
  · simp only [hn, if_false]
    have hmore : ¬ e.content.length ≤ e.pos := fun hx => hn ((readAt_eq_nil_iff hc).mpr hx)
    have ht := take_readAt e.content e.pos chunkBytes
    have hlen := @readAt_length e.content e.pos chunkBytes
    exact {
      pos := by
        change e.pos + (readAt e.content e.pos chunkBytes).length ≤ e.content.length
        omega
      buf := by
        change rest newline (e.buf ++ _) = rest newline (e.content.take (e.pos + _))
        rw [ht, h.buf, ← rest_append]
      yielded := by
        change e.yielded ++ linesOf (e.buf ++ _) = linesOf (e.content.take (e.pos + _))
        rw [ht, h.buf, h.yielded]
        simp only [linesOf, ← List.map_append, ← complete_append]
      ended := fun he => absurd (h.ended he) (by omega) }

theorem exportAfter_exact (hc : 0 < chunkBytes) (n : Nat) :
    (exportAfter chunkBytes start appends n).Exact := by
  induction n with
  | zero => exact ⟨Nat.zero_le _, rfl, rfl, by simp [exportAfter]⟩
  | succ n ih =>
    simp only [exportAfter]
    by_cases he : (exportAfter chunkBytes start appends n).ended = true
    · simpa [he] using ih
    · rw [if_neg he]
      exact (ih.append (Bool.not_eq_true _ ▸ he) _).read hc

/-- A chunk moves the bound by one chunk, and the end of the file bounds it anew. -/
theorem chunk_bound {size : Nat → Nat} {pos n : Nat}
    (h : ∀ q, q ≤ pos ↔ q ≤ n * chunkBytes ∧ ∀ j < n, q ≤ size j + (n - 1 - j) * chunkBytes)
    (hle : pos ≤ size n) (p : Nat) :
    p ≤ pos + min chunkBytes (size n - pos) ↔
      p ≤ (n + 1) * chunkBytes ∧ ∀ j < n + 1, p ≤ size j + (n - j) * chunkBytes := by
  have hsplit : p ≤ pos + min chunkBytes (size n - pos) ↔ p - chunkBytes ≤ pos ∧ p ≤ size n := by
    omega
  have hstep : ∀ j < n, (p - chunkBytes ≤ size j + (n - 1 - j) * chunkBytes ↔
      p ≤ size j + (n - j) * chunkBytes) := by
    intro j hj
    have he : n - j = n - 1 - j + 1 := by omega
    rw [he, Nat.succ_mul]
    omega
  rw [hsplit, h, Nat.succ_mul, Nat.forall_lt_succ_right, Nat.sub_self, Nat.zero_mul, Nat.add_zero,
    Nat.sub_le_iff_le_add, and_assoc]
  constructor
  · intro hx
    obtain ⟨hn, hall, hp⟩ := hx
    exact ⟨hn, fun j hj => (hstep j hj).mp (hall j hj), hp⟩
  · intro hx
    obtain ⟨hn, hall, hp⟩ := hx
    exact ⟨hn, fun j hj => (hstep j hj).mpr (hall j hj), hp⟩

/-- While the generator runs, each round has read one chunk, or up to the end of file. -/
theorem exportAfter_running (hc : 0 < chunkBytes) {n : Nat}
    (h : (exportAfter chunkBytes start appends n).ended = false) :
    (exportAfter chunkBytes start appends n).content = start ++ written appends n ∧
      ∀ p, p ≤ (exportAfter chunkBytes start appends n).pos ↔ p ≤ n * chunkBytes ∧
        ∀ j < n, p ≤ sizeAt start appends j + (n - 1 - j) * chunkBytes := by
  induction n with
  | zero => simp [exportAfter, written]
  | succ n ih =>
    simp only [exportAfter] at h ⊢
    cases he : (exportAfter chunkBytes start appends n).ended with
    | true => simp [he] at h
    | false =>
      obtain ⟨hcontent, hpos⟩ := ih he
      simp only [he, Bool.false_eq_true, if_false, Export.read] at h ⊢
      split at h
      · simp at h
      · rename_i hn
        rw [if_neg hn]
        have hsize : (start ++ written appends n ++ appends n).length = sizeAt start appends n := by
          simp [sizeAt, written]
        have hle := (@exportAfter_exact chunkBytes start appends hc n).pos
        rw [hcontent] at hle
        rw [hcontent, readAt_length, hsize]
        refine ⟨by simp [written], ?_⟩
        apply chunk_bound hpos
        simp only [sizeAt, written, List.length_append] at hle ⊢
        omega

/-- The running generator ends in the round in which it has caught up with the file. -/
theorem ended_succ_iff (hc : 0 < chunkBytes) {n : Nat}
    (h : (exportAfter chunkBytes start appends n).ended = false) :
    (exportAfter chunkBytes start appends (n + 1)).ended = true ↔
      CaughtUp chunkBytes start appends n := by
  obtain ⟨hcontent, hpos⟩ := exportAfter_running hc h
  have hsize : (start ++ written appends n ++ appends n).length = sizeAt start appends n := by
    simp [sizeAt, written]
  rw [CaughtUp, ← hpos, ← hsize, ← hcontent, ← readAt_eq_nil_iff hc]
  simp only [exportAfter, h, Bool.false_eq_true, if_false, Export.read]
  split
  · rename_i hn
    simp [hn]
  · rename_i hn
    simp [hn]

theorem ended_iff (hc : 0 < chunkBytes) (n : Nat) :
    (exportAfter chunkBytes start appends n).ended = true ↔
      ∃ j < n, CaughtUp chunkBytes start appends j := by
  induction n with
  | zero => simp [exportAfter]
  | succ n ih =>
    cases he : (exportAfter chunkBytes start appends n).ended with
    | true =>
      obtain ⟨j, hj, hcaught⟩ := ih.mp he
      simp only [exportAfter, he, if_true, true_iff]
      exact ⟨j, Nat.lt_succ_of_lt hj, hcaught⟩
    | false =>
      rw [ended_succ_iff hc he]
      have hnone : ∀ j < n, ¬ CaughtUp chunkBytes start appends j := by
        intro j hj hcaught
        rw [ih.mpr ⟨j, hj, hcaught⟩] at he
        cases he
      constructor
      · intro hcaught
        exact ⟨n, Nat.lt_succ_self n, hcaught⟩
      · intro hx
        obtain ⟨j, hj, hcaught⟩ := hx
        obtain rfl : j = n := by
          by_contra hne
          exact hnone j (by omega) hcaught
        exact hcaught

/-- What has been yielded when the generator ends: the lines of the file as the round that
caught up with it found it. -/
theorem ended_yielded (hc : 0 < chunkBytes) {n : Nat}
    (h : (exportAfter chunkBytes start appends n).ended = true) :
    ∃ m < n, CaughtUp chunkBytes start appends m ∧
      (exportAfter chunkBytes start appends n).yielded =
        linesOf (start ++ written appends (m + 1)) := by
  induction n with
  | zero => cases h
  | succ n ih =>
    cases he : (exportAfter chunkBytes start appends n).ended with
    | true =>
      obtain ⟨m, hm, hcaught, hy⟩ := ih he
      refine ⟨m, Nat.lt_succ_of_lt hm, hcaught, ?_⟩
      simpa [exportAfter, he] using hy
    | false =>
      have hcaught := (ended_succ_iff hc he).mp h
      obtain ⟨hcontent, hpos⟩ := exportAfter_running hc he
      have hex := @exportAfter_exact chunkBytes start appends hc (n + 1)
      have hfile : (exportAfter chunkBytes start appends (n + 1)).content =
          start ++ written appends (n + 1) := by
        simp only [exportAfter, he, Bool.false_eq_true, if_false, Export.read]
        split <;> simp [hcontent, written]
      refine ⟨n, Nat.lt_succ_self n, hcaught, ?_⟩
      rw [hex.yielded, hex.ended h, List.take_length, hfile]

theorem written_grows {m n : Nat} (h : m ≤ n) : written appends m <+: written appends n := by
  induction h with
  | refl => exact List.prefix_rfl
  | step _ ih => exact ih.trans (List.prefix_append _ _)

/-- Appended bytes leave the lines as they are exactly when they finish no line. -/
theorem linesOf_append_eq_iff {xs ys : List UInt8} :
    linesOf (xs ++ ys) = linesOf xs ↔ newline ∉ ys := by
  rw [linesOf, complete_append, List.map_append, linesOf, List.append_right_eq_self,
    List.map_eq_nil_iff, ← List.length_eq_zero_iff, complete_length, List.count_eq_zero,
    List.mem_append, not_or]
  exact and_iff_right (sep_not_mem_rest xs)

theorem rstripCr_eq_iff {text : List Char} : rstripCr text = text ↔ text.getLast? ≠ some '\r' := by
  rw [rstripCr, List.reverse_eq_iff, ← List.head?_reverse]
  cases text.reverse with
  | nil => simp
  | cons c cs =>
    by_cases hc : c = '\r'
    · have hshort : (cs.dropWhile (· == '\r')).length ≤ cs.length :=
        (List.dropWhile_sublist _).length_le
      simp only [hc, List.dropWhile_cons, beq_self_eq_true, if_true, List.head?_cons, ne_eq,
        not_true_eq_false, iff_false]
      intro he
      have := congrArg List.length he
      simp only [List.length_cons] at this
      omega
    · simp [hc]

theorem rstripCr_lineText (line : List UInt8) : rstripCr (lineText line) = lineText line := by
  simp only [lineText, rstripCr, List.reverse_reverse, List.dropWhile_idempotent]

theorem lineText_bytes_iff {line : List UInt8} :
    utf8 (String.ofList (lineText line)) = line ↔ Verbatim line := by
  constructor
  · intro h
    have hlast := rstripCr_eq_iff.mp (rstripCr_lineText line)
    have hcr := @utf8_getLast (String.ofList (lineText line)) '\r' 13 (by decide) rfl rfl
    rw [h, String.toList_ofList] at hcr
    refine ⟨?_, fun hx => hlast (hcr.mp hx)⟩
    rw [← h, decodeStrict_utf8]
    exact Option.some_ne_none _
  · intro h
    obtain ⟨hvalid, hlast⟩ := h
    obtain ⟨text, htext⟩ := Option.ne_none_iff_exists'.mp hvalid
    obtain rfl := utf8_of_decodeStrict htext
    have hcr := @utf8_getLast text '\r' 13 (by decide) rfl rfl
    have hkept : lineText (utf8 text) = text.toList := by
      rw [lineText, decodeReplace_utf8, rstripCr_eq_iff]
      exact fun hx => hlast (hcr.mpr hx)
    rw [hkept, String.ofList_toList]

theorem linesOf_bytes_iff {content : List UInt8} :
    (linesOf content).map (fun line => utf8 (String.ofList line)) = complete newline content ↔
      ∀ line ∈ complete newline content, Verbatim line := by
  rw [linesOf, List.map_map]
  constructor
  · intro h line hline
    obtain ⟨i, hi, rfl⟩ := List.getElem_of_mem hline
    have hx := congrArg (·[i]?) h
    rw [List.getElem?_map, List.getElem?_eq_getElem hi, Option.map_some, Option.some.injEq] at hx
    exact lineText_bytes_iff.mp hx
  · intro h
    exact List.map_congr_left (fun line hline => lineText_bytes_iff.mpr (h line hline)) |>.trans
      (List.map_id _)

/-- As many lines as there were at first: no newline was appended. -/
theorem appended_no_newline {bytes : List UInt8}
    (h : (linesOf (start ++ bytes)).map (fun line => utf8 (String.ofList line)) =
      complete newline start) : newline ∉ bytes := by
  have hlength := congrArg List.length h
  simp only [linesOf, List.length_map, complete_length, List.count_append] at hlength
  exact List.count_eq_zero.mp (by omega)

/-- The export ends with exactly the lines of the opened file, byte for byte, if and only if
it catches up with the writers before they have finished a line and the lines are UTF-8
without a carriage return at their end. -/
theorem export_is_snapshot_iff (hc : 0 < chunkBytes) (start : List UInt8)
    (appends : Nat → List UInt8) :
    (∃ n, (exportAfter chunkBytes start appends n).ended = true ∧
      (exportAfter chunkBytes start appends n).bytes = complete newline start) ↔
    (∃ n, CaughtUp chunkBytes start appends n ∧ newline ∉ written appends (n + 1)) ∧
      ∀ line ∈ complete newline start, Verbatim line := by
  constructor
  · intro hx
    obtain ⟨n, he, hy⟩ := hx
    obtain ⟨m, _, hcaught, hm⟩ := ended_yielded hc he
    rw [Export.bytes, hm] at hy
    have hnone := appended_no_newline hy
    rw [linesOf_append_eq_iff.mpr hnone, linesOf_bytes_iff] at hy
    exact ⟨⟨m, hcaught, hnone⟩, hy⟩
  · intro hx
    obtain ⟨⟨n, hcaught, hn⟩, hverbatim⟩ := hx
    have he := (ended_iff hc (n + 1)).mpr ⟨n, Nat.lt_succ_self n, hcaught⟩
    obtain ⟨m, hm, _, hy⟩ := ended_yielded hc he
    have hnone : newline ∉ written appends (m + 1) :=
      fun hmem => hn ((written_grows hm).subset hmem)
    refine ⟨n + 1, he, ?_⟩
    rw [Export.bytes, hy, linesOf_append_eq_iff.mpr hnone]
    exact linesOf_bytes_iff.mpr hverbatim

/-- A file nobody appends to is exported with all its lines. -/
theorem export_untouched (hc : 0 < chunkBytes) (content : List UInt8) :
    ∃ n, (exportAfter chunkBytes content (fun _ => []) n).ended = true ∧
      (exportAfter chunkBytes content (fun _ => []) n).yielded = linesOf content := by
  have hw : ∀ n, written (fun _ => []) n = [] := by
    intro n
    induction n with
    | zero => rfl
    | succ n ih => simp [written, ih]
  have hcaught : CaughtUp chunkBytes content (fun _ => []) content.length := by
    constructor
    · simpa [sizeAt, hw] using Nat.le_mul_of_pos_right content.length hc
    · intro j _
      simp [sizeAt, hw]
  have he := (ended_iff hc (content.length + 1)).mpr ⟨_, Nat.lt_succ_self _, hcaught⟩
  obtain ⟨m, _, _, hy⟩ := ended_yielded hc he
  refine ⟨content.length + 1, he, ?_⟩
  rw [hy, hw, List.append_nil]

end

/-- Half a line is appended while the export reads its first chunk. -/
def halfLine : Nat → List UInt8
  | 1 => [0x62]
  | _ => []

theorem half_line_is_not_exported :
    ∃ n, (exportAfter defaultChunk [0x61, 10] halfLine n).ended = true ∧
      (exportAfter defaultChunk [0x61, 10] halfLine n).bytes = [[0x61]] := by
  have hverbatim : ∀ line ∈ complete newline [0x61, 10], Verbatim line := by
    have hlines : complete newline [0x61, 10] = [utf8 "a"] := by decide
    intro line hline
    rw [hlines, List.mem_singleton] at hline
    subst hline
    exact ⟨by simp [decodeStrict_utf8], by decide⟩
  exact (export_is_snapshot_iff (by decide) [0x61, 10] halfLine).mpr
    ⟨⟨2, by decide, by decide⟩, hverbatim⟩

/-- A whole line is appended there, as by the record of the export request itself. -/
def ownRecord : Nat → List UInt8
  | 1 => [0x62, 10]
  | _ => []

theorem own_record_is_exported : ¬ ∀ chunkBytes, 0 < chunkBytes → ∀ start appends,
    ∃ n, (exportAfter chunkBytes start appends n).ended = true ∧
      (exportAfter chunkBytes start appends n).bytes = complete newline start := by
  intro hall
  obtain ⟨n, he, hy⟩ := hall defaultChunk (by decide) [0x61, 10] ownRecord
  obtain ⟨m, _, hcaught, hm⟩ := ended_yielded (by decide) he
  cases m with
  | zero => exact absurd hcaught (by decide)
  | succ m =>
    rw [Export.bytes, hm] at hy
    have hp := (@written_grows ownRecord 2 (m + 2) (Nat.le_add_left 2 m)).subset
    exact appended_no_newline hy (hp (by decide))

end BackendTemplates.Logs
