import BackendTemplates.Logs.BackScroll
import BackendTemplates.Logs.LogViewer

namespace BackendTemplates.Logs.Runtime
open Python

/-- The rows a client receives from a cursor on, in the order of the file: it follows the
cursors of `load_older_logs` until a page is empty. -/
def followOlder (rt : Runtime) (chunkBytes loadMoreLines : Nat) (file : LogFile) :
    Nat → Cursor → Option (Except Failure (List LogEntrySchema))
  | 0, _ => none
  | fuel + 1, cursor =>
    match rt.loadOlderLogs chunkBytes cursor loadMoreLines file with
    | none => none
    | some (.error e) => some (.error e)
    | some (.ok ([], _)) => some (.ok [])
    | some (.ok (row :: rows, next)) =>
      (followOlder rt chunkBytes loadMoreLines file fuel next).map
        (fun older => older.map (· ++ row :: rows))

/-- The tail page and the pages before it. -/
def readHistory (rt : Runtime) (chunkBytes tailLines loadMoreLines : Nat) (file : LogFile)
    (fuel : Nat) : Option (Except Failure (List LogEntrySchema)) :=
  match rt.renderLogPage chunkBytes tailLines file with
  | none => none
  | some (.error e) => some (.error e)
  | some (.ok (rows, cursor)) =>
    (rt.followOlder chunkBytes loadMoreLines file fuel cursor).map
      (fun older => older.map (· ++ rows))

def Malformed (rt : Runtime) (lines : List (List Char)) : Prop :=
  ∀ line ∈ lines, rt.parse line = none

/-- The pages behind the first lines of a file, each of some lines: one without a parseable
line has none before it either. -/
def Clear (rt : Runtime) (loadMoreLines : Nat) (lines : List (List Char)) (k : Nat) : Prop :=
  ∀ j, rt.Malformed ((lines.take (k - j * loadMoreLines)).drop
      (k - j * loadMoreLines - loadMoreLines)) →
    rt.Malformed (lines.take (k - j * loadMoreLines))

section
variable {rt : Runtime}

theorem Rows.unique {lines : List (List Char)} {rows rows' : List LogEntrySchema}
    (h : Rows rt lines rows) (h' : Rows rt lines rows') : rows = rows' := by
  have he := mapM_map_iff.mpr h
  rw [mapM_map_iff.mpr h'] at he
  exact (Except.ok.inj he).symm

theorem Rows.append {xs ys : List (List Char)} {rs ss : List LogEntrySchema}
    (h : Rows rt xs rs) (h' : Rows rt ys ss) : Rows rt (xs ++ ys) (rs ++ ss) := by
  induction h with
  | nil => exact h'
  | skipped malformed next ih => exact .skipped malformed ih
  | shown parsed valid next ih => exact .shown parsed valid ih

theorem Rows.split {xs ys : List (List Char)} {rows : List LogEntrySchema}
    (h : Rows rt (xs ++ ys) rows) :
    ∃ rs ss, rows = rs ++ ss ∧ Rows rt xs rs ∧ Rows rt ys ss := by
  induction xs generalizing rows with
  | nil => exact ⟨[], rows, rfl, .nil, h⟩
  | cons x xs ih =>
    cases h with
    | skipped malformed next =>
      obtain ⟨rs, ss, rfl, hr, hs⟩ := ih next
      exact ⟨rs, ss, rfl, .skipped malformed hr, hs⟩
    | shown parsed valid next =>
      obtain ⟨rs, ss, rfl, hr, hs⟩ := ih next
      exact ⟨_ :: rs, ss, rfl, .shown parsed valid hr, hs⟩

/-- Lines without rows are those that are all malformed. -/
theorem rows_nil_iff {lines : List (List Char)} : Rows rt lines [] ↔ rt.Malformed lines := by
  induction lines with
  | nil => exact ⟨fun _ => by simp [Malformed], fun _ => .nil⟩
  | cons line lines ih =>
    constructor
    · intro h
      cases h with
      | skipped malformed next => exact List.forall_mem_cons.mpr ⟨malformed, ih.mp next⟩
    · intro h
      obtain ⟨hline, hlines⟩ := List.forall_mem_cons.mp h
      exact .skipped hline (ih.mpr hlines)

theorem take_split {α : Type*} (lines : List α) (k m : Nat) :
    lines.take k = lines.take (k - m) ++ (lines.take k).drop (k - m) := by
  have hmin : min (k - m) k = k - m := Nat.min_eq_left (Nat.sub_le _ _)
  conv_lhs => rw [← List.take_append_drop (k - m) (lines.take k), List.take_take, hmin]

variable {chunkBytes loadMoreLines tailLines : Nat} {file : LogFile}

/-- The older page before the k-th line. -/
theorem loadOlderLogs_before (hc : 0 < chunkBytes) (hm : 0 < loadMoreLines) {k : Nat}
    (hk : k ≤ (linesOf file.content).length) :
    rt.loadOlderLogs chunkBytes ⟨file.inode, Scroll.boundary file.content k⟩ loadMoreLines file =
      some (rt.toPage (rt.map (((linesOf file.content).take k).drop (k - loadMoreLines)),
        ⟨file.inode, Scroll.boundary file.content (k - loadMoreLines)⟩)) := by
  have hlen : k ≤ (complete newline file.content).length := by simpa [linesOf] using hk
  have hpieces := @Scroll.pieces_take_boundary file.content k
  have hread := readLinesBefore_eq hc hm (@Scroll.boundary_le file.content k)
    (by rw [rest, hpieces])
  rw [complete, hpieces, Scroll.keepLast_take hm hlen] at hread
  have hsame : ¬ file.inode ≠ file.inode := fun h => h rfl
  rw [loadOlderLogs, readBefore, if_neg hsame, hread]
  simp only [Scroll.pageBefore, linesOf, Option.map_some, List.map_take, List.map_drop]

theorem renderLogPage_tail (hc : 0 < chunkBytes) (ht : 0 < tailLines) :
    rt.renderLogPage chunkBytes tailLines file = some (rt.toPage
      (rt.map ((linesOf file.content).drop ((linesOf file.content).length - tailLines)),
        ⟨file.inode, Scroll.boundary file.content
          ((linesOf file.content).length - tailLines)⟩)) := by
  have hk := Scroll.keepLast_take ht (Nat.le_refl (complete newline file.content).length)
  rw [List.take_length] at hk
  rw [renderLogPage, readTail, readLastLines_eq hc ht, hk]
  simp only [Scroll.pageBefore, linesOf, Option.map_some, List.map_drop, List.length_map,
    List.take_length]

theorem toPage_ok_iff {lines : List (List Char)} {cursor next : Cursor}
    {rows : List LogEntrySchema} :
    rt.toPage (rt.map lines, cursor) = .ok (rows, next) ↔ Rows rt lines rows ∧ next = cursor := by
  rw [← mapM_map_iff, toPage]
  cases (rt.map lines).mapM rt.toEntrySchema with
  | error e => simp [Except.map]
  | ok rs => simp [Except.map, eq_comm]

/-- What one step of the client does before the k-th line: it stops at a page without rows,
and goes on before the page otherwise. -/
theorem followOlder_step (hc : 0 < chunkBytes) (hm : 0 < loadMoreLines) {k fuel : Nat}
    (hk : k ≤ (linesOf file.content).length) {page rows : List LogEntrySchema}
    (hpage : Rows rt (((linesOf file.content).take k).drop (k - loadMoreLines)) page) :
    rt.followOlder chunkBytes loadMoreLines file (fuel + 1)
        ⟨file.inode, Scroll.boundary file.content k⟩ = some (.ok rows) ↔
      (page = [] ∧ rows = []) ∨ (page ≠ [] ∧ ∃ older, rows = older ++ page ∧
        rt.followOlder chunkBytes loadMoreLines file fuel
          ⟨file.inode, Scroll.boundary file.content (k - loadMoreLines)⟩ = some (.ok older)) := by
  rw [followOlder, loadOlderLogs_before hc hm hk, toPage_ok_iff.mpr ⟨hpage, rfl⟩]
  cases page with
  | nil => simp [eq_comm]
  | cons row page =>
    simp only [reduceCtorEq, false_and, false_or, ne_eq, not_false_eq_true, true_and]
    constructor
    · intro h
      obtain ⟨older, hfollow, holder⟩ := Option.map_eq_some_iff.mp h
      cases older with
      | error e => cases holder
      | ok older => exact ⟨older, (Except.ok.inj holder).symm, hfollow⟩
    · intro h
      obtain ⟨older, rfl, hfollow⟩ := h
      rw [hfollow]
      rfl

theorem clear_step {lines : List (List Char)} {k : Nat} :
    Clear rt loadMoreLines lines k ↔
      (rt.Malformed ((lines.take k).drop (k - loadMoreLines)) → rt.Malformed (lines.take k)) ∧
        Clear rt loadMoreLines lines (k - loadMoreLines) := by
  have hnext : ∀ j, k - (j + 1) * loadMoreLines = k - loadMoreLines - j * loadMoreLines := by
    intro j
    rw [Nat.succ_mul, Nat.add_comm, Nat.sub_sub]
  constructor
  · intro h
    constructor
    · have hfirst := h 0
      rwa [Nat.zero_mul, Nat.sub_zero] at hfirst
    · intro j
      rw [← hnext]
      exact h (j + 1)
  · intro h j
    cases j with
    | zero =>
      rw [Nat.zero_mul, Nat.sub_zero]
      exact h.1
    | succ j =>
      rw [hnext]
      exact h.2 j

theorem Malformed.take {lines : List (List Char)} {k k' : Nat} (h : rt.Malformed (lines.take k))
    (hk : k' ≤ k) : rt.Malformed (lines.take k') :=
  fun line hline => h line (List.take_subset_take_left lines hk hline)

theorem Malformed.clear {lines : List (List Char)} {k : Nat} (h : rt.Malformed (lines.take k)) :
    Clear rt loadMoreLines lines k :=
  fun _ _ => h.take (Nat.sub_le _ _)

/-- The client gets all the rows before the k-th line exactly when no page is cut out of
malformed lines with a parseable one before them. -/
theorem followOlder_iff (hc : 0 < chunkBytes) (hm : 0 < loadMoreLines) {k fuel : Nat}
    (hk : k ≤ (linesOf file.content).length) (hfuel : k < fuel)
    {rows : List LogEntrySchema} (hrows : Rows rt ((linesOf file.content).take k) rows) :
    rt.followOlder chunkBytes loadMoreLines file fuel
        ⟨file.inode, Scroll.boundary file.content k⟩ = some (.ok rows) ↔
      Clear rt loadMoreLines (linesOf file.content) k := by
  induction fuel generalizing k rows with
  | zero => omega
  | succ fuel ih =>
    have hsplit := hrows
    rw [take_split _ k loadMoreLines] at hsplit
    obtain ⟨older, page, rfl, holder, hpage⟩ := hsplit.split
    rw [followOlder_step hc hm hk hpage, clear_step, ← rows_nil_iff, ← rows_nil_iff]
    cases page with
    | nil =>
      simp only [List.append_nil, ne_eq, not_true_eq_false, false_and, or_false, true_and]
      constructor
      · intro h
        subst h
        rw [List.append_nil] at hrows
        have hall := rows_nil_iff.mp hrows
        exact ⟨fun _ => hrows, (hall.take (Nat.sub_le _ _)).clear⟩
      · intro h
        have hnone := (h.1 hpage).unique hrows
        simpa using hnone.symm
    | cons row page =>
      -- a page with a row is not cut out of malformed lines, and it has moved the cursor
      have hshown : ¬ Rows rt (((linesOf file.content).take k).drop (k - loadMoreLines)) [] := by
        intro hnone
        cases hnone.unique hpage
      have hpos : 0 < k := by
        apply Nat.pos_of_ne_zero
        rintro rfl
        exact hshown (by simpa using Rows.nil)
      have hsame : ∀ older', older ++ row :: page = older' ++ row :: page ↔ older = older' :=
        fun _ => List.append_left_inj _
      simp only [reduceCtorEq, false_and, false_or, ne_eq, not_false_eq_true, true_and, hsame,
        exists_eq_left', hshown, false_implies]
      exact ih (by omega) (by omega) holder

/-- A client that has come to its end needs no more fuel. -/
theorem followOlder_mono {fuel fuel' : Nat} (h : fuel ≤ fuel') {cursor : Cursor}
    {r : Except Failure (List LogEntrySchema)}
    (hr : rt.followOlder chunkBytes loadMoreLines file fuel cursor = some r) :
    rt.followOlder chunkBytes loadMoreLines file fuel' cursor = some r := by
  induction fuel generalizing fuel' cursor r with
  | zero => cases hr
  | succ fuel ih =>
    obtain ⟨fuel', rfl⟩ : ∃ n, fuel' = n + 1 := ⟨fuel' - 1, by omega⟩
    rw [followOlder] at hr ⊢
    split at hr
    · cases hr
    · exact hr
    · exact hr
    · obtain ⟨older, hfollow, rfl⟩ := Option.map_eq_some_iff.mp hr
      rw [ih (Nat.le_of_succ_le_succ h) hfollow]
      rfl

/-- The client has the tail and the rows of the pages before it. -/
theorem readHistory_iff (hc : 0 < chunkBytes) (ht : 0 < tailLines) {fuel : Nat}
    {older tail : List LogEntrySchema}
    (htail : Rows rt ((linesOf file.content).drop ((linesOf file.content).length - tailLines))
      tail) :
    rt.readHistory chunkBytes tailLines loadMoreLines file fuel = some (.ok (older ++ tail)) ↔
      rt.followOlder chunkBytes loadMoreLines file fuel ⟨file.inode, Scroll.boundary file.content
        ((linesOf file.content).length - tailLines)⟩ = some (.ok older) := by
  rw [readHistory, renderLogPage_tail hc ht, toPage_ok_iff.mpr ⟨htail, rfl⟩]
  simp only
  constructor
  · intro h
    obtain ⟨older', hfollow, he⟩ := Option.map_eq_some_iff.mp h
    cases older' with
    | error e => cases he
    | ok older' =>
      obtain rfl := List.append_cancel_right (Except.ok.inj he)
      exact hfollow
  · intro h
    rw [h]
    rfl

/-- The rows of the file, where it has them, are what some fuel reads exactly when the pages
are clear. -/
theorem readHistory_clear_iff (hc : 0 < chunkBytes) (ht : 0 < tailLines) (hm : 0 < loadMoreLines)
    {rows : List LogEntrySchema} (hrows : Rows rt (linesOf file.content) rows) :
    (∃ fuel, rt.readHistory chunkBytes tailLines loadMoreLines file fuel = some (.ok rows)) ↔
      Clear rt loadMoreLines (linesOf file.content)
        ((linesOf file.content).length - tailLines) := by
  have hsplit := hrows
  rw [← List.take_append_drop ((linesOf file.content).length - tailLines)
    (linesOf file.content)] at hsplit
  obtain ⟨older, tail, rfl, holder, htail⟩ := hsplit.split
  have hle := Nat.sub_le (linesOf file.content).length tailLines
  simp only [readHistory_iff hc ht htail]
  constructor
  · intro h
    obtain ⟨fuel, hfollow⟩ := h
    apply (followOlder_iff hc hm hle (Nat.le_max_right fuel _) holder).mp
    exact followOlder_mono (Nat.le_max_left fuel _) hfollow
  · intro hclear
    exact ⟨_, (followOlder_iff hc hm hle (Nat.lt_succ_self _) holder).mpr hclear⟩

/-- The client gets each parseable line of the file once and in order, exactly when every
line can be displayed and no page behind the tail is cut out of malformed lines with a
parseable one before them. -/
theorem history_complete_iff (rt : Runtime) (hc : 0 < chunkBytes) (ht : 0 < tailLines)
    (hm : 0 < loadMoreLines) (file : LogFile) :
    (∃ fuel rows, rt.readHistory chunkBytes tailLines loadMoreLines file fuel = some (.ok rows) ∧
      Rows rt (linesOf file.content) rows) ↔
      (∀ line ∈ linesOf file.content, rt.Displayable line) ∧
        Clear rt loadMoreLines (linesOf file.content)
          ((linesOf file.content).length - tailLines) := by
  rw [← rows_iff]
  constructor
  · intro h
    obtain ⟨fuel, rows, hread, hrows⟩ := h
    exact ⟨⟨rows, hrows⟩, (readHistory_clear_iff hc ht hm hrows).mp ⟨fuel, hread⟩⟩
  · intro h
    obtain ⟨⟨rows, hrows⟩, hclear⟩ := h
    obtain ⟨fuel, hread⟩ := (readHistory_clear_iff hc ht hm hrows).mpr hclear
    exact ⟨fuel, rows, hread, hrows⟩

end

/-- A torn line between two records. -/
def tornFile : LogFile := ⟨7, utf8 (linenoFive ++ "\nx\n" ++ linenoFive ++ "\n")⟩

def tornRuntime : Runtime := knowing linenoFive [("lineno", five)]

theorem torn_line_on_a_page : ∃ fuel rows,
    tornRuntime.readHistory defaultChunk 1 2 tornFile fuel = some (.ok rows) ∧
      Rows tornRuntime (linesOf tornFile.content) rows := by
  apply (history_complete_iff tornRuntime (by decide) (by decide) (by decide) tornFile).mpr
  have hlen : (linesOf tornFile.content).length = 3 := by decide +kernel
  constructor
  · exact fun line _ => knowing_displayable
  · rw [hlen, clear_step]
    refine ⟨fun h => h, Malformed.clear ?_⟩
    simp [Malformed]

theorem torn_line_ends_the_history : ¬ ∀ rt chunkBytes tailLines loadMoreLines file,
    0 < chunkBytes → 0 < tailLines → 0 < loadMoreLines →
    ∃ fuel rows, readHistory rt chunkBytes tailLines loadMoreLines file fuel = some (.ok rows) ∧
      Rows rt (linesOf file.content) rows := by
  intro hall
  obtain ⟨fuel, rows, hread, hrows⟩ := hall tornRuntime defaultChunk 1 1 tornFile (by decide)
    (by decide) (by decide)
  have hclear := (readHistory_clear_iff (by decide) (by decide) (by decide) hrows).mp ⟨fuel, hread⟩
  have hlines : linesOf tornFile.content =
      [linenoFive.toList, ['x'], linenoFive.toList] := by decide +kernel
  rw [hlines] at hclear
  have hpage := hclear 0
  simp only [Malformed] at hpage
  have hfirst := hpage (by decide +kernel) linenoFive.toList (by decide)
  exact absurd hfirst (by decide +kernel)

end BackendTemplates.Logs.Runtime
