import BackendTemplates.Logs.BackScroll
import BackendTemplates.Logs.LogViewer

namespace BackendTemplates.Logs.Rotation
open Runs Scroll Logs.Runtime

/-- A cursor that was returned, the incarnation of the file it was read from, and what that
held. -/
structure Issued where
  cursor : Cursor
  incarnation : Nat
  content : List UInt8

/-- What `read_before` returned for a cursor. -/
structure Answer where
  issued : Issued
  limit : Nat
  entries : List LogEntryVO
  cursor : Cursor

/-- A request between its two looks at the path: `read_tail`, or `read_before` for a cursor
that has passed the comparison, with the inode it found. -/
structure Waiting where
  cursor : Option Issued
  limit : Nat
  inode : Nat

/-- The file at the path, which is missing between a rename and the recreation, how often
it has been begun anew, the requests under way, the cursors returned, and the answers given
to them. -/
structure LogPath where
  live : Option LogFile
  incarnation : Nat
  waiting : List Waiting
  issued : List Issued
  answers : List Answer

inductive Act where
  | append (bytes : List UInt8)
  | rename
  | create (inode : Nat)
  | truncate
  | statTail (limit : Nat)
  | statBefore (n limit : Nat)
  | read (n : Nat)

/-- What a request reads when it opens the path, under the inode it has found before. -/
def Waiting.sees (w : Waiting) (live : Option LogFile) : LogFile :=
  ⟨w.inode, (live.map LogFile.content).getD []⟩

/-- A request opens the path and reads. A missing file raises `LogReadError`, except that
nothing is read before the start of a file. -/
def answer (rt : Runtime) (chunkBytes : Nat) (s : LogPath) (w : Waiting) : Option LogPath :=
  match w.cursor with
  | none =>
    if s.live = none then some s
    else (rt.readTail chunkBytes w.limit (w.sees s.live)).map fun r =>
      { s with issued := ⟨r.2, s.incarnation, (w.sees s.live).content⟩ :: s.issued }
  | some i =>
    if s.live = none ∧ 0 < i.cursor.offset then some s
    else (rt.readBefore chunkBytes i.cursor w.limit (w.sees s.live)).map fun r =>
      { s with
        answers := ⟨i, w.limit, r.1, r.2⟩ :: s.answers
        issued := ⟨r.2, s.incarnation, (w.sees s.live).content⟩ :: s.issued }

/-- A `stat` of a missing file raises `LogReadError` and changes nothing. -/
def step (rt : Runtime) (chunkBytes : Nat) (s : LogPath) : Act → Option LogPath
  | .append bytes => s.live.map fun file => { s with live := some (file.append bytes) }
  | .rename => s.live.map fun _ => { s with live := none }
  | .create inode =>
    match s.live with
    | none => some { s with live := some ⟨inode, []⟩, incarnation := s.incarnation + 1 }
    | some _ => none
  | .truncate => s.live.map fun file =>
      { s with live := some ⟨file.inode, []⟩, incarnation := s.incarnation + 1 }
  | .statTail limit =>
    match s.live with
    | none => some s
    | some file => some { s with waiting := ⟨none, limit, file.inode⟩ :: s.waiting }
  | .statBefore n limit =>
    match s.issued[n]?, s.live with
    | none, _ => none
    | some _, none => some s
    | some i, some file =>
      if i.cursor.inode ≠ file.inode then
        some { s with answers := ⟨i, limit, [], i.cursor⟩ :: s.answers }
      else some { s with waiting := ⟨some i, limit, file.inode⟩ :: s.waiting }
  | .read n =>
    match s.waiting[n]? with
    | none => none
    | some w => answer rt chunkBytes { s with waiting := s.waiting.eraseIdx n } w

def machine (rt : Runtime) (chunkBytes : Nat) (file : LogFile) : Machine LogPath Act where
  start := ⟨some file, 0, [], [], []⟩
  step := step rt chunkBytes

def AsksForLines (_ : LogPath) : Act → Prop
  | .statTail limit => 0 < limit
  | .statBefore _ limit => 0 < limit
  | _ => True

instance (s : LogPath) (a : Act) : Decidable (AsksForLines s a) := by
  unfold AsksForLines
  split <;> infer_instance

/-- When a request whose cursor has passed the comparison opens the path, the file there is
still the one the cursor was read from, unless nothing stands before the cursor. -/
def NotReplaced (s : LogPath) : Act → Prop
  | .read n =>
    match s.waiting[n]?.bind Waiting.cursor, s.live with
    | some i, some _ => i.incarnation = s.incarnation ∨ i.cursor.offset = 0
    | _, _ => True
  | _ => True

instance (s : LogPath) (a : Act) : Decidable (NotReplaced s a) := by
  unfold NotReplaced
  split
  · split <;> infer_instance
  · infer_instance

/-- The lines before a cursor in the incarnation it was read from. -/
def Issued.before (i : Issued) : List (List Char) :=
  linesOf (i.content.take i.cursor.offset.toNat)

/-- The answer has the last lines before the cursor, or it is the sentinel. -/
def Faithful (rt : Runtime) (a : Answer) : Prop :=
  a.entries = rt.map (newest a.limit a.issued.before) ∨
    a.entries = [] ∧ a.cursor = a.issued.cursor

section
variable {rt : Runtime} {chunkBytes : Nat} {s : LogPath}

/-- A page begins at a line. -/
theorem atLine_boundary {content : List UInt8} {offset : Nat} (h : AtLine content offset)
    (k : Nat) : AtLine content (boundary (content.take offset) k) := by
  obtain ⟨hle, _⟩ := h
  have hb := @boundary_le (content.take offset) k
  rw [List.length_take_of_le hle] at hb
  have htake : content.take (boundary (content.take offset) k) =
      (content.take offset).take (boundary (content.take offset) k) := by
    rw [List.take_take, Nat.min_eq_left hb]
  refine ⟨Nat.le_trans hb hle, ?_⟩
  rw [htake]
  exact congrArg Prod.snd (pieces_take_boundary k)

theorem keepLast_offset {limit : Nat} (hl : 0 < limit) (text : List UInt8) :
    (keepLast limit (complete newline text) 0).2 =
      boundary text ((complete newline text).length - limit) := by
  rw [keepLast_eq hl, boundary, Nat.zero_add]

theorem readTail_eq (hc : 0 < chunkBytes) {limit : Nat} (hl : 0 < limit) (file : LogFile) :
    ∃ entries k, rt.readTail chunkBytes limit file =
      some (entries, ⟨file.inode, boundary file.content k⟩) := by
  rw [readTail, readLastLines_eq hc hl, keepLast_offset hl]
  exact ⟨_, _, rfl⟩

/-- The page before a line of the file a cursor belongs to. -/
theorem readBefore_eq (hc : 0 < chunkBytes) {limit offset : Nat} (hl : 0 < limit)
    {file : LogFile} (ho : AtLine file.content offset) :
    ∃ k, rt.readBefore chunkBytes ⟨file.inode, offset⟩ limit file =
      some (rt.map (newest limit (linesOf (file.content.take offset))),
        ⟨file.inode, boundary (file.content.take offset) k⟩) := by
  have hsame : ¬ file.inode ≠ file.inode := fun h => h rfl
  rw [readBefore, if_neg hsame, readLinesBefore_eq hc hl ho.1 ho.2, Option.map_some,
    keepLast_lines hl, keepLast_offset hl]
  exact ⟨_, rfl⟩

/-- Nothing stands before the start of any file. -/
theorem readBefore_start (limit : Nat) (file : LogFile) :
    rt.readBefore chunkBytes ⟨file.inode, (0 : Nat)⟩ limit file =
      some ([], ⟨file.inode, (0 : Nat)⟩) := by
  simp [Runtime.readBefore, readLinesBefore, Runtime.map]

/-- A line of the file stands at a cursor, and what the file held when it was issued is
still there. -/
structure Valid (live : Option LogFile) (incarnation : Nat) (i : Issued) : Prop where
  line : ∃ offset : Nat, i.cursor.offset = offset ∧ AtLine i.content offset
  earlier : i.incarnation ≤ incarnation
  kept : i.incarnation = incarnation → ∀ file, live = some file → i.content <+: file.content

/-- The cursor that is asked about was returned, and has the inode that was found. -/
structure UnderWay (issued : List Issued) (w : Waiting) : Prop where
  limit : 0 < w.limit
  asked : ∀ i, w.cursor = some i → i ∈ issued ∧ i.cursor.inode = w.inode

structure Consistent (rt : Runtime) (s : LogPath) : Prop where
  valid : ∀ i ∈ s.issued, Valid s.live s.incarnation i
  waiting : ∀ w ∈ s.waiting, UnderWay s.issued w
  faithful : ∀ a ∈ s.answers, Faithful rt a

theorem atLine_zero (content : List UInt8) : AtLine content 0 :=
  ⟨Nat.zero_le _, by simp [rest, pieces]⟩

theorem atLine_grown {content more : List UInt8} {offset : Nat} (h : AtLine content offset)
    (hp : content <+: more) : AtLine more offset ∧ more.take offset = content.take offset := by
  obtain ⟨added, rfl⟩ := hp
  have htake : (content ++ added).take offset = content.take offset :=
    List.take_append_of_le_length h.1
  refine ⟨⟨Nat.le_trans h.1 (by simp), ?_⟩, htake⟩
  rw [htake]
  exact h.2

theorem Consistent.append (h : Consistent rt s) {file : LogFile} (hf : s.live = some file)
    (bytes : List UInt8) : Consistent rt { s with live := some (file.append bytes) } where
  valid i hi := by
    obtain ⟨line, earlier, kept⟩ := h.valid i hi
    refine ⟨line, earlier, ?_⟩
    intro he grown hg
    cases hg
    exact (kept he file hf).trans (List.prefix_append _ _)
  waiting := h.waiting
  faithful := h.faithful

theorem Consistent.renamed (h : Consistent rt s) : Consistent rt { s with live := none } where
  valid i hi := by
    obtain ⟨line, earlier, _⟩ := h.valid i hi
    exact ⟨line, earlier, fun _ _ hf => by cases hf⟩
  waiting := h.waiting
  faithful := h.faithful

/-- With a new incarnation no cursor belongs to the file any more. -/
theorem Consistent.replaced (h : Consistent rt s) (file : LogFile) :
    Consistent rt { s with live := some file, incarnation := s.incarnation + 1 } where
  valid i hi := by
    obtain ⟨line, earlier, _⟩ := h.valid i hi
    refine ⟨line, Nat.le_succ_of_le earlier, ?_⟩
    intro he
    exact absurd (he ▸ earlier) (Nat.not_succ_le_self _)
  waiting := h.waiting
  faithful := h.faithful

/-- The cursor a request returns belongs to what it has read. -/
theorem Consistent.issue (h : Consistent rt s) (w : Waiting) {offset : Nat}
    (ho : AtLine (w.sees s.live).content offset) :
    Consistent rt { s with
      issued := ⟨⟨w.inode, offset⟩, s.incarnation, (w.sees s.live).content⟩ :: s.issued } where
  valid := by
    refine List.forall_mem_cons.mpr ⟨⟨⟨offset, rfl, ho⟩, Nat.le_refl _, ?_⟩, h.valid⟩
    intro _ file hf
    have hlive : s.live = some file := hf
    simp [Waiting.sees, hlive]
  waiting v hv := by
    obtain ⟨limit, asked⟩ := h.waiting v hv
    exact ⟨limit, fun i hi => ⟨List.mem_cons_of_mem _ (asked i hi).1, (asked i hi).2⟩⟩
  faithful := h.faithful

theorem Consistent.answer (h : Consistent rt s) {a : Answer} (ha : Faithful rt a) :
    Consistent rt { s with answers := a :: s.answers } where
  valid := h.valid
  waiting := h.waiting
  faithful := List.forall_mem_cons.mpr ⟨ha, h.faithful⟩

theorem Consistent.wait (h : Consistent rt s) {w : Waiting} (hw : UnderWay s.issued w) :
    Consistent rt { s with waiting := w :: s.waiting } where
  valid := h.valid
  waiting := List.forall_mem_cons.mpr ⟨hw, h.waiting⟩
  faithful := h.faithful

theorem Consistent.taken (h : Consistent rt s) (n : Nat) :
    Consistent rt { s with waiting := s.waiting.eraseIdx n } where
  valid := h.valid
  waiting w hw := h.waiting w (List.mem_of_mem_eraseIdx hw)
  faithful := h.faithful

theorem Consistent.readTail {t : LogPath} {w : Waiting} (h : Consistent rt s)
    (hc : 0 < chunkBytes) (hw : UnderWay s.issued w) (hn : w.cursor = none)
    (ht : Rotation.answer rt chunkBytes s w = some t) : Consistent rt t := by
  obtain ⟨entries, k, hr⟩ := @readTail_eq rt chunkBytes hc w.limit hw.limit (w.sees s.live)
  simp only [Rotation.answer, hn] at ht
  split at ht
  · cases ht
    exact h
  · simp only [hr, Option.map_some, Option.some.injEq] at ht
    subst ht
    exact h.issue w ⟨boundary_le k, congrArg Prod.snd (pieces_take_boundary k)⟩

theorem Consistent.readBefore {t : LogPath} {w : Waiting} {i : Issued} (h : Consistent rt s)
    (hc : 0 < chunkBytes) (hw : UnderWay s.issued w) (hi : w.cursor = some i)
    (hn : ∀ file, s.live = some file → i.incarnation = s.incarnation ∨ i.cursor.offset = 0)
    (ht : Rotation.answer rt chunkBytes s w = some t) : Consistent rt t := by
  obtain ⟨hissued, hinode⟩ := hw.asked i hi
  obtain ⟨⟨offset, ho, hline⟩, _, kept⟩ := h.valid i hissued
  obtain ⟨⟨inode, position⟩, issuedFor, content⟩ := i
  simp only at ho hinode hline kept hn
  subst ho hinode
  simp only [Rotation.answer, hi] at ht
  split at ht
  · cases ht
    exact h
  · rename_i hopen
    by_cases hzero : offset = 0
    · -- nothing stands before the cursor in any file
      subst hzero
      have hr := @readBefore_start rt chunkBytes w.limit (w.sees s.live)
      rw [show (w.sees s.live).inode = w.inode from rfl] at hr
      simp only [hr, Option.map_some, Option.some.injEq] at ht
      subst ht
      have ha : Faithful rt ⟨⟨⟨w.inode, (0 : Nat)⟩, issuedFor, content⟩, w.limit, [],
          ⟨w.inode, (0 : Nat)⟩⟩ := .inr ⟨rfl, rfl⟩
      exact (h.issue w (atLine_zero _)).answer ha
    · -- the file has only grown since the cursor was issued
      have hlive : s.live ≠ none := by
        intro hnone
        exact hopen ⟨hnone, by omega⟩
      obtain ⟨file, hfile⟩ := Option.ne_none_iff_exists'.mp hlive
      have hsame : issuedFor = s.incarnation := by simpa [hzero] using hn file hfile
      have hp := kept hsame file hfile
      have hsees : (w.sees s.live).content = file.content := by simp [Waiting.sees, hfile]
      rw [← hsees] at hp
      obtain ⟨hline', htake⟩ := atLine_grown hline hp
      obtain ⟨k, hr⟩ := @readBefore_eq rt chunkBytes hc w.limit offset hw.limit _ hline'
      rw [show (w.sees s.live).inode = w.inode from rfl] at hr
      simp only [hr, Option.map_some, Option.some.injEq] at ht
      subst ht
      refine (h.issue w (atLine_boundary hline' k)).answer (.inl ?_)
      rw [htake]
      rfl

theorem Consistent.step {t : LogPath} {a : Act} (h : Consistent rt s) (hc : 0 < chunkBytes)
    (hl : AsksForLines s a) (hn : NotReplaced s a) (ht : step rt chunkBytes s a = some t) :
    Consistent rt t := by
  cases a with
  | append bytes =>
    obtain ⟨file, hf, rfl⟩ := Option.map_eq_some_iff.mp ht
    exact h.append hf bytes
  | rename =>
    obtain ⟨_, _, rfl⟩ := Option.map_eq_some_iff.mp ht
    exact h.renamed
  | create inode =>
    cases hf : s.live with
    | none =>
      simp only [Rotation.step, hf, Option.some.injEq] at ht
      subst ht
      exact h.replaced ⟨inode, []⟩
    | some file => simp [Rotation.step, hf] at ht
  | truncate =>
    obtain ⟨file, _, rfl⟩ := Option.map_eq_some_iff.mp ht
    exact h.replaced ⟨file.inode, []⟩
  | statTail limit =>
    simp only [Rotation.step] at ht
    split at ht
    · cases ht
      exact h
    · cases ht
      exact h.wait ⟨hl, fun i hi => by cases hi⟩
  | statBefore n limit =>
    simp only [Rotation.step] at ht
    split at ht
    · cases ht
    · cases ht
      exact h
    · rename_i i file hi hf
      split at ht
      · cases ht
        exact h.answer (.inr ⟨rfl, rfl⟩)
      · rename_i hinode
        cases ht
        refine h.wait ⟨hl, ?_⟩
        intro j hj
        cases hj
        exact ⟨List.mem_of_getElem? hi, by simpa using hinode⟩
  | read n =>
    simp only [Rotation.step] at ht
    split at ht
    · cases ht
    · rename_i w hw
      have hunder := h.waiting w (List.mem_of_getElem? hw)
      cases hi : w.cursor with
      | none => exact (h.taken n).readTail hc hunder hi ht
      | some i =>
        refine (h.taken n).readBefore hc hunder hi ?_ ht
        intro file hf
        have hlive : s.live = some file := hf
        simpa only [NotReplaced, hw, Option.bind_some, hi, hlive] using hn

end

/-- A runtime that knows the empty record. -/
def knowsEmpty : Runtime := knowing "\x7b\x7d" []

def emptyRecords : List UInt8 := [0x7b, 0x7d, 10, 0x7b, 0x7d, 10]

/-- A page of a file that grows, and the same cursor after its rotation. -/
def readThenRotate : List Act :=
  [.statTail 1, .read 0, .append emptyRecords, .statBefore 0 1, .read 0, .rename, .create 8,
    .append emptyRecords, .statBefore 1 1]

/-- The file is truncated in place and written anew. -/
def copytruncate : List Act :=
  [.statTail 1, .read 0, .truncate, .append emptyRecords, .statBefore 0 1, .read 0]

end BackendTemplates.Logs.Rotation
