import BackendTemplates.Logs.Export

namespace BackendTemplates.Logs
open Python Runs

/-- A page as a client received it, with the limit it asked for. -/
structure Page where
  limit : Nat
  lines : List (List Char)
  offset : Nat
  deriving DecidableEq

/-- A client that scrolls back, and the file others append to. The pages stand oldest
first; the snapshot is the content the first call found. -/
structure Scroll where
  file : LogFile
  snapshot : Option (List UInt8)
  offset : Nat
  pages : List Page
  deriving DecidableEq

inductive ScrollAct where
  | append (bytes : List UInt8)
  | tail (limit : Nat)
  | older (limit : Nat)
  deriving DecidableEq

def ScrollAct.isRead : ScrollAct → Bool
  | .append _ => false
  | _ => true

namespace Scroll

/-- The client begins with `read_last_lines` and goes on with `read_lines_before` at the
offset it was given until that is 0. -/
def step (chunkBytes : Nat) (s : Scroll) : ScrollAct → Option Scroll
  | .append bytes => some { s with file := s.file.append bytes }
  | .tail limit =>
    if s.snapshot.isSome then none
    else (readLastLines chunkBytes limit s.file).map fun r =>
      ⟨s.file, some s.file.content, r.2.1, [⟨limit, r.1, r.2.1⟩]⟩
  | .older limit =>
    if s.snapshot = none ∨ s.offset = 0 then none
    else (readLinesBefore chunkBytes s.offset limit s.file).map fun r =>
      { s with offset := r.2, pages := ⟨limit, r.1, r.2⟩ :: s.pages }

def machine (chunkBytes : Nat) (file : LogFile) : Machine Scroll ScrollAct where
  start := ⟨file, none, 0, []⟩
  step := step chunkBytes

/-- The lines received so far, in the order of the file. -/
def lines (pages : List Page) : List (List Char) := (pages.map Page.lines).flatten

/-- Each call asks for at least one line. -/
def AsksForLines (_ : Scroll) : ScrollAct → Prop
  | .append _ => True
  | .tail limit => 0 < limit
  | .older limit => 0 < limit

instance (s : Scroll) (a : ScrollAct) : Decidable (AsksForLines s a) := by
  unfold AsksForLines
  split <;> infer_instance

/-- The pages hold the end of a snapshot, each from the byte its offset names. -/
structure Reads (snapshot : List UInt8) (pages : List Page) : Prop where
  placed : ∀ p post, p :: post <:+ pages →
    rest newline (snapshot.take p.offset) = [] ∧
      lines (p :: post) = linesOf (snapshot.drop p.offset)
  within : ∀ p ∈ pages, p.offset ≤ snapshot.length
  full : ∀ p ∈ pages, 0 < p.offset → p.lines.length = p.limit
  falling : pages.Pairwise (fun p q => p.offset < q.offset)

/-- Where a line of a text begins. -/
def boundary (text : List UInt8) (k : Nat) : Nat := size ((complete newline text).take k)

/-- The page before the k-th line. -/
def pageBefore (limit : Nat) (text : List UInt8) (k : Nat) : Page :=
  ⟨limit, (((complete newline text).take k).drop (k - limit)).map lineText,
    boundary text (k - limit)⟩

section
variable {snapshot : List UInt8}

theorem take_boundary (k : Nat) :
    snapshot.take (boundary snapshot k) = terminate newline ((complete newline snapshot).take k) ∧
    snapshot.drop (boundary snapshot k) =
      terminate newline ((complete newline snapshot).drop k) ++ rest newline snapshot := by
  have hs := @terminate_complete _ _ newline snapshot
  rw [← List.take_append_drop k (complete newline snapshot), terminate_append,
    List.append_assoc] at hs
  have hl := @terminate_length _ newline ((complete newline snapshot).take k)
  constructor
  · exact (congrArg (List.take _) hs.symm).trans (List.take_left' hl)
  · exact (congrArg (List.drop _) hs.symm).trans (List.drop_left' hl)

theorem boundary_le (k : Nat) : boundary snapshot k ≤ snapshot.length := by
  have h := congrArg List.length (@take_boundary snapshot k).1
  rw [terminate_length, List.length_take] at h
  unfold boundary at *
  omega

theorem sep_not_mem_take (k : Nat) : ∀ p ∈ (complete newline snapshot).take k, newline ∉ p :=
  fun _ hp => sep_not_mem_complete (List.mem_of_mem_take hp)

theorem pieces_take_boundary (k : Nat) :
    pieces newline (snapshot.take (boundary snapshot k)) =
      ((complete newline snapshot).take k, []) := by
  have h := pieces_terminate (@sep_not_mem_take snapshot k) List.not_mem_nil
  rwa [List.append_nil, ← (take_boundary k).1] at h

theorem linesOf_drop_boundary (k : Nat) :
    linesOf (snapshot.drop (boundary snapshot k)) =
      ((complete newline snapshot).drop k).map lineText := by
  have hn : ∀ p ∈ (complete newline snapshot).drop k, newline ∉ p :=
    fun p hp => sep_not_mem_complete (List.mem_of_mem_drop hp)
  have h := pieces_terminate hn (sep_not_mem_rest snapshot)
  rw [linesOf, (take_boundary k).2, complete, h]

theorem boundary_strict {j k : Nat} (h : j < k) (hk : k ≤ (complete newline snapshot).length) :
    boundary snapshot j < boundary snapshot k := by
  obtain ⟨d, rfl⟩ := Nat.exists_eq_add_of_lt h
  have hs := length_le_size (((complete newline snapshot).drop j).take (d + 1))
  rw [boundary, boundary, Nat.add_assoc, List.take_add, size_append]
  simp only [List.length_take, List.length_drop] at hs
  omega

/-- One more page in front of those received. -/
theorem Reads.cons {pages : List Page} (h : Reads snapshot pages) {k limit : Nat}
    (hk : k ≤ (complete newline snapshot).length)
    (hlines : lines pages = ((complete newline snapshot).drop k).map lineText)
    (hbefore : ∀ p ∈ pages, boundary snapshot (k - limit) < p.offset) :
    Reads snapshot (pageBefore limit snapshot k :: pages) where
  placed := by
    intro p post hp
    rcases List.suffix_cons_iff.mp hp with he | hs
    · obtain ⟨rfl, rfl⟩ := List.cons.inj he
      constructor
      · exact congrArg Prod.snd (pieces_take_boundary (k - limit))
      · have hd : (complete newline snapshot).drop (k - limit) =
            ((complete newline snapshot).take k).drop (k - limit) ++
              (complete newline snapshot).drop k := by
          conv_lhs => rw [← List.take_append_drop k (complete newline snapshot)]
          rw [List.drop_append_of_le_length]
          rw [List.length_take_of_le hk]
          exact Nat.sub_le _ _
        change _ ++ lines post = linesOf (snapshot.drop (boundary snapshot (k - limit)))
        rw [linesOf_drop_boundary, hd, List.map_append, hlines]
        rfl
    · exact h.placed p post hs
  within p hp := by
    rcases List.mem_cons.mp hp with rfl | hp
    · exact boundary_le _
    · exact h.within p hp
  full p hp hpos := by
    rcases List.mem_cons.mp hp with rfl | hp
    · have hlt : 0 < k - limit := by
        by_contra hz
        have hz : k - limit = 0 := by omega
        simp [pageBefore, hz, boundary, size] at hpos
      simp only [pageBefore, List.length_map, List.length_drop, List.length_take]
      omega
    · exact h.full p hp hpos
  falling := List.pairwise_cons.mpr ⟨hbefore, h.falling⟩

theorem keepLast_take {k limit : Nat} (hl : 0 < limit)
    (hk : k ≤ (complete newline snapshot).length) :
    keepLast limit ((complete newline snapshot).take k) 0 =
      ((pageBefore limit snapshot k).lines, (pageBefore limit snapshot k).offset) := by
  have hmin : min (k - limit) k = k - limit := Nat.min_eq_left (Nat.sub_le _ _)
  rw [keepLast_eq hl, List.length_take_of_le hk, List.take_take, hmin, Nat.zero_add]
  rfl

/-- What the first call leaves the client with. -/
theorem step_tail {chunkBytes limit : Nat} (hc : 0 < chunkBytes) (hl : 0 < limit) {s : Scroll}
    (hs : s.snapshot = none) :
    step chunkBytes s (.tail limit) = some
      ⟨s.file, some s.file.content,
        (pageBefore limit s.file.content (complete newline s.file.content).length).offset,
        [pageBefore limit s.file.content (complete newline s.file.content).length]⟩ := by
  have hk := keepLast_take hl (Nat.le_refl (complete newline s.file.content).length)
  rw [List.take_length] at hk
  simp only [step, hs, Option.isSome_none, Bool.false_eq_true, if_false,
    readLastLines_eq hc hl, hk, Option.map_some]
  rfl

/-- What a later call adds, as long as the file has only grown. -/
theorem step_older {chunkBytes limit k : Nat} (hc : 0 < chunkBytes) (hl : 0 < limit) {s : Scroll}
    (hs : s.snapshot = some snapshot) (hp : snapshot <+: s.file.content) (hz : 0 < s.offset)
    (ho : s.offset = boundary snapshot k) (hk : k ≤ (complete newline snapshot).length) :
    step chunkBytes s (.older limit) = some
      { s with
        offset := (pageBefore limit snapshot k).offset
        pages := pageBefore limit snapshot k :: s.pages } := by
  have hle : s.offset ≤ snapshot.length := ho ▸ boundary_le k
  have htake : s.file.content.take s.offset = snapshot.take s.offset := by
    obtain ⟨more, hmore⟩ := hp
    rw [← hmore, List.take_append_of_le_length hle]
  have hpieces := @pieces_take_boundary snapshot k
  have hread := readLinesBefore_eq hc hl (Nat.le_trans hle hp.length_le)
    (by rw [htake, ho, rest, hpieces])
  rw [htake, ho, complete, hpieces, keepLast_take hl hk, ← ho] at hread
  have hne : ¬ (s.snapshot = none ∨ s.offset = 0) := by
    rw [hs]
    simp only [reduceCtorEq, false_or]
    omega
  simp only [step, hne, if_false, hread, Option.map_some]
  rfl

/-- Before the first call there are no pages; after it the client stands at the first line
it has received. -/
structure Consistent (s : Scroll) : Prop where
  fresh : s.snapshot = none → s.pages = []
  grown : ∀ snap, s.snapshot = some snap → snap <+: s.file.content
  reads : ∀ snap, s.snapshot = some snap → Reads snap s.pages
  stands : ∀ snap, s.snapshot = some snap → ∃ p post k, s.pages = p :: post ∧
    p.offset = s.offset ∧ s.offset = boundary snap k ∧ k ≤ (complete newline snap).length

theorem Reads.nil : Reads snapshot [] where
  placed p post h := by simp at h
  within p h := by simp at h
  full p h := by simp at h
  falling := List.Pairwise.nil

theorem Consistent.initial (chunkBytes : Nat) (file : LogFile) :
    Consistent (machine chunkBytes file).start where
  fresh _ := rfl
  grown _ h := by cases h
  reads _ h := by cases h
  stands _ h := by cases h

theorem Consistent.append {s : Scroll} (h : Consistent s) (bytes : List UInt8) :
    Consistent { s with file := s.file.append bytes } :=
  { h with grown := fun snap hs => (h.grown snap hs).trans (List.prefix_append _ _) }

variable {chunkBytes : Nat}

theorem Consistent.tail {s t : Scroll} (hc : 0 < chunkBytes) {limit : Nat} (hl : 0 < limit)
    (ht : step chunkBytes s (.tail limit) = some t) : Consistent t := by
  cases hs : s.snapshot with
  | some snap => simp [step, hs] at ht
  | none =>
    rw [step_tail hc hl hs, Option.some.injEq] at ht
    subst ht
    have hend : lines [] = ((complete newline s.file.content).drop
        (complete newline s.file.content).length).map lineText := by
      rw [List.drop_length]
      rfl
    exact {
      fresh := fun hx => by cases hx
      grown := fun snap hx => by cases hx; exact List.prefix_rfl
      reads := fun snap hx => by
        cases hx
        exact Reads.nil.cons (Nat.le_refl _) hend (by simp)
      stands := fun snap hx => by
        cases hx
        exact ⟨_, [], _, rfl, rfl, rfl, Nat.sub_le _ _⟩ }

theorem Consistent.older {s t : Scroll} (h : Consistent s) (hc : 0 < chunkBytes) {limit : Nat}
    (hl : 0 < limit) (ht : step chunkBytes s (.older limit) = some t) : Consistent t := by
  have hguard : s.snapshot ≠ none ∧ s.offset ≠ 0 := by
    rw [← not_or]
    intro hx
    simp [step, hx] at ht
  obtain ⟨snap, hs⟩ := Option.ne_none_iff_exists'.mp hguard.1
  obtain ⟨p, post, k, hpages, hp, ho, hk⟩ := h.stands snap hs
  have hz : 0 < s.offset := Nat.pos_iff_ne_zero.mpr hguard.2
  have hkpos : 0 < k := by
    by_contra hk0
    have hk0 : k = 0 := by omega
    rw [ho, hk0] at hz
    simp [boundary, size] at hz
  have hreads := h.reads snap hs
  have hplaced := (hreads.placed p post (by simp [hpages])).2
  rw [← hpages, hp, ho, linesOf_drop_boundary] at hplaced
  have hbefore : ∀ q ∈ s.pages, boundary snap (k - limit) < q.offset := by
    intro q hq
    have hlt := boundary_strict (Nat.sub_lt hkpos hl) hk
    have hfall := hreads.falling
    rw [hpages] at hq hfall
    rcases List.mem_cons.mp hq with rfl | hq
    · rwa [hp, ho]
    · have hqlt := (List.pairwise_cons.mp hfall).1 q hq
      rw [hp, ho] at hqlt
      omega
  rw [step_older hc hl hs (h.grown snap hs) hz ho hk, Option.some.injEq] at ht
  subst ht
  exact {
    fresh := fun hx => by simp [hs] at hx
    grown := h.grown
    reads := fun snap' hx => by
      obtain rfl : snap = snap' := Option.some.inj (hs.symm.trans hx)
      exact hreads.cons hk hplaced hbefore
    stands := fun snap' hx => by
      obtain rfl : snap = snap' := Option.some.inj (hs.symm.trans hx)
      exact ⟨_, s.pages, k - limit, rfl, rfl, rfl, Nat.le_trans (Nat.sub_le _ _) hk⟩ }

theorem Consistent.step {s t : Scroll} {a : ScrollAct} (h : Consistent s) (hc : 0 < chunkBytes)
    (ha : AsksForLines s a) (ht : step chunkBytes s a = some t) : Consistent t := by
  cases a with
  | append bytes =>
    cases ht
    exact h.append bytes
  | tail limit => exact Consistent.tail hc ha ht
  | older limit => exact h.older hc ha ht

theorem Consistent.of_reaches (hc : 0 < chunkBytes) {file : LogFile} {as : List ScrollAct}
    {s : Scroll} (h : (machine chunkBytes file).Reaches as s)
    (hm : (machine chunkBytes file).Meets AsksForLines (machine chunkBytes file).start as) :
    Consistent s :=
  h.invariant_of_meets (Consistent.initial chunkBytes file)
    (fun _ _ _ hi ha ht => hi.step hc ha ht) hm

/-- The same client over another file. -/
def onFile (s : Scroll) (file : LogFile) : Scroll := { s with file := file }

/-- A call on the growing file is the same call on the file as the first call found it. -/
theorem step_onFile {s t : Scroll} {a : ScrollAct} (h : Consistent s) (hc : 0 < chunkBytes)
    (ha : AsksForLines s a) (hr : a.isRead = true) (ht : step chunkBytes s a = some t) :
    ∃ snap, t.snapshot = some snap ∧ (s.snapshot = none ∨ s.snapshot = some snap) ∧
      ∀ inode, step chunkBytes (s.onFile ⟨inode, snap⟩) a = some (t.onFile ⟨inode, snap⟩) := by
  cases a with
  | append bytes => cases hr
  | tail limit =>
    cases hn : s.snapshot with
    | some snap => simp [step, hn] at ht
    | none =>
      rw [step_tail hc ha hn, Option.some.injEq] at ht
      subst ht
      exact ⟨s.file.content, rfl, .inl rfl, fun inode => step_tail hc ha hn⟩
  | older limit =>
    have hguard : ¬ (s.snapshot = none ∨ s.offset = 0) := by
      intro hx
      simp [step, hx] at ht
    obtain ⟨hne, hz⟩ := not_or.mp hguard
    have hz := Nat.pos_iff_ne_zero.mpr hz
    obtain ⟨snap, hs⟩ := Option.ne_none_iff_exists'.mp hne
    obtain ⟨p, post, k, hpages, hp, ho, hk⟩ := h.stands snap hs
    rw [step_older hc ha hs (h.grown snap hs) hz ho hk, Option.some.injEq] at ht
    subst ht
    refine ⟨snap, hs, .inr hs, fun inode => ?_⟩
    exact @step_older snap chunkBytes limit k hc ha (s.onFile ⟨inode, snap⟩) hs List.prefix_rfl
      hz ho hk

/-- The appends of a run leave no trace in what the client receives. -/
theorem reaches_onFile (hc : 0 < chunkBytes) {file : LogFile} {as : List ScrollAct} {s : Scroll}
    (h : (machine chunkBytes file).Reaches as s)
    (hm : (machine chunkBytes file).Meets AsksForLines (machine chunkBytes file).start as)
    {snap : List UInt8} (hs : s.snapshot = none ∨ s.snapshot = some snap) (inode : Nat) :
    (machine chunkBytes ⟨inode, snap⟩).Reaches (as.filter ScrollAct.isRead)
      (s.onFile ⟨inode, snap⟩) := by
  refine h.induct (P := fun as s => (machine chunkBytes file).Meets AsksForLines
    (machine chunkBytes file).start as → s.snapshot = none ∨ s.snapshot = some snap →
    (machine chunkBytes ⟨inode, snap⟩).Reaches (as.filter ScrollAct.isRead)
      (s.onFile ⟨inode, snap⟩)) ?_ ?_ hm hs
  · intro _ _
    rfl
  intro as s a t hr ih ht hmeets hs
  obtain ⟨hm, ha⟩ := meets_snoc.mp hmeets
  rw [List.filter_append]
  cases hread : a.isRead with
  | false =>
    cases a with
    | append bytes =>
      cases ht
      have hsame := ih hm hs
      rw [List.filter_cons_of_neg (by simp [ScrollAct.isRead]), List.filter_nil, List.append_nil]
      exact hsame
    | tail limit => cases hread
    | older limit => cases hread
  | true =>
    obtain ⟨snap', ht', hs', hsame⟩ :=
      step_onFile (Consistent.of_reaches hc hr hm) hc (ha s hr) hread ht
    rw [ht'] at hs
    obtain rfl : snap' = snap := by simpa using hs
    have hstep := ih hm hs'
    rw [List.filter_cons_of_pos hread, List.filter_nil]
    exact exec_snoc.mpr ⟨_, hstep, hsame inode⟩

/-- Scrolling back until offset 0 reads exactly the lines of the file as the first call
found it, which is what an export of that content yields. -/
theorem back_scroll_complete (hc : 0 < chunkBytes) {file : LogFile} {as : List ScrollAct}
    {s : Scroll} (h : (machine chunkBytes file).Reaches as s)
    (hm : (machine chunkBytes file).Meets AsksForLines (machine chunkBytes file).start as) :
    (∀ limit, 0 < limit →
      (s.snapshot = none → ∃ t, step chunkBytes s (.tail limit) = some t) ∧
      (s.snapshot ≠ none → 0 < s.offset → ∃ t, step chunkBytes s (.older limit) = some t)) ∧
    ∀ snap, s.snapshot = some snap →
      (s.offset = 0 → lines s.pages = linesOf snap ∧ ∀ exportChunk, 0 < exportChunk →
        ∃ n, (exportAfter exportChunk snap (fun _ => []) n).ended = true ∧
          (exportAfter exportChunk snap (fun _ => []) n).yielded = lines s.pages) ∧
      (∀ p ∈ s.pages.tail, p.lines.length = p.limit) ∧
      s.pages.Pairwise (fun p q => p.offset < q.offset) ∧
      (∀ p post, p :: post <:+ s.pages → p.offset ≤ snap.length ∧
        rest newline (snap.take p.offset) = [] ∧
        lines (p :: post) = linesOf (snap.drop p.offset)) ∧
      (machine chunkBytes ⟨file.inode, snap⟩).Reaches (as.filter ScrollAct.isRead)
        (s.onFile ⟨file.inode, snap⟩) := by
  have hi := Consistent.of_reaches hc h hm
  constructor
  · intro limit hl
    constructor
    · intro hs
      exact ⟨_, step_tail hc hl hs⟩
    · intro hs hz
      obtain ⟨snap, hs⟩ := Option.ne_none_iff_exists'.mp hs
      obtain ⟨p, post, k, hpages, hp, ho, hk⟩ := hi.stands snap hs
      exact ⟨_, step_older hc hl hs (hi.grown snap hs) hz ho hk⟩
  · intro snap hs
    obtain ⟨p, post, k, hpages, hp, ho, hk⟩ := hi.stands snap hs
    have hreads := hi.reads snap hs
    refine ⟨?_, ?_, hreads.falling, ?_, reaches_onFile hc h hm (.inr hs) file.inode⟩
    · intro hz
      have hall : lines s.pages = linesOf snap := by
        have hplaced := (hreads.placed p post (by simp [hpages])).2
        rwa [← hpages, hp, hz, List.drop_zero] at hplaced
      refine ⟨hall, fun exportChunk hexport => ?_⟩
      rw [hall]
      exact export_untouched hexport snap
    · intro q hq
      rw [hpages, List.tail_cons] at hq
      have hfall := hreads.falling
      rw [hpages] at hfall
      have hlt := (List.pairwise_cons.mp hfall).1 q hq
      exact hreads.full q (by simp [hpages, hq]) (by omega)
    · intro q post' hq
      exact ⟨hreads.within q (hq.subset List.mem_cons_self), hreads.placed q post' hq⟩

end

/-- Three lines, the last of them unfinished at the first call and finished later. -/
def twoPages : List ScrollAct := [.tail 1, .append [10, 0x64, 10], .older 1]

theorem two_pages_are_complete :
    ∃ s, (machine 2 ⟨7, [0x61, 13, 10, 10, 0x63]⟩).Reaches twoPages s ∧ s.offset = 0 ∧
      lines s.pages = linesOf [0x61, 13, 10, 10, 0x63] := by
  have hr : ((machine 2 ⟨7, [0x61, 13, 10, 10, 0x63]⟩).exec
      (machine 2 ⟨7, [0x61, 13, 10, 10, 0x63]⟩).start twoPages).map
        (fun s => (s.snapshot, s.offset)) = some (some [0x61, 13, 10, 10, 0x63], 0) := by
    decide
  obtain ⟨s, hs, he⟩ := Machine.reaches_of_map hr
  obtain ⟨hsnap, hoff⟩ := Prod.mk.inj he
  have hall := (back_scroll_complete (by decide) hs (by decide)).2 _ hsnap
  exact ⟨s, hs, hoff, (hall.1 hoff).1⟩

end Scroll
end BackendTemplates.Logs
