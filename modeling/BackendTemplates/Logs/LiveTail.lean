import BackendTemplates.Library.Runs
import BackendTemplates.Python.Bytes

namespace BackendTemplates.Logs
open Python Runs

def newline : UInt8 := 10

/-- A complete line as it is yielded. -/
def lineText (line : List UInt8) : List Char := rstripCr (decodeReplace line)

def linesOf (bytes : List UInt8) : List (List Char) := (complete newline bytes).map lineText

/-- `_read_delta` on the content it finds: the lines, the new position and the carry. -/
def readDelta (content : List UInt8) (pos : Nat) (carry : List UInt8) :
    List (List Char) × Nat × List UInt8 :=
  let data := carry ++ content.drop pos
  let consumed := data.length - (rest newline data).length
  (linesOf data, pos + consumed, rest newline data)

inductive Phase where
  | sleeping
  | draining (size : Nat)
  | reading
  deriving DecidableEq

/-- The followed file and the loop of `iter_new_lines`, with what it has yielded and the
content the last finished poll went by. -/
structure Tail where
  content : List UInt8
  pos : Nat
  carry : List UInt8
  phase : Phase
  yielded : List (List Char)
  seen : List UInt8
  deriving DecidableEq

inductive Act where
  | append (bytes : List UInt8)
  | stat
  | statError
  | drain
  | drainError
  | read
  | readError
  deriving DecidableEq

/-- After the `stat`, and after a drain: read when there is more than `pos` bytes. -/
def Tail.afterStat (s : Tail) (size : Nat) : Tail :=
  if s.pos < size then { s with phase := .reading }
  else { s with phase := .sleeping, seen := s.content }

/-- One step of the loop or of a writer. The inode stays the same: nothing rotates the
file, so only the size can look like a rotation. -/
def step (s : Tail) : Act → Option Tail
  | .append bytes => some { s with content := s.content ++ bytes }
  | .stat =>
    if s.phase ≠ .sleeping then none
    else if s.content.length < s.pos then some { s with phase := .draining s.content.length }
    else some (s.afterStat s.content.length)
  | .statError => if s.phase = .sleeping then some s else none
  | .drain =>
    match s.phase with
    | .draining size =>
      let lines := (readDelta s.content s.pos []).1
      some ({ s with yielded := s.yielded ++ lines, pos := 0, carry := [] }.afterStat size)
    | _ => none
  | .drainError =>
    match s.phase with
    | .draining size => some ({ s with pos := 0, carry := [] }.afterStat size)
    | _ => none
  | .read =>
    if s.phase ≠ .reading then none
    else
      let (lines, pos, carry) := readDelta s.content s.pos s.carry
      some ⟨s.content, pos, carry, .sleeping, s.yielded ++ lines, s.content⟩
  | .readError => if s.phase = .reading then some { s with phase := .sleeping } else none

/-- Following a file that has some content when the loop takes its first position. -/
def tail (start : List UInt8) : Machine Tail Act where
  start := ⟨start, start.length, [], .sleeping, [], start⟩
  step := step

/-- After each poll the lines yielded are those of the bytes appended until its read. -/
def Exact (start : List UInt8) (s : Tail) : Prop :=
  s.phase = .sleeping → s.yielded = linesOf (s.seen.drop start.length)

/-- No read finds an unfinished line at the end of the file. -/
def WholeLines (s : Tail) : Act → Prop
  | .read => s.content = [] ∨ s.content.getLast? = some newline
  | _ => True

instance (s : Tail) (a : Act) : Decidable (WholeLines s a) := by
  unfold WholeLines
  split <;> infer_instance

theorem linesOf_append {xs ys : List UInt8} (h : rest newline xs = []) :
    linesOf (xs ++ ys) = linesOf xs ++ linesOf ys := by
  simp [linesOf, complete_append, h]

/-- The loop stands at the end of the content it has seen, which is made of whole lines. -/
structure Caught (start : List UInt8) (s : Tail) : Prop where
  kept : start <+: s.seen
  grown : s.seen <+: s.content
  pos : s.pos = s.seen.length
  carry : s.carry = []
  whole : rest newline s.seen = []
  exact : s.yielded = linesOf (s.seen.drop start.length)
  phase : ∀ size, s.phase ≠ .draining size

section
variable {start : List UInt8}

theorem Caught.initial (hs : rest newline start = []) : Caught start (tail start).start where
  kept := List.prefix_rfl
  grown := List.prefix_rfl
  pos := rfl
  carry := rfl
  whole := hs
  exact := by simp [tail, linesOf, complete, pieces]
  phase size := by simp [tail]

theorem Caught.append {s : Tail} (h : Caught start s) (bytes : List UInt8) :
    Caught start { s with content := s.content ++ bytes } :=
  { h with grown := h.grown.trans (List.prefix_append _ _) }

theorem Caught.afterStat {s : Tail} (h : Caught start s) :
    Caught start (s.afterStat s.content.length) := by
  unfold Tail.afterStat
  split
  · exact { h with phase := by simp }
  · rename_i hn
    have he : s.seen = s.content := by
      apply h.grown.eq_of_length_le
      have hp := h.pos
      omega
    exact {
      kept := he ▸ h.kept
      grown := List.prefix_rfl
      pos := by simpa [he] using h.pos
      carry := h.carry
      whole := he ▸ h.whole
      exact := by simpa [he] using h.exact
      phase := by simp }

/-- What a read appends to whole lines splits in its own lines and its own rest. -/
theorem Caught.read_delta {s : Tail} (h : Caught start s) {new : List UInt8}
    (hc : s.content = s.seen ++ new) : readDelta s.content s.pos s.carry =
      (linesOf new, s.pos + (new.length - (rest newline new).length), rest newline new) := by
  have hd : s.content.drop s.pos = new := by
    rw [hc, h.pos]
    simp
  simp [readDelta, h.carry, hd]

theorem Caught.new_whole {s : Tail} (h : Caught start s) {new : List UInt8} :
    rest newline (s.seen ++ new) = rest newline new := by
  rw [rest_append, h.whole, List.nil_append]

theorem Caught.lines {s : Tail} (h : Caught start s) (hs : rest newline start = [])
    (new : List UInt8) :
    s.yielded ++ linesOf new = linesOf ((s.seen ++ new).drop start.length) := by
  obtain ⟨d, hd⟩ := h.kept
  have hr : rest newline (s.seen.drop start.length) = [] := by
    have hw := h.whole
    rw [← hd, rest_append, hs, List.nil_append] at hw
    rw [← hd, List.drop_left]
    exact hw
  rw [List.drop_append_of_le_length h.kept.length_le, linesOf_append hr, h.exact]

/-- Reading whole lines keeps the loop caught up. -/
theorem Caught.read {s t : Tail} (h : Caught start s) (hs : rest newline start = [])
    (hw : rest newline s.content = []) (ht : step s .read = some t) : Caught start t := by
  obtain ⟨new, hc⟩ := h.grown
  have hn : rest newline new = [] := by rw [← h.new_whole, hc, hw]
  have hr := h.read_delta hc.symm
  simp only [step] at ht
  split at ht
  · cases ht
  · rw [hr] at ht
    cases ht
    exact {
      kept := h.kept.trans h.grown
      grown := List.prefix_rfl
      pos := by rw [hn, ← hc, h.pos]; simp
      carry := hn
      whole := hw
      exact := by rw [← hc]; exact h.lines hs new
      phase := by simp }

theorem Caught.step {s t : Tail} {a : Act} (h : Caught start s) (hs : rest newline start = [])
    (ha : WholeLines s a) (ht : Logs.step s a = some t) : Caught start t := by
  cases a with
  | append bytes =>
    cases ht
    exact h.append bytes
  | stat =>
    simp only [Logs.step] at ht
    split at ht
    · cases ht
    · split at ht
      · rename_i hlt
        have hp := h.pos
        have hg := h.grown.length_le
        omega
      · cases ht
        exact h.afterStat
  | statError =>
    simp only [Logs.step] at ht
    split at ht
    · cases ht
      exact h
    · cases ht
  | drain =>
    simp only [Logs.step] at ht
    split at ht
    · rename_i size hp
      exact absurd hp (h.phase size)
    · cases ht
  | drainError =>
    simp only [Logs.step] at ht
    split at ht
    · rename_i size hp
      exact absurd hp (h.phase size)
    · cases ht
  | read => exact h.read hs (rest_eq_nil_iff.mpr ha) ht
  | readError =>
    simp only [Logs.step] at ht
    split at ht
    · cases ht
      exact { h with phase := by simp }
    · cases ht

theorem Caught.of_reaches (hs : rest newline start = []) {as : List Act} {s : Tail}
    (h : (tail start).Reaches as s) (hm : (tail start).Meets WholeLines (tail start).start as) :
    Caught start s :=
  h.invariant_of_meets (Caught.initial hs) (fun _ _ _ hi ha ht => hi.step hs ha ht) hm

/-- The line is finished, and two more polls follow. -/
def finishLine : List Act := [.append [newline], .stat, .read, .stat, .drain, .read]

/-- After a read which kept a partial line in the carry without moving past it, the partial
line is read twice, the position overshoots, and the file is taken for a rotated one. -/
theorem carry_doubles {a r : List UInt8} {yielded : List (List Char)} {seen : List UInt8}
    (hne : r ≠ []) (hn : newline ∉ r) :
    ∃ pos carry, (tail start).exec ⟨a ++ r, a.length, r, .sleeping, yielded, seen⟩ finishLine =
      some ⟨a ++ r ++ [newline], pos, carry, .sleeping,
        yielded ++ [lineText (r ++ r)] ++ linesOf (a ++ r ++ [newline]), a ++ r ++ [newline]⟩ := by
  have hpos : 0 < r.length := List.length_pos_iff.mpr hne
  have hp : pieces newline (r ++ (r ++ [newline])) = ([r ++ r], []) := by
    rw [← List.append_assoc]
    exact pieces_snoc (by simp [hn])
  have hread : readDelta (a ++ r ++ [newline]) a.length r =
      ([lineText (r ++ r)], a.length + (r.length + (r.length + 1)), []) := by
    simp [readDelta, linesOf, complete, rest, hp]
  have hlen : (a ++ r ++ [newline]).length = a.length + (r.length + 1) := by simp
  have hdrain : (readDelta (a ++ r ++ [newline]) (a.length + (r.length + (r.length + 1))) []).1 =
      [] := by
    have hd : (a ++ r ++ [newline]).drop (a.length + (r.length + (r.length + 1))) = [] :=
      List.drop_of_length_le (by omega)
    simp only [readDelta, hd]
    rfl
  have hsize : ¬ (a ++ r ++ [newline]).length < a.length := by omega
  have hmore : a.length < (a ++ r ++ [newline]).length := by omega
  have hshrunk : (a ++ r ++ [newline]).length < a.length + (r.length + (r.length + 1)) := by omega
  have hsome : 0 < (a ++ r ++ [newline]).length := by omega
  refine ⟨(readDelta (a ++ r ++ [newline]) 0 []).2.1,
    (readDelta (a ++ r ++ [newline]) 0 []).2.2, ?_⟩
  simp only [finishLine, exec_cons, exec_nil, tail, step, Option.bind_some, ne_eq,
    not_true_eq_false, ↓reduceIte, hsize, Tail.afterStat, hmore, hread, hshrunk, hdrain,
    List.append_nil, hsome]
  rfl

/-- A read which meets a partial line leaves the loop where finishing the line breaks it. -/
theorem Caught.broken {s t : Tail} (h : Caught start s) (hs : rest newline start = [])
    (hp : rest newline s.content ≠ []) (ht : Logs.step s .read = some t) :
    ∃ u, (tail start).exec t finishLine = some u ∧ ¬ Exact start u := by
  obtain ⟨new, hc⟩ := h.grown
  have hr := h.read_delta hc.symm
  have hne : rest newline new ≠ [] := by rwa [← h.new_whole, hc]
  obtain ⟨ys, hys⟩ : ∃ ys, new = ys ++ rest newline new := rest_suffix new
  have hcontent : s.content = s.seen ++ ys ++ rest newline new := by
    rw [List.append_assoc, ← hys, hc]
  have hlen := congrArg List.length hys
  simp only [List.length_append] at hlen
  have hpos : s.pos + (new.length - (rest newline new).length) = (s.seen ++ ys).length := by
    rw [h.pos, List.length_append]
    omega
  simp only [Logs.step] at ht
  split at ht
  · cases ht
  · rw [hr] at ht
    simp only [hpos, hcontent, Option.some.injEq] at ht
    subst ht
    obtain ⟨pos, carry, he⟩ := @carry_doubles start (s.seen ++ ys) (rest newline new)
      (s.yielded ++ linesOf new) (s.seen ++ ys ++ rest newline new) hne (sep_not_mem_rest new)
    refine ⟨_, he, fun hx => ?_⟩
    obtain ⟨d, hd⟩ := h.kept
    have hfile : s.seen ++ ys ++ rest newline new ++ [newline] =
        start ++ (d ++ ys ++ rest newline new ++ [newline]) := by
      simp [← hd]
    have hl := congrArg List.length (hx rfl)
    simp only [hfile, linesOf_append hs, List.drop_left, List.length_append,
      List.length_singleton] at hl
    omega

/-- While every read finds whole lines the tail is exact; the first one that does not can
be followed by polls which yield a line too many. -/
theorem tail_exact_while_whole (hs : start = [] ∨ start.getLast? = some newline) :
    (∀ as s, (tail start).Reaches as s → (tail start).Meets WholeLines (tail start).start as →
      Exact start s) ∧
    (∀ as s t, (tail start).Reaches as s →
      (tail start).Meets WholeLines (tail start).start as → step s .read = some t →
      ¬ WholeLines s .read →
      ∃ bs u, (tail start).Reaches (as ++ .read :: bs) u ∧ ¬ Exact start u) := by
  have hr := rest_eq_nil_iff.mpr hs
  constructor
  · intro as s h hm _
    exact (Caught.of_reaches hr h hm).exact
  · intro as s t h hm ht hw
    have hp : rest newline s.content ≠ [] := fun he => hw (rest_eq_nil_iff.mp he)
    obtain ⟨u, hu, hx⟩ := (Caught.of_reaches hr h hm).broken hr hp ht
    refine ⟨finishLine, u, h.append ?_, hx⟩
    rw [exec_cons]
    exact Option.bind_eq_some_iff.mpr ⟨t, ht, hu⟩

end

/-- Two lines appended between polls, in one write that a poll sees whole. -/
def wholeAppend : List Act := [.stat, .append [0x62, 10, 0x63, 10], .stat, .read]

theorem whole_append_is_exact : ∃ s, (tail [0x61, 10]).Reaches wholeAppend s ∧
    s.yielded = [['b'], ['c']] ∧ Exact [0x61, 10] s := by
  have hr : ((tail [0x61, 10]).exec (tail [0x61, 10]).start wholeAppend).map Tail.yielded =
      some [['b'], ['c']] := by decide
  obtain ⟨s, hs, hy⟩ := Machine.reaches_of_map hr
  exact ⟨s, hs, hy, (tail_exact_while_whole (.inr (by decide))).1 _ s hs (by decide)⟩

/-- The first poll sees half of the line. -/
def tornAppend : List Act :=
  [.append [0x61, 0x62], .stat, .read, .append [0x63, 10], .stat, .read]

theorem torn_append_doubles_the_half : ¬ ∀ start, start = [] ∨ start.getLast? = some newline →
    ∀ as s, (tail start).Reaches as s → Exact start s := by
  intro hall
  have hr : ((tail []).exec (tail []).start tornAppend).map
      (fun s => (s.phase, s.yielded, s.seen)) =
      some (.sleeping, [['a', 'b', 'a', 'b', 'c']], [0x61, 0x62, 0x63, 10]) := by decide
  obtain ⟨s, hs, he⟩ := Machine.reaches_of_map hr
  simp only [Prod.mk.injEq] at he
  obtain ⟨hp, hy, hseen⟩ := he
  have hx := hall [] (.inl rfl) _ s hs hp
  rw [hy, hseen] at hx
  exact absurd hx (by decide)

end BackendTemplates.Logs
