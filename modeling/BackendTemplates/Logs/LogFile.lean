import BackendTemplates.Logs.LiveTail

namespace BackendTemplates.Logs
open Python

/-- A file as one inode holds it. -/
structure LogFile where
  inode : Nat
  content : List UInt8
  deriving DecidableEq

def LogFile.append (file : LogFile) (bytes : List UInt8) : LogFile :=
  { file with content := file.content ++ bytes }

/-- `fh.seek(pos)` and `fh.read(count)`. -/
def readAt (content : List UInt8) (pos count : Nat) : List UInt8 := (content.drop pos).take count

/-- `_DEFAULT_CHUNK`. -/
def defaultChunk : Nat := 64 * 1024

/-- The loop of both backward readers, from a position and what has been read behind it.
There is no result while the loop has not ended. -/
def readBack (content : List UInt8) (chunkBytes limit : Nat) :
    Nat → Nat → List UInt8 → Option (List UInt8 × Nat)
  | _, 0, buf => some (buf, 0)
  | 0, _ + 1, _ => none
  | fuel + 1, pos + 1, buf =>
    let read := min chunkBytes (pos + 1)
    let seekTo := pos + 1 - read
    let buf := readAt content seekTo (pos + 1 - seekTo) ++ buf
    if limit + 1 ≤ buf.count newline then some (buf, seekTo)
    else readBack content chunkBytes limit fuel seekTo buf

/-- `xs[-count:]`. -/
def fromEnd {α : Type*} (count : Nat) (xs : List α) : List α :=
  if count = 0 then xs else xs.drop (xs.length - count)

/-- The lines kept of those read, decoded, and the offset of the first one. -/
def keepLast (limit : Nat) (rawLines : List (List UInt8)) (start : Nat) :
    List (List Char) × Nat :=
  let kept := if limit < rawLines.length then fromEnd limit rawLines else rawLines
  let dropped := rawLines.take (rawLines.length - kept.length)
  (kept.map lineText, start + size dropped)

def tailFromBuffer (buf : List UInt8) (bufStart limit : Nat) : List (List Char) × Nat :=
  match rfind newline buf with
  | none => ([], bufStart)
  | some lastNl =>
    let body := buf.take (lastNl + 1)
    keepLast limit (split newline body).dropLast bufStart

/-- The lines, the offset of the first one, and the inode. -/
def readLastLines (chunkBytes limit : Nat) (file : LogFile) :
    Option (List (List Char) × Nat × Nat) :=
  let size := file.content.length
  if size = 0 then some ([], 0, file.inode)
  else (readBack file.content chunkBytes limit size size []).map fun r =>
    let page := tailFromBuffer r.1 r.2 limit
    (page.1, page.2, file.inode)

def readLinesBefore (chunkBytes : Nat) (offset : Int) (limit : Nat) (file : LogFile) :
    Option (List (List Char) × Nat) :=
  if offset ≤ 0 then some ([], 0)
  else (readBack file.content chunkBytes limit offset.toNat offset.toNat []).map fun r =>
    let rawLines := split newline r.1
    let rawLines := if rawLines.getLast? = some [] then rawLines.dropLast else rawLines
    keepLast limit rawLines r.2

section
variable {content : List UInt8} {chunkBytes limit : Nat}

theorem readAt_take {start stop : Nat} (h : start ≤ stop) :
    content.take start ++ readAt content start (stop - start) = content.take stop := by
  obtain ⟨d, rfl⟩ := Nat.exists_eq_add_of_le h
  rw [Nat.add_sub_cancel_left, List.take_add]
  rfl

/-- The loop ends. Its buffer is what stands before the position it began at, from the
start of the file on or with more newlines than lines are wanted. -/
theorem readBack_eq (hc : 0 < chunkBytes) {fuel pos : Nat} (hf : pos ≤ fuel)
    (buf : List UInt8) :
    ∃ start new, readBack content chunkBytes limit fuel pos buf = some (new ++ buf, start) ∧
      start ≤ pos ∧ content.take start ++ new = content.take pos ∧
      (start = 0 ∨ limit + 1 ≤ (new ++ buf).count newline) := by
  induction fuel generalizing pos buf with
  | zero =>
    obtain rfl : pos = 0 := Nat.le_zero.mp hf
    exact ⟨0, [], rfl, Nat.le_refl _, by simp, .inl rfl⟩
  | succ fuel ih =>
    cases pos with
    | zero => exact ⟨0, [], rfl, Nat.le_refl _, by simp, .inl rfl⟩
    | succ pos =>
      simp only [readBack]
      generalize hseek : pos + 1 - min chunkBytes (pos + 1) = seekTo
      have hle : seekTo ≤ pos + 1 := by omega
      have hread := @readAt_take content _ _ hle
      generalize readAt content seekTo (pos + 1 - seekTo) = chunk at hread
      by_cases hn : limit + 1 ≤ (chunk ++ buf).count newline
      · rw [if_pos hn]
        exact ⟨seekTo, chunk, rfl, hle, hread, .inr hn⟩
      · obtain ⟨start, new, he, hs, ht, hstop⟩ := @ih seekTo (by omega) (chunk ++ buf)
        rw [if_neg hn]
        rw [← List.append_assoc] at he hstop
        refine ⟨start, new ++ chunk, he, Nat.le_trans hs hle, ?_, hstop⟩
        rw [← List.append_assoc, ht, hread]

/-- The lines kept are the last ones, and the offset is behind the bytes of the others. -/
theorem keepLast_eq (hl : 0 < limit) (ls : List (List UInt8)) (start : Nat) :
    keepLast limit ls start = ((ls.drop (ls.length - limit)).map lineText,
      start + size (ls.take (ls.length - limit))) := by
  have hz : limit ≠ 0 := Nat.pos_iff_ne_zero.mp hl
  by_cases h : limit < ls.length
  · have hd : ls.length - (ls.length - (ls.length - limit)) = ls.length - limit := by omega
    simp [keepLast, h, fromEnd, hz, hd]
  · have hd : ls.length - limit = 0 := by omega
    simp [keepLast, h, hd]

/-- A torn first line in the buffer is never kept: the page is that of all lines before
the position. -/
theorem keepLast_seen (hl : 0 < limit) {a b : List UInt8}
    (h : a.length = 0 ∨ limit + 1 ≤ b.count newline) :
    keepLast limit (complete newline b) a.length =
      keepLast limit (complete newline (a ++ b)) 0 := by
  rcases h with h | h
  · obtain rfl : a = [] := List.length_eq_zero_iff.mp h
    rfl
  · rw [← complete_length] at h
    have hd := @complete_length_append _ _ newline a b
    obtain ⟨k, hk⟩ := Nat.exists_eq_add_of_le h
    have hb : (complete newline b).length - limit = k + 1 := by omega
    have hab : (complete newline (a ++ b)).length - limit =
        (complete newline a).length + (k + 1) := by omega
    rw [keepLast_eq hl, keepLast_eq hl, hb, hab, complete_drop a b (Nat.le_add_left 1 k),
      size_take a b (Nat.le_add_left 1 k) (by omega), Nat.zero_add]

theorem tailFromBuffer_eq (buf : List UInt8) (bufStart : Nat) :
    tailFromBuffer buf bufStart limit =
      if complete newline buf = [] then ([], bufStart)
      else keepLast limit (complete newline buf) bufStart := by
  unfold tailFromBuffer
  cases hr : rfind newline buf with
  | none => simp [complete_of_rfind_none hr]
  | some i =>
    have ht := take_rfind hr
    have hne : complete newline buf ≠ [] := by
      intro he
      rw [he] at ht
      have hnil : buf = [] := by simpa [terminate] using ht
      simp [hnil, rfind] at hr
    simp only [ht, hne, if_false, split_terminate (fun p hp => sep_not_mem_complete hp),
      List.dropLast_concat]

/-- The page `read_last_lines` returns, whatever the chunk size. -/
theorem readLastLines_eq (hc : 0 < chunkBytes) (hl : 0 < limit) (file : LogFile) :
    readLastLines chunkBytes limit file =
      some ((keepLast limit (complete newline file.content) 0).1,
        (keepLast limit (complete newline file.content) 0).2, file.inode) := by
  unfold readLastLines
  by_cases hz : file.content.length = 0
  · have hn : file.content = [] := List.length_eq_zero_iff.mp hz
    simp [hn, complete, pieces, keepLast, size]
  · obtain ⟨start, new, he, hs, ht, hn⟩ := @readBack_eq file.content chunkBytes limit hc
      file.content.length file.content.length (Nat.le_refl _) []
    rw [List.take_length, List.append_nil] at *
    have ha : (file.content.take start).length = start := List.length_take_of_le hs
    have hkeep := @keepLast_seen limit hl (file.content.take start) new (by rwa [ha])
    rw [ht, ha] at hkeep
    simp only [hz, if_false, he, Option.map_some, tailFromBuffer_eq]
    split
    · rename_i hnone
      have hcount := @complete_length _ _ newline new
      rw [hnone] at hcount
      have hstart : start = 0 := hn.resolve_right (by rw [← hcount]; simp)
      rw [← hkeep, hnone, hstart]
      simp [keepLast, size]
    · rw [hkeep]

/-- The page `read_lines_before` returns at the start of a line. -/
theorem readLinesBefore_eq (hc : 0 < chunkBytes) (hl : 0 < limit) {file : LogFile} {offset : Nat}
    (ho : offset ≤ file.content.length) (hr : rest newline (file.content.take offset) = []) :
    readLinesBefore chunkBytes offset limit file =
      some (keepLast limit (complete newline (file.content.take offset)) 0) := by
  unfold readLinesBefore
  by_cases hz : offset = 0
  · simp [hz, complete, pieces, keepLast, size]
  · obtain ⟨start, new, he, hs, ht, hn⟩ := @readBack_eq file.content chunkBytes limit hc
      offset offset (Nat.le_refl _) []
    rw [List.append_nil] at *
    have ha : (file.content.take start).length = start :=
      List.length_take_of_le (Nat.le_trans hs ho)
    have hkeep := @keepLast_seen limit hl (file.content.take start) new (by rwa [ha])
    rw [ht, ha] at hkeep
    have hrest : rest newline new = [] := rest_of_append (by rw [ht]; exact hr)
    have hpos : ¬ (offset : Int) ≤ 0 := by omega
    rw [if_neg hpos]
    simp [he, split, hrest, hkeep]

end
end BackendTemplates.Logs
