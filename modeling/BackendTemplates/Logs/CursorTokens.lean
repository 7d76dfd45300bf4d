import BackendTemplates.Library.Runs
import BackendTemplates.Logs.EndOfHistory
import BackendTemplates.Python.Base64
import BackendTemplates.Python.Integers
import BackendTemplates.Shared.Pagination

namespace BackendTemplates.Logs.Tokens
open Python Runs Scroll Logs.Runtime

/-- A cursor as a client's token states it. -/
structure ClientCursor where
  inode : Int
  offset : Int
  deriving DecidableEq

def encodeCursor (cursor : ClientCursor) : String :=
  String.ofList (Base64.encode (utf8 (String.ofList
    (intText cursor.inode ++ ':' :: intText cursor.offset))))

/-- `base64.urlsafe_b64decode(token.encode("ascii"))`. -/
def decodeAscii (token : String) : Option (List UInt8) :=
  if token.toList.all (·.toNat < 128) then Base64.decode token.toList else none

/-- `none` is the `ValueError` of a malformed token. -/
def decodeCursor (token : String) : Option ClientCursor := do
  let raw ← decodeAscii token
  let text ← decodeStrict raw
  let (inodeStr, offsetStr) ← Shared.splitOnce ':' text.toList
  if inodeStr = [] ∨ offsetStr = [] then none
  else
    let inode ← readInt inodeStr
    let offset ← readInt offsetStr
    some ⟨inode, offset⟩

def ClientCursor.Printable (cursor : ClientCursor) : Prop :=
  Python.Printable cursor.inode ∧ Python.Printable cursor.offset

/-- What `fh.seek` raises: the `ValueError` of a position that does not fit in an `off_t`, and
the `OSError` of one that the file system does not have. -/
inductive SeekError where
  | unfit
  | refused
  deriving DecidableEq

/-- `fh.seek(pos)`, where the last position the file system has is `maxOffset`. -/
def seek (maxOffset pos : Nat) : Except SeekError Unit :=
  if 0x8000000000000000 ≤ pos then .error .unfit
  else if maxOffset < pos then .error .refused
  else .ok ()

/-- The loop of `_read_lines_before` with the seeks that fail; where none does, it is
`readBack`. -/
def seekBack (maxOffset : Nat) (content : List UInt8) (chunkBytes limit : Nat) :
    Nat → Nat → List UInt8 → Option (Except SeekError (List UInt8 × Nat))
  | _, 0, buf => some (.ok (buf, 0))
  | 0, _ + 1, _ => none
  | fuel + 1, pos + 1, buf =>
    let read := min chunkBytes (pos + 1)
    let seekTo := pos + 1 - read
    match seek maxOffset seekTo with
    | .error e => some (.error e)
    | .ok () =>
      let buf := readAt content seekTo (pos + 1 - seekTo) ++ buf
      if limit + 1 ≤ buf.count newline then some (.ok (buf, seekTo))
      else seekBack maxOffset content chunkBytes limit fuel seekTo buf

def seekLinesBefore (maxOffset chunkBytes : Nat) (offset : Int) (limit : Nat) (file : LogFile) :
    Option (Except SeekError (List (List Char) × Nat)) :=
  if offset ≤ 0 then some (.ok ([], 0))
  else (seekBack maxOffset file.content chunkBytes limit offset.toNat offset.toNat []).map
    fun r => r.map fun r =>
      let rawLines := split newline r.1
      let rawLines := if rawLines.getLast? = some [] then rawLines.dropLast else rawLines
      keepLast limit rawLines r.2

/-- `failed` is the error of a row, `raised` that of a seek: a `LogReadError` if the file
system refused it. -/
inductive Response where
  | page (entries : List LogEntrySchema) (cursor : String)
  | badRequest
  | failed (e : Failure)
  | raised (e : SeekError)
  deriving DecidableEq

/-- `api_older` over the file at the path. No file has a negative inode, so such a cursor is
handed back as any foreign one. -/
def apiOlder (rt : Runtime) (maxOffset chunkBytes limit : Nat) (file : LogFile)
    (token : String) : Option Response :=
  match decodeCursor token with
  | none => some .badRequest
  | some cursor =>
    if cursor.inode ≠ file.inode then some (.page [] (encodeCursor cursor))
    else (seekLinesBefore maxOffset chunkBytes cursor.offset limit file).map fun
      | .error e => .raised e
      | .ok r => match rt.toPage (rt.map r.1, ⟨file.inode, r.2⟩) with
        | .error e => .failed e
        | .ok (entries, next) => .page entries (encodeCursor ⟨next.inode, next.offset⟩)

/-- A client that goes on with the cursor it is given, and the file others append to. The
snapshot is the content its first page found. -/
structure Client where
  file : LogFile
  token : String
  snapshot : Option (List UInt8)
  responses : List Response
  deriving DecidableEq

inductive Act where
  | append (bytes : List UInt8)
  | older

def Client.receive (s : Client) (response : Response) : Client :=
  match response with
  | .page _ cursor => { s with
      token := cursor
      snapshot := some (s.snapshot.getD s.file.content)
      responses := s.responses ++ [response] }
  | _ => { s with responses := s.responses ++ [response] }

def step (rt : Runtime) (maxOffset chunkBytes limit : Nat) (s : Client) : Act → Option Client
  | .append bytes => some { s with file := s.file.append bytes }
  | .older => (apiOlder rt maxOffset chunkBytes limit s.file s.token).map s.receive

def machine (rt : Runtime) (maxOffset chunkBytes limit : Nat) (file : LogFile)
    (token : String) : Machine Client Act where
  start := ⟨file, token, none, []⟩
  step := step rt maxOffset chunkBytes limit

/-- The first seek of a page before an offset, which goes farthest. -/
def firstSeek (maxOffset chunkBytes : Nat) (offset : Int) : Except SeekError Unit :=
  seek maxOffset (offset.toNat - chunkBytes)

/-- The pages, the last one first: the one with the oldest rows. -/
def Client.pages (s : Client) : List (List LogEntrySchema) :=
  (s.responses.filterMap fun
    | .page entries _ => some entries
    | _ => none).reverse

section
variable {rt : Runtime} {maxOffset chunkBytes limit : Nat}

theorem seek_mono {pos pos' : Nat} (hle : pos' ≤ pos) (h : seek maxOffset pos = .ok ()) :
    seek maxOffset pos' = .ok () := by
  unfold seek at h ⊢
  split at h
  · cases h
  · split at h
    · cases h
    · rw [if_neg (by omega), if_neg (by omega)]

theorem firstSeek_mono {offset offset' : Int} (hle : offset'.toNat ≤ offset.toNat)
    (h : firstSeek maxOffset chunkBytes offset = .ok ()) :
    firstSeek maxOffset chunkBytes offset' = .ok () :=
  seek_mono (Nat.sub_le_sub_right hle chunkBytes) h

/-- When the first seek succeeds, those after it do. -/
theorem seekBack_ok {content : List UInt8} {fuel pos : Nat} {buf : List UInt8}
    (h : seek maxOffset (pos - chunkBytes) = .ok ()) :
    seekBack maxOffset content chunkBytes limit fuel pos buf =
      (readBack content chunkBytes limit fuel pos buf).map .ok := by
  induction fuel generalizing pos buf with
  | zero => cases pos <;> rfl
  | succ fuel ih =>
    cases pos with
    | zero => rfl
    | succ pos =>
      have hfirst : pos + 1 - min chunkBytes (pos + 1) = pos + 1 - chunkBytes := by omega
      simp only [seekBack, readBack, hfirst, h]
      split
      · rfl
      · exact ih (seek_mono (Nat.sub_le _ _) h)

theorem seekBack_error {content : List UInt8} {pos : Nat} {e : SeekError}
    (h : seek maxOffset (pos - chunkBytes) = .error e) :
    seekBack maxOffset content chunkBytes limit pos pos [] = some (.error e) := by
  cases pos with
  | zero => simp [seek] at h
  | succ pos =>
    have hfirst : pos + 1 - min chunkBytes (pos + 1) = pos + 1 - chunkBytes := by omega
    simp only [seekBack, hfirst, h]

theorem seekLinesBefore_ok {offset : Int} {file : LogFile}
    (h : firstSeek maxOffset chunkBytes offset = .ok ()) :
    seekLinesBefore maxOffset chunkBytes offset limit file =
      (readLinesBefore chunkBytes offset limit file).map .ok := by
  unfold seekLinesBefore readLinesBefore
  split
  · rfl
  · rw [seekBack_ok h, Option.map_map, Option.map_map]
    rfl

theorem seekLinesBefore_error {offset : Int} {file : LogFile} {e : SeekError}
    (h : firstSeek maxOffset chunkBytes offset = .error e) :
    seekLinesBefore maxOffset chunkBytes offset limit file = some (.error e) := by
  have hpos : ¬ offset ≤ 0 := by
    intro hz
    simp [firstSeek, seek, Int.toNat_of_nonpos hz] at h
  rw [seekLinesBefore, if_neg hpos, seekBack_error h]
  rfl

theorem colon_not_mem_intText (n : Int) : ':' ∉ intText n := by
  have hdigits : ':' ∉ Nat.toDigits 10 n.natAbs := fun hm =>
    absurd (Nat.isDigit_of_mem_toDigits (by decide) (by decide) hm) (by decide)
  unfold intText
  split <;> simp [hdigits]

theorem intText_ne_nil (n : Int) : intText n ≠ [] := by
  unfold intText
  split
  · exact List.cons_ne_nil _ _
  · exact Nat.toDigits_ne_nil

/-- A token that was handed out decodes to its cursor. -/
theorem decodeCursor_encodeCursor {cursor : ClientCursor} (h : cursor.Printable) :
    decodeCursor (encodeCursor cursor) = some cursor := by
  have hascii : (encodeCursor cursor).toList.all (·.toNat < 128) = true := by
    simpa [encodeCursor] using Base64.encode_ascii _
  have hsplit := @Shared.splitOnce_append ':' _ (intText cursor.offset)
    (colon_not_mem_intText cursor.inode)
  have hread : decodeAscii (encodeCursor cursor) = some (utf8 (String.ofList
      (intText cursor.inode ++ ':' :: intText cursor.offset))) := by
    rw [decodeAscii, if_pos hascii, encodeCursor, String.toList_ofList, Base64.decode_encode]
  simp only [decodeCursor, hread, decodeStrict_utf8, String.toList_ofList, hsplit,
    intText_ne_nil, or_self, if_false, readInt_intText h.1, readInt_intText h.2,
    Option.bind_eq_bind, Option.bind_some]

/-- What a token decodes to can be handed out. -/
theorem printable_of_decodeCursor {token : String} {cursor : ClientCursor}
    (h : decodeCursor token = some cursor) : cursor.Printable := by
  obtain ⟨raw, -, h⟩ := Option.bind_eq_some_iff.mp h
  obtain ⟨text, -, h⟩ := Option.bind_eq_some_iff.mp h
  obtain ⟨⟨inodeStr, offsetStr⟩, -, h⟩ := Option.bind_eq_some_iff.mp h
  simp only at h
  split at h
  · cases h
  · obtain ⟨inode, hinode, h⟩ := Option.bind_eq_some_iff.mp h
    obtain ⟨offset, hoffset, h⟩ := Option.bind_eq_some_iff.mp h
    cases h
    exact ⟨printable_of_readInt hinode, printable_of_readInt hoffset⟩

/-- A torn first line in the buffer is never kept, also where a torn last one is. -/
theorem keepLast_segments (hl : 0 < limit) {a b : List UInt8}
    (h : a.length = 0 ∨ limit + 1 ≤ b.count newline) :
    keepLast limit (segments newline b) a.length =
      keepLast limit (segments newline (a ++ b)) 0 := by
  rcases h with h | h
  · obtain rfl : a = [] := List.length_eq_zero_iff.mp h
    rfl
  · rw [← complete_length] at h
    have hne : complete newline b ≠ [] := List.length_pos_iff.mp (by omega)
    obtain ⟨torn, ht, hb, hab⟩ := segments_append a hne
    obtain ⟨k, hk⟩ := Nat.exists_eq_add_of_le (show 1 ≤
      (complete newline b).length + torn.length - limit by omega)
    have hkb : k + 1 ≤ (complete newline b).length := by omega
    have hlen := @complete_length_append _ _ newline a b
    have hcount : (complete newline (a ++ b)).length + torn.length - limit =
        (complete newline a).length + (k + 1) := by omega
    have hkab : (complete newline a).length + (k + 1) ≤ (complete newline (a ++ b)).length := by
      omega
    rw [keepLast_eq hl, keepLast_eq hl, hb, hab, List.length_append, List.length_append, hcount,
      hk, Nat.add_comm 1 k, List.drop_append_of_le_length hkb, List.drop_append_of_le_length hkab,
      List.take_append_of_le_length hkb, List.take_append_of_le_length hkab,
      complete_drop a b (Nat.le_add_left 1 k), size_take a b (Nat.le_add_left 1 k) hkb,
      Nat.zero_add]

/-- The page `read_lines_before` returns at any offset, inside a line or behind the end too. -/
theorem readLinesBefore_segments (hc : 0 < chunkBytes) (hl : 0 < limit) (file : LogFile)
    (offset : Int) : readLinesBefore chunkBytes offset limit file =
      some (keepLast limit (segments newline (file.content.take offset.toNat)) 0) := by
  unfold readLinesBefore
  by_cases hz : offset ≤ 0
  · rw [if_pos hz, Int.toNat_of_nonpos hz]
    simp [segments, rest, complete, pieces, keepLast, size]
  · obtain ⟨start, new, he, hs, ht, hn⟩ := @readBack_eq file.content chunkBytes limit hc
      offset.toNat offset.toNat (Nat.le_refl _) []
    rw [List.append_nil] at *
    have hlen : (file.content.take start).length = start := by
      rcases hn with hn | hn
      · simp [hn]
      · have hnew : 0 < new.length := by
          have hcount := List.count_le_length (a := newline) (l := new)
          omega
        have hboth := congrArg List.length ht
        simp only [List.length_append, List.length_take] at hboth ⊢
        omega
    have hkeep := @keepLast_segments limit hl (file.content.take start) new (by rwa [hlen])
    rw [ht, hlen] at hkeep
    simp only [hz, if_false, he, Option.map_some, split_segments, hkeep]

/-- The segments before the offset of a token. -/
def before (content : List UInt8) (offset : Int) : List (List UInt8) :=
  segments newline (content.take offset.toNat)

/-- How many of some lines stand before a number of full pages at their end. -/
def left (limit : Nat) (lines : List (List UInt8)) (pages : Nat) : Nat :=
  lines.length - limit * pages

/-- Behind the last page the walk stands at a line, and all segments before it are whole. -/
theorem stands {content snap : List UInt8} (hp : snap <+: content) (offset : Int) {k : Nat}
    (hk : k ≤ (before snap offset).length - 1) :
    AtLine content (size ((before snap offset).take k)) ∧
      size ((before snap offset).take k) ≤ offset.toNat ∧
      before content (size ((before snap offset).take k) : Nat) = (before snap offset).take k := by
  have hsegments := @segments_length_le _ _ newline (snap.take offset.toNat)
  have htake : (before snap offset).take k =
      (complete newline (snap.take offset.toNat)).take k :=
    segments_take (by rw [before] at hk; omega)
  rw [htake]
  generalize hs : (complete newline (snap.take offset.toNat)).take k = lines
  have hbound : boundary (snap.take offset.toNat) k = size lines := by rw [boundary, hs]
  have hplain : ∀ line ∈ lines, newline ∉ line := by
    intro line hline
    rw [← hs] at hline
    exact sep_not_mem_complete (List.mem_of_mem_take hline)
  have hle : size lines ≤ (snap.take offset.toNat).length := hbound ▸ boundary_le k
  have htext : content.take (size lines) = terminate newline lines := by
    have hcut := (@take_boundary (snap.take offset.toNat) k).1
    rw [hbound, hs] at hcut
    obtain ⟨more, hmore⟩ := (List.take_prefix offset.toNat snap).trans hp
    rw [← hmore, List.take_append_of_le_length hle, hcut]
  have hlen := hp.length_le
  rw [List.length_take] at hle
  refine ⟨⟨by omega, ?_⟩, by omega, ?_⟩
  · have hpieces := pieces_terminate hplain (@List.not_mem_nil _ newline)
    rw [List.append_nil] at hpieces
    rw [htext]
    exact congrArg Prod.snd hpieces
  · rw [before, Int.toNat_natCast, htext, segments_terminate hplain]

/-- A token that is no cursor, a cursor of another file, and one that the file system
cannot reach. -/
theorem apiOlder_malformed {file : LogFile} {token : String} (h : decodeCursor token = none) :
    apiOlder rt maxOffset chunkBytes limit file token = some .badRequest := by
  simp [apiOlder, h]

theorem apiOlder_foreign {file : LogFile} {token : String} {cursor : ClientCursor}
    (h : decodeCursor token = some cursor) (hne : cursor.inode ≠ file.inode) :
    apiOlder rt maxOffset chunkBytes limit file token =
      some (.page [] (encodeCursor cursor)) := by
  simp [apiOlder, h, hne]

theorem apiOlder_raised {file : LogFile} {token : String} {cursor : ClientCursor} {e : SeekError}
    (h : decodeCursor token = some cursor) (hsame : cursor.inode = file.inode)
    (hseek : firstSeek maxOffset chunkBytes cursor.offset = .error e) :
    apiOlder rt maxOffset chunkBytes limit file token = some (.raised e) := by
  simp [apiOlder, h, hsame, seekLinesBefore_error hseek]

/-- The answer to a cursor of the file: its page, or the failure of a row. -/
theorem apiOlder_page (hc : 0 < chunkBytes) (hl : 0 < limit) {file : LogFile} {token : String}
    {offset : Int} (h : decodeCursor token = some ⟨file.inode, offset⟩)
    (hseek : firstSeek maxOffset chunkBytes offset = .ok ()) :
    (∃ e, apiOlder rt maxOffset chunkBytes limit file token = some (.failed e)) ∨
      ∃ rows, Rows rt (((before file.content offset).drop
          (left limit (before file.content offset) 1)).map lineText) rows ∧
        apiOlder rt maxOffset chunkBytes limit file token = some (.page rows (encodeCursor
          ⟨file.inode, size ((before file.content offset).take
            (left limit (before file.content offset) 1))⟩)) := by
  have hsame : ¬ (file.inode : Int) ≠ file.inode := fun hne => hne rfl
  have hread := readLinesBefore_segments hc hl file offset
  rw [keepLast_eq hl, Nat.zero_add] at hread
  simp only [apiOlder, h, hsame, if_false, seekLinesBefore_ok hseek, hread, Option.map_some,
    Runtime.toPage, left, Nat.mul_one, before]
  cases hrows : (rt.map ((List.drop ((segments newline (file.content.take offset.toNat)).length -
      limit) (segments newline (file.content.take offset.toNat))).map lineText)).mapM
        rt.toEntrySchema with
  | error e => exact .inl ⟨e, rfl⟩
  | ok rows => exact .inr ⟨rows, mapM_map_iff.mp hrows, rfl⟩

theorem apiOlder_answers (hc : 0 < chunkBytes) (hl : 0 < limit) {file : LogFile}
    {token : String} : ∃ r, apiOlder rt maxOffset chunkBytes limit file token = some r := by
  cases hd : decodeCursor token with
  | none => exact ⟨_, apiOlder_malformed hd⟩
  | some cursor =>
    obtain ⟨inode, offset⟩ := cursor
    by_cases hne : inode = file.inode
    · subst hne
      cases hseek : firstSeek maxOffset chunkBytes offset with
      | error e => exact ⟨_, apiOlder_raised hd rfl hseek⟩
      | ok =>
        rcases @apiOlder_page rt maxOffset chunkBytes limit hc hl _ _ _ hd hseek with
          ⟨e, he⟩ | ⟨rows, -, he⟩
        · exact ⟨_, he⟩
        · exact ⟨_, he⟩
    · exact ⟨_, apiOlder_foreign hd hne⟩

/-- Where a walk from an offset of the file stands. -/
structure Walked (rt : Runtime) (limit inode : Nat) (offset : Int) (s : Client) : Prop where
  same : s.file.inode = inode
  accepted : ∀ r ∈ s.responses, r ≠ .badRequest ∧ ∀ e, r ≠ .raised e
  unread : s.snapshot = none → s.pages = [] ∧ decodeCursor s.token = some ⟨inode, offset⟩
  walked : ∀ snap, s.snapshot = some snap → snap <+: s.file.content ∧ 0 < s.pages.length ∧
    decodeCursor s.token = some ⟨inode, size ((before snap offset).take
      (left limit (before snap offset) s.pages.length))⟩ ∧
    Rows rt (((before snap offset).drop (left limit (before snap offset) s.pages.length)).map
      lineText) s.pages.flatten

theorem pages_receive (s : Client) (rows : List LogEntrySchema) (cursor : String) :
    (s.receive (.page rows cursor)).pages = rows :: s.pages := by
  simp [Client.pages, Client.receive]

theorem Walked.failed {s : Client} {inode : Nat} {offset : Int}
    (h : Walked rt limit inode offset s) (e : Failure) :
    Walked rt limit inode offset (s.receive (.failed e)) := by
  have hpages : (s.receive (.failed e)).pages = s.pages := by simp [Client.pages, Client.receive]
  refine ⟨h.same, ?_, ?_, ?_⟩
  · intro r hr
    rcases List.mem_append.mp hr with hr | hr
    · exact h.accepted r hr
    · simp [List.mem_singleton.mp hr]
  · rw [hpages]
    exact h.unread
  · rw [hpages]
    exact h.walked

/-- One page more: its rows stand before those read so far. -/
theorem Walked.page {s : Client} {inode : Nat} {offset : Int} {snap : List UInt8}
    (h : Walked rt limit inode offset s) (hl : 0 < limit)
    (printable : ClientCursor.Printable ⟨inode, offset⟩)
    (hs : s.snapshot.getD s.file.content = snap) (hp : snap <+: s.file.content)
    {rows : List LogEntrySchema}
    (hrows : Rows rt (((before snap offset).drop
      (left limit (before snap offset) (s.pages.length + 1))).map lineText)
        (rows ++ s.pages.flatten)) :
    Walked rt limit inode offset (s.receive (.page rows (encodeCursor ⟨inode, size
      ((before snap offset).take (left limit (before snap offset) (s.pages.length + 1)))⟩))) := by
  have hleft : left limit (before snap offset) (s.pages.length + 1) ≤
      (before snap offset).length - 1 := by
    rw [left, Nat.mul_succ]
    omega
  have hwithin := (stands hp offset hleft).2.1
  have hdecode := @decodeCursor_encodeCursor ⟨inode, size ((before snap offset).take
    (left limit (before snap offset) (s.pages.length + 1)))⟩ ⟨printable.1,
      printable.2.smaller (by simp only at hwithin ⊢; omega)⟩
  refine ⟨h.same, ?_, by simp [Client.receive], ?_⟩
  · intro r hr
    rcases List.mem_append.mp hr with hr | hr
    · exact h.accepted r hr
    · simp [List.mem_singleton.mp hr]
  · intro snap' hsnap
    obtain rfl : snap = snap' := by
      simpa [Client.receive, hs] using hsnap
    rw [pages_receive]
    exact ⟨hp, Nat.succ_pos _, hdecode, hrows⟩

theorem Walked.older {s t : Client} {inode : Nat} {offset : Int}
    (h : Walked rt limit inode offset s) (hc : 0 < chunkBytes) (hl : 0 < limit)
    (printable : ClientCursor.Printable ⟨inode, offset⟩)
    (hseek : firstSeek maxOffset chunkBytes offset = .ok ())
    (ht : step rt maxOffset chunkBytes limit s .older = some t) :
    Walked rt limit inode offset t := by
  obtain ⟨response, hresponse, rfl⟩ := Option.map_eq_some_iff.mp ht
  have hinode := h.same
  subst hinode
  cases hsnap : s.snapshot with
  | none =>
    obtain ⟨hpages, htoken⟩ := h.unread hsnap
    rcases @apiOlder_page rt maxOffset chunkBytes limit hc hl _ _ _ htoken hseek with
      ⟨e, he⟩ | ⟨rows, hrows, he⟩
    · cases hresponse.symm.trans he
      exact h.failed e
    · cases hresponse.symm.trans he
      have hone : s.pages.length + 1 = 1 := by simp [hpages]
      have hpage := @Walked.page rt limit s s.file.inode offset s.file.content h hl printable
        (by simp [hsnap]) List.prefix_rfl rows
      rw [hone, hpages, List.flatten_nil, List.append_nil] at hpage
      exact hpage hrows
  | some snap =>
    obtain ⟨hp, hsome, htoken, hread⟩ := h.walked snap hsnap
    generalize hk : left limit (before snap offset) s.pages.length = k at htoken hread
    have hpos : limit ≤ limit * s.pages.length := Nat.le_mul_of_pos_right limit hsome
    have hle : k ≤ (before snap offset).length - 1 := by
      rw [← hk, left]
      omega
    have hnext : left limit (before snap offset) (s.pages.length + 1) = k - limit := by
      rw [← hk, left, left, Nat.mul_succ]
      omega
    obtain ⟨-, hwithin, hbefore⟩ := stands hp offset hle
    have hnear : firstSeek maxOffset chunkBytes (size ((before snap offset).take k) : Nat) =
        .ok () := firstSeek_mono (by rwa [Int.toNat_natCast]) hseek
    have hlen : ((before snap offset).take k).length = k := by
      rw [List.length_take]
      omega
    rcases @apiOlder_page rt maxOffset chunkBytes limit hc hl _ _ _ htoken hnear with
      ⟨e, he⟩ | ⟨rows, hrows, he⟩
    · cases hresponse.symm.trans he
      exact h.failed e
    · rw [hbefore, left, hlen, Nat.mul_one] at hrows he
      have hdrop : ((before snap offset).take k).drop (k - limit) ++ (before snap offset).drop k =
          (before snap offset).drop (k - limit) := by
        conv_rhs => rw [← List.take_append_drop k (before snap offset)]
        rw [List.drop_append_of_le_length (by omega)]
      have hall := hrows.append hread
      rw [← List.map_append, hdrop] at hall
      rw [List.take_take, Nat.min_eq_left (Nat.sub_le k limit)] at he
      cases hresponse.symm.trans he
      have hpage := @Walked.page rt limit s s.file.inode offset snap h hl printable
        (by simp [hsnap]) hp rows
      rw [hnext] at hpage
      exact hpage hall

theorem Walked.append {s : Client} {inode : Nat} {offset : Int}
    (h : Walked rt limit inode offset s) (bytes : List UInt8) :
    Walked rt limit inode offset { s with file := s.file.append bytes } where
  same := h.same
  accepted := h.accepted
  unread := h.unread
  walked snap hsnap := by
    obtain ⟨hp, hrest⟩ := h.walked snap hsnap
    exact ⟨hp.trans (List.prefix_append _ _), hrest⟩

/-- A client that gets one answer, and whose token stays one that gets it. -/
theorem answers_alike {P : String → Prop} {file : LogFile} {token : String} {response : Response}
    (start : P token) (next : ∀ s : Client, P s.token → P (s.receive response).token)
    (answer : ∀ (live : LogFile) (token : String), live.inode = file.inode → P token →
      apiOlder rt maxOffset chunkBytes limit live token = some response)
    {as : List Act} {s : Client}
    (h : (machine rt maxOffset chunkBytes limit file token).Reaches as s) :
    ∀ r ∈ s.responses, r = response := by
  have receive (s : Client) : (s.receive response).file = s.file ∧
      (s.receive response).responses = s.responses ++ [response] := by
    unfold Client.receive
    split <;> exact ⟨rfl, rfl⟩
  have hi : s.file.inode = file.inode ∧ P s.token ∧ ∀ r ∈ s.responses, r = response := by
    refine h.invariant_of_meets (I := fun s => s.file.inode = file.inode ∧ P s.token ∧
      ∀ r ∈ s.responses, r = response) ⟨rfl, start, by simp [machine]⟩ ?_ (meets_trivial _ _)
    intro s a t hi _ ht
    obtain ⟨hinode, htoken, hall⟩ := hi
    cases a with
    | append bytes =>
      cases ht
      exact ⟨hinode, htoken, hall⟩
    | older =>
      obtain ⟨r, hr, rfl⟩ := Option.map_eq_some_iff.mp ht
      obtain rfl := Option.some.inj (hr.symm.trans (answer _ _ hinode htoken))
      obtain ⟨hfile, hresponses⟩ := receive s
      refine ⟨hfile ▸ hinode, next s htoken, ?_⟩
      intro r' hr'
      rw [hresponses] at hr'
      rcases List.mem_append.mp hr' with hr' | hr'
      · exact hall r' hr'
      · exact List.mem_singleton.mp hr'
  exact hi.2.2

/-- Whatever token a client begins with, it is refused, or handed back with nothing, or no seek
reaches it, or it leads line by line back to the start of the file: after each page the cursor
stands at a line, and the pages are the rows of the lines before the offset, a torn one among
them, that stand behind it. -/
theorem any_token_walks_back (hc : 0 < chunkBytes) (hl : 0 < limit) {file : LogFile}
    {token : String} {as : List Act} {s : Client}
    (h : (machine rt maxOffset chunkBytes limit file token).Reaches as s) :
    (∃ t, step rt maxOffset chunkBytes limit s .older = some t) ∧
    (decodeCursor token = none → ∀ r ∈ s.responses, r = .badRequest) ∧
    ∀ cursor, decodeCursor token = some cursor →
      decodeCursor (encodeCursor cursor) = some cursor ∧
      (cursor.inode ≠ file.inode → ∀ r ∈ s.responses, r = .page [] (encodeCursor cursor)) ∧
      (cursor.inode = file.inode →
        match firstSeek maxOffset chunkBytes cursor.offset with
        | .error e => ∀ r ∈ s.responses, r = .raised e
        | .ok () => (∀ r ∈ s.responses, r ≠ .badRequest ∧ ∀ e, r ≠ .raised e) ∧
          ∀ snap, s.snapshot = some snap →
            let lines := before snap cursor.offset
            let k := left limit lines s.pages.length
            snap <+: s.file.content ∧ AtLine s.file.content (size (lines.take k)) ∧
            decodeCursor s.token = some ⟨file.inode, size (lines.take k)⟩ ∧
            Rows rt ((lines.drop k).map lineText) s.pages.flatten) := by
  refine ⟨?_, ?_, ?_⟩
  · obtain ⟨r, hr⟩ := @apiOlder_answers rt maxOffset chunkBytes limit hc hl s.file s.token
    exact ⟨s.receive r, by simp [step, hr]⟩
  · intro hnone
    exact answers_alike hnone (fun _ hs => hs) (fun _ _ _ hs => apiOlder_malformed hs) h
  · intro cursor hcursor
    have printable := printable_of_decodeCursor hcursor
    have hback := decodeCursor_encodeCursor printable
    refine ⟨hback, ?_, ?_⟩
    · intro hforeign
      exact answers_alike hcursor (fun _ _ => hback)
        (fun _ _ hlive hs => apiOlder_foreign hs (hlive ▸ hforeign)) h
    · intro hsame
      cases hseek : firstSeek maxOffset chunkBytes cursor.offset with
      | error e =>
        exact answers_alike hcursor (fun _ hs => hs)
          (fun _ _ hlive hs => apiOlder_raised hs (hsame.trans (congrArg _ hlive.symm)) hseek) h
      | ok =>
        obtain ⟨inode, offset⟩ := cursor
        simp only at hsame hseek
        subst hsame
        have start : Walked rt limit file.inode offset
            (machine rt maxOffset chunkBytes limit file token).start :=
          ⟨rfl, by simp [machine], fun _ => ⟨rfl, hcursor⟩, by simp [machine]⟩
        have hwalked : Walked rt limit file.inode offset s := by
          refine h.invariant_of_meets start ?_ (meets_trivial _ _)
          intro s a t hs _ ht
          cases a with
          | append bytes =>
            cases ht
            exact hs.append bytes
          | older => exact hs.older hc hl printable hseek ht
        refine ⟨hwalked.accepted, ?_⟩
        intro snap hsnap
        obtain ⟨hp, hsome, htoken, hrows⟩ := hwalked.walked snap hsnap
        have hpos : limit ≤ limit * s.pages.length := Nat.le_mul_of_pos_right limit hsome
        have hle : left limit (before snap offset) s.pages.length ≤
            (before snap offset).length - 1 := by
          rw [left]
          omega
        exact ⟨hp, (stands hp offset hle).1, htoken, hrows⟩

end

/-- Two records, and the token of an offset inside the second. -/
def twoRecords : LogFile := ⟨7, [0x7b, 0x7d, 10, 0x7b, 0x7d, 10]⟩

def insideSecond : String := encodeCursor ⟨7, 4⟩

/-- The first page has the torn record alone, which is malformed, the second one the record
before it, and then nothing is left. -/
theorem inside_token_walks_back : ∃ s,
    (machine (knowing "\x7b\x7d" []) 100 2 1 twoRecords insideSecond).Reaches
      [.older, .append [10], .older] s ∧ s.pages.map List.length = [1, 0] ∧
      decodeCursor s.token = some ⟨7, 0⟩ ∧
      Rows (knowing "\x7b\x7d" []) [['{', '}'], ['{']] s.pages.flatten := by
  have hr : ((machine (knowing "\x7b\x7d" []) 100 2 1 twoRecords insideSecond).exec
      (machine (knowing "\x7b\x7d" []) 100 2 1 twoRecords insideSecond).start
      [.older, .append [10], .older]).map (fun s => (s.snapshot, s.pages.map List.length)) =
      some (some twoRecords.content, [1, 0]) := by decide +kernel
  obtain ⟨s, hs, he⟩ := Machine.reaches_of_map hr
  obtain ⟨hsnap, hpages⟩ := Prod.mk.inj he
  have hcursor : decodeCursor insideSecond = some ⟨7, 4⟩ := by decide +kernel
  have hlines : before twoRecords.content 4 = [[0x7b, 0x7d], [0x7b]] := by decide +kernel
  have hwalk := (any_token_walks_back (by decide) (by decide) hs).2.2 _ hcursor
  have hseek : firstSeek 100 2 4 = .ok () := by decide
  have hpages' := hwalk.2.2 rfl
  rw [hseek] at hpages'
  obtain ⟨-, -, htoken, hrows⟩ := hpages'.2 _ hsnap
  have hcount : s.pages.length = 2 := by simpa using congrArg List.length hpages
  rw [hlines, hcount] at htoken hrows
  exact ⟨s, hs, hpages, htoken, hrows⟩

/-- The token of `7:9223372036854841344`. -/
example : apiOlder (knowing "\x7b\x7d" []) 0x7fffffffffffffff defaultChunk 1 twoRecords
    "Nzo5MjIzMzcyMDM2ODU0ODQxMzQ0" = some (.raised .unfit) := by decide +kernel

end BackendTemplates.Logs.Tokens
