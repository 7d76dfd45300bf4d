import BackendTemplates.Library.Runs
import BackendTemplates.Logs.LogViewer
import Mathlib.Data.Finset.Basic

namespace BackendTemplates.Logs.TailUi
open Runs

/-- An entry as the server sends it, and where its line stands in the log file. -/
structure Row where
  position : Nat
  entry : LogEntrySchema
  deriving DecidableEq

/-- `entryKey`. -/
def Row.key (r : Row) : String :=
  r.entry.timestamp ++ "|" ++ r.entry.logger ++ "|" ++ r.entry.event

/-- `LogPageResponseSchema`. -/
structure LogPage where
  entries : List Row
  cursor : Option String

/-- A row with the `_uid` the viewer has given it. -/
structure Loaded where
  uid : Nat
  row : Row
  deriving DecidableEq

/-- What `state` in `tail.js` holds of the loaded rows. -/
structure Viewer where
  entries : List Loaded
  seenKeys : Finset String
  oldestCursor : Option String
  uidSeq : Nat
  historyExhausted : Bool

def maxRows : Nat := 2000

namespace Viewer

def initial : Viewer := ⟨[], ∅, none, 0, false⟩

def rows (v : Viewer) : List Row := v.entries.map Loaded.row

/-- The body of the loops over a page. -/
def load (v : Viewer) (r : Row) : Viewer :=
  if r.key ∈ v.seenKeys then v
  else { v with
    seenKeys := insert r.key v.seenKeys
    uidSeq := v.uidSeq + 1
    entries := v.entries ++ [⟨v.uidSeq + 1, r⟩] }

/-- `fetchTail`. There is no page when the response is not ok. -/
def fetchTail (v : Viewer) : Option LogPage → Viewer
  | none => v
  | some data =>
    let cleared := { v with entries := [], seenKeys := ∅, historyExhausted := false }
    { data.entries.reverse.foldl load cleared with oldestCursor := data.cursor }

/-- `fetchOlder`. The page is oldest first and goes to the bottom as it is. -/
def fetchOlder (v : Viewer) : Option LogPage → Viewer
  | none => v
  | some data =>
    if v.oldestCursor = none then v
    else
      let loaded := data.entries.foldl load v
      { loaded with
        historyExhausted := loaded.historyExhausted || data.cursor.isNone ||
          loaded.entries.length == v.entries.length
        oldestCursor := data.cursor }

/-- `appendLiveEntry`. -/
def appendLiveEntry (v : Viewer) (r : Row) : Viewer :=
  if r.key ∈ v.seenKeys then v
  else
    let entries := ⟨v.uidSeq + 1, r⟩ :: v.entries
    let seenKeys := insert r.key v.seenKeys
    if maxRows < entries.length then
      { v with
        uidSeq := v.uidSeq + 1
        entries := entries.take maxRows
        seenKeys := (entries.drop maxRows).foldl (fun keys e => keys.erase e.row.key) seenKeys }
    else { v with uidSeq := v.uidSeq + 1, entries := entries, seenKeys := seenKeys }

end Viewer

inductive Act where
  | fetchTail (response : Option LogPage)
  | fetchOlder (response : Option LogPage)
  | appendLiveEntry (r : Row)

def Act.apply (v : Viewer) : Act → Viewer
  | .fetchTail response => v.fetchTail response
  | .fetchOlder response => v.fetchOlder response
  | .appendLiveEntry r => v.appendLiveEntry r

def OldestFirst (page : List Row) : Prop := page.Pairwise (fun r r' => r.position < r'.position)

instance (page : List Row) : Decidable (OldestFirst page) :=
  inferInstanceAs (Decidable (List.Pairwise _ _))

/-- What the API promises: pages are oldest first, an older page lies before the rows it is
loaded under, and a live entry is newer than all of them. -/
def Promised (v : Viewer) : Act → Prop
  | .fetchTail none => True
  | .fetchTail (some data) => OldestFirst data.entries
  | .fetchOlder none => True
  | .fetchOlder (some data) => OldestFirst data.entries ∧
      ∀ r ∈ data.entries, ∀ r' ∈ v.rows, r.position < r'.position
  | .appendLiveEntry r => ∀ r' ∈ v.rows, r'.position < r.position

instance (v : Viewer) (a : Act) : Decidable (Promised v a) := by
  unfold Promised
  split <;> infer_instance

def machine : Machine Viewer Act where
  start := .initial
  step v a := if Promised v a then some (a.apply v) else none

/-- No two rows have the same key, and the keys seen are those of the rows. -/
structure Keyed (v : Viewer) : Prop where
  unique : (v.rows.map Row.key).Nodup
  seen : ∀ key, key ∈ v.seenKeys ↔ key ∈ v.rows.map Row.key

def NewestFirst (v : Viewer) : Prop := v.rows.Pairwise (fun r r' => r'.position < r.position)

/-- An older page brings rows of one new key at most. -/
def BringsOneRow (v : Viewer) : Act → Prop
  | .fetchOlder (some data) => v.oldestCursor ≠ none →
      ∀ r ∈ data.entries, ∀ r' ∈ data.entries, r.key ∉ v.seenKeys → r'.key ∉ v.seenKeys →
        r.key = r'.key
  | _ => True

instance (v : Viewer) (a : Act) : Decidable (BringsOneRow v a) := by
  unfold BringsOneRow
  split <;> infer_instance

/-- The rows of a page whose keys have not been seen before, the first one of each key. -/
def fresh : Finset String → List Row → List Row
  | _, [] => []
  | seen, r :: page =>
    if r.key ∈ seen then fresh seen page else r :: fresh (insert r.key seen) page

section
variable {v : Viewer} {seen : Finset String} {page : List Row}

theorem fresh_sublist : (fresh seen page).Sublist page := by
  induction page generalizing seen with
  | nil => exact List.Sublist.slnil
  | cons r page ih =>
    simp only [fresh]
    split
    · exact ih.cons r
    · exact ih.cons_cons r

theorem mem_keys_fresh {key : String} :
    key ∈ (fresh seen page).map Row.key ↔ key ∉ seen ∧ key ∈ page.map Row.key := by
  induction page generalizing seen with
  | nil => simp [fresh]
  | cons r page ih =>
    simp only [fresh]
    split
    · rename_i hr
      rw [ih, List.map_cons, List.mem_cons]
      constructor
      · intro h
        exact ⟨h.1, .inr h.2⟩
      · intro h
        obtain ⟨hk, rfl | hp⟩ := h
        · exact absurd hr hk
        · exact ⟨hk, hp⟩
    · rename_i hr
      rw [List.map_cons, List.mem_cons, ih, Finset.mem_insert, List.map_cons, List.mem_cons]
      by_cases he : key = r.key
      · subst he
        simp [hr]
      · simp [he]

theorem fresh_keys_nodup : ((fresh seen page).map Row.key).Nodup := by
  induction page generalizing seen with
  | nil => exact List.nodup_nil
  | cons r page ih =>
    simp only [fresh]
    split
    · exact ih
    · rw [List.map_cons, List.nodup_cons, mem_keys_fresh]
      exact ⟨fun h => h.1 (Finset.mem_insert_self _ _), ih⟩

theorem load_rows (page : List Row) :
    (page.foldl Viewer.load v).rows = v.rows ++ fresh v.seenKeys page := by
  induction page generalizing v with
  | nil => simp [fresh]
  | cons r page ih =>
    rw [List.foldl_cons, ih]
    simp only [Viewer.load, fresh]
    split
    · rfl
    · simp [Viewer.rows]

theorem mem_load_seenKeys (page : List Row) (key : String) :
    key ∈ (page.foldl Viewer.load v).seenKeys ↔
      key ∈ v.seenKeys ∨ key ∈ (fresh v.seenKeys page).map Row.key := by
  induction page generalizing v with
  | nil => simp [fresh]
  | cons r page ih =>
    rw [List.foldl_cons, ih]
    simp only [Viewer.load, fresh]
    split
    · rfl
    · rw [Finset.mem_insert, List.map_cons, List.mem_cons, or_left_comm, or_assoc]

theorem Keyed.load (h : Keyed v) (page : List Row) : Keyed (page.foldl Viewer.load v) where
  unique := by
    rw [load_rows, List.map_append]
    apply List.nodup_append.mpr
    refine ⟨h.unique, fresh_keys_nodup, ?_⟩
    rintro key hk _ hf rfl
    exact (mem_keys_fresh.mp hf).1 ((h.seen key).mpr hk)
  seen key := by
    rw [load_rows, List.map_append, List.mem_append, mem_load_seenKeys, h.seen]

theorem rows_fetchTail (data : LogPage) :
    (v.fetchTail (some data)).rows = fresh ∅ data.entries.reverse :=
  load_rows data.entries.reverse

theorem rows_fetchOlder (data : LogPage) :
    (v.fetchOlder (some data)).rows =
      if v.oldestCursor = none then v.rows else v.rows ++ fresh v.seenKeys data.entries := by
  simp only [Viewer.fetchOlder]
  split
  · rfl
  · exact load_rows data.entries

theorem rows_appendLiveEntry (r : Row) :
    (v.appendLiveEntry r).rows =
      if r.key ∈ v.seenKeys then v.rows else (r :: v.rows).take maxRows := by
  simp only [Viewer.appendLiveEntry]
  split
  · rfl
  · split
    · simp [Viewer.rows, List.map_take]
    · rename_i h
      rw [List.take_of_length_le (by simpa [Viewer.rows] using h)]
      rfl

theorem mem_foldl_erase (dropped : List Loaded) (keys : Finset String) (key : String) :
    key ∈ dropped.foldl (fun keys e => keys.erase e.row.key) keys ↔
      key ∈ keys ∧ key ∉ dropped.map (fun e => e.row.key) := by
  induction dropped generalizing keys with
  | nil => simp
  | cons e dropped ih =>
    rw [List.foldl_cons, ih, Finset.mem_erase, List.map_cons, List.mem_cons, not_or]
    constructor
    · intro h
      obtain ⟨⟨he, hk⟩, hd⟩ := h
      exact ⟨hk, he, hd⟩
    · intro h
      obtain ⟨hk, he, hd⟩ := h
      exact ⟨⟨he, hk⟩, hd⟩

/-- The rows cut off take their keys with them, because no row kept has one of these. -/
theorem Keyed.cut {entries : List Loaded} {keys : Finset String}
    (unique : (entries.map (fun e => e.row.key)).Nodup)
    (seen : ∀ key, key ∈ keys ↔ key ∈ entries.map (fun e => e.row.key)) (n : Nat) (key : String) :
    key ∈ (entries.drop n).foldl (fun keys e => keys.erase e.row.key) keys ↔
      key ∈ (entries.take n).map (fun e => e.row.key) := by
  rw [mem_foldl_erase, seen]
  rw [← List.take_append_drop n entries, List.map_append] at unique
  conv_lhs => rw [← List.take_append_drop n entries, List.map_append, List.mem_append]
  have apart := (List.nodup_append.mp unique).2.2
  rw [List.take_append_drop]
  constructor
  · intro h
    exact h.1.resolve_right h.2
  · intro h
    exact ⟨.inl h, fun hd => apart key h key hd rfl⟩

theorem Keyed.appendLiveEntry (h : Keyed v) (r : Row) : Keyed (v.appendLiveEntry r) := by
  by_cases hr : r.key ∈ v.seenKeys
  · have hv : v.appendLiveEntry r = v := if_pos hr
    rwa [hv]
  · have hnew : r.key ∉ v.rows.map Row.key := fun hx => hr ((h.seen r.key).mpr hx)
    have hunique : ((r :: v.rows).map Row.key).Nodup := List.nodup_cons.mpr ⟨hnew, h.unique⟩
    have hseen (key : String) :
        key ∈ insert r.key v.seenKeys ↔ key ∈ (r :: v.rows).map Row.key := by
      rw [Finset.mem_insert, h.seen, List.map_cons, List.mem_cons]
    constructor
    · rw [rows_appendLiveEntry, if_neg hr, List.map_take]
      exact hunique.sublist (List.take_sublist _ _)
    · intro key
      rw [rows_appendLiveEntry, if_neg hr]
      simp only [Viewer.appendLiveEntry, if_neg hr]
      split
      · have hkeys (entries : List Loaded) :
            entries.map (fun e => e.row.key) = (entries.map Loaded.row).map Row.key := by simp
        have hcut := @Keyed.cut (⟨v.uidSeq + 1, r⟩ :: v.entries) (insert r.key v.seenKeys)
          (by rw [hkeys]; exact hunique) (by rw [hkeys]; exact hseen) maxRows key
        rwa [hkeys, List.map_take] at hcut
      · rename_i hlen
        rw [List.take_of_length_le (by simpa [Viewer.rows] using hlen)]
        exact hseen key

theorem Keyed.initial : Keyed .initial where
  unique := List.nodup_nil
  seen key := by simp [Viewer.initial, Viewer.rows]

theorem Keyed.apply (h : Keyed v) (a : Act) : Keyed (a.apply v) := by
  cases a with
  | fetchTail response =>
    cases response with
    | none => exact h
    | some data =>
      have hcleared : Keyed { v with entries := [], seenKeys := ∅, historyExhausted := false } :=
        ⟨List.nodup_nil, fun key => by simp [Viewer.rows]⟩
      have hload := hcleared.load data.entries.reverse
      exact ⟨hload.unique, hload.seen⟩
  | fetchOlder response =>
    cases response with
    | none => exact h
    | some data =>
      have hload := h.load data.entries
      simp only [Act.apply, Viewer.fetchOlder]
      split
      · exact h
      · exact ⟨hload.unique, hload.seen⟩
  | appendLiveEntry r => exact h.appendLiveEntry r

/-- A page brings one row at most exactly when its new rows have one key. -/
theorem fresh_length_le_one_iff : (fresh seen page).length ≤ 1 ↔
    ∀ r ∈ page, ∀ r' ∈ page, r.key ∉ seen → r'.key ∉ seen → r.key = r'.key := by
  have hkeys := @mem_keys_fresh seen page
  constructor
  · intro h r hr r' hr' hs hs'
    have hm := hkeys.mpr ⟨hs, List.mem_map_of_mem hr⟩
    have hm' := hkeys.mpr ⟨hs', List.mem_map_of_mem hr'⟩
    match hf : fresh seen page with
    | [] => simp [hf] at hm
    | [x] =>
      simp only [hf, List.map_cons, List.map_nil, List.mem_singleton] at hm hm'
      rw [hm, hm']
    | _ :: _ :: _ => simp [hf] at h
  · intro h
    match hf : fresh seen page with
    | [] => exact Nat.zero_le 1
    | [x] => exact Nat.le_refl 1
    | x :: y :: rest =>
      have hnodup := @fresh_keys_nodup seen page
      rw [hf] at hkeys hnodup
      obtain ⟨hx, hxp⟩ := hkeys.mp (List.mem_cons_self (a := x.key))
      obtain ⟨hy, hyp⟩ := hkeys.mp (List.mem_cons_of_mem x.key (List.mem_cons_self (a := y.key)))
      obtain ⟨r, hr, her⟩ := List.mem_map.mp hxp
      obtain ⟨r', hr', her'⟩ := List.mem_map.mp hyp
      have he := h r hr r' hr' (her ▸ hx) (her' ▸ hy)
      rw [her, her'] at he
      simp [he] at hnodup

/-- Rows that are oldest first are newest first only if there is one at most. -/
theorem OldestFirst.newestFirst_iff (h : OldestFirst page) :
    page.Pairwise (fun r r' => r'.position < r.position) ↔ page.length ≤ 1 := by
  match page with
  | [] => simp
  | [x] => simp
  | x :: y :: rest =>
    refine iff_of_false ?_ (by simp)
    intro hdesc
    have hup := (List.pairwise_cons.mp h).1 y List.mem_cons_self
    have hdown := (List.pairwise_cons.mp hdesc).1 y List.mem_cons_self
    omega

/-- What an older page does to the order: it keeps it exactly when it brings one row at
most, because the page stands the other way round. -/
theorem newestFirst_fetchOlder_iff {data : LogPage} (h : NewestFirst v)
    (hp : Promised v (.fetchOlder (some data))) :
    NewestFirst (v.fetchOlder (some data)) ↔ BringsOneRow v (.fetchOlder (some data)) := by
  obtain ⟨hold, hbelow⟩ := hp
  have hsub := @fresh_sublist v.seenKeys data.entries
  simp only [NewestFirst, rows_fetchOlder, BringsOneRow]
  split
  · rename_i hc
    simp only [hc, ne_eq, not_true_eq_false, false_imp_iff, iff_true]
    exact h
  · rename_i hc
    rw [imp_iff_right hc, ← fresh_length_le_one_iff, List.pairwise_append]
    have hasc : OldestFirst (fresh v.seenKeys data.entries) := hold.sublist hsub
    rw [hasc.newestFirst_iff]
    constructor
    · intro hx
      exact hx.2.1
    · intro hlen
      refine ⟨h, hlen, ?_⟩
      intro r hr r' hr'
      exact hbelow r' (hsub.subset hr') r hr

theorem newestFirst_apply_iff {a : Act} (h : NewestFirst v) (hp : Promised v a) :
    NewestFirst (a.apply v) ↔ BringsOneRow v a := by
  cases a with
  | fetchTail response =>
    refine iff_of_true ?_ trivial
    cases response with
    | none => exact h
    | some data =>
      have hdesc : data.entries.reverse.Pairwise (fun r r' => r'.position < r.position) :=
        List.pairwise_reverse.mpr hp
      simp only [NewestFirst, Act.apply, rows_fetchTail]
      exact hdesc.sublist fresh_sublist
  | fetchOlder response =>
    cases response with
    | none => exact iff_of_true h trivial
    | some data => exact newestFirst_fetchOlder_iff h hp
  | appendLiveEntry r =>
    refine iff_of_true ?_ trivial
    have hnew : (r :: v.rows).Pairwise (fun r r' => r'.position < r.position) :=
      List.pairwise_cons.mpr ⟨hp, h⟩
    simp only [NewestFirst, Act.apply, rows_appendLiveEntry]
    split
    · exact h
    · exact hnew.sublist (List.take_sublist _ _)

theorem step_eq_some {v' : Viewer} {a : Act} (h : machine.step v a = some v') :
    Promised v a ∧ v' = a.apply v := by
  simp only [machine, Option.ite_none_right_eq_some, Option.some.injEq] at h
  exact ⟨h.1, h.2.symm⟩

theorem Keyed.of_reaches {as : List Act} (h : machine.Reaches as v) : Keyed v := by
  refine h.invariant_of_meets Keyed.initial ?_ (meets_trivial _ _)
  intro s a t hs _ ht
  obtain ⟨_, rfl⟩ := step_eq_some ht
  exact hs.apply a

/-- The rows are unique and newest first after every step, if and only if no older page
brings two new rows. -/
theorem rows_ordered_iff {as : List Act} (h : machine.Reaches as v) :
    (∀ bs t, bs <+: as → machine.Reaches bs t → Keyed t ∧ NewestFirst t) ↔
      machine.Meets BringsOneRow machine.start as := by
  refine h.throughout_iff ⟨Keyed.initial, List.Pairwise.nil⟩ ?_
  intro bs s a t hs hi ht
  obtain ⟨hp, rfl⟩ := step_eq_some ht
  rw [← newestFirst_apply_iff hi.2 hp]
  exact and_iff_right (hi.1.apply a)

end

/-- The row of a plain event. -/
def plainRow (position : Nat) (event : String) : Row :=
  ⟨position, "", "INFO", "", event, none, none, none, none, none, "\x7b\x7d"⟩

/-- Two rows at the tail, one row before them, one live row. -/
def oneRowBack : List Act :=
  [.fetchTail (some ⟨[plainRow 20 "c", plainRow 30 "d"], some "MTo2"⟩),
    .fetchOlder (some ⟨[plainRow 10 "b"], some "MTow"⟩), .appendLiveEntry (plainRow 40 "e")]

theorem one_row_back_stays_ordered : ∃ v, machine.Reaches oneRowBack v ∧
    v.rows.map Row.position = [40, 30, 20, 10] ∧
    ∀ bs t, bs <+: oneRowBack → machine.Reaches bs t → Keyed t ∧ NewestFirst t := by
  have hr : (machine.exec machine.start oneRowBack).map (fun v => v.rows.map Row.position) =
      some [40, 30, 20, 10] := by decide +kernel
  obtain ⟨v, hv, hrows⟩ := Machine.reaches_of_map hr
  exact ⟨v, hv, hrows, (rows_ordered_iff hv).mpr (by decide +kernel)⟩

/-- The older page has two rows. -/
def twoRowsBack : List Act :=
  [.fetchTail (some ⟨[plainRow 30 "c"], some "MTo2"⟩),
    .fetchOlder (some ⟨[plainRow 10 "a", plainRow 20 "b"], some "MTow"⟩)]

theorem two_rows_back_are_out_of_order :
    ¬ ∀ as v, machine.Reaches as v → Keyed v ∧ NewestFirst v := by
  intro hall
  have hr : (machine.exec machine.start twoRowsBack).map (fun v => v.rows.map Row.position) =
      some [30, 10, 20] := by decide +kernel
  obtain ⟨v, hv, hrows⟩ := Machine.reaches_of_map hr
  have hord : (v.rows.map Row.position).Pairwise (fun p q => q < p) :=
    List.pairwise_map.mpr (hall _ v hv).2
  rw [hrows] at hord
  exact absurd hord (by decide)

end BackendTemplates.Logs.TailUi
