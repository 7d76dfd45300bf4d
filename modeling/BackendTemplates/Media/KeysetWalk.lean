import BackendTemplates.Library.Keyset
import BackendTemplates.Library.Runs
import BackendTemplates.Media.Video
import BackendTemplates.Shared.Pagination
import Mathlib.Data.Prod.Lex
import Mathlib.Data.List.Lex

namespace BackendTemplates.Media
open Python Runs Shared

/-- The table `videos`. Its primary key is the id. -/
structure Table where
  rows : List (Uuid × VideoRow)
  distinct : (rows.map Prod.fst).Nodup

namespace Table

def update (t : Table) (id : Uuid) (f : VideoRow → VideoRow) : Table where
  rows := t.rows.map (fun r => if r.1 = id then (r.1, f r.2) else r)
  distinct := by
    have hids : (t.rows.map (fun r => if r.1 = id then (r.1, f r.2) else r)).map Prod.fst =
        t.rows.map Prod.fst := by
      rw [List.map_map]
      apply List.map_congr_left
      intro r _
      simp only [Function.comp_apply]
      split <;> rfl
    rw [hids]
    exact t.distinct

def insert (t : Table) (id : Uuid) (row : VideoRow) (h : id ∉ t.rows.map Prod.fst) : Table where
  rows := t.rows ++ [(id, row)]
  distinct := by
    rw [List.map_append, List.nodup_append]
    refine ⟨t.distinct, by simp, ?_⟩
    intro a ha b hb
    obtain rfl : b = id := by simpa using hb
    exact fun he => h (he ▸ ha)

/-- `save`: the upsert on the id. -/
def save (t : Table) (video : Video) : Table :=
  if h : video.id ∈ t.rows.map Prod.fst then
    t.update video.id (fun row => VideoRow.save video (some row))
  else t.insert video.id (VideoRow.save video none) h

/-- `soft_delete`. -/
def softDelete (t : Table) (id : Uuid) (now : Datetime) : Table :=
  t.update id (fun row => if row.deletedAt = none then { row with deletedAt := some now } else row)

def active (t : Table) : List (Uuid × VideoRow) :=
  t.rows.filter (fun r => r.2.deletedAt.isNone)

end Table

/-- How Postgres compares `(uploaded_at, id)`. -/
abbrev Position := Nat ×ₗ List (Fin 16)

def place (uploadedAt : Datetime) (id : Uuid) : Position := toLex (uploadedAt.instant, id.digits)

def position (r : Uuid × VideoRow) : Position := place r.2.uploadedAt r.1

def Video.position (v : Video) : Position := place v.uploadedAt v.id

/-- `SqlVideoRepo.list_page`. -/
def listPage (t : Table) (after : Option (Datetime × Uuid)) (limit : Nat) : List Video :=
  (Keyset.page position (after.map (fun a => place a.1 a.2)) limit t.active).map
    (fun r => r.2.toDomain r.1)

structure VideoPage where
  items : List Video
  nextCursor : Option String

/-- `MediaFacade.list_page`. `none` is the `IndexError` of an empty page of no rows. -/
def facadeListPage (t : Table) (after : Option (Datetime × Uuid)) (limit : Nat) :
    Option VideoPage :=
  let videos := listPage t after limit
  if videos.length = limit then
    videos.getLast?.map (fun last => ⟨videos, some (encodeCursor last.uploadedAt last.id)⟩)
  else some ⟨videos, none⟩

/-- A client on its walk and the table others write to. `watched` are the videos active
when the first page was read, `inserted` counts the rows new since the start. -/
structure Walk where
  table : Table
  watched : Option (List Uuid)
  cursor : Option String
  pages : List (List Video)
  inserted : Nat

inductive WalkAct where
  | save (video : Video)
  | softDelete (id : Uuid) (now : Datetime)
  | page (limit : Nat)

namespace Walk

def returned (s : Walk) : List Video := s.pages.flatten

/-- The walk is over when a page came back without a cursor. -/
def ended (s : Walk) : Bool := s.watched.isSome && s.cursor.isNone

/-- Read a page after a position and keep its cursor. -/
def read (s : Walk) (after : Option (Datetime × Uuid)) (limit : Nat) (watched : List Uuid) :
    Option Walk :=
  (facadeListPage s.table after limit).map fun p =>
    { s with watched := some watched, cursor := p.nextCursor, pages := s.pages ++ [p.items] }

def step (s : Walk) : WalkAct → Option Walk
  | .save video => some
      { s with
        table := s.table.save video
        inserted := s.inserted + if video.id ∈ s.table.rows.map Prod.fst then 0 else 1 }
  | .softDelete id now => some { s with table := s.table.softDelete id now }
  | .page limit =>
    match s.watched, s.cursor with
    | none, _ => s.read none limit (s.table.active.map Prod.fst)
    | some _, none => none
    | some watched, some token =>
      (decodeCursor token).bind (fun after => s.read (some after) limit watched)

def machine (table : Table) : Machine Walk WalkAct where
  start := ⟨table, none, none, [], 0⟩
  step := step

/-- Each page asks for at least one row. -/
def AsksForRows (_ : Walk) : WalkAct → Prop
  | .page limit => 0 < limit
  | _ => True

instance (s : Walk) (a : WalkAct) : Decidable (AsksForRows s a) := by
  unfold AsksForRows
  split <;> infer_instance

end Walk

/-- No write changes when a video was uploaded, and none brings a deleted one back. -/
structure Table.Evolves (t u : Table) : Prop where
  kept : ∀ r ∈ t.rows, ∃ row, (r.1, row) ∈ u.rows ∧ row.uploadedAt = r.2.uploadedAt
  origin : ∀ r ∈ u.rows, r.1 ∈ t.rows.map Prod.fst → ∃ row, (r.1, row) ∈ t.rows ∧
    row.uploadedAt = r.2.uploadedAt ∧ (r.2.deletedAt = none → row.deletedAt = none)

theorem Table.evolves_update {t : Table} {id : Uuid} {f : VideoRow → VideoRow}
    (hu : ∀ row, (f row).uploadedAt = row.uploadedAt)
    (hd : ∀ row, (f row).deletedAt = none → row.deletedAt = none) : t.Evolves (t.update id f) where
  kept r hr := by
    by_cases he : r.1 = id
    · exact ⟨f r.2, List.mem_map.mpr ⟨r, hr, by simp [he]⟩, hu r.2⟩
    · exact ⟨r.2, List.mem_map.mpr ⟨r, hr, by simp [he]⟩, rfl⟩
  origin r hr _ := by
    obtain ⟨q, hq, he⟩ := List.mem_map.mp hr
    by_cases hid : q.1 = id
    · rw [if_pos hid] at he
      subst he
      exact ⟨q.2, hq, (hu q.2).symm, hd q.2⟩
    · rw [if_neg hid] at he
      subst he
      exact ⟨q.2, hq, rfl, fun h => h⟩

theorem Table.evolves_insert {t : Table} {id : Uuid} {row : VideoRow}
    (h : id ∉ t.rows.map Prod.fst) : t.Evolves (t.insert id row h) where
  kept r hr := ⟨r.2, List.mem_append_left _ hr, rfl⟩
  origin r hr hold := by
    rcases List.mem_append.mp hr with hin | hnew
    · exact ⟨r.2, hin, rfl, fun h => h⟩
    · obtain rfl : r = (id, row) := by simpa using hnew
      exact absurd hold h

theorem Table.evolves_save (t : Table) (video : Video) : t.Evolves (t.save video) := by
  unfold Table.save
  split
  · exact Table.evolves_update (fun _ => rfl) (fun _ h => h)
  · rename_i h
    exact Table.evolves_insert h

theorem Table.evolves_softDelete (t : Table) (id : Uuid) (now : Datetime) :
    t.Evolves (t.softDelete id now) := by
  apply Table.evolves_update
  · intro row
    split <;> rfl
  · intro row h
    split at h
    · assumption
    · exact h

theorem Table.Evolves.refl (t : Table) : t.Evolves t where
  kept r hr := ⟨r.2, hr, rfl⟩
  origin r hr _ := ⟨r.2, hr, rfl, fun h => h⟩

theorem Table.length_save (t : Table) (video : Video) : (t.save video).rows.length =
    t.rows.length + if video.id ∈ t.rows.map Prod.fst then 0 else 1 := by
  unfold Table.save
  split
  · simp [Table.update]
  · simp [Table.insert]

theorem Table.row_unique {t : Table} {id : Uuid} {row row' : VideoRow} (h : (id, row) ∈ t.rows)
    (h' : (id, row') ∈ t.rows) : row = row' := by
  have he := List.inj_on_of_nodup_map t.distinct h h' rfl
  exact (Prod.mk.inj he).2

theorem place_id {ts ts' : Datetime} {id id' : Uuid} (h : place ts id = place ts' id') :
    id = id' := by
  have hd : id.digits = id'.digits := congrArg (fun p => (ofLex p).2) h
  cases id
  cases id'
  simpa using hd

theorem positions_distinct (t : Table) : (t.active.map position).Nodup := by
  have hids := t.distinct.sublist (List.Sublist.map Prod.fst
    (List.filter_sublist (p := fun r => r.2.deletedAt.isNone)))
  rw [List.Nodup, List.pairwise_map] at hids ⊢
  exact hids.imp (fun h he => h (place_id he))

theorem mem_active {t : Table} {r : Uuid × VideoRow} :
    r ∈ t.active ↔ r ∈ t.rows ∧ r.2.deletedAt = none := by
  simp [Table.active]

section
variable {t : Table} {after : Option (Datetime × Uuid)} {limit : Nat}

theorem mem_listPage {v : Video} (h : v ∈ listPage t after limit) :
    ∃ r ∈ t.rows, v = r.2.toDomain r.1 ∧
      Keyset.Below (after.map (fun a => place a.1 a.2)) (position r) := by
  obtain ⟨r, hr, rfl⟩ := List.mem_map.mp h
  obtain ⟨hactive, hbelow⟩ := Keyset.mem_of_mem_page hr
  exact ⟨r, (mem_active.mp hactive).1, rfl, hbelow⟩

theorem listPage_descending :
    (listPage t after limit).Pairwise (fun v w => w.position < v.position) :=
  List.pairwise_map.mpr (Keyset.page_descending (positions_distinct t))

/-- An active video below the cursor is on the page, or the page is full of later ones. -/
theorem listPage_complete {r : Uuid × VideoRow} (hr : r ∈ t.rows) (hd : r.2.deletedAt = none)
    (hb : Keyset.Below (after.map (fun a => place a.1 a.2)) (position r)) :
    (∃ v ∈ listPage t after limit, v.id = r.1) ∨
      (listPage t after limit).length = limit ∧
        ∀ v ∈ listPage t after limit, position r < v.position := by
  have hpage := @Keyset.page_complete _ _ _ position _ limit _ (positions_distinct t) r
    (mem_active.mpr ⟨hr, hd⟩) hb
  rcases hpage with h | ⟨hlen, hall⟩
  · exact .inl ⟨_, List.mem_map.mpr ⟨r, h, rfl⟩, rfl⟩
  · refine .inr ⟨by simpa [listPage] using hlen, fun v hv => ?_⟩
    obtain ⟨q, hq, rfl⟩ := List.mem_map.mp hv
    exact hall q hq

/-- The cursor of a page stands at its last row, and is there when the page is full. -/
theorem facadeListPage_eq (hl : 0 < limit) :
    ∃ p, facadeListPage t after limit = some p ∧ p.items = listPage t after limit ∧
      ((listPage t after limit).length = limit → ∃ last, p.items.getLast? = some last ∧
        p.nextCursor = some (encodeCursor last.uploadedAt last.id)) ∧
      ((listPage t after limit).length ≠ limit → p.nextCursor = none) := by
  unfold facadeListPage
  by_cases hlen : (listPage t after limit).length = limit
  · have hne : listPage t after limit ≠ [] := by
      intro he
      rw [he] at hlen
      simp only [List.length_nil] at hlen
      omega
    have hlast := List.getLast?_eq_some_getLast hne
    rw [if_pos hlen, hlast]
    exact ⟨_, rfl, rfl, fun _ => ⟨_, hlast, rfl⟩, fun h => absurd hlen h⟩
  · rw [if_neg hlen]
    exact ⟨_, rfl, rfl, fun h => absurd h hlen, fun _ => rfl⟩

end

namespace Walk

/-- What has been returned is in the table still, in falling order; the cursor stands at
the last of it; and a watched video that is active has been returned or lies below. -/
structure Consistent (s : Walk) : Prop where
  fresh : s.watched = none → s.cursor = none ∧ s.pages = []
  known : ∀ v ∈ s.returned, ∃ row, (v.id, row) ∈ s.table.rows ∧ row.uploadedAt = v.uploadedAt
  descending : s.returned.Pairwise (fun v w => w.position < v.position)
  cursor : ∀ token, s.cursor = some token → ∃ last, s.returned.getLast? = some last ∧
    token = encodeCursor last.uploadedAt last.id
  present : ∀ ids, s.watched = some ids → ∀ id ∈ ids, id ∈ s.table.rows.map Prod.fst
  held : ∀ ids, s.watched = some ids → ∀ r ∈ s.table.rows, r.1 ∈ ids → r.2.deletedAt = none →
    (∃ v ∈ s.returned, v.id = r.1) ∨
      s.cursor ≠ none ∧ ∃ last, s.returned.getLast? = some last ∧ position r < last.position
  full : s.pages.length ≤ s.returned.length + if s.cursor.isSome then 0 else 1

theorem Consistent.initial (table : Table) : Consistent (machine table).start where
  fresh _ := ⟨rfl, rfl⟩
  known v h := by cases h
  descending := List.Pairwise.nil
  cursor _ h := by cases h
  present _ h := by cases h
  held _ h := by cases h
  full := Nat.zero_le _

/-- Writes between the pages. -/
theorem Consistent.write {s : Walk} (h : Consistent s) {table : Table} {inserted : Nat}
    (he : s.table.Evolves table) :
    Consistent { s with table := table, inserted := inserted } where
  fresh := h.fresh
  known v hv := by
    obtain ⟨row, hrow, hup⟩ := h.known v hv
    obtain ⟨row', hrow', hup'⟩ := he.kept _ hrow
    exact ⟨row', hrow', hup'.trans hup⟩
  descending := h.descending
  cursor := h.cursor
  present ids hw id hid := by
    obtain ⟨r, hr, rfl⟩ := List.mem_map.mp (h.present ids hw id hid)
    obtain ⟨row', hrow', _⟩ := he.kept r hr
    exact List.mem_map.mpr ⟨_, hrow', rfl⟩
  held ids hw r hr hid hd := by
    obtain ⟨row, hrow, hup, hactive⟩ := he.origin r hr (h.present ids hw r.1 hid)
    have hsame : position (r.1, row) = position r := by
      simp [position, hup]
    rcases h.held ids hw _ hrow hid (hactive hd) with hret | ⟨hc, last, hlast, hlt⟩
    · exact .inl hret
    · exact .inr ⟨hc, last, hlast, hsame ▸ hlt⟩
  full := h.full

theorem returned_read {s t : Walk} {after : Option (Datetime × Uuid)} {limit : Nat}
    {watched : List Uuid} (hl : 0 < limit) (ht : s.read after limit watched = some t) :
    t.table = s.table ∧ t.watched = some watched ∧ t.inserted = s.inserted ∧
      t.pages.length = s.pages.length + 1 ∧
      t.returned = s.returned ++ listPage s.table after limit ∧
      ((listPage s.table after limit).length = limit → ∃ last,
        (listPage s.table after limit).getLast? = some last ∧
        t.cursor = some (encodeCursor last.uploadedAt last.id)) ∧
      ((listPage s.table after limit).length ≠ limit → t.cursor = none) := by
  obtain ⟨p, hp, hitems, hfull, hshort⟩ := @facadeListPage_eq s.table after limit hl
  simp only [read, hp, Option.map_some, Option.some.injEq] at ht
  subst ht
  rw [hitems] at hfull
  exact ⟨rfl, rfl, rfl, by simp, by simp [returned, hitems], hfull, hshort⟩

/-- A page read below everything that has been returned. -/
theorem Consistent.read {s t : Walk} (h : Consistent s) {after : Option (Datetime × Uuid)}
    {limit : Nat} {watched : List Uuid} (hl : 0 < limit)
    (ht : s.read after limit watched = some t)
    (hpages : s.pages.length ≤ s.returned.length)
    (habove : ∀ v ∈ s.returned, ∀ k, Keyset.Below (after.map (fun a => place a.1 a.2)) k →
      k < v.position)
    (hpresent : ∀ id ∈ watched, id ∈ s.table.rows.map Prod.fst)
    (hheld : ∀ r ∈ s.table.rows, r.1 ∈ watched → r.2.deletedAt = none →
      (∃ v ∈ s.returned, v.id = r.1) ∨
        Keyset.Below (after.map (fun a => place a.1 a.2)) (position r)) : Consistent t := by
  obtain ⟨htable, hwatched, _, hlen, hret, hfull, hshort⟩ := returned_read hl ht
  exact {
    fresh := fun hx => by rw [hwatched] at hx; cases hx
    known := fun v hv => by
      rw [hret] at hv
      rw [htable]
      rcases List.mem_append.mp hv with hold | hnew
      · exact h.known v hold
      · obtain ⟨r, hr, rfl, _⟩ := mem_listPage hnew
        exact ⟨r.2, hr, rfl⟩
    descending := by
      rw [hret]
      refine List.pairwise_append.mpr ⟨h.descending, listPage_descending, fun v hv w hw => ?_⟩
      obtain ⟨r, _, rfl, hbelow⟩ := mem_listPage hw
      exact habove v hv _ hbelow
    cursor := fun token hc => by
      by_cases hlimit : (listPage s.table after limit).length = limit
      · obtain ⟨last, hlast, hcursor⟩ := hfull hlimit
        rw [hcursor, Option.some.injEq] at hc
        exact ⟨last, by rw [hret, List.getLast?_append, hlast]; rfl, hc.symm⟩
      · rw [hshort hlimit] at hc
        cases hc
    present := fun ids hw id hid => by
      rw [hwatched, Option.some.injEq] at hw
      subst hw
      rw [htable]
      exact hpresent id hid
    held := fun ids hw r hr hid hd => by
      rw [hwatched, Option.some.injEq] at hw
      subst hw
      rw [htable] at hr
      rw [hret]
      rcases hheld r hr hid hd with ⟨v, hv, hvid⟩ | hbelow
      · exact .inl ⟨v, List.mem_append_left _ hv, hvid⟩
      · rcases @listPage_complete s.table after limit r hr hd hbelow with
          ⟨v, hv, hvid⟩ | ⟨hlimit, hall⟩
        · exact .inl ⟨v, List.mem_append_right _ hv, hvid⟩
        · obtain ⟨last, hlast, hcursor⟩ := hfull hlimit
          refine .inr ⟨by simp [hcursor], last, by rw [List.getLast?_append, hlast]; rfl, ?_⟩
          exact hall last (List.mem_of_getLast? hlast)
    full := by
      rw [hret, List.length_append]
      by_cases hlimit : (listPage s.table after limit).length = limit
      · obtain ⟨last, _, hcursor⟩ := hfull hlimit
        simp only [hcursor, Option.isSome_some, if_true]
        omega
      · simp only [hshort hlimit, Option.isSome_none, Bool.false_eq_true, if_false]
        omega }

/-- The last of a falling list is below all the others. -/
theorem below_all_of_last {vs : List Video} {last : Video} {k : Position}
    (hd : vs.Pairwise (fun v w => w.position < v.position)) (hl : vs.getLast? = some last)
    (hk : k < last.position) : ∀ v ∈ vs, k < v.position := by
  obtain ⟨ws, rfl⟩ := List.getLast?_eq_some_iff.mp hl
  intro v hv
  rcases List.mem_append.mp hv with hin | hlast
  · exact hk.trans ((List.pairwise_append.mp hd).2.2 v hin last (by simp))
  · obtain rfl : v = last := by simpa using hlast
    exact hk

theorem Consistent.first {s t : Walk} (h : Consistent s) {limit : Nat} (hl : 0 < limit)
    (hw : s.watched = none) (ht : s.read none limit (s.table.active.map Prod.fst) = some t) :
    Consistent t := by
  obtain ⟨_, hpages⟩ := h.fresh hw
  have hempty : s.returned = [] := by rw [returned, hpages]; rfl
  refine h.read hl ht ?_ ?_ ?_ ?_
  · simp [hpages]
  · simp [hempty]
  · intro id hid
    obtain ⟨r, hr, rfl⟩ := List.mem_map.mp hid
    exact List.mem_map.mpr ⟨r, (mem_active.mp hr).1, rfl⟩
  · intro r _ _ _
    exact .inr (fun a ha => by cases ha)

theorem Consistent.next {s t : Walk} (h : Consistent s) {limit : Nat} (hl : 0 < limit)
    {watched : List Uuid} {last : Video} (hw : s.watched = some watched)
    (hc : s.cursor.isSome = true) (hlast : s.returned.getLast? = some last)
    (ht : s.read (some (last.uploadedAt, last.id)) limit watched = some t) : Consistent t := by
  have hbelow (k : Position) : Keyset.Below
      ((some (last.uploadedAt, last.id)).map (fun a => place a.1 a.2)) k ↔ k < last.position := by
    simp [Keyset.Below, Video.position]
  refine h.read hl ht ?_ ?_ (h.present watched hw) ?_
  · have hfull := h.full
    rwa [if_pos hc, Nat.add_zero] at hfull
  · intro v hv k hk
    exact below_all_of_last h.descending hlast ((hbelow k).mp hk) v hv
  · intro r hr hid hd
    rcases h.held watched hw r hr hid hd with hret | ⟨_, last', hlast', hlt⟩
    · exact .inl hret
    · obtain rfl : last = last' := Option.some.inj (hlast.symm.trans hlast')
      exact .inr ((hbelow _).mpr hlt)

theorem Consistent.step {s t : Walk} {a : WalkAct} (h : Consistent s) (ha : AsksForRows s a)
    (ht : step s a = some t) : Consistent t := by
  cases a with
  | save video =>
    cases ht
    exact h.write (s.table.evolves_save video)
  | softDelete id now =>
    cases ht
    exact h.write (s.table.evolves_softDelete id now)
  | page limit =>
    simp only [Walk.step] at ht
    split at ht
    · rename_i hw
      exact h.first ha hw ht
    · cases ht
    · rename_i watched token hw hc
      obtain ⟨last, hlast, rfl⟩ := h.cursor token hc
      rw [decodeCursor_encodeCursor, Option.bind_some] at ht
      exact h.next ha hw (by rw [hc]; rfl) hlast ht

theorem Consistent.of_reaches {table : Table} {as : List WalkAct} {s : Walk}
    (h : (machine table).Reaches as s)
    (hm : (machine table).Meets AsksForRows (machine table).start as) : Consistent s :=
  h.invariant_of_meets (Consistent.initial table) (fun _ _ _ hi ha ht => hi.step ha ht) hm

/-- The table has the rows it had and those inserted. -/
theorem rows_length {table : Table} {as : List WalkAct} {s : Walk}
    (h : (machine table).Reaches as s) :
    s.table.rows.length = table.rows.length + s.inserted := by
  refine h.induct (P := fun _ s => s.table.rows.length = table.rows.length + s.inserted) rfl ?_
  intro as s a t _ ih ht
  have hread {after : Option (Datetime × Uuid)} {limit : Nat} {watched : List Uuid}
      (hr : s.read after limit watched = some t) :
      t.table.rows.length = table.rows.length + t.inserted := by
    obtain ⟨p, _, rfl⟩ := Option.map_eq_some_iff.mp hr
    exact ih
  cases a with
  | save video =>
    cases ht
    simp only [Table.length_save, ih]
    omega
  | softDelete id now =>
    cases ht
    simpa [Table.softDelete, Table.update] using ih
  | page limit =>
    change Walk.step s (.page limit) = some t at ht
    simp only [Walk.step] at ht
    split at ht
    · exact hread ht
    · cases ht
    · obtain ⟨after, _, hr⟩ := Option.bind_eq_some_iff.mp ht
      exact hread hr

/-- No two returned videos share an id, so that there are no more of them than rows. -/
theorem Consistent.ids_distinct {s : Walk} (h : Consistent s) :
    (s.returned.map Video.id).Nodup := by
  rw [List.Nodup, List.pairwise_map]
  apply h.descending.imp_of_mem
  intro v w hv hw hlt he
  obtain ⟨row, hrow, hup⟩ := h.known v hv
  obtain ⟨row', hrow', hup'⟩ := h.known w hw
  rw [← he] at hrow'
  obtain rfl := Table.row_unique hrow hrow'
  rw [Video.position, Video.position, ← hup, ← hup', he] at hlt
  exact lt_irrefl _ hlt

theorem Consistent.returned_le {s : Walk} (h : Consistent s) :
    s.returned.length ≤ s.table.rows.length := by
  have hsub : s.returned.map Video.id ⊆ s.table.rows.map Prod.fst := by
    intro id hid
    obtain ⟨v, hv, rfl⟩ := List.mem_map.mp hid
    obtain ⟨row, hrow, _⟩ := h.known v hv
    exact List.mem_map.mpr ⟨_, hrow, rfl⟩
  have hle := (List.subperm_of_subset h.ids_distinct hsub).length_le
  simpa using hle

/-- Following the cursors returns rows in strictly falling order, no video twice, and
every video that stays active; and the walk ends, unless videos keep being inserted. -/
theorem keyset_walk {table : Table} {as : List WalkAct} {s : Walk}
    (h : (machine table).Reaches as s)
    (hm : (machine table).Meets AsksForRows (machine table).start as) :
    s.returned.Pairwise (fun v w => w.position < v.position) ∧
    (s.returned.map Video.id).Nodup ∧
    (s.ended = true → ∀ ids, s.watched = some ids → ∀ r ∈ s.table.rows, r.1 ∈ ids →
      r.2.deletedAt = none → ∃ v ∈ s.returned, v.id = r.1) ∧
    (s.ended = false → ∀ limit, 0 < limit → ∃ t, step s (.page limit) = some t) ∧
    s.pages.length ≤ table.rows.length + s.inserted + if s.ended then 1 else 0 := by
  have hi := Consistent.of_reaches h hm
  refine ⟨hi.descending, hi.ids_distinct, ?_, ?_, ?_⟩
  · intro hend ids hw r hr hid hd
    rcases hi.held ids hw r hr hid hd with hret | ⟨hc, _⟩
    · exact hret
    · rw [ended, hw, Option.isSome_some, Bool.true_and, Option.isNone_iff_eq_none] at hend
      exact absurd hend hc
  · intro hopen limit hl
    have hread (after : Option (Datetime × Uuid)) (watched : List Uuid) :
        ∃ t, s.read after limit watched = some t := by
      obtain ⟨p, hp, _⟩ := @facadeListPage_eq s.table after limit hl
      exact ⟨_, by simp [read, hp]; rfl⟩
    cases hw : s.watched with
    | none => simpa [Walk.step, hw] using hread none _
    | some watched =>
      cases hc : s.cursor with
      | none => simp [ended, hw, hc] at hopen
      | some token =>
        obtain ⟨last, _, rfl⟩ := hi.cursor token hc
        simpa [Walk.step, hw, hc, decodeCursor_encodeCursor] using hread _ watched
  · have hfull := hi.full
    have hle := hi.returned_le
    rw [rows_length h] at hle
    cases hw : s.watched with
    | none =>
      obtain ⟨_, hpages⟩ := hi.fresh hw
      simp [hpages]
    | some watched =>
      cases hc : s.cursor with
      | none =>
        simp only [ended, hw, hc, Option.isSome_some, Option.isNone_none, Bool.and_self, if_true,
          Option.isSome_none, Bool.false_eq_true, if_false] at hfull ⊢
        omega
      | some token =>
        simp only [ended, hw, hc, Option.isSome_some, Option.isNone_some, Bool.and_false, if_true,
          Bool.false_eq_true, if_false] at hfull ⊢
        omega

/-- Two videos of the same instant. -/
def tied : Datetime := ⟨⟨2023, 1, 1, 12, 0, 0, 0⟩, by decide⟩

def highest : Uuid := ⟨List.replicate 32 (Fin.last 15), List.length_replicate⟩

def tiedTable : Table where
  rows := [(Uuid.null, ⟨"a.mp4", .pending, tied, [], none⟩),
    (highest, ⟨"b.mp4", .pending, tied, [], none⟩)]
  distinct := by decide

/-- One row a page; the video returned first is deleted meanwhile. -/
def pageByPage : List WalkAct := [.page 1, .softDelete highest tied, .page 1, .page 1]

theorem tied_videos_are_returned : ∃ s, (machine tiedTable).Reaches pageByPage s ∧
    s.ended = true ∧ s.pages.length ≤ 3 ∧ ∀ r ∈ s.table.rows, r.1 ∈ [Uuid.null, highest] →
      r.2.deletedAt = none → ∃ v ∈ s.returned, v.id = r.1 := by
  have hr : ((machine tiedTable).exec (machine tiedTable).start pageByPage).map
      (fun s => (s.ended, s.watched, s.inserted)) =
        some (true, some [Uuid.null, highest], 0) := by decide +kernel
  obtain ⟨s, hs, he⟩ := Machine.reaches_of_map hr
  simp only [Prod.mk.injEq] at he
  obtain ⟨hend, hwatched, hins⟩ := he
  obtain ⟨_, _, hall, _, hpages⟩ := keyset_walk hs (by decide +kernel)
  rw [hins, hend] at hpages
  exact ⟨s, hs, hend, hpages, hall hend _ hwatched⟩

end Walk
end BackendTemplates.Media
