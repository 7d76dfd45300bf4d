import BackendTemplates.Media.Upload

namespace BackendTemplates.Media.Upload
open Python Runs
open Shared.OutboxRelay (OutboxRow)

def Commit.key (c : Commit) : Option String := c.txn.command.idempotencyKey

/-- The retention horizon of the key row the transaction inserts. -/
def Txn.expiresAt (t : Txn) : Nat := (t.claim.map KeyRow.expiresAt).getD 0

def Commit.expiresAt (c : Commit) : Nat := c.txn.expiresAt

/-- The row carries the `video_uploaded` event of this video. -/
def Announces (row : OutboxRow) (video : Uuid) : Prop :=
  row.eventType = "video_uploaded" ∧
    ∃ e : VideoUploadedIntegration, e.videoId = video ∧ row.payload = e.payload

/-- The outbox row `o` was inserted by the commit, for its video. -/
def Commit.Added (c : Commit) (o : Uuid) (row : OutboxRow) : Prop :=
  ∃ e : VideoUploadedIntegration, c.txn.added = [(o, e.row)] ∧ e.videoId = c.txn.video.id ∧
    row.eventType = "video_uploaded" ∧ row.payload = e.payload

/-- The commits which used a key are apart by its retention. -/
def Apart (a b : Commit) : Prop := a.key ≠ none → a.key = b.key → a.expiresAt < b.at_

/-- The tables hold what the commits inserted; keys may have been purged since. -/
structure Booked (cfg : Config) (w : World) : Prop where
  videos : ∀ v r, w.videos v = some r → ∃ c ∈ w.log, c.txn.video.id = v ∧ c.call = r.xmin
  outbox : ∀ o r, w.outbox o = some r → ∃ c ∈ w.log, c.Added o r.row ∧ c.call = r.xmin
  keys : ∀ key r, w.keys key = some r → w.claims key = none ∧
    ∃ c ∈ w.log, c.key = some key ∧ c.call = r.xmin ∧ c.txn.claim = some r.row ∧
      jsonb cfg.number (snapshot c.txn.video) = some r.row.response ∧
      r.row.fingerprint = c.txn.fingerprint
  saved : ∀ c ∈ w.log, ∃ r, w.videos c.txn.video.id = some r ∧ r.xmin = c.call
  added : ∀ c ∈ w.log, ∃ o r, w.outbox o = some r ∧ c.Added o r.row ∧ r.xmin = c.call
  window : ∀ c ∈ w.log, ∀ key, c.key = some key →
    (∃ r, w.keys key = some r ∧ r.xmin = c.call) ∨ c.expiresAt < w.now.instant
  drawn : ∀ c ∈ w.log, w.drawn c.txn.video.id = some c.call ∧
    ∀ o e, c.txn.added = [(o, e)] → w.drawn o = some c.call
  calls : (w.log.map Commit.call).Nodup
  apart : w.log.Pairwise Apart

/-- The transaction carries what its command says. -/
structure Built (cfg : Config) (t : Txn) : Prop where
  sourceKey : t.video.sourceKey = t.command.sourceKey
  status : t.video.status = .pending
  document : t.video.document = t.command.document
  fingerprint : t.fingerprint = fingerprintOf cfg t.command

/-- The transaction has its own id, and has inserted its key if it came with one. -/
structure Claimed (cfg : Config) (i : Nat) (w : World) (t : Txn) : Prop where
  drawn : w.drawn t.video.id = some i
  claim : ∀ key, t.command.idempotencyKey = some key → w.claims key = some i ∧
    ∃ row, t.claim = some row ∧ jsonb cfg.number (snapshot t.video) = some row.response ∧
      row.fingerprint = t.fingerprint

def Eventful (t : Txn) : Prop := t.added = [] ∧ ∃ e, t.video.events = [e] ∧ e.videoId = t.video.id

def Unwritten (i : Nat) (w : World) : Prop := ∀ c ∈ w.log, c.call ≠ i

/-- The event is still to be added, or its row has been. -/
def Staged (i : Nat) (w : World) (t : Txn) (events : List VideoUploaded) : Prop :=
  (t.added = [] ∧ ∃ e, events = [e] ∧ e.videoId = t.video.id) ∨
    (events = [] ∧ ∃ o e, t.added = [(o, VideoUploadedIntegration.row e)] ∧
      e.videoId = t.video.id ∧ w.drawn o = some i)

def Holds (cfg : Config) (i : Nat) (w : World) : Call → Prop
  | .idle => Unwritten i w
  | .claiming t => Unwritten i w ∧ Built cfg t ∧ Eventful t ∧ w.drawn t.video.id = some i
  | .inserting t row => (Unwritten i w ∧ Built cfg t ∧ Eventful t ∧ w.drawn t.video.id = some i) ∧
      jsonb cfg.number (snapshot t.video) = some row.response ∧ row.fingerprint = t.fingerprint
  | .saving t => Unwritten i w ∧ Built cfg t ∧ Eventful t ∧ Claimed cfg i w t
  | .adding t events =>
    Unwritten i w ∧ Built cfg t ∧ Claimed cfg i w t ∧ Staged i w t events ∧
      ∃ row, t.saved = some row
  | .losing t => Unwritten i w ∧ Built cfg t
  | .finding t => Unwritten i w ∧ Built cfg t
  | .returned t video true => Unwritten i w ∧ Built cfg t ∧ ∃ c ∈ w.log,
      c.key = t.command.idempotencyKey ∧ c.txn.fingerprint = t.fingerprint ∧
      video = c.txn.video.replayed cfg.number
  | .returned t video false => Built cfg t ∧ video = t.video ∧ ∃ c ∈ w.log, c.call = i ∧ c.txn = t
  | .raised _ => True
  | .crashed => Unwritten i w

/-- What a step of call `i` leaves alone. -/
structure Frame (i : Nat) (w w' : World) : Prop where
  drawn : ∀ id j, j ≠ i → w.drawn id = some j → w'.drawn id = some j
  claims : ∀ key j, j ≠ i → w.claims key = some j → w'.claims key = some j
  log : ∀ c ∈ w.log, c ∈ w'.log
  calls : ∀ c ∈ w'.log, c ∈ w.log ∨ c.call = i

section
variable {cfg : Config} {i j : Nat} {w w' : World} {k k' : Call} {t : Txn} {c : Commit}

theorem Frame.refl : Frame i w w :=
  ⟨fun _ _ _ h => h, fun _ _ _ h => h, fun _ h => h, fun _ h => .inl h⟩

theorem Unwritten.frame (h : Unwritten j w) (hf : Frame i w w') (hj : j ≠ i) : Unwritten j w' := by
  intro c hc he
  rcases hf.calls c hc with hc | hi
  · exact h c hc he
  · exact hj (he.symm.trans hi)

theorem Claimed.frame (h : Claimed cfg j w t) (hf : Frame i w w') (hj : j ≠ i) :
    Claimed cfg j w' t where
  drawn := hf.drawn _ _ hj h.drawn
  claim key hk := ⟨hf.claims _ _ hj (h.claim key hk).1, (h.claim key hk).2⟩

theorem Staged.frame {events : List VideoUploaded} (h : Staged j w t events) (hf : Frame i w w')
    (hj : j ≠ i) : Staged j w' t events := by
  rcases h with h | ⟨he, o, e, ha, hv, hd⟩
  · exact .inl h
  · exact .inr ⟨he, o, e, ha, hv, hf.drawn _ _ hj hd⟩

theorem Holds.frame (h : Holds cfg j w k) (hf : Frame i w w') (hj : j ≠ i) : Holds cfg j w' k := by
  cases k with
  | idle => exact h.frame hf hj
  | claiming t => exact ⟨h.1.frame hf hj, h.2.1, h.2.2.1, hf.drawn _ _ hj h.2.2.2⟩
  | inserting t row =>
    obtain ⟨⟨hu, hb, he, hd⟩, hrow⟩ := h
    exact ⟨⟨hu.frame hf hj, hb, he, hf.drawn _ _ hj hd⟩, hrow⟩
  | saving t => exact ⟨h.1.frame hf hj, h.2.1, h.2.2.1, h.2.2.2.frame hf hj⟩
  | adding t events =>
    exact ⟨h.1.frame hf hj, h.2.1, h.2.2.1.frame hf hj, h.2.2.2.1.frame hf hj, h.2.2.2.2⟩
  | losing t => exact ⟨h.1.frame hf hj, h.2⟩
  | finding t => exact ⟨h.1.frame hf hj, h.2⟩
  | returned t video replayed =>
    cases replayed with
    | true =>
      obtain ⟨hu, hb, c, hc, he⟩ := h
      exact ⟨hu.frame hf hj, hb, c, hf.log c hc, he⟩
    | false =>
      obtain ⟨hb, hv, c, hc, he⟩ := h
      exact ⟨hb, hv, c, hf.log c hc, he⟩
  | raised e => trivial
  | crashed => exact h.frame hf hj

/-- A call that has not committed owns no row. -/
theorem Unwritten.no_rows (h : Unwritten i w) (hb : Booked cfg w) :
    (∀ v r, w.videos v = some r → r.xmin ≠ i) ∧ (∀ o r, w.outbox o = some r → r.xmin ≠ i) ∧
      ∀ key r, w.keys key = some r → r.xmin ≠ i := by
  refine ⟨fun v r hr he => ?_, fun o r hr he => ?_, fun key r hr he => ?_⟩
  · obtain ⟨c, hc, -, hx⟩ := hb.videos v r hr
    exact h c hc (hx.trans he)
  · obtain ⟨c, hc, -, hx⟩ := hb.outbox o r hr
    exact h c hc (hx.trans he)
  · obtain ⟨-, c, hc, -, hx, -⟩ := hb.keys key r hr
    exact h c hc (hx.trans he)

theorem Booked.same_commit (hb : Booked cfg w) {c c' : Commit} (hc : c ∈ w.log) (hc' : c' ∈ w.log)
    (he : c.call = c'.call) : c = c' :=
  List.inj_on_of_nodup_map hb.calls hc hc' he

theorem payload_injective {e e' : VideoUploadedIntegration} (h : e.payload = e'.payload) :
    e.videoId = e'.videoId := by
  have hj : e.json = e'.json := Json.text_injective (utf8_injective h)
  simp only [VideoUploadedIntegration.json, Json.obj.injEq, List.cons.injEq, Prod.mk.injEq,
    Json.str.injEq, true_and, and_true] at hj
  exact Uuid.str_injective hj.2.2.1

theorem Booked.congr (hb : Booked cfg w) (hv : w'.videos = w.videos) (ho : w'.outbox = w.outbox)
    (hk : w'.keys = w.keys) (hl : w'.log = w.log) (hn : w.now.instant ≤ w'.now.instant)
    (hc : ∀ key r, w.keys key = some r → w.claims key = none → w'.claims key = none)
    (hd : ∀ id j, w.drawn id = some j → w'.drawn id = some j) : Booked cfg w' where
  videos := by
    rw [hv, hl]
    exact hb.videos
  outbox := by
    rw [ho, hl]
    exact hb.outbox
  keys := by
    rw [hk, hl]
    intro key r hr
    obtain ⟨hf, hx⟩ := hb.keys key r hr
    exact ⟨hc key r hr hf, hx⟩
  saved := by
    rw [hv, hl]
    exact hb.saved
  added := by
    rw [ho, hl]
    exact hb.added
  window := by
    rw [hk, hl]
    intro c hc key hck
    rcases hb.window c hc key hck with h | h
    · exact .inl h
    · exact .inr (lt_of_lt_of_le h hn)
  drawn := by
    rw [hl]
    intro c hc
    obtain ⟨h, h'⟩ := hb.drawn c hc
    exact ⟨hd _ _ h, fun o e he => hd _ _ (h' o e he)⟩
  calls := by
    rw [hl]
    exact hb.calls
  apart := by
    rw [hl]
    exact hb.apart

theorem drawn_draw {id : Uuid} (h : w.drawn id = none) (x : Uuid) (m : Nat)
    (hx : w.drawn x = some m) : (w.draw id i).drawn x = some m := by
  have hne : x ≠ id := by
    intro heq
    subst heq
    rw [h] at hx
    cases hx
  simpa [World.draw, Function.update_of_ne hne] using hx

theorem Booked.draw {id : Uuid} (hb : Booked cfg w) (h : w.drawn id = none) :
    Booked cfg (w.draw id i) :=
  hb.congr rfl rfl rfl rfl le_rfl (fun _ _ _ h => h) (drawn_draw h)

theorem Frame.draw {id : Uuid} (h : w.drawn id = none) : Frame i w (w.draw id i) :=
  ⟨fun x m _ hx => drawn_draw h x m hx, fun _ _ _ h => h, fun _ h => h, fun _ h => .inl h⟩

theorem Booked.release (hb : Booked cfg w) : Booked cfg (w.release i) := by
  refine hb.congr rfl rfl rfl rfl le_rfl (fun key r _ h => ?_) (fun _ _ h => h)
  simp [World.release, h]

theorem Frame.release : Frame i w (w.release i) := by
  refine ⟨fun _ _ _ h => h, fun key j hj h => ?_, fun _ h => h, fun _ h => .inl h⟩
  simp [World.release, h, hj]

theorem Booked.claim {key : String} (hb : Booked cfg w) (hk : w.keys key = none) :
    Booked cfg { w with claims := Function.update w.claims key (some i) } := by
  refine hb.congr rfl rfl rfl rfl le_rfl (fun x r hr h => ?_) (fun _ _ h => h)
  have hne : x ≠ key := by
    intro heq
    subst heq
    rw [hk] at hr
    cases hr
  simpa [Function.update_of_ne hne] using h

theorem Frame.claim {key : String} (hc : w.claims key = none) :
    Frame i w { w with claims := Function.update w.claims key (some i) } := by
  refine ⟨fun _ _ _ h => h, fun x j _ h => ?_, fun _ h => h, fun _ h => .inl h⟩
  have hne : x ≠ key := by
    intro heq
    subst heq
    rw [hc] at h
    cases h
  simpa [Function.update_of_ne hne] using h

theorem Frame.commit : Frame i w (w.commit i t) := by
  refine ⟨fun _ _ _ h => h, fun key j hj h => ?_, fun c hc => ?_, fun c hc => ?_⟩
  · simp [World.commit, World.release, h, hj]
  · exact List.mem_append_left _ hc
  · rcases List.mem_append.mp hc with hc | hc
    · exact .inl hc
    · simp only [List.mem_singleton] at hc
      exact .inr (by rw [hc])

/-- A transaction at its commit: all its rows are written, under its own ids. -/
structure Ready (cfg : Config) (i : Nat) (w : World) (t : Txn) (row : VideoRow) (o : Uuid)
    (e : VideoUploadedIntegration) : Prop where
  unwritten : Unwritten i w
  claimed : Claimed cfg i w t
  saved : t.saved = some row
  added : t.added = [(o, e.row)]
  event : e.videoId = t.video.id
  drawn : w.drawn o = some i

/-- The entry of the commit in the log. -/
def entry (i : Nat) (w : World) (t : Txn) : Commit := ⟨i, t, w.now.instant⟩

theorem commit_log : (w.commit i t).log = w.log ++ [entry i w t] := rfl

theorem mem_commit_log : c ∈ (w.commit i t).log ↔ c ∈ w.log ∨ c = entry i w t := by
  simp [commit_log]

section
variable {row : VideoRow} {o : Uuid} {e : VideoUploadedIntegration}

theorem Ready.videos (hr : Ready cfg i w t row o e) :
    (w.commit i t).videos = Function.update w.videos t.video.id (some ⟨row, i⟩) := by
  simp [World.commit, World.insertVideo, hr.saved]

theorem Ready.outbox (hr : Ready cfg i w t row o e) :
    (w.commit i t).outbox = Function.update w.outbox o (some ⟨e.row, i⟩) := by
  simp [World.commit, World.insertOutbox, hr.added]

theorem Ready.entry_added (hr : Ready cfg i w t row o e) : (entry i w t).Added o e.row :=
  ⟨e, hr.added, hr.event, e.row_eventType, e.row_payload⟩

/-- Earlier commits created other videos, with other outbox rows. -/
theorem Ready.fresh_video (hr : Ready cfg i w t row o e) (hb : Booked cfg w) (hc : c ∈ w.log) :
    c.txn.video.id ≠ t.video.id := by
  intro heq
  have hd := (hb.drawn c hc).1
  rw [heq, hr.claimed.drawn] at hd
  exact hr.unwritten c hc (Option.some.inj hd).symm

theorem Ready.fresh_outbox (hr : Ready cfg i w t row o e) (hb : Booked cfg w) (hc : c ∈ w.log)
    {x : Uuid}
    {r : OutboxRow} (hx : c.Added x r) : x ≠ o := by
  intro hsame
  subst hsame
  obtain ⟨e', he', -⟩ := hx
  have hd := (hb.drawn c hc).2 _ _ he'
  rw [hr.drawn] at hd
  exact hr.unwritten c hc (Option.some.inj hd).symm

/-- The key the transaction inserts is its own, and no row has it yet. -/
theorem Ready.keys (hr : Ready cfg i w t row o e) (hb : Booked cfg w) :
    (∃ key stored, t.command.idempotencyKey = some key ∧ t.claim = some stored ∧
      jsonb cfg.number (snapshot t.video) = some stored.response ∧
      stored.fingerprint = t.fingerprint ∧
      w.keys key = none ∧ (w.commit i t).claims key = none ∧
      (w.commit i t).keys = Function.update w.keys key (some ⟨stored, i⟩)) ∨
    (t.command.idempotencyKey = none ∧ (w.commit i t).keys = w.keys) := by
  cases hk : t.command.idempotencyKey with
  | none => exact .inr ⟨rfl, by simp [World.commit, World.insertKey, hk]⟩
  | some key =>
    obtain ⟨hc, stored, hs, hresp, hfp⟩ := hr.claimed.claim key hk
    refine .inl ⟨key, stored, rfl, hs, hresp, hfp, ?_, ?_, ?_⟩
    · cases hkey : w.keys key with
      | none => rfl
      | some r =>
        have hf := (hb.keys key r hkey).1
        rw [hc] at hf
        cases hf
    · simp [World.commit, World.release, hc]
    · simp [World.commit, World.insertKey, hk, hs]

theorem Ready.booked_videos (hr : Ready cfg i w t row o e) (hb : Booked cfg w) :
    ∀ v r, (w.commit i t).videos v = some r →
      ∃ c ∈ (w.commit i t).log, c.txn.video.id = v ∧ c.call = r.xmin := by
  intro v r h
  rw [hr.videos] at h
  by_cases hv : v = t.video.id
  · subst hv
    simp only [Function.update_self, Option.some.injEq] at h
    subst h
    exact ⟨entry i w t, mem_commit_log.mpr (.inr rfl), rfl, rfl⟩
  · rw [Function.update_of_ne hv] at h
    obtain ⟨c, hc, hx⟩ := hb.videos v r h
    exact ⟨c, mem_commit_log.mpr (.inl hc), hx⟩

theorem Ready.booked_outbox (hr : Ready cfg i w t row o e) (hb : Booked cfg w) :
    ∀ x r, (w.commit i t).outbox x = some r →
      ∃ c ∈ (w.commit i t).log, c.Added x r.row ∧ c.call = r.xmin := by
  intro x r h
  rw [hr.outbox] at h
  by_cases hx : x = o
  · subst hx
    simp only [Function.update_self, Option.some.injEq] at h
    subst h
    exact ⟨entry i w t, mem_commit_log.mpr (.inr rfl), hr.entry_added, rfl⟩
  · rw [Function.update_of_ne hx] at h
    obtain ⟨c, hc, hy⟩ := hb.outbox x r h
    exact ⟨c, mem_commit_log.mpr (.inl hc), hy⟩

theorem Ready.booked_keys (hr : Ready cfg i w t row o e) (hb : Booked cfg w) :
    ∀ key r, (w.commit i t).keys key = some r → (w.commit i t).claims key = none ∧
      ∃ c ∈ (w.commit i t).log, c.key = some key ∧ c.call = r.xmin ∧ c.txn.claim = some r.row ∧
        jsonb cfg.number (snapshot c.txn.video) = some r.row.response ∧
          r.row.fingerprint = c.txn.fingerprint := by
  intro key r h
  have hold (h : w.keys key = some r) : (w.commit i t).claims key = none ∧
      ∃ c ∈ (w.commit i t).log, c.key = some key ∧ c.call = r.xmin ∧ c.txn.claim = some r.row ∧
        jsonb cfg.number (snapshot c.txn.video) = some r.row.response ∧
        r.row.fingerprint = c.txn.fingerprint := by
    obtain ⟨hf, c, hc, hx⟩ := hb.keys key r h
    exact ⟨by simp [World.commit, World.release, hf], c, mem_commit_log.mpr (.inl hc), hx⟩
  rcases hr.keys hb with ⟨key', stored, hk, hs, hresp, hfp, -, hfree, hins⟩ | ⟨-, hins⟩
  · rw [hins] at h
    by_cases hx : key = key'
    · subst hx
      simp only [Function.update_self, Option.some.injEq] at h
      subst h
      exact ⟨hfree, entry i w t, mem_commit_log.mpr (.inr rfl), hk, rfl, hs, hresp, hfp⟩
    · rw [Function.update_of_ne hx] at h
      exact hold h
  · rw [hins] at h
    exact hold h

theorem Ready.booked_window (hr : Ready cfg i w t row o e) (hb : Booked cfg w) :
    ∀ c ∈ (w.commit i t).log, ∀ key, c.key = some key →
      (∃ r, (w.commit i t).keys key = some r ∧ r.xmin = c.call) ∨ c.expiresAt < w.now.instant := by
  intro c hc key hk
  rcases hr.keys hb with ⟨key', stored, hk', -, -, -, hnone, -, hins⟩ | ⟨hk', hins⟩
  · rw [hins]
    rcases mem_commit_log.mp hc with hc | rfl
    · rcases hb.window c hc key hk with ⟨r, h, hx⟩ | h
      · have hne : key ≠ key' := by
          intro heq
          subst heq
          rw [hnone] at h
          cases h
        exact .inl ⟨r, by rwa [Function.update_of_ne hne], hx⟩
      · exact .inr h
    · have he : key = key' := Option.some.inj (hk.symm.trans hk')
      subst he
      exact .inl ⟨⟨stored, i⟩, by simp, rfl⟩
  · rw [hins]
    rcases mem_commit_log.mp hc with hc | rfl
    · exact hb.window c hc key hk
    · exact absurd (hk.symm.trans hk') (by simp)

/-- A key is committed again only when its last retention is over. -/
theorem Ready.apart (hr : Ready cfg i w t row o e) (hb : Booked cfg w) (hc : c ∈ w.log) :
    Apart c (entry i w t) := by
  intro hne he
  obtain ⟨key, hk⟩ := Option.ne_none_iff_exists'.mp hne
  have hk' : t.command.idempotencyKey = some key := he.symm.trans hk
  rcases hb.window c hc key hk with ⟨r, h, -⟩ | h
  · have hf := (hb.keys key r h).1
    rw [(hr.claimed.claim key hk').1] at hf
    cases hf
  · exact h

theorem Booked.commit (hb : Booked cfg w) (hr : Ready cfg i w t row o e) :
    Booked cfg (w.commit i t) where
  videos := hr.booked_videos hb
  outbox := hr.booked_outbox hb
  keys := hr.booked_keys hb
  saved := by
    intro c hc
    rw [hr.videos]
    rcases mem_commit_log.mp hc with hc | rfl
    · rw [Function.update_of_ne (hr.fresh_video hb hc)]
      exact hb.saved c hc
    · exact ⟨⟨row, i⟩, by simp [entry], rfl⟩
  added := by
    intro c hc
    rw [hr.outbox]
    rcases mem_commit_log.mp hc with hc | rfl
    · obtain ⟨x, r, h, hx, hm⟩ := hb.added c hc
      exact ⟨x, r, by rwa [Function.update_of_ne (hr.fresh_outbox hb hc hx)], hx, hm⟩
    · exact ⟨o, ⟨e.row, i⟩, by simp, hr.entry_added, rfl⟩
  window := hr.booked_window hb
  drawn := by
    intro c hc
    rcases mem_commit_log.mp hc with hc | rfl
    · exact hb.drawn c hc
    · refine ⟨hr.claimed.drawn, fun x r hx => ?_⟩
      have hxo : [(x, r)] = [(o, e.row)] := hx.symm.trans hr.added
      simp only [List.cons.injEq, Prod.mk.injEq, and_true] at hxo
      rw [hxo.1]
      exact hr.drawn
  calls := by
    rw [commit_log, List.map_append]
    refine List.nodup_append.mpr ⟨hb.calls, by simp, ?_⟩
    intro x hx y hy
    obtain ⟨c, hc, rfl⟩ := List.mem_map.mp hx
    simp only [List.map_cons, List.map_nil, List.mem_singleton] at hy
    subst hy
    exact hr.unwritten c hc
  apart := by
    rw [commit_log]
    refine List.pairwise_append.mpr ⟨hb.apart, by simp, ?_⟩
    intro a ha b hb'
    simp only [List.mem_singleton] at hb'
    subst hb'
    exact hr.apart hb ha

end

theorem Booked.purge (hb : Booked cfg w) : Booked cfg w.purge where
  videos := hb.videos
  outbox := hb.outbox
  keys key r hr := hb.keys key r (Option.filter_eq_some_iff.mp hr).1
  saved := hb.saved
  added := hb.added
  window := by
    intro c hc key hk
    rcases hb.window c hc key hk with ⟨r, h, hx⟩ | h
    · by_cases hlive : w.now.instant ≤ r.row.expiresAt
      · exact .inl ⟨r, Option.filter_eq_some_iff.mpr ⟨h, by simpa using hlive⟩, hx⟩
      · right
        obtain ⟨-, c', hc', -, hx', hcl, -⟩ := hb.keys key r h
        have hexp : c.expiresAt = r.row.expiresAt := by
          rw [← hb.same_commit hc' hc (hx'.trans hx)]
          simp [Commit.expiresAt, Txn.expiresAt, hcl]
        rw [hexp]
        exact not_le.mp hlive
    · exact .inr h
  drawn := hb.drawn
  calls := hb.calls
  apart := hb.apart

theorem Booked.putVideo {id : Uuid} {r r' : Stamped VideoRow} (hb : Booked cfg w)
    (hr : w.videos id = some r) (hx : r'.xmin = r.xmin) : Booked cfg (w.putVideo id r') where
  videos := by
    intro v r₁ h
    by_cases hv : v = id
    · subst hv
      simp only [World.putVideo, Function.update_self, Option.some.injEq] at h
      subst h
      rw [hx]
      exact hb.videos v r hr
    · simp only [World.putVideo, Function.update_of_ne hv] at h
      exact hb.videos v r₁ h
  outbox := hb.outbox
  keys := hb.keys
  saved := by
    intro c hc
    obtain ⟨r₁, h, hm⟩ := hb.saved c hc
    by_cases hv : c.txn.video.id = id
    · subst hv
      rw [hr, Option.some.injEq] at h
      subst h
      exact ⟨r', by simp [World.putVideo], hx.trans hm⟩
    · exact ⟨r₁, by simpa [World.putVideo, Function.update_of_ne hv] using h, hm⟩
  added := hb.added
  window := hb.window
  drawn := hb.drawn
  calls := hb.calls
  apart := hb.apart

theorem Booked.putOutbox {id : Uuid} {r r' : Stamped OutboxRow} (hb : Booked cfg w)
    (hr : w.outbox id = some r) (hx : r'.xmin = r.xmin) (ht : r'.row.eventType = r.row.eventType)
    (hp : r'.row.payload = r.row.payload) : Booked cfg (w.putOutbox id r') where
  videos := hb.videos
  outbox := by
    intro o r₁ h
    by_cases ho : o = id
    · subst ho
      simp only [World.putOutbox, Function.update_self, Option.some.injEq] at h
      subst h
      obtain ⟨c, hc, ⟨e, ha, he, hty, hpl⟩, hm⟩ := hb.outbox o r hr
      exact ⟨c, hc, ⟨e, ha, he, ht.trans hty, hp.trans hpl⟩, hm.trans hx.symm⟩
    · simp only [World.putOutbox, Function.update_of_ne ho] at h
      exact hb.outbox o r₁ h
  keys := hb.keys
  saved := hb.saved
  added := by
    intro c hc
    obtain ⟨o, r₁, h, ⟨e, ha, he, hty, hpl⟩, hm⟩ := hb.added c hc
    by_cases ho : o = id
    · subst ho
      rw [hr, Option.some.injEq] at h
      subst h
      exact ⟨o, r', by simp [World.putOutbox], ⟨e, ha, he, ht.trans hty, hp.trans hpl⟩, hx.trans hm⟩
    · exact ⟨o, r₁, by simpa [World.putOutbox, Function.update_of_ne ho] using h,
        ⟨e, ha, he, hty, hpl⟩, hm⟩
  window := hb.window
  drawn := hb.drawn
  calls := hb.calls
  apart := hb.apart

theorem Unwritten.congr (h : Unwritten i w) (hl : w'.log = w.log) : Unwritten i w' := by
  unfold Unwritten
  rw [hl]
  exact h

theorem Holds.unwritten {text : String} (h : Holds cfg i w k) (hf : failText k = some text) :
    Unwritten i w := by
  cases k with
  | claiming t => exact h.1
  | inserting t row => exact h.1.1
  | saving t => exact h.1
  | adding t events => exact h.1
  | losing t => exact h.1
  | finding t => exact h.1
  | _ => cases hf

/-- A new video has its own id and one event. -/
theorem upload_ok {id : Uuid} {command : UploadVideoCommand} {video : Video}
    (h : Video.upload id command.sourceKey w.now command.document = .ok video) :
    video = ⟨id, command.sourceKey, .pending, w.now, command.document,
      [⟨id, command.sourceKey, w.now⟩]⟩ := by
  unfold Video.upload at h
  split at h
  · cases h
  · cases h
    rfl

theorem begin_good {id : Uuid} {command : UploadVideoCommand} (hb : Booked cfg w)
    (hu : Unwritten i w) (hd : w.drawn id = none) {video : Video}
    (hv : Video.upload id command.sourceKey w.now command.document = .ok video) :
    Booked cfg (w.draw id i) ∧ Frame i w (w.draw id i) ∧
      Holds cfg i (w.draw id i)
        (if command.idempotencyKey.isSome then
          .claiming ⟨command, video, fingerprintOf cfg command, none, none, []⟩
        else .saving ⟨command, video, fingerprintOf cfg command, none, none, []⟩) := by
  refine ⟨hb.draw hd, .draw hd, ?_⟩
  have hvideo := upload_ok hv
  have hbuilt : Built cfg ⟨command, video, fingerprintOf cfg command, none, none, []⟩ := by
    subst hvideo
    exact ⟨rfl, rfl, rfl, rfl⟩
  have hevent : Eventful ⟨command, video, fingerprintOf cfg command, none, none, []⟩ := by
    subst hvideo
    exact ⟨rfl, _, rfl, rfl⟩
  have hdrawn : (w.draw id i).drawn video.id = some i := by
    subst hvideo
    simp [World.draw]
  split
  · exact ⟨hu, hbuilt, hevent, hdrawn⟩
  · rename_i hk
    refine ⟨hu, hbuilt, hevent, hdrawn, fun key hkey => ?_⟩
    change command.idempotencyKey = some key at hkey
    simp [hkey] at hk

/-- A claim that is not lost is this call's until its transaction ends. -/
theorem insert_good {key : String} {row : KeyRow} (hb : Booked cfg w)
    (hk : Holds cfg i w (.inserting t row)) (hkey : t.command.idempotencyKey = some key)
    (hc : w.claims key = none) (hn : w.keys key = none) :
    Booked cfg { w with claims := Function.update w.claims key (some i) } ∧
      Frame i w { w with claims := Function.update w.claims key (some i) } ∧
      Holds cfg i { w with claims := Function.update w.claims key (some i) }
        (.saving { t with claim := some row }) := by
  obtain ⟨⟨hu, hbuilt, hevent, hdrawn⟩, hresp, hfp⟩ := hk
  refine ⟨hb.claim hn, .claim hc, hu, ⟨hbuilt.1, hbuilt.2, hbuilt.3, hbuilt.4⟩, hevent, hdrawn, ?_⟩
  intro key' hkey'
  have he : key = key' := Option.some.inj (hkey.symm.trans hkey')
  subst he
  exact ⟨by simp, row, rfl, hresp, hfp⟩

theorem save_good (hk : Unwritten i w ∧ Built cfg t ∧ Eventful t ∧ Claimed cfg i w t)
    (row : VideoRow) :
    Holds cfg i w (.adding { t with video := t.video.collectEvents.2, saved := some row }
      t.video.collectEvents.1) := by
  obtain ⟨hu, hbuilt, ⟨ha, e, he, hv⟩, hclaim⟩ := hk
  refine ⟨hu, ⟨hbuilt.1, hbuilt.2, hbuilt.3, hbuilt.4⟩, ⟨hclaim.drawn, hclaim.claim⟩, ?_, row, rfl⟩
  exact .inl ⟨ha, e, he, hv⟩

theorem add_good {event : VideoUploaded} {events : List VideoUploaded} {eventId : Uuid}
    (hb : Booked cfg w) (hk : Holds cfg i w (.adding t (event :: events)))
    (hd : w.drawn eventId = none) :
    Booked cfg (w.draw eventId i) ∧ Frame i w (w.draw eventId i) ∧
      Holds cfg i (w.draw eventId i) (.adding { t with
        added := t.added ++ [(eventId, (integration eventId w.now event).row)] } events) := by
  obtain ⟨hu, hbuilt, hclaim, hstage, hsaved⟩ := hk
  refine ⟨hb.draw hd, .draw hd, hu, ⟨hbuilt.1, hbuilt.2, hbuilt.3, hbuilt.4⟩,
    ⟨drawn_draw hd _ _ hclaim.drawn, hclaim.claim⟩, ?_, hsaved⟩
  rcases hstage with ⟨ha, e, he, hv⟩ | ⟨he, -⟩
  · simp only [List.cons.injEq] at he
    obtain ⟨rfl, rfl⟩ := he
    refine .inr ⟨rfl, eventId, integration eventId w.now event, ?_, hv, ?_⟩
    · simp only [ha, List.nil_append]
    · simp [World.draw]
  · cases he

/-- Whether or not the reply to the COMMIT arrives. -/
theorem commit_good (hb : Booked cfg w) (hk : Holds cfg i w (.adding t [])) :
    Booked cfg (w.commit i t) ∧ Holds cfg i (w.commit i t) (.returned t t.video false) := by
  obtain ⟨hu, hbuilt, hclaim, hstage, row, hs⟩ := hk
  rcases hstage with ⟨-, e, he, -⟩ | ⟨-, o, e, ha, hv, hd⟩
  · cases he
  · have hr : Ready cfg i w t row o e := ⟨hu, hclaim, hs, ha, hv, hd⟩
    exact ⟨hb.commit hr, hbuilt, rfl, entry i w t, mem_commit_log.mpr (.inr rfl), rfl, rfl⟩

/-- What a lost call returns is the winner's video. -/
theorem lost_good {key : String} (hb : Booked cfg w) (hk : Unwritten i w ∧ Built cfg t)
    (hkey : t.command.idempotencyKey = some key) : Holds cfg i w (lost w t key) := by
  unfold lost
  split
  · trivial
  · rename_i stored hstored
    split
    · exact hk.1
    · rename_i video hvideo
      split
      · trivial
      · rename_i hfp
        obtain ⟨-, c, hc, hck, -, -, hresp, hcf⟩ := hb.keys key stored hstored
        rw [restore_snapshot hresp, Option.some.injEq] at hvideo
        refine ⟨hk.1, hk.2, c, hc, hck.trans hkey.symm, ?_, hvideo.symm⟩
        exact hcf.symm.trans (not_not.mp hfp)

theorem step_good {a : Act} (hb : Booked cfg w) (hk : Holds cfg i w k)
    (h : step cfg i w k a = some (w', k')) : Booked cfg w' ∧ Holds cfg i w' k' ∧ Frame i w w' := by
  unfold step at h
  split at h
  · split at h
    · rename_i hd
      split at h
      · cases h
        exact ⟨hb, trivial, .refl⟩
      · rename_i video hv
        cases h
        obtain ⟨hb', hf, hk'⟩ := @begin_good cfg i w _ _ hb hk hd video hv
        exact ⟨hb', hk', hf⟩
    · cases h
  · obtain ⟨response, hresponse, he⟩ := Option.map_eq_some_iff.mp h
    cases he
    exact ⟨hb, ⟨hk, hresponse, rfl⟩, .refl⟩
  · split at h
    · cases h
    · rename_i key hkey
      split at h
      · cases h
      · rename_i hc
        split at h
        · cases h
          exact ⟨hb, ⟨hk.1.1, hk.1.2.1⟩, .refl⟩
        · rename_i hn
          cases h
          obtain ⟨hb', hf, hk'⟩ := insert_good hb hk hkey (not_not.mp hc) (not_not.mp hn)
          exact ⟨hb', hk', hf⟩
  · obtain ⟨-, h⟩ := Option.ite_none_right_eq_some.mp h
    cases h
    exact ⟨hb, save_good hk _, .refl⟩
  · split at h
    · rename_i hd
      cases h
      obtain ⟨hb', hf, hk'⟩ := add_good hb hk hd
      exact ⟨hb', hk', hf⟩
    · cases h
  · cases h
    obtain ⟨hb', hk'⟩ := commit_good hb hk
    exact ⟨hb', hk', .commit⟩
  · cases h
    exact ⟨(commit_good hb hk).1, trivial, .commit⟩
  · cases h
    exact ⟨hb, hk, .refl⟩
  · simp only [Option.map_eq_some_iff, Prod.mk.injEq] at h
    obtain ⟨key, hkey, rfl, rfl⟩ := h
    exact ⟨hb, lost_good hb hk hkey, .refl⟩
  · simp only [Option.map_eq_some_iff, Prod.mk.injEq] at h
    obtain ⟨text, -, rfl, rfl⟩ := h
    exact ⟨hb.release, trivial, .release⟩
  · simp only [Option.map_eq_some_iff, Prod.mk.injEq] at h
    obtain ⟨text, ht, rfl, rfl⟩ := h
    exact ⟨hb.release, hk.unwritten ht, .release⟩
  · cases h

/-- A call that raises has written nothing, unless the reply to its COMMIT was lost. -/
theorem step_raised {a : Act} {e : Error} (hk : Holds cfg i w k)
    (h : step cfg i w k a = some (w', .raised e)) :
    Unwritten i w' ∨ ∃ exc, a = .commitLost exc := by
  unfold step at h
  split at h
  · split at h
    · split at h
      · cases h
        exact .inl hk
      · simp only [Option.some.injEq, Prod.mk.injEq] at h
        obtain ⟨-, h⟩ := h
        split at h <;> cases h
    · cases h
  · obtain ⟨response, -, he⟩ := Option.map_eq_some_iff.mp h
    cases he
  · split at h
    · cases h
    · split at h
      · cases h
      · split at h <;> cases h
  · obtain ⟨-, h⟩ := Option.ite_none_right_eq_some.mp h
    cases h
  · split at h <;> cases h
  · cases h
  · exact .inr ⟨_, rfl⟩
  · cases h
  · simp only [Option.map_eq_some_iff, Prod.mk.injEq] at h
    obtain ⟨key, -, rfl, -⟩ := h
    exact .inl hk.1
  · simp only [Option.map_eq_some_iff, Prod.mk.injEq] at h
    obtain ⟨text, ht, rfl, -⟩ := h
    exact .inl (hk.unwritten ht)
  · simp only [Option.map_eq_some_iff, Prod.mk.injEq] at h
    obtain ⟨text, -, -, h⟩ := h
    cases h
  · cases h

theorem env_good {ev : Env} (hb : Booked cfg w) (h : env w ev = some w') :
    Booked cfg w' ∧ w'.drawn = w.drawn ∧ w'.claims = w.claims ∧ w'.log = w.log := by
  cases ev with
  | tick now =>
    simp only [env] at h
    split at h
    · rename_i hle
      cases h
      exact ⟨hb.congr rfl rfl rfl rfl hle (fun _ _ _ h => h) (fun _ _ h => h), rfl, rfl, rfl⟩
    · cases h
  | purge =>
    cases h
    exact ⟨hb.purge, rfl, rfl, rfl⟩
  | rewrite id row =>
    obtain ⟨r, hr, rfl⟩ := Option.map_eq_some_iff.mp h
    exact ⟨hb.putVideo hr rfl, rfl, rfl, rfl⟩
  | markSent id at_ =>
    obtain ⟨r, hr, rfl⟩ := Option.map_eq_some_iff.mp h
    exact ⟨hb.putOutbox hr rfl rfl rfl, rfl, rfl, rfl⟩

end

/-- In every run the tables are what the commits inserted, and every call stands where its
rows say. -/
theorem good {cfg : Config} {start : Datetime} {as : List Action} {s : State}
    (h : (pool cfg start).machine.Reaches as s) :
    Booked cfg s.world ∧ ∀ i, Holds cfg i s.world (s.clients i) := by
  refine Pool.good_of_reaches (p := pool cfg start) (K := Holds cfg) ?_ ?_ ?_ h
  · refine ⟨⟨?_, ?_, ?_, ?_, ?_, ?_, ?_, ?_, ?_⟩, fun _ c hc => ?_⟩
    all_goals simp_all [pool, Pool.machine]
  · intro s i a w k hg hs
    obtain ⟨hb, hk⟩ := hg
    obtain ⟨hb', hk', hf⟩ := step_good hb (hk i) hs
    exact ⟨hb', hk', fun j hj => (hk j).frame hf hj⟩
  · intro s e w hg hs
    obtain ⟨hb, hk⟩ := hg
    obtain ⟨hb', hd, hc, hl⟩ := env_good hb hs
    refine ⟨hb', fun j => ?_⟩
    have hf : Frame (j + 1) s.world w :=
      ⟨fun _ _ _ h => by rwa [hd], fun _ _ _ h => by rwa [hc], fun _ h => by rwa [hl],
        fun _ h => .inl (by rwa [hl] at h)⟩
    exact (hk j).frame hf (Nat.ne_of_lt (Nat.lt_succ_self j))

/-- A call that raised has written nothing, unless the reply to its COMMIT was lost. -/
theorem raised_unwritten {cfg : Config} {start : Datetime} {as : List Action} {s : State}
    (h : (pool cfg start).machine.Reaches as s) : ∀ i e, s.clients i = .raised e →
      Unwritten i s.world ∨ ∃ exc, .act i (.commitLost exc) ∈ as := by
  refine h.induct (P := fun as s => ∀ i e, s.clients i = .raised e →
    Unwritten i s.world ∨ ∃ exc, .act i (.commitLost exc) ∈ as) ?_ ?_
  · intro i e he
    cases he
  · intro as s a t hr ih hs i e he
    obtain ⟨hb, hk⟩ := good hr
    have hbefore (he : s.clients i = .raised e) {w : World} (hf : Unwritten i s.world →
        Unwritten i w) : Unwritten i w ∨ ∃ exc, .act i (.commitLost exc) ∈ as ++ [a] := by
      rcases ih i e he with hu | ⟨exc, hx⟩
      · exact .inl (hf hu)
      · exact .inr ⟨exc, List.mem_append_left _ hx⟩
    cases a with
    | env ev =>
      obtain ⟨w, hw, rfl⟩ := Pool.env_step.mp hs
      exact hbefore he (fun hu => hu.congr (env_good hb hw).2.2.2)
    | act j b =>
      obtain ⟨w, k, hw, rfl⟩ := Pool.act_step.mp hs
      by_cases hij : i = j
      · subst hij
        simp only [Function.update_self] at he
        subst he
        rcases step_raised (hk i) hw with hu | ⟨exc, rfl⟩
        · exact .inl hu
        · exact .inr ⟨exc, by simp⟩
      · simp only [Function.update_of_ne hij] at he
        exact hbefore he (fun hu => hu.frame (step_good hb (hk j) hw).2.2 hij)

/-- What a reachable state shows of the uploads so far. -/
structure Idempotent (cfg : Config) (start : Datetime) (as : List Action) (s : State) :
    Prop where
  /-- A created video has exactly one `video_uploaded` row, of its own transaction. -/
  announced : ∀ v r, s.world.videos v = some r → ∃ o row, s.world.outbox o = some row ∧
    row.xmin = r.xmin ∧ Announces row.row v ∧
    ∀ o' row', s.world.outbox o' = some row' → Announces row'.row v → o' = o
  /-- A live key names a video of its own transaction. -/
  named : ∀ key r, s.world.keys key = some r → ∃ video v,
    restore r.row.response = some video ∧ s.world.videos video.id = some v ∧ v.xmin = r.xmin
  /-- A call that raised has left nothing of its own, unless its COMMIT was applied and the
  reply lost. -/
  undone : ∀ i, (∃ e, s.clients i = .raised e) ∨ s.clients i = .crashed →
    (∀ exc, .act i (.commitLost exc) ∉ as) →
    (∀ v r, s.world.videos v = some r → r.xmin ≠ i) ∧
    (∀ o r, s.world.outbox o = some r → r.xmin ≠ i) ∧
    ∀ key r, s.world.keys key = some r → r.xmin ≠ i
  /-- Whoever created a video committed it, and within the retention of a committed key no
  other call with that key does. -/
  logged : ∀ v r, s.world.videos v = some r →
    ∃ c ∈ s.world.log, c.txn.video.id = v ∧ c.call = r.xmin
  apart : s.world.log.Pairwise Apart
  /-- A replay returns the video committed under the key by a call with this fingerprint. -/
  replayed : ∀ i t video, s.clients i = .returned t video true → ∃ c ∈ s.world.log,
    c.key = t.command.idempotencyKey ∧ c.txn.fingerprint = t.fingerprint ∧
    video = c.txn.video.replayed cfg.number
  /-- A call that lost its key to another payload is refused, and writes nothing. -/
  refused : ∀ i t key r, s.clients i = .finding t → t.command.idempotencyKey = some key →
    s.world.keys key = some r → r.row.fingerprint ≠ t.fingerprint →
    ∀ s', (pool cfg start).machine.step s (.act i .find) = some s' →
      s'.clients i = .raised (.idempotencyKeyReused key) ∧ s'.world = s.world

/-- Uploads are idempotent in every run of any number of calls. -/
theorem uploads_idempotent {cfg : Config} {start : Datetime} {as : List Action} {s : State}
    (h : (pool cfg start).machine.Reaches as s) : Idempotent cfg start as s := by
  obtain ⟨hb, hk⟩ := good h
  refine ⟨fun v r hr => ?_, fun key r hr => ?_, fun i hi hreplied => ?_, hb.videos, hb.apart,
    fun i t video hi => ?_, fun i t key r hi hkey hr hne s' hs => ?_⟩
  · obtain ⟨c, hc, rfl, hx⟩ := hb.videos v r hr
    obtain ⟨o, row, ho, ⟨e, ha, he, hty, hpl⟩, hxo⟩ := hb.added c hc
    refine ⟨o, row, ho, hxo.trans hx, ⟨hty, e, he, hpl⟩, fun o' row' ho' hann => ?_⟩
    obtain ⟨-, e', he', hpl'⟩ := hann
    obtain ⟨c', hc', ⟨e₂, ha₂, he₂, -, hpl₂⟩, hx'⟩ := hb.outbox o' row' ho'
    have hv : c'.txn.video.id = c.txn.video.id := by
      rw [← he₂, ← he', payload_injective (hpl₂.symm.trans hpl')]
    have hcall : c'.call = c.call := by
      have hd := (hb.drawn c' hc').1
      rw [hv, (hb.drawn c hc).1] at hd
      exact (Option.some.inj hd).symm
    have hcc := hb.same_commit hc' hc hcall
    rw [hcc, ha] at ha₂
    simp only [List.cons.injEq, Prod.mk.injEq, and_true] at ha₂
    exact ha₂.1.symm
  · obtain ⟨-, c, hc, -, hx, -, hresp, -⟩ := hb.keys key r hr
    obtain ⟨v, hv, hvx⟩ := hb.saved c hc
    exact ⟨c.txn.video.replayed cfg.number, v, restore_snapshot hresp, hv, hvx.trans hx⟩
  · have hu : Unwritten i s.world := by
      rcases hi with ⟨e, he⟩ | he
      · exact (raised_unwritten h i e he).resolve_right (fun hx => hreplied _ hx.choose_spec)
      · have hi' := hk i
        rwa [he] at hi'
    exact hu.no_rows hb
  · have hi' := hk i
    rw [hi] at hi'
    exact hi'.2.2
  · obtain ⟨w, k, hw, rfl⟩ := Pool.act_step.mp hs
    have hfind : step cfg i s.world (.finding t) .find = some (s.world, lost s.world t key) := by
      simp [step, hkey]
    rw [hi] at hw
    have hwk := hw.symm.trans hfind
    simp only [Option.some.injEq, Prod.mk.injEq] at hwk
    obtain ⟨rfl, rfl⟩ := hwk
    obtain ⟨-, c, -, -, -, -, hresp, -⟩ := hb.keys key r hr
    simp [lost, hr, restore_snapshot hresp, hne]

/-- SHA-256 on the payloads of these calls. -/
def sha256Sample (text : String) : String :=
  if text = "\x7b\"document\":\x7b\x7d,\"source_key\":\"a.mp4\"\x7d" then
    "2839130303b101785e4763021dcc8c2c5affa318da23e107aab7889baa688512"
  else if text = "\x7b\"document\":\x7b\x7d,\"source_key\":\"b.mp4\"\x7d" then
    "f9ec20c74ee5a6dbf607d5ecce7172c812fead2d55c4033cb66351e1e6725998"
  else ""

def defaults : Config := ⟨sha256Sample, some, 86400⟩

def noon : Datetime := ⟨⟨2026, 1, 1, 12, 0, 0, 0⟩, by decide⟩

def uuid (d : Nat) : Uuid := ⟨List.replicate 32 ⟨d % 16, Nat.mod_lt d (by simp)⟩,
  List.length_replicate⟩

def wins (i : Nat) (id eventId : Uuid) (command : UploadVideoCommand) : List Action :=
  [.act i (.begin id command), .act i .claim, .act i .insert, .act i .save, .act i (.add eventId),
    .act i .commit]

def loses (i : Nat) (id : Uuid) (command : UploadVideoCommand) : List Action :=
  [.act i (.begin id command), .act i .claim, .act i .insert, .act i .commit, .act i .find]

/-- An upload, its retry, and another payload under the same key. -/
def threeCalls : List Action :=
  wins 0 (uuid 1) (uuid 2) ⟨"a.mp4", [], some "k"⟩ ++ loses 1 (uuid 3) ⟨"a.mp4", [], some "k"⟩ ++
    loses 2 (uuid 4) ⟨"b.mp4", [], some "k"⟩

/-- The id of a returned video with its `replayed` flag, or the error. -/
def Call.result : Call → Option (Sum (Uuid × Bool) Error)
  | .returned _ video replayed => some (.inl (video.id, replayed))
  | .raised e => some (.inr e)
  | _ => none

theorem three_calls_one_video : ∃ s, (pool defaults noon).machine.Reaches threeCalls s ∧
    Idempotent defaults noon threeCalls s ∧ (s.clients 0).result = some (.inl (uuid 1, false)) ∧
    (s.clients 1).result = some (.inl (uuid 1, true)) ∧
    (s.clients 2).result = some (.inr (.idempotencyKeyReused "k")) := by
  have hr : ((pool defaults noon).machine.exec (pool defaults noon).machine.start threeCalls).map
      (fun s => [(s.clients 0).result, (s.clients 1).result, (s.clients 2).result]) =
      some [some (.inl (uuid 1, false)), some (.inl (uuid 1, true)),
        some (.inr (.idempotencyKeyReused "k"))] := by
    decide +kernel
  obtain ⟨s, hs, ho⟩ := Machine.reaches_of_map hr
  simp only [List.cons.injEq, and_true] at ho
  exact ⟨s, hs, uploads_idempotent hs, ho⟩

/-- PostgreSQL applies the COMMIT, and the connection breaks before it answers. -/
def replyLost : List Action :=
  [.act 0 (.begin (uuid 1) ⟨"a.mp4", [], some "k"⟩), .act 0 .claim, .act 0 .insert, .act 0 .save,
    .act 0 (.add (uuid 2)), .act 0 (.commitLost "connection is closed")]

theorem raised_call_leaves_video : ¬ ∀ (cfg : Config) (start : Datetime) as s,
    (pool cfg start).machine.Reaches as s → ∀ i, (∃ e, s.clients i = .raised e) →
      ∀ v r, s.world.videos v = some r → r.xmin ≠ i := by
  intro hall
  have hr : ((pool defaults noon).machine.exec (pool defaults noon).machine.start replyLost).map
      (fun s => ((s.clients 0).result, (s.world.videos (uuid 1)).map Stamped.xmin)) =
      some (some (.inr (.port "uow finalize failed: connection is closed")), some 0) := by
    decide +kernel
  obtain ⟨s, hs, ho⟩ := Machine.reaches_of_map hr
  obtain ⟨hresult, hvideo⟩ := Prod.mk.inj ho
  obtain ⟨r, hv, hx⟩ := Option.map_eq_some_iff.mp hvideo
  have hraised : ∃ e, s.clients 0 = .raised e := by
    cases hc : s.clients 0 with
    | raised e => exact ⟨e, rfl⟩
    | _ => simp [hc, Call.result] at hresult
  exact hall defaults noon replyLost s hs 0 hraised (uuid 1) r hv hx

end BackendTemplates.Media.Upload
