import Tsql.Storage.FreshIds

/-!
# Ids that are safe on disk

Which ids the next `Open` is sure to be past. Each of them is below the
counter of its table in the snapshot, or stands in a put record that replay
will apply (`Durable`), whatever order `Open` visits its maps in. Replay
applies MORE than the calls that returned: records of a call that was cut
short are released by a later commit under the same id. That can only move a
counter on.
-/

namespace Tsql.Storage

/-! ## What replay holds back and applies -/

/-- The record is held back. -/
def Waits (pending : GoMap UInt64 (List Record)) (r : Record) : Prop :=
  ∃ tx, r ∈ (pending.get? tx).getD []

section Applied

variable {pending : GoMap UInt64 (List Record)}

theorem applied_append (rs rs' : List Record) :
    applied id pending (rs ++ rs') =
      applied id pending rs ++ applied id (rs.foldl (hold id) pending) rs' := by
  induction rs generalizing pending with
  | nil => rfl
  | cons r rs ih => rw [List.cons_append, applied, applied, ih, List.append_assoc, List.foldl_cons]

theorem Waits.of_hold {r r' : Record} (h : Waits (hold id pending r) r') :
    Waits pending r' ∨ r' = r := by
  obtain ⟨tx, htx⟩ := h
  have hset : ∀ l, r' ∈ ((pending.set r.txn l).get? tx).getD [] →
      r' ∈ l ∨ r' ∈ (pending.get? tx).getD [] := by
    intro l hmem
    rw [GoMap.get?_set] at hmem
    split at hmem
    · exact .inl hmem
    · exact .inr hmem
  unfold hold at htx
  split at htx
  · exact .inl ⟨tx, htx⟩
  · rw [GoMap.get?_delete] at htx
    split at htx
    · cases htx
    · exact .inl ⟨tx, htx⟩
  · rcases hset _ htx with hmem | hmem
    · rcases List.mem_append.mp hmem with hmem | hmem
      · exact .inl ⟨r.txn, hmem⟩
      · exact .inr (List.mem_singleton.mp hmem)
    · exact .inl ⟨tx, hmem⟩

theorem Waits.of_foldl {rs : List Record} {r : Record} (h : Waits (rs.foldl (hold id) pending) r) :
    Waits pending r ∨ r ∈ rs := by
  induction rs generalizing pending with
  | nil => exact .inl h
  | cons r' rs ih =>
    rcases ih h with hw | hmem
    · rcases hw.of_hold with hw | rfl
      · exact .inl hw
      · exact .inr List.mem_cons_self
    · exact .inr (List.mem_cons_of_mem r' hmem)

/-- What is applied was held back before, or is in the log. -/
theorem waits_of_applied {rs : List Record} {r : Record} (h : r ∈ applied id pending rs) :
    Waits pending r ∨ r ∈ rs := by
  obtain ⟨pre, c, post, rfl, -, hr⟩ := mem_applied h
  rcases Waits.of_foldl ⟨_, hr⟩ with hw | hmem
  · exact .inl hw
  · exact .inr (List.mem_append_left _ hmem)

/-- A record that is held back is applied once its commit record comes. -/
theorem applied_of_waits {tx : UInt64} {r : Record} (hr : r ∈ (pending.get? tx).getD [])
    {rs : List Record} {c : Record} (hc : c ∈ rs) (hbody : c.body = .commit) (htx : c.txn = tx) :
    r ∈ applied id pending rs := by
  induction rs generalizing pending with
  | nil => cases hc
  | cons c' rs ih =>
    rw [applied]
    by_cases hhead : c'.body = .commit ∧ c'.txn = tx
    · refine List.mem_append_left _ ?_
      rw [release, id_eq, if_pos hhead.1, hhead.2]
      exact hr
    · refine List.mem_append_right _ (ih ?_ ?_)
      · -- it stays where it is: the next record does not release it
        unfold hold
        split
        · exact hr
        · next hcommit =>
          rw [GoMap.get?_delete, if_neg fun heq => hhead ⟨hcommit, heq.symm⟩]
          exact hr
        · rw [GoMap.get?_set]
          split
          · next heq =>
            rw [← heq]
            exact List.mem_append_left _ hr
          · exact hr
      · rcases List.mem_cons.mp hc with rfl | hc
        · exact absurd ⟨hbody, htx⟩ hhead
        · exact hc

/-- **A whole block is applied**, whatever was held back before it. -/
theorem applied_block (b : Block) {body : RecBody} (hbody : body ∈ b.bodies) :
    ⟨b.tx, body⟩ ∈ applied id pending b.records := by
  have hsplit : ∃ pre post, b.records = pre ++ ⟨b.tx, body⟩ :: (post ++ [⟨b.tx, .commit⟩]) := by
    obtain ⟨before, after, heq⟩ := List.append_of_mem hbody
    refine ⟨(if b.begins then [⟨b.tx, .begin⟩] else []) ++ before.map (Record.mk b.tx),
      after.map (Record.mk b.tx), ?_⟩
    rw [Block.records, heq]
    simp
  obtain ⟨pre, post, heq⟩ := hsplit
  rw [heq, applied_append]
  refine List.mem_append_right _ ?_
  rw [applied]
  refine List.mem_append_right _ ?_
  have hheld : ⟨b.tx, body⟩ ∈ ((hold id (pre.foldl (hold id) pending) ⟨b.tx, body⟩).get? b.tx).getD [] := by
    have hdata := b.plain body hbody
    unfold hold
    cases body <;> first | (cases hdata; done) | simp [GoMap.get?_set_self]
  exact applied_of_waits hheld (List.mem_append_right post (List.mem_singleton_self _)) rfl rfl

end Applied

/-! ## What a directory restores -/

/-- `Open` makes the engine `r` of the snapshot and the records. -/
def Opens (snap : Option SnapshotData) (wal : List Record) (ord : MapOrder) (r : Engine) : Prop :=
  (loadSnapshot ord snap).replay wal = .ok r

/-- The engine has a row under `id`. -/
def Engine.Has (e : Engine) (n : String) (id : Int64) : Prop := (e.get n id).isSome = true

theorem Engine.has_iff {e : Engine} {n : String} {id : Int64} :
    e.Has n id ↔ ∃ t row, e.tables.get? n = some t ∧ t.rows.get? id = some row := by
  unfold Has get
  cases e.tables.get? n with
  | none => simp
  | some t => simp [Option.isSome_iff_exists]

/-- **The ids of `H` are safe on disk**: whatever `Open` makes of the snapshot
and the log has counters past them. `ids` are the tables it finds, and the
counters do not depend on the order in which it visits its maps. -/
structure Durable (H : String → Int64 → Prop) (ids : String → Option UInt32)
    (snap : Option SnapshotData) (wal : List Record) : Prop where
  log : ∀ r ∈ wal, r.body.Tame fun n => (ids n).isSome = true
  filed : ∀ ord r, Opens snap wal ord r → r.Filed
  below : ∀ ord r, Opens snap wal ord r → r.Below
  tables : ∀ ord r, Opens snap wal ord r → ∀ n, r.tableID n = ids n
  high : ∀ ord r, Opens snap wal ord r → ∀ n id t, H n id → r.tables.get? n = some t →
    id < t.nextID
  sameCounters : ∀ ord ord' r r', Opens snap wal ord r → Opens snap wal ord' r' → r.SameCounters r'

section Durable

variable {H H' : String → Int64 → Prop} {ids : String → Option UInt32}
  {snap : Option SnapshotData} {wal ext : List Record}

theorem Opens.of_append {ord : MapOrder} {r' : Engine} (h : Opens snap (wal ++ ext) ord r') :
    ∃ r, Opens snap wal ord r ∧
      applyPending Engine.applyRecord r (applied id (wal.foldl (hold id) ∅) ext) = .ok r' := by
  unfold Opens at h ⊢
  rw [Engine.replay_eq_applied, applied_append, applyPending_append] at h
  rw [Engine.replay_eq_applied]
  cases hr : applyPending Engine.applyRecord (loadSnapshot ord snap) (applied id ∅ wal) with
  | error err =>
    rw [hr] at h
    cases h
  | ok r =>
    rw [hr] at h
    exact ⟨r, rfl, h⟩

theorem Engine.Grows.tableID {e e' : Engine} (h : e.Grows e') (n : String) :
    e'.tableID n = e.tableID n := by
  have hrel := h.tables n
  rw [Engine.tableID, Engine.tableID]
  revert hrel
  cases e.tables.get? n <;> cases e'.tables.get? n <;> intro hrel <;> cases hrel
  · rfl
  · next hg => exact congrArg some hg.id

/-- **Appending tame records**, all of a call's or the first few of them. The
ids of the puts that the next `Open` will apply become safe. -/
theorem Durable.append (h : Durable H ids snap wal)
    (hext : ∀ r ∈ ext, r.body.Tame fun n => (ids n).isSome = true)
    (hnew : ∀ n i, H' n i → H n i ∨ ∀ tid, ids n = some tid →
      ∃ r ∈ applied id (wal.foldl (hold id) ∅) ext, r.body.Puts tid i) :
    Durable H' ids snap (wal ++ ext) := by
  have hlog : ∀ r ∈ wal ++ ext, r.body.Tame fun n => (ids n).isSome = true := by
    intro r hr
    rcases List.mem_append.mp hr with hr | hr
    · exact h.log r hr
    · exact hext r hr
  -- what is applied now may have waited in the log since before
  have hrun : ∀ r ∈ applied id (wal.foldl (hold id) ∅) ext,
      r.body.Tame fun n => (ids n).isSome = true := by
    intro r hr
    rcases waits_of_applied hr with hw | hr
    · rcases hw.of_foldl with ⟨tx, htx⟩ | hr
      · simp at htx
      · exact h.log r hr
    · exact hext r hr
  have hknown : ∀ ord r, Opens snap wal ord r → ∀ n, (ids n).isSome = true →
      (r.tables.get? n).isSome := by
    intro ord r hr n hn
    rw [← h.tables ord r hr n, Engine.tableID, Option.isSome_map] at hn
    exact hn
  refine ⟨hlog, ?_, ?_, ?_, ?_, ?_⟩
  · intro ord r' hr'
    obtain ⟨r, hr, happ⟩ := hr'.of_append
    exact (Engine.grows_applyPending (hknown ord r hr) hrun happ).1.filed (h.filed ord r hr)
  · intro ord r' hr'
    obtain ⟨r, hr, happ⟩ := hr'.of_append
    exact (Engine.grows_applyPending (hknown ord r hr) hrun happ).1.below (h.below ord r hr)
  · intro ord r' hr' n
    obtain ⟨r, hr, happ⟩ := hr'.of_append
    rw [(Engine.grows_applyPending (hknown ord r hr) hrun happ).1.tableID]
    exact h.tables ord r hr n
  · intro ord r' hr' n id t' hid ht'
    obtain ⟨r, hr, happ⟩ := hr'.of_append
    obtain ⟨hg, hputs⟩ := Engine.grows_applyPending (hknown ord r hr) hrun happ
    obtain ⟨t, ht, hgt⟩ := hg.back ht'
    rcases hnew n id hid with hold | hput
    · exact Int64.lt_of_lt_of_le (h.high ord r hr n id t hold ht) hgt.next
    · have hids : ids n = some t.id := by
        rw [← h.tables ord r hr n, Engine.tableID, ht]
        rfl
      obtain ⟨rec, hrec, hp⟩ := hput t.id hids
      exact hputs rec hrec t.id id hp n t' ((h.filed ord r hr t.id n).mpr ⟨t, ht, rfl⟩) ht'
  · intro ord ord' r1 r1' hr1 hr1'
    obtain ⟨r, hr, happ⟩ := hr1.of_append
    obtain ⟨r', hr', happ'⟩ := hr1'.of_append
    exact (h.sameCounters ord ord' r r' hr hr').applyPending (h.filed ord r hr) (h.filed ord' r' hr')
      (hknown ord r hr) hrun happ happ'

theorem Durable.append_old (h : Durable H ids snap wal)
    (hext : ∀ r ∈ ext, r.body.Tame fun n => (ids n).isSome = true) :
    Durable H ids snap (wal ++ ext) :=
  h.append hext fun _ _ hid => .inl hid

/-- **The rows a recovery brings back** are safe as well: their ids are below
its counters, and so below those of the next. -/
theorem Durable.opened (h : Durable H ids snap wal) {ord : MapOrder} {r : Engine}
    (hr : Opens snap wal ord r) : Durable (fun n id => H n id ∨ r.Has n id) ids snap wal := by
  refine ⟨h.log, h.filed, h.below, h.tables, ?_, h.sameCounters⟩
  intro ord' r' hr' n id t' hid ht'
  rcases hid with hid | hhas
  · exact h.high ord' r' hr' n id t' hid ht'
  · obtain ⟨t, row, ht, hrow⟩ := Engine.has_iff.mp hhas
    obtain ⟨t1, ht1, -, hnext⟩ := (h.sameCounters ord ord' r r' hr hr').forth ht
    rw [ht'] at ht1
    cases ht1
    rw [← hnext]
    exact h.below ord r hr n t ht id row hrow

/-- A directory without a snapshot, and an empty log. -/
theorem durable_empty (H : String → Int64 → Prop) : Durable H (fun _ => none) none [] := by
  have hopen : ∀ ord r, Opens none [] ord r → r = {} := by
    intro ord r hr
    cases hr
    rfl
  refine ⟨by simp, ?_, ?_, ?_, ?_, ?_⟩
  · intro ord r hr tid n
    rw [hopen ord r hr]
    simp
  · intro ord r hr n t ht
    rw [hopen ord r hr] at ht
    simp at ht
  · intro ord r hr n
    rw [hopen ord r hr]
    rfl
  · intro ord r hr n id t hid ht
    rw [hopen ord r hr] at ht
    simp at ht
  · intro ord ord' r r' hr hr' n
    rw [hopen ord r hr, hopen ord' r' hr']
    exact .none

/-- Whatever is in `byID` after loading is an entry that was loaded. -/
theorem loadTables_byID (ord : MapOrder) (l : List (String × SnapshotTable)) (e : Engine)
    {i : UInt32} {n : String} (h : (l.foldl (Engine.loadTable ord) e).byID.get? i = some n) :
    e.byID.get? i = some n ∨ ∃ st, (n, st) ∈ l ∧ st.id = i := by
  induction l generalizing e with
  | nil => exact .inl h
  | cons p l ih =>
    rcases ih (e.loadTable ord p) h with hbase | ⟨st, hst, hid⟩
    · have hload : (p.2.load ord).id = p.2.id := (Table.buildUniqLocked_frame ord.rows _).2.2.1
      rw [Engine.loadTable, GoMap.get?_set] at hbase
      split at hbase
      · next hi =>
        cases hbase
        exact .inr ⟨p.2, List.mem_cons_self, hload.symm.trans hi.symm⟩
      · exact .inl hbase
    · exact .inr ⟨st, List.mem_cons_of_mem p hst, hid⟩

/-- **A snapshot of an engine** has its tables, rows and counters. -/
theorem durable_capture {e : Engine} (hf : e.Filed) (hb : e.Below)
    (hhigh : ∀ n id t, H n id → e.tables.get? n = some t → id < t.nextID) :
    Durable H e.tableID (some e.capture) [] := by
  have hframe : ∀ ord n (t : Table), ((t.snapshot n).load ord).id = t.id ∧
      ((t.snapshot n).load ord).rows = t.rows ∧ ((t.snapshot n).load ord).nextID = t.nextID := by
    intro ord n t
    obtain ⟨hrows, -, hid, -, hnext⟩ := Table.buildUniqLocked_frame ord.rows
      ({ id := t.id, name := n, cols := t.cols, rows := t.rows, nextID := t.nextID }
        : Table).initUniq
    exact ⟨hid, hrows, hnext⟩
  have hinj : ∀ n n' st st', e.capture.tables.get? n = some st →
      e.capture.tables.get? n' = some st' → st.id = st'.id → n = n' := by
    intro n n' st st' hst hst' hid
    rw [get?_capture, Option.map_eq_some_iff] at hst hst'
    obtain ⟨t, ht, rfl⟩ := hst
    obtain ⟨t', ht', rfl⟩ := hst'
    have h1 := (hf t.id n).mpr ⟨t, ht, rfl⟩
    have h2 := (hf t.id n').mpr ⟨t', ht', hid.symm⟩
    rw [h1] at h2
    exact Option.some.inj h2
  have htables : ∀ ord r, Opens (some e.capture) [] ord r → ∀ n,
      r.tables.get? n = (e.tables.get? n).map fun t => (t.snapshot n).load ord := by
    intro ord r hr n
    cases hr
    rw [(loadSnapshot_spec ord hinj).1, get?_capture, Option.map_map]
    rfl
  have hback : ∀ ord r, Opens (some e.capture) [] ord r → ∀ n t', r.tables.get? n = some t' →
      ∃ t, e.tables.get? n = some t ∧ t'.id = t.id ∧ t'.rows = t.rows ∧ t'.nextID = t.nextID := by
    intro ord r hr n t' ht'
    rw [htables ord r hr, Option.map_eq_some_iff] at ht'
    obtain ⟨t, ht, rfl⟩ := ht'
    exact ⟨t, ht, hframe ord n t⟩
  refine ⟨by simp, ?_, ?_, ?_, ?_, ?_⟩
  · intro ord r hr tid n
    constructor
    · intro hbyID
      cases hr
      rcases loadTables_byID ord _ {} hbyID with hnone | ⟨st, hst, rfl⟩
      · simp at hnone
      · rw [(ord.tables.enumerates _).mem_iff] at hst
        refine ⟨st.load ord, ?_, (Table.buildUniqLocked_frame ord.rows _).2.2.1⟩
        rw [(loadSnapshot_spec ord hinj).1, hst]
        rfl
    · rintro ⟨t', ht', rfl⟩
      obtain ⟨t, ht, hid, -⟩ := hback ord r hr n t' ht'
      cases hr
      rw [hid]
      refine (loadSnapshot_spec ord hinj).2 n (t.snapshot n) ?_
      rw [get?_capture, ht]
      rfl
  · intro ord r hr n t' ht' id row hrow
    obtain ⟨t, ht, -, hrows, hnext⟩ := hback ord r hr n t' ht'
    rw [hrows] at hrow
    rw [hnext]
    exact hb n t ht id row hrow
  · intro ord r hr n
    rw [Engine.tableID, Engine.tableID, htables ord r hr n, Option.map_map]
    cases e.tables.get? n with
    | none => rfl
    | some t => exact congrArg some (hframe ord n t).1
  · intro ord r hr n id t' hid ht'
    obtain ⟨t, ht, -, -, hnext⟩ := hback ord r hr n t' ht'
    rw [hnext]
    exact hhigh n id t hid ht
  · intro ord ord' r r' hr hr' n
    rw [htables ord r hr, htables ord' r' hr']
    cases e.tables.get? n with
    | none => exact .none
    | some t =>
      obtain ⟨hid, -, hnext⟩ := hframe ord n t
      obtain ⟨hid', -, hnext'⟩ := hframe ord' n t
      exact .some ⟨hid.trans hid'.symm, hnext.trans hnext'.symm⟩

end Durable

end Tsql.Storage
