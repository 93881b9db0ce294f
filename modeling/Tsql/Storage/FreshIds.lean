import Tsql.Storage.History
import Tsql.Storage.Recovery
import Tsql.Storage.Writes

/-!
# Automatic row ids

A table hands out row ids from a counter. The automatic branch of `put` does
not look whether a row is there already: it relies on the counter being past
every id the table has ever held. Explicit ids move the counter
(`bumpNextID`), a reservation moves it, and recovery rebuilds it, from the
value in the snapshot and from the put records in the log.

`Grows` says what all these paths have in common: the counter of a table
never goes back, and stays past the ids of its rows. It holds as long as
`id + 1` does not leave `int64`. The largest id is accepted like any other;
the counter then WRAPS to the smallest, the next explicit id pulls it down
among the rows, and automatic inserts overwrite them.
-/

namespace Tsql.Storage

/-- Below the largest id, the next id is one more. -/
theorem toInt_add_one {x : Int64} (h : x ≠ Int64.maxValue) : (x + 1).toInt = x.toInt + 1 := by
  have hne : x.toInt ≠ Int64.maxValue.toInt := fun heq => h (Int64.toInt_inj.mp heq)
  have hmax : Int64.maxValue.toInt = 9223372036854775807 := rfl
  have hlt := x.toInt_lt
  have hle := x.le_toInt
  rw [Int64.toInt_add]
  simp only [Int64.toInt_one, Int.bmod_def]
  split <;> omega

/-! ## One table -/

namespace Table

variable {t t' : Table} {rowID id : Int64} {row : Row}

/-- The counter is past the ids of the rows. -/
def Below (t : Table) : Prop := ∀ id row, t.rows.get? id = some row → id < t.nextID

/-- The same table, its counter where it was or further on. -/
structure Grows (t t' : Table) : Prop where
  id : t'.id = t.id
  next : t.nextID ≤ t'.nextID
  below : t.Below → t'.Below

theorem Grows.refl (t : Table) : t.Grows t := ⟨rfl, Int64.le_refl _, fun h => h⟩

theorem Grows.trans {t'' : Table} (h : t.Grows t') (h' : t'.Grows t'') : t.Grows t'' :=
  ⟨h'.id.trans h.id, Int64.le_trans h.next h'.next, fun hb => h'.below (h.below hb)⟩

/-- A counter that moves on with the rows left alone. -/
theorem grows_of_rows (hid : t'.id = t.id) (hrows : t'.rows = t.rows)
    (hnext : t.nextID ≤ t'.nextID) : t.Grows t' := by
  refine ⟨hid, hnext, fun hb id row hrow => ?_⟩
  rw [hrows] at hrow
  exact Int64.lt_of_lt_of_le (hb id row hrow) hnext

theorem Below.storeRow (h : t.Below) (hid : id < t.nextID) (row : Row) :
    (t.storeRow id row).Below := by
  intro id' row' hrow
  rw [storeRow_nextID]
  rw [storeRow_rows, GoMap.get?_set] at hrow
  split at hrow
  · next heq =>
    rw [heq]
    exact hid
  · exact h id' row' hrow

theorem grows_eraseRow (t : Table) (rowID : Int64) : t.Grows (t.eraseRow rowID) := by
  refine ⟨by simp, by rw [eraseRow_nextID]; exact Int64.le_refl _, fun hb id row hrow => ?_⟩
  rw [eraseRow_nextID]
  rw [eraseRow_rows, GoMap.get?_delete] at hrow
  split at hrow
  · cases hrow
  · exact hb id row hrow

theorem bumpNextID_next (t : Table) (h : rowID ≠ Int64.maxValue) :
    t.nextID ≤ (t.bumpNextID rowID).nextID ∧ rowID < (t.bumpNextID rowID).nextID := by
  have hsucc := toInt_add_one h
  unfold bumpNextID
  split
  · next hge =>
    have hge : t.nextID ≤ rowID := hge
    rw [Int64.le_iff_toInt_le] at hge
    simp only [Int64.le_iff_toInt_le, Int64.lt_iff_toInt_lt]
    omega
  · next hlt => exact ⟨Int64.le_refl _, Int64.not_le.mp hlt⟩

theorem bumpNextID_rows (t : Table) (rowID : Int64) : (t.bumpNextID rowID).rows = t.rows := by
  unfold bumpNextID
  split <;> rfl

theorem bumpNextID_id (t : Table) (rowID : Int64) : (t.bumpNextID rowID).id = t.id := by
  unfold bumpNextID
  split <;> rfl

/-- **A put applied to memory**, at a commit or by recovery, moves the counter
past its id. -/
theorem grows_applyPut (h : t.applyPut rowID row = .ok t') (hmax : rowID ≠ Int64.maxValue) :
    t.Grows t' ∧ rowID < t'.nextID := by
  unfold applyPut at h
  split at h
  · cases h
    obtain ⟨hle, hlt⟩ := (t.storeRow rowID row).bumpNextID_next hmax
    rw [storeRow_nextID] at hle
    refine ⟨⟨by simp [bumpNextID_id], hle, fun hb id row' hrow => ?_⟩, hlt⟩
    rw [bumpNextID_rows, storeRow_rows, GoMap.get?_set] at hrow
    split at hrow
    · next heq =>
      rw [heq]
      exact hlt
    · exact Int64.lt_of_lt_of_le (hb id row' hrow) hle
  · cases h

/-- Where it leaves the counter depends on nothing but the counter and the id. -/
theorem applyPut_counter {t1 : Table}
    (h : t.applyPut rowID row = .ok t1) :
    t1.id = t.id ∧ t1.nextID = if rowID ≥ t.nextID then rowID + 1 else t.nextID := by
  unfold applyPut at h
  split at h
  · cases h
    refine ⟨by simp [bumpNextID_id], ?_⟩
    unfold bumpNextID
    rw [storeRow_nextID]
    split <;> simp
  · cases h

/-- The counter of a put can be moved on: the automatic id, or the explicit
one, is not the last there is. -/
def Room (t : Table) (rowID : Int64) : Prop :=
  if rowID = 0 then t.nextID ≠ Int64.maxValue else rowID ≠ Int64.maxValue

instance (t : Table) (rowID : Int64) : Decidable (t.Room rowID) :=
  inferInstanceAs (Decidable (if rowID = 0 then t.nextID ≠ Int64.maxValue
    else rowID ≠ Int64.maxValue))

/-- **The check of a put** leaves the counter past the id it has found. An
automatic id is the counter as it was. -/
theorem grows_putCheck (hbelow : t.Below) {pkIdx : Int} {mustExist : Bool}
    (hroom : mustExist = false → t.Room rowID) (hzero : mustExist = true → rowID ≠ 0)
    {t1 : Table} {res : Except Err (Int64 × Row)}
    (h : t.putCheck pkIdx rowID row mustExist = (t1, res)) :
    t.Grows t1 ∧ ∀ id row', res = .ok (id, row') →
      id < t1.nextID ∧ id ≠ Int64.maxValue ∧ (rowID = 0 → id = t.nextID) := by
  have hfail : ∀ err : Err, t.Grows t ∧ ∀ id row', (.error err : Except Err (Int64 × Row)) =
      .ok (id, row') → id < t.nextID ∧ id ≠ Int64.maxValue ∧ (rowID = 0 → id = t.nextID) := by
    intro err
    refine ⟨.refl t, fun id row' hok => ?_⟩
    cases hok
  unfold putCheck at h
  split at h
  · cases h
    exact hfail _
  dsimp only at h
  split at h
  · cases h
    exact hfail _
  split at h
  · cases h
    exact hfail _
  next hexists hmissing =>
  -- the counter that both outcomes of the UNIQUE check leave
  obtain ⟨t2, ht2, hgrows, hlt, hmax⟩ : ∃ t2, (if rowID ≠ 0 ∧ (t.rows.get? rowID).isSome = true then
        (if rowID = 0 then { t with nextID := t.nextID + 1 } else t)
      else (if rowID = 0 then { t with nextID := t.nextID + 1 } else t).bumpNextID
        (if rowID = 0 then t.nextID else rowID)) = t2 ∧ t.Grows t2 ∧
      (if rowID = 0 then t.nextID else rowID) < t2.nextID ∧
      (if rowID = 0 then t.nextID else rowID) ≠ Int64.maxValue := by
    refine ⟨_, rfl, ?_⟩
    by_cases hrow : rowID = 0
    · -- automatic: the id is the counter, and the counter moves on
      have hnext : t.nextID ≠ Int64.maxValue := by
        cases mustExist with
        | true => exact absurd hrow (hzero rfl)
        | false => simpa [Room, hrow] using hroom rfl
      have hsucc := toInt_add_one hnext
      obtain ⟨hle, hlt⟩ := bumpNextID_next { t with nextID := t.nextID + 1 } hnext
      simp only [hrow, ne_eq, not_true_eq_false, false_and, if_false, if_true]
      refine ⟨grows_of_rows (bumpNextID_id _ _) (bumpNextID_rows _ _) ?_, hlt, hnext⟩
      refine Int64.le_trans ?_ hle
      show t.nextID ≤ t.nextID + 1
      rw [Int64.le_iff_toInt_le]
      omega
    · simp only [hrow, ne_eq, not_false_eq_true, true_and, if_false]
      split
      · -- a row that is there has an id below the counter
        next hfound =>
        obtain ⟨old, hold⟩ := Option.isSome_iff_exists.mp hfound
        have hlt := hbelow rowID old hold
        refine ⟨.refl t, hlt, ?_⟩
        rintro rfl
        rw [Int64.lt_iff_toInt_lt] at hlt
        have := t.nextID.toInt_lt
        have hmax : Int64.maxValue.toInt = 9223372036854775807 := rfl
        omega
      · next hfound =>
        have hmust : mustExist = false := by
          by_contra hne
          refine hmissing ⟨hrow, fun hf => hfound hf.2, ?_⟩
          simpa using hne
        have hmax : rowID ≠ Int64.maxValue := by simpa [Room, hrow] using hroom hmust
        obtain ⟨hle, hlt⟩ := t.bumpNextID_next hmax
        exact ⟨grows_of_rows (bumpNextID_id _ _) (bumpNextID_rows _ _) hle, hlt, hmax⟩
  have hauto : rowID = 0 → (if rowID = 0 then t.nextID else rowID) = t.nextID :=
    fun hrow => if_pos hrow
  rw [ht2] at h
  generalize (if rowID = 0 then t.nextID else rowID) = found at h hlt hmax hauto
  split at h
  · cases h
    refine ⟨hgrows, fun id row' hok => ?_⟩
    cases hok
  · cases h
    refine ⟨hgrows, fun id row' hok => ?_⟩
    cases hok
    exact ⟨hlt, hmax, hauto⟩

end Table

/-! ## The engine -/

/-- A record that moves no counter back: it puts a row, under an id that is not
the largest, or deletes one, or brackets a transaction, or creates a table that
is `known` already, which replay skips. -/
def RecBody.Tame (known : String → Prop) : RecBody → Prop
  | .begin | .commit | .delete _ _ => True
  | .put _ rowID _ => rowID ≠ Int64.maxValue
  | .create d => known d.name
  | .drop _ => False

/-- A record that moves no counter back and creates nothing. -/
def RecBody.Plain : RecBody → Prop := RecBody.Tame fun _ => False

theorem RecBody.Tame.mono {known known' : String → Prop} {b : RecBody} (h : b.Tame known)
    (hk : ∀ n, known n → known' n) : b.Tame known' := by
  cases b with
  | create d => exact hk d.name h
  | drop d => exact h
  | put tid id row => exact h
  | _ => trivial

/-- The record puts a row under `id`, in the table that has the id `tid`. -/
def RecBody.Puts (tid : UInt32) (id : Int64) (b : RecBody) : Prop := ∃ row, b = .put tid id row

namespace Engine

variable {e e' : Engine}

/-- Every counter is past the ids of its table's rows. -/
def Below (e : Engine) : Prop := ∀ n t, e.tables.get? n = some t → t.Below

/-- The same tables, with counters where they were or further on. -/
structure Grows (e e' : Engine) : Prop where
  byID : e'.byID = e.byID
  tables : ∀ n, Option.Rel Table.Grows (e.tables.get? n) (e'.tables.get? n)

theorem grows_of_tables (hbyID : e'.byID = e.byID) (h : e'.tables = e.tables) : e.Grows e' := by
  refine ⟨hbyID, fun n => ?_⟩
  rw [h]
  cases e.tables.get? n with
  | none => exact .none
  | some t => exact .some (.refl t)

theorem Grows.trans {e'' : Engine} (h : e.Grows e') (h' : e'.Grows e'') : e.Grows e'' := by
  refine ⟨h'.byID.trans h.byID, fun n => ?_⟩
  have h1 := h.tables n
  have h2 := h'.tables n
  revert h1 h2
  cases e.tables.get? n <;> cases e'.tables.get? n <;> cases e''.tables.get? n <;>
    intro h1 h2 <;> cases h1 <;> cases h2
  · exact .none
  · next h1 h2 => exact .some (h1.trans h2)

theorem grows_setTable {name : String} {t t' : Table} (ht : e.tables.get? name = some t)
    (h : t.Grows t') : e.Grows (e.setTable name t') := by
  refine ⟨rfl, fun n => ?_⟩
  rw [setTable, GoMap.get?_set]
  split
  · next hn =>
    rw [hn, ht]
    exact .some h
  · exact (grows_of_tables rfl rfl : e.Grows e).tables n

/-- The table of the later state, in the earlier one. -/
theorem Grows.back (h : e.Grows e') {n : String} {t' : Table} (ht' : e'.tables.get? n = some t') :
    ∃ t, e.tables.get? n = some t ∧ t.Grows t' := by
  have := h.tables n
  rw [ht'] at this
  generalize ho : e.tables.get? n = o at this
  cases this with
  | some hg => exact ⟨_, rfl, hg⟩

theorem Grows.forth (h : e.Grows e') {n : String} {t : Table} (ht : e.tables.get? n = some t) :
    ∃ t', e'.tables.get? n = some t' ∧ t.Grows t' := by
  have := h.tables n
  rw [ht] at this
  generalize ho : e'.tables.get? n = o at this
  cases this with
  | some hg => exact ⟨_, rfl, hg⟩

theorem Grows.below (h : e.Grows e') (hb : e.Below) : e'.Below := by
  intro n t' ht'
  obtain ⟨t, ht, hg⟩ := h.back ht'
  exact hg.below (hb n t ht)

/-- The call grows the tables, and logs plain records only. -/
structure Climbs (e e' : Engine) : Prop where
  grows : e.Grows e'
  log : ∃ ext, e'.wal = e.wal ++ ext ∧ ∀ r ∈ ext, r.body.Plain

theorem Climbs.quiet (h : e.Grows e') (hwal : e'.wal = e.wal) : e.Climbs e' :=
  ⟨h, [], by simp [hwal], by simp⟩

theorem Climbs.refl (e : Engine) : e.Climbs e := .quiet (grows_of_tables rfl rfl) rfl

theorem tame_txnRecords {tx : UInt64} {body : RecBody} (h : body.Plain) :
    ∀ r ∈ txnRecords tx body, r.body.Plain := by
  intro r hr
  simp only [txnRecords, List.mem_cons, List.not_mem_nil, or_false] at hr
  rcases hr with rfl | rfl | rfl
  · trivial
  · exact h
  · trivial

/-- A put has room in the table it goes to. -/
def Room (e : Engine) (name : String) (rowID : Int64) : Prop :=
  ∀ t ∈ e.tables.get? name, t.Room rowID

instance (e : Engine) (name : String) (rowID : Int64) : Decidable (e.Room name rowID) :=
  inferInstanceAs (Decidable (∀ t ∈ e.tables.get? name, t.Room rowID))

theorem climbs_putRow (hb : e.Below) (name : String) (pkIdx : Int) (rowID : Int64) (row : Row)
    (mustExist : Bool) (hroom : mustExist = false → e.Room name rowID) :
    e.Climbs (e.putRow name pkIdx rowID row mustExist).1 := by
  unfold putRow
  cases hcheck : checkRowID rowID mustExist with
  | error err => exact .refl e
  | ok u =>
    have hzero : mustExist = true → rowID ≠ 0 := by
      rintro rfl rfl
      cases hcheck
    cases ht : e.tables.get? name with
    | none => exact .refl e
    | some t =>
      dsimp only
      unfold putSection
      rcases hc : t.putCheck pkIdx rowID row mustExist with ⟨t1, err | ⟨id, row'⟩⟩
      · have hg := (Table.grows_putCheck (hb name t ht) (fun hm => hroom hm t ht) hzero hc).1
        exact .quiet (grows_setTable ht hg) rfl
      · obtain ⟨hg, hid⟩ := Table.grows_putCheck (hb name t ht) (fun hm => hroom hm t ht) hzero hc
        obtain ⟨hlt, hmax, -⟩ := hid id row' rfl
        refine ⟨?_, txnRecords (e.txSeq + 1) (.put t1.id id row'), rfl, tame_txnRecords hmax⟩
        have hstore : t1.Grows (t1.storeRow id row') :=
          ⟨by simp, by rw [Table.storeRow_nextID]; exact Int64.le_refl _,
            fun hb => hb.storeRow hlt row'⟩
        have htxn : (e.txn (.put t1.id id row')).tables.get? name = some t := ht
        exact (grows_of_tables rfl rfl : e.Grows (e.txn _)).trans
          (grows_setTable htxn (hg.trans hstore))

theorem climbs_delete (e : Engine) (name : String) (rowID : Int64) :
    e.Climbs (e.delete name rowID).1 := by
  unfold delete
  cases ht : e.tables.get? name with
  | none => exact .refl e
  | some t =>
    dsimp only
    unfold deleteSection
    cases t.rows.get? rowID with
    | none => exact .refl e
    | some old =>
      refine ⟨?_, txnRecords (e.txSeq + 1) (.delete t.id rowID), rfl, tame_txnRecords trivial⟩
      have htxn : (e.txn (.delete t.id rowID)).tables.get? name = some t := ht
      exact (grows_of_tables rfl rfl : e.Grows (e.txn _)).trans
        (grows_setTable htxn (t.grows_eraseRow rowID))

theorem grows_reserveID (name : String) (h : e.Room name 0) : e.Grows (e.reserveID name).1 := by
  unfold reserveID
  cases ht : e.tables.get? name with
  | none => exact grows_of_tables rfl rfl
  | some t =>
    have hmax : t.nextID ≠ Int64.maxValue := by simpa [Table.Room] using h t ht
    refine grows_setTable ht (Table.grows_of_rows rfl rfl ?_)
    have hsucc := toInt_add_one hmax
    show t.nextID ≤ t.nextID + 1
    rw [Int64.le_iff_toInt_le]
    omega

/-- An insert into a transaction reserves an id, or leaves the engine alone. -/
theorem climbs_insertRow (t : Txn) (name : String) (rowID : Int64) (row : Row)
    (stamp : Int64 → Row → Except Err Row) (h : rowID = 0 → e.Room name 0) :
    e.Climbs (t.insertRow e name rowID row stamp).1 := by
  rcases (t.insertRow_keeps e name rowID row stamp).1 with heq | ⟨hzero, heq⟩
  · rw [heq]
    exact .refl e
  · rw [heq]
    refine .quiet (grows_reserveID name (h hzero)) ?_
    unfold reserveID
    cases e.tables.get? name <;> rfl

/-- A buffer without the largest id. -/
def Countable (ops : List Op) : Prop := ∀ o ∈ ops, o.write.rowID ≠ Int64.maxValue

instance (ops : List Op) : Decidable (Countable ops) :=
  inferInstanceAs (Decidable (∀ o ∈ ops, o.write.rowID ≠ Int64.maxValue))

theorem grows_applyOp {o : Op} (h : o.write.rowID ≠ Int64.maxValue)
    (he : e.applyOp o = .ok e') : e.Grows e' := by
  obtain ⟨name, write⟩ := o
  cases write with
  | put id row =>
    have he : e.applyPut name id row = .ok e' := he
    unfold applyPut at he
    cases ht : e.tables.get? name with
    | none => simp [ht] at he
    | some t =>
      simp only [ht] at he
      cases hput : t.applyPut id row with
      | error err => simp [hput] at he
      | ok t' =>
        simp only [hput, Except.ok.injEq] at he
        rw [← he]
        exact grows_setTable ht (Table.grows_applyPut hput h).1
  | delete id =>
    have he : e.applyDelete name id = .ok e' := he
    unfold applyDelete at he
    cases ht : e.tables.get? name with
    | none => simp [ht] at he
    | some t =>
      simp only [ht, Except.ok.injEq] at he
      rw [← he]
      exact grows_setTable ht (t.grows_eraseRow id)

/-- The loop of a commit over its buffer. -/
theorem grows_applyOps {ops : List Op} (h : Countable ops) (e : Engine) :
    e.Grows (e.applyOps ops).1 := by
  induction ops generalizing e with
  | nil => exact grows_of_tables rfl rfl
  | cons o ops ih =>
    obtain ⟨ho, hops⟩ := List.forall_mem_cons.mp h
    rw [applyOps]
    cases he : e.applyOp o with
    | error err => exact grows_of_tables rfl rfl
    | ok e1 => exact (grows_applyOp ho he).trans (ih hops e1)

theorem tame_opBodies {ops : List Op} (h : Countable ops) {bodies : List RecBody}
    (hb : e.opBodies ops = .ok bodies) : ∀ b ∈ bodies, b.Plain := by
  induction ops generalizing bodies with
  | nil =>
    cases hb
    simp
  | cons o ops ih =>
    obtain ⟨ho, hops⟩ := List.forall_mem_cons.mp h
    rw [opBodies] at hb
    cases htid : e.tableID o.name with
    | none => simp [htid] at hb
    | some tid =>
      simp only [htid] at hb
      cases hrest : e.opBodies ops with
      | error err => simp [hrest] at hb
      | ok rest =>
        simp only [hrest, Except.ok.injEq] at hb
        rw [← hb]
        refine List.forall_mem_cons.mpr ⟨?_, ih hops hrest⟩
        unfold Op.body
        cases hw : o.write with
        | put id row =>
          rw [hw] at ho
          exact ho
        | delete id => trivial

theorem climbs_commit (t : Txn) (ord : CommitOrder) (h : Countable t.ops) :
    e.Climbs (t.commit ord e).1 := by
  unfold Txn.commit
  split
  · exact .refl e
  cases t.validate ord e with
  | error err => exact .refl e
  | ok u =>
    dsimp only
    split
    · exact .refl e
    · unfold commitTxn
      cases hb : e.opBodies t.ops with
      | error err => exact .refl e
      | ok bodies =>
        dsimp only
        have hgrows := grows_applyOps h (e.appendCommit t.id bodies)
        have hwal := (applyOps_still (e.appendCommit t.id bodies) t.ops).1
        refine ⟨(grows_of_tables rfl rfl : e.Grows (e.appendCommit _ _)).trans hgrows,
          _, hwal, ?_⟩
        intro r hr
        rcases List.mem_append.mp hr with hr | hr
        · obtain ⟨b, hb', rfl⟩ := List.mem_map.mp hr
          exact tame_opBodies h hb b hb'
        · rw [List.mem_singleton.mp hr]
          trivial

/-! ## Recovery -/

theorem tableByID_eq_some {tid : UInt32} {name : String} {t : Table} :
    e.tableByID tid = some (name, t) ↔
      e.byID.get? tid = some name ∧ e.tables.get? name = some t := by
  rw [tableByID, Option.bind_eq_some_iff]
  constructor
  · rintro ⟨n, hn, hmap⟩
    obtain ⟨t', ht', heq⟩ := Option.map_eq_some_iff.mp hmap
    cases heq
    exact ⟨hn, ht'⟩
  · rintro ⟨hn, ht⟩
    exact ⟨name, hn, by rw [ht]; rfl⟩

/-- **Replaying a tame record** grows the tables, and a put moves the counter
of its table past its id. -/
theorem grows_applyBody {known : String → Prop} (hknown : ∀ n, known n → (e.tables.get? n).isSome)
    {b : RecBody} (hb : b.Tame known) (h : e.applyBody b = .ok e') :
    e.Grows e' ∧ ∀ tid id, b.Puts tid id → ∀ n t', e.byID.get? tid = some n →
      e'.tables.get? n = some t' → id < t'.nextID := by
  have hother : (∀ tid id, ¬ b.Puts tid id) → e.Grows e' →
      e.Grows e' ∧ ∀ tid id, b.Puts tid id → ∀ n t', e.byID.get? tid = some n →
        e'.tables.get? n = some t' → id < t'.nextID :=
    fun hno hg => ⟨hg, fun tid id hput => absurd hput (hno tid id)⟩
  cases b with
  | create d =>
    refine hother (by rintro tid id ⟨row, heq⟩; cases heq) ?_
    obtain ⟨t, ht⟩ := Option.isSome_iff_exists.mp (hknown d.name hb)
    simp only [applyBody, ht, Except.ok.injEq] at h
    rw [← h]
    exact grows_of_tables rfl rfl
  | drop d => cases hb
  | begin =>
    cases h
    exact hother (by rintro tid id ⟨row, heq⟩; cases heq) (grows_of_tables rfl rfl)
  | commit =>
    cases h
    exact hother (by rintro tid id ⟨row, heq⟩; cases heq) (grows_of_tables rfl rfl)
  | delete tid rowID =>
    refine hother (by rintro tid id ⟨row, heq⟩; cases heq) ?_
    rw [applyBody] at h
    cases ht : e.tableByID tid with
    | none => simp [ht] at h
    | some p =>
      simp only [ht, Except.ok.injEq] at h
      rw [← h]
      exact grows_setTable (tableByID_eq_some.mp ht).2 (p.2.grows_eraseRow rowID)
  | put tid rowID row =>
    rw [applyBody] at h
    cases ht : e.tableByID tid with
    | none => simp [ht] at h
    | some p =>
      obtain ⟨name, t⟩ := p
      obtain ⟨hname, htable⟩ := tableByID_eq_some.mp ht
      simp only [ht] at h
      cases hput : t.applyPut rowID row with
      | error err => simp [hput] at h
      | ok t1 =>
        simp only [hput, Except.ok.injEq] at h
        obtain ⟨hg, hlt⟩ := Table.grows_applyPut hput hb
        rw [← h]
        refine ⟨grows_setTable htable hg, ?_⟩
        rintro tid' id ⟨row', heq⟩ n t' hn ht'
        cases heq
        rw [hname] at hn
        cases hn
        rw [setTable, GoMap.get?_set_self] at ht'
        cases ht'
        exact hlt

theorem Grows.known {known : String → Prop} (h : e.Grows e')
    (hknown : ∀ n, known n → (e.tables.get? n).isSome) :
    ∀ n, known n → (e'.tables.get? n).isSome := by
  intro n hn
  obtain ⟨t, ht⟩ := Option.isSome_iff_exists.mp (hknown n hn)
  obtain ⟨t', ht', -⟩ := h.forth ht
  exact Option.isSome_iff_exists.mpr ⟨t', ht'⟩

/-- **Replaying tame records** grows the tables, past the id of every put. -/
theorem grows_applyPending {known : String → Prop}
    (hknown : ∀ n, known n → (e.tables.get? n).isSome) {rs : List Record}
    (hrs : ∀ r ∈ rs, r.body.Tame known) (h : applyPending applyRecord e rs = .ok e') :
    e.Grows e' ∧ ∀ r ∈ rs, ∀ tid id, r.body.Puts tid id → ∀ n t', e.byID.get? tid = some n →
      e'.tables.get? n = some t' → id < t'.nextID := by
  induction rs generalizing e with
  | nil =>
    cases h
    exact ⟨grows_of_tables rfl rfl, by simp⟩
  | cons r rs ih =>
    obtain ⟨hr, hrs⟩ := List.forall_mem_cons.mp hrs
    rw [applyPending] at h
    cases he : e.applyRecord r with
    | error err =>
      rw [he] at h
      cases h
    | ok e1 =>
      rw [he] at h
      obtain ⟨hg, hput⟩ := grows_applyBody hknown hr he
      obtain ⟨hg', hputs⟩ := ih (hg.known hknown) hrs h
      refine ⟨hg.trans hg', List.forall_mem_cons.mpr ⟨?_, ?_⟩⟩
      · intro tid id hp n t' hn ht'
        obtain ⟨t1, ht1, hgt⟩ := hg'.back ht'
        exact Int64.lt_of_lt_of_le (hput tid id hp n t1 hn ht1) hgt.next
      · intro r' hr' tid id hp n t' hn ht'
        rw [← hg.byID] at hn
        exact hputs r' hr' tid id hp n t' hn ht'

/-! ## The counters do not depend on the order of loading -/

/-- `byID` leads to the tables, and only there. -/
def Filed (e : Engine) : Prop :=
  ∀ tid n, e.byID.get? tid = some n ↔ ∃ t, e.tables.get? n = some t ∧ t.id = tid

theorem Grows.filed (h : e.Grows e') (hf : e.Filed) : e'.Filed := by
  intro tid n
  rw [h.byID, hf]
  constructor
  · rintro ⟨t, ht, rfl⟩
    obtain ⟨t', ht', hg⟩ := h.forth ht
    exact ⟨t', ht', hg.id⟩
  · rintro ⟨t', ht', rfl⟩
    obtain ⟨t, ht, hg⟩ := h.back ht'
    exact ⟨t, ht, hg.id.symm⟩

/-- The same tables under the same ids with the same counters; rows and indexes
may differ. -/
def SameCounters (r r' : Engine) : Prop := ∀ n, Option.Rel (fun t t' : Table => t.id = t'.id ∧
  t.nextID = t'.nextID) (r.tables.get? n) (r'.tables.get? n)

variable {r r' r1 r1' : Engine}

theorem SameCounters.forth (h : r.SameCounters r') {n : String} {t : Table} (ht : r.tables.get? n = some t) :
    ∃ t', r'.tables.get? n = some t' ∧ t.id = t'.id ∧ t.nextID = t'.nextID := by
  have := h n
  rw [ht] at this
  generalize r'.tables.get? n = o at this
  cases this with
  | some hrel => exact ⟨_, rfl, hrel⟩

theorem SameCounters.setTable (h : r.SameCounters r') {n : String} {t t' : Table} (hid : t.id = t'.id)
    (hnext : t.nextID = t'.nextID) : (r.setTable n t).SameCounters (r'.setTable n t') := by
  intro m
  rw [Engine.setTable, Engine.setTable, GoMap.get?_set, GoMap.get?_set]
  split
  · exact .some ⟨hid, hnext⟩
  · exact h m

/-- Both engines find the same table under an id. -/
theorem SameCounters.tableByID (h : r.SameCounters r') (hf : r.Filed) (hf' : r'.Filed) {tid : UInt32}
    {p p' : String × Table} (hp : r.tableByID tid = some p) (hp' : r'.tableByID tid = some p') :
    p.1 = p'.1 ∧ p.2.id = p'.2.id ∧ p.2.nextID = p'.2.nextID := by
  obtain ⟨n, t⟩ := p
  obtain ⟨n', t'⟩ := p'
  obtain ⟨hn, ht⟩ := tableByID_eq_some.mp hp
  obtain ⟨hn', ht'⟩ := tableByID_eq_some.mp hp'
  obtain ⟨t1, ht1, hid⟩ := (hf tid n).mp hn
  rw [ht] at ht1
  cases ht1
  obtain ⟨t2, ht2, hid2, hnext⟩ := h.forth ht
  have hname : r'.byID.get? tid = some n := (hf' tid n).mpr ⟨t2, ht2, hid2.symm.trans hid⟩
  rw [hn'] at hname
  cases hname
  rw [ht'] at ht2
  cases ht2
  exact ⟨rfl, hid2, hnext⟩

/-- **The same record moves the same counter to the same place.** -/
theorem SameCounters.applyBody (h : r.SameCounters r') (hf : r.Filed) (hf' : r'.Filed) {known : String → Prop}
    (hknown : ∀ n, known n → (r.tables.get? n).isSome) {b : RecBody} (hb : b.Tame known)
    (hr : r.applyBody b = .ok r1) (hr' : r'.applyBody b = .ok r1') : r1.SameCounters r1' := by
  cases b with
  | begin =>
    cases hr
    cases hr'
    exact h
  | commit =>
    cases hr
    cases hr'
    exact h
  | create d =>
    obtain ⟨t, ht⟩ := Option.isSome_iff_exists.mp (hknown d.name hb)
    obtain ⟨t', ht', -⟩ := h.forth ht
    simp only [Engine.applyBody, ht, ht', Except.ok.injEq] at hr hr'
    rw [← hr, ← hr']
    exact h
  | drop d => cases hb
  | delete tid rowID =>
    rw [Engine.applyBody] at hr hr'
    cases hp : r.tableByID tid with
    | none => simp [hp] at hr
    | some p =>
      cases hp' : r'.tableByID tid with
      | none => simp [hp'] at hr'
      | some p' =>
        obtain ⟨hname, hid, hnext⟩ := h.tableByID hf hf' hp hp'
        simp only [hp, hp', Except.ok.injEq] at hr hr'
        rw [← hr, ← hr', hname]
        exact h.setTable (by simpa using hid) (by simpa using hnext)
  | put tid rowID row =>
    rw [Engine.applyBody] at hr hr'
    cases hp : r.tableByID tid with
    | none => simp [hp] at hr
    | some p =>
      cases hp' : r'.tableByID tid with
      | none => simp [hp'] at hr'
      | some p' =>
        obtain ⟨hname, hid, hnext⟩ := h.tableByID hf hf' hp hp'
        simp only [hp] at hr
        simp only [hp'] at hr'
        cases hput : p.2.applyPut rowID row with
        | error err => simp [hput] at hr
        | ok t1 =>
          cases hput' : p'.2.applyPut rowID row with
          | error err => simp [hput'] at hr'
          | ok t1' =>
            simp only [hput, hput', Except.ok.injEq] at hr hr'
            obtain ⟨hid1, hnext1⟩ := Table.applyPut_counter hput
            obtain ⟨hid1', hnext1'⟩ := Table.applyPut_counter hput'
            rw [← hr, ← hr', hname]
            refine h.setTable ?_ ?_
            · rw [hid1, hid1', hid]
            · rw [hnext1, hnext1', hnext]

theorem SameCounters.applyPending (h : r.SameCounters r') (hf : r.Filed) (hf' : r'.Filed)
    {known : String → Prop} (hknown : ∀ n, known n → (r.tables.get? n).isSome) {rs : List Record}
    (hrs : ∀ rec ∈ rs, rec.body.Tame known) (hr : applyPending applyRecord r rs = .ok r1)
    (hr' : Storage.applyPending applyRecord r' rs = .ok r1') : r1.SameCounters r1' := by
  induction rs generalizing r r' with
  | nil =>
    cases hr
    cases hr'
    exact h
  | cons rec rs ih =>
    obtain ⟨hrec, hrs⟩ := List.forall_mem_cons.mp hrs
    rw [Storage.applyPending] at hr hr'
    cases he : r.applyRecord rec with
    | error err =>
      rw [he] at hr
      cases hr
    | ok r2 =>
      cases he' : r'.applyRecord rec with
      | error err =>
        rw [he'] at hr'
        cases hr'
      | ok r2' =>
        rw [he] at hr
        rw [he'] at hr'
        have hknown' : ∀ n, known n → (r'.tables.get? n).isSome := by
          intro n hn
          obtain ⟨t, ht⟩ := Option.isSome_iff_exists.mp (hknown n hn)
          obtain ⟨t', ht', -⟩ := h.forth ht
          exact Option.isSome_iff_exists.mpr ⟨t', ht'⟩
        have hg := (grows_applyBody hknown hrec he).1
        have hg' := (grows_applyBody hknown' hrec he').1
        exact ih (h.applyBody hf hf' hknown hrec he he') (hg.filed hf) (hg'.filed hf')
          (hg.known hknown) hrs hr hr'

end Engine

end Tsql.Storage
