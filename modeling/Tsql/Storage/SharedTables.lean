import Tsql.Storage.Rows

/-!
# Writers that hold a table while the catalog changes

`put` and `Delete` look their table up under `catalogMu`, let go of it, and
log their record under the table's own lock; `commitTxn` resolves its table
ids one by one before it takes `commitMu`. `DropTable` takes no table lock.
A table dropped in between is still there for the writer, out of the catalog,
and the writer logs a record under an id that is no longer live: the log says
drop first and put after, and no `Open` gets past it.

`Shared` is the machine at the granularity of those sections. Tables are
objects with addresses: a pointer leads to the table filed under its name as
long as that is still the object it was taken from, and to the orphan after.
The log replays EXACTLY as long as each row record is appended while its
table id is live (`Loggable`).
-/

namespace Tsql.Storage

variable {t t' : Table} {p : Ptr} {logged : List RecBody}

/-- A `*Table`: the name it was found under and the object's address. -/
structure Ptr where
  name : String
  addr : Nat
  deriving DecidableEq

/-- An autocommit call. -/
inductive Write where
  | put (name : String) (pkIdx : Int) (rowID : Int64) (row : Row) (mustExist : Bool)
  | delete (name : String) (rowID : Int64)
  deriving DecidableEq

/-- A call in progress, between two of its sections. -/
inductive Pending where
  /-- `put`, with the table it found -/
  | put (p : Ptr) (pkIdx : Int) (rowID : Int64) (row : Row) (mustExist : Bool)
  /-- `Delete`, with the table it found -/
  | delete (p : Ptr) (rowID : Int64)
  /-- `commitTxn`, resolving the table ids of its buffer -/
  | resolving (tx : UInt64) (resolved : List (Op × UInt32)) (rest : List Op)
  /-- `commitTxn`, holding `commitMu`, before the lookup of its next write -/
  | applying (ops : List Op)
  /-- `commitTxn`, with the table of its next write -/
  | applyingTo (p : Ptr) (o : Op) (rest : List Op)
  deriving DecidableEq

/-- The process. `addr` is the object filed under each name, `orphans` the
objects that were dropped, `committing` the call that holds `commitMu`. -/
structure Shared where
  eng : Engine := {}
  addr : GoMap String Nat := ∅
  fresh : Nat := 0
  orphans : GoMap Nat Table := ∅
  calls : GoMap Nat Pending := ∅
  committing : Option Nat := none

/-- One section of the call `w`, or a whole `CreateTable` or `DropTable`. -/
inductive SharedStep where
  | lookup (w : Nat) (c : Write)
  | locked (w : Nat)
  | create (name : String) (cols : List Column)
  | drop (name : String)
  | commit (w : Nat) (tx : UInt64) (ops : List Op)
  | resolve (w : Nat)
  | append (w : Nat)
  | applyLookup (w : Nat)
  | applyLocked (w : Nat)

namespace Shared

/-- `e.tables[name]`, as a pointer. -/
def find (s : Shared) (name : String) : Option Ptr := (s.addr.get? name).map (Ptr.mk name)

/-- What a pointer leads to. -/
def table (s : Shared) (p : Ptr) : Option Table :=
  if s.addr.get? p.name = some p.addr then s.eng.tables.get? p.name else s.orphans.get? p.addr

/-- Change the object a pointer leads to. -/
def setTable (s : Shared) (p : Ptr) (t : Table) : Shared :=
  if s.addr.get? p.name = some p.addr then { s with eng := s.eng.setTable p.name t }
  else { s with orphans := s.orphans.set p.addr t }

/-- The call returns. -/
def finish (s : Shared) (w : Nat) : Shared := { s with calls := s.calls.delete w }

/-- The first section of an autocommit call. -/
def lookup (s : Shared) (w : Nat) (c : Write) : Shared :=
  match s.calls.get? w with
  | some _ => s
  | none =>
    match c with
    | .put name pkIdx rowID row mustExist =>
      match Engine.checkRowID rowID mustExist, s.find name with
      | .ok (), some p => { s with calls := s.calls.set w (.put p pkIdx rowID row mustExist) }
      | _, _ => s
    | .delete name rowID =>
      match s.find name with
      | some p => { s with calls := s.calls.set w (.delete p rowID) }
      | none => s

/-- The section of `put` under the lock of the table it found. -/
def putLocked (s : Shared) (p : Ptr) (t : Table) (pkIdx : Int) (rowID : Int64) (row : Row)
    (mustExist : Bool) : Shared :=
  match t.putCheck pkIdx rowID row mustExist with
  | (t, .error _) => s.setTable p t
  | (t, .ok (id, row)) =>
    ({ s with eng := s.eng.txn (.put t.id id row) } : Shared).setTable p (t.storeRow id row)

/-- The section of `Delete` under the lock of the table it found. -/
def deleteLocked (s : Shared) (p : Ptr) (t : Table) (rowID : Int64) : Shared :=
  match t.rows.get? rowID with
  | none => s
  | some _ => ({ s with eng := s.eng.txn (.delete t.id rowID) } : Shared).setTable p (t.eraseRow rowID)

/-- The second section of an autocommit call. -/
def locked (s : Shared) (w : Nat) : Shared :=
  match s.calls.get? w with
  | some (.put p pkIdx rowID row mustExist) =>
    match s.table p with
    | none => s
    | some t => (s.putLocked p t pkIdx rowID row mustExist).finish w
  | some (.delete p rowID) =>
    match s.table p with
    | none => s
    | some t => (s.deleteLocked p t rowID).finish w
  | _ => s

/-- `CreateTable`: a new object. -/
def create (s : Shared) (name : String) (cols : List Column) : Shared :=
  match s.eng.createTable name cols with
  | (_, .error _) => s
  | (e, .ok ()) => { s with eng := e, addr := s.addr.set name s.fresh, fresh := s.fresh + 1 }

/-- `DropTable`: the object stays with those who hold it. -/
def drop (s : Shared) (name : String) : Shared :=
  match s.eng.tables.get? name with
  | none => s
  | some t =>
    { s with
      eng := (s.eng.dropTable name).1
      addr := s.addr.delete name
      orphans := ((s.addr.get? name).map fun a => s.orphans.set a t).getD s.orphans }

/-- One `TableID` lookup of `commitTxn`. -/
def resolve (s : Shared) (w : Nat) : Shared :=
  match s.calls.get? w with
  | some (.resolving tx resolved (o :: rest)) =>
    match s.eng.tableID o.name with
    | none => s.finish w
    | some tid => { s with calls := s.calls.set w (.resolving tx (resolved ++ [(o, tid)]) rest) }
  | _ => s

/-- The records of a resolved buffer. -/
def resolvedBodies (resolved : List (Op × UInt32)) : List RecBody :=
  resolved.map fun p => p.1.body p.2

/-- `commitTxn` takes `commitMu` and appends. -/
def append (s : Shared) (w : Nat) : Shared :=
  match s.calls.get? w, s.committing with
  | some (.resolving tx resolved []), none =>
    { s with
      eng := s.eng.appendCommit tx (resolvedBodies resolved)
      calls := s.calls.set w (.applying (resolved.map Prod.fst))
      committing := some w }
  | _, _ => s

/-- `commitTxn` returns, and lets go of `commitMu`. -/
def release (s : Shared) (w : Nat) : Shared := { s.finish w with committing := none }

/-- The lookup of `applyPut` or `applyDelete`. -/
def applyLookup (s : Shared) (w : Nat) : Shared :=
  match s.calls.get? w with
  | some (.applying []) => s.release w
  | some (.applying (o :: rest)) =>
    match s.find o.name with
    | none => s.release w
    | some p => { s with calls := s.calls.set w (.applyingTo p o rest) }
  | _ => s

/-- The section of `applyPut` or `applyDelete` under the table's lock. -/
def applyLocked (s : Shared) (w : Nat) : Shared :=
  match s.calls.get? w with
  | some (.applyingTo p o rest) =>
    match s.table p, o.write with
    | some t, .put id row =>
      match t.applyPut id row with
      | .error _ => s.release w
      | .ok t => { s.setTable p t with calls := s.calls.set w (.applying rest) }
    | some t, .delete id =>
      { s.setTable p (t.eraseRow id) with calls := s.calls.set w (.applying rest) }
    | none, _ => s
  | _ => s

/-- One step. -/
def step (s : Shared) : SharedStep → Shared
  | .lookup w c => s.lookup w c
  | .locked w => s.locked w
  | .create name cols => s.create name cols
  | .drop name => s.drop name
  | .commit w tx ops =>
    match s.calls.get? w with
    | some _ => s
    | none => { s with calls := s.calls.set w (.resolving tx [] ops) }
  | .resolve w => s.resolve w
  | .append w => s.append w
  | .applyLookup w => s.applyLookup w
  | .applyLocked w => s.applyLocked w

/-- The record the section of `put` appends, if its check passes. -/
def putLogs (t : Table) (pkIdx : Int) (rowID : Int64) (row : Row) (mustExist : Bool) :
    List RecBody :=
  match t.putCheck pkIdx rowID row mustExist with
  | (_, .error _) => []
  | (t, .ok (id, row)) => [.put t.id id row]

/-- The record the section of `Delete` appends, if the row is there. -/
def deleteLogs (t : Table) (rowID : Int64) : List RecBody :=
  match t.rows.get? rowID with
  | none => []
  | some _ => [.delete t.id rowID]

/-- The row records a step appends. -/
def logs (s : Shared) : SharedStep → List RecBody
  | .locked w =>
    match s.calls.get? w with
    | some (.put p pkIdx rowID row mustExist) =>
      ((s.table p).map fun t => putLogs t pkIdx rowID row mustExist).getD []
    | some (.delete p rowID) => ((s.table p).map fun t => deleteLogs t rowID).getD []
    | _ => []
  | .append w =>
    match s.calls.get? w, s.committing with
    | some (.resolving _ resolved []), none => resolvedBodies resolved
    | _, _ => []
  | _ => []

end Shared

/-- The record's table id is live, and a row that it puts has a value for each
of that table's UNIQUE columns. -/
def Engine.accepts (e : Engine) : RecBody → Bool
  | .put tid _ row => (e.tableByID tid).any fun p => p.2.indexable row
  | .delete tid _ => (e.tableByID tid).isSome
  | _ => true

/-- **The condition**: every row record is appended while its table id is live. -/
def Shared.Loggable (s : Shared) (a : SharedStep) : Prop := ∀ b ∈ s.logs a, s.eng.accepts b = true

instance (s : Shared) (a : SharedStep) : Decidable (s.Loggable a) :=
  inferInstanceAs (Decidable (∀ b ∈ s.logs a, s.eng.accepts b = true))

namespace Engine

variable {e e' r m : Engine}

/-- The same tables under the same ids, and the same next id. -/
structure Alike (r m : Engine) : Prop where
  byID : r.byID = m.byID
  shape : SameShape r m
  next : r.nextTableID = m.nextTableID

theorem Alike.refl (e : Engine) : Alike e e := ⟨rfl, fun _ => rfl, rfl⟩

theorem Alike.symm (h : Alike r m) : Alike m r :=
  ⟨h.byID.symm, h.shape.symm, h.next.symm⟩

theorem Alike.trans (h : Alike r m) (h' : Alike m e) : Alike r e :=
  ⟨h.byID.trans h'.byID, h.shape.trans h'.shape, h.next.trans h'.next⟩

/-- Putting back a table that kept its shape. -/
theorem alike_setTable {name : String} (h : e.tables.get? name = some t)
    (hs : t'.plain.shape = t.plain.shape) : Alike (e.setTable name t') e := by
  refine ⟨rfl, fun n => ?_, rfl⟩
  rw [plain_eq, plain_eq, setTable, GoMap.get?_set]
  split
  · next hn => rw [hn, h, Option.map_some, Option.map_some, hs, Option.map_some, Option.map_some]
  · rfl

theorem Alike.tableByID (h : Alike r m) (tid : UInt32) {p : String × Table}
    (hp : m.tableByID tid = some p) :
    ∃ t, r.tableByID tid = some (p.1, t) ∧ t.plain.shape = p.2.plain.shape := by
  obtain ⟨name, t⟩ := p
  unfold Engine.tableByID at hp ⊢
  rw [h.byID]
  obtain ⟨n, hn, ht⟩ := Option.bind_eq_some_iff.mp hp
  obtain ⟨t', ht', heq⟩ := Option.map_eq_some_iff.mp ht
  cases heq
  have hs := h.shape name
  rw [plain_eq, plain_eq, ht', Option.map_some, Option.map_some, Option.map_map,
    Option.map_eq_some_iff] at hs
  obtain ⟨t1, ht1, hshape⟩ := hs
  exact ⟨t1, by rw [hn, Option.bind_some, ht1]; rfl, hshape⟩

theorem cols_of_shape (h : t'.plain.shape = t.plain.shape) : t'.cols = t.cols := by
  simp only [RowTable.shape, Table.plain, Prod.mk.injEq] at h
  exact h.2.2

theorem Alike.accepts_of (h : Alike r m) {b : RecBody} (hb : m.accepts b = true) :
    r.accepts b = true := by
  cases b with
  | put tid id row =>
    cases hp : m.tableByID tid with
    | none => simp [Engine.accepts, hp] at hb
    | some p =>
      obtain ⟨t, ht, hs⟩ := h.tableByID tid hp
      simp only [Engine.accepts, hp, Option.any_some] at hb
      simp only [Engine.accepts, ht, Option.any_some]
      rw [Table.indexable_congr (cols_of_shape hs)]
      exact hb
  | delete tid id =>
    obtain ⟨p, hp⟩ := Option.isSome_iff_exists.mp hb
    obtain ⟨t, ht, -⟩ := h.tableByID tid hp
    simp [Engine.accepts, ht]
  | _ => rfl

/-- Engines that are alike accept the same records. -/
theorem Alike.accepts (h : Alike r m) (b : RecBody) : r.accepts b = m.accepts b := by
  rw [Bool.eq_iff_iff]
  exact ⟨h.symm.accepts_of, h.accepts_of⟩

/-- **A row record replays exactly when it is accepted**, and leaves the
catalog alike. -/
theorem applyBody_row (e : Engine) (o : Op) (tid : UInt32) :
    (e.accepts (o.body tid) = true ∧ ∃ e', e.applyBody (o.body tid) = .ok e' ∧ Alike e' e) ∨
      (e.accepts (o.body tid) = false ∧ ∃ err, e.applyBody (o.body tid) = .error err) := by
  unfold Op.body
  cases hp : e.tableByID tid with
  | none =>
    right
    cases o.write with
    | put id row => exact ⟨by simp [accepts, hp], _, by simp [applyBody, hp]; rfl⟩
    | delete id => exact ⟨by simp [accepts, hp], _, by simp [applyBody, hp]; rfl⟩
  | some p =>
    obtain ⟨name, t⟩ := p
    have ht : e.tables.get? name = some t := by
      obtain ⟨n, -, hn⟩ := Option.bind_eq_some_iff.mp hp
      obtain ⟨t', ht', heq⟩ := Option.map_eq_some_iff.mp hn
      cases heq
      exact ht'
    cases o.write with
    | put id row =>
      cases hidx : t.indexable row with
      | true =>
        left
        refine ⟨by simp [accepts, hp, hidx],
          e.setTable name ((t.storeRow id row).bumpNextID id), ?_, alike_setTable ht ?_⟩
        · simp [applyBody, hp, Table.applyPut, hidx]
        · unfold Table.bumpNextID
          split <;> simp [RowTable.shape, Table.plain]
      | false =>
        right
        exact ⟨by simp [accepts, hp, hidx], .panic, by simp [applyBody, hp, Table.applyPut, hidx]⟩
    | delete id =>
      left
      exact ⟨by simp [accepts, hp], e.setTable name (t.eraseRow id), by simp [applyBody, hp],
        alike_setTable ht (by simp [RowTable.shape, Table.plain])⟩

/-- **A list of row records replays exactly when all are accepted.** -/
theorem applyBodies_rows (e : Engine) {bs : List RecBody}
    (hrow : ∀ b ∈ bs, ∃ (o : Op) (tid : UInt32), b = o.body tid) :
    ((∀ b ∈ bs, e.accepts b = true) ∧ ∃ e', e.applyBodies bs = .ok e' ∧ Alike e' e) ∨
      ((¬ ∀ b ∈ bs, e.accepts b = true) ∧ ∃ err, e.applyBodies bs = .error err) := by
  induction bs generalizing e with
  | nil => exact .inl ⟨by simp, e, rfl, .refl e⟩
  | cons b bs ih =>
    obtain ⟨o, tid, rfl⟩ := hrow b (by simp)
    have hcons : e.applyBodies (o.body tid :: bs)
        = e.applyBody (o.body tid) >>= fun e => e.applyBodies bs := rfl
    rw [hcons]
    rcases e.applyBody_row o tid with ⟨hacc, e1, happ, halike⟩ | ⟨hrej, err, happ⟩
    · -- accepted: the rest is judged by a catalog that is alike
      have hrest : (∀ b ∈ bs, e1.accepts b = true) ↔ ∀ b ∈ bs, e.accepts b = true := by
        constructor <;> intro h b hb
        · rw [← halike.accepts]
          exact h b hb
        · rw [halike.accepts]
          exact h b hb
      rw [happ]
      rcases ih e1 fun b hb => hrow b (by simp [hb]) with ⟨hall, e2, happ2, halike2⟩ | ⟨hnot, err, happ2⟩
      · refine .inl ⟨?_, e2, happ2, halike2.trans halike⟩
        intro b hb
        rcases List.mem_cons.mp hb with rfl | hb
        · exact hacc
        · exact hrest.mp hall b hb
      · exact .inr ⟨fun h => hnot (hrest.mpr fun b hb => h b (by simp [hb])), err, happ2⟩
    · rw [happ]
      refine .inr ⟨fun h => ?_, err, rfl⟩
      have := h _ (List.mem_cons_self)
      rw [hrej] at this
      cases this

/-- A created table, in two engines that were alike. -/
theorem Alike.create (h : Alike r m) {name : String} (hnone : m.tables.get? name = none)
    (c : Bool) (cols : List Column) :
    r.applyBody (.create ⟨c, name, cols⟩) = .ok (r.addTableLocked name cols) ∧
      Alike (r.addTableLocked name cols) (m.addTableLocked name cols) := by
  have hr : r.tables.get? name = none := by
    have := h.shape name
    rw [plain_eq, plain_eq, hnone] at this
    simpa using this
  refine ⟨by simp [applyBody, hr], ?_, fun n => ?_, ?_⟩
  · show r.byID.set r.nextTableID name = m.byID.set m.nextTableID name
    rw [h.byID, h.next]
  · rw [plain, plain, view_addTableLocked, view_addTableLocked, Function.update_apply,
      Function.update_apply, h.next]
    split
    · rfl
    · exact h.shape n
  · show r.nextTableID + 1 = m.nextTableID + 1
    rw [h.next]

/-- A dropped table, in two engines that were alike. -/
theorem Alike.drop (h : Alike r m) {name : String} {t : Table} (ht : m.tables.get? name = some t) :
    ∃ t', r.applyBody (.drop { name := name }) = .ok (r.removeTable t') ∧
      Alike (r.removeTable t') (m.removeTable t) := by
  have hs := h.shape name
  rw [plain_eq, plain_eq, ht, Option.map_some, Option.map_some, Option.map_map,
    Option.map_eq_some_iff] at hs
  obtain ⟨t', ht', hshape⟩ := hs
  simp only [Function.comp_apply, RowTable.shape, Table.plain, Prod.mk.injEq] at hshape
  refine ⟨t', by simp [applyBody, ht'], ?_, fun n => ?_, h.next⟩
  · show r.byID.delete t'.id = m.byID.delete t.id
    rw [h.byID, hshape.1]
  · rw [plain, plain, view_removeTable, view_removeTable, Function.update_apply,
      Function.update_apply, hshape.2.1]
    split
    · rfl
    · exact h.shape n

/-- What a step did to the catalog and the log; `logged` are the row records. -/
inductive Moved : List RecBody → Engine → Engine → Prop where
  | rows {logged : List RecBody} {e e' : Engine} (bs : List Block)
      (wal : e'.wal = e.wal ++ records bs) (told : bodies bs = logged)
      (row : ∀ b ∈ logged, ∃ (o : Op) (tid : UInt32), b = o.body tid) (alike : Alike e' e) :
      Moved logged e e'
  | create {e e' : Engine} (tx : UInt64) (name : String) (cols : List Column)
      (fresh : e.tables.get? name = none)
      (wal : e'.wal = e.wal ++ (soloBlock tx (.create ⟨true, name, cols⟩) rfl).records)
      (made : Alike (e.addTableLocked name cols) e') : Moved [] e e'
  | drop {e e' : Engine} (tx : UInt64) (name : String) (t : Table)
      (live : e.tables.get? name = some t)
      (wal : e'.wal = e.wal ++ (soloBlock tx (.drop { name := name }) rfl).records)
      (made : Alike (e.removeTable t) e') : Moved [] e e'

theorem Moved.quiet (h : Alike e' e) (hwal : e'.wal = e.wal) : Moved [] e e' :=
  .rows [] (by simp [hwal]) rfl (by simp) h

/-- The log is a list of blocks that replay to a catalog like this one. -/
def Good (e : Engine) : Prop :=
  ∃ bs r, e.wal = records bs ∧ ({} : Engine).applyBodies (bodies bs) = .ok r ∧ Alike r e

/-- The log is a list of blocks that do not replay. -/
def Bad (e : Engine) : Prop :=
  ∃ bs err, e.wal = records bs ∧ ({} : Engine).applyBodies (bodies bs) = .error err

theorem Moved.good (h : Moved logged e e') (hg : e.Good)
    (hacc : ∀ b ∈ logged, e.accepts b = true) : e'.Good := by
  obtain ⟨bs, r, hwal, hrep, halike⟩ := hg
  have happend : ∀ (bs' : List Block) {r' : Engine}, e'.wal = e.wal ++ records bs' →
      r.applyBodies (bodies bs') = .ok r' → Alike r' e' → e'.Good := by
    intro bs' r' hwal' hrep' halike'
    refine ⟨bs ++ bs', r', by rw [hwal', hwal, records_append], ?_, halike'⟩
    rw [bodies_append, applyBodies, applyPending_append_ok hrep]
    exact hrep'
  cases h with
  | rows bs' wal told row alike =>
    rcases r.applyBodies_rows row with ⟨-, r', hrep', halike'⟩ | ⟨hnot, -⟩
    · exact happend bs' wal (by rw [told]; exact hrep') (halike'.trans (halike.trans alike.symm))
    · exact absurd (fun b hb => by rw [halike.accepts]; exact hacc b hb) hnot
  | create tx name cols fresh wal made =>
    obtain ⟨hrep', halike'⟩ := halike.create fresh true cols
    refine happend [soloBlock tx (.create ⟨true, name, cols⟩) rfl]
      (by rw [wal]; simp) ?_ (halike'.trans made)
    show (r.applyBody (.create ⟨true, name, cols⟩) >>= fun r => .ok r) = _
    rw [hrep']
    rfl
  | drop tx name t live wal made =>
    obtain ⟨t', hrep', halike'⟩ := halike.drop live
    refine happend [soloBlock tx (.drop { name := name }) rfl]
      (by rw [wal]; simp) ?_ (halike'.trans made)
    show (r.applyBody (.drop { name := name }) >>= fun r => .ok r) = _
    rw [hrep']
    rfl

theorem Moved.bad (h : Moved logged e e') (hg : e.Good)
    (hacc : ¬ ∀ b ∈ logged, e.accepts b = true) : e'.Bad := by
  obtain ⟨bs, r, hwal, hrep, halike⟩ := hg
  cases h with
  | rows bs' wal told row alike =>
    rcases r.applyBodies_rows row with ⟨hall, -⟩ | ⟨-, err, hrep'⟩
    · exact absurd (fun b hb => by rw [← halike.accepts]; exact hall b hb) hacc
    · refine ⟨bs ++ bs', err, by rw [wal, hwal, records_append], ?_⟩
      rw [bodies_append, applyBodies, applyPending_append_ok hrep, told]
      exact hrep'
  | create => simp at hacc
  | drop => simp at hacc

/-- A log that does not replay will not replay with more behind it. -/
theorem Moved.stuck (h : Moved logged e e') (hb : e.Bad) : e'.Bad := by
  obtain ⟨bs, err, hwal, hrep⟩ := hb
  obtain ⟨bs', hwal'⟩ : ∃ bs', e'.wal = e.wal ++ records bs' := by
    cases h with
    | rows bs' wal => exact ⟨bs', wal⟩
    | create tx name cols fresh wal made =>
      exact ⟨[_], by rw [wal, records_cons, records_nil, List.append_nil]⟩
    | drop tx name t live wal made =>
      exact ⟨[_], by rw [wal, records_cons, records_nil, List.append_nil]⟩
  refine ⟨bs ++ bs', err, by rw [hwal', hwal, records_append], ?_⟩
  have hrep : applyPending applyBody {} (bodies bs) = .error err := hrep
  rw [bodies_append, applyBodies, applyPending_append, hrep]
  rfl

end Engine

namespace Shared

variable {s : Shared}

/-- Changing an object in place, wherever it is, leaves the catalog alike. -/
theorem alike_setTable (ht : s.table p = some t) (hs : t'.plain.shape = t.plain.shape) :
    Engine.Alike (s.setTable p t').eng s.eng ∧ (s.setTable p t').eng.wal = s.eng.wal := by
  unfold table at ht
  unfold setTable
  split at ht
  · next hcat =>
    rw [if_pos hcat]
    exact ⟨Engine.alike_setTable ht hs, rfl⟩
  · next hcat =>
    rw [if_neg hcat]
    exact ⟨.refl _, rfl⟩

/-- One record of an autocommit call, and its table changed in place. -/
theorem moved_txn (ht : s.table p = some t)
    (hs : t'.plain.shape = t.plain.shape) (o : Op) (tid : UInt32) :
    Engine.Moved [o.body tid] s.eng
      (({ s with eng := s.eng.txn (o.body tid) } : Shared).setTable p t').eng := by
  have ht' : ({ s with eng := s.eng.txn (o.body tid) } : Shared).table p = some t := ht
  obtain ⟨halike, hwal⟩ := alike_setTable ht' hs
  refine .rows [Engine.soloBlock (s.eng.txSeq + 1) (o.body tid) (Engine.isData_body o tid)] ?_ rfl
    ?_ (halike.trans ⟨rfl, fun _ => rfl, rfl⟩)
  · rw [hwal, records_cons, records_nil, List.append_nil]
    rfl
  · intro b hb
    exact ⟨o, tid, List.mem_singleton.mp hb⟩

theorem shape_putCheck {t t1 : Table} {pkIdx : Int} {rowID : Int64} {row : Row} {mustExist : Bool}
    {res : Except Err (Int64 × Row)} (hc : t.putCheck pkIdx rowID row mustExist = (t1, res)) :
    t1.plain.shape = t.plain.shape := by
  have hdata : t1.data = t.data := by
    have := (t.putCheck_spec pkIdx rowID row mustExist).1
    rw [hc] at this
    exact this
  have hshape : t1.data.plain.shape = t.data.plain.shape := by rw [hdata]
  exact hshape

theorem moved_putLocked {t : Table} (ht : s.table p = some t) (pkIdx : Int)
    (rowID : Int64) (row : Row) (mustExist : Bool) :
    Engine.Moved (putLogs t pkIdx rowID row mustExist) s.eng
      (s.putLocked p t pkIdx rowID row mustExist).eng := by
  unfold putLogs putLocked
  cases hc : t.putCheck pkIdx rowID row mustExist with
  | mk t1 res =>
    have hs := shape_putCheck hc
    cases res with
    | error err =>
      obtain ⟨halike, hwal⟩ := alike_setTable ht hs
      exact .quiet halike hwal
    | ok q =>
      have hstore : (t1.storeRow q.1 q.2).plain.shape = t.plain.shape := by
        rw [← hs]
        simp [RowTable.shape, Table.plain]
      exact moved_txn ht hstore ⟨p.name, .put q.1 q.2⟩ t1.id

theorem moved_deleteLocked {t : Table} (ht : s.table p = some t) (rowID : Int64) :
    Engine.Moved (deleteLogs t rowID) s.eng (s.deleteLocked p t rowID).eng := by
  unfold deleteLogs deleteLocked
  cases t.rows.get? rowID with
  | none => exact .quiet (.refl _) rfl
  | some old =>
    have herase : (t.eraseRow rowID).plain.shape = t.plain.shape := by
      simp [RowTable.shape, Table.plain]
    exact moved_txn ht herase ⟨p.name, .delete rowID⟩ t.id

theorem moved_locked (s : Shared) (w : Nat) :
    Engine.Moved (s.logs (.locked w)) s.eng (s.locked w).eng := by
  cases hw : s.calls.get? w with
  | none =>
    simp only [logs, locked, hw]
    exact .quiet (.refl _) rfl
  | some c =>
    cases c with
    | put p pkIdx rowID row mustExist =>
      cases ht : s.table p with
      | none =>
        simp only [logs, locked, hw, ht]
        exact .quiet (.refl _) rfl
      | some t =>
        simp only [logs, locked, hw, ht]
        exact moved_putLocked ht pkIdx rowID row mustExist
    | delete p rowID =>
      cases ht : s.table p with
      | none =>
        simp only [logs, locked, hw, ht]
        exact .quiet (.refl _) rfl
      | some t =>
        simp only [logs, locked, hw, ht]
        exact moved_deleteLocked ht rowID
    | _ =>
      simp only [logs, locked, hw]
      exact .quiet (.refl _) rfl

theorem moved_create (s : Shared) (name : String) (cols : List Column) :
    Engine.Moved [] s.eng (s.create name cols).eng := by
  have hcases := s.eng.createTable_cases name cols
  unfold create
  cases hc : s.eng.createTable name cols with
  | mk e res =>
    rw [hc] at hcases
    cases res with
    | error err => exact .quiet (.refl _) rfl
    | ok u =>
      rcases hcases with heq | ⟨td, -, hnone, heq⟩
      · have heq : e = s.eng := heq
        rw [heq]
        exact .quiet (.refl _) rfl
      · have heq : e = _ := heq
        rw [heq]
        exact .create (s.eng.txSeq + 1) name td.cols hnone rfl ⟨rfl, fun _ => rfl, rfl⟩

theorem moved_drop (s : Shared) (name : String) : Engine.Moved [] s.eng (s.drop name).eng := by
  unfold drop
  cases ht : s.eng.tables.get? name with
  | none => exact .quiet (.refl _) rfl
  | some t =>
    have hdrop : (s.eng.dropTable name).1
        = (s.eng.txn (.drop { name := name })).removeTable t := by
      rw [Engine.dropTable, ht]
    show Engine.Moved [] s.eng (s.eng.dropTable name).1
    rw [hdrop]
    exact .drop (s.eng.txSeq + 1) name t ht rfl ⟨rfl, fun _ => rfl, rfl⟩

theorem moved_append (s : Shared) (w : Nat) :
    Engine.Moved (s.logs (.append w)) s.eng (s.append w).eng := by
  have hrow : ∀ resolved : List (Op × UInt32), ∀ b ∈ resolvedBodies resolved,
      ∃ (o : Op) (tid : UInt32), b = o.body tid := by
    intro resolved b hb
    obtain ⟨p, -, rfl⟩ := List.mem_map.mp hb
    exact ⟨p.1, p.2, rfl⟩
  unfold logs append
  dsimp only
  split
  · next tx resolved _ _ =>
    refine .rows [⟨false, tx, resolvedBodies resolved, ?_⟩] ?_ (List.append_nil _) (hrow resolved)
      ⟨rfl, fun _ => rfl, rfl⟩
    · intro b hb
      obtain ⟨o, tid, rfl⟩ := hrow resolved b hb
      exact Engine.isData_body o tid
    · rw [records_cons, records_nil, List.append_nil]
      rfl
  · exact .quiet (.refl _) rfl

theorem shape_applyPut {id : Int64} {row : Row} (h : t.applyPut id row = .ok t') :
    t'.plain.shape = t.plain.shape := by
  have hdata := Engine.data_applyPut h
  have hshape : t'.data.plain.shape = (t.data.applyOp (.put id row)).plain.shape := by
    rw [hdata]
  exact hshape.trans (by simp [RowTable.shape, Table.plain, Table.data])

theorem moved_applyLocked (s : Shared) (w : Nat) :
    Engine.Moved [] s.eng (s.applyLocked w).eng := by
  unfold applyLocked
  split
  · next p o rest _ =>
    cases ht : s.table p with
    | none => exact .quiet (.refl _) rfl
    | some t =>
      cases o.write with
      | put id row =>
        dsimp only
        cases hput : t.applyPut id row with
        | error err => exact .quiet (.refl _) rfl
        | ok t' =>
          obtain ⟨halike, hwal⟩ := alike_setTable ht (shape_applyPut hput)
          exact .quiet halike hwal
      | delete id =>
        have hs : (t.eraseRow id).plain.shape = t.plain.shape := by
          simp [RowTable.shape, Table.plain]
        obtain ⟨halike, hwal⟩ := alike_setTable ht hs
        exact .quiet halike hwal
  · exact .quiet (.refl _) rfl

/-- **What a step does to the catalog and the log.** -/
theorem moved_step (s : Shared) (a : SharedStep) :
    Engine.Moved (s.logs a) s.eng (s.step a).eng := by
  have hstill : ∀ s' : Shared, s'.eng = s.eng → Engine.Moved [] s.eng s'.eng := by
    intro s' he
    rw [he]
    exact .quiet (.refl _) rfl
  cases a with
  | lookup w c =>
    refine hstill _ ?_
    show (s.lookup w c).eng = s.eng
    unfold lookup
    repeat' split
    all_goals rfl
  | locked w => exact s.moved_locked w
  | create name cols => exact s.moved_create name cols
  | drop name => exact s.moved_drop name
  | commit w tx ops =>
    refine hstill _ ?_
    unfold step
    dsimp only
    split <;> rfl
  | resolve w =>
    refine hstill _ ?_
    show (s.resolve w).eng = s.eng
    unfold resolve
    repeat' split
    all_goals rfl
  | append w => exact s.moved_append w
  | applyLookup w =>
    refine hstill _ ?_
    show (s.applyLookup w).eng = s.eng
    unfold applyLookup
    repeat' split
    all_goals rfl
  | applyLocked w => exact s.moved_applyLocked w

end Shared

/-- A run from an empty directory ends with a log that replays, or with one
that does not, as its steps meet the condition or not. -/
theorem Shared.replays_iff_loggable (steps : List SharedStep) :
    (∃ r, Engine.replay {} (Run.run Shared.step {} steps).eng.wal = .ok r) ↔
      Run.Along Shared.step Shared.Loggable {} steps := by
  refine Run.Along.iff_of_dichotomy (G := fun s : Shared => s.eng.Good)
    (B := fun s : Shared => s.eng.Bad)
    (P := fun s : Shared => ∃ r, Engine.replay {} s.eng.wal = .ok r) ?_ ?_ ?_ ?_ ?_ steps ?_
  · exact fun s a hg hc => (s.moved_step a).good hg hc
  · exact fun s a hg hc => (s.moved_step a).bad hg hc
  · exact fun s a hb => (s.moved_step a).stuck hb
  · rintro s ⟨bs, r, hwal, hrep, -⟩
    exact ⟨r, by rw [hwal, replay_records]; exact hrep⟩
  · rintro s ⟨bs, err, hwal, hrep⟩ ⟨r, hr⟩
    rw [hwal, replay_records, hrep] at hr
    cases hr
  · exact ⟨[], {}, rfl, rfl, .refl _⟩

/-- **The log replays exactly when every row record was appended while its
table id was live**, for every interleaving of autocommit calls, commits,
`CreateTable` and `DropTable`, section by section, from an empty directory. -/
theorem log_replays_iff_ids_live (steps : List SharedStep) :
    (∃ r, Engine.replay {} (Run.run Shared.step {} steps).eng.wal = .ok r) ↔
      Run.Along Shared.step Shared.Loggable {} steps :=
  Shared.replays_iff_loggable steps

/-- A put finds its table, the table is dropped, the put goes on. -/
def dropBetween : List SharedStep :=
  [.create "a" uniqueCol, .lookup 1 (.put "a" (-1) 0 [.int 5] false), .drop "a", .locked 1]

/-- **The put is logged behind the drop**, and the log does not replay. -/
theorem dropBetween_does_not_replay :
    (Run.run Shared.step {} dropBetween).calls = ∅ ∧
      (Run.run Shared.step {} dropBetween).eng.wal.map Record.body
        = [.begin, .create ⟨true, "a", uniqueCol⟩, .commit, .begin, .drop { name := "a" }, .commit,
           .begin, .put 0 1 [.int 5], .commit] ∧
      Engine.replay {} (Run.run Shared.step {} dropBetween).eng.wal
        = .error (.putUnknownTable 0) := by
  decide

end Tsql.Storage
