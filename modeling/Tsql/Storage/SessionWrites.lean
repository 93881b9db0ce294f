import Tsql.Storage.Writes

/-!
# What a session's writes do to what it sees

For a session in order (`Session.Ready`) every writing call, in autocommit or
inside a transaction, either returns an error and leaves all its views alone,
or is ONE write to one view (`Session.Accepted`). The definitions of the tables
stay in any case.
-/

namespace Tsql.Storage

variable {e' : Engine} {op : RowOp}

/-! ## The catalog -/

/-- The columns of a table under its name. -/
def Table.definition (t : Table) : TableDef := ⟨t.name, t.cols⟩

/-- Both engines have the same tables, by their definitions. -/
def Engine.SameDefs (e e' : Engine) : Prop :=
  ∀ n, (e'.tables.get? n).map Table.definition = (e.tables.get? n).map Table.definition

namespace Engine

variable {e e' e'' : Engine}

theorem SameDefs.refl (e : Engine) : SameDefs e e := fun _ => rfl

theorem SameDefs.symm (h : SameDefs e e') : SameDefs e' e := fun n => (h n).symm

theorem SameDefs.trans (h : SameDefs e e') (h' : SameDefs e' e'') : SameDefs e e'' :=
  fun n => (h' n).trans (h n)

theorem SameDefs.table (h : SameDefs e e') {n : String} {t : Table} (ht : e.tables.get? n = some t) :
    ∃ t', e'.tables.get? n = some t' ∧ t'.definition = t.definition := by
  have hn := h n
  rw [ht] at hn
  exact Option.map_eq_some_iff.mp hn

theorem SameDefs.named (h : SameDefs e e') (hn : e.Named) : e'.Named := by
  intro n t ht
  obtain ⟨t1, ht1, rfl⟩ := Option.map_eq_some_iff.mp ht
  obtain ⟨t0, ht0, hdef⟩ := h.symm.table ht1
  exact (congrArg TableDef.name hdef).symm.trans (hn.name_eq ht0)

theorem sameDefs_of_view (h : e'.view = e.view) : SameDefs e e' := by
  intro n
  have hv := congrArg (Option.map Table.definition) (congrFun h n)
  rw [view, view, Option.map_map, Option.map_map] at hv
  exact hv

theorem sameDefs_of_set {name : String} {t t' : Table} (ht : e.tables.get? name = some t)
    (hset : e'.tables = e.tables.set name t') (hname : t'.name = t.name)
    (hcols : t'.cols = t.cols) : SameDefs e e' := by
  intro n
  rw [hset, GoMap.get?_set]
  split
  · next hn =>
    rw [hn, ht, Option.map_some, Option.map_some, Table.definition, hname, hcols]
    rfl
  · rfl

/-- The catalog lists the definitions. -/
theorem SameDefs.catalog_eq (h : SameDefs e e') : e'.catalog = e.catalog := by
  have hkeys : e'.tables.ascendingKeys = e.tables.ascendingKeys := by
    rw [GoMap.ascendingKeys_eq, GoMap.ascendingKeys_eq]
    congr 1
    ext n
    rw [GoMap.mem_keys, GoMap.mem_keys]
    have := congrArg Option.isSome (h n)
    rwa [Option.isSome_map, Option.isSome_map, Bool.eq_iff_iff, Option.isSome_iff_exists,
      Option.isSome_iff_exists] at this
  have hcatalog : ∀ e : Engine, e.catalog =
      e.tables.ascendingKeys.filterMap fun n => (e.tables.get? n).map Table.definition := by
    intro e
    rw [Engine.catalog, GoMap.ascending, List.map_filterMap]
    congr 1
    funext n
    rw [Option.map_map]
    rfl
  rw [hcatalog, hcatalog, hkeys]
  congr 1
  funext n
  exact h n

theorem mem_catalog {td : TableDef} :
    td ∈ e.catalog ↔ ∃ n t, e.tables.get? n = some t ∧ t.definition = td := by
  rw [Engine.catalog, List.mem_map]
  constructor
  · rintro ⟨⟨n, t⟩, hmem, rfl⟩
    exact ⟨n, t, GoMap.mem_ascending.mp hmem, rfl⟩
  · rintro ⟨n, t, ht, rfl⟩
    exact ⟨(n, t), GoMap.mem_ascending.mpr ht, rfl⟩

end Engine

/-! ## Writes over tables -/

/-- All tables, as they are seen from somewhere. -/
abbrev Tables := String → Option View

/-- The last write a list of writes has for a row. -/
def lastWrite (name : String) (id : Int64) (ops : List Op) : Option (Option Row) :=
  WriteLog.last id ((opsOn name ops).map RowOp.write)

theorem mem_of_lastWrite_put {name : String} {id : Int64} {ops : List Op} {row : Row}
    (h : lastWrite name id ops = some (some row)) : ⟨name, .put id row⟩ ∈ ops := by
  obtain ⟨w, hw, hwrite⟩ := List.mem_map.mp (WriteLog.mem_of_last h)
  cases w <;> cases hwrite
  exact mem_opsOn.mp hw

theorem mem_of_lastWrite_delete {name : String} {id : Int64} {ops : List Op}
    (h : lastWrite name id ops = some none) : ⟨name, .delete id⟩ ∈ ops := by
  obtain ⟨w, hw, hwrite⟩ := List.mem_map.mp (WriteLog.mem_of_last h)
  cases w <;> cases hwrite
  exact mem_opsOn.mp hw

/-- A row is what its last write made of it. -/
theorem get?_foldl_overlay (rows : GoMap Int64 Row) (name : String) (ops : List Op) (id : Int64) :
    ((opsOn name ops).foldl overlay rows).get? id =
      (lastWrite name id ops).getD (rows.get? id) := by
  have h := foldl_overlay { id := 0, name := name, cols := [], rows := rows } (opsOn name ops)
  rw [h, Table.applyOps_rows, WriteLog.replay_apply]
  rfl

namespace Tables

variable {v : Tables} {ops : List Op} {n : String} {w w' : View}

/-- The tables after a list of writes. -/
def apply (v : Tables) (ops : List Op) : Tables :=
  fun n => (v n).map fun w => ⟨w.cols, (opsOn n ops).foldl overlay w.rows⟩

@[simp] theorem apply_nil (v : Tables) : v.apply [] = v := by
  funext n
  rw [apply]
  cases v n <;> rfl

theorem apply_append (v : Tables) (ops ops' : List Op) :
    v.apply (ops ++ ops') = (v.apply ops).apply ops' := by
  funext n
  rw [apply, apply, apply, Option.map_map]
  congr 1
  funext w
  rw [opsOn_append, List.foldl_append]
  rfl

/-- Writes leave the columns, and every row is what its last write made of it. -/
theorem apply_eq_some (h : v.apply ops n = some w') :
    ∃ w, v n = some w ∧ w'.cols = w.cols ∧
      ∀ id, w'.rows.get? id = (lastWrite n id ops).getD (w.rows.get? id) := by
  obtain ⟨w, hw, rfl⟩ := Option.map_eq_some_iff.mp h
  exact ⟨w, hw, rfl, get?_foldl_overlay w.rows n ops⟩

theorem apply_of_eq_some (h : v n = some w) (ops : List Op) :
    ∃ w', v.apply ops n = some w' ∧ w'.cols = w.cols ∧
      ∀ id, w'.rows.get? id = (lastWrite n id ops).getD (w.rows.get? id) := by
  refine ⟨⟨w.cols, (opsOn n ops).foldl overlay w.rows⟩, ?_, rfl, get?_foldl_overlay w.rows n ops⟩
  rw [apply, h]
  rfl

end Tables

/-! ## Sessions in order -/

namespace Session

/-- The engine's indexes are exact; the transaction, if there is one, is active
and has buffered writes for tables that exist only. -/
structure Ready (s : Session) : Prop where
  indexed : s.1.Indexed
  active : ∀ t, s.2 = some t → t.done = false
  live : ∀ o ∈ s.pending, ∃ tb, s.1.tables.get? o.name = some tb

variable {s s' : Session} {e : Engine} {t t' : Txn} {name : String} {rowID id : Int64} {row : Row}

theorem pending_of_active (h : t.done = false) : Session.pending (e, some t) = t.ops := by
  simp [pending, h]

theorem view_none (e : Engine) (name : String) :
    Session.view (e, none) name = (e.tables.get? name).map fun tb => ⟨tb.cols, tb.rows⟩ := rfl

theorem view_some (h : t.done = false) (name : String) :
    Session.view (e, some t) name
      = (e.tables.get? name).map fun tb => ⟨tb.cols, t.eff name tb⟩ := by
  rw [view, pending_of_active h]
  rfl

/-- The views of a transaction do not depend on the counters of the engine. -/
theorem view_congr (t : Option Txn) (h : e'.view = e.view) :
    Session.view (e', t) = Session.view (e, t) := by
  funext n
  have hp : Session.pending (e', t) = Session.pending (e, t) := rfl
  have hview : ∀ e : Engine, Session.view (e, t) n = (e.view n).map fun tb =>
      ⟨tb.cols, (opsOn n (Session.pending (e, t))).foldl overlay tb.rows⟩ := by
    intro e
    rw [Session.view, Engine.view, Option.map_map]
    rfl
  rw [hview, hview, h, hp]

theorem ready_of_engine (h : e.Indexed) : Ready (e, none) :=
  ⟨h, fun _ ht => (Option.some_ne_none _ ht.symm).elim, fun _ ho => (List.not_mem_nil ho).elim⟩

/-- **A transaction sees the committed tables under its writes.** -/
theorem view_eq_apply (h : t.done = false) :
    Session.view (e, some t) = Tables.apply (Session.view (e, none)) t.ops := by
  funext n
  rw [view_some h, Tables.apply, view_none, Option.map_map]
  rfl

/-- A buffer that goes on growing stays in order. -/
theorem ready_of_ops (h : Ready (e, some t)) (hd' : t'.done = false)
    (hq : e'.view = e.view) (hops : t'.ops = t.ops ++ [⟨name, op⟩]) {tb : Table}
    (htb : e.tables.get? name = some tb) : Ready (e', some t') := by
  have hd := h.active t rfl
  have hi : e'.Indexed := by
    intro n tb hv
    rw [hq] at hv
    exact h.indexed n tb hv
  refine ⟨hi, ?_, ?_⟩
  · rintro t'' ⟨⟩
    exact hd'
  · intro o ho
    rw [pending_of_active hd', hops, List.mem_append, List.mem_singleton] at ho
    have hold : ∃ tb, e.tables.get? o.name = some tb := by
      rcases ho with ho | rfl
      · exact h.live o (by rwa [pending_of_active hd])
      · exact ⟨tb, htb⟩
    obtain ⟨tb, htb⟩ := hold
    obtain ⟨tb', htb', -⟩ := (Engine.sameDefs_of_view hq).table htb
    exact ⟨tb', htb'⟩

theorem Ready.congr (h : Ready (e, some t)) (hq : e'.view = e.view) :
    Ready (e', some t) := by
  refine ⟨?_, h.active, ?_⟩
  · intro n tb hv
    rw [hq] at hv
    exact h.indexed n tb hv
  · intro o ho
    obtain ⟨tb, htb⟩ := h.live o ho
    obtain ⟨tb', htb', -⟩ := (Engine.sameDefs_of_view hq).table htb
    exact ⟨tb', htb'⟩

/-- `Get` reads the view: nothing is buffered for a table that does not exist. -/
theorem Ready.reply_get (hs : Ready s) (n : String) (id : Int64) :
    s.reply (.get n id) = (s.view n).bind fun w => w.rows.get? id := by
  cases hv : s.view n with
  | some w => exact Session.reply_get hv id
  | none =>
    have htb := view_eq_none.mp hv
    obtain ⟨e, - | t⟩ := s
    · show e.get n id = none
      rw [Engine.get, show e.tables.get? n = none from htb]
      rfl
    · have hd := hs.active t rfl
      have hfind : (t.ops.reverse.find? fun o => o.name = n ∧ o.write.rowID = id) = none := by
        rw [List.find?_eq_none]
        intro o ho
        have hlive := hs.live o (by rw [pending_of_active hd]; exact List.mem_reverse.mp ho)
        simp only [decide_eq_true_eq, not_and]
        rintro rfl
        obtain ⟨tb, hsome⟩ := hlive
        rw [htb] at hsome
        cases hsome
      show t.get e n id = none
      rw [Txn.get, hd, hfind, Engine.get, show e.tables.get? n = none from htb]
      rfl

theorem reply_catalog (s : Session) : s.reply .catalog = s.1.catalog := by
  obtain ⟨e, - | t⟩ := s <;> rfl

/-- A row stored by the engine, seen by its session. -/
theorem view_of_set {tb tb' : Table}
    (htb : e.tables.get? name = some tb) (hset : e'.tables = e.tables.set name tb')
    (hcols : tb'.cols = tb.cols) (hrows : tb'.rows = overlay tb.rows op) :
    Session.view (e', none) = Tables.apply (Session.view (e, none)) [⟨name, op⟩] := by
  funext n
  rw [Tables.apply, view_none, view_none, hset, GoMap.get?_set, opsOn_cons, opsOn_nil,
    Option.map_map]
  by_cases hn : n = name
  · rw [if_pos hn, if_pos hn.symm, hn, htb, Option.map_some, Option.map_some, hcols, hrows]
    rfl
  · rw [if_neg hn, if_neg fun h => hn h.symm]
    rfl

/-! ## The four writing calls -/

/-- A session stays what it is: the engine, or a transaction whose buffer grows
by the writes while the engine may draw a row id. -/
inductive Stays : Session → Session → List Op → Prop where
  | engine {e e' : Engine} {ops : List Op} : Stays (e, none) (e', none) ops
  | txn {e e' : Engine} {t t' : Txn} {ops : List Op} (quiet : Engine.Quiet e e') (id : t'.id = t.id)
      (done : t'.done = t.done) (buffer : t'.ops = t.ops ++ ops) :
      Stays (e, some t) (e', some t') ops

theorem Stays.refl (s : Session) : Stays s s [] := by
  obtain ⟨e, - | t⟩ := s
  · exact .engine
  · exact .txn (.refl e) rfl rfl (List.append_nil _).symm

theorem Stays.trans {s'' : Session} {ops ops' : List Op} (h : Stays s s' ops)
    (h' : Stays s' s'' ops') : Stays s s'' (ops ++ ops') := by
  cases h with
  | engine =>
    cases h'
    exact .engine
  | txn quiet id done buffer =>
    obtain _ | ⟨quiet', id', done', buffer'⟩ := h'
    refine .txn (quiet.trans quiet') (id'.trans id) (done'.trans done) ?_
    rw [buffer', buffer, List.append_assoc]

/-- The call was accepted, and made this write. -/
structure Accepted (s s' : Session) (name : String) (op : RowOp) : Prop where
  ready : Ready s'
  defs : s.1.SameDefs s'.1
  view : s'.view = Tables.apply s.view [⟨name, op⟩]
  stays : Stays s s' [⟨name, op⟩]
  table : ∃ w, s.view name = some w
  width : ∀ id row, op = .put id row → ∀ w, s.view name = some w → row.length = w.cols.length

/-- The call was refused. -/
structure Refused (s s' : Session) : Prop where
  ready : Ready s'
  defs : s.1.SameDefs s'.1
  view : s'.view = s.view
  stays : Stays s s' []

theorem Refused.refl (h : Ready s) : Refused s s := ⟨h, .refl _, rfl, .refl s⟩

section Txn

variable {e' : Engine} {tb : Table}

theorem accepted_of_ops (hs : Ready (e, some t)) (hid : t'.id = t.id)
    (hdone : t'.done = t.done) (hq : Engine.Quiet e e') (hops : t'.ops = t.ops ++ [⟨name, op⟩])
    (htb : e.tables.get? name = some tb)
    (hwidth : ∀ id row, op = .put id row → row.length = tb.cols.length) :
    Accepted (e, some t) (e', some t') name op := by
  have hd := hs.active t rfl
  have hd' := hdone.trans hd
  have hview : Session.view (e, some t) name = some ⟨tb.cols, t.eff name tb⟩ := by
    rw [view_some hd, htb]
    rfl
  refine ⟨ready_of_ops hs hd' hq.view hops htb, Engine.sameDefs_of_view hq.view, ?_,
    .txn hq hid hdone hops, ⟨_, hview⟩, ?_⟩
  · rw [view_eq_apply hd', hops, Tables.apply_append, view_congr none hq.view, view_eq_apply hd]
  · intro id row hop w hw
    rw [hview] at hw
    cases hw
    exact hwidth id row hop

/-- A put in a transaction. -/
theorem insertRow_cases (hs : Ready (e, some t)) (name : String) (rowID : Int64) (row : Row)
    (stamp : Int64 → Row → Except Err Row)
    (hstamp : ∀ id row', stamp id row = .ok row' → row'.length = row.length) :
    (∃ id row', (t.insertRow e name rowID row stamp).2.2 = .ok id ∧ (rowID ≠ 0 → id = rowID) ∧
        stamp id row = .ok row' ∧
        Accepted (e, some t) ((t.insertRow e name rowID row stamp).1,
          some (t.insertRow e name rowID row stamp).2.1) name (.put id row')) ∨
      (∃ err, (t.insertRow e name rowID row stamp).2.2 = .error err ∧
        Refused (e, some t) ((t.insertRow e name rowID row stamp).1,
          some (t.insertRow e name rowID row stamp).2.1)) := by
  have hd := hs.active t rfl
  have hq := Engine.quiet_insertRow e t name rowID row stamp
  rcases hins : t.insertRow e name rowID row stamp with ⟨e', t', err | id⟩
  · rw [hins] at hq
    cases Txn.insertRow_error hins
    exact .inr ⟨err, rfl, hs.congr hq.view, Engine.sameDefs_of_view hq.view, view_congr _ hq.view,
      .txn hq rfl rfl (List.append_nil _).symm⟩
  · rw [hins] at hq
    cases htb : e.tables.get? name with
    | none => simp [Txn.insertRow, hd, htb] at hins
    | some tb =>
      obtain ⟨hlen, hid, -, ⟨row', hrow', -, rfl⟩, -⟩ := (Txn.insertRow_eq_ok hd htb).mp hins
      refine .inl ⟨id, row', rfl, fun hne => by rw [hid, if_neg hne], hrow', ?_⟩
      refine accepted_of_ops hs rfl rfl hq rfl htb ?_
      rintro id1 row1 ⟨⟩
      rw [hstamp _ _ hrow', hlen]

end Txn

/-- A put in autocommit. -/
theorem putRow_cases (hs : Ready (e, none)) (name : String) (pkIdx : Int) (rowID : Int64) (row : Row)
    (mustExist : Bool) :
    (∃ id, (e.putRow name pkIdx rowID row mustExist).2 = .ok id ∧ (rowID ≠ 0 → id = rowID) ∧
        (mustExist = true → rowID ≠ 0) ∧
        Accepted (e, none) ((e.putRow name pkIdx rowID row mustExist).1, none) name
          (.put id (Table.stampPK pkIdx id row))) ∨
      (∃ err, (e.putRow name pkIdx rowID row mustExist).2 = .error err ∧
        Refused (e, none) ((e.putRow name pkIdx rowID row mustExist).1, none)) := by
  have hi := (Engine.did_putRow e name pkIdx rowID row mustExist).indexed hs.indexed
  rcases hput : e.putRow name pkIdx rowID row mustExist with ⟨e', err | id⟩
  · rw [hput] at hi
    have hq := (Engine.putRow_error hput).1.view
    exact .inr ⟨err, rfl, ready_of_engine hi, Engine.sameDefs_of_view hq, view_congr _ hq, .engine⟩
  · rw [hput] at hi
    obtain ⟨tb, tb', row', htb, hset, hacc, hname, hcols, hrows, -, -⟩ :=
      Engine.putRow_ok hs.indexed hput
    cases hacc.row_eq
    refine .inl ⟨id, rfl, fun hne => by rw [hacc.id_eq, if_neg hne], ?_, ready_of_engine hi,
      Engine.sameDefs_of_set htb hset hname hcols, view_of_set htb hset hcols hrows, .engine,
      ⟨_, by rw [view_none, htb]; rfl⟩, ?_⟩
    · rintro rfl
      exact Engine.ne_zero_of_update_ok hput
    · rintro id1 row1 ⟨⟩ w hw
      rw [view_none, htb] at hw
      cases hw
      exact hacc.admits.1

/-- **`Put`**: a row that is accepted is stored as it is, under the id it came
with if that is not zero. -/
theorem put_cases (hs : Ready s) (name : String) (rowID : Int64) (row : Row) :
    (∃ id, (handler (.put name rowID row) s).2 = .ok id ∧ (rowID ≠ 0 → id = rowID) ∧
        Accepted s (handler (.put name rowID row) s).1 name (.put id row)) ∨
      (∃ err, (handler (.put name rowID row) s).2 = .error err ∧
        Refused s (handler (.put name rowID row) s).1) := by
  obtain ⟨e, - | t⟩ := s
  · rcases putRow_cases hs name (-1) rowID row false with ⟨id, hr, hid, -, hacc⟩ | hno
    · rw [Table.stampPK_neg] at hacc
      exact .inl ⟨id, hr, hid, hacc⟩
    · exact .inr hno
  · have hcases := insertRow_cases hs name rowID row (fun _ row => .ok row) (by
      rintro _ _ ⟨⟩
      rfl)
    rcases hcases with ⟨id, row', hr, hid, hrow', hacc⟩ | hno
    · cases hrow'
      exact .inl ⟨id, hr, hid, hacc⟩
    · exact .inr hno

/-- **`PutAuto`**: the row is stored with its new id in the key column. -/
theorem putAuto_cases (hs : Ready s) (name : String) (pkIdx : Nat) (row : Row) :
    (∃ id, (handler (.putAuto name pkIdx row) s).2 = .ok id ∧
        Accepted s (handler (.putAuto name pkIdx row) s).1 name
          (.put id (Table.stampPK pkIdx id row))) ∨
      (∃ err, (handler (.putAuto name pkIdx row) s).2 = .error err ∧
        Refused s (handler (.putAuto name pkIdx row) s).1) := by
  obtain ⟨e, - | t⟩ := s
  · rcases putRow_cases hs name pkIdx 0 row false with ⟨id, hr, -, -, hacc⟩ | hno
    · exact .inl ⟨id, hr, hacc⟩
    · exact .inr hno
  · have hcases := insertRow_cases hs name 0 row (fun id row =>
      if 0 ≤ (pkIdx : Int) ∧ (pkIdx : Int) < row.length then
        .ok (Table.stampPK pkIdx id row) else .error .panic) (by
      intro id row' hst
      split at hst
      · cases hst
        exact Table.stampPK_length ..
      · cases hst)
    rcases hcases with ⟨id, row', hr, -, hrow', hacc⟩ | hno
    · split at hrow'
      · cases hrow'
        exact .inl ⟨id, hr, hacc⟩
      · cases hrow'
    · exact .inr hno

/-- **`Update`**: the row is stored under its id. -/
theorem update_cases (hs : Ready s) (name : String) (rowID : Int64) (row : Row) :
    ((handler (.update name rowID row) s).2 = .ok () ∧
        Accepted s (handler (.update name rowID row) s).1 name (.put rowID row)) ∨
      (∃ err, (handler (.update name rowID row) s).2 = .error err ∧
        Refused s (handler (.update name rowID row) s).1) := by
  obtain ⟨e, - | t⟩ := s
  · have hfst : (handler (.update name rowID row) (e, none)).1 =
        ((e.putRow name (-1) rowID row true).1, none) := rfl
    have hsnd : (handler (.update name rowID row) (e, none)).2 =
        (e.putRow name (-1) rowID row true).2.map fun _ => () := rfl
    rw [hfst, hsnd]
    rcases putRow_cases hs name (-1) rowID row true with ⟨id, hr, hid, hne, hacc⟩ | ⟨err, hr, hno⟩
    · rw [Table.stampPK_neg, hid (hne rfl)] at hacc
      rw [hr]
      exact .inl ⟨rfl, hacc⟩
    · rw [hr]
      exact .inr ⟨err, rfl, hno⟩
  · have hd := hs.active t rfl
    simp only [handler, Txn.handler]
    rcases hupd : t.update e name rowID row with ⟨t', err | u⟩
    · cases Txn.update_error hupd
      exact .inr ⟨err, rfl, .refl hs⟩
    · cases htb : e.tables.get? name with
      | none => simp [Txn.update, hd, htb] at hupd
      | some tb =>
        obtain ⟨hlen, -, -, rfl⟩ := (Txn.update_eq_ok hd htb).mp hupd
        refine .inl ⟨rfl, accepted_of_ops hs rfl rfl (.refl e) rfl htb ?_⟩
        rintro id1 row1 ⟨⟩
        exact hlen

/-- **`Delete`.** -/
theorem delete_cases (hs : Ready s) (name : String) (rowID : Int64) :
    ((handler (.delete name rowID) s).2 = .ok () ∧
        Accepted s (handler (.delete name rowID) s).1 name (.delete rowID)) ∨
      (∃ err, (handler (.delete name rowID) s).2 = .error err ∧
        Refused s (handler (.delete name rowID) s).1) := by
  obtain ⟨e, - | t⟩ := s
  · have hi := (Engine.did_delete e name rowID).indexed hs.indexed
    simp only [handler, Engine.handler]
    rcases hdel : e.delete name rowID with ⟨e', err | u⟩
    · cases Engine.delete_error hdel
      exact .inr ⟨err, rfl, .refl hs⟩
    · rw [hdel] at hi
      obtain ⟨tb, tb', old, htb, hset, -, hname, hcols, hrows, -⟩ := Engine.delete_ok hdel
      refine .inl ⟨rfl, ready_of_engine hi, Engine.sameDefs_of_set htb hset hname hcols,
        view_of_set htb hset hcols hrows, .engine, ⟨_, by rw [view_none, htb]; rfl⟩, ?_⟩
      rintro id1 row1 ⟨⟩
  · have hd := hs.active t rfl
    simp only [handler, Txn.handler]
    rcases hdel : t.delete e name rowID with ⟨t', err | u⟩
    · cases Txn.delete_error hdel
      exact .inr ⟨err, rfl, .refl hs⟩
    · cases htb : e.tables.get? name with
      | none => simp [Txn.delete, Txn.effMapLocked, hd, htb] at hdel
      | some tb =>
        obtain ⟨-, rfl⟩ := (Txn.delete_eq_ok hd htb).mp hdel
        refine .inl ⟨rfl, accepted_of_ops hs rfl rfl (.refl e) rfl htb ?_⟩
        rintro id1 row1 ⟨⟩

/-! ## Whole runs -/

/-- The write an accepted call has made. -/
def written : (c : AccessorCall) → c.Reply → List Op
  | .put n _ row, .ok id => [⟨n, .put id row⟩]
  | .putAuto n pkIdx row, .ok id => [⟨n, .put id (Table.stampPK pkIdx id row)⟩]
  | .update n id row, .ok () => [⟨n, .put id row⟩]
  | .delete n id, .ok () => [⟨n, .delete id⟩]
  | _, _ => []

theorem written_reads {c : AccessorCall} (h : c.reads = true) (r : c.Reply) : written c r = [] := by
  cases c <;> first | rfl | cases h

/-- The writes of a program, in order. -/
def writes {ε α : Type} (p : Prog Accessor ε α) (s : Session) : List Op := p.trace handler written s

/-- **What one call does** to what the session sees. -/
structure Stepped (s s' : Session) (ops : List Op) : Prop where
  ready : Ready s'
  defs : s.1.SameDefs s'.1
  view : s'.view = Tables.apply s.view ops
  stays : Stays s s' ops
  table : ∀ o ∈ ops, ∃ w, s.view o.name = some w
  width : ∀ o ∈ ops, ∀ id row, o.write = .put id row → ∀ w, s.view o.name = some w →
    row.length = w.cols.length

theorem Accepted.stepped (h : Accepted s s' name op) : Stepped s s' [⟨name, op⟩] := by
  refine ⟨h.ready, h.defs, h.view, h.stays, ?_, ?_⟩
  · intro o ho
    cases List.mem_singleton.mp ho
    exact h.table
  · intro o ho
    cases List.mem_singleton.mp ho
    exact h.width

theorem Refused.stepped (h : Refused s s') : Stepped s s' [] :=
  ⟨h.ready, h.defs, by rw [h.view, Tables.apply_nil], h.stays, fun _ ho => (List.not_mem_nil ho).elim,
    fun _ ho => (List.not_mem_nil ho).elim⟩

theorem Stepped.refl (h : Ready s) : Stepped s s [] := (Refused.refl h).stepped

theorem stepped_handler (hs : Ready s) (c : AccessorCall) :
    Stepped s (handler c s).1 (written c (handler c s).2) := by
  cases c with
  | catalog | allRows n | get n id | uniqueGet n ci v =>
    rw [written_reads rfl, handler_reads rfl]
    exact .refl hs
  | put n id row =>
    rcases put_cases hs n id row with ⟨id', hr, -, h⟩ | ⟨err, hr, h⟩
    · rw [hr]
      exact h.stepped
    · rw [hr]
      exact h.stepped
  | putAuto n pkIdx row =>
    rcases putAuto_cases hs n pkIdx row with ⟨id', hr, h⟩ | ⟨err, hr, h⟩
    · rw [hr]
      exact h.stepped
    · rw [hr]
      exact h.stepped
  | update n id row =>
    rcases update_cases hs n id row with ⟨hr, h⟩ | ⟨err, hr, h⟩
    · rw [hr]
      exact h.stepped
    · rw [hr]
      exact h.stepped
  | delete n id =>
    rcases delete_cases hs n id with ⟨hr, h⟩ | ⟨err, hr, h⟩
    · rw [hr]
      exact h.stepped
    · rw [hr]
      exact h.stepped

theorem Stepped.trans {s'' : Session} {ops ops' : List Op} (h : Stepped s s' ops)
    (h' : Stepped s' s'' ops') : Stepped s s'' (ops ++ ops') := by
  have hcols : ∀ n w, s.view n = some w → ∃ w', s'.view n = some w' ∧ w'.cols = w.cols := by
    intro n w hw
    obtain ⟨w', hw', hcols, -⟩ := Tables.apply_of_eq_some hw ops
    exact ⟨w', h.view ▸ hw', hcols⟩
  refine ⟨h'.ready, h.defs.trans h'.defs, ?_, h.stays.trans h'.stays, ?_, ?_⟩
  · rw [h'.view, h.view, Tables.apply_append]
  · intro o ho
    rcases List.mem_append.mp ho with ho | ho
    · exact h.table o ho
    · obtain ⟨w', hw'⟩ := h'.table o ho
      rw [h.view] at hw'
      obtain ⟨w, hw, -⟩ := Tables.apply_eq_some hw'
      exact ⟨w, hw⟩
  · intro o ho id row hop w hw
    rcases List.mem_append.mp ho with ho | ho
    · exact h.width o ho id row hop w hw
    · obtain ⟨w', hw', hcols⟩ := hcols _ w hw
      rw [← hcols]
      exact h'.width o ho id row hop w' hw'

/-- **What a run does**: it makes its writes, and nothing else. -/
theorem stepped_run {ε α : Type} (p : Prog Accessor ε α) (hs : Ready s) :
    Stepped s (p.run handler s).1 (writes p s) := by
  induction p generalizing s with
  | ret a => exact .refl hs
  | fail err => exact .refl hs
  | call c k ih =>
    have hstep := stepped_handler hs c
    exact hstep.trans (ih _ hstep.ready)

/-- In autocommit the session is the engine. -/
theorem run_engine {ε α : Type} (p : Prog Accessor ε α) (e : Engine) :
    p.run handler (e, none) = (((p.run Engine.handler e).1, none), (p.run Engine.handler e).2) := by
  induction p generalizing e with
  | ret a => rfl
  | fail err => rfl
  | call c k ih => exact ih _ _

end Session

end Tsql.Storage
