import Tsql.Executor.Turns
import Tsql.Storage.KeptKeys

/-!
# What a failed statement leaves behind

In autocommit every row of an INSERT, UPDATE or DELETE is a transaction of its
own, and a primary-key move is two. A statement that fails at a later row, or
between the two halves of a move, leaves what it has done.

It leaves nothing exactly if no row before the one it fails at is really
written (`Untouched`). Which row that is can be told from the tables as they
were before the statement, since nothing has changed until then. That such a
statement leaves nothing is one half. The other is that no statement ever
undoes what it has done: a loop that has really changed a row does not come
back to the table it started from.
-/

namespace Tsql.Executor

open Storage Prog

variable {row : Row} {env : Env} {sc : JoinScope} {td : TableDef} {table : String} {e e' : Engine}

/-! ## What a turn would do -/

/-- No row refers to the row with this id. -/
def Unreferred (e : Engine) (table : String) (id : Int64) : Prop :=
  (fkReferenced table id table id).eval (Session.reply (e, none)) = .ok ()

/-- The foreign keys of the row have their parents. -/
def HasParents (e : Engine) (td : TableDef) (row : Row) : Prop :=
  (checkFK td row).eval (Session.reply (e, none)) = .ok ()

/-- **An INSERT stores this tuple** as `row'` under `id`, when `drawn` automatic
ids have been drawn since; `p.2` counts the tuples from one. -/
def Stores (env : Env) (e : Engine) (td : TableDef) (table : String) (idx : List Nat) (drawn : Nat)
    (p : List Expr × Nat) (id : Int64) (row' : Row) : Prop :=
  ∃ row key t, prepareRow env td table idx p.2 p.1 = .ok (row, key) ∧ HasParents e td row ∧
    e.tables.get? table = some t ∧ 0 ≤ key.getD 0 ∧
    { t with nextID := t.nextID + Int64.ofNat drawn }.Accepts
      (key.elim ((pkIndex td).getD 0 : Int) fun _ => -1) (key.getD 0) row false id row'

/-- **An UPDATE writes this row**: back under its id, or it is deleted to be put
under another. -/
def Rewrites (env : Env) (e : Engine) (td : TableDef) (table : String) (sets : List (Nat × Expr))
    (c : Int64 × Row) : Prop :=
  ∃ new, setRow env (singleTableScope td) td c.2 sets c.2 = .ok new ∧ HasParents e td new ∧
    (keyChange td new c.2 = .ok none ∧ 0 < c.1 ∧
        (∀ t, e.tables.get? table = some t → (⟨t.cols, t.rows⟩ : View).Admits c.1 new) ∨
      ∃ key, keyChange td new c.2 = .ok (some key) ∧ Unreferred e table c.1)

/-- **The condition**, on the statement and the state before it: it fails before
its first row, or at a row before which it only writes rows that lie there
already. Such a tuple of an INSERT has drawn its id, so the counter has moved by
one for each. -/
def Untouched (env : Env) (e : Engine) : Statement → Prop
  | .insert i =>
    match (selectInsert i).eval (Session.reply (e, none)) with
    | .error _ => True
    | .ok (td, idx) => StopsFirst
        (fun p => ∃ id row, Stores env e td i.table idx (p.2 - 1) p id row ∧
          e.get i.table id = some row)
        (fun p => ∃ id row, Stores env e td i.table idx (p.2 - 1) p id row) (i.rows.zipIdx 1)
  | .update u =>
    match (selectUpdate env u).eval (Session.reply (e, none)) with
    | .error _ => True
    | .ok (td, sets, cands) => StopsFirst
        (fun c => setRow env (singleTableScope td) td c.2 sets c.2 = .ok c.2)
        (Rewrites env e td u.table sets) cands
  | .delete d =>
    match (selectDelete env d).eval (Session.reply (e, none)) with
    | .error _ => True
    | .ok cands => StopsFirst (fun _ => False) (fun c => Unreferred e d.table c.1) cands
  | _ => False

/-! ## Running a turn -/

/-- Reads see the tables, and not the counters. -/
theorem eval_of_view {α : Type} {p : Exec α} (hp : Reads p) (h : e'.view = e.view) :
    p.eval (Session.reply (e', none)) = p.eval (Session.reply (e, none)) := by
  refine Prog.eval_congr (fun c hc => ?_) hp
  by_cases hcat : c = .catalog
  · subst hcat
    rw [Session.reply_catalog, Session.reply_catalog]
    exact (Engine.sameDefs_of_view h).catalog_eq
  · exact Engine.reply_congr hc hcat fun n _ => congrFun h n

/-- What is filed in one is filed in the other, but for the counter. -/
theorem table_of_view (h : e'.view = e.view) {t : Table} (ht : e'.tables.get? table = some t) :
    ∃ t0, e.tables.get? table = some t0 ∧ t0.cols = t.cols ∧ t0.rows = t.rows := by
  have hv := Engine.view_eq_some ht
  rw [h] at hv
  obtain ⟨t0, ht0, hdata⟩ := Engine.exists_of_view hv
  exact ⟨t0, ht0, (congrArg Table.cols hdata :), (congrArg Table.rows hdata :)⟩

theorem unreferred_of_view (h : e'.view = e.view) (id : Int64) :
    Unreferred e' table id ↔ Unreferred e table id := by
  rw [Unreferred, eval_of_view (scans_fkReferenced ..).reads h, Unreferred]

theorem hasParents_of_view (h : e'.view = e.view) : HasParents e' td row ↔ HasParents e td row := by
  rw [HasParents, eval_of_view (scans_checkFK td row).reads h, HasParents]

/-- A run that reads first. -/
theorem read_cases {α : Type} {p : Exec α} (h : Reads p) (f : α → Exec Unit) (e : Engine) :
    (∃ err, p.eval (Session.reply (e, none)) = .error err ∧
        (p >>= f).run Engine.handler e = (e, .error err)) ∨
      ∃ a, p.eval (Session.reply (e, none)) = .ok a ∧
        (p >>= f).run Engine.handler e = (f a).run Engine.handler e := by
  have hrun := h.run_engine e
  cases hev : p.eval (Session.reply (e, none)) with
  | error err =>
    rw [hev] at hrun
    exact .inl ⟨err, rfl, Prog.run_bind_error hrun f⟩
  | ok a =>
    rw [hev] at hrun
    exact .inr ⟨a, rfl, Prog.run_bind_ok hrun f⟩

section Bind

variable {f : Except Err Int64 → Exec Unit} {r : Except Err Int64} {id : Int64}

theorem delete_bind {f : Except Err Unit → Exec Unit} {r : Except Err Unit}
    (h : e.delete table id = (e', r)) :
    (delete table id >>= f).run Engine.handler e = (f r).run Engine.handler e' := by
  show (f (e.delete table id).2).run Engine.handler (e.delete table id).1 = _
  rw [h]

theorem put_bind (h : e.putRow table (-1) id row false = (e', r)) :
    (put table id row >>= f).run Engine.handler e = (f r).run Engine.handler e' := by
  show (f (e.put table id row).2).run Engine.handler (e.put table id row).1 = _
  rw [Engine.put, h]

theorem putAuto_bind {pkIdx : Nat} (h : e.putRow table pkIdx 0 row false = (e', r)) :
    (putAuto table pkIdx row >>= f).run Engine.handler e = (f r).run Engine.handler e' := by
  show (f (e.putAuto table pkIdx row).2).run Engine.handler (e.putAuto table pkIdx row).1 = _
  rw [Engine.putAuto, h]

theorem update_bind {f : Except Err Unit → Exec Unit}
    (h : e.putRow table (-1) id row true = (e', r)) :
    (update table id row >>= f).run Engine.handler e
      = (f (r.map fun _ => ())).run Engine.handler e' := by
  show (f ((e.update table id row).2.map fun _ => ())).run Engine.handler
      (e.update table id row).1 = _
  rw [Engine.update, h]

end Bind

/-- **One put of a statement**: it is refused and may not be accepted, or it
stores its row. -/
theorem put_turn (hi : e.Indexed) (table : String) (pkIdx : Int) (rowID : Int64) (row : Row)
    (mustExist : Bool) :
    (∃ e' err, e.putRow table pkIdx rowID row mustExist = (e', .error err) ∧ e'.view = e.view ∧
        ∀ t id row', Engine.checkRowID rowID mustExist = .ok () → e.tables.get? table = some t →
          ¬ t.Accepts pkIdx rowID row mustExist id row') ∨
      ∃ e' id t t' row', e.putRow table pkIdx rowID row mustExist = (e', .ok id) ∧
        Engine.checkRowID rowID mustExist = .ok () ∧ e.tables.get? table = some t ∧
        e'.tables.get? table = some t' ∧ t.Accepts pkIdx rowID row mustExist id row' ∧
        t'.rows = t.rows.set id row' ∧ t'.nextID = t.counterAfter rowID mustExist ∧
        (t.rows.get? id = some row' → e'.view = e.view) := by
  have hdid := (Engine.did_putRow e table pkIdx rowID row mustExist).indexed hi
  rcases hput : e.putRow table pkIdx rowID row mustExist with ⟨e', err | id⟩
  · refine .inl ⟨e', err, rfl, (Engine.putRow_error hput).1.view, fun t id row' hid ht hacc => ?_⟩
    obtain ⟨e'', hok⟩ := Engine.putRow_of_accepts hi hid ht hacc
    rw [hput] at hok
    cases hok
  · obtain ⟨t, t', row', ht, hset, hacc, -, -, hrows, hnext, hwrites⟩ := Engine.putRow_ok hi hput
    have hid : Engine.checkRowID rowID mustExist = .ok () := by
      rw [Engine.putRow] at hput
      cases hc : Engine.checkRowID rowID mustExist with
      | error err =>
        rw [hc] at hput
        cases hput
      | ok u => rfl
    refine .inr ⟨e', id, t, t', row', rfl, hid, ht, by rw [hset, GoMap.get?_set_self], hacc, hrows,
      hnext, fun hheld => ?_⟩
    rcases e.putRow_cases table pkIdx rowID row mustExist with ⟨o, hw, -, -, hwritten⟩ | ⟨hnil, -⟩
    · rw [hwrites] at hw
      cases hw
      rw [hput] at hdid hwritten
      rw [← Engine.rowsOf_eq ht] at hheld
      exact Engine.Written.view_same hi hdid hwritten hheld
    · rw [hwrites] at hnil
      cases hnil

/-! ## DELETE -/

theorem get?_of_delete_error {id : Int64} {err : Err} (h : e.delete table id = (e', .error err)) :
    (e.rowsOf table).get? id = none := by
  rw [← e.get_eq_rowsOf]
  rcases e.delete_cases table id with ⟨-, hok, -⟩ | ⟨hnil, -⟩
  · rw [h] at hok
    cases hok
  · unfold Engine.deleteWrites at hnil
    cases hget : e.get table id with
    | none => rfl
    | some row => simp [hget] at hnil

/-- **One turn of a DELETE** is refused, or deletes its row. -/
theorem deleteRow_cases (e : Engine) (c : Int64 × Row) :
    (∃ err, (deleteRow table c).run Engine.handler e = (e, .error err) ∧
        ((e.rowsOf table).get? c.1 = some c.2 → ¬ Unreferred e table c.1)) ∨
      Unreferred e table c.1 ∧ ∃ e', (deleteRow table c).run Engine.handler e = (e', .ok ()) ∧
        (e'.rowsOf table).size + 1 = (e.rowsOf table).size := by
  rcases read_cases (scans_fkReferenced table c.1 table c.1).reads _ e with
    ⟨err, hev, hrun⟩ | ⟨u, hev, hrun⟩
  · refine .inl ⟨err, hrun, fun _ hfree => ?_⟩
    rw [Unreferred, hev] at hfree
    cases hfree
  · unfold deleteRow
    rw [hrun]
    rcases hdel : e.delete table c.1 with ⟨e', err | u'⟩
    · have he' := Engine.delete_error hdel
      subst he'
      refine .inl ⟨_, delete_bind hdel, fun hc => ?_⟩
      rw [get?_of_delete_error hdel] at hc
      cases hc
    · obtain ⟨t, t', old, ht, hset, hold, -, -, hrows, -⟩ := Engine.delete_ok hdel
      refine .inr ⟨hev, e', delete_bind hdel, ?_⟩
      rw [Engine.rowsOf_eq ht, Engine.rowsOf_set hset, hrows]
      exact GoMap.size_delete_of_mem hold

/-- A DELETE that has deleted a row ends with fewer rows than before. -/
theorem deleteRows_iff {cands : List (Int64 × Row)}
    (hcands : ∀ c ∈ cands, (e.rowsOf table).get? c.1 = some c.2) {err : Failure}
    (hfail : ((deleteRows table cands).run Engine.handler e).2 = .error err) :
    ((deleteRows table cands).run Engine.handler e).1.view = e.view ↔
      StopsFirst (fun _ => False) (fun c => Unreferred e table c.1) cands := by
  rw [deleteRows_eq_each] at hfail ⊢
  have hsmaller : ∀ s : Engine, (s.rowsOf table).size < (e.rowsOf table).size →
      s.view ≠ e.view := by
    intro s hlt heq
    rw [Engine.rowsOf_congr heq] at hlt
    omega
  refine each_fails_iff (F := fun s => s.view = e.view)
    (G := fun cs s => s = e ∧ ∀ c ∈ cs, (e.rowsOf table).get? c.1 = some c.2)
    (B := fun _ s => (s.rowsOf table).size < (e.rowsOf table).size)
    (fun _ s => hsmaller s) ?_ ?_ ⟨rfl, hcands⟩ hfail
  · intro c cs s hbad
    rcases deleteRow_cases s c with ⟨err, hrun, -⟩ | ⟨-, s', hrun, hsize⟩
    · rw [hrun]
      exact hsmaller s hbad
    · rw [hrun]
      show (s'.rowsOf table).size < _
      omega
  · rintro c cs s ⟨rfl, hcs⟩
    rcases deleteRow_cases s c with ⟨err, hrun, hno⟩ | ⟨hfree, s', hrun, hsize⟩
    · rw [hrun]
      exact .inl ⟨hno (hcs c List.mem_cons_self), rfl⟩
    · rw [hrun]
      refine .inr (.inr ⟨hfree, id, ?_⟩)
      show (s'.rowsOf table).size < _
      omega

/-! ## UPDATE -/

/-- **One turn of an UPDATE**: refused; or the row written back; or moved; or
deleted for a move whose put was then refused. -/
inductive UpdateTurn (env : Env) (td : TableDef) (table : String) (sets : List (Nat × Expr))
    (c : Int64 × Row) (e : Engine) : Engine × Except Failure Unit → Prop where
  | refused {e' : Engine} {err : Failure} (view : e'.view = e.view)
      (not : (e.rowsOf table).get? c.1 = some c.2 → ¬ Rewrites env e td table sets c) :
      UpdateTurn env td table sets c e (e', .error err)
  | written {e' : Engine} {old row : Row} (writes : Rewrites env e td table sets c)
      (set : setRow env (singleTableScope td) td c.2 sets c.2 = .ok row)
      (found : (e.rowsOf table).get? c.1 = some old)
      (rows : e'.rowsOf table = (e.rowsOf table).set c.1 row)
      (same : (e.rowsOf table).get? c.1 = some row → e'.view = e.view) :
      UpdateTurn env td table sets c e (e', .ok ())
  | moved {e' : Engine} {old row : Row} {id : Int64} (writes : Rewrites env e td table sets c)
      (set : setRow env (singleTableScope td) td c.2 sets c.2 = .ok row) (changed : row ≠ c.2)
      (found : (e.rowsOf table).get? c.1 = some old)
      (rows : e'.rowsOf table = ((e.rowsOf table).delete c.1).set id row) :
      UpdateTurn env td table sets c e (e', .ok ())
  | lost {e' : Engine} {old row : Row} {err : Failure} (writes : Rewrites env e td table sets c)
      (set : setRow env (singleTableScope td) td c.2 sets c.2 = .ok row) (changed : row ≠ c.2)
      (found : (e.rowsOf table).get? c.1 = some old)
      (rows : e'.rowsOf table = (e.rowsOf table).delete c.1) :
      UpdateTurn env td table sets c e (e', .error err)

/-- An UPDATE moves a row only if it changes it. -/
theorem ne_of_keyChange {newRow row : Row} {id : Int64}
    (h : keyChange td newRow row = .ok (some id)) : newRow ≠ row := by
  rintro rfl
  unfold keyChange at h
  split at h
  · cases h
  · obtain ⟨v, hv, h⟩ := bind_eq_ok.mp h
    cases v with
    | int n =>
      obtain ⟨w, hw, h⟩ := bind_eq_ok.mp h
      rw [hv] at hw
      cases hw
      dsimp only at h
      rw [if_neg fun hne => hne rfl] at h
      cases h
    | null | float _ | text _ | bool _ | time _ => cases h

section

variable {sets : List (Nat × Expr)} {c : Int64 × Row}

theorem updateTurn_writeBack (hi : e.Indexed)
    (hset : setRow env (singleTableScope td) td c.2 sets c.2 = .ok row) (hpar : HasParents e td row)
    (hkey : keyChange td row c.2 = .ok none) :
    UpdateTurn env td table sets c e ((writeBack table c.1 row).run Engine.handler e) := by
  unfold writeBack
  rcases put_turn hi table (-1) c.1 row true with
    ⟨e', err, hput, hview, hno⟩ | ⟨e', id, t, t', row', hput, hid, ht, ht', hacc, hrows, -, hsame⟩
  · rw [show (update table c.1 row >>= _).run Engine.handler e = (e', .error _) from
      update_bind hput]
    refine .refused hview ?_
    rintro hold ⟨new, hset', -, ⟨-, hlt, hadmits⟩ | ⟨key, hkey', -⟩⟩
    · rw [hset] at hset'
      cases hset'
      cases ht : e.tables.get? table with
      | none => simp [Engine.rowsOf, ht] at hold
      | some t =>
        rw [Engine.rowsOf_eq ht] at hold
        refine hno t c.1 row (Engine.checkRowID_eq_ok.mpr hlt) ht
          ⟨fun _ => by rw [hold]; rfl, ?_, ?_, hadmits t ht⟩
        · rw [if_neg fun h => Int64.lt_irrefl (h ▸ hlt)]
        · rw [Table.stampPK_neg]
    · rw [hset] at hset'
      cases hset'
      rw [hkey] at hkey'
      cases hkey'
  · have hlt := Engine.checkRowID_eq_ok.mp hid
    have hne : c.1 ≠ 0 := fun h => Int64.lt_irrefl (h ▸ hlt)
    obtain ⟨hfound, hid', hrow', hadmits⟩ := hacc
    rw [if_neg hne] at hid'
    rw [Table.stampPK_neg] at hrow'
    subst hid' hrow'
    obtain ⟨old, hold⟩ := Option.isSome_iff_exists.mp (hfound hne)
    rw [show (update table c.1 row' >>= _).run Engine.handler e = (e', .ok ()) from
      update_bind hput]
    have hrew : Rewrites env e td table sets c := by
      refine ⟨row', hset, hpar, .inl ⟨hkey, hlt, fun t1 ht1 => ?_⟩⟩
      rw [ht] at ht1
      cases ht1
      exact hadmits
    rw [← Engine.rowsOf_eq ht] at hold hrows hsame
    exact .written hrew hset hold ((Engine.rowsOf_eq ht').trans hrows) hsame

theorem updateTurn_moveRow (hi : e.Indexed)
    (hset : setRow env (singleTableScope td) td c.2 sets c.2 = .ok row) (hpar : HasParents e td row)
    {key : Int64} (hkey : keyChange td row c.2 = .ok (some key)) :
    UpdateTurn env td table sets c e ((moveRow table c.1 key row).run Engine.handler e) := by
  have hne := ne_of_keyChange hkey
  -- it is refused only if somebody refers to it
  have hno : ∀ {err},
      (fkReferenced table c.1 table c.1).eval (Session.reply (e, none)) = .error err →
        ¬ Rewrites env e td table sets c := by
    rintro err hev ⟨new, hset', -, ⟨hkey', -⟩ | ⟨-, -, hfree⟩⟩
    · rw [hset] at hset'
      cases hset'
      rw [hkey] at hkey'
      cases hkey'
    · rw [Unreferred, hev] at hfree
      cases hfree
  unfold moveRow
  rcases read_cases (scans_fkReferenced table c.1 table c.1).reads _ e with
    ⟨err, hev, hrun⟩ | ⟨u, hev, hrun⟩
  · rw [hrun]
    exact .refused rfl fun _ => hno hev
  rw [hrun]
  have hrew : Rewrites env e td table sets c := ⟨row, hset, hpar, .inr ⟨key, hkey, hev⟩⟩
  rcases hdel : e.delete table c.1 with ⟨e1, err | u'⟩
  · rw [delete_bind hdel]
    have he1 := Engine.delete_error hdel
    subst he1
    refine .refused rfl fun hc => ?_
    rw [get?_of_delete_error hdel] at hc
    cases hc
  · rw [delete_bind hdel]
    obtain ⟨t, t1, old, ht, hset1, hold, -, -, hrows, -⟩ := Engine.delete_ok hdel
    rw [← Engine.rowsOf_eq ht] at hold hrows
    have hi1 : e1.Indexed := by
      have := (Engine.did_delete e table c.1).indexed hi
      rwa [hdel] at this
    dsimp only
    rcases put_turn hi1 table (-1) key row false with
      ⟨e2, err, hput, hview, -⟩ | ⟨e2, id, t2, t3, row', hput, -, ht2, ht3, hacc, hrows2, -⟩
    · rw [put_bind hput]
      refine .lost hrew hset hne hold ?_
      rw [Engine.rowsOf_congr hview, Engine.rowsOf_set hset1, hrows]
    · rw [put_bind hput]
      have hrow : row' = row := hacc.row_eq.trans (Table.stampPK_neg id row)
      subst hrow
      have hafter : e2.rowsOf table = ((e.rowsOf table).delete c.1).set id row' := by
        rw [Engine.rowsOf_eq ht3, hrows2, ← Engine.rowsOf_eq ht2, Engine.rowsOf_set hset1, hrows]
      exact .moved hrew hset hne hold hafter

theorem updateTurn_updateRow (hi : e.Indexed) (sets : List (Nat × Expr)) (c : Int64 × Row) :
    UpdateTurn env td table sets c e
      ((updateRow env (singleTableScope td) td table sets c).run Engine.handler e) := by
  unfold updateRow
  rcases read_cases (Reads.lift (setRow env (singleTableScope td) td c.2 sets c.2)) _ e with
    ⟨err, hev, hrun⟩ | ⟨row, hev, hrun⟩ <;> rw [hrun] <;> rw [eval_ofExcept] at hev
  · refine .refused rfl ?_
    rintro - ⟨new, hset, -⟩
    rw [hev] at hset
    cases hset
  rcases read_cases (scans_checkFK td row).reads _ e with
    ⟨err, hpar, hrun⟩ | ⟨u, hpar, hrun⟩ <;> rw [hrun]
  · refine .refused rfl ?_
    rintro - ⟨new, hset, hpar', -⟩
    rw [hev] at hset
    cases hset
    rw [HasParents, hpar] at hpar'
    cases hpar'
  rcases read_cases (Reads.lift (keyChange td row c.2)) _ e with
    ⟨err, hkey, hrun⟩ | ⟨key, hkey, hrun⟩ <;> rw [hrun] <;> rw [eval_ofExcept] at hkey
  · refine .refused rfl ?_
    rintro - ⟨new, hset, -, hkeys⟩
    rw [hev] at hset
    cases hset
    rw [hkey] at hkeys
    simp at hkeys
  · cases key with
    | none => exact updateTurn_writeBack hi hev hpar hkey
    | some key => exact updateTurn_moveRow hi hev hpar hkey

theorem rewrites_of_view (h : e'.view = e.view) :
    Rewrites env e' td table sets c ↔ Rewrites env e td table sets c := by
  have hadmits : ∀ {e e' : Engine}, e'.view = e.view → ∀ new,
      (∀ t, e.tables.get? table = some t → (⟨t.cols, t.rows⟩ : View).Admits c.1 new) →
        ∀ t, e'.tables.get? table = some t → (⟨t.cols, t.rows⟩ : View).Admits c.1 new := by
    intro e e' h new hall t ht
    obtain ⟨t0, ht0, hcols, hrows⟩ := table_of_view h ht
    have hadm := hall t0 ht0
    rwa [hcols, hrows] at hadm
  unfold Rewrites
  simp only [hasParents_of_view h, unreferred_of_view h]
  refine exists_congr fun new => and_congr_right fun _ => and_congr_right fun _ => ?_
  exact or_congr_left (and_congr_right fun _ => and_congr_right fun _ =>
    ⟨hadmits h.symm new, hadmits h new⟩)

end

/-- The table is not, and by writing the rows in `left` will not again be, what
it was: it has lost a row, or has another row under an id not in `left`. -/
def Astray (before : GoMap Int64 Row) (left : List Int64) (rows : GoMap Int64 Row) : Prop :=
  rows.size < before.size ∨
    rows.size ≤ before.size ∧
      ∃ id ∉ left, ∃ row, rows.get? id = some row ∧ before.get? id ≠ some row

section Astray

variable {before rows : GoMap Int64 Row} {left : List Int64} {id id' : Int64} {old row : Row}

theorem Astray.ne (h : Astray before left rows) : rows ≠ before := by
  rintro rfl
  rcases h with h | ⟨-, id, -, row, hrow, hne⟩
  · omega
  · exact hne hrow

/-- A row written back is not the one that differs. -/
theorem Astray.set (h : Astray before (id :: left) rows) (hold : rows.get? id = some old) :
    Astray before left (rows.set id row) := by
  have hsize := GoMap.size_set_of_mem hold row
  rcases h with h | ⟨hle, id', hid', r, hr, hne⟩
  · exact .inl (by omega)
  · refine .inr ⟨by omega, id', fun hm => hid' (List.mem_cons_of_mem _ hm), r, ?_, hne⟩
    rw [GoMap.get?_set_ne _ _ fun heq => hid' (by simp [heq]), hr]

theorem Astray.delete (h : Astray before (id :: left) rows) (hold : rows.get? id = some old) :
    (rows.delete id).size < before.size := by
  have hsize := GoMap.size_delete_of_mem hold
  rcases h with h | ⟨hle, -⟩ <;> omega

/-- A moved row takes a free id, or the table loses one. -/
theorem Astray.move (h : Astray before (id :: left) rows) (hold : rows.get? id = some old) :
    Astray before left ((rows.delete id).set id' row) := by
  have hdelete := GoMap.size_delete_of_mem hold
  have hlt := h.delete hold
  cases hat : (rows.delete id).get? id' with
  | some r =>
    have hset := GoMap.size_set_of_mem hat row
    exact .inl (by omega)
  | none =>
    have hset := GoMap.size_set_of_not_mem hat row
    rcases h with h | ⟨hle, x, hx, r, hr, hne⟩
    · exact .inl (by omega)
    · refine .inr ⟨by omega, x, fun hm => hx (List.mem_cons_of_mem _ hm), r, ?_, hne⟩
      have hxid : x ≠ id := fun heq => hx (by simp [heq])
      have hkept : (rows.delete id).get? x = some r := by rw [GoMap.get?_delete_ne _ hxid, hr]
      rw [GoMap.get?_set_ne _ _ fun heq => ?_, hkept]
      rw [heq, hat] at hkept
      cases hkept

/-- The first row really written. -/
theorem astray_set (hold : before.get? id = some old) (hne : before.get? id ≠ some row)
    (hid : id ∉ left) : Astray before left (before.set id row) :=
  .inr ⟨(GoMap.size_set_of_mem hold row).le, id, hid, row, GoMap.get?_set_self .., hne⟩

/-- The first row moved. -/
theorem astray_move (hold : before.get? id = some old) (hne : row ≠ old) (hid : id ∉ left)
    (hleft : ∀ x ∈ left, ∃ r, before.get? x = some r) :
    Astray before left ((before.delete id).set id' row) := by
  have hdelete := GoMap.size_delete_of_mem hold
  cases hat : (before.delete id).get? id' with
  | some r =>
    have hset := GoMap.size_set_of_mem hat row
    exact .inl (by omega)
  | none =>
    have hset := GoMap.size_set_of_not_mem hat row
    refine .inr ⟨by omega, id', ?_, row, GoMap.get?_set_self .., ?_⟩
    · intro hm
      obtain ⟨r, hr⟩ := hleft id' hm
      have hne : id' ≠ id := by
        rintro rfl
        exact hid hm
      rw [GoMap.get?_delete_ne _ hne, hr] at hat
      cases hat
    · -- either the id was free, or the row is back under it, changed
      by_cases heq : id' = id
      · rw [heq, hold]
        exact fun h => hne (Option.some.inj h).symm
      · rw [GoMap.get?_delete_ne _ heq] at hat
        rw [hat]
        simp

end Astray

/-- An UPDATE that has changed a row does not change it back. -/
theorem updateRows_iff (hi : e.Indexed) (sets : List (Nat × Expr)) {cands : List (Int64 × Row)}
    (hnodup : (cands.map Prod.fst).Nodup)
    (hcands : ∀ c ∈ cands, (e.rowsOf table).get? c.1 = some c.2) {err : Failure}
    (hfail : ((updateRows env (singleTableScope td) td table sets cands).run Engine.handler e).2
      = .error err) :
    ((updateRows env (singleTableScope td) td table sets cands).run Engine.handler e).1.view
        = e.view ↔
      StopsFirst (fun c => setRow env (singleTableScope td) td c.2 sets c.2 = .ok c.2)
        (Rewrites env e td table sets) cands := by
  rw [updateRows_eq_each] at hfail ⊢
  have hne : ∀ {s : Engine} left, Astray (e.rowsOf table) left (s.rowsOf table) →
      s.view ≠ e.view := fun left h heq => h.ne (Engine.rowsOf_congr heq table)
  refine each_fails_iff (F := fun s => s.view = e.view)
    (G := fun cs s => s.Indexed ∧ s.view = e.view ∧ (cs.map Prod.fst).Nodup ∧
      ∀ c ∈ cs, (e.rowsOf table).get? c.1 = some c.2)
    (B := fun cs s => s.Indexed ∧ Astray (e.rowsOf table) (cs.map Prod.fst) (s.rowsOf table))
    (fun cs s hbad => hne _ hbad.2) ?_ ?_ ⟨hi, rfl, hnodup, hcands⟩ hfail
  · rintro c cs s ⟨hs, hbad⟩
    have hs' := Engine.indexed_run hs (updateRow env (singleTableScope td) td table sets c)
    have hturn : UpdateTurn env td table sets c s _ := updateTurn_updateRow hs sets c
    generalize (updateRow env (singleTableScope td) td table sets c).run Engine.handler s = x
      at hs' hturn
    cases hturn with
    | refused view not => exact fun heq => hne _ hbad (view.symm.trans heq)
    | written writes set found rows same =>
      refine ⟨hs', ?_⟩
      rw [rows]
      exact hbad.set found
    | moved writes set changed found rows =>
      refine ⟨hs', ?_⟩
      rw [rows]
      exact hbad.move found
    | lost writes set changed found rows =>
      refine hne [] (.inl ?_)
      rw [rows]
      exact hbad.delete found
  · rintro c cs s ⟨hs, hview, hnodup, hcands⟩
    obtain ⟨hc, hcs⟩ := List.nodup_cons.mp hnodup
    obtain ⟨hhead, hcs'⟩ := List.forall_mem_cons.mp hcands
    have hrowsOf := Engine.rowsOf_congr hview table
    have hs' := Engine.indexed_run hs (updateRow env (singleTableScope td) td table sets c)
    have hturn : UpdateTurn env td table sets c s _ := updateTurn_updateRow hs sets c
    generalize (updateRow env (singleTableScope td) td table sets c).run Engine.handler s = x
      at hs' hturn
    cases hturn with
    | refused view not =>
      exact .inl ⟨fun hw => not (hrowsOf ▸ hhead) ((rewrites_of_view hview).mpr hw),
        view.trans hview⟩
    | @written s' old row writes set found rows same =>
      refine .inr ?_
      rw [hrowsOf] at found rows same
      refine (em (row = c.2)).imp (fun heq => ?_) fun hne => ?_
      · subst heq
        exact ⟨(rewrites_of_view hview).mp writes, set, hs', (same hhead).trans hview, hcs, hcs'⟩
      · refine ⟨(rewrites_of_view hview).mp writes, fun heq => hne ?_, hs', ?_⟩
        · rw [set] at heq
          exact Except.ok.inj heq
        · rw [rows]
          refine astray_set found (fun heq => hne ?_) hc
          rw [hhead] at heq
          exact (Option.some.inj heq).symm
    | @moved s' old row id writes set changed found rows =>
      refine .inr (.inr ⟨(rewrites_of_view hview).mp writes, fun heq => changed ?_, hs', ?_⟩)
      · rw [set] at heq
        exact Except.ok.inj heq
      · rw [rows, hrowsOf]
        rw [hrowsOf, hhead] at found
        cases found
        refine astray_move hhead changed hc fun x hx => ?_
        obtain ⟨c', hc', rfl⟩ := List.mem_map.mp hx
        exact ⟨c'.2, hcs' c' hc'⟩
    | @lost s' old row err writes set changed found rows =>
      refine .inr (.inr ⟨(rewrites_of_view hview).mp writes, fun heq => changed ?_,
        hne [] (.inl ?_)⟩)
      · rw [set] at heq
        exact Except.ok.inj heq
      · rw [rows, hrowsOf]
        rw [hrowsOf] at found
        have := GoMap.size_delete_of_mem found
        omega

/-! ## INSERT -/

/-- **One turn of an INSERT**: refused, or a row stored under a free id or the
one that is drawn. -/
inductive InsertTurn (env : Env) (td : TableDef) (table : String) (idx : List Nat)
    (p : List Expr × Nat) (e : Engine) : Engine × Except Failure Unit → Prop where
  | refused {e' : Engine} {err : Failure} (view : e'.view = e.view)
      (not : ∀ id row, ¬ Stores env e td table idx 0 p id row) :
      InsertTurn env td table idx p e (e', .error err)
  | stored {e' : Engine} {t t' : Table} {id : Int64} {row : Row}
      (stores : Stores env e td table idx 0 p id row) (old : e.tables.get? table = some t)
      (new : e'.tables.get? table = some t') (rows : t'.rows = t.rows.set id row)
      (free : t.rows.get? id = none ∨ id = t.nextID ∧ t'.nextID = t.nextID + 1)
      (same : t.rows.get? id = some row → e'.view = e.view) :
      InsertTurn env td table idx p e (e', .ok ())

section

variable {idx : List Nat} {p : List Expr × Nat}

/-- What a tuple is stored as is determined. -/
theorem Stores.unique {id id' : Int64} {row row' : Row} {n : Nat}
    (h : Stores env e td table idx n p id row) (h' : Stores env e td table idx n p id' row') :
    id' = id ∧ row' = row := by
  obtain ⟨r, key, t, hprep, -, ht, -, hacc⟩ := h
  obtain ⟨r', key', t', hprep', -, ht', -, hacc'⟩ := h'
  rw [hprep] at hprep'
  cases hprep'
  rw [ht] at ht'
  cases ht'
  have hid := hacc'.id_eq.trans hacc.id_eq.symm
  refine ⟨hid, ?_⟩
  rw [hacc'.row_eq, hacc.row_eq, hid]

/-- The same tables, with the counter `n` further. -/
theorem Stores.of_view {id : Int64} {row : Row} {n m : Nat} (h : e'.view = e.view)
    (hnext : ∀ t t', e.tables.get? table = some t → e'.tables.get? table = some t' →
      t'.nextID + Int64.ofNat m = t.nextID + Int64.ofNat n)
    (hs : Stores env e td table idx n p id row) : Stores env e' td table idx m p id row := by
  obtain ⟨r, key, t, hprep, hpar, ht, hpos, hacc⟩ := hs
  obtain ⟨t', ht', hcols, hrows⟩ := table_of_view h.symm ht
  refine ⟨r, key, t', hprep, (hasParents_of_view h).mpr hpar, ht', hpos, ?_⟩
  obtain ⟨hfound, hid, hrow, hadm⟩ := hacc
  refine ⟨?_, ?_, hrow, ?_⟩
  · rwa [show _ = t'.rows from rfl, hrows]
  · rw [hid, hnext t t' ht ht']
  · rwa [show (⟨t'.cols, t'.rows⟩ : View) = ⟨t.cols, t.rows⟩ by rw [hcols, hrows]]

theorem accepts_add_zero {t : Table} {pkIdx : Int} {rowID id : Int64} {row' : Row} :
    { t with nextID := t.nextID + Int64.ofNat 0 }.Accepts pkIdx rowID row false id row' ↔
      t.Accepts pkIdx rowID row false id row' := by
  rw [show Int64.ofNat 0 = 0 from rfl, Int64.add_zero]

/-- A put of the loop, by its answer. -/
theorem insertTurn_put (hi : e.Indexed) {key : Option Int64} {q : Exec Unit}
    (hprep : prepareRow env td table idx p.2 p.1 = .ok (row, key)) (hpar : HasParents e td row)
    (hfail : ∀ e' err, e.putRow table (key.elim ((pkIndex td).getD 0 : Int) fun _ => -1)
        (key.getD 0) row false = (e', .error err) →
      ∃ err', q.run Engine.handler e = (e', .error err'))
    (hok : ∀ e' id, e.putRow table (key.elim ((pkIndex td).getD 0 : Int) fun _ => -1)
        (key.getD 0) row false = (e', .ok id) → q.run Engine.handler e = (e', .ok ())) :
    InsertTurn env td table idx p e (q.run Engine.handler e) := by
  have hpos : Engine.checkRowID (key.getD 0) false = .ok () ↔ 0 ≤ key.getD 0 := by
    simp [Engine.checkRowID]
  rcases put_turn hi table (key.elim ((pkIndex td).getD 0 : Int) fun _ => -1)
    (key.getD 0) row false with ⟨e', err, hput, hview, hno⟩ |
      ⟨e', id, t, t', row', hput, hid, ht, ht', hacc, hrows, hnext, hsame⟩
  · obtain ⟨err', hrun⟩ := hfail e' err hput
    rw [hrun]
    refine .refused hview ?_
    rintro id row' ⟨r, key', t, hprep', -, ht, hle, hacc⟩
    rw [hprep] at hprep'
    cases hprep'
    exact hno t id row' (hpos.mpr hle) ht (accepts_add_zero.mp hacc)
  · rw [hok e' id hput]
    refine .stored ⟨row, key, t, hprep, hpar, ht, hpos.mp hid, accepts_add_zero.mpr hacc⟩ ht ht'
      hrows ?_ hsame
    by_cases hzero : key.getD 0 = 0
    · rw [hzero] at hacc hnext
      exact .inr ⟨hacc.id_eq, hnext.trans t.counterAfter_zero⟩
    · left
      have hid' := hacc.id_eq
      rw [if_neg hzero] at hid'
      have := hacc.found hzero
      rw [hid']
      simpa using this

theorem insertTurn_insertRow (hi : e.Indexed) (idx : List Nat) (p : List Expr × Nat) :
    InsertTurn env td table idx p e
      ((insertRow env td table idx p.2 p.1).run Engine.handler e) := by
  unfold insertRow
  rcases read_cases (Reads.lift (prepareRow env td table idx p.2 p.1)) _ e with
    ⟨err, hev, hrun⟩ | ⟨⟨row, key⟩, hev, hrun⟩ <;> rw [hrun] <;> rw [eval_ofExcept] at hev
  · refine .refused rfl ?_
    rintro id row' ⟨r, key, t, hprep, -⟩
    rw [hev] at hprep
    cases hprep
  rcases read_cases (scans_checkFK td row).reads _ e with
    ⟨err, hpar, hrun⟩ | ⟨u, hpar, hrun⟩ <;> rw [hrun]
  · refine .refused rfl ?_
    rintro id row' ⟨r, key', t, hprep, hpar', -⟩
    rw [hev] at hprep
    cases hprep
    rw [HasParents, hpar] at hpar'
    cases hpar'
  cases key with
  | none =>
    refine insertTurn_put hi hev hpar (fun e' err hput => ⟨_, putAuto_bind hput⟩)
      fun e' id hput => putAuto_bind hput
  | some rowID =>
    refine insertTurn_put hi hev hpar (fun e' err hput => ⟨_, put_bind hput⟩)
      fun e' id hput => put_bind hput

end

/-- The table is not, and by `left` more inserts will not again be, what it was:
it has gained a row, or has another row under an id that the counter does not
come to in as many steps. -/
def Replaced (before : GoMap Int64 Row) (left : Nat) (t : Table) : Prop :=
  before.size < t.rows.size ∨
    before.size ≤ t.rows.size ∧
      ∃ id row, t.rows.get? id = some row ∧ before.get? id ≠ some row ∧
        ∀ j < left, t.nextID + Int64.ofNat j ≠ id

section Replaced

variable {before : GoMap Int64 Row} {t t' : Table} {id : Int64} {row : Row} {left : Nat}

theorem Replaced.ne (h : Replaced before left t) : t.rows ≠ before := by
  rintro rfl
  rcases h with h | ⟨-, id, row, hrow, hne, -⟩
  · omega
  · exact hne hrow

/-- The counter does not come back in fewer steps than there are ids. -/
theorem add_ofNat_ne_self (n : Int64) {j : Nat} (hpos : 0 < j) (hlt : j < 2 ^ 64) :
    n + Int64.ofNat j ≠ n := by
  intro heq
  have hzero : Int64.ofNat j = 0 := by simpa using heq
  have hbits := congrArg BitVec.toNat (congrArg Int64.toBitVec hzero)
  simp only [Int64.toBitVec_ofNat', BitVec.toNat_ofNat, Int64.toBitVec_zero] at hbits
  omega

theorem Replaced.stored (h : Replaced before (left + 1) t) (hrows : t'.rows = t.rows.set id row)
    (hfree : t.rows.get? id = none ∨ id = t.nextID ∧ t'.nextID = t.nextID + 1) :
    Replaced before left t' := by
  have hle : before.size ≤ t.rows.size := by
    rcases h with h | ⟨h, -⟩ <;> omega
  cases hat : t.rows.get? id with
  | none =>
    left
    rw [hrows, GoMap.size_set_of_not_mem hat]
    omega
  | some old =>
    rw [hat] at hfree
    rcases hfree with hfree | ⟨rfl, hnext⟩
    · cases hfree
    have hsize := GoMap.size_set_of_mem hat row
    rw [← hrows] at hsize
    rcases h with h | ⟨-, x, r, hr, hne, haway⟩
    · exact .inl (by omega)
    · refine .inr ⟨by omega, x, r, ?_, hne, ?_⟩
      · have hx : x ≠ t.nextID := by
          intro heq
          exact haway 0 (by omega) (by rw [heq]; simp)
        rw [hrows, GoMap.get?_set_ne _ _ hx, hr]
      · intro j hj
        have := haway (1 + j) (by omega)
        rw [Int64.ofNat_add, ← Int64.add_assoc] at this
        rw [hnext]
        exact this

/-- The first row really stored. -/
theorem replaced_stored (hrows : t'.rows = t.rows.set id row)
    (hfree : t.rows.get? id = none ∨ id = t.nextID ∧ t'.nextID = t.nextID + 1)
    (hne : t.rows.get? id ≠ some row) (hleft : left < 2 ^ 64) : Replaced t.rows left t' := by
  cases hat : t.rows.get? id with
  | none =>
    left
    rw [hrows, GoMap.size_set_of_not_mem hat]
    omega
  | some old =>
    rw [hat] at hfree
    rcases hfree with hfree | ⟨rfl, hnext⟩
    · cases hfree
    refine .inr ⟨?_, t.nextID, row, ?_, hne, ?_⟩
    · rw [hrows, GoMap.size_set_of_mem hat]
    · rw [hrows, GoMap.get?_set_self]
    · intro j hj
      rw [hnext, Int64.add_assoc]
      have := add_ofNat_ne_self t.nextID (j := 1 + j) (by omega) (by omega)
      rwa [Int64.ofNat_add] at this

end Replaced

/-- An INSERT that has stored a row does not put back what was there. -/
theorem insertRows_iff (hi : e.Indexed) (idx : List Nat) {rows : List (List Expr)}
    (hlen : rows.length ≤ 2 ^ 64) {err : Failure}
    (hfail : ((insertRows env td table idx 1 rows).run Engine.handler e).2 = .error err) :
    ((insertRows env td table idx 1 rows).run Engine.handler e).1.view = e.view ↔
      StopsFirst
        (fun p => ∃ id row, Stores env e td table idx (p.2 - 1) p id row ∧
          e.get table id = some row)
        (fun p => ∃ id row, Stores env e td table idx (p.2 - 1) p id row) (rows.zipIdx 1) := by
  rw [insertRows_eq_each] at hfail ⊢
  have hne : ∀ {s : Engine} {left t}, s.tables.get? table = some t →
      Replaced (e.rowsOf table) left t → s.view ≠ e.view := by
    intro s left t ht hbad heq
    refine hbad.ne ?_
    rw [← Engine.rowsOf_eq ht, Engine.rowsOf_congr heq]
  -- as long as nothing has changed, every tuple has drawn one id
  refine each_fails_iff (F := fun s => s.view = e.view)
    (G := fun cs s => s.Indexed ∧ s.view = e.view ∧ ∃ n rows, cs = rows.zipIdx (n + 1) ∧
      rows.length ≤ 2 ^ 64 ∧ ∀ t t', e.tables.get? table = some t →
        s.tables.get? table = some t' → t'.nextID = t.nextID + Int64.ofNat n)
    (B := fun cs s => s.Indexed ∧
      ∃ t, s.tables.get? table = some t ∧ Replaced (e.rowsOf table) cs.length t)
    (fun cs s hbad => ?_) ?_ ?_ ⟨hi, rfl, 0, rows, rfl, hlen, ?_⟩ hfail
  · obtain ⟨-, t, ht, hbad⟩ := hbad
    exact hne ht hbad
  · rintro c cs s ⟨hs, t, ht, hbad⟩
    have hs' := Engine.indexed_run hs (insertRow env td table idx c.2 c.1)
    have hturn : InsertTurn env td table idx c s _ := insertTurn_insertRow hs idx c
    generalize (insertRow env td table idx c.2 c.1).run Engine.handler s = x at hs' hturn
    cases hturn with
    | refused view not => exact fun heq => hne ht hbad (view.symm.trans heq)
    | stored stores old new rows free same =>
      rw [ht] at old
      cases old
      exact ⟨hs', _, new, hbad.stored rows free⟩
  · rintro c cs s ⟨hs, hview, n, rows, hcs, hlen, hcount⟩
    obtain ⟨exprs, rows, rfl⟩ : ∃ x xs, rows = x :: xs := by
      cases rows with
      | nil => cases hcs
      | cons x xs => exact ⟨x, xs, rfl⟩
    obtain ⟨rfl, rfl⟩ := List.cons.inj hcs
    rw [List.length_cons] at hlen
    have hback : ∀ {id row}, Stores env s td table idx 0 (exprs, n + 1) id row ↔
        Stores env e td table idx (n + 1 - 1) (exprs, n + 1) id row := by
      intro id row
      refine ⟨.of_view hview.symm fun t t' ht ht' => ?_, .of_view hview fun t t' ht ht' => ?_⟩
      · rw [hcount t' t ht' ht]
        simp
      · rw [hcount t t' ht ht']
        simp
    have hs' := Engine.indexed_run hs (insertRow env td table idx (n + 1) exprs)
    have hturn : InsertTurn env td table idx (exprs, n + 1) s _ := insertTurn_insertRow hs idx _
    dsimp only at hturn ⊢
    generalize (insertRow env td table idx (n + 1) exprs).run Engine.handler s = x at hs' hturn
    cases hturn with
    | refused view not =>
      refine .inl ⟨?_, view.trans hview⟩
      rintro ⟨id, row, hstores⟩
      exact not id row (hback.mpr hstores)
    | @stored s' t t' id row stores old new rows' free same =>
      have hstores := hback.mp stores
      refine .inr ?_
      obtain ⟨t0, ht0, -, hrows0⟩ := table_of_view hview old
      have hheld : e.get table id = t.rows.get? id := by
        rw [e.get_eq_rowsOf, Engine.rowsOf_eq ht0, hrows0]
      refine (em (t.rows.get? id = some row)).imp (fun hin => ?_) fun hout => ?_
      · refine ⟨⟨id, row, hstores⟩, ⟨id, row, hstores, hheld.trans hin⟩, hs',
          (same hin).trans hview, n + 1, rows, rfl, by omega, fun t1 t2 ht1 ht2 => ?_⟩
        rcases free with hfree | ⟨-, hnext⟩
        · rw [hfree] at hin
          cases hin
        · rw [show s'.tables.get? table = some t2 from ht2] at new
          cases new
          rw [hnext, hcount t1 t ht1 old, Int64.ofNat_add, Int64.add_assoc]
          rfl
      · refine ⟨⟨id, row, hstores⟩, ?_, hs', t', new, ?_⟩
        · rintro ⟨id', row1, hstores', hat⟩
          obtain ⟨rfl, rfl⟩ := hstores.unique hstores'
          exact hout (hheld.symm.trans hat)
        · rw [Engine.rowsOf_eq ht0, hrows0, List.length_zipIdx]
          exact replaced_stored rows' free hout (by omega)
  · intro t t' ht ht'
    rw [ht] at ht'
    cases ht'
    simp

/-! ## The statements -/

/-- An INSERT, UPDATE or DELETE. An INSERT has no more rows than there are ids:
the source counts them with an `int`. -/
def IsDml : Statement → Prop
  | .insert s => s.rows.length ≤ 2 ^ 64
  | .update _ | .delete _ => True
  | _ => False

/-- A statement reads, and goes on to its loop. -/
theorem dml_cases {α : Type} {p : Exec α} (hp : Reads p) {f : α → Exec Unit} {g : α → Result}
    {err : Failure}
    (hfail : ((p >>= fun a => f a >>= fun _ => pure (g a)).run Engine.handler e).2 = .error err) :
    (p.eval (Session.reply (e, none)) = .error err ∧
        ((p >>= fun a => f a >>= fun _ => pure (g a)).run Engine.handler e).1 = e) ∨
      ∃ a, p.eval (Session.reply (e, none)) = .ok a ∧
        ((f a).run Engine.handler e).2 = .error err ∧
        ((p >>= fun a => f a >>= fun _ => pure (g a)).run Engine.handler e).1
          = ((f a).run Engine.handler e).1 := by
  have hrun := hp.run_engine e
  cases hev : p.eval (Session.reply (e, none)) with
  | error err' =>
    rw [hev] at hrun
    rw [Prog.run_bind_error hrun] at hfail ⊢
    exact .inl ⟨by cases hfail; rfl, rfl⟩
  | ok a =>
    rw [hev] at hrun
    rw [Prog.run_bind_ok hrun] at hfail ⊢
    refine .inr ⟨a, rfl, ?_⟩
    rcases hloop : (f a).run Engine.handler e with ⟨e', err' | u⟩
    · rw [Prog.run_bind_error hloop] at hfail ⊢
      exact ⟨by cases hfail; rfl, rfl⟩
    · rw [Prog.run_bind_ok hloop] at hfail
      cases hfail

/-- **A failed statement changes nothing exactly if no row before the one it
fails at is really written**, which the tables before the statement tell. -/
theorem failed_dml_unchanged_iff (env : Env) (e : Engine) (stmt : Statement) (err : Failure)
    (hi : e.Indexed) (hdml : IsDml stmt) (hfail : (exec env e stmt).2 = .error err) :
    (exec env e stmt).1.view = e.view ↔ Untouched env e stmt := by
  cases stmt with
  | insert i =>
    rcases dml_cases (reads_selectInsert i) hfail with ⟨hev, hrun⟩ | ⟨⟨td, idx⟩, hev, hloop, hrun⟩
    · simp only [Untouched, hev, iff_true]
      exact congrArg Engine.view hrun
    · simp only [Untouched, hev]
      rw [← insertRows_iff hi idx hdml hloop]
      exact Iff.of_eq (congrArg (fun s : Engine => s.view = e.view) hrun)
  | update u =>
    rcases dml_cases (reads_selectUpdate env u) hfail with
      ⟨hev, hrun⟩ | ⟨⟨td, sets, cands⟩, hev, hloop, hrun⟩
    · simp only [Untouched, hev, iff_true]
      exact congrArg Engine.view hrun
    · simp only [Untouched, hev]
      obtain ⟨-, -, where_, -, hcands⟩ := selectUpdate_ok hev
      obtain ⟨hnodup, hrows⟩ := collectCandidates_sound hcands
      rw [← updateRows_iff hi sets hnodup (fun c hc => ?_) hloop]
      · exact Iff.of_eq (congrArg (fun s : Engine => s.view = e.view) hrun)
      · exact (e.get_eq_rowsOf u.table c.1).symm.trans (hrows c hc)
  | delete d =>
    rcases dml_cases (reads_selectDelete env d) hfail with ⟨hev, hrun⟩ | ⟨cands, hev, hloop, hrun⟩
    · simp only [Untouched, hev, iff_true]
      exact congrArg Engine.view hrun
    · simp only [Untouched, hev]
      obtain ⟨td, where_, -, hcands⟩ := selectDelete_ok hev
      obtain ⟨-, hrows⟩ := collectCandidates_sound hcands
      rw [← deleteRows_iff (fun c hc => ?_) hloop]
      · exact Iff.of_eq (congrArg (fun s : Engine => s.view = e.view) hrun)
      · exact (e.get_eq_rowsOf d.table c.1).symm.trans (hrows c hc)
  | createTable _ _ | dropTable _ _ | select _ | begin | commit | rollback => exact hdml.elim

/-- A table with an integer primary key and rows with these keys. -/
def keyedRows (keys : List Int64) : Engine :=
  (Run.run Sys.exec {} (.createTable "t" [{ name := "id", type := .int, primary := true }] ::
    keys.map fun k => .put "t" k [.int k])).eng

/-- `INSERT INTO t VALUES (k), ...`. -/
def insertKeys (keys : List Int64) : Statement :=
  .insert { table := "t", cols := [], rows := keys.map fun k => [.lit (.int k)] }

/-- `UPDATE t SET id = new WHERE id = old`. -/
def changeKey (old new : Int64) : Statement :=
  .update { table := "t", sets := [⟨"id", .lit (.int new)⟩],
            where_ := some (.cmp .eq (.colRef "" "id") (.lit (.int old))) }

/-- Two rows, and a child of the second. -/
def secondReferred : Engine :=
  (Run.run Sys.exec {}
    [.createTable "p" [{ name := "id", type := .int, primary := true }],
     .createTable "c" [{ name := "id", type := .int, primary := true },
       { name := "p", type := .int, fkTable := "p", fkCol := "id" }],
     .put "p" 1 [.int 1], .put "p" 2 [.int 2], .put "c" 1 [.int 1, .int 2]]).eng

/-- `UPDATE p SET id = 1`. -/
def allToOne : Update := { table := "p", sets := [⟨"id", .lit (.int 1)⟩], where_ := none }

/-- An UPDATE that writes its first row back as it is, and may not move the
second. -/
theorem failed_dml_unchanged_second_row :
    (exec epochEnv secondReferred (.update allToOne)).2 =
        .error (.sql (.fkReferenced "p" "c")) ∧
      (exec epochEnv secondReferred (.update allToOne)).1.view = secondReferred.view := by
  have hfail : (exec epochEnv secondReferred (.update allToOne)).2 =
      .error (.sql (.fkReferenced "p" "c")) := by decide +kernel
  refine ⟨hfail, (failed_dml_unchanged_iff epochEnv secondReferred (.update allToOne) _
    (Sys.indexed_run _) trivial hfail).mpr ?_⟩
  have hsel : (selectUpdate epochEnv allToOne).eval (Session.reply (secondReferred, none)) =
      .ok (⟨"p", [{ name := "id", type := .int, primary := true }]⟩, [(0, .lit (.int 1))],
        [(1, [.int 1]), (2, [.int 2])]) := by rfl
  simp only [Untouched, hsel]
  refine ⟨[(1, [.int 1])], (2, [.int 2]), [], rfl, by decide +kernel, ?_⟩
  rintro ⟨new, hset, -, hkey⟩
  cases hset
  rcases hkey with ⟨hkey, -⟩ | ⟨key, -, hfree⟩
  · exact absurd hkey (by decide +kernel)
  · exact absurd hfree (by unfold Unreferred; decide +kernel)

/-- **Rows stay, and a row is lost.** The INSERT is refused at its second row
and keeps the first; the UPDATE has deleted its row when it finds the new key
taken. -/
theorem failed_dml_changes_rows :
    ((exec epochEnv (keyedRows []) (insertKeys [1, 1])).2 =
        .error (.sql (.duplicateID "t" 1)) ∧
      ((exec epochEnv (keyedRows []) (insertKeys [1, 1])).1.rowsOf "t").ascending =
        [(1, [.int 1])]) ∧
    (exec epochEnv (keyedRows [1, 2]) (changeKey 1 2)).2 = .error (.sql (.duplicateID "t" 2)) ∧
      ((exec epochEnv (keyedRows [1, 2]) (changeKey 1 2)).1.rowsOf "t").ascending =
        [(2, [.int 2])] := by
  decide +kernel

end Tsql.Executor
