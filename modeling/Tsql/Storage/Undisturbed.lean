import Tsql.Storage.System

/-!
# A transaction nobody disturbs

A transaction checks every write when it buffers it, against the committed
rows overlaid with the buffer so far. `Commit` checks the buffer once more,
and by another standard: every buffered put, also one that the transaction
itself has overwritten or deleted since, against the rows as they will be at
the END; and every id it ever inserted against the COMMITTED rows, also one it
had deleted before. So a buffer whose every write was accepted can be refused
although nobody else has written anything. `commit_ok_iff` says which.
-/

namespace Tsql.Storage

open Engine (Quiet)

/-! ## Calls on an open transaction -/

/-- A writing call. -/
inductive TxnCall where
  | put (name : String) (rowID : Int64) (row : Row)
  | putAuto (name : String) (pkIdx : Int) (row : Row)
  | update (name : String) (rowID : Int64) (row : Row)
  | delete (name : String) (rowID : Int64)

/-- The call, with its error if there is one. -/
def TxnCall.exec (e : Engine) (t : Txn) : TxnCall → Engine × Txn × Except Err Unit
  | .put name rowID row =>
    let (e, t, r) := t.put e name rowID row
    (e, t, r.map fun _ => ())
  | .putAuto name pkIdx row =>
    let (e, t, r) := t.putAuto e name pkIdx row
    (e, t, r.map fun _ => ())
  | .update name rowID row => (e, t.update e name rowID row)
  | .delete name rowID => (e, t.delete e name rowID)

/-- **A transaction nobody disturbs**, from its `Begin` on: its own calls
return no error, and whatever else happens leaves the committed state as it
is (it may reserve row ids and open transactions). -/
inductive Undisturbed (e₀ : Engine) : Engine → Txn → Prop where
  | begin : Undisturbed e₀ e₀.begin.1 e₀.begin.2
  | call {e e' : Engine} {t t' : Txn} (c : TxnCall) (h : Undisturbed e₀ e t)
      (hok : c.exec e t = (e', t', .ok ())) : Undisturbed e₀ e' t'
  | drift {e e' : Engine} {t : Txn} (h : Undisturbed e₀ e t) (hq : Quiet e e') :
      Undisturbed e₀ e' t

/-! ## What a call that returns no error has done -/

/-- The rows of a table after the first writes of a buffer. -/
def Engine.rowsAfter (e : Engine) (name : String) (ops : List Op) (id : Int64) : Option Row :=
  (e.view name).bind fun tb => (tb.applyOps (opsOn name ops)).rows.get? id

/-- A buffered write passed its check, made when the buffer was `ops`. -/
def CheckedAt (e : Engine) (ops : List Op) (o : Op) : Prop :=
  ∃ tb, e.view o.name = some tb ∧
    ∀ id row, o.write = .put id row →
      checkUnique tb.cols id row (tb.applyOps (opsOn o.name ops)).rows = .ok ()

/-- A call that was accepted: one more write, and its id is noted as inserted
exactly if the row was not there. -/
structure Took (e : Engine) (t t' : Txn) (o : Op) : Prop where
  active : t.done = false
  done : t'.done = false
  ops : t'.ops = t.ops ++ [o]
  checked : CheckedAt e t.ops o
  inserts : ∀ p, p ∈ t'.inserts ↔ p ∈ t.inserts ∨
    ∃ row, o = ⟨p.1, .put p.2 row⟩ ∧ e.rowsAfter p.1 t.ops p.2 = none

section

variable {e e' e₀ : Engine} {t t' : Txn} {name : String} {tb : Table}

theorem rowsAfter_eq (h : e.tables.get? name = some tb) (ops : List Op) (id : Int64) :
    e.rowsAfter name ops id = (tb.applyOps (opsOn name ops)).rows.get? id := by
  rw [Engine.rowsAfter, Engine.view_eq_some h]
  show (tb.data.applyOps (opsOn name ops)).rows.get? id = _
  rw [← Table.data_applyOps]
  rfl

theorem checkedAt_put (h : e.tables.get? name = some tb) {ops : List Op} {id : Int64} {row : Row}
    (hc : checkUnique tb.cols id row (tb.applyOps (opsOn name ops)).rows = .ok ()) :
    CheckedAt e ops ⟨name, .put id row⟩ := by
  refine ⟨tb.data, Engine.view_eq_some h, ?_⟩
  intro id' row' hput
  cases hput
  show checkUnique tb.cols id row (tb.data.applyOps (opsOn name ops)).rows = .ok ()
  rw [← Table.data_applyOps]
  exact hc

/-- What `Put` and `PutAuto` share, where it succeeds. -/
theorem insertRow_ok {rowID id : Int64} {row : Row} {stamp : Int64 → Row → Except Err Row}
    (h : t.insertRow e name rowID row stamp = (e', t', .ok id)) :
    ∃ row', Took e t t' ⟨name, .put id row'⟩ := by
  unfold Txn.insertRow at h
  split at h
  · cases h
  · next hdone =>
    cases htb : e.tables.get? name with
    | none => simp [htb] at h
    | some tb =>
      rw [htb, t.effMapLocked_eq htb] at h
      dsimp only at h
      split at h
      · cases h
      · generalize (if rowID = 0 then ((e.reserveID name).1, tb.nextID) else (e, rowID)) = p at h
        obtain ⟨e1, id1⟩ := p
        dsimp only at h
        split at h
        · cases h
        · next hfree =>
          cases hs : stamp id1 row with
          | error err => simp [hs] at h
          | ok row' =>
            cases hc : checkUnique tb.cols id1 row' (tb.applyOps (opsOn name t.ops)).rows with
            | error err => simp [hs, hc] at h
            | ok u =>
              simp only [hs, hc, Prod.mk.injEq, Except.ok.injEq] at h
              obtain ⟨rfl, rfl, rfl⟩ := h
              have hnone : e.rowsAfter name t.ops id1 = none := by
                rw [rowsAfter_eq htb]
                simpa using hfree
              refine ⟨row', by simpa using hdone, by simpa using hdone, rfl,
                checkedAt_put htb hc, ?_⟩
              intro p
              simp only [List.mem_append, List.mem_singleton, Op.mk.injEq, RowOp.put.injEq]
              constructor
              · rintro (hp | rfl)
                · exact .inl hp
                · exact .inr ⟨row', ⟨rfl, rfl, rfl⟩, hnone⟩
              · rintro (hp | ⟨_, ⟨rfl, rfl, -⟩, -⟩)
                · exact .inl hp
                · exact .inr rfl

theorem update_ok {rowID : Int64} {row : Row}
    (h : t.update e name rowID row = (t', .ok ())) : Took e t t' ⟨name, .put rowID row⟩ := by
  unfold Txn.update at h
  split at h
  · cases h
  · next hdone =>
    cases htb : e.tables.get? name with
    | none => simp [htb] at h
    | some tb =>
      rw [htb, t.effMapLocked_eq htb] at h
      dsimp only at h
      split at h
      · cases h
      · split at h
        · cases h
        · next hthere =>
          cases hc : checkUnique tb.cols rowID row (tb.applyOps (opsOn name t.ops)).rows with
          | error err => simp [hc] at h
          | ok u =>
            simp only [hc, Prod.mk.injEq, and_true] at h
            subst h
            refine ⟨by simpa using hdone, by simpa using hdone, rfl, checkedAt_put htb hc, ?_⟩
            intro p
            refine ⟨.inl, ?_⟩
            -- an update is never noted: its row was there
            rintro (hp | ⟨row', heq, hnone⟩)
            · exact hp
            · simp only [Op.mk.injEq, RowOp.put.injEq] at heq
              obtain ⟨rfl, rfl, -⟩ := heq
              rw [rowsAfter_eq htb] at hnone
              simp [hnone] at hthere

theorem delete_ok {rowID : Int64} (h : t.delete e name rowID = (t', .ok ())) :
    Took e t t' ⟨name, .delete rowID⟩ := by
  unfold Txn.delete at h
  split at h
  · cases h
  · next hdone =>
    cases htb : e.tables.get? name with
    | none => simp [Txn.effMapLocked, htb] at h
    | some tb =>
      rw [t.effMapLocked_eq htb] at h
      dsimp only at h
      split at h
      · cases h
      · simp only [Prod.mk.injEq, and_true] at h
        subst h
        refine ⟨by simpa using hdone, by simpa using hdone, rfl,
          ⟨tb.data, Engine.view_eq_some htb, ?_⟩, ?_⟩
        · intro id row hput
          cases hput
        · intro p
          refine ⟨.inl, ?_⟩
          rintro (hp | ⟨row, heq, -⟩)
          · exact hp
          · simp at heq

/-- A call of `Put` or `PutAuto`, with its error only. -/
theorem insertCall_ok (name : String) (rowID : Int64) (row : Row)
    (stamp : Int64 → Row → Except Err Row) (h : ((t.insertRow e name rowID row stamp).1,
      (t.insertRow e name rowID row stamp).2.1,
      (t.insertRow e name rowID row stamp).2.2.map fun _ => ()) = (e', t', .ok ())) :
    Quiet e e' ∧ ∃ o, Took e t t' o := by
  have hq := Engine.quiet_insertRow e t name rowID row stamp
  generalize hi : t.insertRow e name rowID row stamp = res at h hq
  obtain ⟨e1, t1, r⟩ := res
  cases r with
  | error err => cases h
  | ok id =>
    cases h
    obtain ⟨row', htook⟩ := insertRow_ok hi
    exact ⟨hq, _, htook⟩

/-- **One accepted call** buffers one write that passed its check, and leaves
the committed state alone. -/
theorem TxnCall.exec_ok {c : TxnCall} (h : c.exec e t = (e', t', .ok ())) :
    Quiet e e' ∧ ∃ o, Took e t t' o := by
  cases c with
  | put name rowID row => exact insertCall_ok name rowID row (fun _ row => .ok row) h
  | putAuto name pkIdx row =>
    exact insertCall_ok name 0 row (fun id row => if 0 ≤ pkIdx ∧ pkIdx < row.length then
      .ok (Table.stampPK pkIdx id row) else .error .panic) h
  | update name rowID row =>
    cases h' : t.update e name rowID row with
    | mk t1 r =>
      rw [exec, h'] at h
      cases h
      exact ⟨.refl e, _, update_ok h'⟩
  | delete name rowID =>
    cases h' : t.delete e name rowID with
    | mk t1 r =>
      rw [exec, h'] at h
      cases h
      exact ⟨.refl e, _, delete_ok h'⟩

/-! ## The invariant -/

/-- What is known of an undisturbed transaction: every write of its buffer
passed its check against the writes before it, and the ids noted as inserted
are those of the puts that found no row. -/
structure InOrder (e₀ e : Engine) (t : Txn) : Prop where
  quiet : Quiet e₀ e
  active : t.done = false
  checked : ∀ ops o, ops ++ [o] <+: t.ops → CheckedAt e₀ ops o
  inserts : ∀ p, p ∈ t.inserts ↔
    ∃ ops row, ops ++ [⟨p.1, .put p.2 row⟩] <+: t.ops ∧ e₀.rowsAfter p.1 ops p.2 = none

theorem Engine.Quiet.checkedAt (hq : Quiet e e') (ops : List Op) (o : Op) :
    CheckedAt e' ops o ↔ CheckedAt e ops o := by
  rw [CheckedAt, CheckedAt, hq.view]

theorem Engine.Quiet.rowsAfter (hq : Quiet e e') : e'.rowsAfter = e.rowsAfter := by
  funext name ops id
  rw [Engine.rowsAfter, Engine.rowsAfter, hq.view]

/-- **An accepted call keeps the buffer in order.** -/
theorem InOrder.took (h : InOrder e₀ e t) (hq : Quiet e e') {o : Op} (ht : Took e t t' o) :
    InOrder e₀ e' t' where
  quiet := h.quiet.trans hq
  active := ht.done
  checked := by
    intro ops o' hp
    rw [ht.ops, List.prefix_concat_iff] at hp
    rcases hp with heq | hp
    · -- the new write, checked against the whole buffer
      obtain ⟨rfl, hlast⟩ := List.append_inj' heq rfl
      cases hlast
      exact (h.quiet.checkedAt _ _).mp ht.checked
    · exact h.checked ops o' hp
  inserts := by
    intro p
    rw [ht.inserts, h.inserts, ht.ops, h.quiet.rowsAfter]
    constructor
    · rintro (⟨ops, row, hp, hnone⟩ | ⟨row, rfl, hnone⟩)
      · exact ⟨ops, row, hp.trans (List.prefix_append _ _), hnone⟩
      · exact ⟨t.ops, row, List.prefix_refl _, hnone⟩
    · rintro ⟨ops, row, hp, hnone⟩
      rw [List.prefix_concat_iff] at hp
      rcases hp with heq | hp
      · obtain ⟨rfl, hlast⟩ := List.append_inj' heq rfl
        cases hlast
        exact .inr ⟨row, rfl, hnone⟩
      · exact .inl ⟨ops, row, hp, hnone⟩

/-- **Every undisturbed transaction is in order.** -/
theorem Undisturbed.inOrder (h : Undisturbed e₀ e t) : InOrder e₀ e t := by
  induction h with
  | begin =>
    refine ⟨⟨rfl, rfl, rfl, rfl⟩, rfl, ?_, ?_⟩
    · intro ops o hp
      simp [Engine.begin] at hp
    · intro p
      simp [Engine.begin]
  | call c _ hok ih =>
    obtain ⟨hq, o, htook⟩ := TxnCall.exec_ok hok
    exact ih.took hq htook
  | drift _ hq ih => exact ⟨ih.quiet.trans hq, ih.active, ih.checked, ih.inserts⟩

/-! ## What `Commit` asks for -/

/-- Once validation has passed, nothing else fails. -/
theorem Txn.commit_ok_iff_validate {ord : CommitOrder} (h : t.done = false) :
    (t.commit ord e).2.2 = .ok () ↔ t.validate ord e = .ok () := by
  rw [Txn.commit, h]
  simp only [Bool.false_eq_true, if_false]
  cases hv : t.validate ord e with
  | error err => simp
  | ok u =>
    simp only [iff_true]
    split
    · rfl
    · obtain ⟨e', hc, -⟩ := Engine.commitTxn_spec (Engine.live_of_validate hv)
        (Engine.fits_of_validate hv) t.id
      rw [hc]

/-! ## The writes of one table -/

/-- A table's writes before and after one of them are writes of the buffer
before and after it. -/
theorem exists_of_opsOn_eq {ops : List Op} {w : RowOp} {pre post : List RowOp}
    (h : opsOn name ops = pre ++ w :: post) :
    ∃ l l', ops = l ++ ⟨name, w⟩ :: l' ∧ opsOn name l = pre ∧ opsOn name l' = post := by
  obtain ⟨l, m, rfl, hl, hm⟩ := List.filterMap_eq_append_iff.mp h
  obtain ⟨l1, o, l2, rfl, hnone, ho, hl2⟩ := List.filterMap_eq_cons_iff.mp hm
  simp only [Option.ite_none_right_eq_some, Option.some.injEq] at ho
  obtain ⟨rfl, rfl⟩ := ho
  refine ⟨l ++ l1, l2, by simp, ?_, hl2⟩
  have : opsOn o.name l1 = [] := List.filterMap_eq_nil_iff.mpr hnone
  rw [opsOn_append, this, List.append_nil]
  exact hl

/-- What the last write of a row leaves. -/
theorem get?_applyOps_last (tb : Table) (pre : List RowOp) (op : RowOp) {post : List RowOp}
    (h : ∀ op' ∈ post, op'.rowID ≠ op.rowID) :
    (tb.applyOps (pre ++ op :: post)).rows.get? op.rowID = op.write.2 := by
  rw [Table.applyOps_append, Table.applyOps_cons, Table.applyOps_rows_of_untouched h,
    Table.applyOp_rows, WriteLog.apply, ← RowOp.write_fst, Function.update_self]

/-- A buffered put has handed one of its keys on: a later put of another row
has it in the same UNIQUE column, and is the last write of that row. -/
def HandsOn (cols : List Column) (ops : List RowOp) : Prop :=
  ∃ pre id row mid id' row' post, ops = pre ++ .put id row :: (mid ++ .put id' row' :: post) ∧
    id' ≠ id ∧ (∀ op ∈ post, op.rowID ≠ id') ∧
    ∃ ci ∈ uniqCols cols, ∃ k, keyAt row ci = some k ∧ keyAt row' ci = some k

/-- A row is deleted and put again. -/
def PutsBack (id : Int64) (ops : List RowOp) : Prop :=
  ∃ row, [.delete id, .put id row].Sublist ops

/-- **A put that passed its check passes it again at the end**, unless it has
handed a key on: a row it did not meet then was put after it. -/
theorem InOrder.putOk_iff (h : InOrder e₀ e t) {tb : Table} (htb : e₀.view name = some tb) :
    (∀ id row, RowOp.put id row ∈ opsOn name t.ops →
        checkUnique tb.cols id row (tb.applyOps (opsOn name t.ops)).rows = .ok ()) ↔
      ¬ HandsOn tb.cols (opsOn name t.ops) := by
  constructor
  · rintro hall ⟨pre, id, row, mid, id', row', post, heq, hne, hlast, ci, hci, k, hk, hk'⟩
    have hpass := checkUnique_ok.mp (hall id row (by rw [heq]; simp)) ci hci
    have hend : (tb.applyOps (opsOn name t.ops)).rows.get? id' = some row' := by
      have hput := get?_applyOps_last tb (pre ++ .put id row :: mid) (.put id' row') hlast
      rw [List.append_assoc, List.cons_append] at hput
      rw [heq]
      exact hput
    exact hne (hpass.2 k hk id' row' hend hk')
  · intro hno id row hm
    obtain ⟨pre, post, heq⟩ := List.append_of_mem hm
    obtain ⟨l, l', hops, hl, -⟩ := exists_of_opsOn_eq heq
    obtain ⟨tb', htb', hc⟩ := h.checked l ⟨name, .put id row⟩ ⟨l', by rw [hops]; simp⟩
    rw [htb] at htb'
    cases htb'
    have hthen := checkUnique_ok.mp (hc id row rfl)
    rw [checkUnique_ok]
    intro ci hci
    refine ⟨(hthen ci hci).1, ?_⟩
    intro k hk id' r hr hrk
    by_contra hne
    by_cases htouch : ∃ op ∈ post, op.rowID = id'
    · -- the row is of a later put, which is where the key went
      obtain ⟨mid, op, post', rfl, rfl, hlast⟩ := Table.exists_last_touch htouch
      have hend := get?_applyOps_last tb (pre ++ .put id row :: mid) op hlast
      have hops' : pre ++ .put id row :: mid ++ op :: post' = opsOn name t.ops := by
        rw [heq]
        simp
      rw [hops', hr] at hend
      cases op with
      | delete id'' => cases hend
      | put id'' row' =>
        cases hend
        exact hno ⟨pre, id, row, mid, id'', r, post', heq, hne, hlast, ci, hci, k, hk, hrk⟩
    · -- the row was there at the time of the check
      have huntouched : ∀ op ∈ post, op.rowID ≠ id' := fun op hop e => htouch ⟨op, hop, e⟩
      have hwas : (tb.applyOps (opsOn name l)).rows.get? id' = some r := by
        rw [heq, Table.applyOps_append, Table.applyOps_cons,
          Table.applyOps_rows_of_untouched huntouched, Table.applyOp_rows] at hr
        rw [hl, ← hr]
        exact (Function.update_of_ne hne _ _).symm
      exact hne ((hthen ci hci).2 k hk id' r hwas hrk)

/-- The first put of a row in a list of writes. -/
theorem exists_first_put {ops : List RowOp} {id : Int64} {row : Row} (h : RowOp.put id row ∈ ops) :
    ∃ pre row' post, ops = pre ++ .put id row' :: post ∧ ∀ r, RowOp.put id r ∉ pre := by
  induction ops with
  | nil => simp at h
  | cons op ops ih =>
    by_cases hop : ∃ r, op = .put id r
    · obtain ⟨r, rfl⟩ := hop
      exact ⟨[], r, ops, rfl, by simp⟩
    · have hm : RowOp.put id row ∈ ops := by
        rcases List.mem_cons.mp h with heq | hm
        · exact absurd ⟨row, heq.symm⟩ hop
        · exact hm
      obtain ⟨pre, row', post, rfl, hpre⟩ := ih hm
      refine ⟨op :: pre, row', post, rfl, ?_⟩
      intro r hr
      rcases List.mem_cons.mp hr with heq | hr
      · exact hop ⟨r, heq.symm⟩
      · exact hpre r hr

/-- **An id is noted as inserted over a committed row** exactly if the row is
deleted and put again. -/
theorem InOrder.mem_inserts_iff (h : InOrder e₀ e t) {tb : Table} (htb : e₀.view name = some tb)
    {id : Int64} {old : Row} (hold : tb.rows.get? id = some old) :
    (name, id) ∈ t.inserts ↔ PutsBack id (opsOn name t.ops) := by
  have hafter : ∀ ops, e₀.rowsAfter name ops id = (tb.applyOps (opsOn name ops)).rows.get? id := by
    intro ops
    rw [Engine.rowsAfter, htb]
    rfl
  rw [h.inserts]
  constructor
  · rintro ⟨ops, row, ⟨rest, heq⟩, hnone⟩
    rw [hafter] at hnone
    -- the row is gone, so its last write is a delete
    have htouch : ∃ op ∈ opsOn name ops, op.rowID = id := by
      by_contra hun
      rw [Table.applyOps_rows_of_untouched fun op hop e => hun ⟨op, hop, e⟩, hold] at hnone
      cases hnone
    obtain ⟨pre, op, post, hops, rfl, hlast⟩ := Table.exists_last_touch htouch
    rw [hops, get?_applyOps_last tb pre op hlast] at hnone
    cases op with
    | put id' row' => cases hnone
    | delete id' =>
      refine ⟨row, ?_⟩
      have hdel : [RowOp.delete id'].Sublist (opsOn name ops) := by
        rw [List.singleton_sublist, hops]
        simp
      have hput : [RowOp.put id' row].Sublist
          (opsOn name ([⟨name, .put id' row⟩] ++ rest)) := by
        rw [List.singleton_sublist, mem_opsOn]
        simp
      rw [← heq, List.append_assoc, opsOn_append]
      exact hdel.append hput
  · rintro ⟨row, hsub⟩
    obtain ⟨front, back, heq, hdel, hput⟩ := List.cons_sublist_iff.mp hsub
    obtain ⟨a, b, rfl⟩ := List.append_of_mem hdel
    have hm : RowOp.put id row ∈ b ++ back := by
      simp [List.singleton_sublist.mp hput]
    obtain ⟨mid, row', post, hmid, hfirst⟩ := exists_first_put hm
    have hsplit : opsOn name t.ops = (a ++ .delete id :: mid) ++ .put id row' :: post := by
      rw [heq, List.append_assoc, List.cons_append, hmid]
      simp
    obtain ⟨l, l', hops, hl, -⟩ := exists_of_opsOn_eq hsplit
    refine ⟨l, row', ⟨l', by rw [hops]; simp⟩, ?_⟩
    rw [hafter, hl]
    -- between the delete and the first put after it the row can only be gone
    have htouch : ∃ op ∈ RowOp.delete id :: mid, op.rowID = id := ⟨.delete id, by simp, rfl⟩
    obtain ⟨pre, op, post', hlast, hid, hun⟩ := Table.exists_last_touch htouch
    have hend := get?_applyOps_last tb (a ++ pre) op (by rw [hid]; exact hun)
    rw [List.append_assoc, ← hlast, hid] at hend
    rw [hend]
    cases op with
    | delete id' => rfl
    | put id' r =>
      have hmem : RowOp.put id' r ∈ RowOp.delete id :: mid := by
        rw [hlast]
        simp
      rw [show id' = id from hid] at hmem
      exact absurd (by simpa using hmem) (hfirst r)

/-- **An undisturbed transaction commits exactly if** none of its puts hands a
UNIQUE value on to another row, and it puts back no committed row that it
deleted. -/
theorem undisturbed_commit_ok_iff (e₀ e : Engine) (t : Txn) (ord : CommitOrder)
    (h : Undisturbed e₀ e t) :
    (t.commit ord e).2.2 = .ok () ↔
      ∀ name tb, e₀.view name = some tb → ¬ HandsOn tb.cols (opsOn name t.ops) ∧
        ∀ id old, tb.rows.get? id = some old → ¬ PutsBack id (opsOn name t.ops) := by
  have hin := h.inOrder
  have hview := hin.quiet.view
  rw [Txn.commit_ok_iff_validate hin.active, Txn.validate_ok_iff]
  constructor
  · rintro ⟨-, hput, hins⟩ name tb htb
    refine ⟨(hin.putOk_iff htb).mp ?_, ?_⟩
    · intro id row hm
      obtain ⟨tb', htb', hc⟩ := hput name id row (mem_opsOn.mp hm)
      have hv := Engine.view_eq_some htb'
      rw [hview, htb, Option.some.injEq] at hv
      rw [hv, ← Table.data_applyOps]
      exact hc
    · intro id old hold hback
      have hnone := hins _ ((hin.mem_inserts_iff htb hold).mpr hback)
      rw [Engine.get_eq_view, hview, htb] at hnone
      exact absurd (hold.symm.trans hnone) (by simp)
  · intro hall
    refine ⟨?_, ?_, ?_⟩
    · intro o ho
      obtain ⟨l, l', hops⟩ := List.append_of_mem ho
      obtain ⟨tb, htb, -⟩ := hin.checked l o ⟨l', by rw [hops]; simp⟩
      rw [← hview] at htb
      obtain ⟨tb', htb', -⟩ := Engine.exists_of_view htb
      exact ⟨tb', htb'⟩
    · intro name id row hm
      obtain ⟨l, l', hops⟩ := List.append_of_mem hm
      obtain ⟨tb, htb, -⟩ := hin.checked l ⟨name, .put id row⟩ ⟨l', by rw [hops]; simp⟩
      have hc := (hin.putOk_iff htb).mpr (hall name tb htb).1 id row (mem_opsOn.mpr hm)
      have hv : e.view name = some tb := by rw [hview]; exact htb
      obtain ⟨tb', htb', rfl⟩ := Engine.exists_of_view hv
      rw [← Table.data_applyOps] at hc
      exact ⟨tb', htb', hc⟩
    · rintro ⟨name, id⟩ hp
      rw [Engine.get_eq_view, hview]
      cases htb : e₀.view name with
      | none => rfl
      | some tb =>
        cases hold : tb.rows.get? id with
        | none => exact hold
        | some old =>
          exact absurd ((hin.mem_inserts_iff htb hold).mp hp) ((hall name tb htb).2 id old hold)

end

/-! ## Two buffers that are refused, and one that is not -/

/-- A committed state: one table with a UNIQUE column, and row 7 in it. -/
def oneRow : Engine :=
  ((({} : Engine).createTable "a" uniqueCol).1.put "a" 7 [.int 5]).1

/-- The transaction opened on `oneRow`, with these writes and inserted ids. -/
def onOneRow (ops : List RowOp) (inserts : List Int64) : Txn where
  id := 3
  ops := ops.map (Op.mk "a")
  inserts := inserts.map ("a", ·)

/-- Row 1 takes the value 1 and changes it, then row 2 takes the value 1. -/
theorem handsOn_undisturbed :
    Undisturbed oneRow oneRow.begin.1
      (onOneRow [.put 1 [.int 1], .put 1 [.int 2], .put 2 [.int 1]] [1, 2]) := by
  refine .call (e := oneRow.begin.1) (t := onOneRow [.put 1 [.int 1], .put 1 [.int 2]] [1])
    (.put "a" 2 [.int 1]) ?_ (by decide)
  refine .call (e := oneRow.begin.1) (t := onOneRow [.put 1 [.int 1]] [1])
    (.update "a" 1 [.int 2]) ?_ (by decide)
  exact .call (.put "a" 1 [.int 1]) .begin (by decide)

/-- Row 7 is deleted and inserted again. -/
theorem putsBack_undisturbed :
    Undisturbed oneRow oneRow.begin.1 (onOneRow [.delete 7, .put 7 [.int 6]] [7]) := by
  refine .call (e := oneRow.begin.1) (t := onOneRow [.delete 7] [])
    (.put "a" 7 [.int 6]) ?_ (by decide)
  exact .call (.delete "a" 7) .begin (by decide)

/-- **Two undisturbed transactions that do not commit.** -/
theorem undisturbed_commits_refused :
    (Undisturbed oneRow oneRow.begin.1
        (onOneRow [.put 1 [.int 1], .put 1 [.int 2], .put 2 [.int 1]] [1, 2]) ∧
      ((onOneRow [.put 1 [.int 1], .put 1 [.int 2], .put 2 [.int 1]] [1, 2]).commit .ascending
        oneRow.begin.1).2.2 = .error .unique) ∧
    Undisturbed oneRow oneRow.begin.1 (onOneRow [.delete 7, .put 7 [.int 6]] [7]) ∧
      ((onOneRow [.delete 7, .put 7 [.int 6]] [7]).commit .ascending oneRow.begin.1).2.2 =
        .error .unique :=
  ⟨⟨handsOn_undisturbed, by decide +kernel⟩, putsBack_undisturbed, by decide +kernel⟩

/-- Row 1 is inserted and changed, row 7 deleted, row 2 inserted and deleted. -/
def busy : Txn :=
  onOneRow [.put 1 [.int 1], .put 1 [.int 2], .delete 7, .put 2 [.int 5], .delete 2] [1, 2]

/-- The value of a row that has gone may be taken, and nothing is handed on. -/
theorem undisturbed_commit_ok_busy :
    Undisturbed oneRow oneRow.begin.1 busy ∧
      (busy.commit .ascending oneRow.begin.1).2.2 = .ok () ∧
      ∀ name tb, oneRow.view name = some tb → ¬ HandsOn tb.cols (opsOn name busy.ops) := by
  have hun : Undisturbed oneRow oneRow.begin.1 busy := by
    refine .call (e := oneRow.begin.1)
      (t := onOneRow [.put 1 [.int 1], .put 1 [.int 2], .delete 7, .put 2 [.int 5]] [1, 2])
      (.delete "a" 2) ?_ (by decide)
    refine .call (e := oneRow.begin.1)
      (t := onOneRow [.put 1 [.int 1], .put 1 [.int 2], .delete 7] [1])
      (.put "a" 2 [.int 5]) ?_ (by decide)
    refine .call (e := oneRow.begin.1) (t := onOneRow [.put 1 [.int 1], .put 1 [.int 2]] [1])
      (.delete "a" 7) ?_ (by decide)
    refine .call (e := oneRow.begin.1) (t := onOneRow [.put 1 [.int 1]] [1])
      (.update "a" 1 [.int 2]) ?_ (by decide)
    exact .call (.put "a" 1 [.int 1]) .begin (by decide)
  have hok : (busy.commit .ascending oneRow.begin.1).2.2 = .ok () := by decide +kernel
  exact ⟨hun, hok, fun name tb htb =>
    ((undisturbed_commit_ok_iff oneRow _ busy .ascending hun).mp hok name tb htb).1⟩

end Tsql.Storage
