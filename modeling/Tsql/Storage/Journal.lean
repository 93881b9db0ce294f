import Tsql.Storage.Catalog
import Tsql.Storage.Unique

/-!
# What the log says about the tables in memory

A crash inside a checkpoint can leave the new snapshot AND the log that led
to it, and `Open` then replays the log over tables that already contain its
effects. Whether that changes anything depends on what the records say about
the state they end in. `Journal` is that relation, kept by every call:

* the last `create` or `drop` of a name decides whether it is in the catalog,
  and two creates of a name have a drop between them;
* the last write to a row of a live table is what the row holds, and a table
  created in the log has no other rows;
* a row that holds a key some logged put took was written after that put.
-/

namespace Tsql.Storage

variable {n : String} {ops : List RowOp}

/-- The write a record makes to the rows of table id `tid`. -/
def RecBody.rowOp (tid : UInt32) : RecBody → Option RowOp
  | .put i id row => if i = tid then some (.put id row) else none
  | .delete i id => if i = tid then some (.delete id) else none
  | _ => none

/-- The table id a row record names. -/
def RecBody.tableID : RecBody → Option UInt32
  | .put i _ _ => some i
  | .delete i _ => some i
  | _ => none

/-- What a record does to the name `n`: create it with columns, or drop it. -/
def RecBody.ddlOn (n : String) : RecBody → Option (Option (List Column))
  | .create d => if d.name = n then some (some d.cols) else none
  | .drop d => if d.name = n then some none else none
  | _ => none

/-- Does the record create a table? -/
def RecBody.isCreate : RecBody → Bool
  | .create _ => true
  | _ => false

/-- The writes of a log to the rows of table id `tid`, in order. -/
def rowOps (tid : UInt32) (log : List RecBody) : List RowOp := log.filterMap (RecBody.rowOp tid)

/-- The creates and drops of the name `n`, in order. -/
def ddlOn (n : String) (log : List RecBody) : List (Option (List Column)) :=
  log.filterMap (RecBody.ddlOn n)

theorem rowOps_append (tid : UInt32) (l l' : List RecBody) :
    rowOps tid (l ++ l') = rowOps tid l ++ rowOps tid l' :=
  List.filterMap_append

theorem ddlOn_append (n : String) (l l' : List RecBody) :
    ddlOn n (l ++ l') = ddlOn n l ++ ddlOn n l' :=
  List.filterMap_append

/-- A record that is not about rows. -/
theorem rowOps_concat {b : RecBody} (h : b.tableID = none) (tid : UInt32) (l : List RecBody) :
    rowOps tid (l ++ [b]) = rowOps tid l := by
  have hb : b.rowOp tid = none := by
    cases b <;> first | rfl | cases h
  rw [rowOps_append]
  simp [rowOps, hb]

/-- A record that is not about the name `n`. -/
theorem ddlOn_concat {b : RecBody} (h : b.ddlOn n = none) (l : List RecBody) :
    ddlOn n (l ++ [b]) = ddlOn n l := by
  rw [ddlOn_append]
  simp [ddlOn, h]

theorem ddlOn_create_self (d : SchemaChange) (l : List RecBody) :
    ddlOn d.name (l ++ [.create d]) = ddlOn d.name l ++ [some d.cols] := by
  rw [ddlOn_append]
  simp [ddlOn, RecBody.ddlOn]

theorem ddlOn_drop_self (d : SchemaChange) (l : List RecBody) :
    ddlOn d.name (l ++ [.drop d]) = ddlOn d.name l ++ [none] := by
  rw [ddlOn_append]
  simp [ddlOn, RecBody.ddlOn]

theorem RecBody.ddlOn_create_ne {d : SchemaChange} (h : n ≠ d.name) :
    (RecBody.create d).ddlOn n = none :=
  if_neg (Ne.symm h)

theorem RecBody.ddlOn_drop_ne {d : SchemaChange} (h : n ≠ d.name) :
    (RecBody.drop d).ddlOn n = none :=
  if_neg (Ne.symm h)

/-- A log that never names `tid` writes none of its rows. -/
theorem rowOps_eq_nil {tid : UInt32} {log : List RecBody}
    (h : ∀ b ∈ log, b.tableID ≠ some tid) : rowOps tid log = [] := by
  rw [rowOps, List.filterMap_eq_nil_iff]
  intro b hb
  have := h b hb
  cases b <;> simp_all [RecBody.tableID, RecBody.rowOp]

theorem ddlOn_opRecords (n : String) (f : String → UInt32) (ops : List Op) :
    ddlOn n (Engine.opRecords f ops) = [] := by
  rw [ddlOn, List.filterMap_eq_nil_iff]
  intro b hb
  obtain ⟨o, -, rfl⟩ := List.mem_map.mp hb
  unfold Op.body
  cases o.write <;> rfl

theorem countP_opRecords (f : String → UInt32) (ops : List Op) :
    (Engine.opRecords f ops).countP RecBody.isCreate = 0 := by
  rw [List.countP_eq_zero]
  intro b hb
  obtain ⟨o, -, rfl⟩ := List.mem_map.mp hb
  unfold Op.body
  cases o.write <;> simp [RecBody.isCreate]

namespace Table

variable {t : Table}

/-- Whoever holds a key that a put of the batch took wrote after that put. -/
def RightIn (t : Table) (ops : List RowOp) : Prop :=
  ∀ pre id row post, ops = pre ++ RowOp.put id row :: post →
    ∀ ci ∈ uniqCols t.cols, ∀ k, keyAt row ci = some k →
      ∀ id', t.Holds id' ci k → id' = id ∨ ∃ op ∈ post, op.rowID = id'

/-- The batch has been applied: each row it writes holds its last write. -/
def Settled (t : Table) (ops : List RowOp) : Prop :=
  ∀ id v, WriteLog.last id (ops.map RowOp.write) = some v → t.rows.get? id = v

theorem KeysRight.rightIn (h : t.KeysRight ops) :
    (t.applyOps ops).RightIn ops := by
  intro pre id row post heq ci hci
  rw [applyOps_cols] at hci
  exact h pre id row post heq ci hci

theorem RightIn.nil (t : Table) : t.RightIn [] := by
  intro pre id row post heq
  simp at heq

/-- One more batch after those that are in. -/
theorem RightIn.append {old new : List RowOp} (hold : t.RightIn old) (hnew : t.KeysRight new) :
    (t.applyOps new).RightIn (old ++ new) := by
  intro pre id row post heq ci hci k hk id' hid'
  rcases List.append_eq_append_iff.mp heq with ⟨mid, rfl, hmid⟩ | ⟨mid, hmid, hpost⟩
  · -- the put is in the new batch
    exact hnew.rightIn mid id row post hmid ci hci k hk id' hid'
  · cases mid with
    | nil => exact hnew.rightIn [] id row post hpost.symm ci hci k hk id' hid'
    | cons op mid =>
      -- the put is an old one: either the new batch wrote `id'`, or it was there before
      rw [List.cons_append, List.cons.injEq] at hpost
      obtain ⟨rfl, rfl⟩ := hpost
      by_cases htouch : ∃ op ∈ new, op.rowID = id'
      · obtain ⟨op, hop, he⟩ := htouch
        exact .inr ⟨op, List.mem_append_right mid hop, he⟩
      · have hun : ∀ op ∈ new, op.rowID ≠ id' := fun op hm he => htouch ⟨op, hm, he⟩
        obtain ⟨r, hr, hrk⟩ := hid'
        rw [applyOps_rows_of_untouched hun] at hr
        rw [applyOps_cols] at hci
        rcases hold pre id row mid hmid ci hci k hk id' ⟨r, hr, hrk⟩ with he | ⟨op, hop, he⟩
        · exact .inl he
        · exact .inr ⟨op, List.mem_append_left new hop, he⟩

theorem Settled.append {old new : List RowOp} (hold : t.Settled old) :
    (t.applyOps new).Settled (old ++ new) := by
  intro id v hv
  rw [List.map_append, WriteLog.last_append] at hv
  rw [applyOps_rows, WriteLog.replay_apply]
  cases hl : WriteLog.last id (new.map RowOp.write) with
  | some w =>
    rw [hl] at hv
    cases hv
    rfl
  | none =>
    rw [hl] at hv
    exact hold id v hv

theorem Settled.rows_eq (h : t.Settled ops) :
    (t.applyOps ops).rows = t.rows := by
  ext1 id
  rw [applyOps_rows, WriteLog.replay_apply]
  cases hl : WriteLog.last id (ops.map RowOp.write) with
  | none => rfl
  | some v => exact (h id v hl).symm

theorem applyOps_nextID (t : Table) (ops : List RowOp) : (t.applyOps ops).nextID = t.nextID := by
  have hdrop : ∀ (t : Table) (id : Int64), (t.dropKeys id).nextID = t.nextID := by
    intro t id
    unfold dropKeys
    split <;> rfl
  induction ops generalizing t with
  | nil => rfl
  | cons op ops ih =>
    rw [applyOps_cons, ih]
    cases op with
    | put id row => exact hdrop t id
    | delete id => exact hdrop t id

/-- **Applying a batch again changes nothing**: neither the rows, which hold
its last writes, nor the index, which is determined by the rows. -/
theorem Exact.applyOps_again (h : t.Exact) (hs : t.Settled ops)
    (hf : t.Fitting ops) (hr : t.RightIn ops) : t.applyOps ops = t := by
  have hkeys : t.KeysRight ops := by
    intro pre id row post heq ci hci k hk id' hid'
    obtain ⟨r, hrow, hrk⟩ := hid'
    rw [hs.rows_eq] at hrow
    exact hr pre id row post heq ci hci k hk id' ⟨r, hrow, hrk⟩
  have hexact := h.applyOps hf hkeys
  exact Table.ext (applyOps_id t ops) (applyOps_name t ops) (applyOps_cols t ops) hs.rows_eq
    (applyOps_nextID t ops) (hexact.uniq_eq h (applyOps_cols t ops) hs.rows_eq)

end Table

namespace Engine

variable {m m' : Engine} {log : List RecBody}

/-- What the log since the last checkpoint says about the live tables. -/
structure Journal (log : List RecBody) (m : Engine) : Prop where
  created : ∀ n cols, (ddlOn n log).getLast? = some (some cols) →
    ∃ t, m.view n = some t ∧ t.cols = cols
  dropped : ∀ n, (ddlOn n log).getLast? = some none → m.view n = none
  alternates : ∀ n, (ddlOn n log).IsChain fun a b => a = none ∨ b = none
  settled : ∀ n t, m.view n = some t → t.Settled (rowOps t.id log)
  fresh : ∀ n t, m.view n = some t → ddlOn n log ≠ [] →
    ∀ id, WriteLog.last id ((rowOps t.id log).map RowOp.write) = none → t.rows.get? id = none
  right : ∀ n t, m.view n = some t → t.RightIn (rowOps t.id log)
  fits : ∀ n t, m.view n = some t → t.Fitting (rowOps t.id log)
  below : ∀ b ∈ log, ∀ tid, b.tableID = some tid → tid.toNat < m.nextTableID.toNat
  creates : log.countP RecBody.isCreate ≤ m.nextTableID.toNat

/-- An empty log says nothing. -/
theorem Journal.nil (m : Engine) : Journal [] m where
  created := fun n cols h => by simp [ddlOn] at h
  dropped := fun n h => by simp [ddlOn] at h
  alternates := fun n => by simp [ddlOn]
  settled := fun n t _ id v h => by simp [rowOps] at h
  fresh := fun n t _ h => absurd rfl h
  right := fun n t _ => Table.RightIn.nil t
  fits := fun n t _ id row h => by simp [rowOps] at h
  below := fun b h => by simp at h
  creates := Nat.zero_le _

/-- The new table's id is past every id the log names. -/
theorem Journal.rowOps_next (h : Journal log m) : rowOps m.nextTableID log = [] := by
  refine rowOps_eq_nil fun b hb he => ?_
  have := h.below b hb _ he
  omega

theorem Journal.rowOps_newTable (h : Journal log m) (name : String) (cols : List Column) :
    rowOps (newTable m.nextTableID name cols).id log = [] :=
  h.rowOps_next

/-- **One more record of the catalog**: the table is made anew (`some`), or
dropped (`none`). -/
theorem Journal.ddl (h : Journal log m) {b : RecBody} {name : String} {x : Option (List Column)}
    (hrow : ∀ tid, rowOps tid (log ++ [b]) = rowOps tid log)
    (hself : ddlOn name (log ++ [b]) = ddlOn name log ++ [x])
    (hother : ∀ n, n ≠ name → ddlOn n (log ++ [b]) = ddlOn n log)
    (hfree : x ≠ none → m.view name = none)
    (view : m'.view = Function.update m.view name (x.map (newTable m.nextTableID name)))
    (hid : b.tableID = none) (hnext : m.nextTableID.toNat ≤ m'.nextTableID.toNat)
    (hcreates : (log ++ [b]).countP RecBody.isCreate ≤ m'.nextTableID.toNat) :
    Journal (log ++ [b]) m' := by
  have hview : ∀ n t, m'.view n = some t →
      (∃ cols, t = newTable m.nextTableID name cols) ∨ (n ≠ name ∧ m.view n = some t) := by
    intro n t ht
    rw [view, Function.update_apply] at ht
    split at ht
    · obtain ⟨cols, -, rfl⟩ := Option.map_eq_some_iff.mp ht
      exact .inl ⟨cols, rfl⟩
    · next hn => exact .inr ⟨hn, ht⟩
  constructor
  case created =>
    intro n cols hlast
    by_cases hn : n = name
    · subst hn
      rw [hself, List.getLast?_concat] at hlast
      cases hlast
      exact ⟨newTable m.nextTableID n cols, by rw [view, Function.update_self]; rfl, rfl⟩
    · rw [hother n hn] at hlast
      obtain ⟨t, ht, hc⟩ := h.created n cols hlast
      exact ⟨t, by rw [view, Function.update_of_ne hn, ht], hc⟩
  case dropped =>
    intro n hlast
    by_cases hn : n = name
    · subst hn
      rw [hself, List.getLast?_concat] at hlast
      cases hlast
      rw [view, Function.update_self, Option.map_none]
    · rw [hother n hn] at hlast
      rw [view, Function.update_of_ne hn, h.dropped n hlast]
  case alternates =>
    intro n
    by_cases hn : n = name
    · subst hn
      rw [hself, List.isChain_append]
      refine ⟨h.alternates n, by simp, ?_⟩
      intro y hy z hz
      cases z with
      | none => exact .inr rfl
      | some cols =>
        cases y with
        | none => exact .inl rfl
        | some cols' =>
          -- the name was in the catalog after a create, but it is not now
          cases hz
          obtain ⟨t, ht, -⟩ := h.created n cols' hy
          rw [hfree (by simp)] at ht
          cases ht
    · rw [hother n hn]
      exact h.alternates n
  case settled =>
    intro n t ht
    rw [hrow]
    rcases hview n t ht with ⟨cols, rfl⟩ | ⟨-, ht⟩
    · rw [h.rowOps_newTable]
      intro id v hv
      simp at hv
    · exact h.settled n t ht
  case fresh =>
    intro n t ht hne
    rw [hrow]
    rcases hview n t ht with ⟨cols, rfl⟩ | ⟨hn, ht⟩
    · intro id _
      exact GoMap.get?_empty id
    · rw [hother n hn] at hne
      exact h.fresh n t ht hne
  case right =>
    intro n t ht
    rw [hrow]
    rcases hview n t ht with ⟨cols, rfl⟩ | ⟨-, ht⟩
    · rw [h.rowOps_newTable]
      exact Table.RightIn.nil _
    · exact h.right n t ht
  case fits =>
    intro n t ht
    rw [hrow]
    rcases hview n t ht with ⟨cols, rfl⟩ | ⟨-, ht⟩
    · rw [h.rowOps_newTable]
      intro id row hm
      simp at hm
    · exact h.fits n t ht
  case below =>
    intro b' hb tid htid
    rcases List.mem_append.mp hb with hb | hb
    · exact Nat.lt_of_lt_of_le (h.below b' hb tid htid) hnext
    · rw [List.mem_singleton.mp hb, hid] at htid
      cases htid
  case creates => exact hcreates

theorem Journal.create (h : Journal log m) {name : String} {cols : List Column} {c : Bool}
    (hwrap : m.nextTableID.toNat + 1 < 2 ^ 32) (hnone : m.view name = none)
    (view : m'.view = Function.update m.view name (some (newTable m.nextTableID name cols)))
    (next : m'.nextTableID = m.nextTableID + 1) :
    Journal (log ++ [.create ⟨c, name, cols⟩]) m' := by
  refine h.ddl (fun tid => rowOps_concat rfl tid log) (ddlOn_create_self ⟨c, name, cols⟩ log)
    (fun n hn => ddlOn_concat (RecBody.ddlOn_create_ne hn) log) (fun _ => hnone) view rfl ?_ ?_ <;>
    rw [next, toNat_next hwrap]
  · omega
  · have := h.creates
    simp only [List.countP_append, List.countP_singleton, RecBody.isCreate, if_true]
    omega

theorem Journal.drop (h : Journal log m) {name : String} {c : Bool} {cols : List Column}
    (view : m'.view = Function.update m.view name none) (next : m'.nextTableID = m.nextTableID) :
    Journal (log ++ [.drop ⟨c, name, cols⟩]) m' := by
  refine h.ddl (fun tid => rowOps_concat rfl tid log) (ddlOn_drop_self ⟨c, name, cols⟩ log)
    (fun n hn => ddlOn_concat (RecBody.ddlOn_drop_ne hn) log) (absurd rfl) view rfl ?_ ?_ <;>
    rw [next]
  rw [List.countP_append]
  exact h.creates

/-- The records of a buffer, read by the id of one live table. -/
theorem rowOps_opRecords (hwf : m.WF) {ops : List Op} (hl : m.Live ops) {t : Table}
    (ht : m.view n = some t) : rowOps t.id (opRecords m.idOf ops) = opsOn n ops := by
  unfold rowOps opRecords opsOn
  rw [List.filterMap_map]
  refine List.filterMap_congr fun o ho => ?_
  obtain ⟨t', ht'⟩ := hl o ho
  have hiff : m.idOf o.name = t.id ↔ o.name = n := by
    rw [idOf_eq ht']
    constructor
    · exact fun hid => hwf.inj ht' ht hid
    · rintro rfl
      rw [ht] at ht'
      cases ht'
      rfl
  show RecBody.rowOp t.id (o.body (m.idOf o.name)) = _
  unfold Op.body
  cases ho : o.write with
  | put id row => simp only [RecBody.rowOp, hiff]
  | delete id => simp only [RecBody.rowOp, hiff]

theorem Journal.write (h : Journal log m) (hwf : m.WF) {ops : List Op} (hl : m.Live ops)
    (hf : m.Fits ops) (hw : Wrote ops m m')
    (hr : ∀ n t, m.view n = some t → t.KeysRight (opsOn n ops)) :
    Journal (log ++ opRecords m.idOf ops) m' := by
  have hddl : ∀ n, ddlOn n (log ++ opRecords m.idOf ops) = ddlOn n log := by
    intro n
    rw [ddlOn_append, ddlOn_opRecords, List.append_nil]
  -- a live table after the batch is one before it, with its part of the batch applied
  have hview : ∀ n t', m'.view n = some t' → ∃ t, m.view n = some t ∧
      t' = t.applyOps (opsOn n ops) ∧
      rowOps t'.id (log ++ opRecords m.idOf ops) = rowOps t.id log ++ opsOn n ops := by
    intro n t' ht'
    rw [hw.view, Option.map_eq_some_iff] at ht'
    obtain ⟨t, ht, rfl⟩ := ht'
    refine ⟨t, ht, rfl, ?_⟩
    rw [Table.applyOps_id, rowOps_append, rowOps_opRecords hwf hl ht]
  constructor
  case created =>
    intro n cols hlast
    rw [hddl] at hlast
    obtain ⟨t, ht, hc⟩ := h.created n cols hlast
    exact ⟨t.applyOps (opsOn n ops), by rw [hw.view, ht]; rfl, by rw [Table.applyOps_cols, hc]⟩
  case dropped =>
    intro n hlast
    rw [hddl] at hlast
    rw [hw.view, h.dropped n hlast]
    rfl
  case alternates =>
    intro n
    rw [hddl]
    exact h.alternates n
  case settled =>
    intro n t' ht'
    obtain ⟨t, ht, rfl, hops⟩ := hview n t' ht'
    rw [hops]
    exact (h.settled n t ht).append
  case fresh =>
    intro n t' ht' hne id hlast
    obtain ⟨t, ht, rfl, hops⟩ := hview n t' ht'
    rw [hops, List.map_append, WriteLog.last_append, Option.or_eq_none_iff] at hlast
    rw [hddl] at hne
    rw [Table.applyOps_rows, WriteLog.replay_apply, hlast.1]
    exact h.fresh n t ht hne id hlast.2
  case right =>
    intro n t' ht'
    obtain ⟨t, ht, rfl, hops⟩ := hview n t' ht'
    rw [hops]
    exact (h.right n t ht).append (hr n t ht)
  case fits =>
    intro n t' ht'
    obtain ⟨t, ht, rfl, hops⟩ := hview n t' ht'
    rw [hops]
    intro id row hm
    rw [Table.indexable_congr (Table.applyOps_cols t _)]
    rcases List.mem_append.mp hm with hm | hm
    · exact h.fits n t ht id row hm
    · exact hf n t ht id row hm
  case below =>
    intro b hb tid htid
    rw [hw.next]
    rcases List.mem_append.mp hb with hb | hb
    · exact h.below b hb tid htid
    · obtain ⟨o, ho, rfl⟩ := List.mem_map.mp hb
      obtain ⟨t, ht⟩ := hl o ho
      have htid' : tid = t.id := by
        rw [← idOf_eq ht]
        unfold Op.body at htid
        cases hw' : o.write <;> simp_all [RecBody.tableID]
      rw [htid']
      exact hwf.lt o.name t ht
  case creates =>
    rw [List.countP_append, countP_opRecords, hw.next]
    exact h.creates

/-- **Every call keeps the journal true.** -/
theorem Journal.step (h : Journal (logged m.wal) m) (hwf : m.WF) (hidx : m.Indexed)
    {names : List String} (hd : Did names m m') (hwrap : m.nextTableID.toNat + 1 < 2 ^ 32) :
    Journal (logged m'.wal) m' := by
  cases hd with
  | quiet q =>
    obtain ⟨wal, -, next, view⟩ := q
    rw [wal]
    exact ⟨by rw [view]; exact h.created, by rw [view]; exact h.dropped, h.alternates,
      by rw [view]; exact h.settled, by rw [view]; exact h.fresh, by rw [view]; exact h.right,
      by rw [view]; exact h.fits, by rw [next]; exact h.below, by rw [next]; exact h.creates⟩
  | create tx name cols fresh wal byID next view =>
    rw [wal, logged_append, logged_block]
    exact h.create hwrap fresh view next
  | drop tx name t live wal byID next view =>
    rw [wal, logged_append, logged_block]
    rw [hwf.named name t live] at view
    exact h.drop view next
  | write begins tx ops within w =>
    rw [w.wal, logged_append, logged_block]
    exact h.write hwf w.live w.fits w.wrote (w.right hidx)

end Engine

end Tsql.Storage
