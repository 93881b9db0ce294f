import Tsql.Executor.InRange
import Tsql.Executor.Turns
import Tsql.Storage.Steps

/-!
# Statements that do not panic

A SELECT reads past a row only through a derived table without rows
(`select_in_range_iff`). So do the subqueries in the WHERE of an UPDATE or
DELETE. Everything else these statements and INSERT do is in range: positions
come from the definition of the table, rows are as wide as it. What they read
before their first write is answered by the state they find; from there on,
in a transaction, any answers will do.

A COMMIT panics only at a row too short for a UNIQUE column, where the table
has been created anew while the row was buffered.
-/

namespace Tsql.Storage

/-! ## The storage -/

theorem checkUniqueCols_ne_panic {selfID : Int64} {row : Row} {eff : GoMap Int64 Row}
    {cis : List Nat} (h : ∀ ci ∈ cis, ci < row.length) :
    checkUniqueCols selfID row eff cis ≠ .error .panic := by
  induction cis with
  | nil => simp [checkUniqueCols]
  | cons ci cis ih =>
    obtain ⟨hci, hcis⟩ := List.forall_mem_cons.mp h
    rw [checkUniqueCols, if_neg (by omega)]
    split
    · exact ih hcis
    · split
      · simp
      · exact ih hcis

/-- A row as wide as its table. -/
theorem checkUnique_ne_panic {cols : List Column} {row : Row} (h : row.length = cols.length)
    (selfID : Int64) (eff : GoMap Int64 Row) : checkUnique cols selfID row eff ≠ .error .panic := by
  refine checkUniqueCols_ne_panic fun ci hci => ?_
  obtain ⟨c, hc, -⟩ := mem_uniqCols.mp hci
  exact h ▸ (List.getElem?_eq_some_iff.mp hc).1

namespace Txn

variable {e : Engine} {t : Txn} {name : String} {rowID : Int64} {row : Row}

theorem effMapLocked_error {err : Err} (h : t.effMapLocked e name = .error err) :
    err = .noTable := by
  unfold effMapLocked at h
  split at h <;> cases h
  rfl

/-- A row of the width of its table does not panic: it is checked first. -/
theorem insertRow_ne_panic {stamp : Int64 → Row → Except Err Row}
    (h : ∀ id, ∃ row', stamp id row = .ok row' ∧ row'.length = row.length) :
    (t.insertRow e name rowID row stamp).2.2 ≠ .error .panic := by
  unfold insertRow
  split
  · simp
  split
  · simp
  · next herr _ => simp [effMapLocked_error herr]
  · next tb eff htb heff =>
    split
    · simp
    next hlen =>
    dsimp only
    generalize (if rowID = 0 then ((e.reserveID name).1, tb.nextID) else (e, rowID)) = p
    split
    · simp
    · obtain ⟨row', hstamp, hlen'⟩ := h p.2
      rw [hstamp]
      dsimp only
      split
      · next err herr =>
        rintro ⟨⟩
        exact checkUnique_ne_panic (hlen'.trans (not_not.mp hlen)) _ _ herr
      · simp

theorem update_ne_panic : (t.update e name rowID row).2 ≠ .error .panic := by
  unfold update
  split
  · simp
  split
  · simp
  · next herr _ => simp [effMapLocked_error herr]
  · next tb eff htb heff =>
    split
    · simp
    next hlen =>
    split
    · simp
    · split
      · next err herr =>
        rintro ⟨⟩
        exact checkUnique_ne_panic (not_not.mp hlen) _ _ herr
      · simp

theorem delete_ne_panic : (t.delete e name rowID).2 ≠ .error .panic := by
  unfold delete
  split
  · simp
  split
  · next herr => simp [effMapLocked_error herr]
  · split <;> simp

/-- **A `Commit` whose rows can be indexed does not panic**, in any order. -/
theorem validate_ne_panic {ord : CommitOrder} (h : e.Fits t.ops) :
    t.validate ord e ≠ .error .panic := by
  have hputs : ∀ {tb : Table} {eff ps}, (∀ p ∈ ps, tb.indexable p.2 = true) →
      checkPuts tb.cols eff ps ≠ .error .panic := by
    intro tb eff ps hps
    induction ps with
    | nil => simp [checkPuts]
    | cons p ps ih =>
      obtain ⟨hp, hps⟩ := List.forall_mem_cons.mp hps
      rw [checkPuts]
      split
      · next err herr =>
        rintro ⟨⟩
        exact checkUniqueCols_ne_panic (Table.indexable_iff.mp hp) herr
      · exact ih hps
  have htables : ∀ tables : List (String × List (Int64 × Row)),
      (∀ q ∈ tables, q.2 = puts q.1 t.ops) → t.checkTables e tables ≠ .error .panic := by
    intro tables htables
    induction tables with
    | nil => simp [checkTables]
    | cons q tables ih =>
      obtain ⟨hq, hrest⟩ := List.forall_mem_cons.mp htables
      rw [checkTables]
      split
      · next tb eff htb heff =>
        split
        · next err herr =>
          rintro ⟨⟩
          refine hputs (fun p hp => ?_) herr
          rw [hq] at hp
          exact h q.1 tb.data (Engine.view_eq_some htb) p.1 p.2 (mem_opsOn.mpr (mem_puts.mp hp))
        · exact ih hrest
      · simp
  unfold validate
  split
  · simp
  · have := htables (ord.list (byTable t.ops)) fun q hq => by
      have hget := ((ord.enumerates _).mem_iff q.1 q.2).mp hq
      rw [get?_byTable] at hget
      split at hget
      · exact (Option.some.inj hget).symm
      · cases hget
    split
    · next err herr =>
      rintro ⟨⟩
      exact this herr
    · split <;> simp

end Txn

end Tsql.Storage

namespace Tsql.Executor

open Storage

section

variable {env : Env} {td : TableDef} {table : String} {row : Row} {S : Set Session}

/-! ## Rows -/

theorem calm_coerceAt {i : Nat} (h : i < td.cols.length) (v : Value) :
    Calm (fun _ => True) (coerceAt env td i v) := by
  unfold coerceAt
  rw [List.getElem?_eq_getElem h]
  dsimp only
  split
  · trivial
  · exact calm_sqlErr _

theorem calm_evalInsertValue (e : Expr) : Calm (fun _ => True) (evalInsertValue env e) := by
  unfold evalInsertValue
  split
  · trivial
  · split
    · trivial
    · exact calm_sqlErr _
  · exact calm_sqlErr _

theorem calm_fillRow {idx : List Nat} (h : ∀ i ∈ idx, i < td.cols.length) (exprs : List Expr) :
    Calm (fun r => r.length = row.length) (fillRow env td idx exprs row) := by
  induction idx generalizing exprs row with
  | nil => exact rfl
  | cons i idx ih =>
    obtain ⟨hi, hidx⟩ := List.forall_mem_cons.mp h
    cases exprs with
    | nil => exact rfl
    | cons e exprs =>
      rw [fillRow]
      refine (calm_evalInsertValue e).bind fun v _ => (calm_coerceAt hi v).bind fun v _ => ?_
      exact (ih hidx exprs).mono fun r hr => hr.trans (List.length_set ..)

theorem pkIndex_lt {i : Nat} (h : pkIndex td = some i) : i < td.cols.length :=
  (List.findIdx?_eq_some_iff_getElem.mp h).1

/-- A key that is left to the storage has a cell. -/
theorem calm_insertKey (h : row.length = td.cols.length) :
    Calm (fun key => key = none → (pkIndex td).getD 0 < row.length) (insertKey td table row) := by
  unfold insertKey
  cases hpk : pkIndex td with
  | none => exact fun hkey => nomatch hkey
  | some i =>
    have hi := pkIndex_lt hpk
    dsimp only
    rw [List.getElem?_eq_getElem hi, List.getElem?_eq_getElem (h ▸ hi)]
    cases row[i] with
    | null =>
      dsimp only
      split
      · exact fun _ => h ▸ hi
      · exact calm_sqlErr _
    | int n => exact fun hkey => nomatch hkey
    | _ => exact calm_sqlErr _

theorem calm_checkNotNull {cols : List (Column × Nat)} (h : ∀ p ∈ cols, p.2 < row.length) :
    Calm (fun _ => True) (checkNotNull table row cols) := by
  induction cols with
  | nil => trivial
  | cons p cols ih =>
    obtain ⟨hp, hcols⟩ := List.forall_mem_cons.mp h
    rw [checkNotNull]
    split
    · exact ih hcols
    · refine (calm_cell hp).bind fun v _ => ?_
      split
      · exact calm_sqlErr _
      · exact ih hcols

theorem zipIdx_lt {cols : List Column} {n : Nat} (h : cols.length ≤ n) :
    ∀ p ∈ cols.zipIdx, p.2 < n := by
  intro p hp
  have := List.snd_lt_of_mem_zipIdx hp
  omega

theorem calm_prepareRow {idx : List Nat} (h : ∀ i ∈ idx, i < td.cols.length) (n : Nat)
    (exprs : List Expr) :
    Calm (fun x => x.1.length = td.cols.length ∧ (x.2 = none → (pkIndex td).getD 0 < x.1.length))
      (prepareRow env td table idx n exprs) := by
  unfold prepareRow
  split
  · exact calm_sqlErr _
  · refine (calm_fillRow h exprs).bind fun row hrow => ?_
    rw [List.length_replicate] at hrow
    refine (calm_insertKey hrow).bind fun key hkey => ?_
    refine (calm_checkNotNull (zipIdx_lt hrow.ge)).bind fun _ _ => ?_
    exact ⟨hrow, hkey⟩

theorem calm_setRow {sc : JoinScope} (hsc : Laid 0 sc) {old : Row} (hold : sc.width ≤ old.length)
    {sets : List (Nat × Expr)} (h : ∀ p ∈ sets, p.1 < td.cols.length)
    (hrow : td.cols.length ≤ row.length) :
    Calm (fun r => r.length = row.length) (setRow env sc td old sets row) := by
  induction sets generalizing row with
  | nil => exact rfl
  | cons p sets ih =>
    obtain ⟨hp, hsets⟩ := List.forall_mem_cons.mp h
    rw [setRow]
    refine (calm_evalValue hsc hold p.2).bind fun v _ => (calm_coerceAt hp v).bind fun v _ => ?_
    rw [if_pos (by omega)]
    refine (ih hsets (by rwa [List.length_set])).mono fun r hr => ?_
    rw [hr, List.length_set]

theorem calm_keyChange {new old : Row} (hnew : td.cols.length ≤ new.length)
    (hold : td.cols.length ≤ old.length) : Calm (fun _ => True) (keyChange td new old) := by
  unfold keyChange
  split
  · trivial
  · next i hpk =>
    have hi := pkIndex_lt hpk
    refine (calm_cell (by omega)).bind fun x _ => ?_
    cases x with
    | int n =>
      refine (calm_cell (by omega)).bind fun y _ => ?_
      cases y <;> trivial
    | _ => trivial

theorem laid_single (td : TableDef) : Laid 0 (singleTableScope td) := ⟨rfl, rfl, trivial⟩

theorem width_single (td : TableDef) : (singleTableScope td).width = td.cols.length := by
  simp [singleTableScope, JoinScope.width]

/-! ## Turns -/

theorem stable_checkFK (h : td.cols.length ≤ row.length) :
    Stable S (fun _ => True) (checkFK td row) := by
  unfold checkFK
  have hcols := zipIdx_lt h
  generalize td.cols.zipIdx = cols at hcols
  induction cols with
  | nil => exact .ret trivial
  | cons p cols ih =>
    obtain ⟨c, ci⟩ := p
    obtain ⟨hp, hcols⟩ := List.forall_mem_cons.mp hcols
    rw [checkFKCols]
    split
    · exact ih hcols
    · refine (Prog.Always.ofExcept (calm_cell hp)).bind fun x _ => ?_
      split
      · exact ih hcols
      · refine (Prog.Always.ask (I := Accessor) (.get c.fkTable _)).bind fun found _ => ?_
        cases found with
        | some r => exact ih hcols
        | none => exact .ofExcept (calm_sqlErr _)
      · exact .ofExcept (calm_sqlErr _)

theorem stable_fkReferenced (parent : String) (k : Int64) (skip : String) (skipID : Int64) :
    Stable S (fun _ => True) (fkReferenced parent k skip skipID) := by
  have hcols : ∀ child cols,
      Stable S (fun _ => True) (fkReferencedCols parent k skip skipID child cols) := by
    intro child cols
    induction cols with
    | nil => exact .ret trivial
    | cons p cols ih =>
      rw [fkReferencedCols]
      split
      · exact ih
      · refine (Prog.Always.ask (I := Accessor) (.allRows child)).bind fun found _ => ?_
        cases found with
        | error err => exact ih
        | ok rows =>
          dsimp only
          split
          · exact .ofExcept (calm_sqlErr _)
          · exact ih
  have htables : ∀ defs,
      Stable S (fun _ => True) (fkReferencedTables parent k skip skipID defs) := by
    intro defs
    induction defs with
    | nil => exact .ret trivial
    | cons d defs ih =>
      rw [fkReferencedTables]
      exact (hcols d.name d.cols.zipIdx).bind fun _ _ => ih
  exact (Prog.Always.ask (I := Accessor) .catalog).bind fun defs _ => htables defs

/-- The sessions with a transaction. -/
def Busy : Set Session := { s | s.2.isSome = true }

/-- What a transaction answers. -/
theorem stable_write {c : AccessorCall} {P : c.Reply → Prop}
    (h : ∀ e t, P (Txn.handler c (e, t)).2) : Stable Busy P (.call c .ret : Exec c.Reply) := by
  refine (Prog.Always.ask (I := Accessor) c).mono ?_
  rintro r ⟨⟨e, t⟩, hs, rfl⟩
  cases t with
  | none => cases hs
  | some t => exact h e t

theorem stable_put (table : String) (id : Int64) (row : Row) :
    Stable Busy (· ≠ .error .panic) (put table id row) :=
  stable_write (c := .put table id row) fun _ _ =>
    Txn.insertRow_ne_panic fun _ => ⟨row, rfl, rfl⟩

theorem stable_putAuto (table : String) {pkIdx : Nat} (h : pkIdx < row.length) :
    Stable Busy (· ≠ .error .panic) (putAuto table pkIdx row) := by
  refine stable_write (c := .putAuto table pkIdx row) fun e t => ?_
  show (t.putAuto e table pkIdx row).2.2 ≠ _
  refine Txn.insertRow_ne_panic fun id => ⟨Table.stampPK pkIdx id row, ?_, ?_⟩
  · rw [if_pos ⟨by omega, by omega⟩]
  · rw [Table.stampPK_length]

theorem stable_update (table : String) (id : Int64) (row : Row) :
    Stable Busy (· ≠ .error .panic) (update table id row) :=
  stable_write (c := .update table id row) fun _ _ => Txn.update_ne_panic

theorem stable_delete (table : String) (id : Int64) :
    Stable Busy (· ≠ .error .panic) (delete table id) :=
  stable_write (c := .delete table id) fun _ _ => Txn.delete_ne_panic

/-- A write, and what a statement makes of the answer. -/
theorem stable_answered {α : Type} {p : Exec (Except Err α)}
    (hp : Stable Busy (· ≠ .error .panic) p) {f : Except Err α → Exec Unit}
    (hok : ∀ a, Stable Busy (fun _ => True) (f (.ok a)))
    (herr : ∀ err, err ≠ .panic → Stable Busy (fun _ => True) (f (.error err))) :
    Stable Busy (fun _ => True) (p >>= f) := by
  refine hp.bind fun r hr => ?_
  cases r with
  | ok a => exact hok a
  | error err => exact herr err fun heq => hr (heq ▸ rfl)

theorem putError_ne_panic {err : Err} (h : err ≠ .panic) (id : Int64) :
    putError table id err ≠ .panic := by
  cases err <;> first | exact absurd rfl h | exact nofun

theorem stable_insertRow {idx : List Nat} (h : ∀ i ∈ idx, i < td.cols.length) (n : Nat)
    (exprs : List Expr) : Stable Busy (fun _ => True) (insertRow env td table idx n exprs) := by
  unfold insertRow
  refine (Prog.Always.ofExcept (calm_prepareRow h n exprs)).bind ?_
  rintro ⟨row, key⟩ ⟨hrow, hkey⟩
  refine (stable_checkFK hrow.ge).bind fun _ _ => ?_
  cases key with
  | none =>
    exact stable_answered (stable_putAuto table (hkey rfl)) (fun _ => .ret trivial)
      fun err herr => .ofExcept (putError_ne_panic herr _)
  | some rowID =>
    exact stable_answered (stable_put table rowID row) (fun _ => .ret trivial)
      fun err herr => .ofExcept (putError_ne_panic herr _)

theorem stable_deleteRow (c : Int64 × Row) :
    Stable Busy (fun _ => True) (deleteRow table c) := by
  refine (stable_fkReferenced _ _ _ _).bind fun _ _ => ?_
  exact stable_answered (stable_delete table c.1) (fun _ => .ret trivial)
    fun err herr => .ofExcept fun heq => herr (by cases heq; rfl)

theorem stable_moveRow (id newID : Int64) (row : Row) :
    Stable Busy (fun _ => True) (moveRow table id newID row) := by
  refine (stable_fkReferenced _ _ _ _).bind fun _ _ => ?_
  refine stable_answered (stable_delete table id) (fun _ => ?_)
    fun err herr => .ofExcept fun heq => herr (by cases heq; rfl)
  exact stable_answered (stable_put table newID row) (fun _ => .ret trivial)
    fun err herr => .ofExcept (putError_ne_panic herr _)

theorem stable_writeBack (id : Int64) (row : Row) :
    Stable Busy (fun _ => True) (writeBack table id row) := by
  refine stable_answered (stable_update table id row) (fun _ => .ret trivial) fun err herr => ?_
  refine .ofExcept ?_
  cases err <;> first | exact absurd rfl herr | exact nofun

theorem stable_updateRow {sets : List (Nat × Expr)} (h : ∀ p ∈ sets, p.1 < td.cols.length)
    {c : Int64 × Row} (hc : td.cols.length ≤ c.2.length) :
    Stable Busy (fun _ => True) (updateRow env (singleTableScope td) td table sets c) := by
  unfold updateRow
  refine (Prog.Always.ofExcept (calm_setRow (laid_single td) ?_ h hc)).bind fun row hrow => ?_
  · rwa [width_single]
  refine (stable_checkFK (by omega)).bind fun _ _ => ?_
  refine (Prog.Always.ofExcept (calm_keyChange (by omega) hc)).bind fun key _ => ?_
  cases key with
  | none => exact stable_writeBack c.1 row
  | some newID => exact stable_moveRow c.1 newID row

theorem stable_each {ι : Type} {turn : ι → Exec Unit} {cs : List ι}
    (h : ∀ c ∈ cs, Stable S (fun _ => True) (turn c)) :
    Stable S (fun _ => True) (Prog.each turn cs) := by
  induction cs with
  | nil => exact .ret trivial
  | cons c cs ih =>
    obtain ⟨hc, hcs⟩ := List.forall_mem_cons.mp h
    exact hc.bind fun _ _ => ih hcs

/-! ## What is read before the first write -/

theorem calm_insertTargets (cols : List String) {idx : List Nat}
    (h : ∀ i ∈ idx, i < td.cols.length) :
    Calm (fun idx => ∀ i ∈ idx, i < td.cols.length) (insertTargets td table cols idx) := by
  induction cols generalizing idx with
  | nil => exact h
  | cons cn cols ih =>
    rw [insertTargets]
    split
    · exact calm_sqlErr _
    · next i hi =>
      split
      · exact calm_sqlErr _
      · refine ih fun j hj => ?_
        rcases List.mem_append.mp hj with hj | hj
        · exact h j hj
        · rw [List.mem_singleton.mp hj]
          exact (List.findIdx?_eq_some_iff_getElem.mp hi).1

theorem calm_setTargets (sets : List Assignment) :
    Calm (fun sets => ∀ p ∈ sets, p.1 < td.cols.length) (setTargets td sets) := by
  induction sets with
  | nil => exact fun p hp => nomatch hp
  | cons a sets ih =>
    rw [setTargets]
    split
    · exact calm_sqlErr _
    · next i hi =>
      refine ih.bind fun rest hrest => ?_
      exact List.forall_mem_cons.mpr ⟨(List.findIdx?_eq_some_iff_getElem.mp hi).1, hrest⟩

theorem stable_selectInsert (i : Insert) :
    Stable S (fun x => ∀ j ∈ x.2, j < x.1.cols.length) (selectInsert i) := by
  refine (stable_tableDef i.table).bind fun td _ => ?_
  refine (Prog.Always.ofExcept (Q := fun idx => ∀ j ∈ idx, j < td.cols.length) ?_).bind
    fun idx hidx => .ret hidx
  split
  · exact fun j hj => List.mem_range.mp hj
  · exact calm_insertTargets i.cols fun j hj => nomatch hj

theorem stable_planWhere (hS : Views S) {sc : JoinScope} (hsc : Laid 0 sc) {where_ : Option Expr}
    (h : ∀ d ∈ optionDerived where_, Roomy env S d) :
    Stable S (fun _ => True) (planWhere env sc where_) := by
  cases where_ with
  | none => exact .ret trivial
  | some w =>
    rw [optionDerived] at h
    refine (stable_resolveInSubqueries hS w h).bind fun w' _ => ?_
    exact (Prog.Always.ofExcept (calm_validateExpr hsc w')).bind fun _ _ => .ret trivial

theorem calm_filterCandidates (env : Env) {sc : JoinScope} (hsc : Laid 0 sc) (where_ : Option Expr)
    {rows : List (Int64 × Row)} (h : ∀ c ∈ rows, sc.width ≤ c.2.length) :
    Calm (fun cs => ∀ c ∈ cs, sc.width ≤ c.2.length) (filterCandidates env sc where_ rows) := by
  induction rows with
  | nil => exact fun c hc => nomatch hc
  | cons c rows ih =>
    obtain ⟨hc, hrows⟩ := List.forall_mem_cons.mp h
    have hrest : ∀ b : Bool, Calm (fun cs => ∀ c ∈ cs, sc.width ≤ c.2.length)
        (filterCandidates env sc where_ rows >>= fun rest =>
          pure (if b then c :: rest else rest)) := by
      refine fun b => (ih hrows).bind fun rest hrest => ?_
      cases b with
      | false => exact hrest
      | true => exact List.forall_mem_cons.mpr ⟨hc, hrest⟩
    cases where_ with
    | none => exact hrest true
    | some w => exact (calm_passes hsc hc w).bind fun b _ => hrest b

theorem stable_collectCandidates (hS : Views S) (htd : ∃ s ∈ S, td ∈ s.1.catalog)
    (where_ : Option Expr) :
    Stable S (fun cs => ∀ c ∈ cs, td.cols.length ≤ c.2.length)
      (collectCandidates env td.name td (singleTableScope td) where_) := by
  obtain ⟨s, hs, htd⟩ := htd
  have hscan : ∀ where_, Stable S (fun cs => ∀ c ∈ cs, td.cols.length ≤ c.2.length)
      (scanCandidates env td.name (singleTableScope td) where_) := by
    intro where_
    refine (Prog.Always.ask (I := Accessor) (.allRows td.name)).bind ?_
    rintro reply ⟨s', hs', rfl⟩
    rw [Session.reply_allRows]
    cases hv : s'.view td.name with
    | none => exact .ofExcept (calm_sqlErr _)
    | some v =>
      have hwide : ∀ c ∈ v.rows.ascending, (singleTableScope td).width ≤ c.2.length := by
        intro c hc
        rw [width_single]
        exact hS.width hs htd hs' hv (GoMap.mem_ascending.mp hc)
      have hfound := calm_filterCandidates env (laid_single td) where_ hwide
      rw [width_single] at hfound
      exact .ofExcept hfound
  unfold collectCandidates
  cases where_ with
  | none => exact hscan none
  | some w =>
    dsimp only
    split
    · refine (stable_lookupUnique (laid_single td) fun s' hs' id row hrow => ?_).bind
        fun found hfound => .ret fun c hc => ?_
      · rw [width_single]
        exact hS.width_get hs htd hs' hrow
      · have := hfound c (Option.mem_toList.mp hc)
        rwa [width_single] at this
    · exact hscan (some w)

theorem stable_selectUpdate (hS : Views S) {u : Update}
    (h : ∀ d ∈ optionDerived u.where_, Roomy env S d) :
    Stable S (fun x => (∀ p ∈ x.2.1, p.1 < x.1.cols.length) ∧
      ∀ c ∈ x.2.2, x.1.cols.length ≤ c.2.length) (selectUpdate env u) := by
  refine (stable_tableDef u.table).bind ?_
  rintro td ⟨hname, htd⟩
  refine (Prog.Always.ofExcept (calm_setTargets u.sets)).bind fun sets hsets => ?_
  have hvalid : Calm (fun _ => True)
      (u.sets.forM fun a => validateExpr (singleTableScope td) a.expr) := by
    generalize u.sets = sets
    induction sets with
    | nil => trivial
    | cons a sets ih => exact (calm_validateExpr (laid_single td) a.expr).bind fun _ _ => ih
  refine (Prog.Always.ofExcept hvalid).bind fun _ _ => ?_
  refine (stable_planWhere hS (laid_single td) h).bind fun where_ _ => ?_
  rw [← hname]
  exact (stable_collectCandidates hS htd where_).bind fun cands hcands => .ret ⟨hsets, hcands⟩

theorem stable_selectDelete (hS : Views S) {d : Delete}
    (h : ∀ x ∈ optionDerived d.where_, Roomy env S x) :
    Stable S (fun _ => True) (selectDelete env d) := by
  refine (stable_tableDef d.table).bind ?_
  rintro td ⟨hname, htd⟩
  refine (stable_planWhere hS (laid_single td) h).bind fun where_ _ => ?_
  rw [← hname]
  exact (stable_collectCandidates hS htd where_).mono fun _ _ => trivial

end

/-! ## Statements -/

/-- The derived tables in the subqueries of a statement. -/
def stmtDerived : Statement → List (Select × String)
  | .select q => derivedTables q
  | .update u => optionDerived u.where_
  | .delete d => optionDerived d.where_
  | _ => []

/-- **What keeps a statement in range**, in the state it finds: the rows of its
session are as wide as their tables, and its derived tables have room. -/
structure InRange (env : Env) (s : Session) (stmt : Statement) : Prop where
  views : Views {s}
  room : ∀ d ∈ stmtDerived stmt, Roomy env {s} d

instance (e : Engine) : Decidable e.Named :=
  decidable_of_iff (∀ p ∈ e.tables.ascending, p.2.name = p.1)
    ⟨fun h n _ hv => by
      obtain ⟨t, ht, rfl⟩ := Engine.exists_of_view hv
      exact h (n, t) (GoMap.mem_ascending.mpr ht),
    fun h p hp => h.name_eq (GoMap.mem_ascending.mp hp)⟩

theorem roomy_iff {env : Env} {s : Session} {d : Select × String} {x : Except Failure Result}
    (hx : (execSelect env d.1).eval s.reply = x) :
    (∀ res ∈ x.toOption, res.rows = [] → ∀ v ∈ s.view d.2, ∀ id row, v.rows.get? id = some row →
      res.columns.length ≤ row.length) ↔ Roomy env {s} d := by
  subst hx
  constructor
  · rintro h res hres hnil _ rfl v hv
    rw [Prog.reaches_singleton] at hres
    exact h res (by rw [← hres]; rfl) hnil v hv
  · intro h res hres hnil v hv
    refine h res (Prog.reaches_singleton.mpr ?_) hnil s rfl v hv
    cases hev : (execSelect env d.1).eval s.reply with
    | error err =>
      rw [hev] at hres
      cases hres
    | ok res' =>
      rw [hev] at hres
      cases hres
      rfl

instance (env : Env) (s : Session) (d : Select × String) : Decidable (Roomy env {s} d) :=
  decidable_of_iff _ (roomy_iff rfl)

instance (env : Env) (s : Session) (stmt : Statement) : Decidable (InRange env s stmt) :=
  decidable_of_iff (s.1.Named ∧
      (∀ n v, s.view n = some v → ∀ id row, v.rows.get? id = some row →
        row.length = v.cols.length) ∧ ∀ d ∈ stmtDerived stmt, Roomy env {s} d)
    ⟨fun ⟨hn, hrows, hroom⟩ => ⟨⟨fun _ h => h ▸ hn, fun _ h _ h' => h ▸ h' ▸ rfl,
        fun _ h => h ▸ hrows⟩, hroom⟩,
      fun h => ⟨h.views.named s rfl, h.views.rows s rfl, h.room⟩⟩

section

variable {env : Env} {s : Session} {α β : Type}

/-- A program that reads first, and then writes in a transaction. -/
theorem run_ne_panic {Q : α → Prop} {p : Exec α} (hr : Reads p) (hp : Stable {s} Q p)
    {f : α → Exec β} (hf : ∀ a, Q a → Stable Busy (fun _ => True) (f a)) (hs : s ∈ Busy) :
    ((p >>= f).run Session.handler s).2 ≠ .error .panic := by
  have hbusy : ∀ s ∈ Busy, ∀ c, (Session.handler c s).1 ∈ Busy := by
    rintro ⟨e, t⟩ ht c
    cases t with
    | none => cases ht
    | some t => rfl
  have hrun := hr.run_eq s
  have hyields := hp _ (Prog.reaches_singleton.mpr rfl)
  cases hev : p.eval s.reply with
  | error err =>
    rw [hev] at hrun hyields
    rw [Prog.run_bind_error hrun]
    rintro ⟨⟩
    exact hyields rfl
  | ok a =>
    rw [hev] at hrun hyields
    rw [Prog.run_bind_ok hrun]
    intro hpanic
    have hout := hf a hyields _ (Prog.reaches_run hbusy (f a) hs)
    rw [hpanic] at hout
    exact hout rfl

/-- **A statement in range does not panic** in a transaction. -/
theorem execAccess_ne_panic {stmt : Statement} (h : InRange env s stmt) (hs : s ∈ Busy) :
    ((execAccess env stmt).run Session.handler s).2 ≠ .error .panic := by
  have hret : ∀ {p : Exec Unit} {res : Result}, Stable Busy (fun _ => True) p →
      Stable Busy (fun _ => True) (p >>= fun _ => (return res : Exec Result)) :=
    fun hp => hp.bind fun _ _ => .ret trivial
  cases stmt with
  | insert i =>
    refine run_ne_panic (reads_selectInsert i) (stable_selectInsert i) ?_ hs
    rintro ⟨td, idx⟩ hidx
    refine hret ?_
    rw [insertRows_eq_each]
    exact stable_each fun p _ => stable_insertRow hidx p.2 p.1
  | select q =>
    rw [execAccess, (reads_execSelect env q).run_eq]
    intro hpanic
    exact stable_execSelect h.views q h.room _ (Prog.reaches_singleton.mpr hpanic.symm) rfl
  | update u =>
    refine run_ne_panic (reads_selectUpdate env u) (stable_selectUpdate h.views h.room) ?_ hs
    rintro ⟨td, sets, cands⟩ ⟨hsets, hcands⟩
    refine hret ?_
    rw [updateRows_eq_each]
    exact stable_each fun c hc => stable_updateRow hsets (hcands c hc)
  | delete d =>
    refine run_ne_panic (reads_selectDelete env d) (stable_selectDelete h.views h.room) ?_ hs
    intro cands _
    refine hret ?_
    rw [deleteRows_eq_each]
    exact stable_each fun c _ => stable_deleteRow c
  | createTable | dropTable | begin | commit | rollback => exact nofun

end

end Tsql.Executor
