import Tsql.Executor.ReadOnly
import Tsql.Storage.Unique

/-!
# The UNIQUE index against the scan

For a condition `col = literal` on a UNIQUE column, SELECT, UPDATE and DELETE
ask the index for the ONE row that has the literal, converted to the column's
type, as its key, and test the condition on that row only. The scan tests the
condition on every row, by `Value.compare`. Two integers are compared as
`float64`, NaN compares equal to every number, and so does a zero to a zero
of the other sign: a row can compare equal to the literal and have another
key, and several rows can. `shortcut_eq_scan_iff` says when the two agree.
-/

namespace Tsql

variable {td : TableDef} {p : Int64 × Row}

/-! ## Equality of values is symmetric -/

theorem compareBytes_eq_comm (a b : Bytes) : compareBytes a b = .eq ↔ compareBytes b a = .eq := by
  induction a generalizing b with
  | nil => cases b <;> simp [compareBytes]
  | cons x a ih =>
    cases b with
    | nil => simp [compareBytes]
    | cons y b =>
      unfold compareBytes
      by_cases hxy : x < y
      · have hyx : ¬ y < x := UInt8.lt_asymm hxy
        simp [hxy, hyx]
      · by_cases hyx : y < x
        · simp [hxy, hyx]
        · simp only [hxy, hyx, if_false]
          exact ih b

theorem compareFloat_eq_comm (a b : F64) : compareFloat a b = .eq ↔ compareFloat b a = .eq := by
  unfold compareFloat
  cases a.lt b <;> cases b.lt a <;> simp

theorem compareBool_eq_comm (a b : Bool) : compareBool a b = .eq ↔ compareBool b a = .eq := by
  cases a <;> cases b <;> decide

theorem compareTime_eq_comm (a b : Time) : compareTime a b = .eq ↔ compareTime b a = .eq := by
  unfold compareTime
  cases a.before b <;> cases b.before a <;> simp

/-- Numbers are compared as `float64`. -/
theorem Value.compare_of_num {v o : Value} {a b : F64} (hv : v.num? = some a)
    (ho : o.num? = some b) : v.compare o = compareFloat a b := by
  have hvn : v.isNull = false := by cases v <;> first | rfl | cases hv
  have hon : o.isNull = false := by cases o <;> first | rfl | cases ho
  unfold compare
  simp only [hvn, hon, hv, ho, Bool.and_self, Bool.false_eq_true, if_false]

/-- **`compare` finds two values equal whichever comes first.** -/
theorem Value.compare_eq_comm (v o : Value) : v.compare o = .eq ↔ o.compare v = .eq := by
  by_cases hnum : v.num?.isSome ∧ o.num?.isSome
  · obtain ⟨a, ha⟩ := Option.isSome_iff_exists.mp hnum.1
    obtain ⟨b, hb⟩ := Option.isSome_iff_exists.mp hnum.2
    rw [compare_of_num ha hb, compare_of_num hb ha]
    exact compareFloat_eq_comm a b
  · cases v <;> cases o
    case text.text s t => exact compareBytes_eq_comm s t
    case bool.bool a b => exact compareBool_eq_comm a b
    case time.time a b =>
        have htime : ∀ a b : Time, (Value.time a).compare (.time b) = compareTime a b := by
          intro a b
          simp [compare, isNull, num?, kind]
        rw [htime, htime]
        exact compareTime_eq_comm a b
    -- two numbers are done, and values of different kinds are never equal
    all_goals first
      | exact absurd ⟨rfl, rfl⟩ hnum
      | exact Iff.rfl
      | exact iff_of_false nofun nofun

namespace Executor

open Storage

/-! ## The condition -/

/-- The cell compares equal to the literal. -/
def equalTo (v x : Value) : Bool := !x.isNull && !v.isNull && x.compare v == .eq

/-- What `uniqueEquality` has found. -/
structure Equality (td : TableDef) (alias_ : String) (w : Expr) (ci : Nat) (v lit : Value) :
    Prop where
  column : ∃ c table, td.cols[ci]? = some c ∧ c.unique = true ∧ (table = "" ∨ table = alias_) ∧
    columnEqLiteral w = some (table, c.name, v) ∧ c.type.check v = .ok lit

theorem equality_of_uniqueEquality {alias_ : String} {w : Expr} {ci : Nat}
    {lit : Value} (h : uniqueEquality w alias_ td = some (ci, lit)) :
    ∃ v, Equality td alias_ w ci v lit := by
  unfold uniqueEquality at h
  cases hw : columnEqLiteral w with
  | none => simp [hw] at h
  | some q =>
    obtain ⟨table, name, v⟩ := q
    simp only [hw] at h
    split at h
    · cases h
    · next hqual =>
      cases hi : td.cols.findIdx? fun c => c.name = name ∧ c.unique with
      | none =>
        simp only [hi] at h
        cases h
      | some i =>
        simp only [hi] at h
        cases hc : td.cols[i]? with
        | none => simp [hc] at h
        | some c =>
          simp only [hc] at h
          cases hck : c.type.check v with
          | error err => simp [hck] at h
          | ok lit' =>
            simp only [hck, Option.some.injEq, Prod.mk.injEq] at h
            obtain ⟨rfl, rfl⟩ := h
            obtain ⟨hlt, hp, -⟩ := List.findIdx?_eq_some_iff_getElem.mp hi
            rw [List.getElem?_eq_getElem hlt, Option.some.injEq] at hc
            simp only [hc, decide_eq_true_eq] at hp
            refine ⟨v, c, table, ?_, hp.2, ?_, ?_, hck⟩
            · rw [List.getElem?_eq_getElem hlt, hc]
            · by_contra hne
              rw [not_or] at hne
              exact hqual hne
            · rw [hp.1, hw]

/-! ## Where a column is found -/

/-- The map of a definition with distinct names has every column. -/
theorem get?_colIndexMap_of_nodup (hnodup : (td.cols.map Column.name).Nodup)
    {i : Nat} {c : Column} (hc : td.cols[i]? = some c) :
    (colIndexMap td).get? c.name = some i := by
  obtain ⟨hi, rfl⟩ := List.getElem?_eq_some_iff.mp hc
  have hmem : i ∈ td.cols.findIdxs fun d => d.name = td.cols[i].name :=
    List.mem_findIdxs_iff_exists_getElem_pos.mpr ⟨hi, decide_eq_true rfl⟩
  have hone : (td.cols.findIdxs fun d => d.name = td.cols[i].name).length ≤ 1 := by
    have hcount := List.nodup_iff_count_le_one.mp hnodup td.cols[i].name
    rw [List.count, List.countP_map] at hcount
    rw [List.length_findIdxs]
    exact hcount
  obtain ⟨j, hj⟩ := List.length_eq_one_iff.mp (hone.antisymm (List.length_pos_of_mem hmem))
  rw [get?_colIndexMap, hj]
  rw [hj] at hmem
  rw [List.mem_singleton.mp hmem]
  rfl

/-- A FROM list of one stored table. -/
def storedScope (td : TableDef) (alias_ : String) : JoinScope :=
  [{ td := td, alias_ := alias_, basePos := 0, colIdx := colIndexMap td, rows := none }]

theorem resolve_storedScope (hnodup : (td.cols.map Column.name).Nodup) {i : Nat}
    {c : Column} (hc : td.cols[i]? = some c) {alias_ table : String}
    (htable : table = "" ∨ table = alias_) :
    (storedScope td alias_).resolve table c.name = .ok i := by
  unfold JoinScope.resolve storedScope
  by_cases hempty : table = ""
  · simp [hempty, JoinScope.position, get?_colIndexMap_of_nodup hnodup hc]
  · have halias : table = alias_ := htable.resolve_left hempty
    subst halias
    simp [hempty, JoinScope.position, get?_colIndexMap_of_nodup hnodup hc]

/-- **The condition on a row** reads the cell and compares it. -/
theorem passes_equality (hnodup : (td.cols.map Column.name).Nodup)
    {alias_ : String} {w : Expr} {ci : Nat} {v lit : Value}
    (h : Equality td alias_ w ci v lit) (env : Env) (row : Row) :
    passes env (storedScope td alias_) w row = (cell row ci).map (equalTo v) := by
  obtain ⟨c, table, hc, -, htable, hw, -⟩ := h
  have hres := resolve_storedScope hnodup hc htable
  have hcol : evalValueCtx env (storedScope td alias_) row none (.colRef table c.name) =
      cell row ci := by
    rw [evalValueCtx, hres]
    rfl
  have hsym : ∀ x : Value, (v.compare x == Ordering.eq) = (x.compare v == Ordering.eq) := by
    intro x
    rw [Bool.eq_iff_iff, beq_iff_eq, beq_iff_eq]
    exact v.compare_eq_comm x
  -- the column may stand on either side
  have hshape : w = .cmp .eq (.colRef table c.name) (.lit v) ∨
      w = .cmp .eq (.lit v) (.colRef table c.name) := by
    unfold columnEqLiteral at hw
    split at hw <;> simp_all
  unfold passes evalBool
  rcases hshape with rfl | rfl
  · rw [evalBoolCtx, hcol]
    cases cell row ci with
    | error err => rfl
    | ok x =>
      show Except.map _ (if x.isNull || v.isNull then _ else _) = _
      cases hx : x.isNull <;> cases hv : v.isNull <;>
        simp [equalTo, hx, hv, cmpHolds, Except.map]
  · rw [evalBoolCtx, hcol]
    cases cell row ci with
    | error err => rfl
    | ok x =>
      show Except.map _ (if v.isNull || x.isNull then _ else _) = _
      cases hx : x.isNull <;> cases hv : v.isNull <;>
        simp [equalTo, hx, hv, cmpHolds, Except.map, hsym]

/-! ## The two ways to the rows -/

/-- The row compares equal to the literal in column `ci`. -/
def hits (ci : Nat) (v : Value) (p : Int64 × Row) : Bool := (p.2[ci]?).any (equalTo v)

/-- What the index comes to: the first row with the key, if the condition
holds of it. NULL has no key. -/
def found (ci : Nat) (v lit : Value) (rows : GoMap Int64 Row) : Option (Int64 × Row) :=
  if lit.isNull then none
  else (Session.firstWithKey ci (uniqKey lit) rows).filter (hits ci v)

section

variable {td : TableDef} {alias_ : String} {w : Expr} {ci : Nat} {v lit : Value} {env : Env}

/-- The scan, where every row has the column. -/
theorem filterCandidates_wide (hnodup : (td.cols.map Column.name).Nodup)
    (h : Equality td alias_ w ci v lit) {l : List (Int64 × Row)}
    (hwide : ∀ p ∈ l, ci < p.2.length) :
    filterCandidates env (storedScope td alias_) (some w) l = .ok (l.filter (hits ci v)) := by
  induction l with
  | nil => rfl
  | cons p l ih =>
    obtain ⟨x, hx⟩ : ∃ x, p.2[ci]? = some x :=
      ⟨_, List.getElem?_eq_getElem (hwide p (by simp))⟩
    have hhit : hits ci v p = equalTo v x := by
      rw [hits, hx]
      rfl
    rw [filterCandidates, passes_equality hnodup h, cell, hx,
      ih fun q hq => hwide q (by simp [hq]), List.filter_cons, hhit]
    rfl

/-- The scan stops at a row without the column. -/
theorem filterCandidates_short (hnodup : (td.cols.map Column.name).Nodup)
    (h : Equality td alias_ w ci v lit) {l : List (Int64 × Row)}
    (hshort : ∃ p ∈ l, p.2.length ≤ ci) :
    filterCandidates env (storedScope td alias_) (some w) l = .error .panic := by
  induction l with
  | nil => simp at hshort
  | cons p l ih =>
    rw [filterCandidates, passes_equality hnodup h]
    by_cases hp : p.2.length ≤ ci
    · rw [cell, List.getElem?_eq_none hp]
      rfl
    · have hrest : ∃ q ∈ l, q.2.length ≤ ci := by
        obtain ⟨q, hq, hlen⟩ := hshort
        rcases List.mem_cons.mp hq with rfl | hq
        · exact absurd hlen hp
        · exact ⟨q, hq, hlen⟩
      rw [cell, List.getElem?_eq_getElem (Nat.not_le.mp hp), ih hrest]
      rfl

/-- SELECT filters the rows as UPDATE and DELETE filter the candidates. -/
theorem filterRows_map (sc : JoinScope) (where_ : Option Expr) (l : List (Int64 × Row)) :
    filterRows env sc where_ (l.map Prod.snd) =
      (filterCandidates env sc where_ l).map (List.map Prod.snd) := by
  induction l with
  | nil => rfl
  | cons p l ih =>
    simp only [List.map_cons, filterRows, filterCandidates, ih]
    cases where_ with
    | none => cases filterCandidates env sc none l <;> rfl
    | some e =>
      dsimp only
      cases passes env sc e p.2 with
      | error err => rfl
      | ok b => cases filterCandidates env sc (some e) l <;> cases b <;> rfl

/-! ## When they agree -/

/-- **The index decides the condition**: every row has the column, and at most
one compares equal to the literal, which then holds the literal as the column
stores it. -/
def Decided (rows : GoMap Int64 Row) (ci : Nat) (v lit : Value) : Prop :=
  (∀ id row, rows.get? id = some row → ci < row.length) ∧
    ∀ id row, rows.get? id = some row → hits ci v (id, row) = true →
      row[ci]? = some lit ∧
        ∀ id' row', rows.get? id' = some row' → hits ci v (id', row') = true → id' = id

theorem null_of_check_null {ct : ColumnType} (h : ct.check v = .ok .null) : v = .null := by
  unfold ColumnType.check at h
  cases v with
  | null => rfl
  | _ =>
    cases ct <;> simp only [] at h <;> first | cases h | (split at h <;> cases h)

theorem hits_null (p : Int64 × Row) : hits ci .null p = false := by
  cases hx : p.2[ci]? <;> simp [hits, hx, equalTo, Value.isNull]

variable {rows : GoMap Int64 Row}

theorem found_mem (h : found ci v lit rows = some p) :
    p ∈ rows.ascending.filter (hits ci v) := by
  unfold found at h
  split at h
  · cases h
  · rw [Option.filter_eq_some_iff] at h
    exact List.mem_filter.mpr ⟨List.mem_of_find?_eq_some h.1, h.2⟩

theorem found_key (h : found ci v lit rows = some p) : p.2[ci]? = some lit := by
  unfold found at h
  split at h
  · cases h
  · rw [Option.filter_eq_some_iff] at h
    have hkey := List.find?_some h.1
    simp only [decide_eq_true_eq] at hkey
    obtain ⟨x, hx, hxl⟩ := Option.map_eq_some_iff.mp hkey
    cases uniqKey_injective hxl
    exact hx

/-- A row that hits and holds the literal makes the index find a row that
hits and holds the literal. -/
theorem exists_found (hlit : lit.isNull = false) (hmem : p ∈ rows.ascending)
    (hhit : hits ci v p = true) (hkey : p.2[ci]? = some lit) :
    ∃ q, found ci v lit rows = some q := by
  unfold found
  simp only [hlit, Bool.false_eq_true, if_false]
  have hsome : (Session.firstWithKey ci (uniqKey lit) rows).isSome := by
    rw [Session.firstWithKey, List.find?_isSome]
    exact ⟨p, hmem, by simp [hkey]⟩
  obtain ⟨q, hq⟩ := Option.isSome_iff_exists.mp hsome
  have hqkey := List.find?_some hq
  simp only [decide_eq_true_eq] at hqkey
  obtain ⟨x, hx, hxl⟩ := Option.map_eq_some_iff.mp hqkey
  cases uniqKey_injective hxl
  -- the two cells are the same value, so the condition holds of both
  have hqhit : hits ci v q = true := by
    rw [hits, hx, ← hkey]
    exact hhit
  exact ⟨q, by rw [hq]; exact Option.filter_some_pos hqhit⟩

theorem nodup_filter_ascending (f : Int64 × Row → Bool) : (rows.ascending.filter f).Nodup := by
  rw [GoMap.ascending_eq]
  exact (List.Nodup.of_map _ (GoMap.sortedList_enumerates rows).nodup).filter _

/-- The index finds all rows that hit, where it decides the condition. -/
theorem found_eq_of_decided (hcheck : lit.isNull = true → v = .null) (h : Decided rows ci v lit) :
    (found ci v lit rows).toList = rows.ascending.filter (hits ci v) := by
  cases hf : found ci v lit rows with
  | some q =>
    have hq := found_mem hf
    have hall : ∀ p ∈ rows.ascending.filter (hits ci v), p = q := by
      rintro ⟨id, row⟩ hp
      obtain ⟨hp, hhit⟩ := List.mem_filter.mp hp
      obtain ⟨hqm, hqhit⟩ := List.mem_filter.mp hq
      have hrow := GoMap.mem_ascending.mp hp
      have hid : id = q.1 :=
        (h.2 q.1 q.2 (GoMap.mem_ascending.mp hqm) hqhit).2 id row hrow hhit
      have hqrow : rows.get? q.1 = some q.2 := GoMap.mem_ascending.mp hqm
      rw [← hid, hrow, Option.some.injEq] at hqrow
      exact Prod.ext hid hqrow
    have hperm : rows.ascending.filter (hits ci v) = [q] := by
      refine List.Perm.eq_singleton ?_
      rw [List.perm_ext_iff_of_nodup (nodup_filter_ascending _) (List.nodup_singleton q)]
      intro p
      rw [List.mem_singleton]
      exact ⟨hall p, fun hpq => hpq ▸ hq⟩
    rw [hperm]
    rfl
  | none =>
    symm
    show rows.ascending.filter (hits ci v) = []
    rw [List.filter_eq_nil_iff]
    rintro ⟨id, row⟩ hp hhit
    have hkey := (h.2 id row (GoMap.mem_ascending.mp hp) hhit).1
    cases hlit : lit.isNull with
    | true =>
      rw [hcheck hlit, hits_null] at hhit
      cases hhit
    | false =>
      obtain ⟨q, hq⟩ := exists_found hlit hp hhit hkey
      rw [hf] at hq
      cases hq

/-- Where the index finds as many rows as hit, it decides the condition. -/
theorem decided_of_length (hwide : ∀ id row, rows.get? id = some row → ci < row.length)
    (h : (found ci v lit rows).toList.length = (rows.ascending.filter (hits ci v)).length) :
    Decided rows ci v lit := by
  refine ⟨hwide, ?_⟩
  intro id row hrow hhit
  have hp : (id, row) ∈ rows.ascending.filter (hits ci v) :=
    List.mem_filter.mpr ⟨GoMap.mem_ascending.mpr hrow, hhit⟩
  cases hf : found ci v lit rows with
  | none =>
    rw [hf] at h
    rw [List.length_eq_zero_iff.mp h.symm] at hp
    simp at hp
  | some q =>
    rw [hf] at h
    obtain ⟨q', hq'⟩ := List.length_eq_one_iff.mp h.symm
    have hall : ∀ p ∈ rows.ascending.filter (hits ci v), p = q := by
      intro p hm
      have hq := found_mem hf
      rw [hq', List.mem_singleton] at hm hq
      rw [hm, hq]
    have hpq := hall _ hp
    refine ⟨?_, ?_⟩
    · have hkey := found_key hf
      rwa [← hpq] at hkey
    · intro id' row' hrow' hhit'
      have hpq' := hall (id', row') (List.mem_filter.mpr ⟨GoMap.mem_ascending.mpr hrow', hhit'⟩)
      rw [← hpq] at hpq'
      exact congrArg Prod.fst hpq'

/-! ## The programs -/

variable {s : Session} {name : String} {tb : Table} {vw : View}

/-- **The shortcut** answers what `found` says. -/
theorem eval_lookupUnique (htb : s.1.tables.get? name = some tb) (hex : tb.Exact)
    (hnodup : (tb.cols.map Column.name).Nodup) (hview : s.view name = some vw)
    (h : Equality ⟨name, tb.cols⟩ alias_ w ci v lit) :
    (lookupUnique env (storedScope ⟨name, tb.cols⟩ alias_) name w ci lit).eval s.reply =
      .ok (found ci v lit vw.rows) := by
  have hci : ci ∈ uniqCols tb.cols := by
    obtain ⟨c, table, hc, hunique, -⟩ := h
    exact mem_uniqCols.mpr ⟨c, hc, hunique⟩
  have hask : (uniqueGet name ci lit).eval s.reply =
      .ok (if lit.isNull then none
        else (Session.firstWithKey ci (uniqKey lit) vw.rows).map Prod.fst) :=
    congrArg Except.ok (Session.reply_uniqueGet htb hex hview hci lit)
  unfold lookupUnique
  rw [Prog.eval_bind, hask, found]
  cases lit.isNull with
  | true => rfl
  | false =>
    cases hfirst : Session.firstWithKey ci (uniqKey lit) vw.rows with
    | none => rfl
    | some p =>
      obtain ⟨id, row⟩ := p
      have hrow : vw.rows.get? id = some row :=
        GoMap.mem_ascending.mp (List.mem_of_find?_eq_some hfirst)
      have hget : (get name id).eval s.reply = .ok (some row) :=
        congrArg Except.ok ((Session.reply_get hview id).trans hrow)
      have hkey := List.find?_some hfirst
      simp only [decide_eq_true_eq] at hkey
      obtain ⟨x, hx, -⟩ := Option.map_eq_some_iff.mp hkey
      have hhit : hits ci v (id, row) = equalTo v x := by
        rw [hits, hx]
        rfl
      refine bind_eq_ok.mpr ⟨some id, rfl, ?_⟩
      dsimp only
      rw [Prog.eval_bind]
      refine bind_eq_ok.mpr ⟨some row, hget, ?_⟩
      dsimp only
      rw [Prog.eval_bind, Prog.eval_ofExcept, passes_equality hnodup h, cell, hx]
      simp only [Bool.false_eq_true, if_false, Option.filter, hhit]
      rfl

theorem eval_scanCandidates (hview : s.view name = some vw) (sc : JoinScope)
    (where_ : Option Expr) :
    (scanCandidates env name sc where_).eval s.reply =
      filterCandidates env sc where_ vw.rows.ascending := by
  have hall : (allRows name).eval s.reply = .ok (.ok vw.rows.ascending) := by
    refine congrArg Except.ok ((s.reply_allRows name).trans ?_)
    rw [hview]
  unfold scanCandidates
  rw [Prog.eval_bind, hall]
  exact Prog.eval_ofExcept _ _

theorem eval_collectJoined (hview : s.view name = some vw) (cols : List Column)
    (where_ : Option Expr) :
    (collectJoined env (storedScope ⟨name, cols⟩ alias_) [] where_).eval s.reply =
      (filterCandidates env (storedScope ⟨name, cols⟩ alias_) where_ vw.rows.ascending).map
        (List.map Prod.snd) := by
  have hall : (allRows name).eval s.reply = .ok (.ok vw.rows.ascending) := by
    refine congrArg Except.ok ((s.reply_allRows name).trans ?_)
    rw [hview]
  have hload : (loadTables (storedScope ⟨name, cols⟩ alias_)).eval s.reply =
      .ok [vw.rows.ascending.map Prod.snd] := by
    unfold storedScope loadTables loadTable
    rw [Prog.eval_bind, Prog.eval_bind, hall]
    rfl
  unfold collectJoined
  rw [Prog.eval_bind, hload, ← filterRows_map]
  exact Prog.eval_ofExcept _ _

end

/-- **The index shortcut is the full scan exactly where the index decides the
condition.** For every session, in autocommit or inside a transaction, and
every table whose index is exact: SELECT gets the same rows from the shortcut
as from the scan, and UPDATE and DELETE the same candidates, exactly if every
row the session sees has the column and at most one of them compares equal to
the literal, and that one holds the literal as the column stores it. -/
theorem shortcut_eq_scan_iff (env : Env) (s : Session) (name alias_ : String) (tb : Table)
    (vw : View) (w : Expr) (ci : Nat) (table column : String) (v lit : Value)
    (htb : s.1.tables.get? name = some tb) (hex : tb.Exact)
    (hnodup : (tb.cols.map Column.name).Nodup) (hview : s.view name = some vw)
    (hw : columnEqLiteral w = some (table, column, v))
    (heq : uniqueEquality w alias_ ⟨name, tb.cols⟩ = some (ci, lit)) :
    ((candidateRows env (storedScope ⟨name, tb.cols⟩ alias_) [] (some w)).run Session.handler s =
        (collectJoined env (storedScope ⟨name, tb.cols⟩ alias_) [] (some w)).run Session.handler s ∧
      (alias_ = name →
        (collectCandidates env name ⟨name, tb.cols⟩ (singleTableScope ⟨name, tb.cols⟩)
            (some w)).run Session.handler s =
          (scanCandidates env name (singleTableScope ⟨name, tb.cols⟩) (some w)).run
            Session.handler s)) ↔
      Decided vw.rows ci v lit := by
  obtain ⟨v', hfacts⟩ := equality_of_uniqueEquality heq
  have hv : v' = v := by
    obtain ⟨c, t, -, -, -, hw', -⟩ := hfacts
    rw [hw] at hw'
    cases hw'
    rfl
  subst hv
  have hcheck : lit.isNull = true → v' = .null := by
    intro hnull
    obtain ⟨c, t, -, -, -, -, hck⟩ := hfacts
    cases lit with
    | null => exact null_of_check_null hck
    | _ => cases hnull
  have hshort : (lookupUnique env (storedScope ⟨name, tb.cols⟩ alias_) name w ci lit).eval s.reply =
      .ok (found ci v' lit vw.rows) :=
    eval_lookupUnique htb hex hnodup hview hfacts
  have hselect : (candidateRows env (storedScope ⟨name, tb.cols⟩ alias_) [] (some w)).eval s.reply =
      .ok ((found ci v' lit vw.rows).map Prod.snd).toList := by
    simp only [candidateRows, storedScope, Option.isNone_none, if_true, heq, Prog.eval_bind]
    exact bind_eq_ok.mpr ⟨_, hshort, rfl⟩
  rw [(reads_candidateRows ..).run_eq, (reads_collectJoined ..).run_eq,
    (reads_collectCandidates ..).run_eq, (reads_scanCandidates ..).run_eq, hselect,
    eval_collectJoined hview, eval_scanCandidates hview]
  constructor
  · rintro ⟨hrows, -⟩
    have hrows := (Prod.mk.injEq .. ▸ hrows).2
    have hwide : ∀ id row, vw.rows.get? id = some row → ci < row.length := by
      intro id row hrow
      by_contra hlt
      rw [filterCandidates_short hnodup hfacts
        ⟨(id, row), GoMap.mem_ascending.mpr hrow, Nat.not_lt.mp hlt⟩] at hrows
      cases hrows
    rw [filterCandidates_wide hnodup hfacts fun p hp => hwide p.1 p.2 (GoMap.mem_ascending.mp hp)] at hrows
    refine decided_of_length hwide ?_
    have hlen := congrArg List.length (Except.ok.inj hrows)
    rw [List.length_map] at hlen
    rw [← hlen]
    cases found ci v' lit vw.rows <;> rfl
  · intro hdec
    have hscan : filterCandidates env (storedScope ⟨name, tb.cols⟩ alias_) (some w)
        vw.rows.ascending = .ok (vw.rows.ascending.filter (hits ci v')) :=
      filterCandidates_wide hnodup hfacts fun p hp => hdec.1 p.1 p.2 (GoMap.mem_ascending.mp hp)
    have hall := found_eq_of_decided hcheck hdec
    refine ⟨?_, ?_⟩
    · rw [hscan, ← hall]
      cases found ci v' lit vw.rows <;> rfl
    · rintro rfl
      have hshort : (lookupUnique env (singleTableScope ⟨alias_, tb.cols⟩) alias_ w ci lit).eval
          s.reply = .ok (found ci v' lit vw.rows) := hshort
      have hscan : filterCandidates env (singleTableScope ⟨alias_, tb.cols⟩) (some w)
          vw.rows.ascending = .ok (vw.rows.ascending.filter (hits ci v')) := hscan
      have hcoll : (collectCandidates env alias_ ⟨alias_, tb.cols⟩
          (singleTableScope ⟨alias_, tb.cols⟩) (some w)).eval s.reply =
          .ok (found ci v' lit vw.rows).toList := by
        simp only [collectCandidates, heq, Prog.eval_bind]
        exact bind_eq_ok.mpr ⟨_, hshort, rfl⟩
      rw [hcoll, hscan, ← hall]

/-- A table with a UNIQUE integer column and the rows 1 and 2, with these
values in it. -/
def twoIntegers (a b : Int64) : Engine :=
  (Run.run Sys.exec {} [.createTable "a" uniqueCol, .put "a" 1 [.int a], .put "a" 2 [.int b]]).eng

/-- `u = literal`. -/
def uEquals (v : Value) : Expr := .cmp .eq (.colRef "" "u") (.lit v)

/-- Where the values are far enough apart, the scan finds the same row. -/
theorem shortcut_eq_scan_five :
    uniqueEquality (uEquals (.int 5)) "a" ⟨"a", uniqueCol⟩ = some (0, .int 5) ∧
    (collectCandidates epochEnv "a" ⟨"a", uniqueCol⟩ (singleTableScope ⟨"a", uniqueCol⟩)
        (some (uEquals (.int 5)))).run Session.handler (twoIntegers 5 6, none) =
      (scanCandidates epochEnv "a" (singleTableScope ⟨"a", uniqueCol⟩)
        (some (uEquals (.int 5)))).run Session.handler (twoIntegers 5 6, none) := by
  refine ⟨by decide +kernel, ?_⟩
  have hcols : ((twoIntegers 5 6).tables.get? "a").map Table.cols = some uniqueCol := by
    decide +kernel
  obtain ⟨tb, htb, hcols⟩ := Option.map_eq_some_iff.mp hcols
  have hex : tb.Exact :=
    Table.exact_data.mp (Sys.indexed_run _ "a" tb.data (Engine.view_eq_some htb))
  have hview : Session.view (twoIntegers 5 6, none) "a" = some ⟨tb.cols, tb.rows⟩ := by
    rw [Session.view, htb]
    rfl
  have hrows : ((twoIntegers 5 6).tables.get? "a").map (·.rows.ascending) =
      some [(1, [.int 5]), (2, [.int 6])] := by
    decide +kernel
  rw [htb] at hrows
  have hrows : tb.rows.ascending = [(1, [.int 5]), (2, [.int 6])] := Option.some.inj hrows
  have hdec : Decided tb.rows 0 (.int 5) (.int 5) := by
    refine decided_of_length ?_ ?_
    · intro id row hrow
      have := GoMap.mem_ascending.mpr hrow
      rw [hrows] at this
      simp only [List.mem_cons, Prod.mk.injEq, List.not_mem_nil, or_false] at this
      rcases this with ⟨-, rfl⟩ | ⟨-, rfl⟩ <;> decide
    · rw [found, Session.firstWithKey, hrows]
      decide +kernel
  have hboth := (shortcut_eq_scan_iff epochEnv (twoIntegers 5 6, none) "a" "a" tb _
    (uEquals (.int 5)) 0 "" "u" (.int 5) (.int 5) htb hex (by rw [hcols]; decide) hview rfl
    (by rw [hcols]; decide +kernel)).mpr hdec
  rw [← hcols]
  exact hboth.2 rfl

/-- **The scan finds a row that the index does not**: as `float64` the integers
2^53 and 2^53 + 1 are one number. -/
theorem shortcut_misses_neighbour :
    (twoIntegers 9007199254740992 9007199254740993).Indexed ∧
    ((candidateRows epochEnv (storedScope ⟨"a", uniqueCol⟩ "a") []
        (some (uEquals (.int 9007199254740992)))).run Session.handler
        (twoIntegers 9007199254740992 9007199254740993, none)).2 =
      .ok [[.int 9007199254740992]] ∧
    ((collectJoined epochEnv (storedScope ⟨"a", uniqueCol⟩ "a") []
        (some (uEquals (.int 9007199254740992)))).run Session.handler
        (twoIntegers 9007199254740992 9007199254740993, none)).2 =
      .ok [[.int 9007199254740992], [.int 9007199254740993]] ∧
    ((collectCandidates epochEnv "a" ⟨"a", uniqueCol⟩ (singleTableScope ⟨"a", uniqueCol⟩)
        (some (uEquals (.int 9007199254740992)))).run Session.handler
        (twoIntegers 9007199254740992 9007199254740993, none)).2 =
      .ok [(1, [.int 9007199254740992])] ∧
    ((scanCandidates epochEnv "a" (singleTableScope ⟨"a", uniqueCol⟩)
        (some (uEquals (.int 9007199254740992)))).run Session.handler
        (twoIntegers 9007199254740992 9007199254740993, none)).2 =
      .ok [(1, [.int 9007199254740992]), (2, [.int 9007199254740993])] := by
  exact ⟨Sys.indexed_run _, by decide +kernel⟩

end Executor

end Tsql
