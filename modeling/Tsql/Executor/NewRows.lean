import Tsql.Executor.RowWrites

/-!
# The rows a statement stores

What INSERT and UPDATE make sure of in the rows they write, over a table whose
rows are in order: the cells are of the kinds of their columns, the primary key
is the row id, NOT NULL columns hold values. The first they always do; for the
other two there are values they do not look at.
-/

namespace Tsql

open Storage Executor

variable {table : String} {row : Row} {p : Nat} {cols : List Column} {exprs : List Expr}

/-! ## Rows fit their table -/

/-- The kinds a column type stores. -/
def ColumnType.stores : ColumnType → Value → Bool
  | _, .null => true
  | .int, .int _ | .bigint, .int _ => true
  | .float, .float _ => true
  | .text, .text _ => true
  | .bool, .bool _ => true
  | .timestamp, .time _ => true
  | _, _ => false

/-- Every cell is one its column stores. -/
def CellsFit (cols : List Column) (row : Row) : Prop :=
  ∀ (ci : Nat) (c : Column) (x : Value), cols[ci]? = some c → row[ci]? = some x →
    c.type.stores x = true

/-- A row fits its table. -/
structure Fits (cols : List Column) (row : Row) : Prop where
  width : row.length = cols.length
  cells : CellsFit cols row

theorem ColumnType.stores_of_check {ct : ColumnType} {v v' : Value} (h : ct.check v = .ok v') :
    ct.stores v' = true := by
  cases ct <;> cases v <;> simp only [check, reduceCtorEq] at h <;> try split at h
  all_goals first | (cases h; rfl) | cases h

theorem CellsFit.set (h : CellsFit cols row) {i : Nat} {v : Value}
    {c : Column} (hc : cols[i]? = some c) (hv : c.type.stores v = true) :
    CellsFit cols (row.set i v) := by
  intro ci c' x hc' hx
  rw [List.getElem?_set] at hx
  split at hx
  · next heq =>
    subst heq
    rw [hc] at hc'
    cases hc'
    split at hx
    · cases hx
      exact hv
    · cases hx
  · exact h ci c' x hc' hx

namespace Executor

variable {env : Env} {td : TableDef}

theorem coerceAt_stores {i : Nat} {v v' : Value} (h : coerceAt env td i v = .ok v') :
    ∃ c, td.cols[i]? = some c ∧ c.type.stores v' = true := by
  unfold coerceAt at h
  split at h
  · cases h
  · next c hc =>
    refine ⟨c, hc, ?_⟩
    split at h
    · next x hx =>
      cases h
      unfold coerce at hx
      split at hx
      · split at hx <;> exact ColumnType.stores_of_check hx
      · exact ColumnType.stores_of_check hx
    · cases h

theorem fillRow_fit {idx : List Nat} {row row' : Row}
    (hrow : CellsFit td.cols row) (h : fillRow env td idx exprs row = .ok row') :
    CellsFit td.cols row' := by
  induction idx generalizing exprs row with
  | nil =>
    cases h
    exact hrow
  | cons i idx ih =>
    cases exprs with
    | nil =>
      cases h
      exact hrow
    | cons e exprs =>
      rw [fillRow] at h
      obtain ⟨v, -, h⟩ := bind_eq_ok.mp h
      obtain ⟨v', hv', h⟩ := bind_eq_ok.mp h
      obtain ⟨c, hc, hstores⟩ := coerceAt_stores hv'
      exact ih (hrow.set hc hstores) h

theorem setRow_fit {sc : JoinScope} {old : Row} {sets : List (Nat × Expr)} {row row' : Row}
    (hrow : CellsFit td.cols row) (h : setRow env sc td old sets row = .ok row') :
    CellsFit td.cols row' := by
  induction sets generalizing row with
  | nil =>
    cases h
    exact hrow
  | cons p sets ih =>
    rw [setRow] at h
    obtain ⟨v, -, h⟩ := bind_eq_ok.mp h
    obtain ⟨v', hv', h⟩ := bind_eq_ok.mp h
    obtain ⟨c, hc, hstores⟩ := coerceAt_stores hv'
    split at h
    · exact ih (hrow.set hc hstores) h
    · cases h

/-- The parts of a prepared row. -/
theorem prepareRow_ok {idx : List Nat} {k : Nat}
    {key : Option Int64} (h : prepareRow env td table idx k exprs = .ok (row, key)) :
    fillRow env td idx exprs (List.replicate td.cols.length .null) = .ok row ∧
      insertKey td table row = .ok key ∧ checkNotNull table row td.cols.zipIdx = .ok () := by
  unfold prepareRow at h
  split at h
  · cases h
  · obtain ⟨row', hfill, h⟩ := bind_eq_ok.mp h
    obtain ⟨key', hkey, h⟩ := bind_eq_ok.mp h
    obtain ⟨_, hnull, h⟩ := bind_eq_ok.mp h
    cases h
    exact ⟨hfill, hkey, hnull⟩

theorem prepareRow_fit {idx : List Nat} {k : Nat}
    {key : Option Int64} (h : prepareRow env td table idx k exprs = .ok (row, key)) :
    CellsFit td.cols row := by
  refine fillRow_fit ?_ (prepareRow_ok h).1
  intro ci c x _ hx
  rw [List.getElem?_replicate] at hx
  split at hx
  · cases hx
    cases c.type <;> rfl
  · cases hx

/-! ## The primary key column -/

theorem keyColumn_primary (h : keyColumn cols = some p) :
    ∃ c, cols[p]? = some c ∧ c.primary = true := by
  obtain ⟨hlt, hp, -⟩ := List.findIdx?_eq_some_iff_getElem.mp h
  exact ⟨cols[p], List.getElem?_eq_getElem hlt, hp⟩

/-- A primary column is THE key column. -/
theorem keyColumn_of_primary (hone : cols.countP Column.primary ≤ 1) {ci : Nat}
    {c : Column} (hc : cols[ci]? = some c) (hp : c.primary = true) : keyColumn cols = some ci := by
  induction cols generalizing ci with
  | nil => cases hc
  | cons d cols ih =>
    rw [keyColumn, List.findIdx?_cons]
    cases ci with
    | zero =>
      cases hc
      rw [if_pos hp]
    | succ ci =>
      have hmem : c ∈ cols := List.mem_of_getElem? hc
      have hpos : 0 < cols.countP Column.primary := List.countP_pos_iff.mpr ⟨c, hmem, hp⟩
      have hd : ¬ d.primary = true := by
        intro hd
        rw [List.countP_cons_of_pos hd] at hone
        omega
      rw [List.countP_cons_of_neg hd] at hone
      rw [if_neg hd, show cols.findIdx? Column.primary = some ci from ih hone hc]
      rfl

/-- **Where a stored row comes from**, over the table it is stored in. -/
inductive Source (env : Env) (w : View) (rows : List Row) : Statement → Int64 → Row → Prop where
  | tuple {i : Insert} {td : TableDef} {table : String} {idx : List Nat} {k : Nat}
      {exprs : List Expr} {row : Row} {key id : Int64} (cols : td.cols = w.cols) (mem : row ∈ rows)
      (prepared : prepareRow env td table idx k exprs = .ok (row, some key))
      (id_eq : key ≠ 0 → id = key) : Source env w rows (.insert i) id row
  | numbered {i : Insert} {td : TableDef} {table : String} {idx : List Nat} {k : Nat}
      {exprs : List Expr} {row : Row} {p : Nat} {id : Int64} (cols : td.cols = w.cols)
      (mem : row ∈ rows) (prepared : prepareRow env td table idx k exprs = .ok (row, none))
      (key : keyColumn w.cols = some p) :
      Source env w rows (.insert i) id (Table.stampPK p id row)
  | changed {u : Update} {td : TableDef} {sets : List (Nat × Expr)} {c : Int64 × Row} {row : Row}
      {key : Option Int64} {id : Int64} (cols : td.cols = w.cols) (mem : row ∈ rows)
      (old : w.rows.get? c.1 = some c.2)
      (set : setRow env (singleTableScope td) td c.2 sets c.2 = .ok row)
      (key_eq : keyChange td row c.2 = .ok key) (stays : key = none → id = c.1)
      (moves : ∀ k, key = some k → k ≠ 0 → id = k) : Source env w rows (.update u) id row

theorem Writes.source {v : Tables} {pl : Plan} {stmt : Statement} {n : String} {id : Int64}
    (h : Writes env v pl stmt ⟨n, .put id row⟩) {w : View} (hw : v n = some w) :
    Source env w pl.rows stmt id row := by
  have hcols : ∀ {td}, Defines v n td → td.cols = w.cols := by
    intro td ⟨_, w', hw', heq⟩
    rw [hw] at hw'
    cases hw'
    exact heq.symm
  have hrow : ∀ {c}, IsRow v n c → w.rows.get? c.1 = some c.2 := by
    intro c ⟨w', hw', hget⟩
    rw [hw] at hw'
    cases hw'
    exact hget
  cases h with
  | inserted def_ mem prepared id_eq _ => exact .tuple (hcols def_) mem prepared id_eq
  | numbered def_ mem prepared key _ =>
    exact .numbered (hcols def_) mem prepared (by rw [← hcols def_]; exact key)
  | updated def_ isRow mem _ set key _ =>
    exact .changed (hcols def_) mem (hrow isRow) set key (fun _ => rfl) fun k hk => nomatch hk
  | moved def_ isRow mem set changed id_eq _ =>
    refine .changed (hcols def_) mem (hrow isRow) set changed (fun hk => nomatch hk) ?_
    rintro k ⟨⟩
    exact id_eq

section

variable {v : Tables} {rows : List Row} {stmt : Statement} {n : String} {id : Int64} {row : Row}
  {w : View}

/-! ## Kinds -/

/-- **The cells of a stored row** are of the kinds of their columns. -/
theorem Source.cellsFit (h : Source env w rows stmt id row) (hkeys : GoodKeys w.cols)
    (hold : ∀ id row, w.rows.get? id = some row → CellsFit w.cols row) : CellsFit w.cols row := by
  cases h with
  | tuple cols _ prepared =>
    rw [← cols]
    exact prepareRow_fit prepared
  | @numbered _ td _ _ _ _ row0 p _ cols _ prepared key =>
    intro ci c x hc hx
    by_cases hci : ci = p
    · subst hci
      rw [Table.eq_of_getElem?_stampPK hx]
      obtain ⟨c', hc', hprimary⟩ := keyColumn_primary key
      rw [hc] at hc'
      cases hc'
      rcases hkeys.int c (List.mem_of_getElem? hc) hprimary with ht | ht <;> rw [ht] <;> rfl
    · rw [Table.getElem?_stampPK_ne hci] at hx
      rw [← cols] at hc
      exact prepareRow_fit prepared ci c x hc hx
  | @changed _ td _ c _ _ _ cols _ old set =>
    have hfit := hold c.1 c.2 old
    rw [← cols] at hfit ⊢
    exact setRow_fit hfit set

/-! ## Primary keys -/

/-- The primary key of a row is its id. -/
def KeyIs (cols : List Column) (id : Int64) (row : Row) : Prop :=
  ∀ i ∈ keyColumn cols, row[i]? = some (.int id)

def isUpdate : Statement → Bool
  | .update _ => true
  | _ => false

/-- **The condition on the rows a statement computes**: no primary key is zero,
and no UPDATE makes one NULL. -/
def KeyGiven (cols : List Column) (stmt : Statement) (row : Row) : Prop :=
  ∀ i ∈ keyColumn cols, row[i]? ≠ some (.int 0) ∧ (isUpdate stmt = true → row[i]? ≠ some .null)

instance (cols : List Column) (stmt : Statement) (row : Row) :
    Decidable (KeyGiven cols stmt row) := by
  unfold KeyGiven
  infer_instance

theorem pkIndex_eq (cols : td.cols = w.cols) : pkIndex td = keyColumn w.cols := by
  rw [pkIndex, cols]
  rfl

theorem insertKey_some {key : Int64} (hp : pkIndex td = some p)
    (h : insertKey td table row = .ok (some key)) : row[p]? = some (.int key) := by
  unfold insertKey at h
  rw [hp] at h
  dsimp only at h
  split at h
  · split at h <;> cases h
  · next hcell =>
    cases h
    exact hcell
  · cases h
  · cases h

theorem insertKey_none (hp : pkIndex td = some p)
    (h : insertKey td table row = .ok none) : row[p]? = some .null := by
  unfold insertKey at h
  rw [hp] at h
  dsimp only at h
  split at h
  · assumption
  · cases h
  · cases h
  · cases h

theorem keyChange_some {old : Row} {k : Int64} (hp : pkIndex td = some p)
    (h : keyChange td row old = .ok (some k)) : row[p]? = some (.int k) := by
  unfold keyChange cell at h
  rw [hp] at h
  cases hnew : row[p]? with
  | none => simp [hnew, bind, Except.bind] at h
  | some x =>
    cases x with
    | int n =>
      cases hold : old[p]? with
      | none => simp [hnew, hold, bind, Except.bind] at h
      | some y =>
        cases y <;> simp [hnew, hold, bind, Except.bind, pure, Except.pure] at h
        rw [h.2]
    | _ => simp [hnew, bind, Except.bind, pure, Except.pure] at h

theorem keyChange_eq {old : Row} {k o : Int64} (hp : pkIndex td = some p)
    (hnew : row[p]? = some (.int k)) (hold : old[p]? = some (.int o)) :
    keyChange td row old = .ok (if k ≠ o then some k else none) := by
  unfold keyChange cell
  rw [hp]
  dsimp only
  rw [hnew, hold]
  rfl

theorem stores_int {ct : ColumnType} {x : Value} (ht : ct = .int ∨ ct = .bigint)
    (h : ct.stores x = true) : x = .null ∨ ∃ k, x = .int k := by
  rcases ht with rfl | rfl <;> cases x with
  | null => exact .inl rfl
  | int k => exact .inr ⟨k, rfl⟩
  | _ => cases h

/-- **The primary key of a stored row** is its id, if the key is given. -/
theorem Source.keyIs (h : Source env w rows stmt id row) (hkeys : GoodKeys w.cols)
    (hwidth : row.length = w.cols.length)
    (hfits : ∀ id row, w.rows.get? id = some row → CellsFit w.cols row)
    (hold : ∀ id row, w.rows.get? id = some row → KeyIs w.cols id row)
    (hgiven : ∀ row ∈ rows, KeyGiven w.cols stmt row) : KeyIs w.cols id row := by
  intro i hi
  have hlt : i < w.cols.length := (List.findIdx?_eq_some_iff_getElem.mp hi).1
  have hfit := h.cellsFit hkeys hfits
  cases h with
  | @tuple _ td _ _ _ _ _ key _ cols mem prepared id_eq =>
    have hcell := insertKey_some ((pkIndex_eq cols).trans hi) (prepareRow_ok prepared).2.1
    have hne : key ≠ 0 := by
      rintro rfl
      exact (hgiven row mem i hi).1 hcell
    rw [id_eq hne]
    exact hcell
  | numbered cols mem prepared key =>
    rw [hi] at key
    cases key
    rw [Table.stampPK_length] at hwidth
    rw [Table.stampPK_of_lt (by omega), List.getElem?_set_self (by omega)]
  | @changed _ td _ c _ key _ cols mem old set key_eq stays moves =>
    obtain ⟨hzero, hnull⟩ := hgiven row mem i hi
    obtain ⟨k, hk⟩ : ∃ k, row[i]? = some (.int k) := by
      have hx : row[i]? = some row[i] := List.getElem?_eq_getElem (by omega)
      obtain ⟨c', hc', hprimary⟩ := keyColumn_primary hi
      have hint := hkeys.int c' (List.mem_of_getElem? hc') hprimary
      rcases stores_int hint (hfit i c' _ hc' hx) with hcell | ⟨k, hcell⟩
      · rw [hx, hcell] at hnull
        exact absurd rfl (hnull rfl)
      · exact ⟨k, by rw [hx, hcell]⟩
    have hchange := keyChange_eq ((pkIndex_eq cols).trans hi) hk (hold c.1 c.2 old i hi)
    rw [key_eq] at hchange
    cases hchange
    rw [hk]
    by_cases hmove : k ≠ c.1
    · rw [moves k (if_pos hmove) (fun h0 => hzero (h0 ▸ hk))]
    · rw [stays (if_neg hmove), not_not.mp hmove]

/-! ## NOT NULL -/

/-- Columns declared NOT NULL hold values. -/
def NotNull (cols : List Column) (row : Row) : Prop :=
  ∀ p ∈ cols.zipIdx, p.1.notNull = true → row[p.2]? ≠ some .null

instance (cols : List Column) (row : Row) : Decidable (NotNull cols row) := by
  unfold NotNull
  infer_instance

theorem checkNotNull_ok {cols : List (Column × Nat)} (h : checkNotNull table row cols = .ok ()) :
    ∀ p ∈ cols, p.1.primary = false → p.1.notNull = true → row[p.2]? ≠ some .null := by
  induction cols with
  | nil =>
    intro p hp
    cases hp
  | cons q cols ih =>
    obtain ⟨c, i⟩ := q
    rw [checkNotNull] at h
    intro p hp hprimary hnot hnull
    rcases List.mem_cons.mp hp with rfl | hp
    · rw [if_neg (by rw [hprimary]; decide)] at h
      obtain ⟨x, hx, h⟩ := bind_eq_ok.mp h
      unfold cell at hx
      rw [hnull] at hx
      cases hx
      rw [if_pos (by rw [hnot]; rfl)] at h
      cases h
    · split at h
      · exact ih h p hp hprimary hnot hnull
      · obtain ⟨x, hx, h⟩ := bind_eq_ok.mp h
        split at h
        · cases h
        · exact ih h p hp hprimary hnot hnull

/-- **NOT NULL in a stored row**: INSERT checks it, with the primary key seen to
by itself; for UPDATE it is left to the values. -/
theorem Source.notNull (h : Source env w rows stmt id row) (hkeys : GoodKeys w.cols)
    (hgiven : isUpdate stmt = true → ∀ row ∈ rows, NotNull w.cols row) : NotNull w.cols row := by
  -- in a prepared row only the primary key may be left open
  have hprepared : ∀ {td table idx k exprs row0 key}, td.cols = w.cols →
      prepareRow env td table idx k exprs = .ok (row0, key) →
      ∀ p ∈ w.cols.zipIdx, p.1.notNull = true → row0[p.2]? = some .null →
        keyColumn w.cols = some p.2 := by
    intro td table idx k exprs row0 key cols prepared p hp hnot hnull
    have hcheck := checkNotNull_ok (prepareRow_ok prepared).2.2 p (cols ▸ hp)
    cases hprimary : p.1.primary with
    | false => exact absurd hnull (hcheck hprimary hnot)
    | true =>
      exact keyColumn_of_primary hkeys.one (List.mk_mem_zipIdx_iff_getElem?.mp hp) hprimary
  cases h with
  | tuple cols mem prepared id_eq =>
    intro p hp hnot hnull
    have hkey := hprepared cols prepared p hp hnot hnull
    rw [insertKey_some ((pkIndex_eq cols).trans hkey) (prepareRow_ok prepared).2.1] at hnull
    cases hnull
  | @numbered _ _ _ _ _ _ row0 p0 _ cols mem prepared key =>
    intro p hp hnot hnull
    by_cases hci : p.2 = p0
    · rw [hci] at hnull
      cases Table.eq_of_getElem?_stampPK hnull
    · rw [Table.getElem?_stampPK_ne hci] at hnull
      have hkey := hprepared cols prepared p hp hnot hnull
      rw [key] at hkey
      exact hci (Option.some.inj hkey).symm
  | changed cols mem old set key_eq stays moves => exact hgiven rfl row mem

end

end Executor

end Tsql
