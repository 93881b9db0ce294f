import Mathlib
import Tsql.Executor.Select
import Tsql.ValueOrder

/-!
# Integer results

What the executor computes from integers, against the whole numbers they
stand for.

COUNT is exact. MIN and MAX keep the best value so far, and "better" is
decided by `Value.compare`, which rounds to `float64`: they return the FIRST
value in the order of the rows whose rounded value is extremal. That is the
least (greatest) integer, in every order of the rows, exactly if no other
integer of the column is rounded to the same number as that one.

`+`, `-`, `*`, `/`, unary minus (which the parser writes as `0 - x`) and SUM
wrap modulo 2^64 and never fail; the zero test of a division is done on the
rounded divisor and is right all the same.
-/

namespace Tsql.Executor

/-! ## Extremal elements -/

section Extremal

variable {α β : Type} [LinearOrder β] {f : α → β} {R : α → α → Prop}

/-- The first of the list, if no other has a lower key. -/
theorem argmin_cons_of_le {a : α} {l : List α} (h : ∀ b ∈ l, f a ≤ f b) :
    (a :: l).argmin f = some a := by
  rw [List.argmin_cons]
  cases hl : l.argmin f with
  | none => rfl
  | some b => exact if_neg (not_lt.mpr (h b (List.argmin_mem hl)))

/-- **The least element is found in every order exactly if it alone has its
key.** The key may not tell two elements apart, but it does not reverse their
order. `L` are the orders: those of `l`, with every element first in one. -/
theorem argmin_orders_iff (hmono : ∀ a b, R a b → f a ≤ f b) {l : List α} {L : Set (List α)}
    (hperm : ∀ l' ∈ L, l'.Perm l) (hfirst : ∀ a ∈ l, ∃ rest, a :: rest ∈ L) {m : α} (hm : m ∈ l)
    (hleast : ∀ a ∈ l, R m a) :
    (∀ l' ∈ L, l'.argmin f = some m) ↔ ∀ a ∈ l, f a = f m → a = m := by
  constructor
  · intro h a ha hkey
    obtain ⟨rest, hrest⟩ := hfirst a ha
    have hargmin : (a :: rest).argmin f = some a := by
      refine argmin_cons_of_le fun b hb => ?_
      rw [hkey]
      exact hmono m b (hleast b ((hperm _ hrest).subset (List.mem_cons_of_mem a hb)))
    have hlow := h _ hrest
    rw [hargmin] at hlow
    exact Option.some.inj hlow
  · intro h l' hl'
    cases hargmin : l'.argmin f with
    | none =>
      have hnil := hperm l' hl'
      rw [List.argmin_eq_none.mp hargmin] at hnil
      rw [← hnil.nil_eq] at hm
      cases hm
    | some a =>
      have ha := (hperm l' hl').subset (List.argmin_mem hargmin)
      have hle := List.le_of_mem_argmin ((hperm l' hl').symm.subset hm) hargmin
      exact congrArg some (h a ha (le_antisymm hle (hmono m a (hleast a ha))))

end Extremal

/-! ## Integer columns -/

/-- NULL or an integer. -/
def IsInt (v : Value) : Prop := v = .null ∨ ∃ i, v = .int i

/-- The rows have an integer column at this position. -/
def IntColumn (pos : Nat) (rows : List Row) : Prop :=
  ∀ r ∈ rows, ∃ v, r[pos]? = some v ∧ IsInt v

/-- The integer of a cell; none for NULL. -/
def intAt (pos : Nat) (r : Row) : Option Int64 :=
  match r[pos]? with
  | some (.int i) => some i
  | _ => none

/-- The integers of the column, NULLs left out. -/
def ints (pos : Nat) (rows : List Row) : List Int64 := rows.filterMap (intAt pos)

section Columns

variable {pos : Nat} {rows rows' : List Row}

theorem ints_perm (h : rows'.Perm rows) : (ints pos rows').Perm (ints pos rows) :=
  h.filterMap _

/-- Every integer of the column is the first one in some order of the rows. -/
theorem exists_perm_ints {i : Int64} (h : i ∈ ints pos rows) :
    ∃ rest rows', rows'.Perm rows ∧ i :: rest = ints pos rows' := by
  obtain ⟨r, hr, hi⟩ := List.mem_filterMap.mp h
  obtain ⟨before, after, rfl⟩ := List.append_of_mem hr
  refine ⟨ints pos (before ++ after), r :: (before ++ after), List.perm_middle.symm, ?_⟩
  exact (List.filterMap_cons_some hi).symm

theorem IntColumn.perm (hcol : IntColumn pos rows) (h : rows'.Perm rows) : IntColumn pos rows' :=
  fun r hr => hcol r (h.subset hr)

/-- **An aggregate loop over an integer column** is a fold over its integers. -/
theorem aggregateLoop_ints {α : Type} {step : α → Value → Except Failure α} {f : α → Int64 → α}
    (hstep : ∀ acc i, step acc (.int i) = .ok (f acc i)) (hcol : IntColumn pos rows) (acc : α) :
    aggregateLoop (some pos) step acc rows = .ok ((ints pos rows).foldl f acc) := by
  induction rows generalizing acc with
  | nil => rfl
  | cons r rows ih =>
    obtain ⟨⟨v, hv, hint⟩, hrest⟩ := List.forall_mem_cons.mp hcol
    have hcell : argCell (some pos) r = .ok v := by
      rw [argCell, cell, hv]
    rw [aggregateLoop, hcell]
    rcases hint with rfl | ⟨i, rfl⟩
    · have hskip : ints pos (r :: rows) = ints pos rows :=
        List.filterMap_cons_none (by rw [intAt, hv])
      rw [hskip]
      exact ih hrest acc
    · have htake : ints pos (r :: rows) = i :: ints pos rows :=
        List.filterMap_cons_some (by rw [intAt, hv])
      have hstep' : (if (Value.int i).isNull = true then Except.ok acc else step acc (.int i))
          = .ok (f acc i) := hstep acc i
      rw [htake, List.foldl_cons, ← ih hrest (f acc i)]
      show ((if (Value.int i).isNull = true then Except.ok acc else step acc (.int i)) >>= fun acc =>
        aggregateLoop (some pos) step acc rows) = _
      rw [hstep']
      rfl

/-! ## COUNT, MIN and MAX -/

/-- The key by which `compare` puts integers in order. -/
def intKey (i : Int64) : Int := (F64.ofInt64 i).key

theorem intKey_mono {i j : Int64} (h : i ≤ j) : intKey i ≤ intKey j := key_ofInt64_mono h

theorem compare_int_lt (i j : Int64) :
    (Value.int i).compare (.int j) = .lt ↔ intKey i < intKey j := by
  rw [compare_of_num (u := .int i) (v := .int j) rfl rfl]
  exact (sorts_compareFloat (isNum_ofInt64 i) (isNum_ofInt64 j)).lt

theorem compare_int_gt (i j : Int64) :
    (Value.int i).compare (.int j) = .gt ↔ intKey j < intKey i := by
  rw [compare_of_num (u := .int i) (v := .int j) rfl rfl]
  exact (sorts_compareFloat (isNum_ofInt64 i) (isNum_ofInt64 j)).gt

/-- The running best, as a value. -/
theorem foldl_best {better : Ordering} {r : Int64 → Int64 → Prop} [DecidableRel r]
    (h : ∀ i j, (Value.int i).compare (.int j) = better ↔ r i j) (l : List Int64)
    (best : Option Int64) :
    l.foldl (fun (b : Option Value) i =>
        match b with
        | none => some (.int i)
        | some b => some (if (Value.int i).compare b = better then .int i else b))
      (best.map Value.int) = (l.foldl (List.argAux r) best).map Value.int := by
  induction l generalizing best with
  | nil => rfl
  | cons i l ih =>
    rw [List.foldl_cons, List.foldl_cons, ← ih]
    cases best with
    | none => rfl
    | some b =>
      by_cases hr : r i b
      · simp [List.argAux, h, hr]
      · simp [List.argAux, h, hr]

theorem evalAggregate_best {better : Ordering} {r : Int64 → Int64 → Prop} [DecidableRel r]
    (h : ∀ i j, (Value.int i).compare (.int j) = better ↔ r i j) (hcol : IntColumn pos rows) :
    aggregateLoop (some pos) (bestStep better) none rows
      = .ok (((ints pos rows).foldl (List.argAux r) none).map Value.int) := by
  rw [← foldl_best h (ints pos rows) none]
  refine aggregateLoop_ints (fun best i => ?_) hcol _
  cases best <;> rfl

/-- **MIN is the first value of lowest key.** -/
theorem evalAggregate_min (hcol : IntColumn pos rows) :
    evalAggregate .min false rows (some pos)
      = .ok ((((ints pos rows).argmin intKey).map Value.int).getD .null) := by
  rw [evalAggregate, evalAggregate_best compare_int_lt hcol]
  rfl

/-- **MAX is the first value of highest key.** -/
theorem evalAggregate_max (hcol : IntColumn pos rows) :
    evalAggregate .max false rows (some pos)
      = .ok ((((ints pos rows).argmax intKey).map Value.int).getD .null) := by
  rw [evalAggregate, evalAggregate_best compare_int_gt hcol]
  rfl

theorem evalAggregate_count (hcol : IntColumn pos rows) :
    evalAggregate .count false rows (some pos)
      = .ok (.int (Int64.ofNat (ints pos rows).length)) := by
  have hcount : ∀ (l : List Int64) (n : Nat),
      l.foldl (fun k (_ : Int64) => k + 1) (Int64.ofNat n) = Int64.ofNat (n + l.length) := by
    intro l
    induction l with
    | nil => exact fun n => rfl
    | cons i l ih =>
      intro n
      rw [List.foldl_cons, List.length_cons, ← Nat.succ_add_eq_add_succ,
        show Int64.ofNat n + 1 = Int64.ofNat (n + 1) from (Int64.ofNat_add n 1).symm]
      exact ih (n + 1)
  rw [evalAggregate, if_neg (by decide),
    aggregateLoop_ints (f := fun k _ => k + 1) (fun _ _ => rfl) hcol]
  have := hcount (ints pos rows) 0
  rw [Nat.zero_add] at this
  exact congrArg (fun n => Except.ok (Value.int n)) this

end Columns

/-- The result is the least element, in the order `le`; NULL if there is none. -/
def IsExtremum (le : Int64 → Int64 → Prop) (l : List Int64) (x : Except Failure Value) : Prop :=
  (l = [] ∧ x = .ok .null) ∨ ∃ m ∈ l, (∀ i ∈ l, le m i) ∧ x = .ok (.int m)

/-- **COUNT, MIN and MAX by their definitions**, and in every order of the
rows. -/
structure AggregatesExactly (pos : Nat) (rows : List Row) : Prop where
  countRows : ∃ n, evalAggregate .count true rows none = .ok (.int n) ∧ n.toInt = rows.length
  count : ∃ n, evalAggregate .count false rows (some pos) = .ok (.int n) ∧
    n.toInt = (ints pos rows).length
  min : IsExtremum (· ≤ ·) (ints pos rows) (evalAggregate .min false rows (some pos))
  max : IsExtremum (fun i j => j ≤ i) (ints pos rows) (evalAggregate .max false rows (some pos))
  order : ∀ rows' : List Row, rows'.Perm rows →
    evalAggregate .count true rows' none = evalAggregate .count true rows none ∧
    ∀ name ∈ [FuncName.count, .min, .max],
      evalAggregate name false rows' (some pos) = evalAggregate name false rows (some pos)

/-- The least and the greatest integer are not rounded to the `float64` of
another integer of the column. -/
def EndsApart (l : List Int64) : Prop :=
  ∀ m ∈ l, (∀ i ∈ l, m ≤ i) ∨ (∀ i ∈ l, i ≤ m) →
    ∀ i ∈ l, ¬ (Value.int m).Merged (.int i)

section

variable {pos : Nat} {rows : List Row}

theorem toInt_ofNat_length {α : Type} {l : List α} (h : l.length < 2 ^ 63) :
    (Int64.ofNat l.length).toInt = l.length :=
  Int64.toInt_ofNat_of_lt h

theorem merged_iff_intKey (m i : Int64) :
    (Value.int m).Merged (.int i) ↔ i ≠ m ∧ intKey i = intKey m := by
  have hkey := (Binary64.lt_eq_iff_key ((isNum_iff _).mp (isNum_ofInt64 m))
    ((isNum_iff _).mp (isNum_ofInt64 i))).2
  exact and_congr ne_comm (hkey.trans eq_comm)

theorem exists_least {l : List Int64} (h : l ≠ []) : ∃ m ∈ l, ∀ i ∈ l, m ≤ i := by
  cases hm : l.argmin Int64.toInt with
  | none => exact absurd (List.argmin_eq_none.mp hm) h
  | some m =>
    exact ⟨m, List.argmin_mem hm, fun i hi =>
      Int64.le_iff_toInt_le.mpr (List.le_of_mem_argmin hi hm)⟩

theorem exists_greatest {l : List Int64} (h : l ≠ []) : ∃ m ∈ l, ∀ i ∈ l, i ≤ m := by
  cases hm : l.argmax Int64.toInt with
  | none => exact absurd (List.argmax_eq_none.mp hm) h
  | some m =>
    exact ⟨m, List.argmax_mem hm, fun i hi =>
      Int64.le_iff_toInt_le.mpr (List.le_of_mem_argmax hi hm)⟩

/-- One of MIN and MAX, as the aggregate that keeps the value of lowest key. -/
theorem isExtremum_iff {β : Type} [LinearOrder β] {f : Int64 → β} {R : Int64 → Int64 → Prop}
    (hmono : ∀ i j, R i j → f i ≤ f j) (hantisymm : ∀ i j, R i j → R j i → i = j)
    (hexists : ∀ l : List Int64, l ≠ [] → ∃ m ∈ l, ∀ i ∈ l, R m i)
    {agg : List Row → Except Failure Value}
    (hagg : ∀ rows, IntColumn pos rows →
      agg rows = .ok ((((ints pos rows).argmin f).map Value.int).getD .null))
    (hcol : IntColumn pos rows) :
    (IsExtremum R (ints pos rows) (agg rows) ∧
        ∀ rows' : List Row, rows'.Perm rows → agg rows' = agg rows) ↔
      ∀ m ∈ ints pos rows, (∀ i ∈ ints pos rows, R m i) →
        ∀ i ∈ ints pos rows, f i = f m → i = m := by
  have horders : ∀ m ∈ ints pos rows, (∀ i ∈ ints pos rows, R m i) →
      ((∀ rows' : List Row, rows'.Perm rows → agg rows' = .ok (.int m)) ↔
        ∀ i ∈ ints pos rows, f i = f m → i = m) := by
    intro m hm hleast
    rw [← argmin_orders_iff hmono (L := {l | ∃ rows' : List Row, rows'.Perm rows ∧
      l = ints pos rows'}) ?_ ?_ hm hleast]
    · constructor
      · rintro h l ⟨rows', hperm, rfl⟩
        have hvalue := (hagg rows' (hcol.perm hperm)).symm.trans (h rows' hperm)
        cases hargmin : (ints pos rows').argmin f with
        | none =>
          rw [hargmin] at hvalue
          cases hvalue
        | some i =>
          rw [hargmin] at hvalue
          cases hvalue
          rfl
      · intro h rows' hperm
        rw [hagg rows' (hcol.perm hperm), h _ ⟨rows', hperm, rfl⟩]
        rfl
    · rintro l ⟨rows', hperm, rfl⟩
      exact ints_perm hperm
    · intro i hi
      exact exists_perm_ints hi
  constructor
  · rintro ⟨hextremum, horder⟩ m hm hleast
    rcases hextremum with ⟨hnil, -⟩ | ⟨m', hm', hleast', hvalue⟩
    · rw [hnil] at hm
      cases hm
    · have hsame := hantisymm m m' (hleast m' hm') (hleast' m hm)
      subst hsame
      exact (horders m hm hleast).mp fun rows' hperm => (horder rows' hperm).trans hvalue
  · intro h
    by_cases hnil : ints pos rows = []
    · have hnull : ∀ rows' : List Row, rows'.Perm rows → agg rows' = .ok .null := by
        intro rows' hperm
        have hnil' : (ints pos rows').Perm (ints pos rows) := ints_perm hperm
        rw [hnil] at hnil'
        rw [hagg rows' (hcol.perm hperm), hnil'.eq_nil]
        rfl
      have hrows := hnull rows (List.Perm.refl rows)
      exact ⟨.inl ⟨hnil, hrows⟩, fun rows' hperm => (hnull rows' hperm).trans hrows.symm⟩
    · obtain ⟨m, hm, hleast⟩ := hexists _ hnil
      have hall := (horders m hm hleast).mpr (h m hm hleast)
      have hrows := hall rows (List.Perm.refl rows)
      exact ⟨.inr ⟨m, hm, hleast, hrows⟩, fun rows' hperm => (hall rows' hperm).trans hrows.symm⟩

end

/-- **COUNT, MIN and MAX are exact in every order of the rows** exactly if the
ends of the column are told apart from its other integers. The length of a
slice is an `int`. -/
theorem aggregates_exactly_iff {pos : Nat} {rows : List Row} (hcol : IntColumn pos rows)
    (hlen : rows.length < 2 ^ 63) :
    AggregatesExactly pos rows ↔ EndsApart (ints pos rows) := by
  have hapart : EndsApart (ints pos rows) ↔
      (∀ m ∈ ints pos rows, (∀ i ∈ ints pos rows, m ≤ i) →
        ∀ i ∈ ints pos rows, intKey i = intKey m → i = m) ∧
      ∀ m ∈ ints pos rows, (∀ i ∈ ints pos rows, i ≤ m) →
        ∀ i ∈ ints pos rows, intKey i = intKey m → i = m := by
    simp only [EndsApart, merged_iff_intKey, ne_eq, not_and, not_imp_not]
    constructor
    · intro h
      exact ⟨fun m hm hend => h m hm (.inl hend), fun m hm hend => h m hm (.inr hend)⟩
    · rintro ⟨hmin, hmax⟩ m hm (hend | hend)
      · exact hmin m hm hend
      · exact hmax m hm hend
  have hmin := isExtremum_iff (f := intKey) (R := (· ≤ ·)) (fun _ _ => intKey_mono)
    (fun _ _ => Int64.le_antisymm) (fun _ => exists_least) (fun _ => evalAggregate_min) hcol
  -- the greatest is the least in the order turned around
  have hmax := isExtremum_iff (f := fun i => OrderDual.toDual (intKey i)) (R := fun i j => j ≤ i)
    (fun _ _ h => intKey_mono h) (fun _ _ h h' => Int64.le_antisymm h' h)
    (fun _ => exists_greatest) (fun _ => evalAggregate_max) hcol
  refine Iff.trans ?_ ((and_congr hmin hmax).trans hapart.symm)
  constructor
  · intro h
    exact ⟨⟨h.min, fun rows' hperm => (h.order rows' hperm).2 _ (by simp)⟩,
      h.max, fun rows' hperm => (h.order rows' hperm).2 _ (by simp)⟩
  · rintro ⟨⟨hmin, hminOrder⟩, hmax, hmaxOrder⟩
    have hints : (ints pos rows).length < 2 ^ 63 :=
      (List.length_filterMap_le _ _).trans_lt hlen
    refine ⟨⟨_, rfl, toInt_ofNat_length hlen⟩, ⟨_, evalAggregate_count hcol,
      toInt_ofNat_length hints⟩, hmin, hmax, fun rows' hperm => ⟨?_, ?_⟩⟩
    · show Except.ok (Value.int (Int64.ofNat rows'.length)) = _
      rw [hperm.length_eq]
      rfl
    · intro name hname
      simp only [List.mem_cons, List.not_mem_nil, or_false] at hname
      rcases hname with rfl | rfl | rfl
      · rw [evalAggregate_count hcol, evalAggregate_count (hcol.perm hperm),
          (ints_perm hperm).length_eq]
      · exact hminOrder rows' hperm
      · exact hmaxOrder rows' hperm

/-- A column with a NULL, whose ends are far from the rounding. -/
theorem intColumn_small : IntColumn 0 [[.int 2], [.null], [.int 1]] := by
  intro r hr
  simp only [List.mem_cons, List.not_mem_nil, or_false] at hr
  rcases hr with rfl | rfl | rfl
  · exact ⟨_, rfl, .inr ⟨2, rfl⟩⟩
  · exact ⟨_, rfl, .inl rfl⟩
  · exact ⟨_, rfl, .inr ⟨1, rfl⟩⟩

theorem aggregates_exactly_iff_small :
    AggregatesExactly 0 [[.int 2], [.null], [.int 1]] := by
  have hints : ints 0 [[.int 2], [.null], [.int 1]] = [2, 1] := rfl
  refine (aggregates_exactly_iff intColumn_small (by decide)).mpr ?_
  rw [hints]
  intro m hm _ i hi
  rw [merged_iff_intKey]
  simp only [List.mem_cons, List.not_mem_nil, or_false] at hm hi
  rcases hm with rfl | rfl <;> rcases hi with rfl | rfl <;> decide +kernel

/-- **MIN depends on the order of the rows**: of two integers that are rounded
to the same `float64` it returns the first. -/
theorem min_returns_first :
    evalAggregate .min false [[.int 9007199254740993], [.int 9007199254740992]] (some 0)
      = .ok (.int 9007199254740993) ∧
    evalAggregate .min false [[.int 9007199254740992], [.int 9007199254740993]] (some 0)
      = .ok (.int 9007199254740992) ∧
    (9007199254740992 : Int64) < 9007199254740993 := by
  decide +kernel

/-! ## Arithmetic -/

/-- The operators on whole numbers. -/
def exactOp (op : BinOp) (a b : Int) : Int :=
  match op with
  | .add => a + b
  | .sub => a - b
  | .mul => a * b
  | .div => a.tdiv b
  | .mod => a.tmod b

/-- One operator; none is NULL. -/
def exactBinary (op : BinOp) : Option Int → Option Int → Except Failure (Option Int)
  | some a, some b =>
    if (op = .div ∨ op = .mod) ∧ b = 0 then sqlErr .divisionByZero
    else .ok (some (exactOp op a b))
  | _, _ => .ok none

/-- **What an arithmetic expression comes to over the whole numbers.** -/
def exactValue (sc : JoinScope) (row : Row) : Expr → Except Failure (Option Int)
  | .lit (.int i) => .ok (some i.toInt)
  | .colRef table name => do
    let pos ← sc.resolve table name
    let v ← cell row pos
    match v with
    | .int i => .ok (some i.toInt)
    | _ => .ok none
  | .binary op l r => do
    let a ← exactValue sc row l
    let b ← exactValue sc row r
    exactBinary op a b
  | _ => .ok none

/-- An expression of operators over integer literals and columns that hold
integers. -/
def Arithmetic (sc : JoinScope) (row : Row) : Expr → Prop
  | .lit v => ∃ i, v = .int i
  | .colRef table name =>
    ∀ pos v, sc.resolve table name = .ok pos → row[pos]? = some v → IsInt v
  | .binary _ l r => Arithmetic sc row l ∧ Arithmetic sc row r
  | _ => False

/-- The expression and the operands that its evaluation evaluates: the right
one only if the left one gives a value. -/
def evaluated (env : Env) (sc : JoinScope) (row : Row) (gc : GroupCtx) : Expr → List Expr
  | .binary op l r => .binary op l r :: (evaluated env sc row gc l ++
      if (evalValueCtx env sc row gc l).isOk then evaluated env sc row gc r else [])
  | e => [e]

/-- An `int64`. -/
def Fits (n : Int) : Prop := -2 ^ 63 ≤ n ∧ n < 2 ^ 63

/-- The total of an integer column; NULL if it has no integer. -/
def exactSum (pos : Nat) (rows : List Row) : Except Failure (Option Int) :=
  .ok (if ints pos rows = [] then none else some ((ints pos rows).map Int64.toInt).sum)

/-- **The result is exact or an error**: an integer is the exact value, any
other result is NULL, and a division by zero is the error of that name. -/
structure ExactOrError (x : Except Failure Value) (exact : Except Failure (Option Int)) : Prop where
  int : ∀ i, x = .ok (.int i) → exact = .ok (some i.toInt)
  other : ∀ v, x = .ok v → IsInt v
  zero : exact = sqlErr .divisionByZero → x = sqlErr .divisionByZero

/-- The value of an exact result that fits. -/
def ofExact : Option Int → Value
  | none => .null
  | some n => .int (Int64.ofInt n)

theorem bmod_eq_self_iff (n : Int) : n.bmod (2 ^ 64) = n ↔ Fits n := by
  constructor
  · intro h
    have hlt := Int.bmod_lt (x := n) (m := 2 ^ 64) (by decide)
    have hle := Int.le_bmod (x := n) (m := 2 ^ 64) (by decide)
    rw [h] at hlt hle
    unfold Fits
    omega
  · rintro ⟨hle, hlt⟩
    exact Int.bmod_eq_of_le (by omega) (by omega)

theorem fits_toInt (i : Int64) : Fits i.toInt := ⟨i.le_toInt, i.toInt_lt⟩

/-- **Every operator of the source is the exact one, wrapped.** -/
theorem toInt_intArithmetic (op : BinOp) (a b : Int64) :
    (intArithmetic op a b).toInt = (exactOp op a.toInt b.toInt).bmod (2 ^ 64) := by
  cases op with
  | add => exact Int64.toInt_add a b
  | sub => exact Int64.toInt_sub a b
  | mul => exact Int64.toInt_mul a b
  | div => exact Int64.toInt_div a b
  | mod =>
    show (a % b).toInt = (a.toInt.tmod b.toInt).bmod (2 ^ 64)
    rw [← Int64.toInt_mod]
    exact ((bmod_eq_self_iff _).mpr (fits_toInt _)).symm

/-- The zero test on the rounded divisor is right. -/
theorem eq_zero_iff (j : Int64) : (F64.ofInt64 j).eq (.ofInt64 0) = true ↔ j.toInt = 0 := by
  have hkey := (Binary64.lt_eq_iff_key ((isNum_iff _).mp (isNum_ofInt64 j))
    ((isNum_iff _).mp (isNum_ofInt64 0))).2
  refine hkey.trans ⟨fun h => ?_, fun h => ?_⟩
  · -- an integer other than zero is at least as far from it as 1 or -1
    have hone : intKey 0 < intKey 1 := by decide +kernel
    have hminus : intKey (-1) < intKey 0 := by decide +kernel
    by_contra hne
    rcases Int.lt_or_gt_of_ne hne with hneg | hpos
    · have hle : j ≤ -1 := Int64.le_iff_toInt_le.mpr (by show j.toInt ≤ -1; omega)
      exact absurd h (ne_of_lt ((intKey_mono hle).trans_lt hminus))
    · have hle : 1 ≤ j := Int64.le_iff_toInt_le.mpr (by show 1 ≤ j.toInt; omega)
      exact absurd h (ne_of_gt (hone.trans_le (intKey_mono hle)))
  · have hzero : j = 0 := Int64.toInt_inj.mp h
    rw [hzero]

theorem arithmetic_int (op : BinOp) (a b : Int64) :
    arithmetic op (.int a) (.int b) =
      if (op = .div ∨ op = .mod) ∧ b.toInt = 0 then sqlErr .divisionByZero
      else .ok (.int (intArithmetic op a b)) := by
  unfold arithmetic
  simp only [Value.num?, eq_zero_iff]

theorem toInt_ofInt_of_fits {n : Int} (h : Fits n) : (Int64.ofInt n).toInt = n := by
  rw [Int64.toInt_ofInt]
  exact (bmod_eq_self_iff n).mpr h

/-- The executor's binary operators over operands that fit: the exact result,
wrapped, or else NULL or the error. -/
theorem binary_cases (op : BinOp) {a b : Option Int} (ha : ∀ n, a = some n → Fits n)
    (hb : ∀ n, b = some n → Fits n) :
    (∃ n i, exactBinary op a b = .ok (some n) ∧
      (if (ofExact a).isNull || (ofExact b).isNull then .ok .null
        else arithmetic op (ofExact a) (ofExact b)) = .ok (.int i) ∧
      i.toInt = n.bmod (2 ^ 64)) ∨
    ((∀ n, exactBinary op a b ≠ .ok (some n)) ∧
      (if (ofExact a).isNull || (ofExact b).isNull then .ok .null
        else arithmetic op (ofExact a) (ofExact b)) = (exactBinary op a b).map ofExact) := by
  cases a with
  | none => exact .inr ⟨fun n h => (nomatch h), rfl⟩
  | some a =>
    cases b with
    | none => exact .inr ⟨fun n h => (nomatch h), rfl⟩
    | some b =>
      have ha' := toInt_ofInt_of_fits (ha a rfl)
      have hb' := toInt_ofInt_of_fits (hb b rfl)
      have hcode := arithmetic_int op (Int64.ofInt a) (Int64.ofInt b)
      rw [hb'] at hcode
      by_cases hzero : (op = .div ∨ op = .mod) ∧ b = 0
      · rw [if_pos hzero] at hcode
        have hexact : exactBinary op (some a) (some b) = sqlErr .divisionByZero := if_pos hzero
        rw [hexact]
        exact .inr ⟨fun n h => (nomatch h), hcode⟩
      · rw [if_neg hzero] at hcode
        have hwrap := toInt_intArithmetic op (Int64.ofInt a) (Int64.ofInt b)
        rw [ha', hb'] at hwrap
        exact .inl ⟨exactOp op a b, _, if_neg hzero, hcode, hwrap⟩

section Arithmetic

variable (env : Env) {sc : JoinScope} {row : Row} (gc : GroupCtx)

theorem mem_evaluated_self (e : Expr) : e ∈ evaluated env sc row gc e := by
  cases e <;> simp [evaluated]

theorem mem_evaluated_binary {op : BinOp} {l r p : Expr} :
    p ∈ evaluated env sc row gc (.binary op l r) ↔
      p = .binary op l r ∨ p ∈ evaluated env sc row gc l ∨
        (evalValueCtx env sc row gc l).isOk ∧ p ∈ evaluated env sc row gc r := by
  rw [evaluated]
  split <;> simp [*]

theorem evaluated_trans {e p q : Expr} (hp : p ∈ evaluated env sc row gc e)
    (hq : q ∈ evaluated env sc row gc p) : q ∈ evaluated env sc row gc e := by
  match e with
  | .binary op l r =>
    rcases (mem_evaluated_binary env gc).mp hp with rfl | hp | ⟨hok, hp⟩
    · exact hq
    · exact (mem_evaluated_binary env gc).mpr (.inr (.inl (evaluated_trans hp hq)))
    · exact (mem_evaluated_binary env gc).mpr (.inr (.inr ⟨hok, evaluated_trans hp hq⟩))
  | .lit _ | .colRef .. | .func .. | .cmp .. | .isNull .. | .and .. | .or .. | .not _ | .inList ..
  | .inSub .. =>
    rw [evaluated, List.mem_singleton] at hp
    · rwa [hp] at hq
    · intro op l r h
      cases h

theorem Arithmetic.evaluated {e p : Expr} (he : Arithmetic sc row e)
    (hp : p ∈ evaluated env sc row gc e) : Arithmetic sc row p := by
  match e with
  | .binary op l r =>
    rcases (mem_evaluated_binary env gc).mp hp with rfl | hp | ⟨-, hp⟩
    · exact he
    · exact Arithmetic.evaluated he.1 hp
    · exact Arithmetic.evaluated he.2 hp
  | .lit _ | .colRef .. =>
    rw [List.mem_singleton.mp hp]
    exact he

/-- What a leaf comes to. -/
theorem evalValueCtx_leaf {e : Expr} (he : Arithmetic sc row e)
    (hleaf : ∀ op l r, e ≠ .binary op l r) :
    evalValueCtx env sc row gc e = (exactValue sc row e).map ofExact := by
  cases e with
  | lit v =>
    obtain ⟨i, rfl⟩ := he
    show _ = Except.ok (Value.int (Int64.ofInt i.toInt))
    rw [Int64.ofInt_toInt]
    rfl
  | colRef table name =>
    rw [evalValueCtx, exactValue]
    cases hres : sc.resolve table name with
    | error err => rfl
    | ok pos =>
      show cell row pos = Except.map ofExact (cell row pos >>= _)
      unfold cell
      cases hcell : row[pos]? with
      | none => rfl
      | some v =>
        rcases he pos v hres hcell with rfl | ⟨i, rfl⟩
        · rfl
        · show _ = Except.ok (Value.int (Int64.ofInt i.toInt))
          rw [Int64.ofInt_toInt]
  | binary op l r => exact absurd rfl (hleaf op l r)
  | _ => exact he.elim

theorem fits_leaf {e : Expr} {n : Int} (hleaf : ∀ op l r, e ≠ .binary op l r)
    (hn : exactValue sc row e = .ok (some n)) : Fits n := by
  cases e with
  | lit v =>
    cases v <;> cases hn
    exact fits_toInt _
  | colRef table name =>
    rw [exactValue] at hn
    obtain ⟨pos, -, hn⟩ := bind_eq_ok.mp hn
    obtain ⟨v, -, hn⟩ := bind_eq_ok.mp hn
    cases v <;> cases hn
    exact fits_toInt _
  | binary op l r => exact absurd rfl (hleaf op l r)
  | _ => cases hn

/-- **An expression is computed exactly** if all that is evaluated fits. -/
theorem evalValueCtx_of_fits : (e : Expr) → Arithmetic sc row e →
    (∀ p ∈ evaluated env sc row gc e, ∀ n, exactValue sc row p = .ok (some n) → Fits n) →
    evalValueCtx env sc row gc e = (exactValue sc row e).map ofExact
  | .binary op l r, he, h => by
    simp only [mem_evaluated_binary] at h
    have hl := evalValueCtx_of_fits l he.1 fun p hp => h p (.inr (.inl hp))
    rw [exactValue, evalValueCtx, hl]
    cases hxl : exactValue sc row l with
    | error err => rfl
    | ok a =>
      rw [hxl] at hl
      have hok : (evalValueCtx env sc row gc l).isOk := by
        rw [hl]
        rfl
      rw [evalValueCtx_of_fits r he.2 fun p hp => h p (.inr (.inr ⟨hok, hp⟩))]
      cases hxr : exactValue sc row r with
      | error err => rfl
      | ok b =>
        have hself := h _ (.inl rfl)
        rw [exactValue, hxl, hxr] at hself
        rcases binary_cases op
          (fun n hn => h l (.inr (.inl (mem_evaluated_self env gc l))) n (hn ▸ hxl))
          (fun n hn => h r (.inr (.inr ⟨hok, mem_evaluated_self env gc r⟩)) n (hn ▸ hxr)) with
          ⟨n, i, hexact, hcode, hwrap⟩ | ⟨-, hcode⟩
        · refine hcode.trans ?_
          rw [(bmod_eq_self_iff n).mpr (hself n hexact)] at hwrap
          show _ = (exactBinary op a b).map ofExact
          rw [hexact]
          show _ = Except.ok (Value.int (Int64.ofInt n))
          rw [← hwrap, Int64.ofInt_toInt]
        · exact hcode
  | .lit v, he, _ => evalValueCtx_leaf env gc he fun op l r h => by cases h
  | .colRef table name, he, _ => evalValueCtx_leaf env gc he fun op l r h => by cases h

/-- **What is evaluated exactly fits.** -/
theorem fits_of_exactOrError : (e : Expr) → Arithmetic sc row e →
    (∀ p ∈ evaluated env sc row gc e,
      ExactOrError (evalValueCtx env sc row gc p) (exactValue sc row p)) →
    ∀ p ∈ evaluated env sc row gc e, ∀ n, exactValue sc row p = .ok (some n) → Fits n
  | .binary op l r, he, h => by
    simp only [mem_evaluated_binary] at h ⊢
    have hl := fits_of_exactOrError l he.1 fun p hp => h p (.inr (.inl hp))
    have hr := fun hok => fits_of_exactOrError r he.2 fun p hp => h p (.inr (.inr ⟨hok, hp⟩))
    rintro p (rfl | hp | ⟨hok, hp⟩) n hn
    · have hself := h (.binary op l r) (.inl rfl)
      have hleft := evalValueCtx_of_fits env gc l he.1 hl
      rw [exactValue] at hn hself
      obtain ⟨a, hxl, hn⟩ := bind_eq_ok.mp hn
      obtain ⟨b, hxr, hn⟩ := bind_eq_ok.mp hn
      have hok : (evalValueCtx env sc row gc l).isOk := by
        rw [hleft, hxl]
        rfl
      rw [evalValueCtx, hleft, evalValueCtx_of_fits env gc r he.2 (hr hok), hxl, hxr] at hself
      rcases binary_cases op (fun n hn => hl l (mem_evaluated_self env gc l) n (hn ▸ hxl))
        (fun n hn => hr hok r (mem_evaluated_self env gc r) n (hn ▸ hxr)) with
        ⟨n', i, hexact, hcode, -⟩ | ⟨hnone, -⟩
      · have hint := hself.int i hcode
        have heq : Except.ok (some n) = (Except.ok (some i.toInt) : Except Failure _) :=
          hn.symm.trans hint
        cases heq
        exact fits_toInt i
      · exact absurd hn (hnone n)
    · exact hl p hp n hn
    · exact hr hok p hp n hn
  | .lit v, _, _ => by
    intro p hp n hn
    rw [List.mem_singleton.mp hp] at hn
    exact fits_leaf (fun op l r h => by cases h) hn
  | .colRef table name, _, _ => by
    intro p hp n hn
    rw [List.mem_singleton.mp hp] at hn
    exact fits_leaf (fun op l r h => by cases h) hn

end Arithmetic

theorem exactOrError_map {exact : Except Failure (Option Int)}
    (h : ∀ n, exact = .ok (some n) → Fits n) : ExactOrError (exact.map ofExact) exact := by
  cases exact with
  | error err =>
    refine ⟨fun i hi => (nomatch hi), fun v hv => (nomatch hv), fun hzero => ?_⟩
    cases hzero
    rfl
  | ok o =>
    cases o with
    | none =>
      refine ⟨fun i hi => (nomatch hi), fun v hv => ?_, fun hzero => (nomatch hzero)⟩
      cases hv
      exact .inl rfl
    | some n =>
      refine ⟨fun i hi => ?_, fun v hv => ?_, fun hzero => (nomatch hzero)⟩
      · cases hi
        rw [toInt_ofInt_of_fits (h n rfl)]
      · cases hv
        exact .inr ⟨_, rfl⟩

/-! ## SUM -/

theorem toInt_foldl_add (l : List Int64) (a : Int64) :
    (l.foldl (· + ·) a).toInt = (a.toInt + (l.map Int64.toInt).sum).bmod (2 ^ 64) := by
  induction l generalizing a with
  | nil =>
    rw [List.map_nil, List.sum_nil, Int.add_zero]
    exact ((bmod_eq_self_iff _).mpr (fits_toInt a)).symm
  | cons i l ih =>
    rw [List.foldl_cons, ih, Int64.toInt_add, Int.bmod_add_bmod, List.map_cons, List.sum_cons,
      Int.add_assoc]

/-- **SUM is the exact total, wrapped.** -/
theorem evalAggregate_sum {pos : Nat} {rows : List Row} (hcol : IntColumn pos rows) :
    evalAggregate .sum false rows (some pos)
      = .ok (if ints pos rows = [] then .null else .int ((ints pos rows).foldl (· + ·) 0)) := by
  have hfold : ∀ (l : List Int64) (st : SumState),
      l.foldl (fun st i => { st with sumI := st.sumI + i, any := true }) st
        = { st with sumI := l.foldl (· + ·) st.sumI, any := st.any || !l.isEmpty } := by
    intro l
    induction l with
    | nil => intro st; simp
    | cons i l ih => intro st; simp [ih]
  rw [evalAggregate, aggregateLoop_ints
    (f := fun st i => { st with sumI := st.sumI + i, any := true }) (fun _ _ => rfl) hcol,
    hfold]
  cases ints pos rows with
  | nil => rfl
  | cons i l => rfl

theorem exactOrError_sum_iff {pos : Nat} {rows : List Row} (hcol : IntColumn pos rows) :
    ExactOrError (evalAggregate .sum false rows (some pos)) (exactSum pos rows) ↔
      Fits ((ints pos rows).map Int64.toInt).sum := by
  have hwrap := toInt_foldl_add (ints pos rows) 0
  rw [show (0 : Int64).toInt = 0 from rfl, Int.zero_add] at hwrap
  rw [evalAggregate_sum hcol, exactSum]
  by_cases hnil : ints pos rows = []
  · rw [if_pos hnil, if_pos hnil, hnil]
    refine iff_of_true ⟨fun i hi => (nomatch hi), fun v hv => ?_, fun hzero => (nomatch hzero)⟩
      (fits_toInt 0)
    cases hv
    exact .inl rfl
  · rw [if_neg hnil, if_neg hnil]
    constructor
    · intro h
      have hint := h.int _ rfl
      have htotal := Option.some.inj (Except.ok.inj hint)
      rw [htotal]
      exact fits_toInt _
    · intro h
      rw [(bmod_eq_self_iff _).mpr h] at hwrap
      refine ⟨fun i hi => ?_, fun v hv => ?_, fun hzero => (nomatch hzero)⟩
      · cases hi
        rw [hwrap]
      · cases hv
        exact .inr ⟨_, rfl⟩

/-- **Integer results are exact or an error** exactly as long as they fit: an
arithmetic expression with all its operands that are evaluated if no exact
value of one leaves `int64`, and a SUM if the total does not. -/
theorem integers_exact_iff (env : Env) (sc : JoinScope) (row : Row) (gc : GroupCtx) (e : Expr)
    (he : Arithmetic sc row e) (pos : Nat) (rows : List Row) (hcol : IntColumn pos rows) :
    ((∀ p ∈ evaluated env sc row gc e,
        ExactOrError (evalValueCtx env sc row gc p) (exactValue sc row p)) ↔
      ∀ p ∈ evaluated env sc row gc e, ∀ n, exactValue sc row p = .ok (some n) → Fits n) ∧
    (ExactOrError (evalAggregate .sum false rows (some pos)) (exactSum pos rows) ↔
      Fits ((ints pos rows).map Int64.toInt).sum) := by
  refine ⟨⟨fits_of_exactOrError env gc e he, fun hfits p hp => ?_⟩, exactOrError_sum_iff hcol⟩
  rw [evalValueCtx_of_fits env gc p (he.evaluated env gc hp) fun q hq =>
    hfits q (evaluated_trans env gc hp hq)]
  exact exactOrError_map (hfits p hp)

/-- `-7 / 2` is `-3`, truncated, and the sum of 2, NULL and 1 is 3. -/
theorem integers_exact_iff_quotient :
    (ExactOrError (evalValueCtx epochEnv [] [] none (.binary .div (.lit (.int (-7))) (.lit (.int 2))))
        (exactValue [] [] (.binary .div (.lit (.int (-7))) (.lit (.int 2)))) ∧
      exactValue [] [] (.binary .div (.lit (.int (-7))) (.lit (.int 2))) = .ok (some (-3))) ∧
    ExactOrError (evalAggregate .sum false [[.int 2], [.null], [.int 1]] (some 0))
        (exactSum 0 [[.int 2], [.null], [.int 1]]) ∧
      exactSum 0 [[.int 2], [.null], [.int 1]] = .ok (some 3) := by
  have hexact := integers_exact_iff epochEnv [] [] none
    (.binary .div (.lit (.int (-7))) (.lit (.int 2))) ⟨⟨_, rfl⟩, ⟨_, rfl⟩⟩ 0 _ intColumn_small
  refine ⟨⟨hexact.1.mpr ?_ _ (mem_evaluated_self _ _ _), rfl⟩,
    hexact.2.mpr ⟨by decide, by decide⟩, rfl⟩
  intro p hp n hn
  rcases (mem_evaluated_binary epochEnv none).mp hp with rfl | hp | ⟨-, hp⟩
  · cases hn
    exact ⟨by decide, by decide⟩
  · rw [List.mem_singleton.mp hp] at hn
    cases hn
    exact fits_toInt (-7)
  · rw [List.mem_singleton.mp hp] at hn
    cases hn
    exact fits_toInt 2

/-- **Addition and SUM wrap**: one more than the greatest `int64` is the least. -/
theorem addition_wraps :
    evalValue epochEnv [] (.binary .add (.lit (.int 9223372036854775807)) (.lit (.int 1))) []
      = .ok (.int (-9223372036854775808)) ∧
    exactValue [] [] (.binary .add (.lit (.int 9223372036854775807)) (.lit (.int 1)))
      = .ok (some 9223372036854775808) ∧
    evalAggregate .sum false [[.int 9223372036854775807], [.int 1]] (some 0)
      = .ok (.int (-9223372036854775808)) := by
  decide +kernel

end Tsql.Executor
