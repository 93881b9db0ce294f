import Tsql.Executor.Failures

/-!
# Positions in range

A SELECT computes positions once, from the columns of its FROM items, and
uses them later on rows that come from the storage, from derived tables, from
the NULL padding of a LEFT JOIN, or that stand for a group. An index out of
range would stop the whole process. Here every list of rows on the way is
shown to be wide enough for the positions that are used on it (`Wide`), by
the rules of `Yields`: from rows that fill their FROM items to a result that
has a cell for every column.
-/

namespace Tsql.Executor

variable {sc : JoinScope} {rows : List Row} {t : JoinTable}

/-- The computation does not panic, and its result satisfies `Q`. -/
abbrev Calm {α : Type} (Q : α → Prop) (x : Except Failure α) : Prop :=
  Yields (· ≠ Failure.panic) Q x

theorem calm_sqlErr {α : Type} {Q : α → Prop} (err : SqlError) : Calm Q (sqlErr err) := by
  intro h
  cases h

theorem tolerant_calm : Tolerant (· ≠ Failure.panic) :=
  fun err _ => calm_sqlErr (α := Unit) (Q := fun _ => True) err

/-! ## Positions -/

/-- The number of cells of a joined row. -/
def JoinScope.width (sc : JoinScope) : Nat := (sc.map fun t => t.td.cols.length).sum

/-- The FROM items lie side by side in the joined row, from position `b` on. -/
def Laid : Nat → JoinScope → Prop
  | _, [] => True
  | b, t :: sc => t.basePos = b ∧ t.colIdx = colIndexMap t.td ∧ Laid (b + t.td.cols.length) sc

/-- Every row has `n` cells or more. -/
def Wide (n : Nat) (rows : List Row) : Prop := ∀ r ∈ rows, n ≤ r.length

theorem width_append (sc sc' : JoinScope) :
    JoinScope.width (sc ++ sc') = sc.width + sc'.width := by
  simp [JoinScope.width]

theorem get?_colIndexMap_lt {td : TableDef} {name : String} {j : Nat}
    (h : (colIndexMap td).get? name = some j) : j < td.cols.length := by
  rw [get?_colIndexMap] at h
  exact List.lt_add_of_mem_findIdxs j (List.mem_of_getLast? h)

theorem Laid.mem {b : Nat} (h : Laid b sc) (ht : t ∈ sc) :
    t.basePos + t.td.cols.length ≤ b + sc.width ∧ t.colIdx = colIndexMap t.td := by
  induction sc generalizing b with
  | nil => cases ht
  | cons u sc ih =>
    obtain ⟨hb, hidx, hrest⟩ := h
    have hw : JoinScope.width (u :: sc) = u.td.cols.length + JoinScope.width sc := by
      simp [JoinScope.width]
    rcases List.mem_cons.mp ht with rfl | ht
    · exact ⟨by omega, hidx⟩
    · have := (ih hrest ht).1
      exact ⟨by omega, (ih hrest ht).2⟩

theorem Laid.append {b : Nat} (h : Laid b sc)
    (hb : t.basePos = b + sc.width) (hidx : t.colIdx = colIndexMap t.td) : Laid b (sc ++ [t]) := by
  induction sc generalizing b with
  | nil => exact ⟨by simpa [JoinScope.width] using hb, hidx, trivial⟩
  | cons u sc ih =>
    refine ⟨h.1, h.2.1, ih h.2.2 ?_⟩
    rw [hb]
    simp [JoinScope.width]
    omega

theorem Laid.take {b : Nat} (h : Laid b sc) (n : Nat) : Laid b (sc.take n) := by
  induction sc generalizing b n with
  | nil => simp [Laid]
  | cons u sc ih =>
    cases n with
    | zero => trivial
    | succ n => exact ⟨h.1, h.2.1, ih h.2.2 n⟩

theorem Laid.position_lt (h : Laid 0 sc) (ht : t ∈ sc)
    {name : String} {pos : Nat} (hpos : JoinScope.position t name = some pos) :
    pos < sc.width := by
  obtain ⟨j, hj, rfl⟩ := Option.map_eq_some_iff.mp hpos
  obtain ⟨hle, hidx⟩ := h.mem ht
  rw [hidx] at hj
  have := get?_colIndexMap_lt hj
  omega

/-- **A column reference resolves to a cell of the joined row.** -/
theorem Laid.resolve (h : Laid 0 sc) (table name : String) :
    Calm (· < sc.width) (sc.resolve table name) := by
  unfold JoinScope.resolve
  split
  · split
    · exact calm_sqlErr _
    · rename_i t hfind
      split
      · rename_i pos hpos
        exact h.position_lt (List.mem_of_find?_eq_some hfind) hpos
      · exact calm_sqlErr _
  · split
    · exact calm_sqlErr _
    · rename_i pos heq
      have hmem : pos ∈ sc.filterMap fun t => JoinScope.position t name := by
        rw [heq]
        exact List.mem_singleton_self pos
      obtain ⟨t, ht, hpos⟩ := List.mem_filterMap.mp hmem
      exact h.position_lt ht hpos
    · exact calm_sqlErr _

theorem calm_cell {row : Row} {i : Nat} (h : i < row.length) :
    Calm (fun _ => True) (cell row i) := by
  rw [cell, List.getElem?_eq_getElem h]
  trivial

/-! ## Aggregates -/

/-- What an aggregate reads of rows that have `w` cells: nothing for
`count(*)`, one of the cells otherwise. -/
def ReadsCell (w : Nat) (name : FuncName) (star : Bool) (pos : Option Nat) : Prop :=
  if star then name = .count else ∃ p, pos = some p ∧ p < w

theorem calm_evalAggregate {name : FuncName} {star : Bool} {pos : Option Nat} {w : Nat}
    (h : ReadsCell w name star pos) (hrows : Wide w rows) :
    Calm (fun _ => True) (evalAggregate name star rows pos) := by
  refine yields_evalAggregate tolerant_calm ?_
  unfold ReadsCell at h
  split at h
  · exact .inl ⟨h, ‹_›⟩
  · obtain ⟨p, rfl, hp⟩ := h
    exact .inr fun r hr => calm_cell (hp.trans_le (hrows r hr))

theorem calm_validateAggregate (h : Laid 0 sc) (name : FuncName) (star : Bool) (arg : Option Expr) :
    Calm (ReadsCell sc.width name star) (validateAggregate sc name star arg) := by
  unfold validateAggregate ReadsCell
  cases star with
  | true =>
    simp only [if_true]
    split
    · exact calm_sqlErr _
    · rename_i hname
      exact not_not.mp hname
  | false =>
    simp only [Bool.false_eq_true, if_false]
    split
    · exact calm_sqlErr _
    · exact (h.resolve _ _).map fun p hp => ⟨p, rfl, hp⟩
    · exact calm_sqlErr _

/-! ## Expressions -/

section Expressions

variable {env : Env} {sc : JoinScope} {row : Row} {gc : GroupCtx}

/-- On a row of the scope's width every reference is in range. -/
theorem leaves_row (hsc : Laid 0 sc) (hrow : sc.width ≤ row.length) : (e : Expr) →
    Leaves (fun e => Calm (fun _ => True) (evalValueCtx env sc row none e)) e
  | .cmp _ l r | .and l r | .or l r | .binary _ l r =>
    ⟨leaves_row hsc hrow l, leaves_row hsc hrow r⟩
  | .isNull x _ | .not x | .inList x _ _ | .inSub x _ _ => leaves_row hsc hrow x
  | .lit _ => trivial
  | .colRef table name => by
    refine (hsc.resolve table name).bind fun pos hpos => calm_cell ?_
    exact Nat.lt_of_lt_of_le hpos hrow
  | .func name star arg => by
    show Calm _ (evalValueCtx env sc row none (.func name star arg))
    unfold evalValueCtx
    split
    · trivial
    · split <;> exact calm_sqlErr _

/-- **An expression is evaluated calmly on a row of the scope's width.** -/
theorem calm_evalValue (hsc : Laid 0 sc) (hrow : sc.width ≤ row.length) (e : Expr) :
    Calm (fun _ => True) (evalValue env sc e row) :=
  yields_evalValueCtx tolerant_calm e (leaves_row hsc hrow e)

theorem calm_passes (hsc : Laid 0 sc) (hrow : sc.width ≤ row.length) (e : Expr) :
    Calm (fun _ => True) (passes env sc e row) :=
  (yields_evalBoolCtx tolerant_calm e (leaves_row hsc hrow e)).map fun _ _ => trivial

/-- In a HAVING that was checked, a column is one the groups agree on, and an
aggregate reads a cell of the rows. -/
theorem leaves_group (hsc : Laid 0 sc) {groupPos : List Nat}
    (hrepr : ∀ p ∈ groupPos, p < row.length) (hrows : Wide sc.width rows) : (e : Expr) →
    validateHaving sc groupPos e = .ok () →
    Leaves (fun e => Calm (fun _ => True) (evalValueCtx env sc row (some rows) e)) e
  | .cmp _ l r, h | .and l r, h | .or l r, h | .binary _ l r, h => by
    rw [validateHaving] at h
    obtain ⟨⟨⟩, hl, hr⟩ := bind_eq_ok.mp h
    exact ⟨leaves_group hsc hrepr hrows l hl, leaves_group hsc hrepr hrows r hr⟩
  | .isNull x _, h | .not x, h | .inSub x _ _, h => by
    rw [validateHaving] at h
    exact leaves_group hsc hrepr hrows x h
  | .inList x _ _, h => by
    rw [validateHaving] at h
    obtain ⟨⟨⟩, hx, -⟩ := bind_eq_ok.mp h
    exact leaves_group hsc hrepr hrows x hx
  | .lit _, _ => trivial
  | .colRef table name, h => by
    rw [validateHaving] at h
    obtain ⟨pos, hpos, h⟩ := bind_eq_ok.mp h
    split at h
    · rename_i hmem
      show Calm _ (evalValueCtx env sc row (some rows) (.colRef table name))
      rw [evalValueCtx, hpos]
      exact calm_cell (hrepr pos hmem)
    · cases h
  | .func name star arg, h => by
    rw [validateHaving] at h
    show Calm _ (evalValueCtx env sc row (some rows) (.func name star arg))
    unfold evalValueCtx
    split
    · trivial
    · rename_i hnow
      rw [if_neg hnow] at h
      split
      · rename_i hagg
        rw [if_pos hagg] at h
        dsimp only
        split
        · rename_i hstar
          -- a star was checked to stand in `count`
          subst hstar
          have hcount : name = .count := by
            by_contra hne
            simp [validateAggregate, hne, sqlErr, Except.map] at h
          exact calm_evalAggregate (w := sc.width) (by simpa [ReadsCell] using hcount) hrows
        · rename_i hstar
          split
          · refine (hsc.resolve _ _).bind fun p hp => ?_
            exact calm_evalAggregate (by simpa [ReadsCell, hstar] using hp) hrows
          · exact calm_sqlErr _
      · exact calm_sqlErr _

end Expressions

/-! ## The rows that are joined -/

theorem Wide.append {n : Nat} {l l' : List Row} (h : Wide n l) (h' : Wide n l') :
    Wide n (l ++ l') := by
  intro r hr
  rcases List.mem_append.mp hr with hr | hr
  · exact h r hr
  · exact h' r hr

section Joins

variable {env : Env} {sc : JoinScope}

theorem calm_matchRows (hsc : Laid 0 sc) (on : Expr) {lrow : Row} {right : List Row}
    (h : Wide sc.width (right.map (lrow ++ ·))) :
    Calm (Wide sc.width) (matchRows env sc on lrow right) := by
  induction right with
  | nil => exact fun r hr => by cases hr
  | cons rrow right ih =>
    rw [matchRows]
    have hrow := h (lrow ++ rrow) List.mem_cons_self
    refine (calm_passes hsc hrow on).bind fun b _ => ?_
    refine (ih fun r hr => h r (List.mem_cons_of_mem _ hr)).bind fun rest hrest => ?_
    show Wide _ (if b then _ else _)
    split
    · exact List.forall_mem_cons.mpr ⟨hrow, hrest⟩
    · exact hrest

/-- One join: rows of `v` cells on the left and of `w` on the right, or NULLs
in their place, fill a scope of `v + w`. -/
theorem calm_joinRows (hsc : Laid 0 sc) (left : Bool) (on : Expr) {v w : Nat}
    (hw : sc.width = v + w) {right joined : List Row} (hright : Wide w right)
    (hjoined : Wide v joined) :
    Calm (Wide sc.width) (joinRows env sc left on w right joined) := by
  induction joined with
  | nil => exact fun r hr => by cases hr
  | cons lrow joined ih =>
    rw [joinRows]
    have hl := hjoined lrow List.mem_cons_self
    have hmatch : Wide sc.width (right.map (lrow ++ ·)) := by
      intro r hr
      obtain ⟨rrow, hrrow, rfl⟩ := List.mem_map.mp hr
      have := hright rrow hrrow
      rw [List.length_append]
      omega
    refine (calm_matchRows hsc on hmatch).bind fun rows hrows => ?_
    refine (ih fun r hr => hjoined r (List.mem_cons_of_mem _ hr)).bind fun rest hrest => ?_
    refine Wide.append ?_ hrest
    split
    · intro r hr
      rw [List.mem_singleton.mp hr, List.length_append, List.length_replicate]
      omega
    · exact hrows

/-- The rows of a FROM item fit its columns. -/
abbrev Filled (t : JoinTable) (rows : List Row) : Prop := Wide t.td.cols.length rows

/-- **The chain of joins fills the scope.** The induction is on the items that
are left; those joined so far have filled their part of it. -/
theorem calm_joinTables (hsc : Laid 0 sc) {inputs : List JoinInput} {n : Nat} {joined : List Row}
    (hin : List.Forall₂ (fun t i => i.td = t.td ∧ Filled t i.rows) (sc.drop n) inputs)
    (hjoined : Wide (JoinScope.width (sc.take n)) joined) :
    Calm (Wide sc.width) (joinTables env sc n joined inputs) := by
  induction inputs generalizing n joined with
  | nil =>
    have hall : sc.take n = sc := by
      rw [List.take_eq_self_iff]
      exact List.drop_eq_nil_iff.mp (List.forall₂_nil_right_iff.mp hin)
    rw [hall] at hjoined
    exact hjoined
  | cons i inputs ih =>
    obtain ⟨t, rest, ⟨htd, hfill⟩, hrest, hdrop⟩ := List.forall₂_cons_right_iff.mp hin
    have hn : n < sc.length := by
      by_contra hle
      rw [List.drop_eq_nil_of_le (not_lt.mp hle)] at hdrop
      cases hdrop
    have hcons := List.drop_eq_getElem_cons hn
    rw [hdrop, List.cons.injEq] at hcons
    have htake : sc.take (n + 1) = sc.take n ++ [t] := by
      rw [List.take_succ_eq_append_getElem hn, hcons.1]
    have hwidth : JoinScope.width (sc.take (n + 1)) =
        JoinScope.width (sc.take n) + i.td.cols.length := by
      rw [htake, width_append, htd]
      simp [JoinScope.width]
    rw [joinTables]
    refine (calm_joinRows (hsc.take (n + 1)) i.left i.on hwidth ?_ hjoined).bind
      fun next hnext => ?_
    · rw [htd]
      exact hfill
    · refine ih ?_ hnext
      rw [← hcons.2]
      exact hrest

theorem joinInputs_filled {rest : JoinScope} {first : List Row}
    {rows : List (List Row)} (h : List.Forall₂ Filled rest rows) {joins : List (Bool × Expr)}
    (hlen : joins.length = rest.length) :
    List.Forall₂ (fun t i => i.td = t.td ∧ Filled t i.rows) rest
      (joinInputs (t :: rest) (first :: rows) joins) := by
  unfold joinInputs
  simp only [List.tail_cons]
  induction h generalizing joins with
  | nil => exact .nil
  | @cons u r rest rows hu hrest ih =>
    cases joins with
    | nil => cases hlen
    | cons j joins => exact .cons ⟨rfl, hu⟩ (ih (Nat.succ.inj hlen))

theorem calm_filterRows (hsc : Laid 0 sc) (where_ : Option Expr)
    (h : Wide sc.width rows) : Calm (Wide sc.width) (filterRows env sc where_ rows) := by
  induction rows with
  | nil => exact fun r hr => by cases hr
  | cons row rows ih =>
    unfold filterRows
    have hrow := h row List.mem_cons_self
    have hkeep : ∀ b : Bool, Calm (Wide sc.width) (filterRows env sc where_ rows >>= fun rest =>
        pure (if b then row :: rest else rest)) := by
      intro b
      refine (ih fun r hr => h r (List.mem_cons_of_mem _ hr)).bind fun rest hrest => ?_
      show Wide _ (if b then _ else _)
      split
      · exact List.forall_mem_cons.mpr ⟨hrow, hrest⟩
      · exact hrest
    split
    · exact hkeep true
    · exact (calm_passes hsc hrow _).bind fun b _ => hkeep b

end Joins

/-! ## Plans -/

/-- What a planned field reads: a cell of the row, or over groups a cell the
groups agree on; an expression over groups is a literal. -/
def FieldInRange (sc : JoinScope) (grouping : Bool) (groupPos : List Nat) : FieldPlan → Prop
  | .col pos => if grouping then pos ∈ groupPos else pos < sc.width
  | .agg name star pos => ReadsCell sc.width name star pos
  | .now => True
  | .expr e => grouping = true → ∃ v, e = .lit v

/-- A plan all of whose positions are in range. -/
structure Planned (sc : JoinScope) (having : Option Expr) (p : SelectPlan) : Prop where
  group : ∀ pos ∈ p.groupPos, pos < sc.width
  having : ∀ e, having = some e → validateHaving sc p.groupPos e = .ok ()
  fields : ∀ f ∈ p.fields, FieldInRange sc p.grouping p.groupPos f.1
  order : ∀ f ∈ p.order, FieldInRange sc p.grouping p.groupPos f

section Plans

variable {sc : JoinScope}

theorem calm_validateExpr (hsc : Laid 0 sc) : (e : Expr) →
    Calm (fun _ => True) (validateExpr sc e)
  | .lit _ => trivial
  | .colRef table name => (hsc.resolve table name).map fun _ _ => trivial
  | .func name _ _ => by
    unfold validateExpr
    split
    · trivial
    · split <;> exact calm_sqlErr _
  | .cmp _ l r | .and l r | .or l r | .binary _ l r => by
    rw [validateExpr]
    exact (calm_validateExpr hsc l).bind fun _ _ => calm_validateExpr hsc r
  | .isNull x _ | .not x | .inSub x _ _ => by
    rw [validateExpr]
    exact calm_validateExpr hsc x
  | .inList x _ _ => by
    rw [validateExpr]
    refine (calm_validateExpr hsc x).bind fun _ _ => ?_
    split
    · trivial
    · exact calm_sqlErr _

theorem calm_validateHaving (hsc : Laid 0 sc) (groupPos : List Nat) : (e : Expr) →
    Calm (fun _ => True) (validateHaving sc groupPos e)
  | .lit _ => trivial
  | .colRef table name => by
    rw [validateHaving]
    refine (hsc.resolve table name).bind fun _ _ => ?_
    split
    · trivial
    · exact calm_sqlErr _
  | .func name star arg => by
    unfold validateHaving
    split
    · trivial
    · split
      · exact (calm_validateAggregate hsc name star arg).map fun _ _ => trivial
      · exact calm_sqlErr _
  | .cmp _ l r | .and l r | .or l r | .binary _ l r => by
    rw [validateHaving]
    exact (calm_validateHaving hsc groupPos l).bind fun _ _ => calm_validateHaving hsc groupPos r
  | .isNull x _ | .not x | .inSub x _ _ => by
    rw [validateHaving]
    exact calm_validateHaving hsc groupPos x
  | .inList x _ _ => by
    rw [validateHaving]
    refine (calm_validateHaving hsc groupPos x).bind fun _ _ => ?_
    split
    · trivial
    · exact calm_sqlErr _

theorem calm_validateJoins (hsc : Laid 0 sc) (n : Nat) (joins : List (Bool × Expr)) :
    Calm (fun _ => True) (validateJoins sc n joins) := by
  induction joins generalizing n with
  | nil => trivial
  | cons j joins ih =>
    rw [validateJoins]
    exact (calm_validateExpr (hsc.take (n + 1)) j.2).bind fun _ _ => ih (n + 1)

theorem calm_planGroup (hsc : Laid 0 sc) (group : List Expr) :
    Calm (fun l => ∀ pos ∈ l, pos < sc.width) (planGroup sc group) := by
  refine Yields.mapM_all fun g _ => ?_
  split
  · exact hsc.resolve _ _
  · exact calm_sqlErr _

theorem calm_planField (hsc : Laid 0 sc) (grouping : Bool) (groupPos : List Nat) (f : Expr)
    (alias_ : String) :
    Calm (fun p => FieldInRange sc grouping groupPos p.1)
      (planField sc grouping groupPos f alias_) := by
  unfold planField
  split
  · refine (hsc.resolve _ _).bind fun pos hpos => ?_
    split
    · exact calm_sqlErr _
    · rename_i hgroup
      show if grouping then pos ∈ groupPos else pos < sc.width
      cases grouping <;> simp_all
  · split
    · trivial
    · split
      · split
        · exact calm_sqlErr _
        · exact (calm_validateAggregate hsc _ _ _).bind fun pos hpos => hpos
      · exact calm_sqlErr _
  · split
    · exact calm_sqlErr _
    · rename_i hgroup
      refine (calm_validateExpr hsc _).bind fun _ _ => ?_
      exact fun htrue => absurd htrue hgroup

theorem starFields_inRange (hsc : Laid 0 sc) (groupPos : List Nat) :
    ∀ f ∈ starFields sc, FieldInRange sc false groupPos f.1 := by
  intro f hf
  obtain ⟨t, ht, hf⟩ := List.mem_flatMap.mp hf
  obtain ⟨j, hj, rfl⟩ := List.mem_map.mp hf
  have hle := (hsc.mem ht).1
  have hlt := List.mem_range.mp hj
  show t.basePos + j < sc.width
  omega

theorem calm_planFields (hsc : Laid 0 sc) (star : Bool) (fields : List (Expr × String))
    (grouping : Bool) (groupPos : List Nat) :
    Calm (fun l => ∀ f ∈ l, FieldInRange sc grouping groupPos f.1)
      (planFields sc star fields grouping groupPos) := by
  unfold planFields
  split
  · split
    · exact calm_sqlErr _
    · rename_i hgroup
      rw [Bool.not_eq_true] at hgroup
      rw [hgroup]
      exact starFields_inRange hsc groupPos
  · exact Yields.mapM_all fun f _ => calm_planField hsc grouping groupPos f.1 f.2

theorem calm_planGroupOrder (hsc : Laid 0 sc) (groupPos : List Nat) (e : Expr) :
    Calm (FieldInRange sc true groupPos) (planGroupOrder sc groupPos e) := by
  unfold planGroupOrder
  split
  · refine (hsc.resolve _ _).bind fun pos _ => ?_
    split
    · assumption
    · exact calm_sqlErr _
  · split
    · trivial
    · split
      · exact (calm_validateAggregate hsc _ _ _).bind fun pos hpos => hpos
      · exact calm_sqlErr _
  · exact fun _ => ⟨_, rfl⟩
  · exact calm_sqlErr _

theorem calm_planRowOrder (hsc : Laid 0 sc) (groupPos : List Nat) (e : Expr) :
    Calm (FieldInRange sc false groupPos) (planRowOrder sc e) := by
  unfold planRowOrder
  refine (calm_validateExpr hsc e).bind fun _ _ => ?_
  split
  · exact (hsc.resolve _ _).bind fun pos hpos => hpos
  · exact fun h => by cases h

theorem calm_planOrder (hsc : Laid 0 sc) (grouping : Bool) (groupPos : List Nat)
    (order : List (Expr × Bool)) :
    Calm (fun l => ∀ f ∈ l, FieldInRange sc grouping groupPos f)
      (planOrder sc grouping groupPos order) := by
  refine Yields.mapM_all fun ot _ => ?_
  cases grouping with
  | true => exact calm_planGroupOrder hsc groupPos ot.1
  | false => exact calm_planRowOrder hsc groupPos ot.1

/-- **The checks before the scan leave only positions in range.** -/
theorem calm_planSelect (hsc : Laid 0 sc) (s : Plain) :
    Calm (Planned sc s.having) (planSelect sc s) := by
  obtain ⟨joins, star, fields, where_, group, having, order, limit⟩ := s
  -- the fields and sort keys, once HAVING has been checked
  have hrest : ∀ groupPos grouping, (∀ pos ∈ groupPos, pos < sc.width) →
      (∀ e, having = some e → validateHaving sc groupPos e = .ok ()) →
      Calm (Planned sc having) (planFields sc star fields grouping groupPos >>= fun fields =>
        planOrder sc grouping groupPos order >>= fun order =>
          pure ⟨groupPos, grouping, fields, order⟩) := by
    intro groupPos grouping hgroup hhaving
    refine (calm_planFields hsc star fields grouping groupPos).bind fun fields hfields => ?_
    refine (calm_planOrder hsc grouping groupPos order).bind fun order horder => ?_
    exact ⟨hgroup, hhaving, hfields, horder⟩
  refine (calm_validateJoins hsc 1 joins).bind fun _ _ => ?_
  cases where_
  case' some w => refine (calm_validateExpr hsc w).bind fun _ _ => ?_
  all_goals
    refine (calm_planGroup hsc group).bind fun groupPos hgroup => ?_
    cases having with
    | none =>
      refine hrest groupPos _ hgroup fun e he => ?_
      cases he
    | some e =>
      refine ((calm_validateHaving hsc groupPos e).and_of_ok fun _ h => h).bind fun _ hok => ?_
      refine hrest groupPos _ hgroup fun e' he' => ?_
      cases he'
      exact hok.2

end Plans

/-! ## Groups, sorting, projection -/

/-- A group whose rows fill the scope, and whose first row has the cells the
groups are made by. -/
structure GroupInRange (w : Nat) (groupPos : List Nat) (g : Grp) : Prop where
  rows : Wide w g.rows
  repr : ∀ p ∈ groupPos, p < g.repr.length

/-- A result has a cell for every column. -/
def Shaped (res : Result) : Prop := ∀ r ∈ res.rows, r.length = res.columns.length

section Finish

variable {env : Env} {sc : JoinScope} {w : Nat} {groupPos : List Nat}

theorem addToGroup_inRange (key : List KeyPart) {row : Row} {gs : List Grp}
    (hpos : ∀ p ∈ groupPos, p < w) (hrow : w ≤ row.length)
    (h : ∀ g ∈ gs, GroupInRange w groupPos g) :
    ∀ g ∈ addToGroup key row gs, GroupInRange w groupPos g := by
  have hsingle : Wide w [row] := fun r hr => by rwa [List.mem_singleton.mp hr]
  induction gs with
  | nil =>
    intro g hg
    rw [List.mem_singleton.mp hg]
    exact ⟨hsingle, fun p hp => (hpos p hp).trans_le hrow⟩
  | cons g gs ih =>
    obtain ⟨hg, hgs⟩ := List.forall_mem_cons.mp h
    rw [addToGroup]
    split
    · exact List.forall_mem_cons.mpr ⟨⟨hg.rows.append hsingle, hg.repr⟩, hgs⟩
    · exact List.forall_mem_cons.mpr ⟨hg, ih hgs⟩

theorem calm_groupRows (hpos : ∀ p ∈ groupPos, p < w) (hrows : Wide w rows)
    {gs : List Grp} (h : ∀ g ∈ gs, GroupInRange w groupPos g) :
    Calm (fun gs => ∀ g ∈ gs, GroupInRange w groupPos g) (groupRows groupPos gs rows) := by
  induction rows generalizing gs with
  | nil => exact h
  | cons row rows ih =>
    obtain ⟨hrow, hrows⟩ := List.forall_mem_cons.mp hrows
    rw [groupRows]
    have hkey : Calm (fun _ => True) (groupKey groupPos row) := by
      refine (Yields.mapM_all (R := fun _ => True) fun p hp => ?_).mono fun _ _ => trivial
      exact (calm_cell ((hpos p hp).trans_le hrow)).map fun _ _ => trivial
    exact hkey.bind fun key _ => ih hrows (addToGroup_inRange key hpos hrow h)

/-- The one group over no rows has no first row, and no column is read of it. -/
theorem calm_allGroups (hpos : ∀ p ∈ groupPos, p < w) (hrows : Wide w rows) :
    Calm (fun gs => ∀ g ∈ gs, GroupInRange w groupPos g) (allGroups groupPos rows) := by
  unfold allGroups
  refine (calm_groupRows hpos hrows fun g hg => by cases hg).bind fun gs hgs => ?_
  show ∀ g ∈ if groupPos.isEmpty && gs.isEmpty then _ else gs, _
  split
  · rename_i hempty
    rw [Bool.and_eq_true, List.isEmpty_iff] at hempty
    intro g hg
    rw [List.mem_singleton.mp hg, hempty.1]
    refine ⟨?_, ?_⟩
    · intro r hr
      cases hr
    · intro p hp
      cases hp
  · exact hgs

theorem calm_filterGroups (hsc : Laid 0 sc) {having : Option Expr}
    (hhaving : ∀ e, having = some e → validateHaving sc groupPos e = .ok ()) {gs : List Grp}
    (h : ∀ g ∈ gs, GroupInRange sc.width groupPos g) :
    Calm (fun gs => ∀ g ∈ gs, GroupInRange sc.width groupPos g)
      (filterGroups env sc having gs) := by
  induction gs with
  | nil => exact h
  | cons g gs ih =>
    obtain ⟨hg, hgs⟩ := List.forall_mem_cons.mp h
    unfold filterGroups
    have hkeep : ∀ b : Bool, Calm (fun gs => ∀ g ∈ gs, GroupInRange sc.width groupPos g)
        (filterGroups env sc having gs >>= fun rest => pure (if b then g :: rest else rest)) := by
      intro b
      refine (ih hgs).bind fun rest hrest => ?_
      show ∀ g' ∈ if b then _ else _, _
      split
      · exact List.forall_mem_cons.mpr ⟨hg, hrest⟩
      · exact hrest
    split
    · exact hkeep true
    · rename_i e
      have hbool : Calm (fun _ => True) (evalBoolCtx env sc g.repr (some g.rows) e) :=
        yields_evalBoolCtx tolerant_calm e (leaves_group hsc hg.repr hg.rows e (hhaving e rfl))
      exact (hbool.map (R := fun _ => True) fun _ _ => trivial).bind fun b _ => hkeep b

theorem calm_rowField (hsc : Laid 0 sc) {row : Row} (hrow : sc.width ≤ row.length)
    {f : FieldPlan} (hf : FieldInRange sc false groupPos f) :
    Calm (fun _ => True) (rowField env sc row f) := by
  cases f with
  | col pos => exact calm_cell (Nat.lt_of_lt_of_le hf hrow)
  | agg name star pos => exact calm_sqlErr _
  | now => trivial
  | expr e => exact calm_evalValue hsc hrow e

theorem calm_groupField {g : Grp} (hg : GroupInRange sc.width groupPos g) {f : FieldPlan}
    (hf : FieldInRange sc true groupPos f) : Calm (fun _ => True) (groupField env sc g f) := by
  cases f with
  | col pos => exact calm_cell (hg.repr pos hf)
  | agg name star pos => exact calm_evalAggregate hf hg.rows
  | now => trivial
  | expr e =>
    obtain ⟨v, rfl⟩ := hf rfl
    trivial

variable {α : Type} {field : α → FieldPlan → Except Failure Value}

/-- What is sorted and cut off is among the items. -/
theorem calm_orderAndLimit {plans : List FieldPlan} (desc : List Bool) (limit : Option Nat)
    {items : List α} (h : ∀ a ∈ items, ∀ f ∈ plans, Calm (fun _ => True) (field a f)) :
    Calm (fun out => ∀ a ∈ out, a ∈ items) (orderAndLimit plans desc limit field items) := by
  have hsort : Calm (fun out => ∀ a ∈ out, a ∈ items) (orderItems plans desc field items) := by
    unfold orderItems
    split
    · exact fun a ha => ha
    · refine (Yields.mapM_all (R := fun p : α × List Value => p.1 ∈ items) fun a ha => ?_).bind
        fun keyed hkeyed => ?_
      · exact (Yields.mapM_all (h a ha)).bind fun _ _ => ha
      · intro a ha
        obtain ⟨p, hp, rfl⟩ := List.mem_map.mp ha
        exact hkeyed p ((List.perm_insertionSort _ keyed).mem_iff.mp hp)
  refine hsort.bind fun out hout => ?_
  cases limit with
  | none => exact hout
  | some n => exact fun a ha => hout a (List.mem_of_mem_take ha)

theorem yields_project {plans : List FieldPlan} {items : List α} {E : Failure → Prop}
    (h : ∀ a ∈ items, ∀ f ∈ plans, Yields E (fun _ => True) (field a f)) :
    Yields E (fun rows => ∀ r ∈ rows, r.length = plans.length) (project plans field items) := by
  refine Yields.mapM_all fun a ha => ?_
  refine (Yields.mapM (h a ha)).mono fun row hrow => ?_
  exact hrow.length_eq.symm

theorem shaped_of_fields (p : SelectPlan) (rows : List Row)
    (h : ∀ r ∈ rows, r.length = (p.fields.map Prod.fst).length) :
    Shaped { columns := p.fields.map Prod.snd, rows := rows } := by
  intro r hr
  rw [h r hr, List.length_map, List.length_map]

/-- **After the scan**: rows that fill the scope give a result with a cell for
every column. -/
theorem calm_finishSelect (hsc : Laid 0 sc) {s : Plain} {p : SelectPlan}
    (hp : Planned sc s.having p) {filtered : List Row} (hrows : Wide sc.width filtered) :
    Calm Shaped (finishSelect env sc s p filtered) := by
  have hfields : ∀ f ∈ p.fields.map Prod.fst, FieldInRange sc p.grouping p.groupPos f := by
    intro f hf
    obtain ⟨q, hq, rfl⟩ := List.mem_map.mp hf
    exact hp.fields q hq
  unfold finishSelect
  cases hgrouping : p.grouping with
  | true =>
    rw [hgrouping] at hfields
    have horder := hgrouping ▸ hp.order
    refine (calm_allGroups hp.group hrows).bind fun gs hgs => ?_
    refine (calm_filterGroups hsc hp.having hgs).bind fun gs hgs => ?_
    refine (calm_orderAndLimit _ _ fun g hg f hf =>
      calm_groupField (hgs g hg) (horder f hf)).bind fun out hout => ?_
    exact (yields_project fun g hg f hf =>
      calm_groupField (hgs g (hout g hg)) (hfields f hf)).bind (shaped_of_fields p)
  | false =>
    rw [hgrouping] at hfields
    have horder := hgrouping ▸ hp.order
    refine (calm_orderAndLimit _ _ fun r hr f hf =>
      calm_rowField hsc (hrows r hr) (horder f hf)).bind fun out hout => ?_
    exact (yields_project fun r hr f hf =>
      calm_rowField hsc (hrows r (hout r hr)) (hfields f hf)).bind (shaped_of_fields p)

end Finish

end Tsql.Executor
