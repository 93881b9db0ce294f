import Tsql.Executor.Calm
import Tsql.Executor.Frame
import Tsql.Lib.Product

/-!
# Joins

The nested loops of `collectJoined` against relational algebra. A chain of
INNER JOINs keeps those `choices` of one row of each FROM item on which every
ON is TRUE over the items up to its own, and the WHERE over all. A LEFT JOIN is its INNER JOIN with one
padded row for every left row without a match.

Two tables may change places: a condition reads its columns by name, so it
comes to the same on the rows with the columns of the two exchanged.
-/

namespace Tsql.Executor

open Product Storage

/-- The condition is TRUE on the row. -/
def holds (env : Env) (sc : JoinScope) (e : Expr) (row : Row) : Bool :=
  match passes env sc e row with
  | .ok b => b
  | .error _ => false

/-- The condition evaluates without error. -/
def Evaluates (env : Env) (sc : JoinScope) (e : Expr) (row : Row) : Prop :=
  ∃ p, evalBool env sc e row = .ok p

section

variable {env : Env} {sc : JoinScope} {on : Expr}

theorem passes_eq {row : Row} (h : Evaluates env sc on row) :
    passes env sc on row = .ok (holds env sc on row) := by
  obtain ⟨p, hp⟩ := h
  unfold holds passes
  rw [hp]
  rfl

/-! ## One join -/

/-- The right rows that match. -/
def matching (env : Env) (sc : JoinScope) (on : Expr) (right : List Row) (lrow : Row) : List Row :=
  right.filter fun rrow => holds env sc on (lrow ++ rrow)

theorem matchRows_eq {lrow : Row} {right : List Row}
    (h : ∀ rrow ∈ right, Evaluates env sc on (lrow ++ rrow)) :
    matchRows env sc on lrow right = .ok ((matching env sc on right lrow).map (lrow ++ ·)) := by
  induction right with
  | nil => rfl
  | cons rrow right ih =>
    obtain ⟨hr, hright⟩ := List.forall_mem_cons.mp h
    rw [matchRows, passes_eq hr, ih hright]
    unfold matching
    rw [List.filter_cons]
    cases holds env sc on (lrow ++ rrow) <;> rfl

theorem joinRows_inner {right joined : List Row} (width : Nat)
    (h : ∀ lrow ∈ joined, ∀ rrow ∈ right, Evaluates env sc on (lrow ++ rrow)) :
    joinRows env sc false on width right joined
      = .ok (joined.flatMap fun lrow => (matching env sc on right lrow).map (lrow ++ ·)) := by
  induction joined with
  | nil => rfl
  | cons lrow joined ih =>
    obtain ⟨hl, hjoined⟩ := List.forall_mem_cons.mp h
    rw [joinRows, matchRows_eq hl, ih hjoined]
    rfl

/-- A left row with its matches, or without one. -/
def tagged (env : Env) (sc : JoinScope) (on : Expr) (right : List Row) (lrow : Row) :
    List (Row × Option Row) :=
  if matching env sc on right lrow = [] then [(lrow, none)]
  else (matching env sc on right lrow).map fun rrow => (lrow, some rrow)

/-- The joined row; where there is no match, NULLs in the place of one. -/
def padded (width : Nat) (p : Row × Option Row) : Row :=
  p.1 ++ p.2.getD (List.replicate width .null)

theorem joinRows_left {right joined : List Row} (width : Nat)
    (h : ∀ lrow ∈ joined, ∀ rrow ∈ right, Evaluates env sc on (lrow ++ rrow)) :
    joinRows env sc true on width right joined
      = .ok ((joined.flatMap (tagged env sc on right)).map (padded width)) := by
  induction joined with
  | nil => rfl
  | cons lrow joined ih =>
    obtain ⟨hl, hjoined⟩ := List.forall_mem_cons.mp h
    have hrow : (tagged env sc on right lrow).map (padded width)
        = if ((matching env sc on right lrow).map (lrow ++ ·)).isEmpty then
            [lrow ++ List.replicate width .null]
          else (matching env sc on right lrow).map (lrow ++ ·) := by
      unfold tagged
      rw [List.isEmpty_map]
      cases matching env sc on right lrow with
      | nil => rfl
      | cons r rs => simp [padded]
    rw [joinRows, matchRows_eq hl, ih hjoined, List.flatMap_cons, List.map_append, hrow]
    rfl

theorem filterRows_eq {where_ : Option Expr} {rows : List Row}
    (h : ∀ w, where_ = some w → ∀ row ∈ rows, Evaluates env sc w row) :
    filterRows env sc where_ rows
      = .ok (rows.filter fun row => where_.all fun w => holds env sc w row) := by
  induction rows with
  | nil => rfl
  | cons row rows ih =>
    have hrest := ih fun w hw r hr => h w hw r (List.mem_cons_of_mem row hr)
    cases where_ with
    | none =>
      rw [filterRows, hrest]
      rfl
    | some w =>
      rw [filterRows, hrest, passes_eq (h w rfl row List.mem_cons_self), List.filter_cons,
        Option.all_some]
      cases holds env sc w row <;> rfl

end

/-! ## Chains of INNER JOINs -/

/-- Every ON is TRUE over the items up to its own; `n` items come before the
first of them. -/
def onsHold (env : Env) (sc : JoinScope) : Nat → List (Bool × Expr) → List Row → Bool
  | _, [], _ => true
  | n, j :: joins, tuple =>
    holds env (sc.take (n + 1)) j.2 (tuple.take (n + 1)).flatten &&
      onsHold env sc (n + 1) joins tuple

section Chain

variable {env : Env} {sc : JoinScope}

/-- **One more table**: the choices that are kept, each with the rows it
matches, are those of one more table that are kept. -/
theorem joined_step {before : List (List Row)} {n : Nat} (hn : before.length = n) (on : Expr)
    (right : List Row) (P : List Row → Bool) :
    (((choices before).filter P).map List.flatten).flatMap (fun lrow =>
        (matching env sc on right lrow).map (lrow ++ ·))
      = ((choices (before ++ [right])).filter fun tuple =>
          P (tuple.take n) && holds env sc on tuple.flatten).map List.flatten := by
  have hloop := filter_choices_concat hn right P
    (fun tuple row => holds env sc on (tuple.flatten ++ row)) (fun tuple => holds env sc on tuple.flatten)
    fun tuple row => by rw [List.flatten_append, List.flatten_singleton]
  rw [← hloop, List.map_flatMap, List.flatMap_map]
  refine List.flatMap_congr fun tuple _ => ?_
  rw [List.map_map]
  refine List.map_congr_left fun row _ => ?_
  show tuple.flatten ++ row = (tuple ++ [row]).flatten
  rw [List.flatten_append, List.flatten_singleton]

/-- **A chain of INNER JOINs** keeps the choices on which every ON is TRUE.
An ON has to evaluate only where those before it are TRUE. -/
theorem joinTables_inner {inputs : List JoinInput} {before : List (List Row)} {n : Nat}
    (hn : before.length = n) (hinner : ∀ t ∈ inputs, t.left = false) (P : List Row → Bool)
    (hon : ∀ (k : Nat) (t : JoinInput), inputs[k]? = some t →
      ∀ tuple ∈ choices (before ++ (inputs.map JoinInput.rows).take (k + 1)),
        P (tuple.take n) → onsHold env sc n ((inputs.take k).map fun t => (t.left, t.on)) tuple →
        Evaluates env (sc.take (n + k + 1)) t.on tuple.flatten) :
    joinTables env sc n (((choices before).filter P).map List.flatten) inputs
      = .ok (((choices (before ++ inputs.map JoinInput.rows)).filter fun tuple =>
          P (tuple.take n) && onsHold env sc n (inputs.map fun t => (t.left, t.on)) tuple).map
            List.flatten) := by
  induction inputs generalizing before n P with
  | nil =>
    have hall : (choices (before ++ ([] : List JoinInput).map JoinInput.rows)).filter
        (fun tuple => P (tuple.take n) && onsHold env sc n [] tuple) = (choices before).filter P := by
      rw [List.map_nil, List.append_nil]
      refine List.filter_congr fun tuple htuple => ?_
      have hlen : tuple.length = n := (length_of_mem_choices htuple).trans hn
      simp [onsHold, List.take_of_length_le (Nat.le_of_eq hlen)]
    rw [joinTables, List.map_nil, hall]
  | cons t inputs ih =>
    obtain ⟨ht, hinner⟩ := List.forall_mem_cons.mp hinner
    have heval : ∀ lrow ∈ ((choices before).filter P).map List.flatten, ∀ rrow ∈ t.rows,
        Evaluates env (sc.take (n + 1)) t.on (lrow ++ rrow) := by
      intro lrow hlrow rrow hrrow
      obtain ⟨tuple, htuple, rfl⟩ := List.mem_map.mp hlrow
      obtain ⟨htuple, hP⟩ := List.mem_filter.mp htuple
      have hlen : tuple.length = n := (length_of_mem_choices htuple).trans hn
      have h := hon 0 t rfl _ (concat_mem_choices htuple hrrow)
        (by rwa [List.take_left' hlen]) rfl
      rwa [List.flatten_append, List.flatten_singleton] at h
    have hon' : ∀ (k : Nat) (u : JoinInput), inputs[k]? = some u →
        ∀ tuple ∈ choices ((before ++ [t.rows]) ++ (inputs.map JoinInput.rows).take (k + 1)),
          (P ((tuple.take (n + 1)).take n) &&
            holds env (sc.take (n + 1)) t.on (tuple.take (n + 1)).flatten) →
          onsHold env sc (n + 1) ((inputs.take k).map fun t => (t.left, t.on)) tuple →
          Evaluates env (sc.take (n + 1 + k + 1)) u.on tuple.flatten := by
      intro k u hu tuple htuple hkept hons
      have h := hon (k + 1) u hu tuple
      rw [List.map_cons, List.take_succ_cons, List.append_cons] at h
      have hscope : n + (k + 1) + 1 = n + 1 + k + 1 := by omega
      rw [hscope] at h
      rw [List.take_take, Nat.min_eq_left (Nat.le_succ n), Bool.and_eq_true] at hkept
      refine h htuple hkept.1 ?_
      rw [List.take_succ_cons, List.map_cons, onsHold, Bool.and_eq_true]
      exact ⟨hkept.2, hons⟩
    have hrest := ih (by simp [hn]) hinner (fun tuple =>
      P (tuple.take n) && holds env (sc.take (n + 1)) t.on tuple.flatten) hon'
    rw [joinTables, ht, joinRows_inner _ heval]
    simp only [bind, Except.bind]
    rw [joined_step hn, hrest, List.append_assoc]
    simp only [List.map_cons, onsHold, List.take_take, Nat.min_eq_left (Nat.le_succ n),
      Bool.and_assoc, List.singleton_append]

theorem length_loadTables {o : Answers} {tables : List (List Row)}
    (h : (loadTables sc).eval o = .ok tables) : tables.length = sc.length := by
  induction sc generalizing tables with
  | nil =>
    cases h
    rfl
  | cons t sc ih =>
    rw [loadTables, Prog.eval_bind] at h
    obtain ⟨rows, -, h⟩ := bind_eq_ok.mp h
    rw [Prog.eval_bind] at h
    obtain ⟨rest, hrest, h⟩ := bind_eq_ok.mp h
    cases h
    rw [List.length_cons, List.length_cons, ih hrest]

/-- What is joined to the first table: the others, and the joins. -/
theorem joinInputs_eq (t : JoinTable) (rows : List Row) {tables : List (List Row)}
    {joins : List (Bool × Expr)} (htables : tables.length = sc.length)
    (hjoins : sc.length = joins.length) :
    (joinInputs (t :: sc) (rows :: tables) joins).map JoinInput.rows = tables ∧
      (joinInputs (t :: sc) (rows :: tables) joins).map (fun t => (t.left, t.on)) = joins := by
  unfold joinInputs
  rw [List.tail_cons, List.tail_cons, List.map_map, List.map_map]
  constructor
  · have hsplit : (JoinInput.rows ∘ fun p : (JoinTable × List Row) × Bool × Expr =>
        (⟨p.1.1.td, p.1.2, p.2.1, p.2.2⟩ : JoinInput)) = Prod.snd ∘ Prod.fst := rfl
    rw [hsplit, ← List.map_map, List.map_fst_zip (by simp [htables, hjoins]),
      List.map_snd_zip (by simp [htables])]
  · have hsplit : ((fun t : JoinInput => (t.left, t.on)) ∘
        fun p : (JoinTable × List Row) × Bool × Expr =>
          (⟨p.1.1.td, p.1.2, p.2.1, p.2.2⟩ : JoinInput)) = Prod.snd := rfl
    rw [hsplit, List.map_snd_zip (by simp [htables, hjoins])]

/-- **INNER JOINs are a selection from the product.** -/
theorem collectJoined_inner {o : Answers} {tables : List (List Row)} {joins : List (Bool × Expr)}
    {where_ : Option Expr} (hjoins : sc.length = joins.length + 1)
    (hinner : ∀ j ∈ joins, j.1 = false) (hload : (loadTables sc).eval o = .ok tables)
    (hon : ∀ (k : Nat) (j : Bool × Expr), joins[k]? = some j →
      ∀ tuple ∈ choices (tables.take (k + 2)), onsHold env sc 1 (joins.take k) tuple →
        Evaluates env (sc.take (k + 2)) j.2 tuple.flatten)
    (hwhere : ∀ w, where_ = some w → ∀ tuple ∈ choices tables, onsHold env sc 1 joins tuple →
      Evaluates env sc w tuple.flatten) :
    (collectJoined env sc joins where_).eval o
      = .ok (((choices tables).filter fun tuple =>
          onsHold env sc 1 joins tuple && where_.all fun w => holds env sc w tuple.flatten).map
            List.flatten) := by
  have hlength := length_loadTables hload
  obtain ⟨t, sc, rfl⟩ := List.exists_cons_of_length_eq_add_one hjoins
  obtain ⟨rows, tables, rfl⟩ := List.exists_cons_of_length_eq_add_one hlength
  have htables : tables.length = sc.length := by simpa using hlength
  obtain ⟨hrows, hons⟩ := joinInputs_eq t rows htables
    (show sc.length = joins.length by simpa using hjoins)
  have hstart : ((choices [rows]).filter fun _ => true).map List.flatten = rows := by
    simp [choices, List.map_flatMap, List.flatMap_singleton']
  have hinner' : ∀ u ∈ joinInputs (t :: sc) (rows :: tables) joins, u.left = false := by
    intro u hu
    exact hinner (u.left, u.on) (hons ▸ List.mem_map_of_mem hu)
  have hon' : ∀ (k : Nat) (u : JoinInput),
      (joinInputs (t :: sc) (rows :: tables) joins)[k]? = some u →
      ∀ tuple ∈ choices ([rows] ++
          ((joinInputs (t :: sc) (rows :: tables) joins).map JoinInput.rows).take (k + 1)),
        true → onsHold env (t :: sc) 1
          (((joinInputs (t :: sc) (rows :: tables) joins).take k).map fun t => (t.left, t.on)) tuple →
        Evaluates env ((t :: sc).take (1 + k + 1)) u.on tuple.flatten := by
    intro k u hu tuple htuple _ hbefore
    have hj : joins[k]? = some (u.left, u.on) := by
      rw [← hons, List.getElem?_map, hu]
      rfl
    rw [hrows] at htuple
    rw [List.map_take, hons] at hbefore
    have hscope : 1 + k + 1 = k + 2 := by omega
    rw [hscope]
    exact hon k _ hj tuple htuple hbefore
  have hchain := joinTables_inner (show [rows].length = 1 from rfl) hinner' (fun _ => true) hon'
  simp only [hstart, hrows, hons, Bool.true_and, List.singleton_append] at hchain
  have hfilter : filterRows env (t :: sc) where_
      (((choices (rows :: tables)).filter (onsHold env (t :: sc) 1 joins)).map List.flatten)
      = .ok ((((choices (rows :: tables)).filter (onsHold env (t :: sc) 1 joins)).map
          List.flatten).filter fun row => where_.all fun w => holds env (t :: sc) w row) := by
    refine filterRows_eq fun w hw row hrow => ?_
    obtain ⟨tuple, htuple, rfl⟩ := List.mem_map.mp hrow
    obtain ⟨htuple, hkept⟩ := List.mem_filter.mp htuple
    exact hwhere w hw tuple htuple hkept
  rw [collectJoined]
  simp only [Prog.eval_bind, hload, Prog.eval_ofExcept, lift]
  show (joinTables env (t :: sc) 1 rows (joinInputs (t :: sc) (rows :: tables) joins) >>= _) = _
  rw [hchain]
  show filterRows _ _ _ _ = _
  rw [hfilter, List.filter_map, List.filter_filter]
  simp only [Function.comp_apply, Bool.and_comm]

end Chain

/-! ## Two tables change places -/

/-- Two FROM items as `execSelect` lays them out. -/
def pairScope (t u : JoinTable) : JoinScope :=
  [{ t with basePos := 0, colIdx := colIndexMap t.td },
   { u with basePos := t.td.cols.length, colIdx := colIndexMap u.td }]

/-- The first `n` columns go behind the others. -/
def swapAt (n : Nat) (row : Row) : Row := row.drop n ++ row.take n

theorem cell_append_left {a b : Row} {i : Nat} (h : i < a.length) :
    cell (a ++ b) i = cell a i := by
  simp [cell, List.getElem?_append_left h]

theorem cell_append_right (a b : Row) (i : Nat) : cell (a ++ b) (a.length + i) = cell b i := by
  unfold cell
  rw [List.getElem?_append_right (Nat.le_add_right _ _), Nat.add_sub_cancel_left]

section Swap

variable {env : Env} {t u : JoinTable} {a b : Row}

/-- A reference comes to the same cell in both orders of the two items, or to
the same error. -/
theorem resolve_swap (halias : t.alias_ ≠ u.alias_) (ha : a.length = t.td.cols.length)
    (hb : b.length = u.td.cols.length) (table name : String) :
    ((pairScope t u).resolve table name >>= cell (a ++ b))
      = ((pairScope u t).resolve table name >>= cell (b ++ a)) := by
  have hleft : ∀ {c d : Row} {i : Nat}, i < c.length → cell (c ++ d) i = cell (d ++ c) (d.length + i) :=
    fun h => (cell_append_left h).trans (cell_append_right _ _ _).symm
  have ht : ∀ i, (colIndexMap t.td).get? name = some i →
      cell (a ++ b) i = cell (b ++ a) (u.td.cols.length + i) := by
    intro i hi
    rw [← hb]
    exact hleft (ha ▸ get?_colIndexMap_lt hi)
  have hu : ∀ i, (colIndexMap u.td).get? name = some i →
      cell (a ++ b) (t.td.cols.length + i) = cell (b ++ a) i := by
    intro i hi
    rw [← ha]
    exact (hleft (hb ▸ get?_colIndexMap_lt hi)).symm
  have hok : ∀ (i : Nat) (row : Row), ((.ok i : Except Failure Nat) >>= cell row) = cell row i :=
    fun _ _ => rfl
  have herr : ∀ (err : SqlError) (row : Row),
      ((sqlErr err : Except Failure Nat) >>= cell row) = sqlErr err := fun _ _ => rfl
  unfold JoinScope.resolve pairScope
  by_cases htable : table = ""
  · -- a bare name: the items that have it count
    cases hti : (colIndexMap t.td).get? name with
    | none =>
      cases huj : (colIndexMap u.td).get? name with
      | none => simp [htable, JoinScope.position, herr, hti, huj]
      | some j => simpa [htable, JoinScope.position, hok, hti, huj] using hu j huj
    | some i =>
      cases huj : (colIndexMap u.td).get? name with
      | none => simpa [htable, JoinScope.position, hok, hti, huj] using ht i hti
      | some j => simp [htable, JoinScope.position, herr, hti, huj]
  · by_cases hta : t.alias_ = table
    · have hua : u.alias_ ≠ table := fun h => halias (hta.trans h.symm)
      cases hti : (colIndexMap t.td).get? name with
      | none => simp [htable, JoinScope.position, herr, hta, hua, hti]
      | some i => simpa [htable, JoinScope.position, hok, hta, hua, hti] using ht i hti
    · by_cases hua : u.alias_ = table
      · cases huj : (colIndexMap u.td).get? name with
        | none => simp [htable, JoinScope.position, herr, hta, hua, huj]
        | some j => simpa [htable, JoinScope.position, hok, hta, hua, huj] using hu j huj
      · simp [htable, hta, hua, herr]

end Swap

/-- What an expression comes to depends on the cells its references come to. -/
theorem evalValueCtx_congr {env : Env} {sc sc' : JoinScope} {row row' : Row}
    (h : ∀ table name, (sc.resolve table name >>= cell row) = (sc'.resolve table name >>= cell row')) :
    (e : Expr) → evalValueCtx env sc row none e = evalValueCtx env sc' row' none e
  | .lit _ => rfl
  | .colRef table name => h table name
  | .func name star arg => rfl
  | .binary op l r => by
    rw [evalValueCtx, evalValueCtx, evalValueCtx_congr h l, evalValueCtx_congr h r]
  | .cmp .. | .isNull .. | .inList .. | .and .. | .or .. | .not _ | .inSub .. => rfl

theorem evalBoolCtx_congr {env : Env} {sc sc' : JoinScope} {row row' : Row}
    (h : ∀ table name, (sc.resolve table name >>= cell row) = (sc'.resolve table name >>= cell row')) :
    (e : Expr) → evalBoolCtx env sc row none e = evalBoolCtx env sc' row' none e
  | .cmp op l r => by
    rw [evalBoolCtx, evalBoolCtx, evalValueCtx_congr h l, evalValueCtx_congr h r]
  | .isNull x _ | .inList x _ _ => by rw [evalBoolCtx, evalBoolCtx, evalValueCtx_congr h x]
  | .and l r | .or l r => by
    rw [evalBoolCtx, evalBoolCtx, evalBoolCtx_congr h l, evalBoolCtx_congr h r]
  | .not x => by rw [evalBoolCtx, evalBoolCtx, evalBoolCtx_congr h x]
  | .lit _ => rfl
  | .binary op l r => by
    rw [evalBoolCtx, evalBoolCtx, evalValueCtx_congr h (.binary op l r)]
  | .colRef .. | .func .. | .inSub .. => rfl

/-! ## Two tables -/

/-- The pair passes the ON and the WHERE. -/
def pairHolds (env : Env) (sc : JoinScope) (on : Expr) (where_ : Option Expr) (a b : Row) : Bool :=
  holds env sc on (a ++ b) && where_.all fun w => holds env sc w (a ++ b)

/-- The ON evaluates on every pair, the WHERE on the pairs that pass the ON. -/
structure PairEvaluates (env : Env) (sc : JoinScope) (on : Expr) (where_ : Option Expr)
    (left right : List Row) : Prop where
  evaluatesOn : ∀ a ∈ left, ∀ b ∈ right, Evaluates env sc on (a ++ b)
  evaluatesWhere : ∀ w, where_ = some w → ∀ a ∈ left, ∀ b ∈ right, holds env sc on (a ++ b) →
    Evaluates env sc w (a ++ b)

section Pair

variable {env : Env} {t u : JoinTable} {o : Answers} {on : Expr} {where_ : Option Expr}
  {left right : List Row}

theorem choices_pair (left right : List Row) :
    choices [left, right] = left.flatMap fun a => right.map fun b => [a, b] := by
  simp [choices, ← List.map_eq_flatMap, Function.comp_def]

theorem loadTables_pair (ht : (loadTable t).eval o = .ok left)
    (hu : (loadTable u).eval o = .ok right) :
    (loadTables [t, u]).eval o = .ok [left, right] := by
  simp only [loadTables, Prog.eval_bind, ht, hu]
  rfl

theorem collectJoined_pair (hload : (loadTables [t, u]).eval o = .ok [left, right])
    (heval : PairEvaluates env [t, u] on where_ left right) :
    (collectJoined env [t, u] [(false, on)] where_).eval o
      = .ok (left.flatMap fun a =>
          (right.filter (pairHolds env [t, u] on where_ a)).map (a ++ ·)) := by
  have hmem : ∀ tuple ∈ choices [left, right], ∃ a ∈ left, ∃ b ∈ right, tuple = [a, b] := by
    intro tuple h
    rw [choices_pair] at h
    obtain ⟨a, ha, h⟩ := List.mem_flatMap.mp h
    obtain ⟨b, hb, rfl⟩ := List.mem_map.mp h
    exact ⟨a, ha, b, hb, rfl⟩
  have hons : ∀ a b, onsHold env [t, u] 1 [(false, on)] [a, b] = holds env [t, u] on (a ++ b) := by
    intro a b
    simp [onsHold]
  rw [collectJoined_inner rfl (by simp) hload]
  · rw [choices_pair, List.filter_flatMap, List.map_flatMap]
    congr 1
    refine List.flatMap_congr fun a _ => ?_
    rw [List.filter_map, List.map_map]
    simp only [Function.comp_def, hons, List.flatten_cons, List.flatten_nil, List.append_nil]
    rfl
  · intro k j hj tuple htuple _
    match k with
    | 0 =>
      cases hj
      obtain ⟨a, ha, b, hb, rfl⟩ := hmem tuple htuple
      simpa using heval.evaluatesOn a ha b hb
    | k + 1 => cases hj
  · intro w hw tuple htuple hpass
    obtain ⟨a, ha, b, hb, rfl⟩ := hmem tuple htuple
    rw [hons] at hpass
    simpa using heval.evaluatesWhere w hw a ha b hb hpass

end Pair

/-! ## The two change places -/

section Swap

variable {env : Env} {t u : JoinTable} {on : Expr} {where_ : Option Expr} {left right : List Row}

theorem evalBool_swap (halias : t.alias_ ≠ u.alias_) {a b : Row}
    (ha : a.length = t.td.cols.length) (hb : b.length = u.td.cols.length) (e : Expr) :
    evalBool env (pairScope t u) e (a ++ b) = evalBool env (pairScope u t) e (b ++ a) :=
  evalBoolCtx_congr (resolve_swap halias ha hb) e

theorem holds_swap (halias : t.alias_ ≠ u.alias_) {a b : Row}
    (ha : a.length = t.td.cols.length) (hb : b.length = u.td.cols.length) (e : Expr) :
    holds env (pairScope t u) e (a ++ b) = holds env (pairScope u t) e (b ++ a) := by
  unfold holds passes
  rw [evalBool_swap halias ha hb]

theorem pairHolds_swap (halias : t.alias_ ≠ u.alias_) {a b : Row}
    (ha : a.length = t.td.cols.length) (hb : b.length = u.td.cols.length) :
    pairHolds env (pairScope t u) on where_ a b = pairHolds env (pairScope u t) on where_ b a := by
  unfold pairHolds
  rw [holds_swap halias ha hb]
  cases where_ with
  | none => rfl
  | some w => rw [Option.all_some, Option.all_some, holds_swap halias ha hb]

theorem PairEvaluates.swap (halias : t.alias_ ≠ u.alias_)
    (hleft : ∀ a ∈ left, a.length = t.td.cols.length)
    (hright : ∀ b ∈ right, b.length = u.td.cols.length)
    (h : PairEvaluates env (pairScope t u) on where_ left right) :
    PairEvaluates env (pairScope u t) on where_ right left where
  evaluatesOn b hb a ha := by
    unfold Evaluates
    rw [← evalBool_swap halias (hleft a ha) (hright b hb)]
    exact h.evaluatesOn a ha b hb
  evaluatesWhere w hw b hb a ha hon := by
    rw [← holds_swap halias (hleft a ha) (hright b hb)] at hon
    unfold Evaluates
    rw [← evalBool_swap halias (hleft a ha) (hright b hb)]
    exact h.evaluatesWhere w hw a ha b hb hon

/-- **Exchanging two tables** exchanges their columns in every row, and
permutes the rows. -/
theorem pair_swap_perm (halias : t.alias_ ≠ u.alias_)
    (hleft : ∀ a ∈ left, a.length = t.td.cols.length)
    (hright : ∀ b ∈ right, b.length = u.td.cols.length) :
    ((left.flatMap fun a => (right.filter (pairHolds env (pairScope t u) on where_ a)).map
        (a ++ ·)).map (swapAt t.td.cols.length)).Perm
      (right.flatMap fun b => (left.filter (pairHolds env (pairScope u t) on where_ b)).map
        (b ++ ·)) := by
  have hmoved : (left.flatMap fun a =>
        (right.filter (pairHolds env (pairScope t u) on where_ a)).map (a ++ ·)).map
          (swapAt t.td.cols.length)
      = left.flatMap fun a =>
          (right.filter (pairHolds env (pairScope t u) on where_ a)).map fun b => b ++ a := by
    rw [List.map_flatMap]
    refine List.flatMap_congr fun a ha => ?_
    rw [List.map_map]
    refine List.map_congr_left fun b _ => ?_
    show swapAt _ (a ++ b) = b ++ a
    rw [swapAt, ← hleft a ha, List.drop_left, List.take_left]
  have hsame : (right.flatMap fun b =>
        (left.filter (pairHolds env (pairScope u t) on where_ b)).map (b ++ ·))
      = right.flatMap fun b =>
          (left.filter fun a => pairHolds env (pairScope t u) on where_ a b).map fun a => b ++ a := by
    refine List.flatMap_congr fun b hb => ?_
    congr 1
    refine List.filter_congr fun a ha => ?_
    exact (pairHolds_swap halias (hleft a ha) (hright b hb)).symm
  rw [hmoved, hsame]
  exact perm_exchange left right _ fun a b => b ++ a

end Swap

/-! ## LEFT JOIN -/

/-- **What a LEFT JOIN makes of the left rows**, by the right rows each of them
matches: a left row stands once for every match, or once without one. -/
structure IsLeftJoin (matched : Row → List Row) (left : List Row)
    (tags : List (Row × Option Row)) : Prop where
  counts : tags.map Prod.fst = left.flatMap fun l => List.replicate (max 1 (matched l).length) l
  unpadded : tags.filterMap (fun p => p.2.map (p.1 ++ ·))
    = left.flatMap fun l => (matched l).map (l ++ ·)
  unmatched : (tags.filter fun p => p.2.isNone).map Prod.fst
    = left.filter fun l => (matched l).isEmpty

section Left

variable {env : Env} {sc : JoinScope} {on : Expr} {right : List Row}

theorem isLeftJoin_tagged (left : List Row) :
    IsLeftJoin (matching env sc on right) left (left.flatMap (tagged env sc on right)) := by
  induction left with
  | nil => exact ⟨rfl, rfl, rfl⟩
  | cons l left ih =>
    obtain ⟨hcounts, hunpadded, hunmatched⟩ := ih
    refine ⟨?_, ?_, ?_⟩
    · rw [List.flatMap_cons, List.map_append, hcounts, List.flatMap_cons]
      congr 1
      unfold tagged
      cases matching env sc on right l with
      | nil => rfl
      | cons r rs => simp [Function.comp_def, List.replicate_succ]
    · rw [List.flatMap_cons, List.filterMap_append, hunpadded, List.flatMap_cons]
      congr 1
      unfold tagged
      cases matching env sc on right l with
      | nil => rfl
      | cons r rs => simp [List.filterMap_map]
    · rw [List.flatMap_cons, List.filter_append, List.map_append, hunmatched, List.filter_cons]
      unfold tagged
      cases matching env sc on right l with
      | nil => rfl
      | cons r rs => simp [List.filter_map, Function.comp_def]

variable {t u : JoinTable} {o : Answers} {left : List Row}

/-- **A LEFT JOIN** of two tables. -/
theorem collectJoined_left (hload : (loadTables [t, u]).eval o = .ok [left, right])
    (heval : ∀ a ∈ left, ∀ b ∈ right, Evaluates env [t, u] on (a ++ b)) :
    (collectJoined env [t, u] [(true, on)] none).eval o
      = .ok ((left.flatMap (tagged env [t, u] on right)).map (padded u.td.cols.length)) := by
  have hjoin := joinRows_left u.td.cols.length heval
  have hfilter : ∀ rows, filterRows env [t, u] none rows = .ok rows := by
    intro rows
    have h : filterRows env [t, u] none rows = .ok (rows.filter fun row =>
        (none : Option Expr).all fun w => holds env [t, u] w row) :=
      filterRows_eq fun w hw => by cases hw
    simpa using h
  rw [collectJoined]
  simp only [Prog.eval_bind, hload, Prog.eval_ofExcept, lift]
  show (joinRows env [t, u] true on u.td.cols.length right left >>= fun joined =>
    joinTables env [t, u] 2 joined []) >>= filterRows env [t, u] none = _
  rw [hjoin]
  exact hfilter _

theorem pairHolds_none (a : Row) :
    right.filter (pairHolds env sc on none a) = matching env sc on right a := by
  refine List.filter_congr fun b _ => ?_
  rw [pairHolds, Option.all_none, Bool.and_true]

end Left

/-- **JOINS MATCH RELATIONAL ALGEBRA.** A chain of INNER JOINs returns the rows
of the product, in lexicographic order, on which every ON over its items and
the WHERE are TRUE; an ON or a WHERE has to evaluate only where the ONs before
it are TRUE. Exchanging two tables exchanges their columns and permutes the
rows. A LEFT JOIN has every left row once for every match, and once padded
where there is none; the rows that are not padded are those of the INNER JOIN. -/
theorem joins_match_relational_algebra (env : Env) (o : Answers) :
    (∀ (sc : JoinScope) (joins : List (Bool × Expr)) (where_ : Option Expr)
        (tables : List (List Row)),
      sc.length = joins.length + 1 → (∀ j ∈ joins, j.1 = false) →
      (loadTables sc).eval o = .ok tables →
      (∀ (k : Nat) (j : Bool × Expr), joins[k]? = some j →
        ∀ tuple ∈ choices (tables.take (k + 2)), onsHold env sc 1 (joins.take k) tuple →
          Evaluates env (sc.take (k + 2)) j.2 tuple.flatten) →
      (∀ w, where_ = some w → ∀ tuple ∈ choices tables, onsHold env sc 1 joins tuple →
        Evaluates env sc w tuple.flatten) →
      (collectJoined env sc joins where_).eval o
        = .ok (((choices tables).filter fun tuple =>
            onsHold env sc 1 joins tuple && where_.all fun w => holds env sc w tuple.flatten).map
              List.flatten)) ∧
    (∀ (t u : JoinTable) (on : Expr) (where_ : Option Expr) (left right : List Row),
      t.alias_ ≠ u.alias_ →
      (loadTable t).eval o = .ok left → (loadTable u).eval o = .ok right →
      (∀ a ∈ left, a.length = t.td.cols.length) → (∀ b ∈ right, b.length = u.td.cols.length) →
      PairEvaluates env (pairScope t u) on where_ left right →
      ∃ rows rows', (collectJoined env (pairScope t u) [(false, on)] where_).eval o = .ok rows ∧
        (collectJoined env (pairScope u t) [(false, on)] where_).eval o = .ok rows' ∧
        (rows.map (swapAt t.td.cols.length)).Perm rows') ∧
    ∀ (t u : JoinTable) (on : Expr) (left right : List Row),
      (loadTables [t, u]).eval o = .ok [left, right] →
      (∀ a ∈ left, ∀ b ∈ right, Evaluates env [t, u] on (a ++ b)) →
      ∃ tags, IsLeftJoin (matching env [t, u] on right) left tags ∧
        (collectJoined env [t, u] [(true, on)] none).eval o
          = .ok (tags.map (padded u.td.cols.length)) ∧
        (collectJoined env [t, u] [(false, on)] none).eval o
          = .ok (tags.filterMap fun p => p.2.map (p.1 ++ ·)) := by
  refine ⟨?_, ?_, ?_⟩
  · intro sc joins where_ tables hjoins hinner hload hon hwhere
    exact collectJoined_inner hjoins hinner hload hon hwhere
  · intro t u on where_ left right halias ht hu hleft hright heval
    exact ⟨_, _, collectJoined_pair (loadTables_pair ht hu) heval,
      collectJoined_pair (loadTables_pair hu ht) (heval.swap halias hleft hright),
      pair_swap_perm halias hleft hright⟩
  · intro t u on left right hload heval
    have htags : IsLeftJoin (matching env [t, u] on right) left
        (left.flatMap (tagged env [t, u] on right)) := isLeftJoin_tagged left
    refine ⟨_, htags, collectJoined_left hload heval, ?_⟩
    rw [collectJoined_pair hload ⟨heval, fun w hw => by cases hw⟩, htags.unpadded]
    simp only [pairHolds_none]

/-- A FROM item with one column, and with its rows at hand. -/
def columnTable (alias_ column : String) (cells : List Value) : JoinTable where
  td := ⟨alias_, [{ name := column, type := .int }]⟩
  alias_ := alias_
  basePos := 0
  colIdx := colIndexMap ⟨alias_, [{ name := column, type := .int }]⟩
  rows := some (cells.map fun c => [c])

/-- `l JOIN r ON x = y`, where `1` has no match and `2` has two. -/
def joinedItems : JoinTable × JoinTable :=
  (columnTable "l" "x" [.int 1, .int 2], columnTable "r" "y" [.int 2, .int 3, .int 2])

def joinedOn : Expr := .cmp .eq (.colRef "l" "x") (.colRef "" "y")

theorem joinedOn_evaluates {a b : Row} (ha : a ∈ [[Value.int 1], [.int 2]])
    (hb : b ∈ [[Value.int 2], [.int 3], [.int 2]]) :
    Evaluates epochEnv (pairScope joinedItems.1 joinedItems.2) joinedOn (a ++ b) := by
  simp only [List.mem_cons, List.not_mem_nil, or_false] at ha hb
  rcases ha with rfl | rfl <;> rcases hb with rfl | rfl | rfl <;> exact ⟨_, rfl⟩

theorem joins_match_relational_algebra_twoTables :
    (collectJoined epochEnv (pairScope joinedItems.1 joinedItems.2) [(false, joinedOn)] none).eval
        (fun c => (Engine.handler c {}).2)
      = .ok [[.int 2, .int 2], [.int 2, .int 2]] ∧
    (∃ rows rows',
      (collectJoined epochEnv (pairScope joinedItems.1 joinedItems.2) [(false, joinedOn)] none).eval
        (fun c => (Engine.handler c {}).2) = .ok rows ∧
      (collectJoined epochEnv (pairScope joinedItems.2 joinedItems.1) [(false, joinedOn)] none).eval
        (fun c => (Engine.handler c {}).2) = .ok rows' ∧ (rows.map (swapAt 1)).Perm rows') ∧
    ∃ tags,
      IsLeftJoin (matching epochEnv (pairScope joinedItems.1 joinedItems.2) joinedOn
        [[.int 2], [.int 3], [.int 2]]) [[.int 1], [.int 2]] tags ∧
      (collectJoined epochEnv (pairScope joinedItems.1 joinedItems.2) [(true, joinedOn)] none).eval
        (fun c => (Engine.handler c {}).2) = .ok (tags.map (padded 1)) ∧
      (collectJoined epochEnv (pairScope joinedItems.1 joinedItems.2) [(false, joinedOn)] none).eval
        (fun c => (Engine.handler c {}).2) = .ok (tags.filterMap fun p => p.2.map (p.1 ++ ·)) := by
  obtain ⟨hchain, hswap, hleft⟩ :=
    joins_match_relational_algebra epochEnv fun c => (Engine.handler c {}).2
  refine ⟨?_, ?_, ?_⟩
  · refine (hchain _ [(false, joinedOn)] none [[[.int 1], [.int 2]], [[.int 2], [.int 3], [.int 2]]]
      rfl (by simp) rfl ?_ (fun w hw => by cases hw)).trans (by decide +kernel)
    intro k j hj tuple htuple _
    match k with
    | 0 =>
      cases hj
      rw [List.take_of_length_le (by simp), choices_pair] at htuple
      obtain ⟨a, ha, htuple⟩ := List.mem_flatMap.mp htuple
      obtain ⟨b, hb, rfl⟩ := List.mem_map.mp htuple
      simpa [pairScope] using joinedOn_evaluates ha hb
    | k + 1 => cases hj
  · exact hswap joinedItems.1 joinedItems.2 joinedOn none [[.int 1], [.int 2]]
      [[.int 2], [.int 3], [.int 2]] (by decide) rfl rfl (by simp [joinedItems, columnTable])
      (by simp [joinedItems, columnTable])
      ⟨fun a ha b hb => joinedOn_evaluates ha hb, fun w hw => by cases hw⟩
  · exact hleft _ _ joinedOn _ _ rfl fun a ha b hb => joinedOn_evaluates ha hb

end Tsql.Executor
