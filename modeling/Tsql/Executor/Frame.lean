import Tsql.Executor.ReadOnly
import Tsql.Executor.Shape

/-!
# What a query can tell apart

A query sees of the storage what it answers (`Answers`). It asks for the tables
it names, and an index only for a UNIQUE column. So two storages that answer
alike there give it the same outcome, whatever else they hold
(`frame_execSelect`).
-/

namespace Tsql.Executor

open Storage

variable {td : TableDef} {t : JoinTable}

/-- What an accessor answers, at one moment. -/
abbrev Answers := (c : Accessor.Call) → Accessor.Reply c

/-! ## Outcomes, side by side -/

/-- Both fail alike, or both succeed with results in the relation. -/
inductive Alike {α β : Type} (R : α → β → Prop) : Except Failure α → Except Failure β → Prop where
  | ok {a : α} {b : β} (h : R a b) : Alike R (.ok a) (.ok b)
  | error (err : Failure) : Alike R (.error err) (.error err)

theorem Alike.bind {α β α' β' : Type} {R : α → β → Prop} {S : α' → β' → Prop}
    {x : Except Failure α} {y : Except Failure β} {f : α → Except Failure α'}
    {g : β → Except Failure β'} (h : Alike R x y) (hfg : ∀ a b, R a b → Alike S (f a) (g b)) :
    Alike S (x >>= f) (y >>= g) := by
  cases h with
  | ok h => exact hfg _ _ h
  | error err => exact .error err

theorem alike_eq {α : Type} {x y : Except Failure α} : Alike (· = ·) x y ↔ x = y := by
  constructor
  · intro h
    cases h with
    | ok h => rw [h]
    | error err => rfl
  · rintro rfl
    cases x with
    | ok a => exact .ok rfl
    | error err => exact .error err

/-! ## FROM items that come to the same -/

/-- Two FROM items, each with the answers it is evaluated against, that a
query cannot tell apart. -/
structure SameItem (o o' : Answers) (t t' : JoinTable) : Prop where
  shape : t.shape = t'.shape
  load : (loadTable t).eval o = (loadTable t').eval o'
  /-- there is no index to ask, or both ask the same one -/
  index : (∀ c ∈ t.td.cols, c.unique = false) ∨
    t.rows = t'.rows ∧ t.td.name = t'.td.name ∧
      (∀ id, o (.get t.td.name id) = o' (.get t.td.name id)) ∧
      ∀ ci ∈ uniqCols t.td.cols, ∀ v,
        o (.uniqueGet t.td.name ci v) = o' (.uniqueGet t.td.name ci v)

abbrev SameScope (o o' : Answers) : JoinScope → JoinScope → Prop := List.Forall₂ (SameItem o o')

section

variable {env : Env} {o o' : Answers} {sc sc' : JoinScope}

theorem SameScope.shape_eq (h : SameScope o o' sc sc') : sc.shape = sc'.shape := by
  induction h with
  | nil => rfl
  | cons ht _ ih => exact congrArg₂ List.cons ht.shape ih

theorem SameScope.eval_loadTables (h : SameScope o o' sc sc') :
    (loadTables sc).eval o = (loadTables sc').eval o' := by
  induction h with
  | nil => rfl
  | cons ht _ ih =>
    simp only [loadTables, Prog.eval_bind, ht.load, ih]
    rfl

/-- What is joined, without the name of its table. -/
def JoinInput.shape (t : JoinInput) : JoinInput := { t with td := ⟨"", t.td.cols⟩ }

theorem joinTables_map_shape (n : Nat) (joined : List Row) (inputs : List JoinInput) :
    joinTables env sc n joined (inputs.map JoinInput.shape) = joinTables env sc n joined inputs := by
  induction inputs generalizing n joined with
  | nil => rfl
  | cons t inputs ih =>
    simp only [List.map_cons, joinTables, ih]
    rfl

theorem map_shape_joinInputs (sc : JoinScope) (rows : List (List Row))
    (joins : List (Bool × Expr)) :
    (joinInputs sc rows joins).map JoinInput.shape = joinInputs sc.shape rows joins := by
  unfold joinInputs
  rw [JoinScope.shape, ← List.map_tail, List.zip_map_left, List.zip_map_left, List.map_map,
    List.map_map]
  rfl

/-- What is joined is used for its width, its rows, and its join. -/
theorem joinTables_joinInputs (h : sc.shape = sc'.shape) (n : Nat) (joined : List Row)
    (rows : List (List Row)) (joins : List (Bool × Expr)) :
    joinTables env sc n joined (joinInputs sc rows joins) =
      joinTables env sc' n joined (joinInputs sc' rows joins) := by
  rw [← joinTables_map_shape, ← joinTables_shape, map_shape_joinInputs, h,
    ← map_shape_joinInputs, joinTables_shape, joinTables_map_shape]

theorem SameScope.eval_collectJoined (h : SameScope o o' sc sc') (joins : List (Bool × Expr))
    (where_ : Option Expr) :
    (collectJoined env sc joins where_).eval o = (collectJoined env sc' joins where_).eval o' := by
  have hfilter : filterRows env sc where_ = filterRows env sc' where_ := by
    funext rows
    rw [← filterRows_shape, h.shape_eq, filterRows_shape]
  simp only [collectJoined, Prog.eval_bind, h.eval_loadTables, Prog.eval_ofExcept,
    joinTables_joinInputs h.shape_eq, hfilter]

/-- The shortcut is taken for a UNIQUE column. -/
theorem mem_uniqCols_of_uniqueEquality {w : Expr} {alias_ : String} {ci : Nat}
    {lit : Value} (h : uniqueEquality w alias_ td = some (ci, lit)) : ci ∈ uniqCols td.cols := by
  unfold uniqueEquality at h
  split at h
  · cases h
  split at h
  · cases h
  split at h
  · cases h
  next i hi =>
  obtain ⟨hlt, hc, -⟩ := List.findIdx?_eq_some_iff_getElem.mp hi
  split at h
  · cases h
  split at h
  · cases h
  cases h
  simp only [decide_eq_true_eq] at hc
  exact mem_uniqCols.mpr ⟨_, List.getElem?_eq_getElem hlt, hc.2⟩

theorem uniqueEquality_none (h : ∀ c ∈ td.cols, c.unique = false) (w : Expr)
    (alias_ : String) : uniqueEquality w alias_ td = none := by
  unfold uniqueEquality
  cases columnEqLiteral w with
  | none => rfl
  | some q =>
    obtain ⟨table, name, v⟩ := q
    have hnone : td.cols.findIdx? (fun c => c.name = name ∧ c.unique) = none := by
      rw [List.findIdx?_eq_none_iff]
      intro c hc
      simp [h c hc]
    simp only [hnone]
    split <;> rfl

theorem candidateRows_eq_collectJoined (h : ∀ c ∈ t.td.cols, c.unique = false)
    (joins : List (Bool × Expr)) (where_ : Option Expr) :
    candidateRows env [t] joins where_ = collectJoined env [t] joins where_ := by
  unfold candidateRows
  cases where_ with
  | none => rfl
  | some w =>
    dsimp only
    rw [uniqueEquality_none h]
    split <;> rfl

theorem passes_congr (h : sc.shape = sc'.shape) (e : Expr) (row : Row) :
    passes env sc e row = passes env sc' e row := by
  rw [← passes_shape, h, passes_shape]

/-- The shortcut on two items that ask the same index. -/
theorem eval_lookupUnique_congr (h : sc.shape = sc'.shape) {name : String}
    (hget : ∀ id, o (.get name id) = o' (.get name id)) {ci : Nat}
    (hunique : ∀ v, o (.uniqueGet name ci v) = o' (.uniqueGet name ci v)) (w : Expr) (lit : Value) :
    (lookupUnique env sc name w ci lit).eval o = (lookupUnique env sc' name w ci lit).eval o' := by
  have hu : (uniqueGet name ci lit).eval o = (uniqueGet name ci lit).eval o' :=
    congrArg Except.ok (hunique lit)
  have hg : ∀ id, (get name id).eval o = (get name id).eval o' :=
    fun id => congrArg Except.ok (hget id)
  unfold lookupUnique
  rw [Prog.eval_bind, Prog.eval_bind, hu]
  congr 1
  funext r
  cases r with
  | none => rfl
  | some id =>
    dsimp only
    rw [Prog.eval_bind, Prog.eval_bind, hg]
    congr 1
    funext row
    cases row with
    | none => rfl
    | some row =>
      dsimp only
      rw [passes_congr h, Prog.eval_bind, Prog.eval_bind, Prog.eval_ofExcept,
        Prog.eval_ofExcept]
      rfl

/-- **Scopes that come to the same have the same candidates.** -/
theorem SameScope.eval_candidateRows (h : SameScope o o' sc sc') (joins : List (Bool × Expr))
    (where_ : Option Expr) :
    (candidateRows env sc joins where_).eval o = (candidateRows env sc' joins where_).eval o' := by
  have hjoined : (collectJoined env sc joins where_).eval o =
      (collectJoined env sc' joins where_).eval o' := h.eval_collectJoined joins where_
  have hshape := h.shape_eq
  cases h with
  | nil => exact hjoined
  | @cons t t' rest rest' ht hrest =>
    cases hrest with
    | cons _ _ => exact hjoined
    | nil =>
      have hcols : t.td.cols = t'.td.cols := congrArg (fun t => t.td.cols) ht.shape
      have halias : t.alias_ = t'.alias_ := congrArg (fun t => t.alias_) ht.shape
      rcases ht.index with hno | ⟨hrows, hname, hget, hunique⟩
      · rw [candidateRows_eq_collectJoined hno,
          candidateRows_eq_collectJoined (t := t') (hcols ▸ hno)]
        exact hjoined
      · cases where_ with
        | none => exact hjoined
        | some w =>
          have hueq : uniqueEquality w t.alias_ t.td = uniqueEquality w t'.alias_ t'.td := by
            show uniqueEquality w t.alias_ ⟨"", t.td.cols⟩ =
              uniqueEquality w t'.alias_ ⟨"", t'.td.cols⟩
            rw [hcols, halias]
          unfold candidateRows
          dsimp only
          rw [← hrows, ← hueq, ← hname]
          split
          · cases heq : uniqueEquality w t.alias_ t.td with
            | none => exact hjoined
            | some q =>
              obtain ⟨ci, lit⟩ := q
              dsimp only
              rw [Prog.eval_bind, Prog.eval_bind, eval_lookupUnique_congr hshape hget
                (hunique ci (mem_uniqCols_of_uniqueEquality heq))]
              rfl
          · exact hjoined

/-- **Scopes that come to the same give a query the same outcome.** -/
theorem SameScope.eval_runSelect (h : SameScope o o' sc sc') (p : Plain) :
    (runSelect env sc p).eval o = (runSelect env sc' p).eval o' := by
  have hplan : planSelect sc p = planSelect sc' p := by
    rw [← planSelect_shape, h.shape_eq, planSelect_shape]
  have hfinish : finishSelect env sc = finishSelect env sc' := by
    funext s plan rows
    rw [← finishSelect_shape, h.shape_eq, finishSelect_shape]
  simp only [runSelect, Prog.eval_bind, Prog.eval_ofExcept, hplan, h.eval_candidateRows, hfinish]

/-- One more item on both sides. -/
theorem SameScope.addItem (h : SameScope o o' sc sc') {td td' : TableDef} (alias_ : String)
    {rows rows' : Option (List Row)} (ht : ∀ basePos colIdx, td.cols = td'.cols → SameItem o o'
      { td := td, alias_ := alias_, basePos := basePos, colIdx := colIdx, rows := rows }
      { td := td', alias_ := alias_, basePos := basePos, colIdx := colIdx, rows := rows' })
    (hcols : td.cols = td'.cols) :
    Alike (SameScope o o') (addItem sc td alias_ rows) (addItem sc' td' alias_ rows') := by
  have hany : (sc.any fun t => t.alias_ = alias_) = sc'.any fun t => t.alias_ = alias_ := by
    have hmap : ∀ sc : JoinScope, (sc.any fun t => t.alias_ = alias_) =
        sc.shape.any fun t => t.alias_ = alias_ := by
      intro sc
      rw [JoinScope.shape, List.any_map]
      rfl
    rw [hmap sc, h.shape_eq, ← hmap]
  have hsum : (sc.map fun t => t.td.cols.length).sum = (sc'.map fun t => t.td.cols.length).sum := by
    have hmap : ∀ sc : JoinScope, (sc.map fun t => t.td.cols.length) =
        sc.shape.map fun t => t.td.cols.length := by
      intro sc
      rw [JoinScope.shape, List.map_map]
      rfl
    rw [hmap sc, h.shape_eq, ← hmap]
  have hidx : colIndexMap td = colIndexMap td' := by
    rw [colIndexMap, colIndexMap, hcols]
  unfold Executor.addItem
  rw [hany, hsum, hidx]
  split
  · exact .error _
  · exact .ok (List.rel_append h (.cons (ht _ _ hcols) .nil))

end

/-! ## The frame -/

/-- The second storage has more tables than the first, under the names `F`,
and answers alike for all others, an index as far as the catalog has one. -/
structure Extends (F : List String) (o o' : Answers) : Prop where
  catalog : ∃ defs, o' .catalog = o .catalog ++ defs ∧ ∀ d ∈ defs, d.name ∈ F
  allRows : ∀ n, n ∉ F → o (.allRows n) = o' (.allRows n)
  get : ∀ n, n ∉ F → ∀ id, o (.get n id) = o' (.get n id)
  uniqueGet : ∀ td ∈ o .catalog, td.name ∉ F → ∀ ci ∈ uniqCols td.cols, ∀ v,
    o (.uniqueGet td.name ci v) = o' (.uniqueGet td.name ci v)

section

variable {F : List String} {o o' : Answers}

theorem eval_tableDef (o : Answers) (n : String) :
    (tableDef n).eval o =
      match (o .catalog).find? (fun d : TableDef => d.name = n) with
      | some d => .ok d
      | none => sqlErr (.noRelation n) := by
  have hcat : catalog.eval o = .ok (o .catalog) := rfl
  unfold tableDef
  rw [Prog.eval_bind, hcat]
  refine Eq.trans (b := Prog.eval o _) rfl ?_
  cases (o .catalog).find? (fun d : TableDef => d.name = n) <;> rfl

theorem Extends.eval_tableDef (h : Extends F o o') {n : String} (hn : n ∉ F) :
    (tableDef n).eval o = (tableDef n).eval o' := by
  obtain ⟨defs, hcat, hnames⟩ := h.catalog
  have hnone : defs.find? (fun d => d.name = n) = none := by
    rw [List.find?_eq_none]
    intro d hd
    simp only [decide_eq_true_eq]
    rintro rfl
    exact hn (hnames d hd)
  have hfind : (o' .catalog).find? (fun d : TableDef => d.name = n) =
      (o .catalog).find? (fun d : TableDef => d.name = n) := by
    rw [hcat, List.find?_append, hnone, Option.or_none]
  rw [Executor.eval_tableDef, Executor.eval_tableDef, hfind]

/-- The definition that is found has the name that was looked for. -/
theorem name_of_tableDef {n : String} (h : (tableDef n).eval o = .ok td) :
    td.name = n := by
  unfold tableDef at h
  rw [Prog.eval_bind] at h
  obtain ⟨defs, -, h⟩ := bind_eq_ok.mp h
  cases hf : defs.find? fun d => d.name = n with
  | none =>
    rw [hf] at h
    cases h
  | some d =>
    rw [hf] at h
    cases h
    simpa using List.find?_some hf

theorem mem_catalog_of_tableDef {n : String} (h : (tableDef n).eval o = .ok td) :
    td ∈ o .catalog := by
  rw [eval_tableDef] at h
  cases hf : (o .catalog).find? (fun d : TableDef => d.name = n) with
  | none =>
    rw [hf] at h
    cases h
  | some d =>
    rw [hf] at h
    cases h
    exact List.mem_of_find?_eq_some hf

/-- The rows of an item that is not preloaded are those of its table. -/
theorem eval_loadTable (o : Answers) (h : t.rows = none) :
    (loadTable t).eval o =
      match o (.allRows t.td.name) with
      | .ok l => .ok (l.map Prod.snd)
      | .error err => .error (.storage err) := by
  have hall : (allRows t.td.name).eval o = .ok (o (.allRows t.td.name)) := rfl
  unfold loadTable
  rw [h]
  dsimp only
  rw [Prog.eval_bind, hall]
  cases o (.allRows t.td.name) <;> rfl

theorem Extends.eval_loadTable (h : Extends F o o') (hn : t.td.name ∉ F) :
    (loadTable t).eval o = (loadTable t).eval o' := by
  cases hrows : t.rows with
  | none => rw [Executor.eval_loadTable o hrows, Executor.eval_loadTable o' hrows, h.allRows _ hn]
  | some rows =>
    unfold loadTable
    rw [hrows]
    rfl

/-- A stored item under an old name is the same on both sides. -/
theorem Extends.sameItem_stored (h : Extends F o o') (hn : t.td.name ∉ F)
    (ht : t.td ∈ o .catalog) : SameItem o o' t t where
  shape := rfl
  load := h.eval_loadTable hn
  index := .inr ⟨rfl, rfl, h.get _ hn, h.uniqueGet _ ht hn⟩

theorem derivedDef_unique (alias_ : String) (res : Result) :
    ∀ c ∈ (derivedDef alias_ res).cols, c.unique = false := by
  intro c hc
  obtain ⟨p, -, rfl⟩ := List.mem_map.mp hc
  rfl

variable {env : Env}

mutual

/-- **A SELECT that does not name the new tables does not see them.** -/
theorem frame_execSelect (h : Extends F o o') : (s : Select) → (∀ n ∈ mentions s, n ∉ F) →
    (execSelect env s).eval o = (execSelect env s).eval o'
  | ⟨first, joins, _, _, where_, _, having, _, _⟩, hs => by
    rw [mentions] at hs
    simp only [List.mem_append] at hs
    have hfirst := frame_fromItem h .nil first fun n hn => hs n (.inl (.inl (.inl hn)))
    have hwhere := frame_resolveOption h where_ fun n hn => hs n (.inl (.inr hn))
    have hhaving := frame_resolveOption h having fun n hn => hs n (.inr hn)
    have hon := frame_resolveJoins h joins fun n hn => hs n (.inl (.inl (.inr hn)))
    simp only [execSelect, Prog.eval_bind, hwhere, hhaving, hon]
    refine alike_eq.mp (hfirst.bind fun sc sc' hsc => ?_)
    refine (frame_fromJoins h hsc joins fun n hn => hs n (.inl (.inl (.inr hn)))).bind
      fun sc sc' hsc => alike_eq.mpr ?_
    simp only [hsc.eval_runSelect]

theorem frame_fromItem (h : Extends F o o') {sc sc' : JoinScope} (hsc : SameScope o o' sc sc') :
    (r : TableRef) → (∀ n ∈ refMentions r, n ∉ F) →
    Alike (SameScope o o') ((fromItem env sc r).eval o) ((fromItem env sc' r).eval o')
  | ⟨_, alias_, some sub⟩, hr => by
    rw [refMentions] at hr
    have hsub := frame_execSelect h sub fun n hn => hr n (by simp [hn])
    simp only [fromItem, Prog.eval_bind, Prog.eval_ofExcept, hsub]
    refine (alike_eq.mpr rfl).bind fun res res' hres => ?_
    subst hres
    refine hsc.addItem alias_ (fun _ _ _ => ?_) rfl
    exact ⟨rfl, h.eval_loadTable (hr alias_ (by simp)), .inl (derivedDef_unique alias_ res)⟩
  | ⟨table, alias_, none⟩, hr => by
    rw [refMentions] at hr
    have hn : table ∉ F := hr table (by simp)
    simp only [fromItem, Prog.eval_bind, Prog.eval_ofExcept, ← h.eval_tableDef hn]
    cases htd : (tableDef table).eval o with
    | error err => exact .error err
    | ok td =>
      refine hsc.addItem alias_ (fun _ _ _ => ?_) rfl
      refine h.sameItem_stored ?_ (mem_catalog_of_tableDef htd)
      show td.name ∉ F
      rw [name_of_tableDef htd]
      exact hn

theorem frame_fromJoins (h : Extends F o o') {sc sc' : JoinScope} (hsc : SameScope o o' sc sc') :
    (joins : List Join) → (∀ n ∈ joinMentions joins, n ∉ F) →
    Alike (SameScope o o') ((fromJoins env sc joins).eval o) ((fromJoins env sc' joins).eval o')
  | [], _ => by
    simp only [fromJoins]
    exact .ok hsc
  | ⟨_, ref, on⟩ :: joins, hj => by
    rw [joinMentions] at hj
    simp only [List.mem_append] at hj
    simp only [fromJoins, Prog.eval_bind]
    exact (frame_fromItem h hsc ref fun n hn => hj n (.inl (.inl hn))).bind
      fun sc sc' hsc => frame_fromJoins h hsc joins fun n hn => hj n (.inr hn)

theorem frame_resolveJoins (h : Extends F o o') : (joins : List Join) →
    (∀ n ∈ joinMentions joins, n ∉ F) →
    (resolveJoins env joins).eval o = (resolveJoins env joins).eval o'
  | [], _ => by
    simp only [resolveJoins]
    rfl
  | ⟨_, ref, on⟩ :: joins, hj => by
    rw [joinMentions] at hj
    simp only [List.mem_append] at hj
    have hon := frame_resolveInSubqueries h on fun n hn => hj n (.inl (.inr hn))
    have hrest := frame_resolveJoins h joins fun n hn => hj n (.inr hn)
    simp only [resolveJoins, Prog.eval_bind, hon, hrest]
    rfl

theorem frame_resolveOption (h : Extends F o o') : (e : Option Expr) →
    (∀ n ∈ optionMentions e, n ∉ F) →
    (resolveOption env e).eval o = (resolveOption env e).eval o'
  | none, _ => by
    simp only [resolveOption]
    rfl
  | some e, he => by
    rw [optionMentions] at he
    have he := frame_resolveInSubqueries h e he
    simp only [resolveOption, Prog.eval_bind, he]
    rfl

theorem frame_resolveInSubqueries (h : Extends F o o') : (e : Expr) →
    (∀ n ∈ exprMentions e, n ∉ F) →
    (resolveInSubqueries env e).eval o = (resolveInSubqueries env e).eval o'
  | .inSub x sub neg, he => by
    rw [exprMentions] at he
    have hsub := frame_execSelect h sub he
    simp only [resolveInSubqueries, Prog.eval_bind, hsub]
    congr 1
    funext res
    split
    · rfl
    · rw [Prog.eval_bind, Prog.eval_bind, Prog.eval_ofExcept, Prog.eval_ofExcept]
      rfl
  | .cmp _ l r, he | .and l r, he | .or l r, he | .binary _ l r, he => by
    rw [exprMentions] at he
    simp only [List.mem_append] at he
    have hl := frame_resolveInSubqueries h l fun n hn => he n (.inl hn)
    have hr := frame_resolveInSubqueries h r fun n hn => he n (.inr hn)
    simp only [resolveInSubqueries, Prog.eval_bind, hl, hr]
    rfl
  | .not x, he | .isNull x _, he | .inList x _ _, he => by
    rw [exprMentions] at he
    have hx := frame_resolveInSubqueries h x he
    simp only [resolveInSubqueries, Prog.eval_bind, hx]
    rfl
  | .lit _, _ | .colRef _ _, _ | .func _ _ _, _ => by
    simp only [resolveInSubqueries]
    rfl

end

end

end Tsql.Executor
