import Mathlib.Data.Fintype.EquivFin
import Tsql.Executor.Frame

/-!
# Derived tables

A derived table `(SELECT ...) alias` should be the relation its SELECT
returns. To say so without speaking of derived tables, put that relation into
the storage under a name nobody uses, and put `name alias` in the place of the
derived table. The executor tells the two kinds of FROM items apart by
whether the slice of rows is nil, and the slice of a result WITHOUT rows is
nil: the rows of such a derived table are loaded from the stored table that
happens to have the alias as its name. `derived_eq_stored_iff` says that this
is the only difference.
-/

namespace Tsql.Executor

open Storage

/-- Rows under ids of their own, in order. -/
def numbered (rows : List Row) : List (Int64 × Row) :=
  rows.zipIdx.map fun p => (Int64.ofNat p.2 + 1, p.1)

theorem map_snd_numbered (rows : List Row) : (numbered rows).map Prod.snd = rows := by
  rw [numbered, List.map_map]
  exact List.zipIdx_map_fst 0 rows

/-- The answers of a storage that has these tables too. -/
def withTables (o : Answers) (extra : List (TableDef × List Row)) : Answers
  | .catalog => o .catalog ++ extra.map Prod.fst
  | .allRows name =>
    match extra.find? fun t => t.1.name = name with
    | some t => .ok (numbered t.2)
    | none => o (.allRows name)
  | .get name rowID =>
    match extra.find? fun t => t.1.name = name with
    | some t => ((numbered t.2).find? fun p => p.1 = rowID).map Prod.snd
    | none => o (.get name rowID)
  | .uniqueGet name colIdx v =>
    match extra.find? fun t => t.1.name = name with
    | some t => ((numbered t.2).find? fun p => p.2[colIdx]? = some v).map Prod.fst
    | none => o (.uniqueGet name colIdx v)
  | .put name rowID row => o (.put name rowID row)
  | .putAuto name pkIdx row => o (.putAuto name pkIdx row)
  | .update name rowID row => o (.update name rowID row)
  | .delete name rowID => o (.delete name rowID)

/-! ## Derived tables as stored ones -/

/-- A FROM item, with a derived table put into the storage under a name. -/
inductive StoredItem (env : Env) (o : Answers) :
    TableRef → TableRef → List (TableDef × List Row) → Prop where
  | table (table alias_ : String) :
      StoredItem env o ⟨table, alias_, none⟩ ⟨table, alias_, none⟩ []
  | derived {sub : Select} {res : Result} (table alias_ name : String)
      (h : (execSelect env sub).eval o = .ok res) :
      StoredItem env o ⟨table, alias_, some sub⟩ ⟨name, alias_, none⟩
        [(⟨name, (derivedDef alias_ res).cols⟩, res.rows)]

/-- The same for the items that are joined. -/
inductive StoredJoins (env : Env) (o : Answers) :
    List Join → List Join → List (TableDef × List Row) → Prop where
  | nil : StoredJoins env o [] [] []
  | cons {ref ref' : TableRef} {joins joins' : List Join} {x xs : List (TableDef × List Row)}
      (left : Bool) (on : Expr) (h : StoredItem env o ref ref' x)
      (hs : StoredJoins env o joins joins' xs) :
      StoredJoins env o (⟨left, ref, on⟩ :: joins) (⟨left, ref', on⟩ :: joins') (x ++ xs)

/-- **The SELECT with its derived tables put into the storage**, under names
that neither the catalog nor the SELECT uses. -/
structure Stored (env : Env) (o : Answers) (s s' : Select) (extra : List (TableDef × List Row)) :
    Prop where
  items : ∃ first joins x xs, StoredItem env o s.first first x ∧
    StoredJoins env o s.joins joins xs ∧ extra = x ++ xs ∧
    s' = { s with first := first, joins := joins }
  distinct : (extra.map fun t => t.1.name).Nodup
  unknown : ∀ t ∈ extra, ∀ d ∈ o .catalog, d.name ≠ t.1.name
  unused : ∀ t ∈ extra, t.1.name ∉ mentions s

/-- The FROM items of a SELECT. -/
def tableRefs (s : Select) : List TableRef := s.first :: s.joins.map Join.ref

/-- **A derived table is the relation its SELECT returns** if that has rows, or
there is a stored table under the alias and it has none. -/
def Materialised (env : Env) (o : Answers) (r : TableRef) : Prop :=
  ∀ sub res, r.sub = some sub → (execSelect env sub).eval o = .ok res → res.rows = [] →
    o (.allRows r.alias_) = .ok []

section

variable {env : Env} {o : Answers} {extra : List (TableDef × List Row)}

theorem extends_withTables (o : Answers) (extra : List (TableDef × List Row)) :
    Extends (extra.map fun t => t.1.name) o (withTables o extra) := by
  have hnone : ∀ n, n ∉ (extra.map fun t => t.1.name) →
      extra.find? (fun t => t.1.name = n) = none := by
    intro n hn
    rw [List.find?_eq_none]
    intro t ht
    simp only [decide_eq_true_eq]
    rintro rfl
    exact hn (List.mem_map_of_mem ht)
  refine ⟨⟨extra.map Prod.fst, rfl, ?_⟩, ?_, ?_, ?_⟩
  · intro d hd
    obtain ⟨t, ht, rfl⟩ := List.mem_map.mp hd
    exact List.mem_map_of_mem ht
  · intro n hn
    simp only [withTables, hnone n hn]
  · intro n hn id
    simp only [withTables, hnone n hn]
  · intro td _ hn ci _ v
    simp only [withTables, hnone td.name hn]

/-- The entry of a name. -/
theorem find?_extra (hdistinct : (extra.map fun t => t.1.name).Nodup) {t : TableDef × List Row}
    (ht : t ∈ extra) : extra.find? (fun u => u.1.name = t.1.name) = some t := by
  induction extra with
  | nil => simp at ht
  | cons u extra ih =>
    simp only [List.map_cons, List.nodup_cons] at hdistinct
    rcases List.mem_cons.mp ht with rfl | ht
    · simp
    · have hne : u.1.name ≠ t.1.name := by
        intro heq
        exact hdistinct.1 (heq ▸ List.mem_map_of_mem ht)
      rw [List.find?_cons, decide_eq_false hne]
      exact ih hdistinct.2 ht

/-- A table that was put into the storage is found there. -/
theorem eval_tableDef_withTables (hdistinct : (extra.map fun t => t.1.name).Nodup)
    (hunknown : ∀ t ∈ extra, ∀ d ∈ o .catalog, d.name ≠ t.1.name) {t : TableDef × List Row}
    (ht : t ∈ extra) : (tableDef t.1.name).eval (withTables o extra) = .ok t.1 := by
  have hfind : (withTables o extra .catalog).find? (fun d : TableDef => d.name = t.1.name) =
      some t.1 := by
    have hnone : (o .catalog).find? (fun d : TableDef => d.name = t.1.name) = none := by
      rw [List.find?_eq_none]
      intro d hd
      simpa using hunknown t ht d hd
    show (o .catalog ++ extra.map Prod.fst).find? _ = _
    rw [List.find?_append, hnone, Option.none_or, List.find?_map]
    have := find?_extra hdistinct ht
    rw [show ((fun d : TableDef => decide (d.name = t.1.name)) ∘ Prod.fst) =
      fun u : TableDef × List Row => decide (u.1.name = t.1.name) from rfl, this]
    rfl
  rw [eval_tableDef, hfind]

/-- **One FROM item** comes to the same once its derived table is stored. -/
theorem StoredItem.fromItem {r r' : TableRef} {x : List (TableDef × List Row)}
    (h : StoredItem env o r r' x) (hdistinct : (extra.map fun t => t.1.name).Nodup)
    (hunknown : ∀ t ∈ extra, ∀ d ∈ o .catalog, d.name ≠ t.1.name)
    (hx : ∀ t ∈ x, t ∈ extra) (hunused : ∀ n ∈ refMentions r, n ∉ extra.map fun t => t.1.name)
    (hr : Materialised env o r) {sc sc' : JoinScope}
    (hsc : SameScope o (withTables o extra) sc sc') :
    Alike (SameScope o (withTables o extra)) ((fromItem env sc r).eval o)
      ((fromItem env sc' r').eval (withTables o extra)) := by
  cases h with
  | table table alias_ => exact frame_fromItem (extends_withTables o extra) hsc _ hunused
  | @derived sub res table alias_ name hsub =>
    have hmem := hx _ (List.mem_singleton_self _)
    have htd := eval_tableDef_withTables hdistinct hunknown hmem
    simp only [Executor.fromItem, Prog.eval_bind, Prog.eval_ofExcept, hsub, htd]
    refine hsc.addItem alias_ (fun _ _ _ => ⟨rfl, ?_, .inl (derivedDef_unique alias_ res)⟩) rfl
    -- the stored rows, on the right
    have hstored : (withTables o extra) (.allRows name) = .ok (numbered res.rows) := by
      have := find?_extra hdistinct hmem
      simp only [withTables, this]
    rw [eval_loadTable (withTables o extra) rfl]
    simp only [hstored, map_snd_numbered]
    -- the preloaded rows, on the left: none are preloaded where there are none
    by_cases hrows : res.rows = []
    · have hpre : preload res.rows = none := if_pos hrows
      have hempty := hr sub res rfl hsub hrows
      rw [eval_loadTable o hpre, hrows,
        show o (.allRows (derivedDef alias_ res).name) = .ok [] from hempty]
      rfl
    · have hpre : preload res.rows = some res.rows := if_neg hrows
      rw [hpre]
      rfl

theorem StoredJoins.fromJoins {joins joins' : List Join} {xs : List (TableDef × List Row)}
    (h : StoredJoins env o joins joins' xs) (hdistinct : (extra.map fun t => t.1.name).Nodup)
    (hunknown : ∀ t ∈ extra, ∀ d ∈ o .catalog, d.name ≠ t.1.name)
    (hx : ∀ t ∈ xs, t ∈ extra)
    (hunused : ∀ n ∈ joinMentions joins, n ∉ extra.map fun t => t.1.name)
    (hr : ∀ r ∈ joins.map Join.ref, Materialised env o r) {sc sc' : JoinScope}
    (hsc : SameScope o (withTables o extra) sc sc') :
    Alike (SameScope o (withTables o extra)) ((fromJoins env sc joins).eval o)
      ((fromJoins env sc' joins').eval (withTables o extra)) := by
  induction h generalizing sc sc' with
  | nil =>
    simp only [Executor.fromJoins]
    exact .ok hsc
  | cons left on hitem hs ih =>
    rw [joinMentions] at hunused
    simp only [List.mem_append] at hunused hx
    simp only [Executor.fromJoins, Prog.eval_bind]
    refine (hitem.fromItem hdistinct hunknown (fun t ht => hx t (.inl ht))
      (fun n hn => hunused n (.inl (.inl hn))) (hr _ (by simp)) hsc).bind fun sc sc' hsc => ?_
    exact ih (fun t ht => hx t (.inr ht)) (fun n hn => hunused n (.inr hn))
      (fun r hm => hr r (by simp [hm])) hsc

theorem StoredJoins.resolveJoins {joins joins' : List Join} {xs : List (TableDef × List Row)}
    (h : StoredJoins env o joins joins' xs) :
    Executor.resolveJoins env joins' = Executor.resolveJoins env joins := by
  induction h with
  | nil => rfl
  | cons left on _ _ ih => simp only [Executor.resolveJoins, ih]

/-- **A SELECT whose derived tables are materialised** returns what it returns
once they are stored. -/
theorem Stored.eval_execSelect {s s' : Select} (h : Stored env o s s' extra)
    (hm : ∀ r ∈ tableRefs s, Materialised env o r) :
    (execSelect env s).eval o = (execSelect env s').eval (withTables o extra) := by
  obtain ⟨first', joins', x, xs, hfirst, hjoins, hextra, rfl⟩ := h.items
  obtain ⟨first, joins, star, fields, where_, group, having, order, limit⟩ := s
  have hext := extends_withTables o extra
  have hunused : ∀ n ∈ mentions ⟨first, joins, star, fields, where_, group, having, order, limit⟩,
      n ∉ extra.map fun t => t.1.name := by
    intro n hn hmem
    obtain ⟨t, ht, rfl⟩ := List.mem_map.mp hmem
    exact h.unused t ht hn
  rw [mentions] at hunused
  simp only [List.mem_append] at hunused
  have hwhere : (resolveOption env where_).eval o =
      (resolveOption env where_).eval (withTables o extra) :=
    frame_resolveOption hext where_ fun n hn => hunused n (.inl (.inr hn))
  have hhaving : (resolveOption env having).eval o =
      (resolveOption env having).eval (withTables o extra) :=
    frame_resolveOption hext having fun n hn => hunused n (.inr hn)
  have hon : (resolveJoins env joins).eval o = (resolveJoins env joins).eval (withTables o extra) :=
    frame_resolveJoins hext joins fun n hn => hunused n (.inl (.inl (.inr hn)))
  simp only [execSelect, Prog.eval_bind, hwhere, hhaving, hon, hjoins.resolveJoins]
  refine alike_eq.mp (Alike.bind (hfirst.fromItem h.distinct h.unknown ?_ ?_ (hm _ (by simp [tableRefs]))
    .nil) fun sc sc' hsc => ?_)
  · intro t ht
    rw [hextra]
    exact List.mem_append_left _ ht
  · exact fun n hn => hunused n (.inl (.inl (.inl hn)))
  · refine Alike.bind (hjoins.fromJoins h.distinct h.unknown ?_ ?_ ?_ hsc)
      fun sc sc' hsc => alike_eq.mpr ?_
    · intro t ht
      rw [hextra]
      exact List.mem_append_right _ ht
    · exact fun n hn => hunused n (.inl (.inl (.inr hn)))
    · exact fun r hr => hm r (by simp [tableRefs, List.mem_map.mp hr])
    · simp only [hsc.eval_runSelect]

/-! ## `SELECT *` from one item -/

/-- `SELECT *`, once its FROM item is a scope. -/
def starPlain : Plain := ⟨[], true, [], none, [], none, [], none⟩

/-- Without a WHERE every row passes. -/
theorem filterRows_none (sc : JoinScope) (rows : List Row) :
    filterRows env sc none rows = .ok rows := by
  induction rows with
  | nil => rfl
  | cons row rows ih =>
    rw [filterRows, ih]
    rfl

/-- `SELECT *` loads the rows and takes every column of each. -/
theorem eval_runSelect_star (o : Answers) (t : JoinTable) :
    (runSelect env [t] starPlain).eval o =
      (loadTable t).eval o >>= fun rows =>
        project ((starFields [t]).map Prod.fst) (rowField env [t]) rows >>= fun out =>
          .ok { columns := (starFields [t]).map Prod.snd, rows := out } := by
  have hplan : planSelect [t] starPlain = .ok ⟨[], false, starFields [t], []⟩ := rfl
  have hrows : ∀ rows, finishSelect env [t] starPlain ⟨[], false, starFields [t], []⟩ rows =
      project ((starFields [t]).map Prod.fst) (rowField env [t]) rows >>= fun out =>
        .ok { columns := (starFields [t]).map Prod.snd, rows := out } := fun _ => rfl
  have hcand : (candidateRows env [t] [] none).eval o = (loadTable t).eval o := by
    show (collectJoined env [t] [] none).eval o = _
    unfold collectJoined loadTables loadTables
    simp only [Prog.eval_bind, Prog.eval_ofExcept]
    cases (loadTable t).eval o with
    | error err => rfl
    | ok rows => exact filterRows_none [t] rows
  unfold runSelect
  simp only [Prog.eval_bind, Prog.eval_ofExcept, hplan]
  show (candidateRows env [t] [] none).eval o >>= _ = _
  rw [hcand]
  simp only [hrows]

/-- `SELECT * FROM r`. -/
def selectStar (r : TableRef) : Select := ⟨r, [], true, [], none, [], none, [], none⟩

/-- The scope of one FROM item. -/
def oneItem (td : TableDef) (alias_ : String) (rows : Option (List Row)) : JoinTable :=
  { td := td, alias_ := alias_, basePos := 0, colIdx := colIndexMap td, rows := rows }

theorem eval_selectStar_derived {sub : Select} {res : Result} (table alias_ : String)
    (h : (execSelect env sub).eval o = .ok res) :
    (execSelect env (selectStar ⟨table, alias_, some sub⟩)).eval o =
      (runSelect env [oneItem (derivedDef alias_ res) alias_ (preload res.rows)] starPlain).eval o := by
  simp only [selectStar, execSelect, fromItem, fromJoins, resolveOption, resolveJoins,
    Prog.eval_bind, h]
  rfl

theorem eval_selectStar_stored {td : TableDef} (table alias_ : String)
    (h : (tableDef table).eval o = .ok td) :
    (execSelect env (selectStar ⟨table, alias_, none⟩)).eval o =
      (runSelect env [oneItem td alias_ none] starPlain).eval o := by
  simp only [selectStar, execSelect, fromItem, fromJoins, resolveOption, resolveJoins,
    Prog.eval_bind, h]
  rfl

/-- A projection keeps the number of rows. -/
theorem length_of_project {plans : List FieldPlan} {field : Row → FieldPlan → Except Failure Value}
    {rows out : List Row} (h : project plans field rows = .ok out) : out.length = rows.length := by
  unfold project at h
  induction rows generalizing out with
  | nil =>
    cases h
    rfl
  | cons row rows ih =>
    rw [List.mapM_cons] at h
    obtain ⟨r, -, h⟩ := bind_eq_ok.mp h
    obtain ⟨rs, hrs, h⟩ := bind_eq_ok.mp h
    cases h
    rw [List.length_cons, ih hrs, List.length_cons]

end

/-- **Derived tables are materialised relations exactly if** each of them has
rows or an empty stored table as its namesake. For any answers of an accessor
and any set `D` of derived tables: every SELECT whose derived FROM items are
in `D` returns the same columns, rows or error as the SELECT in which they
are stored tables, exactly if every member of `D` whose SELECT returns no rows
has an alias that is the name of a stored table without rows. -/
theorem derived_eq_stored_iff (env : Env) (o : Answers) (D : TableRef → Prop) :
    (∀ s s' extra, (∀ r ∈ tableRefs s, r.sub.isSome = true → D r) → Stored env o s s' extra →
      (execSelect env s).eval o = (execSelect env s').eval (withTables o extra)) ↔
      ∀ r, D r → Materialised env o r := by
  constructor
  · rintro hall ⟨table, alias_, _⟩ hD sub res rfl hres hrows
    -- a name nobody uses
    obtain ⟨name, hname⟩ := Infinite.exists_notMem_finset
      ((o .catalog).map TableDef.name ++ mentions (selectStar ⟨table, alias_, some sub⟩)).toFinset
    rw [List.mem_toFinset, List.mem_append, not_or] at hname
    have hstored : Stored env o (selectStar ⟨table, alias_, some sub⟩)
        (selectStar ⟨name, alias_, none⟩)
        [(⟨name, (derivedDef alias_ res).cols⟩, res.rows)] := by
      refine ⟨⟨_, _, _, _, .derived table alias_ name hres, .nil, rfl, rfl⟩, by simp, ?_, ?_⟩
      · simp only [List.mem_singleton, forall_eq]
        intro d hd heq
        exact hname.1 (List.mem_map.mpr ⟨d, hd, heq⟩)
      · simp only [List.mem_singleton, forall_eq]
        exact hname.2
    have heq := hall _ _ _ (by simpa [tableRefs, selectStar] using hD) hstored
    have htd := eval_tableDef_withTables hstored.distinct hstored.unknown
      (List.mem_singleton_self _)
    have hload : withTables o [(⟨name, (derivedDef alias_ res).cols⟩, res.rows)] (.allRows name) =
        .ok [] := by
      simp [withTables, hrows, numbered]
    rw [eval_selectStar_derived table alias_ hres, eval_selectStar_stored name alias_ htd,
      eval_runSelect_star, eval_runSelect_star, eval_loadTable _ (if_pos hrows),
      eval_loadTable _ rfl] at heq
    simp only [oneItem, hload] at heq
    -- the stored table has no rows, so neither has the other
    show o (.allRows (derivedDef alias_ res).name) = .ok []
    cases hrows' : o (.allRows (derivedDef alias_ res).name) with
    | error err =>
      simp only [hrows'] at heq
      cases heq
    | ok l =>
      simp only [hrows'] at heq
      obtain ⟨rows, hl, heq⟩ := bind_eq_ok.mp heq
      obtain ⟨out, hout, heq⟩ := bind_eq_ok.mp heq
      have hnil : out = [] := congrArg Result.rows (Except.ok.inj heq)
      have hlen := length_of_project hout
      rw [hnil, ← Except.ok.inj hl, List.length_map] at hlen
      rw [List.length_eq_zero_iff.mp hlen.symm]
  · intro hD s s' extra hs hstored
    refine hstored.eval_execSelect fun r hr sub res hsub => ?_
    exact hD r (hs r hr (by simp [hsub])) sub res hsub

/-- A storage with two tables of one column: `a` has a row, `b` has none. -/
def rowAndNone : Answers := fun c =>
  (Engine.handler c (((({} : Engine).createTable "a" [{ name := "x", type := .int }]).1.createTable
    "b" [{ name := "x", type := .int }]).1.put "a" 1 [.int 7]).1).2

/-- `(SELECT * FROM b) a`: a derived table without rows, under the name of a
stored table that has one. -/
def emptyAsA : TableRef := ⟨"", "a", some (selectStar ⟨"b", "b", none⟩)⟩

/-- **A derived table without rows shows those of its namesake**, and without a
namesake it is an unknown relation. The stored table in its place has no rows. -/
theorem empty_derived_reads_namesake :
    Stored epochEnv rowAndNone (selectStar emptyAsA) (selectStar ⟨"fresh", "a", none⟩)
      [(⟨"fresh", [{ name := "x", type := .text }]⟩, [])] ∧
    (execSelect epochEnv (selectStar emptyAsA)).eval rowAndNone =
      .ok { columns := ["x"], rows := [[.int 7]] } ∧
    (execSelect epochEnv (selectStar { emptyAsA with alias_ := "c" })).eval rowAndNone =
      .error (.storage .noTable) ∧
    (execSelect epochEnv (selectStar ⟨"fresh", "a", none⟩)).eval
        (withTables rowAndNone [(⟨"fresh", [{ name := "x", type := .text }]⟩, [])]) =
      .ok { columns := ["x"], rows := [] } := by
  refine ⟨⟨⟨⟨"fresh", "a", none⟩, [], [(⟨"fresh", [{ name := "x", type := .text }]⟩, [])], [],
    ?_, .nil, rfl, rfl⟩, ?_, ?_, ?_⟩, by decide +kernel⟩
  · have hres : (execSelect epochEnv (selectStar ⟨"b", "b", none⟩)).eval rowAndNone =
        .ok { columns := ["x"], rows := [] } := by
      decide +kernel
    exact .derived "" "a" "fresh" hres
  · decide
  · decide +kernel
  · decide +kernel

end Tsql.Executor
