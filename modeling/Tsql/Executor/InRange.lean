import Tsql.Executor.Calm
import Tsql.Executor.Derived
import Tsql.Storage.Integrity

/-!
# No cell is read past its row

The rows a SELECT loads fill its FROM items, with one exception: a derived
table WITHOUT rows gets those of the stored table that has its alias as its
name, under the columns of its own SELECT. `select_in_range_iff` says that
this is the only way to read past a row, also while other sessions write
between two calls of the SELECT.
-/

namespace Tsql.Executor

open Storage

/-! ## The rows that are loaded

Other sessions may write between two calls of a SELECT. So each call is
answered in any of a set `S` of states. -/

/-- The program does not panic, whichever of the states answer its calls, and
its result satisfies `Q`. -/
abbrev Stable {α : Type} (S : Set Session) (Q : α → Prop) (p : Exec α) : Prop :=
  Prog.Always Session.reply S (· ≠ Failure.panic) Q p

/-- A FROM item whose rows fit its columns, loaded or looked up. -/
structure Loads (S : Set Session) (t : JoinTable) : Prop where
  rows : Stable S (Filled t) (loadTable t)
  index : (∃ c ∈ t.td.cols, c.unique = true) → ∀ s ∈ S, ∀ id row,
    s.reply (.get t.td.name id) = some row → t.td.cols.length ≤ row.length

section Loading

variable {env : Env} {S : Set Session} {sc : JoinScope}

theorem stable_loadTables (h : ∀ t ∈ sc, Loads S t) :
    Stable S (List.Forall₂ Filled sc) (loadTables sc) := by
  induction sc with
  | nil => exact .ret .nil
  | cons t sc ih =>
    rw [loadTables]
    refine (h t List.mem_cons_self).rows.bind fun rows hrows => ?_
    refine (ih fun t' ht' => h t' (List.mem_cons_of_mem t ht')).bind fun rest hrest => ?_
    exact .ret (List.Forall₂.cons hrows hrest)

theorem stable_collectJoined (hsc : Laid 0 sc) (h : ∀ t ∈ sc, Loads S t)
    {joins : List (Bool × Expr)} (hlen : sc.length = joins.length + 1) (where_ : Option Expr) :
    Stable S (Wide sc.width) (collectJoined env sc joins where_) := by
  refine (stable_loadTables h).bind fun rows hrows => .ofExcept ?_
  cases hrows with
  | nil => cases hlen
  | @cons t first rest rows hfirst hrows =>
    refine (calm_joinTables (n := 1) hsc ?_ ?_).bind fun joined hjoined =>
      calm_filterRows hsc where_ hjoined
    · exact joinInputs_filled hrows (Nat.succ.inj hlen).symm
    · simpa [JoinScope.width] using hfirst

theorem stable_lookupUnique (hsc : Laid 0 sc) {name : String} {w : Expr} {ci : Nat} {lit : Value}
    (h : ∀ s ∈ S, ∀ id row, s.reply (.get name id) = some row → sc.width ≤ row.length) :
    Stable S (fun found => ∀ p, found = some p → sc.width ≤ p.2.length)
      (lookupUnique env sc name w ci lit) := by
  have hnone : ∀ p : Int64 × Row, none = some p → sc.width ≤ p.2.length := by
    intro p hp
    cases hp
  refine (Prog.Always.ask (I := Accessor) (.uniqueGet name ci lit)).bind fun found _ => ?_
  cases found with
  | none => exact .ret hnone
  | some id =>
    refine (Prog.Always.ask (I := Accessor) (.get name id)).bind fun found hfound => ?_
    obtain ⟨s, hs, hreply⟩ := hfound
    cases found with
    | none => exact .ret hnone
    | some row =>
      have hwide := h s hs id row hreply
      refine (Prog.Always.ofExcept (calm_passes hsc hwide w)).bind fun b _ => .ret ?_
      intro p hp
      split at hp
      · cases hp
        exact hwide
      · cases hp

/-- **The rows a SELECT works on fill its scope**, found by the join or in an
index. -/
theorem stable_candidateRows (hsc : Laid 0 sc) (h : ∀ t ∈ sc, Loads S t)
    {joins : List (Bool × Expr)} (hlen : sc.length = joins.length + 1) (where_ : Option Expr) :
    Stable S (Wide sc.width) (candidateRows env sc joins where_) := by
  unfold candidateRows
  split
  · rename_i t w
    split
    · split
      · rename_i ci lit heq
        have hunique : ∃ c ∈ t.td.cols, c.unique = true := by
          by_contra hno
          rw [uniqueEquality_none (by simpa using hno)] at heq
          cases heq
        have hindex := (h t (List.mem_singleton_self t)).index hunique
        refine (stable_lookupUnique hsc fun s hs id row hrow => ?_).bind fun found hfound =>
          .ret fun r hr => ?_
        · simpa [JoinScope.width] using hindex s hs id row hrow
        · obtain ⟨p, hp, rfl⟩ := Option.map_eq_some_iff.mp (Option.mem_toList.mp hr)
          exact hfound p hp
      · exact stable_collectJoined hsc h hlen _
    · exact stable_collectJoined hsc h hlen _
  · exact stable_collectJoined hsc h hlen _

end Loading

/-! ## SELECT, by the structure of the statement -/

mutual

/-- The derived tables of a SELECT at any depth, each with its alias. -/
def derivedTables : Select → List (Select × String)
  | ⟨first, joins, _, _, where_, _, having, _, _⟩ =>
    refDerived first ++ joinDerived joins ++ optionDerived where_ ++ optionDerived having

def refDerived : TableRef → List (Select × String)
  | ⟨_, alias_, some sub⟩ => (sub, alias_) :: derivedTables sub
  | ⟨_, _, none⟩ => []

def joinDerived : List Join → List (Select × String)
  | [] => []
  | ⟨_, ref, on⟩ :: joins => refDerived ref ++ exprDerived on ++ joinDerived joins

def optionDerived : Option Expr → List (Select × String)
  | none => []
  | some e => exprDerived e

def exprDerived : Expr → List (Select × String)
  | .inSub _ sub _ => derivedTables sub
  | .cmp _ l r | .and l r | .or l r | .binary _ l r => exprDerived l ++ exprDerived r
  | .not x | .isNull x _ | .inList x _ _ => exprDerived x
  | .lit _ | .colRef _ _ | .func _ _ _ => []

end

/-- **What a SELECT may see while others write**: states with one catalog,
whose rows have a cell for every column of their table. -/
structure Views (S : Set Session) : Prop where
  named : ∀ s ∈ S, s.1.Named
  catalog : ∀ s ∈ S, ∀ s' ∈ S, s.1.catalog = s'.1.catalog
  rows : ∀ s ∈ S, ∀ n v, s.view n = some v → ∀ id row, v.rows.get? id = some row →
    row.length = v.cols.length

/-- **A derived table with room**: if its SELECT may return no rows, those of a
stored table that has its alias as its name have a cell for every column the
SELECT has. -/
def Roomy (env : Env) (S : Set Session) (d : Select × String) : Prop :=
  ∀ res, (execSelect env d.1).Reaches Session.reply S (.ok res) → res.rows = [] →
    ∀ s ∈ S, ∀ v, s.view d.2 = some v → ∀ id row, v.rows.get? id = some row →
      res.columns.length ≤ row.length

/-- A scope that every check and every row fits. -/
structure Sited (S : Set Session) (sc : JoinScope) : Prop where
  laid : Laid 0 sc
  loads : ∀ t ∈ sc, Loads S t

section Select

variable {env : Env} {S : Set Session}

theorem Sited.addItem {sc : JoinScope} (h : Sited S sc) (td : TableDef) (alias_ : String)
    (rows : Option (List Row))
    (hload : ∀ b, Loads S ⟨td, alias_, b, colIndexMap td, rows⟩) :
    Calm (fun sc' => Sited S sc' ∧ sc'.length = sc.length + 1) (addItem sc td alias_ rows) := by
  unfold Executor.addItem
  split
  · exact calm_sqlErr _
  · refine ⟨⟨h.laid.append (by simp [JoinScope.width]) rfl, fun t ht => ?_⟩, by simp⟩
    rcases List.mem_append.mp ht with ht | ht
    · exact h.loads t ht
    · rw [List.mem_singleton.mp ht]
      exact hload _

/-- An item whose rows are those of the stored table of its name. -/
theorem stable_loadTable {t : JoinTable} (ht : t.rows = none)
    (h : ∀ s ∈ S, ∀ v, s.view t.td.name = some v → ∀ id row, v.rows.get? id = some row →
      t.td.cols.length ≤ row.length) : Stable S (Filled t) (loadTable t) := by
  unfold loadTable
  rw [ht]
  refine (Prog.Always.ask (I := Accessor) (.allRows t.td.name)).bind ?_
  rintro reply ⟨s, hs, rfl⟩
  rw [Session.reply_allRows]
  cases hv : s.view t.td.name with
  | none =>
    refine .ofExcept fun heq => ?_
    cases heq
  | some v =>
    refine .ret fun r hr => ?_
    obtain ⟨⟨id, row⟩, hp, rfl⟩ := List.mem_map.mp hr
    exact h s hs v hv id row (GoMap.mem_ascending.mp hp)

/-- The table of a definition, in any of the states. -/
theorem Views.width (h : Views S) {s : Session} (hs : s ∈ S) {td : TableDef}
    (htd : td ∈ s.1.catalog) {s' : Session} (hs' : s' ∈ S) {v : View}
    (hv : s'.view td.name = some v) {id : Int64} {row : Row} (hrow : v.rows.get? id = some row) :
    td.cols.length ≤ row.length := by
  rw [h.catalog s hs s' hs'] at htd
  obtain ⟨n, tb, htb, rfl⟩ := Engine.mem_catalog.mp htd
  obtain ⟨tb', htb', hcols, -⟩ := Session.view_eq_some hv
  have hname : tb.definition.name = n := (h.named s' hs').name_eq htb
  rw [hname, htb] at htb'
  cases htb'
  rw [h.rows s' hs' _ v hv id row hrow, ← hcols]
  exact le_rfl

/-- A row of it that is looked up. -/
theorem Views.width_get (h : Views S) {s : Session} (hs : s ∈ S) {td : TableDef}
    (htd : td ∈ s.1.catalog) {s' : Session} (hs' : s' ∈ S) {id : Int64} {row : Row}
    (hrow : s'.reply (.get td.name id) = some row) : td.cols.length ≤ row.length := by
  have hdefs := htd
  rw [h.catalog s hs s' hs'] at hdefs
  obtain ⟨n, tb, htb, rfl⟩ := Engine.mem_catalog.mp hdefs
  have hname : tb.definition.name = n := (h.named s' hs').name_eq htb
  have hview : (s'.view tb.definition.name).isSome = true := by
    rw [hname, Session.view, htb]
    rfl
  obtain ⟨v, hv⟩ := Option.isSome_iff_exists.mp hview
  have hget : v.rows.get? id = some row := by
    rw [← Session.reply_get hv id]
    exact hrow
  exact h.width hs htd hs' hv hget

/-- The item of a stored table. -/
theorem Views.loads (h : Views S) {s : Session} (hs : s ∈ S) {td : TableDef}
    (htd : td ∈ s.1.catalog) (alias_ : String) (b : Nat) :
    Loads S ⟨td, alias_, b, colIndexMap td, none⟩ :=
  ⟨stable_loadTable rfl fun _ hs' _ hv _ _ => h.width hs htd hs' hv,
    fun _ _ hs' _ _ hrow => h.width_get hs htd hs' hrow⟩

/-- The item of a derived table: its rows, or those of its namesake. -/
theorem Roomy.loads {sub : Select} {alias_ : String} {res : Result}
    (h : Roomy env S (sub, alias_))
    (hres : (execSelect env sub).Reaches Session.reply S (.ok res)) (hshaped : Shaped res)
    (b : Nat) :
    Loads S ⟨derivedDef alias_ res, alias_, b, colIndexMap (derivedDef alias_ res),
      preload res.rows⟩ := by
  have hcols : (derivedDef alias_ res).cols.length = res.columns.length := by
    simp [derivedDef]
  refine ⟨?_, ?_⟩
  · by_cases hrows : res.rows = []
    · refine stable_loadTable (if_pos hrows) fun s hs v hv id row hrow => ?_
      exact hcols.le.trans (h res hres hrows s hs v hv id row hrow)
    · rw [show preload res.rows = some res.rows from if_neg hrows]
      exact .ret fun r hr => (hcols.trans (hshaped r hr).symm).le
  · rintro ⟨c, hc, hunique⟩
    rw [derivedDef_unique alias_ res c hc] at hunique
    cases hunique

theorem stable_tableDef (name : String) :
    Stable S (fun td => td.name = name ∧ ∃ s ∈ S, td ∈ s.1.catalog) (tableDef name) := by
  refine (Prog.Always.ask (I := Accessor) .catalog).bind ?_
  rintro defs ⟨s, hs, rfl⟩
  rw [Session.reply_catalog]
  split
  · rename_i td hfind
    have hname := List.find?_some hfind
    exact .ret ⟨by simpa using hname, s, hs, List.mem_of_find?_eq_some hfind⟩
  · exact .ofExcept (calm_sqlErr _)

theorem stable_runSelect {sc : JoinScope} (h : Sited S sc) {s : Plain}
    (hlen : sc.length = s.joins.length + 1) : Stable S Shaped (runSelect env sc s) := by
  refine (Prog.Always.ofExcept (calm_planSelect h.laid s)).bind fun p hp => ?_
  refine (stable_candidateRows h.laid h.loads hlen s.where_).bind fun filtered hrows => ?_
  exact .ofExcept (calm_finishSelect h.laid hp hrows)

mutual

/-- **A SELECT whose derived tables have room does not panic**, and its result
has a cell for every column. -/
theorem stable_execSelect (hS : Views S) : (s : Select) →
    (∀ d ∈ derivedTables s, Roomy env S d) → Stable S Shaped (execSelect env s)
  | ⟨first, joins, _, _, where_, _, having, _, _⟩, h => by
    rw [derivedTables] at h
    simp only [List.mem_append] at h
    rw [execSelect]
    have hempty : Sited S [] := ⟨trivial, fun t ht => by cases ht⟩
    refine (stable_fromItem hS hempty first
      fun d hd => h d (.inl (.inl (.inl hd)))).bind fun sc hsc => ?_
    refine (stable_fromJoins hS hsc.1 joins
      fun d hd => h d (.inl (.inl (.inr hd)))).bind fun sc' hsc' => ?_
    refine (stable_resolveOption hS where_ fun d hd => h d (.inl (.inr hd))).bind fun _ _ => ?_
    refine (stable_resolveOption hS having fun d hd => h d (.inr hd)).bind fun _ _ => ?_
    refine (stable_resolveJoins hS joins
      fun d hd => h d (.inl (.inl (.inr hd)))).bind fun on hon => ?_
    refine stable_runSelect hsc'.1 ?_
    rw [hsc'.2, hsc.2, hon]
    simp [Nat.add_comm]

theorem stable_fromItem (hS : Views S) {sc : JoinScope} (hsc : Sited S sc) : (r : TableRef) →
    (∀ d ∈ refDerived r, Roomy env S d) →
    Stable S (fun sc' => Sited S sc' ∧ sc'.length = sc.length + 1) (fromItem env sc r)
  | ⟨_, alias_, some sub⟩, h => by
    rw [refDerived] at h
    obtain ⟨hroom, hsub⟩ := List.forall_mem_cons.mp h
    rw [fromItem]
    refine (stable_execSelect hS sub hsub).and_reaches.bind fun res hres => .ofExcept ?_
    exact hsc.addItem _ _ _ (hroom.loads hres.2 hres.1)
  | ⟨table, alias_, none⟩, _ => by
    rw [fromItem]
    refine (stable_tableDef table).bind ?_
    rintro td ⟨-, s, hs, htd⟩
    exact .ofExcept (hsc.addItem td alias_ none (hS.loads hs htd alias_))

theorem stable_fromJoins (hS : Views S) {sc : JoinScope} (hsc : Sited S sc) :
    (joins : List Join) → (∀ d ∈ joinDerived joins, Roomy env S d) →
    Stable S (fun sc' => Sited S sc' ∧ sc'.length = sc.length + joins.length)
      (fromJoins env sc joins)
  | [], _ => by
    rw [fromJoins]
    exact .ret ⟨hsc, rfl⟩
  | ⟨_, ref, on⟩ :: joins, h => by
    rw [joinDerived] at h
    simp only [List.mem_append] at h
    rw [fromJoins]
    refine (stable_fromItem hS hsc ref fun d hd => h d (.inl (.inl hd))).bind fun sc' hsc' => ?_
    refine (stable_fromJoins hS hsc'.1 joins fun d hd => h d (.inr hd)).mono ?_
    rintro sc'' ⟨hsited, hlen⟩
    refine ⟨hsited, ?_⟩
    rw [hlen, hsc'.2, List.length_cons]
    omega

theorem stable_resolveJoins (hS : Views S) : (joins : List Join) →
    (∀ d ∈ joinDerived joins, Roomy env S d) →
    Stable S (fun on => on.length = joins.length) (resolveJoins env joins)
  | [], _ => by
    rw [resolveJoins]
    exact .ret rfl
  | ⟨_, ref, on⟩ :: joins, h => by
    rw [joinDerived] at h
    simp only [List.mem_append] at h
    rw [resolveJoins]
    refine (stable_resolveInSubqueries hS on fun d hd => h d (.inl (.inr hd))).bind fun _ _ => ?_
    refine (stable_resolveJoins hS joins fun d hd => h d (.inr hd)).bind fun rest hrest => ?_
    exact .ret (congrArg Nat.succ hrest)

theorem stable_resolveOption (hS : Views S) : (e : Option Expr) →
    (∀ d ∈ optionDerived e, Roomy env S d) → Stable S (fun _ => True) (resolveOption env e)
  | none, _ => by
    rw [resolveOption]
    exact .ret trivial
  | some e, h => by
    rw [optionDerived] at h
    rw [resolveOption]
    exact (stable_resolveInSubqueries hS e h).bind fun _ _ => .ret trivial

theorem stable_resolveInSubqueries (hS : Views S) : (e : Expr) →
    (∀ d ∈ exprDerived e, Roomy env S d) → Stable S (fun _ => True) (resolveInSubqueries env e)
  | .inSub _ sub _, h => by
    rw [exprDerived] at h
    rw [resolveInSubqueries]
    refine (stable_execSelect hS sub h).bind fun res hres => ?_
    split
    · exact .ofExcept (calm_sqlErr _)
    · rename_i hone
      have hcells : Calm (fun _ => True) (res.rows.mapM fun r => cell r 0) := by
        refine (Yields.mapM_all (R := fun _ => True) fun r hr => calm_cell ?_).mono
          fun _ _ => trivial
        have := hres r hr
        omega
      exact (Prog.Always.ofExcept hcells).bind fun _ _ => .ret trivial
  | .cmp _ l r, h | .and l r, h | .or l r, h | .binary _ l r, h => by
    rw [exprDerived] at h
    simp only [List.mem_append] at h
    rw [resolveInSubqueries]
    refine (stable_resolveInSubqueries hS l fun d hd => h d (.inl hd)).bind fun _ _ => ?_
    exact (stable_resolveInSubqueries hS r fun d hd => h d (.inr hd)).bind fun _ _ => .ret trivial
  | .not x, h | .isNull x _, h | .inList x _ _, h => by
    rw [exprDerived] at h
    rw [resolveInSubqueries]
    exact (stable_resolveInSubqueries hS x h).bind fun _ _ => .ret trivial
  | .lit _, _ | .colRef _ _, _ | .func _ _ _, _ => by
    rw [resolveInSubqueries]
    exact .ret trivial

end

/-! ## The rows of a namesake -/

/-- `SELECT *` of rows that are too short panics: the cells in range are read,
and the first one that is not is the end. -/
theorem project_star_short {t : JoinTable} (hb : t.basePos = 0) {rows : List Row}
    (h : ¬ Wide t.td.cols.length rows) :
    project ((starFields [t]).map Prod.fst) (rowField env [t]) rows = .error .panic := by
  have hcols : ∀ f ∈ (starFields [t]).map Prod.fst, ∃ pos, f = .col pos := by
    intro f hf
    obtain ⟨q, hq, rfl⟩ := List.mem_map.mp hf
    obtain ⟨u, -, hq⟩ := List.mem_flatMap.mp hq
    obtain ⟨j, -, rfl⟩ := List.mem_map.mp hq
    exact ⟨_, rfl⟩
  have hpanic : Yields (· = Failure.panic) (fun _ => True)
      (project ((starFields [t]).map Prod.fst) (rowField env [t]) rows) := by
    refine (Yields.mapM_all (R := fun _ => True) fun row _ => ?_).mono fun _ _ => trivial
    refine (Yields.mapM_all (R := fun _ => True) fun f hf => ?_).mono fun _ _ => trivial
    obtain ⟨pos, rfl⟩ := hcols f hf
    rw [rowField, cell]
    split <;> trivial
  cases hout : project ((starFields [t]).map Prod.fst) (rowField env [t]) rows with
  | error err =>
    rw [hout] at hpanic
    rw [show err = Failure.panic from hpanic]
  | ok out =>
    -- all cells were read, so they were there
    refine absurd (fun row hrow => ?_) h
    by_contra hshort
    have hmem : FieldPlan.col row.length ∈ (starFields [t]).map Prod.fst := by
      refine List.mem_map.mpr ⟨(.col row.length, JoinScope.headerAt [t] row.length), ?_, rfl⟩
      refine List.mem_flatMap.mpr ⟨t, List.mem_singleton_self t, List.mem_map.mpr ?_⟩
      exact ⟨row.length, List.mem_range.mpr (not_le.mp hshort), by rw [hb, Nat.zero_add]⟩
    obtain ⟨r, hr⟩ := Yields.exists_of_mapM_ok hout hrow
    obtain ⟨v, hv⟩ := Yields.exists_of_mapM_ok hr hmem
    rw [rowField, cell, List.getElem?_eq_none le_rfl] at hv
    cases hv

/-- `SELECT * FROM (sub) alias` reads the namesake of a derived table without
rows, and panics on a row that is too short. -/
theorem reaches_panic {sub : Select} {alias_ : String} {res : Result}
    (hres : (execSelect env sub).Reaches Session.reply S (.ok res)) (hrows : res.rows = [])
    {s : Session} (hs : s ∈ S) {v : View} (hv : s.view alias_ = some v) {id : Int64} {row : Row}
    (hrow : v.rows.get? id = some row) (hshort : row.length < res.columns.length) :
    (execSelect env (selectStar ⟨"", alias_, some sub⟩)).Reaches Session.reply S
      (.error .panic) := by
  let t := oneItem (derivedDef alias_ res) alias_ none
  let rows := v.rows.ascending.map Prod.snd
  have hitem : (fromItem env [] ⟨"", alias_, some sub⟩).Reaches Session.reply S (.ok [t]) := by
    rw [fromItem]
    refine hres.bind_ok (Prog.reaches_ofExcept.mpr ?_)
    rw [preload, if_pos hrows]
    rfl
  have hload : (loadTable t).Reaches Session.reply S (.ok rows) := by
    have hreply : s.reply (.allRows alias_) = .ok v.rows.ascending := by
      rw [Session.reply_allRows, hv]
    exact Prog.Reaches.bind_ok (p := allRows alias_) ⟨s, hs, (congrArg Except.ok hreply).symm⟩ rfl
  have hcand : (candidateRows env [t] [] none).Reaches Session.reply S (.ok rows) := by
    refine Prog.Reaches.bind_ok (hload.bind_ok (Prog.Reaches.bind_ok rfl rfl)) ?_
    exact Prog.reaches_ofExcept.mpr (filterRows_none [t] rows).symm
  have hpanic : project ((starFields [t]).map Prod.fst) (rowField env [t]) rows = .error .panic := by
    refine project_star_short rfl fun hwide => ?_
    have hle : (derivedDef alias_ res).cols.length ≤ row.length :=
      hwide row (List.mem_map.mpr ⟨(id, row), GoMap.mem_ascending.mpr hrow, rfl⟩)
    simp only [derivedDef, List.length_map, List.length_zipIdx] at hle
    omega
  have hfinish : finishSelect env [t] starPlain ⟨[], false, starFields [t], []⟩ rows =
      .error .panic := by
    show project ((starFields [t]).map Prod.fst) (rowField env [t]) rows >>= _ = _
    rw [hpanic]
    rfl
  simp only [selectStar, execSelect, fromJoins, resolveOption, resolveJoins, Prog.pure_eq,
    Prog.ret_bind]
  refine hitem.bind_ok ?_
  show (runSelect env [t] starPlain).Reaches Session.reply S _
  refine Prog.Reaches.bind_ok (a := ⟨[], false, starFields [t], []⟩)
    (Prog.reaches_ofExcept.mpr rfl) (hcand.bind_ok ?_)
  exact Prog.reaches_ofExcept.mpr hfinish.symm

end Select

mutual

/-- The derived tables of a derived table are among those of the SELECT. -/
theorem derivedTables_trans : (s : Select) → ∀ d ∈ derivedTables s, ∀ d' ∈ derivedTables d.1,
    d' ∈ derivedTables s
  | ⟨first, joins, _, _, where_, _, having, _, _⟩, d, hd, d', hd' => by
    rw [derivedTables] at hd ⊢
    simp only [List.mem_append] at hd ⊢
    rcases hd with ((hd | hd) | hd) | hd
    · exact .inl (.inl (.inl (refDerived_trans first d hd d' hd')))
    · exact .inl (.inl (.inr (joinDerived_trans joins d hd d' hd')))
    · exact .inl (.inr (optionDerived_trans where_ d hd d' hd'))
    · exact .inr (optionDerived_trans having d hd d' hd')

theorem refDerived_trans : (r : TableRef) → ∀ d ∈ refDerived r, ∀ d' ∈ derivedTables d.1,
    d' ∈ refDerived r
  | ⟨_, _, some sub⟩, d, hd, d', hd' => by
    rw [refDerived] at hd ⊢
    rcases List.mem_cons.mp hd with rfl | hd
    · exact List.mem_cons_of_mem _ hd'
    · exact List.mem_cons_of_mem _ (derivedTables_trans sub d hd d' hd')
  | ⟨_, _, none⟩, d, hd, _, _ => by
    rw [refDerived] at hd
    cases hd

theorem joinDerived_trans : (joins : List Join) → ∀ d ∈ joinDerived joins,
    ∀ d' ∈ derivedTables d.1, d' ∈ joinDerived joins
  | [], d, hd, _, _ => by
    rw [joinDerived] at hd
    cases hd
  | ⟨_, ref, on⟩ :: joins, d, hd, d', hd' => by
    rw [joinDerived] at hd ⊢
    simp only [List.mem_append] at hd ⊢
    rcases hd with (hd | hd) | hd
    · exact .inl (.inl (refDerived_trans ref d hd d' hd'))
    · exact .inl (.inr (exprDerived_trans on d hd d' hd'))
    · exact .inr (joinDerived_trans joins d hd d' hd')

theorem optionDerived_trans : (e : Option Expr) → ∀ d ∈ optionDerived e,
    ∀ d' ∈ derivedTables d.1, d' ∈ optionDerived e
  | none, d, hd, _, _ => by
    rw [optionDerived] at hd
    cases hd
  | some e, d, hd, d', hd' => by
    rw [optionDerived] at hd ⊢
    exact exprDerived_trans e d hd d' hd'

theorem exprDerived_trans : (e : Expr) → ∀ d ∈ exprDerived e, ∀ d' ∈ derivedTables d.1,
    d' ∈ exprDerived e
  | .inSub _ sub _, d, hd, d', hd' => by
    rw [exprDerived] at hd ⊢
    exact derivedTables_trans sub d hd d' hd'
  | .cmp _ l r, d, hd, d', hd' | .and l r, d, hd, d', hd' | .or l r, d, hd, d', hd'
  | .binary _ l r, d, hd, d', hd' => by
    rw [exprDerived] at hd ⊢
    rcases List.mem_append.mp hd with hd | hd
    · exact List.mem_append_left _ (exprDerived_trans l d hd d' hd')
    · exact List.mem_append_right _ (exprDerived_trans r d hd d' hd')
  | .not x, d, hd, d', hd' | .isNull x _, d, hd, d', hd' | .inList x _ _, d, hd, d', hd' => by
    rw [exprDerived] at hd ⊢
    exact exprDerived_trans x d hd d' hd'
  | .lit _, d, hd, _, _ | .colRef _ _, d, hd, _, _ | .func _ _ _, d, hd, _, _ => by
    rw [exprDerived] at hd
    cases hd

end

/-- **A SELECT reads past no row exactly if its derived tables have room.** For
any set `D` of derived tables: while the calls are answered by states with one
catalog and rows as wide as their tables, no SELECT with all its derived
tables in `D` panics, exactly if every member of `D` that is made of members
of `D` has room. -/
theorem select_in_range_iff (env : Env) (S : Set Session) (hS : Views S)
    (D : Select × String → Prop) :
    (∀ q, (∀ d ∈ derivedTables q, D d) →
      ¬ (execSelect env q).Reaches Session.reply S (.error .panic)) ↔
      ∀ d, D d → (∀ d' ∈ derivedTables d.1, D d') → Roomy env S d := by
  constructor
  · rintro hall ⟨sub, alias_⟩ hd hsub res hres hrows s hs v hv id row hrow
    by_contra hshort
    refine hall (selectStar ⟨"", alias_, some sub⟩) ?_
      (reaches_panic hres hrows hs hv hrow (not_le.mp hshort))
    simp only [selectStar, derivedTables, refDerived, joinDerived, optionDerived, List.append_nil]
    exact List.forall_mem_cons.mpr ⟨hd, hsub⟩
  · intro hroom q hq hpanic
    refine (stable_execSelect hS q fun d hd => ?_) _ hpanic rfl
    exact hroom d (hq d hd) fun d' hd' => hq d' (derivedTables_trans q d hd d' hd')

/-- Tables `a(x)` and `b(x, y)`, with rows of `a` and of `b`. -/
def narrowAndWide (as : List Int64) (bs : List (Int64 × Int64)) : Session :=
  ((Run.run Sys.exec {}
    (.createTable "a" [{ name := "x", type := .int, primary := true }] ::
      .createTable "b" [{ name := "x", type := .int, primary := true },
        { name := "y", type := .int }] ::
      (as.map fun k => .put "a" k [.int k]) ++
      bs.map fun k => .put "b" k.1 [.int k.1, .int k.2])).eng, none)

/-- `SELECT * FROM (SELECT * FROM b) alias`. -/
def wideAs (alias_ : String) : Select :=
  selectStar ⟨"", alias_, some (selectStar ⟨"b", "b", none⟩)⟩

theorem views_narrowAndWide :
    Views {narrowAndWide [7] [], narrowAndWide [7] [(1, 2)]} := by
  refine ⟨?_, ?_, ?_⟩
  · rintro s (rfl | rfl) <;> exact Sys.named_run _
  · rintro s (rfl | rfl) s' (rfl | rfl) <;> decide +kernel
  · rintro s (rfl | rfl) <;> decide +kernel

/-- While another session fills `b`, a derived table under a name of its own is
read in range. -/
theorem select_in_range_own_name :
    ¬ (execSelect epochEnv (wideAs "d")).Reaches Session.reply
      {narrowAndWide [7] [], narrowAndWide [7] [(1, 2)]} (.error .panic) := by
  have hd : ∀ s ∈ ({narrowAndWide [7] [], narrowAndWide [7] [(1, 2)]} : Set Session),
      s.view "d" = none := by
    rintro s (rfl | rfl) <;> decide +kernel
  refine (select_in_range_iff epochEnv _ views_narrowAndWide fun d => d.2 = "d").mpr ?_ _ ?_
  · rintro ⟨sub, alias_⟩ rfl _ res _ _ s hs v hv
    rw [hd s hs] at hv
    cases hv
  · simp [wideAs, selectStar, derivedTables, refDerived, joinDerived, optionDerived]

/-- With nobody else writing, the outcome is that of the run. -/
theorem reaches_execSelect {env : Env} {q : Select} {s : Session} {x : Except Failure Result} :
    (execSelect env q).Reaches Session.reply {s} x ↔
      ((execSelect env q).run Session.handler s).2 = x := by
  rw [Prog.reaches_singleton, (reads_execSelect env q).run_eq]
  exact eq_comm

/-- **A derived table without rows reads past the rows of its namesake**: all
rows are as wide as their tables, and `SELECT * FROM (SELECT * FROM b) a`
panics. -/
theorem empty_derived_panics :
    Views {narrowAndWide [7] []} ∧
      (execSelect epochEnv (wideAs "a")).Reaches Session.reply {narrowAndWide [7] []}
        (.error .panic) := by
  refine ⟨⟨?_, ?_, ?_⟩, reaches_execSelect.mpr (by decide +kernel)⟩
  · rintro s rfl
    exact Sys.named_run _
  · rintro s rfl s' rfl
    rfl
  · rintro s rfl
    decide +kernel

end Tsql.Executor
