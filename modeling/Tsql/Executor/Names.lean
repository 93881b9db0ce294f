import Tsql.Executor.InRange
import Tsql.Executor.Shortcut

/-!
# Column names

A reference is looked up twice: when the SELECT is planned (`validateExpr`,
`validateHaving`) and for every row it is evaluated on. A name that was found
when planning is found again later (`checked_names_found`).

What a reference means is said without the maps and offsets of the scope: the
joined row has the columns of all FROM items, side by side, and a reference
means the column it names if there is exactly one. `resolve` looks for ONE
FROM item with the name, and takes the last of its columns that has it. A
stored table has no name twice, but a derived table may.
-/

namespace Tsql.Executor

open Storage

/-! ## Names that were checked -/

/-- The computation fails because a table or column is missing, or its name is
ambiguous: 42703 or 42P01. -/
def MissesName {α : Type} (x : Except Failure α) : Prop :=
  ∃ err : SqlError, x = .error (.sql err) ∧ (err.code = "42703" ∨ err.code = "42P01")

/-- An error that is not about a name. -/
def NotAboutName (f : Failure) : Prop := ∀ err, f = .sql err → err.aboutName = false

theorem tolerant_notAboutName : Tolerant NotAboutName := by
  rintro err h err' heq
  cases heq
  exact h

theorem Yields.not_missesName {α : Type} {Q : α → Prop} {x : Except Failure α}
    (h : Yields NotAboutName Q x) : ¬ MissesName x := by
  rintro ⟨err, rfl, hcode⟩
  have hname : err.aboutName = false := h err rfl
  rw [SqlError.aboutName, Bool.or_eq_false_iff] at hname
  rcases hcode with hcode | hcode
  · exact of_decide_eq_false hname.1 hcode
  · exact of_decide_eq_false hname.2 hcode

theorem yields_cell_names (row : Row) (i : Nat) :
    Yields NotAboutName (fun _ => True) (cell row i) := by
  unfold cell
  split
  · trivial
  · intro err heq
    cases heq

section

variable (env : Env) {sc : JoinScope} (row : Row)

/-- A reference that resolves is read from the row. -/
theorem yields_colRef_names {table name : String} {pos : Nat} (gc : GroupCtx)
    (h : sc.resolve table name = .ok pos) :
    Yields NotAboutName (fun _ => True) (evalValueCtx env sc row gc (.colRef table name)) := by
  rw [evalValueCtx, h]
  exact yields_cell_names row pos

/-- In an expression that was checked, every reference resolves. -/
theorem leaves_validateExpr : (e : Expr) → validateExpr sc e = .ok () →
    Leaves (fun e => Yields NotAboutName (fun _ => True) (evalValueCtx env sc row none e)) e
  | .cmp _ l r, h | .and l r, h | .or l r, h | .binary _ l r, h => by
    rw [validateExpr] at h
    obtain ⟨⟨⟩, hl, hr⟩ := bind_eq_ok.mp h
    exact ⟨leaves_validateExpr l hl, leaves_validateExpr r hr⟩
  | .isNull x _, h | .not x, h | .inSub x _ _, h => by
    rw [validateExpr] at h
    exact leaves_validateExpr x h
  | .inList x _ _, h => by
    rw [validateExpr] at h
    obtain ⟨⟨⟩, hx, -⟩ := bind_eq_ok.mp h
    exact leaves_validateExpr x hx
  | .lit _, _ => trivial
  | .colRef table name, h => by
    rw [validateExpr] at h
    cases hres : sc.resolve table name with
    | error err =>
      rw [hres] at h
      cases h
    | ok pos => exact yields_colRef_names env row none hres
  | .func name star arg, _ => by
    show Yields _ _ (evalValueCtx env sc row none (.func name star arg))
    unfold evalValueCtx
    split
    · trivial
    · split <;> exact tolerant_notAboutName.sqlErr rfl

/-- In a HAVING that was checked, so does the argument of every aggregate. -/
theorem leaves_validateHaving {groupPos : List Nat} (rows : List Row) : (e : Expr) →
    validateHaving sc groupPos e = .ok () →
    Leaves (fun e => Yields NotAboutName (fun _ => True) (evalValueCtx env sc row (some rows) e)) e
  | .cmp _ l r, h | .and l r, h | .or l r, h | .binary _ l r, h => by
    rw [validateHaving] at h
    obtain ⟨⟨⟩, hl, hr⟩ := bind_eq_ok.mp h
    exact ⟨leaves_validateHaving rows l hl, leaves_validateHaving rows r hr⟩
  | .isNull x _, h | .not x, h | .inSub x _ _, h => by
    rw [validateHaving] at h
    exact leaves_validateHaving rows x h
  | .inList x _ _, h => by
    rw [validateHaving] at h
    obtain ⟨⟨⟩, hx, -⟩ := bind_eq_ok.mp h
    exact leaves_validateHaving rows x hx
  | .lit _, _ => trivial
  | .colRef table name, h => by
    rw [validateHaving] at h
    obtain ⟨pos, hpos, -⟩ := bind_eq_ok.mp h
    exact yields_colRef_names env row _ hpos
  | .func name star arg, h => by
    have haggregate : ∀ pos, Yields NotAboutName (fun _ => True)
        (evalAggregate name star rows pos) := by
      intro pos
      refine yields_evalAggregate tolerant_notAboutName (.inr fun r _ => ?_)
      cases pos with
      | some i => exact yields_cell_names r i
      | none =>
        intro err heq
        cases heq
    rw [validateHaving] at h
    show Yields _ _ (evalValueCtx env sc row (some rows) (.func name star arg))
    unfold evalValueCtx
    split
    · trivial
    · rename_i hnow
      rw [if_neg hnow] at h
      split
      · rename_i hagg
        rw [if_pos hagg] at h
        unfold validateAggregate at h
        dsimp only
        split
        · exact haggregate none
        · rename_i hstar
          rw [if_neg hstar] at h
          split
          · rename_i table column
            cases hres : sc.resolve table column with
            | error err =>
              simp only [hres] at h
              cases h
            | ok pos => exact haggregate (some pos)
          · exact tolerant_notAboutName.sqlErr rfl
      · exact tolerant_notAboutName.sqlErr rfl

end

/-- **Names that were checked are found.** An expression that passes
`validateExpr` is evaluated on any row without an error about a name, as a
condition and as a value, and a HAVING that passes `validateHaving` on any
group of rows. -/
theorem checked_names_found (env : Env) (sc : JoinScope) (e : Expr) :
    (validateExpr sc e = .ok () → ∀ row,
      ¬ MissesName (evalBool env sc e row) ∧ ¬ MissesName (evalValue env sc e row)) ∧
    ∀ groupPos, validateHaving sc groupPos e = .ok () → ∀ repr rows,
      ¬ MissesName (evalBoolCtx env sc repr (some rows) e) := by
  refine ⟨fun h row => ?_, fun groupPos h repr rows => ?_⟩
  · have hleaves := leaves_validateExpr env row e h
    exact ⟨Yields.not_missesName (yields_evalBoolCtx tolerant_notAboutName e hleaves),
      Yields.not_missesName (yields_evalValueCtx tolerant_notAboutName e hleaves)⟩
  · have hleaves := leaves_validateHaving env repr rows e h
    exact Yields.not_missesName (yields_evalBoolCtx tolerant_notAboutName e hleaves)

/-- `y = 1` over the table `b(x, y)` is checked, and evaluated on a row. -/
theorem checked_names_found_equality :
    ¬ MissesName (evalBool epochEnv
      (storedScope ⟨"b", [{ name := "x", type := .int }, { name := "y", type := .int }]⟩ "b")
      (.cmp .eq (.colRef "b" "y") (.lit (.int 1))) [.int 1, .int 2]) :=
  ((checked_names_found _ _ _).1 rfl _).1

/-! ## What a reference means -/

/-- The columns of the joined row, each with the alias of its FROM item. -/
def joinedColumns (sc : JoinScope) : List (String × String) :=
  sc.flatMap fun t => t.td.cols.map fun c => (t.alias_, c.name)

/-- The reference names this column. -/
def names (table name : String) (c : String × String) : Bool :=
  (table = "" || c.1 = table) && c.2 = name

/-- **The reference means the column at `p`**: it names that column of the
joined row and no other. -/
def Means (sc : JoinScope) (table name : String) (p : Nat) : Prop :=
  ∀ q, (∃ c, (joinedColumns sc)[q]? = some c ∧ names table name c) ↔ q = p

/-- A reference resolves to what it means, and to an error if it means
nothing. -/
structure ResolvesExactly (sc : JoinScope) (table name : String) : Prop where
  found : ∀ p, sc.resolve table name = .ok p ↔ Means sc table name p
  refused : (∀ p, ¬ Means sc table name p) → ∃ err, sc.resolve table name = sqlErr err

/-- A FROM item the reference may be to: it has the name, and the alias if the
reference is qualified. -/
def offers (table name : String) (t : JoinTable) : Bool :=
  (table = "" || t.alias_ = table) && t.td.cols.any fun c => c.name = name

/-- The FROM item, if it is the only one with the name, has it once. -/
def NoTwins (sc : JoinScope) (table name : String) : Prop :=
  ∀ t, sc.filter (offers table name) = [t] → (t.td.cols.countP fun c => c.name = name) = 1

/-- What the loop over the FROM items makes of a scope: the items lie side by
side, and no two have the same alias. -/
structure Built (sc : JoinScope) : Prop where
  laid : Laid 0 sc
  aliases : (sc.map JoinTable.alias_).Nodup

section

variable {sc : JoinScope} {table name : String}

/-- The positions of the columns of a FROM item that are named. -/
def namedAt (table name : String) (t : JoinTable) : List Nat :=
  if table = "" || t.alias_ = table then t.td.cols.findIdxs (fun c => c.name = name) t.basePos
  else []

theorem findIdxs_joinedColumns {b : Nat} (h : Laid b sc) :
    (joinedColumns sc).findIdxs (names table name) b = sc.flatMap (namedAt table name) := by
  induction sc generalizing b with
  | nil => rfl
  | cons t sc ih =>
    obtain ⟨rfl, -, hrest⟩ := h
    have hitem : (t.td.cols.map fun c => (t.alias_, c.name)).findIdxs (names table name) t.basePos
        = namedAt table name t := by
      rw [List.findIdxs_map]
      unfold namedAt
      split
      · next hq =>
          have hnames : (names table name ∘ fun c => (t.alias_, c.name))
              = fun c : Column => decide (c.name = name) := by
            funext c
            simp only [Function.comp_apply, names, hq, Bool.true_and]
          rw [hnames]
      · next hq =>
          refine List.findIdxs_eq_nil_iff.mpr fun c _ => ?_
          simp only [Function.comp_apply, names, Bool.eq_false_iff.mpr hq, Bool.false_and]
    show (t.td.cols.map (fun c => (t.alias_, c.name)) ++ joinedColumns sc).findIdxs _ _ = _
    rw [List.findIdxs_append, hitem, List.length_map, ih hrest, List.flatMap_cons]

theorem means_iff (h : Laid 0 sc) (p : Nat) :
    Means sc table name p ↔ sc.flatMap (namedAt table name) = [p] := by
  have hmem : ∀ q, (∃ c, (joinedColumns sc)[q]? = some c ∧ names table name c)
      ↔ q ∈ sc.flatMap (namedAt table name) := by
    intro q
    rw [← findIdxs_joinedColumns h, List.mem_findIdxs_iff_exists_getElem_pos]
    constructor
    · rintro ⟨c, hc, hnames⟩
      obtain ⟨hq, rfl⟩ := List.getElem?_eq_some_iff.mp hc
      exact ⟨hq, hnames⟩
    · rintro ⟨hq, hnames⟩
      exact ⟨_, List.getElem?_eq_getElem hq, hnames⟩
  have hnodup : (sc.flatMap (namedAt table name)).Nodup := by
    rw [← findIdxs_joinedColumns h]
    exact List.nodup_findIdxs
  unfold Means
  simp only [hmem]
  rw [← List.perm_singleton, List.perm_ext_iff_of_nodup hnodup (List.nodup_singleton p)]
  simp only [List.mem_singleton]

/-- A FROM item gives a name the last position that has it. -/
theorem position_eq {t : JoinTable} (h : t.colIdx = colIndexMap t.td)
    (hq : table = "" ∨ t.alias_ = table) :
    JoinScope.position t name = (namedAt table name t).getLast? := by
  have hcond : (table = "" || t.alias_ = table) = true := by
    rcases hq with hq | hq <;> simp [hq]
  have hstart : t.td.cols.findIdxs (fun c => c.name = name) t.basePos
      = (t.td.cols.findIdxs fun c => c.name = name).map (t.basePos + ·) := by
    rw [List.findIdxs_start]
    exact List.map_congr_left fun i _ => Nat.add_comm i _
  rw [JoinScope.position, h, get?_colIndexMap, namedAt, if_pos hcond, hstart, List.getLast?_map]

theorem namedAt_of_ne {t : JoinTable} (htable : table ≠ "") (h : t.alias_ ≠ table) :
    namedAt table name t = [] := by
  rw [namedAt, if_neg (by simp [htable, h])]

/-- **`resolve` takes the last column of the one FROM item** that offers the
name. -/
theorem resolve_eq_ok (h : Built sc) (p : Nat) :
    sc.resolve table name = .ok p
      ↔ sc.filterMap (fun t => (namedAt table name t).getLast?) = [p] := by
  have hidx : ∀ t ∈ sc, t.colIdx = colIndexMap t.td := fun t ht => (h.laid.mem ht).2
  by_cases htable : table = ""
  · have hpositions : sc.filterMap (fun t => JoinScope.position t name)
        = sc.filterMap fun t => (namedAt table name t).getLast? :=
      List.filterMap_congr fun t ht => position_eq (hidx t ht) (.inl htable)
    rw [JoinScope.resolve, if_neg (not_not.mpr htable), hpositions]
    rcases sc.filterMap fun t => (namedAt table name t).getLast? with _ | ⟨q, _ | ⟨q', l⟩⟩
    · simp [sqlErr]
    · simp
    · simp [sqlErr]
  · have haliases := h.aliases
    rw [JoinScope.resolve, if_pos htable]
    clear h
    induction sc with
    | nil => simp [sqlErr]
    | cons t sc ih =>
      rw [List.map_cons, List.nodup_cons] at haliases
      by_cases halias : t.alias_ = table
      · -- no other item has this alias
        have hrest : sc.filterMap (fun t => (namedAt table name t).getLast?) = [] := by
          refine List.filterMap_eq_nil_iff.mpr fun u hu => ?_
          have hne : u.alias_ ≠ table := fun heq =>
            haliases.1 (List.mem_map.mpr ⟨u, hu, heq.trans halias.symm⟩)
          rw [namedAt_of_ne htable hne]
          rfl
        have hpos : JoinScope.position t name = (namedAt table name t).getLast? :=
          position_eq (hidx t List.mem_cons_self) (.inr halias)
        rw [List.find?_cons_of_pos (by simpa using halias), List.filterMap_cons, hrest]
        simp only [hpos]
        cases (namedAt table name t).getLast? <;> simp [sqlErr]
      · rw [List.find?_cons_of_neg (by simpa using halias), List.filterMap_cons,
          namedAt_of_ne htable halias]
        exact ih (fun u hu => hidx u (List.mem_cons_of_mem t hu)) haliases.2

/-- The last of every list, and all of them: the same single element if the
only list that is not empty has just that. -/
theorem filterMap_getLast?_iff {α : Type} (L : List (List α)) :
    (∀ p, L.filterMap List.getLast? = [p] ↔ L.flatten = [p]) ↔
      ∀ l, L.filter (fun l => !l.isEmpty) = [l] → l.length = 1 := by
  have hlast : L.filterMap List.getLast?
      = (L.filter fun l => !l.isEmpty).filterMap List.getLast? := by
    rw [List.filterMap_filter]
    refine List.filterMap_congr fun l _ => ?_
    cases l <;> rfl
  have hflat : L.flatten = (L.filter fun l => !l.isEmpty).flatten := List.flatten_filter_not_isEmpty.symm
  have hne : ∀ l ∈ L.filter fun l => !l.isEmpty, l ≠ [] := by
    intro l hl
    simpa using (List.mem_filter.mp hl).2
  rw [hlast, hflat]
  revert hne
  generalize L.filter (fun l => !l.isEmpty) = N
  intro hne
  rcases N with _ | ⟨l, _ | ⟨l', N⟩⟩
  · simp
  · obtain ⟨hd, tl, rfl⟩ := List.exists_cons_of_ne_nil (hne _ List.mem_cons_self)
    cases tl with
    | nil => simp
    | cons a tl => simp [List.getLast?_cons]
  · obtain ⟨hd, tl, rfl⟩ := List.exists_cons_of_ne_nil (hne _ List.mem_cons_self)
    obtain ⟨hd', tl', rfl⟩ :=
      List.exists_cons_of_ne_nil (hne l' (List.mem_cons_of_mem _ List.mem_cons_self))
    simp [List.getLast?_cons]

theorem offers_eq (t : JoinTable) : offers table name t = !(namedAt table name t).isEmpty := by
  unfold offers namedAt
  split
  · next hq =>
      rw [hq, Bool.true_and, Bool.eq_iff_iff, List.any_eq_true, Bool.not_eq_true',
        Bool.eq_false_iff, ne_eq, List.isEmpty_iff, List.findIdxs_eq_nil_iff]
      simp
  · next hq =>
      rw [Bool.eq_false_iff.mpr hq]
      rfl

theorem length_namedAt {t : JoinTable} (h : offers table name t = true) :
    (namedAt table name t).length = t.td.cols.countP fun c => c.name = name := by
  rw [offers, Bool.and_eq_true] at h
  rw [namedAt, if_pos h.1, List.length_findIdxs]

theorem resolve_ok_or_sqlErr (sc : JoinScope) (table name : String) :
    (∃ p, sc.resolve table name = .ok p) ∨ ∃ err, sc.resolve table name = sqlErr err := by
  unfold JoinScope.resolve
  split
  · split
    · exact .inr ⟨_, rfl⟩
    · split
      · exact .inl ⟨_, rfl⟩
      · exact .inr ⟨_, rfl⟩
  · split
    · exact .inr ⟨_, rfl⟩
    · exact .inl ⟨_, rfl⟩
    · exact .inr ⟨_, rfl⟩

/-- The two lists of positions differ only where a lone FROM item has the name
more than once. -/
theorem resolves_means_iff (h : Built sc) :
    (∀ p, sc.resolve table name = .ok p ↔ Means sc table name p) ↔ NoTwins sc table name := by
  have hlast : sc.filterMap (fun t => (namedAt table name t).getLast?)
      = (sc.map (namedAt table name)).filterMap List.getLast? := by
    rw [List.filterMap_map]
    rfl
  have hfilter : (sc.map (namedAt table name)).filter (fun l => !l.isEmpty)
      = (sc.filter (offers table name)).map (namedAt table name) := by
    rw [List.filter_map]
    exact congrArg (fun f => (sc.filter f).map (namedAt table name))
      (funext fun t => (offers_eq t).symm)
  have hlength : ∀ t, sc.filter (offers table name) = [t] →
      (namedAt table name t).length = t.td.cols.countP fun c => c.name = name := by
    intro t ht
    have hmem : t ∈ sc.filter (offers table name) := ht ▸ List.mem_singleton_self t
    exact length_namedAt (List.mem_filter.mp hmem).2
  simp only [resolve_eq_ok h, means_iff h.laid, hlast, List.flatMap_def]
  rw [filterMap_getLast?_iff, hfilter]
  constructor
  · intro hone t ht
    rw [← hlength t ht]
    exact hone _ (by rw [ht]; rfl)
  · intro htwins l hl
    obtain ⟨t, ht, rfl⟩ := List.map_eq_singleton_iff.mp hl
    rw [hlength t ht]
    exact htwins t ht

theorem resolvesExactly_iff (h : Built sc) :
    ResolvesExactly sc table name ↔ NoTwins sc table name := by
  constructor
  · intro hexact
    exact (resolves_means_iff h).mp hexact.found
  · intro htwins
    have hfound := (resolves_means_iff h).mpr htwins
    refine ⟨hfound, fun hnone => ?_⟩
    rcases resolve_ok_or_sqlErr sc table name with ⟨p, hp⟩ | hrefused
    · exact absurd ((hfound p).mp hp) (hnone p)
    · exact hrefused

end

/-! ## The scopes `execSelect` builds -/

/-- The loop of `execSelect` over the FROM items comes to this scope, each call
answered by one of the states `S`. -/
def BuildsScope (env : Env) (S : Set Session) (s : Select) (sc : JoinScope) : Prop :=
  ∃ sc1, (fromItem env [] s.first).Reaches Session.reply S (.ok sc1) ∧
    (fromJoins env sc1 s.joins).Reaches Session.reply S (.ok sc)

section

variable {env : Env} {S : Set Session} {sc sc' : JoinScope}

theorem Built.addItem (h : Built sc) {td : TableDef} {alias_ : String} {rows : Option (List Row)}
    (hadd : Executor.addItem sc td alias_ rows = .ok sc') : Built sc' := by
  unfold Executor.addItem at hadd
  split at hadd
  · cases hadd
  · next hnew =>
      cases hadd
      refine ⟨h.laid.append (by simp [JoinScope.width]) rfl, ?_⟩
      rw [List.map_append, List.nodup_append]
      refine ⟨h.aliases, List.nodup_singleton _, ?_⟩
      simp only [List.any_eq_true, decide_eq_true_eq, not_exists, not_and] at hnew
      intro a ha b hb heq
      obtain ⟨t, ht, rfl⟩ := List.mem_map.mp ha
      exact hnew t ht (heq.trans (List.mem_singleton.mp hb))

theorem Built.fromItem (h : Built sc) (r : TableRef)
    (hr : (Executor.fromItem env sc r).Reaches Session.reply S (.ok sc')) : Built sc' := by
  obtain ⟨table, alias_, _ | sub⟩ := r
  · rw [Executor.fromItem] at hr
    rcases Prog.reaches_bind.mp hr with ⟨td, -, hadd⟩ | ⟨err, -, heq⟩
    · exact h.addItem (Prog.reaches_ofExcept.mp hadd).symm
    · cases heq
  · rw [Executor.fromItem] at hr
    rcases Prog.reaches_bind.mp hr with ⟨res, -, hadd⟩ | ⟨err, -, heq⟩
    · exact h.addItem (Prog.reaches_ofExcept.mp hadd).symm
    · cases heq

theorem Built.fromJoins (h : Built sc) (joins : List Join)
    (hr : (Executor.fromJoins env sc joins).Reaches Session.reply S (.ok sc')) : Built sc' := by
  induction joins generalizing sc with
  | nil =>
    rw [Executor.fromJoins] at hr
    cases hr
    exact h
  | cons j joins ih =>
    obtain ⟨left, ref, on⟩ := j
    rw [Executor.fromJoins] at hr
    rcases Prog.reaches_bind.mp hr with ⟨sc1, hitem, hrest⟩ | ⟨err, -, heq⟩
    · exact ih (h.fromItem ref hitem) hrest
    · cases heq

theorem BuildsScope.built {s : Select} (h : BuildsScope env S s sc) : Built sc := by
  obtain ⟨sc1, hfirst, hjoins⟩ := h
  have hempty : Built [] := ⟨trivial, List.nodup_nil⟩
  exact (hempty.fromItem s.first hfirst).fromJoins s.joins hjoins

end

/-- **Column names resolve exactly when they are unambiguous**, in every scope
`execSelect` builds, if a FROM item that alone has the name has it once. -/
theorem resolves_exactly_iff {env : Env} {S : Set Session} {s : Select} {sc : JoinScope}
    (h : BuildsScope env S s sc) (table name : String) :
    ResolvesExactly sc table name ↔ NoTwins sc table name :=
  resolvesExactly_iff h.built

/-- The scope of `SELECT * FROM a JOIN b ON b.x = y`, with the columns `a.x`, `b.x`
and `b.y`. -/
def joinedScope : JoinScope :=
  let a : TableDef := ⟨"a", [{ name := "x", type := .int, primary := true }]⟩
  let b : TableDef :=
    ⟨"b", [{ name := "x", type := .int, primary := true }, { name := "y", type := .int }]⟩
  [⟨a, "a", 0, colIndexMap a, none⟩, ⟨b, "b", 1, colIndexMap b, none⟩]

/-- In the join `b.x` means the second column, and `x` is refused. -/
theorem resolves_exactly_iff_joined :
    (ResolvesExactly joinedScope "b" "x" ∧ joinedScope.resolve "b" "x" = .ok 1) ∧
      ResolvesExactly joinedScope "" "x" ∧ ∀ p, joinedScope.resolve "" "x" ≠ .ok p := by
  have hbuilds : BuildsScope epochEnv {narrowAndWide [] []}
      { selectStar ⟨"a", "a", none⟩ with
        joins := [⟨false, ⟨"b", "b", none⟩, .cmp .eq (.colRef "b" "x") (.colRef "" "y")⟩] }
      joinedScope := ⟨_, Prog.reaches_singleton.mpr rfl, Prog.reaches_singleton.mpr rfl⟩
  refine ⟨⟨(resolves_exactly_iff hbuilds "b" "x").mpr fun t ht => ?_, rfl⟩,
    (resolves_exactly_iff hbuilds "" "x").mpr fun t ht => ?_, fun p hp => ?_⟩
  · cases ht
    rfl
  · cases ht
  · cases hp

/-- `SELECT d.v FROM (SELECT x AS v, y AS v FROM b) AS d`. -/
def twinColumns : Select where
  first := ⟨"", "d", some {
    first := ⟨"b", "b", none⟩, joins := [], star := false,
    fields := [(.colRef "" "x", "v"), (.colRef "" "y", "v")],
    where_ := none, group := [], having := none, order := [], limit := none }⟩
  joins := []
  star := false
  fields := [(.colRef "d" "v", "")]
  where_ := none
  group := []
  having := none
  order := []
  limit := none

/-- **Two columns of a derived table under one name**: the reference names
both, and is resolved to the second. -/
theorem derived_twins_resolve :
    (∃ sc, BuildsScope epochEnv {narrowAndWide [] [(1, 2)]} twinColumns sc ∧
      joinedColumns sc = [("d", "v"), ("d", "v")] ∧ sc.resolve "d" "v" = .ok 1 ∧
      ¬ ResolvesExactly sc "d" "v") ∧
    (execSelect epochEnv twinColumns).eval (Session.reply (narrowAndWide [] [(1, 2)]))
      = .ok { columns := ["v"], rows := [[.int 2]] } := by
  have hbuilds : BuildsScope epochEnv {narrowAndWide [] [(1, 2)]} twinColumns
      [⟨⟨"d", [{ name := "v", type := .int }, { name := "v", type := .int }]⟩, "d", 0,
        colIndexMap ⟨"d", [{ name := "v", type := .int }, { name := "v", type := .int }]⟩,
        some [[.int 1, .int 2]]⟩] :=
    ⟨_, Prog.reaches_singleton.mpr rfl, Prog.reaches_singleton.mpr rfl⟩
  refine ⟨⟨_, hbuilds, rfl, rfl, fun hexact => ?_⟩, by decide +kernel⟩
  have hone := (resolvesExactly_iff hbuilds.built).mp hexact _ rfl
  exact absurd hone (by decide)

end Tsql.Executor
