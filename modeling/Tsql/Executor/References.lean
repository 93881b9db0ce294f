import Tsql.Executor.RowWrites

/-!
# The foreign keys of the catalog

CREATE TABLE checks a REFERENCES clause against the catalog of that moment: the
parent is another table, the column is its primary key, the types agree. DROP
TABLE checks nothing. So the clauses stay true (`Closed`) over every sequence of
statements that drops no table another one refers to, and a single DROP leaves a
clause that names no table.
-/

namespace Tsql

open Storage Executor

variable {defs : List TableDef}

/-- What `Validate` lets through is what it was given, with the type of the
primary key normalised. -/
theorem mem_of_validateCols {table : String} {cols cols' : List Column} {seen : List String}
    {n : Nat} (h : validateCols table cols seen = .ok (cols', n)) {c' : Column} (hc' : c' ∈ cols') :
    ∃ c ∈ cols, c' = c ∨ c' = { c with type := normalizePKType c.type } := by
  induction cols generalizing seen cols' n with
  | nil =>
    cases h
    cases hc'
  | cons c cols ih =>
    have hrest : ∀ {cs pk}, validateCols table cols (c.name :: seen) = .ok (cs, pk) → c' ∈ cs →
        ∃ d ∈ c :: cols, c' = d ∨ c' = { d with type := normalizePKType d.type } := by
      intro cs pk hcs hmem
      obtain ⟨d, hd, heq⟩ := ih hcs hmem
      exact ⟨d, List.mem_cons_of_mem c hd, heq⟩
    unfold validateCols at h
    split at h
    · cases h
    split at h
    · cases h
    split at h
    · cases h
    split at h
    · cases h
    · next cs pk hcs =>
      split at h
      · cases h
        rcases List.mem_cons.mp hc' with rfl | hmem
        · exact ⟨c, List.mem_cons_self, .inr rfl⟩
        · exact hrest hcs hmem
      · cases h
        rcases List.mem_cons.mp hc' with rfl | hmem
        · exact ⟨c', List.mem_cons_self, .inl rfl⟩
        · exact hrest hcs hmem

theorem TableDef.mem_of_validate {td td' : TableDef} (h : td.validate = .ok td') {c' : Column}
    (hc' : c' ∈ td'.cols) :
    ∃ c ∈ td.cols, c' = c ∨ c' = { c with type := normalizePKType c.type } := by
  unfold TableDef.validate at h
  split at h
  · cases h
  split at h
  · cases h
  split at h
  · cases h
  · next cols n hcols =>
    split at h
    · cases h
    · cases h
      exact mem_of_validateCols hcols hc'

namespace Executor

/-- A foreign key of the catalog is in order: the parent is there, and its
column of this name is its primary key, of this type. -/
def Names (defs : List TableDef) (c : Column) : Prop :=
  ∃ pd ∈ defs, pd.name = c.fkTable ∧
    ∃ pc ∈ pd.cols.find? (fun pc => pc.name = c.fkCol), pc.primary = true ∧ pc.type = c.type

/-- **The foreign keys of a catalog are closed.** -/
def Closed (defs : List TableDef) : Prop :=
  ∀ td ∈ defs, ∀ c ∈ td.cols, c.fkTable ≠ "" → Names defs c

/-- No table is dropped that another one refers to. -/
def DropsUnreferenced (e : Engine) : Statement → Prop
  | .dropTable name _ => ∀ td ∈ e.catalog, td.name ≠ name → ∀ c ∈ td.cols, c.fkTable ≠ name
  | _ => True

instance (defs : List TableDef) : Decidable (Closed defs) := by
  unfold Closed Names
  infer_instance

instance (e : Engine) : ∀ stmt, Decidable (DropsUnreferenced e stmt)
  | .dropTable name _ => inferInstanceAs
      (Decidable (∀ td ∈ e.catalog, td.name ≠ name → ∀ c ∈ td.cols, c.fkTable ≠ name))
  | .createTable _ _ | .insert _ | .select _ | .update _ | .delete _ | .begin | .commit
  | .rollback => isTrue trivial

/-! ## CREATE TABLE -/

theorem validateFK_ok {thisTable refTable refCol : String} {col c : Column}
    (h : validateFK defs thisTable col refTable refCol = .ok c) : Names defs c := by
  unfold validateFK at h
  split at h
  · cases h
  split at h
  · cases h
  · next pdef hfind =>
    dsimp only at h
    split at h
    · cases h
    · next target htarget =>
      split at h
      · cases h
      · next pt hpt =>
        split at h
        · cases h
        · next hprimary =>
          split at h
          · cases h
          · next htype =>
            cases h
            refine ⟨pdef, List.mem_of_find?_eq_some hfind, ?_, pt, hpt, ?_, not_not.mp htype⟩
            · simpa using List.find?_some hfind
            · simpa using hprimary

theorem createColumn_ok {thisTable : String} {cd : ColumnDef} {c : Column}
    (h : createColumn defs thisTable cd = .ok c) (hfk : c.fkTable ≠ "") : Names defs c := by
  unfold createColumn at h
  dsimp only at h
  split at h
  · exact validateFK_ok h
  · cases h
    exact absurd rfl hfk

theorem mapM_createColumn_ok {thisTable : String} {cds : List ColumnDef}
    {cols : List Column} (h : cds.mapM (createColumn defs thisTable) = .ok cols) :
    ∀ c ∈ cols, c.fkTable ≠ "" → Names defs c := by
  induction cds generalizing cols with
  | nil =>
    cases h
    intro c hc
    cases hc
  | cons cd cds ih =>
    rw [List.mapM_cons] at h
    obtain ⟨c0, hc0, h⟩ := bind_eq_ok.mp h
    obtain ⟨cs, hcs, h⟩ := bind_eq_ok.mp h
    cases h
    intro c hc
    rcases List.mem_cons.mp hc with rfl | hc
    · exact createColumn_ok hc0
    · exact ih hcs c hc

theorem Names.mono {defs defs' : List TableDef} {c : Column} (h : Names defs c)
    (hmem : ∀ pd ∈ defs, pd.name = c.fkTable → pd ∈ defs') : Names defs' c := by
  obtain ⟨pd, hpd, hname, hpc⟩ := h
  exact ⟨pd, hmem pd hpd hname, hname, hpc⟩

/-- The type of a primary key that is a foreign key stays as it was compared. -/
theorem Names.normalized {c : Column} (h : Names defs c) (hkeys : ∀ td ∈ defs, GoodKeys td.cols) :
    Names defs { c with type := normalizePKType c.type } := by
  obtain ⟨pd, hpd, hname, pc, hpc, hprimary, htype⟩ := h
  refine ⟨pd, hpd, hname, pc, hpc, hprimary, ?_⟩
  have hint := (hkeys pd hpd).int pc (List.mem_of_find?_eq_some hpc) hprimary
  show pc.type = normalizePKType c.type
  rw [htype] at hint ⊢
  rw [normalizePKType, if_pos hint]

/-! ## Runs -/

/-- The catalog is in order. -/
structure Ordered (e : Engine) : Prop where
  indexed : e.Indexed
  named : e.Named
  keys : ∀ td ∈ e.catalog, GoodKeys td.cols
  closed : Closed e.catalog
  other : ∀ td ∈ e.catalog, ∀ c ∈ td.cols, c.fkTable ≠ "" → c.fkTable ≠ td.name

variable {env : Env} {e : Engine}

theorem mem_catalog_set {e' : Engine} {name : String} {tb : Table}
    (htables : e'.tables = e.tables.set name tb) (hnone : e.tables.get? name = none)
    (td : TableDef) : td ∈ e'.catalog ↔ tb.definition = td ∨ td ∈ e.catalog := by
  rw [Engine.mem_catalog, Engine.mem_catalog, htables]
  constructor
  · intro ⟨n, t, ht, htd⟩
    rw [GoMap.get?_set] at ht
    split at ht
    · cases ht
      exact .inl htd
    · exact .inr ⟨n, t, ht, htd⟩
  · rintro (htd | ⟨n, t, ht, htd⟩)
    · exact ⟨name, tb, GoMap.get?_set_self .., htd⟩
    · have hne : n ≠ name := by
        rintro rfl
        rw [hnone] at ht
        cases ht
      exact ⟨n, t, by rw [GoMap.get?_set_ne _ _ hne]; exact ht, htd⟩

theorem mem_catalog_delete {e' : Engine} {name : String}
    (htables : e'.tables = e.tables.delete name) (hn : e.Named) (td : TableDef) :
    td ∈ e'.catalog ↔ td ∈ e.catalog ∧ td.name ≠ name := by
  rw [Engine.mem_catalog, Engine.mem_catalog, htables]
  constructor
  · rintro ⟨n, t, ht, htd⟩
    rw [GoMap.get?_delete] at ht
    split at ht
    · cases ht
    · next hne =>
      refine ⟨⟨n, t, ht, htd⟩, ?_⟩
      rw [← htd]
      exact fun heq => hne ((hn.name_eq ht).symm.trans heq)
  · rintro ⟨⟨n, t, ht, htd⟩, hne⟩
    refine ⟨n, t, ?_, htd⟩
    rw [GoMap.get?_delete_ne _ (fun heq => hne ?_)]
    · exact ht
    · rw [← htd]
      exact (hn.name_eq ht).trans heq

/-- A CREATE TABLE whose columns pass their checks is the engine's. -/
theorem execCreate_fst (e : Engine) (name : String) (cds : List ColumnDef) :
    (execCreate e name cds).1 = e ∨
      ∃ cols, cds.mapM (createColumn e.catalog name) = .ok cols ∧
        (execCreate e name cds).1 = (e.createTable name cols).1 := by
  unfold execCreate
  cases hm : cds.mapM (createColumn e.catalog name) with
  | error err => exact .inl rfl
  | ok cols =>
    refine .inr ⟨cols, rfl, ?_⟩
    dsimp only
    rcases e.createTable name cols with ⟨e', err | u⟩
    · cases err <;> rfl
    · rfl

theorem execDrop_fst (e : Engine) (name : String) (ifExists : Bool) :
    (execDrop e name ifExists).1 = (e.dropTable name).1 := by
  unfold execDrop
  rcases e.dropTable name with ⟨e', err | u⟩
  · cases err with
    | noTable => cases ifExists <;> rfl
    | _ => rfl
  · rfl

theorem ordered_create (h : Ordered e) (name : String) (cds : List ColumnDef) :
    Ordered (execCreate e name cds).1 := by
  rcases execCreate_fst e name cds with hsame | ⟨cols, hm, hfst⟩
  · rw [hsame]
    exact h
  have hdid := Engine.did_createTable e name cols
  rw [hfst]
  rcases e.createTable_cases name cols with hsame | ⟨td, hvalid, hnone, hnew⟩
  · rw [hsame]
    exact h
  obtain ⟨tb, htables, hcols, htb⟩ : ∃ tb : Table, (e.createTable name cols).1.tables
      = e.tables.set name tb ∧ tb.cols = td.cols ∧ tb.name = name := by
    rw [hnew]
    exact ⟨_, rfl, rfl, rfl⟩
  have hmem := mem_catalog_set htables hnone
  have hmono : ∀ c, Names e.catalog c → Names (e.createTable name cols).1.catalog c :=
    fun c hc => hc.mono fun pd hpd _ => (hmem pd).mpr (.inr hpd)
  have hnew : ∀ c' ∈ tb.definition.cols, c'.fkTable ≠ "" → Names e.catalog c' := by
    intro c' hc' hfk
    rw [show tb.definition.cols = td.cols from hcols] at hc'
    obtain ⟨c, hc, hcase⟩ := TableDef.mem_of_validate hvalid hc'
    rcases hcase with rfl | rfl
    · exact mapM_createColumn_ok hm c' hc hfk
    · exact (mapM_createColumn_ok hm c hc hfk).normalized h.keys
  refine ⟨hdid.indexed h.indexed, hdid.named h.named, ?_, ?_, ?_⟩
  · intro d hd
    rcases (hmem d).mp hd with rfl | hd
    · rw [show tb.definition.cols = td.cols from hcols]
      exact TableDef.goodKeys_of_validate hvalid
    · exact h.keys d hd
  · intro d hd c' hc' hfk
    refine hmono c' ?_
    rcases (hmem d).mp hd with rfl | hd
    · exact hnew c' hc' hfk
    · exact h.closed d hd c' hc' hfk
  · intro d hd c' hc' hfk
    rcases (hmem d).mp hd with rfl | hd
    · -- the parent was there before the table was
      obtain ⟨pd, hpd, hname, -⟩ := hnew c' hc' hfk
      obtain ⟨n, t, ht, rfl⟩ := Engine.mem_catalog.mp hpd
      rintro heq
      rw [← hname, show tb.definition.name = name from htb] at heq
      rw [(h.named.name_eq ht).symm.trans heq, hnone] at ht
      cases ht
    · exact h.other d hd c' hc' hfk

theorem ordered_drop (h : Ordered e) {name : String} {ifExists : Bool}
    (hfree : DropsUnreferenced e (.dropTable name ifExists)) :
    Ordered (execDrop e name ifExists).1 := by
  have hdid := Engine.did_dropTable e name
  rw [execDrop_fst]
  cases ht : e.tables.get? name with
  | none =>
    rw [Engine.dropTable, ht]
    exact h
  | some t =>
    have htables : (e.dropTable name).1.tables = e.tables.delete name := by
      rw [Engine.dropTable, ht, ← h.named.name_eq ht]
      rfl
    have hmem := mem_catalog_delete htables h.named
    refine ⟨hdid.indexed h.indexed, hdid.named h.named, ?_, ?_,
      fun d hd => h.other d ((hmem d).mp hd).1⟩
    · intro d hd
      exact h.keys d ((hmem d).mp hd).1
    · intro d hd c hc hfk
      obtain ⟨hd, hne⟩ := (hmem d).mp hd
      refine (h.closed d hd c hc hfk).mono fun pd hpd hname => (hmem pd).mpr ⟨hpd, ?_⟩
      rw [hname]
      exact hfree d hd hne c hc

theorem ordered_access (h : Ordered e) (stmt : Statement) :
    Ordered ((execAccess env stmt).run Engine.handler e).1 := by
  have hstep := Session.stepped_run (execAccess env stmt) (Session.ready_of_engine h.indexed)
  rw [Session.run_engine] at hstep
  have hcatalog := hstep.defs.catalog_eq
  refine ⟨hstep.ready.indexed, hstep.defs.named h.named, ?_, ?_, ?_⟩
  · rw [hcatalog]
    exact h.keys
  · rw [hcatalog]
    exact h.closed
  · rw [hcatalog]
    exact h.other

/-- One statement in autocommit. -/
def execStep (env : Env) (e : Engine) (stmt : Statement) : Engine := (exec env e stmt).1

theorem ordered_exec (h : Ordered e) (stmt : Statement) (hfree : DropsUnreferenced e stmt) :
    Ordered (execStep env e stmt) := by
  cases stmt with
  | createTable name cds => exact ordered_create h name cds
  | dropTable name ifExists => exact ordered_drop h hfree
  | _ => exact ordered_access h _

theorem ordered_empty : Ordered {} := by
  have hnone : ∀ td, td ∉ ({} : Engine).catalog := by
    intro td htd
    obtain ⟨n, t, ht, -⟩ := Engine.mem_catalog.mp htd
    rw [GoMap.get?_empty] at ht
    cases ht
  exact ⟨Engine.indexed_empty, Engine.named_empty, fun td htd => (hnone td htd).elim,
    fun td htd => (hnone td htd).elim, fun td htd => (hnone td htd).elim⟩

/-- **The foreign keys of the catalog are closed** after every sequence of
statements, DDL and others, that drops no table another one refers to. -/
theorem catalog_keys_closed (env : Env) (stmts : List Statement)
    (h : Run.Along (execStep env) DropsUnreferenced {} stmts) :
    Closed (Run.run (execStep env) {} stmts).catalog := by
  have hrun : Ordered (Run.run (execStep env) {} stmts) :=
    h.invariant (I := Ordered) (fun _ stmt hs hfree => ordered_exec hs stmt hfree) ordered_empty
  exact hrun.closed

/-- `CREATE TABLE p (id INT PRIMARY KEY); CREATE TABLE c (p INT REFERENCES p)`,
then a table is dropped. -/
def dropOneOfTwo (name : String) : List Statement :=
  [.createTable "p" [{ name := "id", type := .int, primary := true }],
   .createTable "c" [{ name := "p", type := .int, refTable := "p" }],
   .dropTable name false]

theorem catalog_keys_closed_drop_child :
    Run.Along (execStep epochEnv) DropsUnreferenced {} (dropOneOfTwo "c") ∧
      Closed (Run.run (execStep epochEnv) {} (dropOneOfTwo "c")).catalog := by
  have hfree : Run.Along (execStep epochEnv) DropsUnreferenced {} (dropOneOfTwo "c") := by
    decide +kernel
  exact ⟨hfree, catalog_keys_closed epochEnv _ hfree⟩

/-- **A foreign key to a table that has gone.** -/
theorem drop_leaves_dangling_key :
    ¬ Closed (Run.run (execStep epochEnv) {} (dropOneOfTwo "p")).catalog := by
  decide +kernel

end Executor

end Tsql
