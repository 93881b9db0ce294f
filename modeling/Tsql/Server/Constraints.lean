import Tsql.Server.Rows

/-!
# Primary keys and NOT NULL over whole runs

Two constraints a reader expects of every committed row: its primary key is
the id it is stored under, and its NOT NULL columns hold values. The code keeps
both but for values it does not look at: a primary key that is zero, which the
storage takes for "none given", and whatever an UPDATE computes, which is not
checked for NULL. The conditions below are on the rows a statement computes
from the state it finds, before it writes any.
-/

namespace Tsql.Server

open Storage Executor

variable {s : Server} {ev : Event}

/-- The statement of a request. -/
def Event.stmt (ev : Event) : Option Statement :=
  match ev.req with
  | .query (.ok stmt) => some stmt
  | _ => none

/-- Every row the request's statement computes has the property. -/
def Computes (s : Server) (ev : Event) (P : List Column → Statement → Row → Prop) : Prop :=
  ∀ stmt ∈ ev.stmt, ∀ n ∈ target stmt, ∀ w ∈ (s.session ev.conn).view n,
    ∀ row ∈ (plan ev.env (s.session ev.conn) stmt).rows, P w.cols stmt row

instance (s : Server) (ev : Event) (P : List Column → Statement → Row → Prop)
    [∀ cols stmt row, Decidable (P cols stmt row)] : Decidable (Computes s ev P) := by
  unfold Computes
  infer_instance

theorem Computes.of_write {P : List Column → Statement → Row → Prop} (h : Computes s ev P)
    (hs : s.Sound) {stmt : Statement} (req : ev.req = .query (.ok stmt)) {o : Op}
    (hmem : o ∈ Session.writes (execAccess ev.env stmt) (s.session ev.conn)) {w : View}
    (hw : (s.session ev.conn).view o.name = some w) :
    ∀ row ∈ (plan ev.env (s.session ev.conn) stmt).rows, P w.cols stmt row := by
  have hstmt : ev.stmt = some stmt := by rw [Event.stmt, req]
  have htarget := (writes_execAccess (hs.ready ev.conn) hs.named stmt o hmem).name
  exact h stmt hstmt o.name htarget w hw

/-! ## The primary key is the row id -/

/-- No table is dropped under a transaction, and every key is given. -/
def KeysGiven (s : Server) (ev : Event) : Prop := DropsFree s ev ∧ Computes s ev KeyGiven

instance (s : Server) (ev : Event) : Decidable (KeysGiven s ev) :=
  inferInstanceAs (Decidable (_ ∧ _))

theorem stores_keyed (hs : s.Sound)
    (h : s.Obeys fun cols id row => Fits cols row ∧ KeyIs cols id row)
    (hgiven : Computes s ev KeyGiven) :
    StoresObeying s ev fun cols id row => Fits cols row ∧ KeyIs cols id row := by
  intro stmt req n id row hmem w hw
  obtain ⟨hsource, hwidth⟩ := hs.source hw hmem
  have hkeys := hs.goodKeys hw
  have hold := h.session hs ev.conn n w hw
  have hcells : ∀ id row, w.rows.get? id = some row → CellsFit w.cols row :=
    fun id row hrow => (hold id row hrow).1.cells
  refine ⟨⟨hwidth, hsource.cellsFit hkeys hcells⟩, ?_⟩
  exact hsource.keyIs hkeys hwidth hcells (fun id row hrow => (hold id row hrow).2)
    (hgiven.of_write hs req hmem hw)

/-- **The primary key is the row id**, in every run whose statements give every
key: so no two rows show the same key, and none shows NULL. -/
theorem primary_key_is_row_id (evs : List Event) (h : Run.Along step KeysGiven {} evs) :
    ∀ n w i, (Run.run step {} evs).committed n = some w → keyColumn w.cols = some i →
      (∀ id row, w.rows.get? id = some row → row[i]? = some (.int id)) ∧
      ∀ id row id' row', w.rows.get? id = some row → w.rows.get? id' = some row' →
        row[i]? = row'[i]? → id = id' := by
  intro n w i hw hi
  have hrun := obeys_run (fun _ _ hs hrows hc => ⟨hc.1, stores_keyed hs hrows hc.2⟩) h
  have hcell : ∀ id row, w.rows.get? id = some row → row[i]? = some (.int id) :=
    fun id row hrow => (hrun.committed n w hw id row hrow).2 i hi
  refine ⟨hcell, ?_⟩
  intro id row id' row' hrow hrow' heq
  rw [hcell id row hrow, hcell id' row' hrow'] at heq
  cases heq
  rfl

/-- A table with an automatic key, and one statement more. -/
def keyedRun (stmt : Statement) : List Event :=
  [sql 0 (.createTable "t" [{ name := "id", type := .int, primary := true, autoInc := true },
                           { name := "a", type := .int, notNull := true }]),
   sql 1 .begin,
   sql 1 (.insert { table := "t", cols := [], rows := [[.lit (.int 5), .lit (.int 1)]] }),
   sql 1 (.insert { table := "t", cols := ["a"], rows := [[.lit (.int 2)]] }),
   sql 1 .commit,
   sql 0 stmt]

/-- `UPDATE t SET col = e`. -/
def updateAll (col : String) (e : Expr) : Statement :=
  .update { table := "t", sets := [⟨col, e⟩], where_ := none }

/-- `INSERT INTO t VALUES (k, 3)`. -/
def insertKeyed (k : Int64) : Statement :=
  .insert { table := "t", cols := [], rows := [[.lit (.int k), .lit (.int 3)]] }

theorem primary_key_is_row_id_explicit :
    Run.Along step KeysGiven {} (keyedRun (insertKeyed 9)) ∧
      ∀ n w i, (Run.run step {} (keyedRun (insertKeyed 9))).committed n = some w →
        keyColumn w.cols = some i →
        (∀ id row, w.rows.get? id = some row → row[i]? = some (.int id)) ∧
        ∀ id row id' row', w.rows.get? id = some row → w.rows.get? id' = some row' →
          row[i]? = row'[i]? → id = id' := by
  have hgiven : Run.Along step KeysGiven {} (keyedRun (insertKeyed 9)) := by decide +kernel
  exact ⟨hgiven, primary_key_is_row_id _ hgiven⟩

/-- Every committed row has its id in the key column. -/
def KeyIsRowID (s : Server) : Prop :=
  ∀ n w i, s.committed n = some w → keyColumn w.cols = some i →
    ∀ id row, w.rows.get? id = some row → row[i]? = some (.int id)

theorem not_keyIsRowID (n : String) (id : Int64) (i : Nat) (row : Row)
    (h : (s.committed n).map (fun w => (keyColumn w.cols, w.rows.get? id)) = some (some i, some row))
    (hne : row[i]? ≠ some (.int id)) : ¬ KeyIsRowID s := by
  intro hkeys
  obtain ⟨w, hw, heq⟩ := Option.map_eq_some_iff.mp h
  obtain ⟨hi, hrow⟩ := Prod.mk.injEq .. ▸ heq
  exact hne (hkeys n w i hw hi id row hrow)

/-- **Keys that are not the row id**: zero is stored under an automatic id, 6,
and an UPDATE clears the keys of all rows. -/
theorem primary_key_lost :
    ¬ KeyIsRowID (Run.run step {} (keyedRun (insertKeyed 0))) ∧
      ¬ KeyIsRowID (Run.run step {} (keyedRun (updateAll "id" (.lit .null)))) :=
  ⟨not_keyIsRowID "t" 6 0 [.int 0, .int 3] (by decide +kernel) (by decide),
    not_keyIsRowID "t" 5 0 [.null, .int 1] (by decide +kernel) (by decide)⟩

/-! ## NOT NULL -/

/-- No table is dropped under a transaction, and no UPDATE computes NULL for a
column declared NOT NULL. -/
def NullsKeptOut (s : Server) (ev : Event) : Prop :=
  DropsFree s ev ∧ Computes s ev fun cols stmt row => isUpdate stmt = true → NotNull cols row

instance (s : Server) (ev : Event) : Decidable (NullsKeptOut s ev) :=
  inferInstanceAs (Decidable (_ ∧ _))

theorem stores_notNull (hs : s.Sound)
    (hgiven : Computes s ev fun cols stmt row => isUpdate stmt = true → NotNull cols row) :
    StoresObeying s ev fun cols _ row => NotNull cols row := by
  intro stmt req n id row hmem w hw
  obtain ⟨hsource, -⟩ := hs.source hw hmem
  refine hsource.notNull (hs.goodKeys hw) fun hupdate row hrow => ?_
  exact hgiven.of_write hs req hmem hw row hrow hupdate

/-- **NOT NULL is kept**, in every run whose UPDATEs compute no NULL for it. -/
theorem not_null_kept (evs : List Event) (h : Run.Along step NullsKeptOut {} evs) :
    ∀ n w, (Run.run step {} evs).committed n = some w → ∀ id row, w.rows.get? id = some row →
      NotNull w.cols row :=
  (obeys_run (fun _ _ hs _ hc => ⟨hc.1, stores_notNull hs hc.2⟩) h).committed

theorem not_null_kept_update :
    Run.Along step NullsKeptOut {} (keyedRun (updateAll "a" (.colRef "" "id"))) ∧
      ∀ n w, (Run.run step {} (keyedRun (updateAll "a" (.colRef "" "id")))).committed n = some w →
        ∀ id row, w.rows.get? id = some row → NotNull w.cols row := by
  have hkept : Run.Along step NullsKeptOut {} (keyedRun (updateAll "a" (.colRef "" "id"))) := by
    decide +kernel
  exact ⟨hkept, not_null_kept _ hkept⟩

/-- **NULL in a NOT NULL column.** -/
theorem update_stores_null :
    ∃ w row, (Run.run step {} (keyedRun (updateAll "a" (.lit .null)))).committed "t" = some w ∧
      w.rows.get? 5 = some row ∧ ¬ NotNull w.cols row := by
  refine ⟨((Run.run step {} (keyedRun (updateAll "a" (.lit .null)))).committed "t").get
    (by decide +kernel), [.int 5, .null], by rw [Option.some_get], ?_, ?_⟩
  · decide +kernel
  · decide +kernel

end Tsql.Server
