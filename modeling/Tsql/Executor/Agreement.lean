import Tsql.Executor.Frame
import Tsql.Executor.Turns
import Tsql.Storage.SessionWrites

/-!
# Autocommit and one transaction

The engine and a transaction implement the same accessor with different code.
A list of statements that goes through in autocommit is run here once more,
inside one transaction, and both runs are compared call by call: same answers,
same tables to see.

They agree in everything but the automatic ids. In autocommit a row stored
under an id of its own raises the counter of its table at once; in a
transaction it does so at COMMIT, and until then the counter gives out ids that
are too low, or taken. A transaction also refuses an automatic id that is
taken, where the engine overwrites the row.
-/

namespace Tsql.Executor

open Storage

/-! ## What is compared -/

/-- An id that a new row got, and whether the counter gave it. -/
structure Assigned where
  table : String
  auto : Bool
  id : Int64
  deriving DecidableEq

/-- The id a call has assigned. -/
def assigned : (c : AccessorCall) → c.Reply → List Assigned
  | .put name rowID _, .ok id => [⟨name, rowID = 0, id⟩]
  | .putAuto name _ _, .ok id => [⟨name, true, id⟩]
  | _, _ => []

/-- Statements one after another, with all their results. -/
def execAll (env : Env) : List Statement → Exec (List Result)
  | [] => return []
  | stmt :: stmts => do
    let res ← execAccess env stmt
    let rest ← execAll env stmts
    return res :: rest

/-- In autocommit, with the ids assigned. -/
abbrev autocommit : Handler Accessor (Engine × List Assigned) :=
  Prog.logging Engine.handler assigned

/-- Inside a transaction, with the ids assigned. -/
abbrev inTxn : Handler Accessor ((Engine × Txn) × List Assigned) :=
  Prog.logging Txn.handler assigned

/-! ## The condition -/

/-- The table a call draws an automatic id for. -/
def draws : AccessorCall → Option String
  | .put name rowID _ => if rowID = 0 then some name else none
  | .putAuto name _ _ => some name
  | _ => none

/-- The counter of a table. -/
def counter (e : Engine) (name : String) : Int64 := ((e.tables.get? name).map Table.nextID).getD 0

/-- Where the counter of a table would be, had only automatic ids moved it. -/
def counted (e0 : Engine) (log : List Assigned) (name : String) : Int64 :=
  counter e0 name + Int64.ofNat (log.countP fun a => a.table = name ∧ a.auto)

/-- An automatic id is drawn where the counter has only counted automatic ids
since `e0`, and the id is free. -/
def Counts (e0 : Engine) (s : Engine × List Assigned) (c : AccessorCall) : Prop :=
  ∀ name ∈ draws c, ∀ tb ∈ s.1.tables.get? name,
    tb.nextID = counted e0 s.2 name ∧ tb.rows.get? tb.nextID = none
  deriving Decidable

/-! ## Two runs side by side -/

/-- **The two runs are together**: same log, same tables to see; and the
counters of the transaction's engine have only counted automatic ids. -/
structure Same (e0 : Engine) (s : Engine × List Assigned) (t : (Engine × Txn) × List Assigned) :
    Prop where
  log : t.2 = s.2
  active : t.1.2.done = false
  indexed : s.1.Indexed
  indexed' : t.1.1.Indexed
  defs : e0.SameDefs s.1
  defs' : e0.SameDefs t.1.1
  rows : ∀ n tb tb', s.1.tables.get? n = some tb → t.1.1.tables.get? n = some tb' →
    t.1.2.eff n tb' = tb.rows
  live : ∀ o ∈ t.1.2.ops, ∃ tb, t.1.1.tables.get? o.name = some tb
  counters : ∀ n, ∀ tb ∈ t.1.1.tables.get? n, tb.nextID = counted e0 s.2 n

/-- Two logs neither of which can become the other. -/
def Diverged (l l' : List Assigned) : Prop := ¬ l <+: l' ∧ ¬ l' <+: l

theorem Diverged.append {l l' : List Assigned} (h : Diverged l l') (m m' : List Assigned) :
    Diverged (l ++ m) (l' ++ m') := by
  constructor
  · intro hp
    rcases List.prefix_or_prefix_of_prefix ((List.prefix_append l m).trans hp)
      (List.prefix_append l' m') with hl | hl
    · exact h.1 hl
    · exact h.2 hl
  · intro hp
    rcases List.prefix_or_prefix_of_prefix ((List.prefix_append l' m').trans hp)
      (List.prefix_append l m) with hl | hl
    · exact h.2 hl
    · exact h.1 hl

theorem Diverged.ne {l l' : List Assigned} (h : Diverged l l') : l ≠ l' := by
  rintro rfl
  exact h.1 (List.prefix_refl l)

theorem diverged_of_ne {l : List Assigned} {a b : Assigned} (h : a ≠ b) :
    Diverged (l ++ [a]) (l ++ [b]) := by
  constructor <;>
  · intro hp
    have := List.IsPrefix.eq_of_length hp (by simp)
    simp_all

/-- **The run in autocommit has a companion in the transaction**, if it has met
the condition so far; otherwise the transaction fails or has assigned another
id. -/
def Tracks {α : Type} (e0 : Engine) (p : Exec α) : Prop :=
  ∀ s t, Same e0 s t → ∀ s' a, p.run autocommit s = (s', .ok a) →
    (p.Meets autocommit (Counts e0) s ∧ ∃ t', p.run inTxn t = (t', .ok a) ∧ Same e0 s' t') ∨
      (¬ p.Meets autocommit (Counts e0) s ∧
        ∀ t' a', p.run inTxn t = (t', .ok a') → Diverged s'.2 t'.2)

section

variable {e0 : Engine} {α β : Type}

theorem tracks_ret (a : α) : Tracks e0 (.ret a : Exec α) := by
  intro s t h s' a' hrun
  cases hrun
  exact .inl ⟨trivial, t, rfl, h⟩

theorem Tracks.bind {p : Exec α} {f : α → Exec β} (hp : Tracks e0 p) (hf : ∀ a, Tracks e0 (f a)) :
    Tracks e0 (p >>= f) := by
  intro s t h s' b hrun
  rcases hrp : p.run autocommit s with ⟨s1, err | a⟩
  · rw [Prog.run_bind_error hrp] at hrun
    cases hrun
  rw [Prog.run_bind_ok hrp] at hrun
  rw [Prog.meets_bind]
  rcases hp s t h s1 a hrp with ⟨hmeets, t1, hrt, h1⟩ | ⟨hnot, hdiv⟩
  · have hnext : (∀ s' a', p.run autocommit s = (s', .ok a') →
        (f a').Meets autocommit (Counts e0) s') ↔ (f a).Meets autocommit (Counts e0) s1 := by
      rw [hrp]
      constructor
      · intro h
        exact h s1 a rfl
      · rintro h _ _ ⟨⟩
        exact h
    rw [hnext, Prog.run_bind_ok hrt]
    rcases hf a s1 t1 h1 s' b hrun with ⟨hmeets', ht'⟩ | ⟨hnot', hdiv'⟩
    · exact .inl ⟨⟨hmeets, hmeets'⟩, ht'⟩
    · exact .inr ⟨fun hm => hnot' hm.2, hdiv'⟩
  · refine .inr ⟨fun hm => hnot hm.1, ?_⟩
    intro t' b' hrt'
    rcases hrt : p.run inTxn t with ⟨t1, err | a'⟩
    · rw [Prog.run_bind_error hrt] at hrt'
      cases hrt'
    · rw [Prog.run_bind_ok hrt] at hrt'
      -- what comes later is appended to both logs
      obtain ⟨l, hl⟩ := Prog.run_logging Engine.handler assigned (f a) s1.1 s1.2
      obtain ⟨l', hl'⟩ := Prog.run_logging Txn.handler assigned (f a') t1.1 t1.2
      have hs' : s'.2 = s1.2 ++ l := by
        have := hrun.symm.trans hl
        exact congrArg (fun p => p.1.2) this
      have ht' : t'.2 = t1.2 ++ l' := by
        have := hrt'.symm.trans hl'
        exact congrArg (fun p => p.1.2) this
      rw [hs', ht']
      exact (hdiv t1 a' hrt).append l l'

end

/-! ## Reads -/

namespace Same

variable {e0 : Engine} {s : Engine × List Assigned} {t : (Engine × Txn) × List Assigned}

/-- A table of the one run is a table of the other. -/
theorem table (h : Same e0 s t) {n : String} {tb : Table} (htb : s.1.tables.get? n = some tb) :
    ∃ tb', t.1.1.tables.get? n = some tb' ∧ tb'.name = tb.name ∧ tb'.cols = tb.cols ∧
      t.1.2.eff n tb' = tb.rows := by
  have hdef := (h.defs' n).trans (h.defs n).symm
  rw [htb] at hdef
  obtain ⟨tb', htb', heq⟩ := Option.map_eq_some_iff.mp hdef
  exact ⟨tb', htb', congrArg TableDef.name heq, congrArg TableDef.cols heq, h.rows n tb tb' htb htb'⟩

theorem table_none (h : Same e0 s t) {n : String} (htb : s.1.tables.get? n = none) :
    t.1.1.tables.get? n = none := by
  have hdef := (h.defs' n).trans (h.defs n).symm
  rw [htb] at hdef
  exact Option.map_eq_none_iff.mp hdef

/-- **Both sessions see the same.** -/
theorem view (h : Same e0 s t) (n : String) :
    Session.view (s.1, none) n = Session.view (t.1.1, some t.1.2) n := by
  unfold Session.view Session.pending
  simp only [h.active, Bool.false_eq_true, if_false, opsOn_nil, List.foldl_nil]
  cases htb : s.1.tables.get? n with
  | none =>
    rw [h.table_none htb]
    rfl
  | some tb =>
    obtain ⟨tb', htb', -, hcols, hrows⟩ := h.table htb
    rw [htb', Option.map_some, Option.map_some, hcols]
    exact congrArg (fun rows => some (View.mk tb.cols rows)) hrows.symm

theorem ready (h : Same e0 s t) : Session.Ready (t.1.1, some t.1.2) := by
  refine ⟨h.indexed', ?_, ?_⟩
  · rintro t' ⟨⟩
    exact h.active
  · rw [Session.pending_of_active h.active]
    exact h.live

theorem reply_get (h : Same e0 s t) (n : String) (id : Int64) :
    Session.reply (s.1, none) (.get n id) = Session.reply (t.1.1, some t.1.2) (.get n id) := by
  rw [(Session.ready_of_engine h.indexed).reply_get, h.ready.reply_get, h.view]

theorem catalog_eq (h : Same e0 s t) : s.1.catalog = e0.catalog :=
  h.defs.catalog_eq

theorem reply_uniqueGet (h : Same e0 s t) (hnamed : e0.Named) {td : TableDef}
    (htd : td ∈ e0.catalog) {ci : Nat} (hci : ci ∈ uniqCols td.cols) (v : Value) :
    Session.reply (s.1, none) (.uniqueGet td.name ci v) =
      Session.reply (t.1.1, some t.1.2) (.uniqueGet td.name ci v) := by
  obtain ⟨n, tb0, htb0, rfl⟩ := Engine.mem_catalog.mp htd
  have hn : n = tb0.name := (hnamed n _ (Engine.view_eq_some htb0)).symm
  subst hn
  obtain ⟨tb, htb, heq⟩ := h.defs.table htb0
  have hcols : tb.cols = tb0.cols := congrArg TableDef.cols heq
  obtain ⟨tb', htb', -, hcols', hrows⟩ := h.table htb
  have hv : Session.view (s.1, none) tb0.name = some ⟨tb.cols, tb.rows⟩ := by
    rw [Session.view, htb]
    rfl
  show Session.reply _ (.uniqueGet tb0.name ci v) = Session.reply _ (.uniqueGet tb0.name ci v)
  rw [Session.reply_uniqueGet htb (h.indexed.exact htb) hv (hcols ▸ hci),
    Session.reply_uniqueGet htb' (h.indexed'.exact htb') ((h.view _).symm.trans hv)
      (by rw [hcols', hcols]; exact hci)]

/-- A query gets the same answers from both. -/
theorem extends_reply (h : Same e0 s t) (hnamed : e0.Named) :
    Extends [] (Session.reply (s.1, none)) (Session.reply (t.1.1, some t.1.2)) where
  catalog := by
    refine ⟨[], ?_, fun d hd => absurd hd List.not_mem_nil⟩
    rw [List.append_nil]
    exact h.defs'.catalog_eq.trans h.catalog_eq.symm
  allRows := by
    intro n _
    rw [Session.reply_allRows, Session.reply_allRows, h.view]
  get := fun n _ id => h.reply_get n id
  uniqueGet := by
    intro td htd _ ci hci v
    refine h.reply_uniqueGet hnamed ?_ hci v
    rw [← h.catalog_eq]
    exact htd

/-- What asks no index gets the same answers from both. -/
theorem eval_scans {α : Type} (h : Same e0 s t) {p : Exec α} (hp : Scans p) :
    p.eval (Session.reply (s.1, none)) = p.eval (Session.reply (t.1.1, some t.1.2)) := by
  refine Prog.eval_congr (fun c hc => ?_) hp
  cases c with
  | catalog => exact h.catalog_eq.trans h.defs'.catalog_eq.symm
  | allRows n => rw [Session.reply_allRows, Session.reply_allRows, h.view]
  | get n id => exact h.reply_get n id
  | uniqueGet _ _ _ | put _ _ _ | putAuto _ _ _ | update _ _ _ | delete _ _ => cases hc

end Same

section

variable {e0 : Engine} {α β : Type}

theorem assigned_reads {c : AccessorCall} (h : c.reads = true) (r : c.Reply) : assigned c r = [] := by
  cases c <;> first | rfl | cases h

theorem Reads.run_autocommit {p : Exec α} (h : Reads p) (s : Engine × List Assigned) :
    p.run autocommit s = (s, p.eval (Session.reply (s.1, none))) := by
  refine Prog.run_eq_eval (fun c hc => ?_) h
  have hkeep : (Engine.handler c s.1).1 = s.1 :=
    congrArg Prod.fst (Session.handler_reads hc (s.1, none))
  show ((Engine.handler c s.1).1, s.2 ++ assigned c _) = s
  rw [assigned_reads hc, hkeep, List.append_nil]

theorem Reads.run_inTxn {p : Exec α} (h : Reads p) (t : (Engine × Txn) × List Assigned) :
    p.run inTxn t = (t, p.eval (Session.reply (t.1.1, some t.1.2))) := by
  refine Prog.run_eq_eval (fun c hc => ?_) h
  have hkeep := Session.handler_reads hc (t.1.1, some t.1.2)
  have hfst := congrArg Prod.fst hkeep
  have hsnd := congrArg Prod.snd hkeep
  show ((Txn.handler c t.1).1, t.2 ++ assigned c _) = t
  rw [assigned_reads hc, List.append_nil]
  exact Prod.ext (Prod.ext hfst (Option.some.inj hsnd)) rfl

theorem counts_reads (s : Engine × List Assigned) (c : AccessorCall) (h : c.reads = true) :
    Counts e0 s c := by
  cases c with
  | catalog | allRows _ | get _ _ | uniqueGet _ _ _ =>
    intro name hname
    cases hname
  | put _ _ _ | putAuto _ _ _ | update _ _ _ | delete _ _ => cases h

/-- **What only reads is tracked** if it gets the same answers. -/
theorem Tracks.read {p : Exec α} (hp : Reads p)
    (h : ∀ s t, Same e0 s t →
      p.eval (Session.reply (s.1, none)) = p.eval (Session.reply (t.1.1, some t.1.2))) :
    Tracks e0 p := by
  intro s t hst s' a hrun
  rw [hp.run_autocommit] at hrun
  obtain ⟨rfl, ha⟩ := Prod.mk.injEq .. ▸ hrun
  refine .inl ⟨hp.meets counts_reads s, t, ?_, hst⟩
  rw [hp.run_inTxn, ← h s t hst, ha]

/-- The same, where what follows may use what was read. -/
theorem Tracks.read_bind {p : Exec α} {f : α → Exec β} (hp : Reads p)
    (h : ∀ s t, Same e0 s t →
      p.eval (Session.reply (s.1, none)) = p.eval (Session.reply (t.1.1, some t.1.2)))
    (hf : ∀ s t a, Same e0 s t → p.eval (Session.reply (s.1, none)) = .ok a → Tracks e0 (f a)) :
    Tracks e0 (p >>= f) := by
  intro s t hst s' b hrun
  have hrp := hp.run_autocommit s
  have hrt := hp.run_inTxn t
  rw [← h s t hst] at hrt
  cases ha : p.eval (Session.reply (s.1, none)) with
  | error err =>
    rw [ha] at hrp
    rw [Prog.run_bind_error hrp] at hrun
    cases hrun
  | ok a =>
    rw [ha] at hrp hrt
    have hmeets : (p >>= f).Meets autocommit (Counts e0) s ↔
        (f a).Meets autocommit (Counts e0) s := by
      rw [Prog.meets_bind, hrp]
      refine ⟨fun h => h.2 s a rfl, fun h => ⟨hp.meets counts_reads s, ?_⟩⟩
      rintro _ _ ⟨⟩
      exact h
    rw [Prog.run_bind_ok hrp] at hrun
    rw [hmeets, Prog.run_bind_ok hrt]
    exact hf s t a hst ha s t hst s' b hrun

theorem Tracks.lift_bind {x : Except Failure α} {f : α → Exec β}
    (hf : ∀ a, x = .ok a → Tracks e0 (f a)) : Tracks e0 (lift x >>= f) := by
  refine .read_bind (.lift x) (fun s t _ => by simp) fun s t a _ ha => hf a ?_
  rwa [Prog.eval_ofExcept] at ha

theorem Tracks.scan {p : Exec α} (hp : Scans p) : Tracks e0 p :=
  .read hp.reads fun _ _ h => h.eval_scans hp

end

/-! ## Writes -/

section

variable {e0 e e' e₂ e₂' : Engine} {t t' : Txn} {l : List Assigned} {name : String}
  {tb tb1 : Table} {rowID id : Int64} {row : Row}

theorem eff_append (t : Txn) {t' : Txn} {op : RowOp} (ht : t'.ops = t.ops ++ [⟨name, op⟩])
    (n : String) (tb : Table) :
    t'.eff n tb = if n = name then overlay (t.eff n tb) op else t.eff n tb := by
  unfold Txn.eff
  rw [ht, opsOn_append, opsOn_cons, opsOn_nil, List.foldl_append]
  by_cases hn : n = name
  · rw [if_pos hn, if_pos hn.symm]
    rfl
  · rw [if_neg hn, if_neg fun h => hn h.symm]
    rfl

/-- **One write, made in both.** -/
theorem Same.wrote (h : Same e0 (e, l) ((e₂, t), l)) {op : RowOp} {a : List Assigned}
    (htb : e.tables.get? name = some tb) (hset : e'.tables = e.tables.set name tb1)
    (hname : tb1.name = tb.name) (hcols : tb1.cols = tb.cols)
    (hrows : tb1.rows = overlay tb.rows op) (hi : e'.Indexed) (hq : e₂'.view = e₂.view)
    (ht : t'.ops = t.ops ++ [⟨name, op⟩]) (hd : t'.done = false)
    (hcount : ∀ n, ∀ tb ∈ e₂'.tables.get? n, tb.nextID = counted e0 (l ++ a) n) :
    Same e0 (e', l ++ a) ((e₂', t'), l ++ a) := by
  -- the transaction's engine has its tables, but for the counters
  have hold : ∀ n tb', e₂'.tables.get? n = some tb' →
      ∃ tb2, e₂.tables.get? n = some tb2 ∧ tb2.data = tb'.data := by
    intro n tb' htb'
    have hv := Engine.view_eq_some htb'
    rw [hq] at hv
    exact Engine.exists_of_view hv
  have hget : ∀ n, e'.tables.get? n = if n = name then some tb1 else e.tables.get? n := by
    intro n
    rw [hset, GoMap.get?_set]
  refine ⟨rfl, hd, hi, ?_, ?_, ?_, ?_, ?_, hcount⟩
  · intro n tb' hv
    rw [hq] at hv
    exact h.indexed' n tb' hv
  · exact h.defs.trans (Engine.sameDefs_of_set htb hset hname hcols)
  · exact h.defs'.trans (Engine.sameDefs_of_view hq)
  · intro n tb' tb2' htb' htb2'
    obtain ⟨tb2, htb2, hdata⟩ := hold n tb2' htb2'
    have hsame : tb2'.rows = tb2.rows := (Table.ext_iff.mp hdata).2.2.2.1.symm
    have heff : ∀ t : Txn, t.eff n tb2' = t.eff n tb2 := fun t => by rw [Txn.eff, Txn.eff, hsame]
    show t'.eff n tb2' = tb'.rows
    have htb' : e'.tables.get? n = some tb' := htb'
    rw [hget] at htb'
    rw [eff_append t ht, heff]
    split at htb'
    · next hn =>
      cases htb'
      subst hn
      rw [if_pos rfl, hrows, h.rows n tb tb2 htb htb2]
    · next hn => rw [if_neg hn, h.rows n tb' tb2 htb' htb2]
  · intro o ho
    have hlive : ∃ tb2, e₂.tables.get? o.name = some tb2 := by
      have ho : o ∈ t'.ops := ho
      rw [ht, List.mem_append, List.mem_singleton] at ho
      rcases ho with ho | rfl
      · exact h.live o ho
      · obtain ⟨tb2, htb2, -⟩ := h.table htb
        exact ⟨tb2, htb2⟩
    obtain ⟨tb2, htb2⟩ := hlive
    obtain ⟨tb2', htb2', -⟩ := (Engine.sameDefs_of_view hq).table htb2
    exact ⟨tb2', htb2'⟩

theorem counted_append (l : List Assigned) (a : Assigned) (n : String) :
    counted e0 (l ++ [a]) n =
      if a.table = n ∧ a.auto = true then counted e0 l n + 1 else counted e0 l n := by
  unfold counted
  rw [List.countP_append, List.countP_singleton, Int64.ofNat_add, ← Int64.add_assoc]
  simp only [decide_eq_true_eq]
  split
  · rfl
  · exact Int64.add_zero _

/-- The engine has stored a row, and the transaction is asked to. -/
theorem Same.insert (h : Same e0 (e, l) ((e₂, t), l)) {pkIdx : Int}
    (hput : e.putRow name pkIdx rowID row false = (e', .ok id))
    {stamp : Int64 → Row → Except Err Row}
    (hstamp : ∀ id, stamp id row = .ok (Table.stampPK pkIdx id row)) :
    ((∀ tb ∈ e.tables.get? name, rowID = 0 → tb.nextID = counted e0 l name ∧
          tb.rows.get? tb.nextID = none) →
        ∃ e₂' t', t.insertRow e₂ name rowID row stamp = (e₂', t', .ok id) ∧
          Same e0 (e', l ++ [⟨name, rowID = 0, id⟩]) ((e₂', t'), l ++ [⟨name, rowID = 0, id⟩])) ∧
      ((¬ ∀ tb ∈ e.tables.get? name, rowID = 0 → tb.nextID = counted e0 l name ∧
          tb.rows.get? tb.nextID = none) →
        ∀ e₂' t' id', t.insertRow e₂ name rowID row stamp = (e₂', t', .ok id') →
          id' ≠ id ∧ rowID = 0) := by
  obtain ⟨tb, tb1, row', htb, hset, hacc, hname, hcols, hrows, -, -⟩ := Engine.putRow_ok h.indexed hput
  obtain ⟨tb2, htb2, -, hcols2, heff⟩ := h.table htb
  have hcount : tb2.nextID = counted e0 l name := h.counters name tb2 htb2
  have hlen : row.length = tb.cols.length := by
    have := hacc.admits.1
    rwa [hacc.row_eq, Table.stampPK_length] at this
  constructor
  · intro hcond
    have hcond := hcond tb htb
    have hid : id = if rowID = 0 then tb2.nextID else rowID := by
      rw [hacc.id_eq]
      split
      · next hz => rw [(hcond hz).1, hcount]
      · rfl
    have hfree : tb.rows.get? id = none := by
      rw [hacc.id_eq]
      split
      · next hz => exact (hcond hz).2
      · next hz =>
        have := hacc.found hz
        simpa using this
    refine ⟨_, _, (Txn.insertRow_eq_ok h.active htb2).mpr ⟨by rw [hcols2, hlen], hid,
      by rw [← hfree]; exact congrArg (·.get? id) heff, ⟨row', ?_, ?_, rfl⟩, rfl⟩, ?_⟩
    · rw [hstamp, hacc.row_eq]
    · rw [hcols2]
      have := (View.admits_iff hacc.admits.1).mp hacc.admits
      rwa [← heff] at this
    · have hi' : e'.Indexed := by
        have := Engine.did_putRow e name pkIdx rowID row false
        rw [hput] at this
        exact this.indexed h.indexed
      have hrows : tb1.rows = overlay tb.rows (.put id row') := hrows
      refine h.wrote htb hset hname hcols hrows hi' ?_ rfl h.active ?_
      · split
        · exact (Engine.quiet_reserveID e₂ name).view
        · rfl
      · intro n tb' htb'
        rw [counted_append]
        by_cases hz : rowID = 0
        · simp only [hz, if_true, Engine.reserveID, htb2, Engine.setTable] at htb'
          rw [Option.mem_def, GoMap.get?_set] at htb'
          split at htb'
          · next hn =>
            cases htb'
            subst hn
            simp only [hz, decide_true, and_self, if_true]
            rw [← hcount]
          · next hn =>
            rw [if_neg fun hc => hn hc.1.symm]
            exact h.counters n tb' htb'
        · rw [if_neg hz] at htb'
          rw [if_neg fun hc => hz (of_decide_eq_true hc.2)]
          exact h.counters n tb' htb'
  · intro hcond e₂' t' id' hins
    obtain ⟨-, hid', hfree, -⟩ := (Txn.insertRow_eq_ok h.active htb2).mp hins
    by_cases hz : rowID = 0
    · refine ⟨?_, hz⟩
      rintro rfl
      refine hcond fun tb' htb' _ => ?_
      rw [Option.mem_def, htb] at htb'
      cases htb'
      rw [if_pos hz] at hid'
      have hid := hacc.id_eq
      rw [if_pos hz] at hid
      rw [← hid]
      exact ⟨hid'.trans hcount, by rw [← heff]; exact hfree⟩
    · exact absurd (fun tb' _ hz' => absurd hz' hz) hcond

theorem Same.update (h : Same e0 (e, l) ((e₂, t), l))
    (hput : e.putRow name (-1) rowID row true = (e', .ok id)) :
    ∃ t', t.update e₂ name rowID row = (t', .ok ()) ∧ Same e0 (e', l) ((e₂, t'), l) := by
  obtain ⟨tb, tb1, row', htb, hset, hacc, hname, hcols, hrows, -, -⟩ := Engine.putRow_ok h.indexed hput
  obtain ⟨tb2, htb2, -, hcols2, heff⟩ := h.table htb
  have hne := Engine.ne_zero_of_update_ok hput
  have hid : id = rowID := by
    rw [hacc.id_eq, if_neg hne]
  have hrow : row' = row := hacc.row_eq.trans (Table.stampPK_neg id row)
  subst hid hrow
  have hi' : e'.Indexed := by
    have := Engine.did_putRow e name (-1) id row' true
    rw [hput] at this
    exact this.indexed h.indexed
  have hrows : tb1.rows = overlay tb.rows (.put id row') := hrows
  refine ⟨_, (Txn.update_eq_ok h.active htb2).mpr ⟨by rw [hcols2]; exact hacc.admits.1, ?_, ?_, rfl⟩,
    ?_⟩
  · rw [← hacc.found hne]
    exact congrArg (fun rows => (rows.get? id).isSome) heff
  · rw [hcols2]
    have := (View.admits_iff hacc.admits.1).mp hacc.admits
    rwa [← heff] at this
  · have hnext : Same e0 (e', l ++ [])
        ((e₂, { t with ops := t.ops ++ [⟨name, .put id row'⟩] }), l ++ []) :=
      h.wrote htb hset hname hcols hrows hi' rfl rfl h.active
        (by rw [List.append_nil]; exact h.counters)
    rwa [List.append_nil] at hnext

theorem Same.delete (h : Same e0 (e, l) ((e₂, t), l)) (hdel : e.delete name rowID = (e', .ok ())) :
    ∃ t', t.delete e₂ name rowID = (t', .ok ()) ∧ Same e0 (e', l) ((e₂, t'), l) := by
  obtain ⟨tb, tb1, old, htb, hset, hold, hname, hcols, hrows, -⟩ := Engine.delete_ok hdel
  obtain ⟨tb2, htb2, -, hcols2, heff⟩ := h.table htb
  have hi' : e'.Indexed := by
    have := Engine.did_delete e name rowID
    rw [hdel] at this
    exact this.indexed h.indexed
  have hrows : tb1.rows = overlay tb.rows (.delete rowID) := hrows
  refine ⟨_, (Txn.delete_eq_ok h.active htb2).mpr ⟨?_, rfl⟩, ?_⟩
  · have : ((t.eff name tb2).get? rowID).isSome = (tb.rows.get? rowID).isSome :=
      congrArg (fun rows => (rows.get? rowID).isSome) heff
    rw [this, hold]
    rfl
  · have hnext : Same e0 (e', l ++ [])
        ((e₂, { t with ops := t.ops ++ [⟨name, .delete rowID⟩] }), l ++ []) :=
      h.wrote htb hset hname hcols hrows hi' rfl rfl h.active
        (by rw [List.append_nil]; exact h.counters)
    rwa [List.append_nil] at hnext

/-- An insert, by either of the two calls: `rowID` is its id or zero. An error
ends the program. -/
theorem tracks_insert {c : AccessorCall} (pkIdx : Int) {k : c.Reply → Exec Unit}
    (stamp : Int64 → Row → Except Err Row) (answer : Except Err Int64 → c.Reply)
    (hstamp : ∀ id, stamp id row = .ok (Table.stampPK pkIdx id row))
    (hdraws : draws c = if rowID = 0 then some name else none)
    (hlog : ∀ id, assigned c (answer (.ok id)) = [⟨name, rowID = 0, id⟩])
    (hengine : ∀ e, Engine.handler c e = ((e.putRow name pkIdx rowID row false).1,
      answer (e.putRow name pkIdx rowID row false).2))
    (htxn : ∀ e t, Txn.handler c (e, t) =
      (((t.insertRow e name rowID row stamp).1, (t.insertRow e name rowID row stamp).2.1),
        answer (t.insertRow e name rowID row stamp).2.2))
    (hok : ∀ id, k (answer (.ok id)) = .ret ())
    (herr : ∀ err, ∃ f, k (answer (.error err)) = .fail f) : Tracks e0 (.call c k) := by
  rintro ⟨e, l⟩ ⟨⟨e₂, t⟩, l2⟩ h s' u hrun
  have hl : l2 = l := h.log
  subst hl
  have hcounts : Counts e0 (e, l2) c ↔ ∀ tb ∈ e.tables.get? name, rowID = 0 →
      tb.nextID = counted e0 l2 name ∧ tb.rows.get? tb.nextID = none := by
    rw [Counts, hdraws]
    split
    · next hz =>
      simp only [Option.mem_some_iff, forall_eq', hz, true_implies]
    · next hz =>
      simp only [Option.mem_def, reduceCtorEq, false_implies, implies_true, true_iff]
      exact fun tb _ hz' => absurd hz' hz
  simp only [Prog.run, Prog.logging, hengine] at hrun
  simp only [Prog.Meets, Prog.logging, hengine, hcounts]
  rcases hput : e.putRow name pkIdx rowID row false with ⟨e', err | id⟩
  · obtain ⟨f, hf⟩ := herr err
    rw [hput, hf] at hrun
    cases hrun
  · rw [hput, hok, hlog] at hrun
    cases hrun
    rw [hok]
    simp only [Prog.Meets, and_true]
    by_cases hcond : ∀ tb ∈ e.tables.get? name, rowID = 0 →
        tb.nextID = counted e0 l2 name ∧ tb.rows.get? tb.nextID = none
    · obtain ⟨e₂', t', hins, hsame⟩ := (h.insert hput hstamp).1 hcond
      refine .inl ⟨hcond, _, ?_, hsame⟩
      simp only [Prog.run, Prog.logging, htxn, hins, hok, hlog]
    · refine .inr ⟨hcond, ?_⟩
      intro t'' u' hrt
      simp only [Prog.run, Prog.logging, htxn] at hrt
      rcases hins : t.insertRow e₂ name rowID row stamp with ⟨e₂', t', err | id'⟩
      · obtain ⟨f, hf⟩ := herr err
        rw [hins, hf] at hrt
        cases hrt
      · rw [hins, hok, hlog] at hrt
        cases hrt
        obtain ⟨hne, -⟩ := (h.insert hput hstamp).2 hcond e₂' t' id' hins
        refine diverged_of_ne fun heq => hne ?_
        exact (congrArg Assigned.id heq).symm

/-- A put, whose error ends the program. -/
theorem tracks_put {k : Except Err Int64 → Exec Unit} (hok : ∀ id, k (.ok id) = .ret ())
    (herr : ∀ err, ∃ f, k (.error err) = .fail f) : Tracks e0 (put name rowID row >>= k) :=
  tracks_insert (c := .put name rowID row) (-1) (fun _ row => .ok row) (fun r => r)
    (fun id => by rw [Table.stampPK_neg]) rfl (fun _ => rfl) (fun _ => rfl) (fun _ _ => rfl) hok herr

theorem tracks_putAuto {pkIdx : Nat} (hpk : pkIdx < row.length) {k : Except Err Int64 → Exec Unit}
    (hok : ∀ id, k (.ok id) = .ret ()) (herr : ∀ err, ∃ f, k (.error err) = .fail f) :
    Tracks e0 (putAuto name pkIdx row >>= k) :=
  tracks_insert (c := .putAuto name pkIdx row) pkIdx (fun id row =>
      if 0 ≤ (pkIdx : Int) ∧ (pkIdx : Int) < row.length then .ok (Table.stampPK pkIdx id row)
      else .error .panic) (fun r => r)
    (fun _ => if_pos ⟨by omega, by omega⟩) (if_pos rfl).symm (fun _ => rfl) (fun _ => rfl)
    (fun _ _ => rfl) hok herr

/-- A row written back, whose error ends the program. -/
theorem tracks_update {k : Except Err Unit → Exec Unit} (hok : k (.ok ()) = .ret ())
    (herr : ∀ err, ∃ f, k (.error err) = .fail f) : Tracks e0 (update name rowID row >>= k) := by
  rintro ⟨e, l⟩ ⟨⟨e₂, t⟩, l2⟩ h s' u hrun
  have hl : l2 = l := h.log
  subst hl
  rcases hput : e.putRow name (-1) rowID row true with ⟨e', r⟩
  have hrunA : (update name rowID row >>= k).run autocommit (e, l2) =
      (k (r.map fun _ => ())).run autocommit (e', l2) := by
    show (k ((e.update name rowID row).2.map fun _ => ())).run autocommit
      ((e.update name rowID row).1, l2 ++ []) = _
    rw [Engine.update, hput, List.append_nil]
  rw [hrunA] at hrun
  cases r with
  | error err =>
    obtain ⟨f, hf⟩ := herr err
    rw [Except.map, hf] at hrun
    cases hrun
  | ok id =>
    rw [Except.map, hok] at hrun
    cases hrun
    obtain ⟨t', hupd, hsame⟩ := h.update hput
    refine .inl ⟨⟨fun n hn => absurd hn (by simp [draws]), ?_⟩, ((e₂, t'), l2), ?_, hsame⟩
    · show (k ((e.update name rowID row).2.map fun _ => ())).Meets _ _ _
      rw [Engine.update, hput, Except.map, hok]
      trivial
    · show (k (t.update e₂ name rowID row).2).run inTxn
        ((e₂, (t.update e₂ name rowID row).1), l2 ++ []) = _
      rw [hupd, hok, List.append_nil]
      rfl

/-- A row deleted; an error ends the program. -/
theorem tracks_delete {k : Except Err Unit → Exec Unit} (hok : Tracks e0 (k (.ok ())))
    (herr : ∀ err, ∃ f, k (.error err) = .fail f) : Tracks e0 (delete name rowID >>= k) := by
  rintro ⟨e, l⟩ ⟨⟨e₂, t⟩, l2⟩ h s' u hrun
  have hl : l2 = l := h.log
  subst hl
  rcases hdel : e.delete name rowID with ⟨e', r⟩
  have hrunA : (delete name rowID >>= k).run autocommit (e, l2) = (k r).run autocommit (e', l2) := by
    show (k (e.delete name rowID).2).run autocommit ((e.delete name rowID).1, l2 ++ []) = _
    rw [hdel, List.append_nil]
  rw [hrunA] at hrun
  cases r with
  | error err =>
    obtain ⟨f, hf⟩ := herr err
    rw [hf] at hrun
    cases hrun
  | ok v =>
    obtain ⟨t', hdel', hsame⟩ := h.delete hdel
    have hrunT : (delete name rowID >>= k).run inTxn ((e₂, t), l2) =
        (k (.ok ())).run inTxn ((e₂, t'), l2) := by
      show (k (t.delete e₂ name rowID).2).run inTxn
        ((e₂, (t.delete e₂ name rowID).1), l2 ++ []) = _
      rw [hdel', List.append_nil]
    have hmeets : (delete name rowID >>= k).Meets autocommit (Counts e0) (e, l2) ↔
        (k (.ok ())).Meets autocommit (Counts e0) (e', l2) := by
      show Counts e0 (e, l2) (.delete name rowID) ∧
        (k (e.delete name rowID).2).Meets _ _ ((e.delete name rowID).1, l2 ++ []) ↔ _
      rw [hdel, List.append_nil]
      exact and_iff_right fun n hn => absurd hn (by simp [draws])
    rw [hmeets, hrunT]
    exact hok _ _ hsame s' u hrun

end

/-! ## Statements -/

section

variable {e0 : Engine} {env : Env} {td : TableDef} {table : String} {sc : JoinScope}

theorem tracks_execSelect (hnamed : e0.Named) (s : Select) : Tracks e0 (execSelect env s) :=
  .read (reads_execSelect env s) fun _ _ h =>
    frame_execSelect (h.extends_reply hnamed) s fun _ _ => List.not_mem_nil

theorem tracks_planWhere (hnamed : e0.Named) (where_ : Option Expr) :
    Tracks e0 (planWhere env sc where_) := by
  unfold planWhere
  cases where_ with
  | none => exact tracks_ret _
  | some w =>
    refine Tracks.bind (.read (reads_resolveInSubqueries env w) fun _ _ h =>
      frame_resolveInSubqueries (h.extends_reply hnamed) w fun _ _ => List.not_mem_nil) fun w => ?_
    exact .lift_bind fun _ _ => tracks_ret _

theorem tracks_collectCandidates (hnamed : e0.Named) (htd : td ∈ e0.catalog)
    (where_ : Option Expr) : Tracks e0 (collectCandidates env td.name td sc where_) := by
  unfold collectCandidates
  cases where_ with
  | none => exact .scan (scans_scanCandidates env td.name sc none)
  | some w =>
    cases hq : uniqueEquality w td.name td with
    | none =>
      dsimp only
      rw [hq]
      exact .scan (scans_scanCandidates env td.name sc (some w))
    | some q =>
      obtain ⟨ci, lit⟩ := q
      dsimp only
      rw [hq]
      refine Tracks.bind (.read (reads_lookupUnique env sc td.name w ci lit) fun s t h => ?_)
        fun _ => tracks_ret _
      exact eval_lookupUnique_congr rfl (h.reply_get td.name)
        (h.reply_uniqueGet hnamed htd (mem_uniqCols_of_uniqueEquality hq)) w lit

/-- What is found in the catalog stays there. -/
theorem tracks_tableDef {β : Type} {f : TableDef → Exec β}
    (hf : ∀ td ∈ e0.catalog, td.name = table → Tracks e0 (f td)) :
    Tracks e0 (tableDef table >>= f) := by
  refine .read_bind (reads_tableDef table) (fun _ _ h => h.eval_scans (scans_tableDef table)) ?_
  intro s t td h htd
  refine hf td ?_ (name_of_tableDef htd)
  rw [← h.catalog_eq]
  exact mem_catalog_of_tableDef htd

/-- An automatic id goes into a cell that the row has. -/
theorem pkIndex_lt_of_prepareRow {idx : List Nat} {n : Nat} {exprs : List Expr} {row : Row}
    (h : prepareRow env td table idx n exprs = .ok (row, none)) :
    (pkIndex td).getD 0 < row.length := by
  unfold prepareRow at h
  split at h
  · cases h
  · obtain ⟨row', -, h⟩ := bind_eq_ok.mp h
    obtain ⟨key, hkey, h⟩ := bind_eq_ok.mp h
    obtain ⟨u, -, h⟩ := bind_eq_ok.mp h
    cases h
    unfold insertKey at hkey
    split at hkey
    · cases hkey
    · next i hi =>
      rw [hi]
      split at hkey
      · next hrow => exact (List.getElem?_eq_some_iff.mp hrow).1
      · cases hkey
      · cases hkey
      · cases hkey

theorem tracks_insertRow (idx : List Nat) (n : Nat) (exprs : List Expr) :
    Tracks e0 (insertRow env td table idx n exprs) := by
  refine .lift_bind fun p hp => ?_
  obtain ⟨row, key⟩ := p
  refine Tracks.bind (.scan (scans_checkFK td row)) fun _ => ?_
  cases key with
  | none => exact tracks_putAuto (pkIndex_lt_of_prepareRow hp) (fun _ => rfl) fun _ => ⟨_, rfl⟩
  | some rowID => exact tracks_put (fun _ => rfl) fun _ => ⟨_, rfl⟩

theorem tracks_insertRows (idx : List Nat) (n : Nat) (rows : List (List Expr)) :
    Tracks e0 (insertRows env td table idx n rows) := by
  induction rows generalizing n with
  | nil => exact tracks_ret _
  | cons exprs rows ih => exact (tracks_insertRow idx n exprs).bind fun _ => ih (n + 1)

theorem tracks_updateRow (sets : List (Nat × Expr)) (c : Int64 × Row) :
    Tracks e0 (updateRow env sc td table sets c) := by
  refine .lift_bind fun newRow _ => ?_
  refine Tracks.bind (.scan (scans_checkFK td newRow)) fun _ => ?_
  refine .lift_bind fun key _ => ?_
  cases key with
  | none => exact tracks_update rfl fun _ => ⟨_, rfl⟩
  | some newID =>
    refine Tracks.bind (.scan (scans_fkReferenced table c.1 table c.1)) fun _ => ?_
    exact tracks_delete (tracks_put (fun _ => rfl) fun _ => ⟨_, rfl⟩) fun _ => ⟨_, rfl⟩

theorem tracks_updateRows (sets : List (Nat × Expr)) (cands : List (Int64 × Row)) :
    Tracks e0 (updateRows env sc td table sets cands) := by
  induction cands with
  | nil => exact tracks_ret _
  | cons c cands ih => exact (tracks_updateRow sets c).bind fun _ => ih

theorem tracks_deleteRows (cands : List (Int64 × Row)) : Tracks e0 (deleteRows table cands) := by
  induction cands with
  | nil => exact tracks_ret _
  | cons c cands ih =>
    refine Tracks.bind ?_ fun _ => ih
    refine Tracks.bind (.scan (scans_fkReferenced table c.1 table c.1)) fun _ => ?_
    exact tracks_delete (tracks_ret _) fun _ => ⟨_, rfl⟩

/-- **Every statement is tracked.** -/
theorem tracks_execAccess (hnamed : e0.Named) (stmt : Statement) :
    Tracks e0 (execAccess env stmt) := by
  cases stmt with
  | insert s =>
    unfold execAccess execInsert selectInsert
    simp only [Prog.bind_bind]
    refine tracks_tableDef fun td _ _ => .lift_bind fun idx _ => ?_
    exact (tracks_insertRows idx 1 s.rows).bind fun _ => tracks_ret _
  | select s => exact tracks_execSelect hnamed s
  | update s =>
    unfold execAccess execUpdate selectUpdate
    simp only [Prog.bind_bind]
    refine tracks_tableDef fun td htd hname => .lift_bind fun sets _ => .lift_bind fun _ _ => ?_
    refine (tracks_planWhere hnamed s.where_).bind fun where_ => ?_
    rw [← hname]
    refine (tracks_collectCandidates hnamed htd where_).bind fun cands => ?_
    exact (tracks_updateRows sets cands).bind fun _ => tracks_ret _
  | delete s =>
    unfold execAccess execDelete selectDelete
    simp only [Prog.bind_bind]
    refine tracks_tableDef fun td htd hname => ?_
    refine (tracks_planWhere hnamed s.where_).bind fun where_ => ?_
    rw [← hname]
    refine (tracks_collectCandidates hnamed htd where_).bind fun cands => ?_
    exact (tracks_deleteRows cands).bind fun _ => tracks_ret _
  | createTable _ _ | dropTable _ _ | begin | commit | rollback =>
    intro s t _ s' a hrun
    cases hrun

theorem tracks_execAll (hnamed : e0.Named) (stmts : List Statement) :
    Tracks e0 (execAll env stmts) := by
  induction stmts with
  | nil => exact tracks_ret _
  | cons stmt stmts ih =>
    exact (tracks_execAccess hnamed stmt).bind fun _ => ih.bind fun _ => tracks_ret _

end

/-- The two runs start together. -/
theorem same_begin {e : Engine} (hi : e.Indexed) : Same e (e, []) (e.begin, []) where
  log := rfl
  active := rfl
  indexed := hi
  indexed' := hi
  defs := fun _ => rfl
  defs' := fun _ => rfl
  rows := by
    intro n tb tb' htb htb'
    cases Option.some.inj (htb.symm.trans htb')
    rfl
  live := fun o ho => absurd ho List.not_mem_nil
  counters := by
    intro n tb htb
    have htb : e.tables.get? n = some tb := htb
    rw [counted, counter, htb]
    exact (Int64.add_zero _).symm

/-- **A list of statements that goes through in autocommit goes through in one
transaction alike** (same results, same ids) exactly if every automatic id in
the autocommit run is drawn from a counter that no explicit id of the list has
moved, and is free. -/
theorem txn_agrees_iff (env : Env) (e e' : Engine) (stmts : List Statement) (res : List Result)
    (ids : List Assigned) (hi : e.Indexed) (hnamed : e.Named)
    (hok : (execAll env stmts).run autocommit (e, []) = ((e', ids), .ok res)) :
    (∃ e₂ t, (execAll env stmts).run inTxn (e.begin, []) = (((e₂, t), ids), .ok res)) ↔
      (execAll env stmts).Meets autocommit (Counts e) (e, []) := by
  rcases tracks_execAll hnamed stmts _ _ (same_begin hi) _ _ hok with
    ⟨hmeets, ⟨⟨e₂, t⟩, l⟩, hrun, hsame⟩ | ⟨hnot, hdiv⟩
  · have hl : l = ids := hsame.log
    subst hl
    exact ⟨fun _ => hmeets, fun _ => ⟨e₂, t, hrun⟩⟩
  · refine ⟨?_, fun h => absurd h hnot⟩
    rintro ⟨e₂, t, hrun⟩
    exact absurd rfl (hdiv _ _ hrun).ne

/-- A table with an automatic integer key. -/
def autoKeyed : Engine :=
  (Run.run Sys.exec {} [.createTable "t"
    [{ name := "id", type := .int, primary := true, autoInc := true }]]).eng

/-- `INSERT INTO t VALUES (v)`. -/
def insertValue (v : Value) : Statement :=
  .insert { table := "t", cols := [], rows := [[.lit v]] }

/-- Automatic ids only. -/
theorem txn_agrees_two_automatic :
    ∃ e₂ t, (execAll epochEnv [insertValue .null, insertValue .null]).run inTxn
        (autoKeyed.begin, []) =
      (((e₂, t), [⟨"t", true, 1⟩, ⟨"t", true, 2⟩]), .ok [{ affected := 1 }, { affected := 1 }]) := by
  have hids : ((execAll epochEnv [insertValue .null, insertValue .null]).run autocommit
      (autoKeyed, [])).1.2 = [⟨"t", true, 1⟩, ⟨"t", true, 2⟩] := by decide +kernel
  have hres : ((execAll epochEnv [insertValue .null, insertValue .null]).run autocommit
      (autoKeyed, [])).2 = .ok [{ affected := 1 }, { affected := 1 }] := by decide +kernel
  refine (txn_agrees_iff epochEnv autoKeyed _ _ _ _ (Sys.indexed_run _) (Sys.named_run _)
    (Prod.ext (Prod.ext rfl hids) hres)).mpr ?_
  decide +kernel

/-- **In a transaction an explicit id does not move the counter.** After row 1 the
next automatic id is 1 again, and refused; after row 5 it is 1, not 6. -/
theorem txn_draws_other_ids :
    (((execAll epochEnv [insertValue (.int 1), insertValue .null]).run autocommit
        (autoKeyed, [])).2 = .ok [{ affected := 1 }, { affected := 1 }] ∧
      ((execAll epochEnv [insertValue (.int 1), insertValue .null]).run inTxn
        (autoKeyed.begin, [])).2 = .error (.sql (.duplicateID "t" 0))) ∧
    ((execAll epochEnv [insertValue (.int 5), insertValue .null]).run autocommit
        (autoKeyed, [])).1.2 = [⟨"t", false, 5⟩, ⟨"t", true, 6⟩] ∧
      ((execAll epochEnv [insertValue (.int 5), insertValue .null]).run inTxn
        (autoKeyed.begin, [])).1.2 = [⟨"t", false, 5⟩, ⟨"t", true, 1⟩] := by
  decide +kernel

end Tsql.Executor
