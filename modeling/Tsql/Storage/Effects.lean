import Tsql.Storage.SessionWrites

/-!
# What an accepted call has done

`Update`, `Delete` and `Put` once more, from the side of the caller: a call
that was accepted has made one write to what the session sees, and has left
the row-id counter at a known place. In autocommit a `Put` without an id takes
the one the counter shows, and does not look whether it is free.
-/

namespace Tsql.Storage.Session

/-- The engine is in order, and the transaction, if there is one, is active. -/
structure Sound (s : Session) : Prop where
  indexed : s.1.Indexed
  named : s.1.Named
  active : ∀ t, s.2 = some t → t.done = false

theorem sound_begin {e : Engine} (hi : e.Indexed) (hn : e.Named) :
    Sound (e.begin.1, some e.begin.2) := by
  refine ⟨hi, hn, ?_⟩
  rintro t ⟨⟩
  rfl

/-- The row-id counter of a table. -/
def counter (s : Session) (name : String) : Int64 :=
  ((s.1.tables.get? name).map Table.nextID).getD 1

/-- The id a `Put` goes to. -/
def place (next key : Int64) : Int64 := if key = 0 then next else key

/-- The counter after an accepted `Put` in autocommit. -/
def advance (next key : Int64) : Int64 :=
  if key = 0 then next + 1 else if key ≥ next then key + 1 else next

/-- The session has made this write. -/
structure Made (s s' : Session) (name : String) (op : RowOp) : Prop where
  sound : s'.Sound
  auto : s'.2.isSome = s.2.isSome
  view : s'.view = Tables.apply s.view [⟨name, op⟩]

variable {s s' : Session} {e e' : Engine} {t t' : Txn} {name : String} {id key : Int64} {row : Row}

theorem made_of_accepted {op : RowOp} (hs : Sound (e, none)) (h : Accepted (e, none) (e', none) name op) :
    Made (e, none) (e', none) name op :=
  ⟨⟨h.ready.indexed, h.defs.named hs.named, h.ready.active⟩, rfl, h.view⟩

theorem counter_of_table {tb : Table} (htb : s.1.tables.get? name = some tb) :
    s.counter name = tb.nextID := by
  rw [counter, htb]
  rfl

theorem counter_of_set {tb : Table} (hset : s.1.tables = e.tables.set name tb) :
    s.counter name = tb.nextID :=
  counter_of_table (by rw [hset, GoMap.get?_set_self])

theorem made_of_buffered {op : RowOp} (hs : Sound (e, some t)) (hdone : t'.done = t.done)
    (hq : e'.view = e.view) (hops : t'.ops = t.ops ++ [⟨name, op⟩]) :
    Made (e, some t) (e', some t') name op := by
  have hd := hs.active t rfl
  have hd' := hdone.trans hd
  refine ⟨⟨?_, ?_, ?_⟩, rfl, ?_⟩
  · intro n tb hv
    rw [hq] at hv
    exact hs.indexed n tb hv
  · intro n tb hv
    rw [hq] at hv
    exact hs.named n tb hv
  · rintro t'' ⟨⟩
    exact hd'
  · rw [view_eq_apply hd', hops, Tables.apply_append, view_congr none hq, view_eq_apply hd]

theorem view_of_engine {tb : Table} (htb : e.tables.get? name = some tb) :
    Session.view (e, none) name = some ⟨tb.cols, tb.rows⟩ := by
  rw [view_none, htb]
  rfl

theorem view_of_txn {tb : Table} (hd : t.done = false) (htb : e.tables.get? name = some tb) :
    Session.view (e, some t) name = some ⟨tb.cols, t.eff name tb⟩ := by
  rw [view_some hd, htb]
  rfl

/-- **`Update`** has replaced a row that was there. -/
theorem made_update (hs : s.Sound) (h : handler (.update name id row) s = (s', .ok ())) :
    Made s s' name (.put id row) ∧ s'.counter name = s.counter name ∧
      ∃ w, s.view name = some w ∧ (w.rows.get? id).isSome := by
  obtain ⟨e, - | t⟩ := s
  · rcases update_cases (ready_of_engine hs.indexed) name id row with ⟨-, hacc⟩ | ⟨err, herr, -⟩
    · simp only [handler, Engine.handler, Engine.update] at h hacc
      rcases hput : e.putRow name (-1) id row true with ⟨e', err | id'⟩
      · rw [hput] at h
        cases h
      · rw [hput] at h hacc
        cases h
        have hne := Engine.ne_zero_of_update_ok hput
        obtain ⟨tb, tb', row', htb, hset, haccepts, -, -, -, hnext, -⟩ :=
          Engine.putRow_ok hs.indexed hput
        refine ⟨made_of_accepted hs hacc, ?_, _, view_of_engine htb, haccepts.found hne⟩
        rw [counter_of_set hset, counter_of_table htb, hnext]
        simp [Table.counterAfter, hne]
    · rw [h] at herr
      cases herr
  · have hd := hs.active t rfl
    simp only [handler, Txn.handler] at h
    rcases hupd : t.update e name id row with ⟨t', r⟩
    rw [hupd] at h
    cases h
    cases htb : e.tables.get? name with
    | none => simp [Txn.update, hd, htb] at hupd
    | some tb =>
      obtain ⟨-, hfound, -, rfl⟩ := (Txn.update_eq_ok hd htb).mp hupd
      exact ⟨made_of_buffered hs rfl rfl rfl, rfl, _, view_of_txn hd htb, hfound⟩

/-- **`Delete`** has removed a row that was there. -/
theorem made_delete (hs : s.Sound) (h : handler (.delete name id) s = (s', .ok ())) :
    Made s s' name (.delete id) ∧ s'.counter name = s.counter name ∧
      ∃ w, s.view name = some w ∧ (w.rows.get? id).isSome := by
  obtain ⟨e, - | t⟩ := s
  · rcases delete_cases (ready_of_engine hs.indexed) name id with ⟨-, hacc⟩ | ⟨err, herr, -⟩
    · simp only [handler, Engine.handler] at h hacc
      rcases hdel : e.delete name id with ⟨e', r⟩
      rw [hdel] at h hacc
      cases h
      obtain ⟨tb, tb', old, htb, hset, hold, -, -, -, hnext⟩ := Engine.delete_ok hdel
      refine ⟨made_of_accepted hs hacc, ?_, _, view_of_engine htb, ?_⟩
      · rw [counter_of_set hset, counter_of_table htb, hnext]
      · simp [hold]
    · rw [h] at herr
      cases herr
  · have hd := hs.active t rfl
    simp only [handler, Txn.handler] at h
    rcases hdel : t.delete e name id with ⟨t', r⟩
    rw [hdel] at h
    cases h
    cases htb : e.tables.get? name with
    | none => simp [Txn.delete, Txn.effMapLocked, hd, htb] at hdel
    | some tb =>
      obtain ⟨hfound, rfl⟩ := (Txn.delete_eq_ok hd htb).mp hdel
      exact ⟨made_of_buffered hs rfl rfl rfl, rfl, _, view_of_txn hd htb, hfound⟩

/-- **`Put`** has stored a row: under a free id, but for an automatic one in
autocommit, which is what the counter shows. -/
theorem made_put (hs : s.Sound) (h : handler (.put name key row) s = (s', .ok id)) :
    Made s s' name (.put id row) ∧
      (∃ w, s.view name = some w ∧ (s.2.isSome ∨ key ≠ 0 → w.rows.get? id = none)) ∧
      (s.2 = none → id = place (s.counter name) key ∧
        s'.counter name = advance (s.counter name) key) := by
  obtain ⟨e, - | t⟩ := s
  · rcases put_cases (ready_of_engine hs.indexed) name key row with ⟨id', hok, -, hacc⟩ | ⟨err, herr, -⟩
    · rw [h] at hok
      cases hok
      simp only [handler, Engine.handler, Engine.put] at h hacc
      rcases hput : e.putRow name (-1) key row false with ⟨e', r⟩
      rw [hput] at h hacc
      cases h
      obtain ⟨tb, tb', row', htb, hset, haccepts, -, -, -, hnext, -⟩ :=
        Engine.putRow_ok hs.indexed hput
      refine ⟨made_of_accepted hs hacc, ⟨_, view_of_engine htb, ?_⟩, fun _ => ⟨?_, ?_⟩⟩
      · rintro (hsome | hne)
        · cases hsome
        · rw [haccepts.id_eq, if_neg hne, ← Option.not_isSome_iff_eq_none, haccepts.found hne]
          exact Bool.false_ne_true
      · rw [counter_of_table htb, place, haccepts.id_eq]
      · rw [counter_of_set hset, counter_of_table htb, hnext, advance]
        by_cases hzero : key = 0
        · rw [if_pos hzero, hzero, Table.counterAfter_zero]
        · rw [if_neg hzero]
          unfold Table.counterAfter Table.bumpNextID
          rw [if_neg hzero, if_neg Bool.false_ne_true]
          split <;> rfl
    · rw [h] at herr
      cases herr
  · have hd := hs.active t rfl
    simp only [handler, Txn.handler, Txn.put] at h
    have hq := (Engine.quiet_insertRow e t name key row fun _ row => .ok row).view
    rcases hput : t.insertRow e name key row (fun _ row => .ok row) with ⟨e', t', r⟩
    rw [hput] at h hq
    cases h
    cases htb : e.tables.get? name with
    | none => simp [Txn.insertRow, hd, htb] at hput
    | some tb =>
      obtain ⟨-, -, hfree, ⟨row', hrow, -, rfl⟩, -⟩ := (Txn.insertRow_eq_ok hd htb).mp hput
      cases hrow
      exact ⟨made_of_buffered hs rfl hq rfl, ⟨_, view_of_txn hd htb, fun _ => hfree⟩,
        fun hnone => by cases hnone⟩

end Tsql.Storage.Session
