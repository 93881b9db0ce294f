import Tsql.Storage.PlainGob
import Tsql.Storage.Prune
import Tsql.Storage.Recovery
import Tsql.Storage.Rows

/-!
# Checkpoints while sessions are writing

`Checkpoint` holds `commitMu` and `catalogMu` to its end, so no `commitTxn`
runs beside it and no autocommit call finds its table. But a call that found
its table BEFORE needs only the table's own lock, and the checkpoint holds
that lock while it copies the table and no longer. Between the copy and the
truncation such a call logs its row, applies it and returns; the row is not
in the copy, and the truncation takes it out of the log.

The rest of the argument stands: in every run without such a call, and
without a pruning that removes the snapshot just written, the directory gives
back every acknowledged write at every moment. A row logged before its table
was copied is in the copy AND in the log until the truncation; it does no
harm twice, since a log replayed over its own outcome changes nothing.
-/

namespace Tsql.Storage

/-- How far a checkpoint has come. -/
inductive Phase where
  | copying
  | written
  | manifested
  | truncated
  deriving DecidableEq

/-- A checkpoint in progress: the snapshot as far as it has been copied. -/
structure Progress where
  seq : UInt64
  copied : GoMap String SnapshotTable := ∅
  phase : Phase := .copying
  deriving DecidableEq

/-- What `Checkpoint` hands to `WriteSnapshot` when it has copied all tables. -/
def Progress.data (pr : Progress) : SnapshotData := ⟨pr.seq, pr.copied⟩

/-- The machine with autocommit calls cut at the lookup and `Checkpoint` cut
at every lock it takes and every file it writes. `writers` are the calls that
have found their table and wait for its lock; `acked` is a ghost: the writes
of the calls that have returned, in order. -/
structure Online where
  split : Split := {}
  writers : GoMap Nat Call := ∅
  ckpt : Option Progress := none
  acked : List Op := []
  deriving DecidableEq

/-- A session's call on its own transaction, of which `commit` runs the
validation only; the two halves of an autocommit call; a `commitTxn`; or the
next thing a checkpoint does. -/
inductive OnlineStep where
  | session (c : Call)
  | lookup (w : Nat) (c : Call)
  | locked (w : Nat)
  | commitTxn (tx : UInt64)
  | start
  | copy (name : String)
  | writeSnapshot
  | writeManifest
  | truncate
  | prune
  deriving DecidableEq

/-- The table of an autocommit call. -/
def Call.table? : Call → Option String
  | .put name _ _ | .putAuto name _ _ | .update name _ _ | .delete name _ => some name
  | _ => none

namespace Online

/-- The engine of the process. -/
abbrev eng (s : Online) : Engine := s.split.sys.eng

/-- Its directory. -/
abbrev disk (s : Online) : Disk := s.split.sys.disk

/-- Put another engine and directory in place. -/
def setSys (s : Online) (e : Engine) (d : Disk) : Online :=
  { s with split := { s.split with sys := { s.split.sys with eng := e, disk := d } } }

def session (s : Online) (c : Call) : Online :=
  if c.onRows ∧ c.table? = none then { s with split := s.split.step (.call c) } else s

/-- An autocommit call finds its table: `catalogMu` must be free. What `put`
checks before that depends on its arguments only. -/
def lookup (s : Online) (w : Nat) (c : Call) : Online :=
  match s.ckpt, s.writers.get? w, c.table?.bind s.eng.tables.get? with
  | none, none, some _ => { s with writers := s.writers.set w c }
  | _, _, _ => s

/-- Its section under the table's lock. The table is still the one it found:
tables are neither created nor dropped here. -/
def locked (s : Online) (w : Nat) : Online :=
  match s.writers.get? w with
  | none => s
  | some c =>
    { s with
      split := s.split.step (.call c)
      writers := s.writers.delete w
      acked := s.acked ++ s.split.sys.writes c }

/-- `commitTxn`: `commitMu` must be free. -/
def commitTxn (s : Online) (tx : UInt64) : Online :=
  match s.ckpt, s.split.validated.get? tx with
  | none, some t =>
    { s with
      split := s.split.commitTxn tx
      acked := match (s.eng.commitTxn t.id t.ops).2 with
        | .ok () => s.acked ++ t.ops
        | .error _ => s.acked }
  | _, _ => s

/-- `Checkpoint` has its two locks and reads the log's number. -/
def start (s : Online) : Online :=
  match s.ckpt with
  | none => { s with ckpt := some { seq := s.eng.seq } }
  | some _ => s

/-- One turn of the copy loop, under the table's lock. -/
def copy (s : Online) (name : String) : Online :=
  match s.ckpt, s.eng.tables.get? name with
  | some pr, some t =>
    if pr.phase = .copying ∧ pr.copied.get? name = none then
      { s with ckpt := some { pr with copied := pr.copied.set name (t.snapshot name) } }
    else s
  | _, _ => s

/-- The copy loop is over when every table has been copied. -/
def writeSnapshot (s : Online) : Online :=
  match s.ckpt with
  | some pr =>
    if pr.phase = .copying ∧ ∀ name ∈ s.eng.tables.keys, (pr.copied.get? name).isSome then
      { s.setSys s.eng (s.disk.writeSnapshot pr.data) with ckpt := some { pr with phase := .written } }
    else s
  | none => s

def writeManifest (s : Online) : Online :=
  match s.ckpt with
  | some pr =>
    if pr.phase = .written then
      { s.setSys s.eng (s.disk.writeManifest pr.seq) with
        ckpt := some { pr with phase := .manifested } }
    else s
  | none => s

def truncate (s : Online) : Online :=
  match s.ckpt with
  | some pr =>
    if pr.phase = .manifested then
      { s.setSys { s.eng with wal := [] } s.disk with ckpt := some { pr with phase := .truncated } }
    else s
  | none => s

/-- `pruneSnapshots`, and the locks are released. -/
def prune (s : Online) : Online :=
  match s.ckpt with
  | some pr =>
    if pr.phase = .truncated then
      { s.setSys s.eng s.disk.pruneSnapshots with ckpt := none }
    else s
  | none => s

/-- One step. -/
def step (s : Online) : OnlineStep → Online
  | .session c => s.session c
  | .lookup w c => s.lookup w c
  | .locked w => s.locked w
  | .commitTxn tx => s.commitTxn tx
  | .start => s.start
  | .copy name => s.copy name
  | .writeSnapshot => s.writeSnapshot
  | .writeManifest => s.writeManifest
  | .truncate => s.truncate
  | .prune => s.prune

/-- **The condition**: no autocommit call writes a table that a checkpoint has
copied and whose log it has not yet truncated, and no checkpoint prunes the
snapshot it has written. -/
def Apart (s : Online) : OnlineStep → Prop
  | .locked w => ∀ c ∈ s.writers.get? w, ∀ o ∈ s.split.sys.writes c, ∀ pr ∈ s.ckpt,
      pr.phase = .truncated ∨ pr.copied.get? o.name = none
  | .prune => ∀ pr ∈ s.ckpt, (s.disk.files.keys.filter (pr.seq < ·)).card < 2
  | _ => True

instance (s : Online) : ∀ a, Decidable (s.Apart a)
  | .locked w => inferInstanceAs (Decidable (∀ c ∈ s.writers.get? w, ∀ o ∈ s.split.sys.writes c,
      ∀ pr ∈ s.ckpt, pr.phase = .truncated ∨ pr.copied.get? o.name = none))
  | .prune => inferInstanceAs (Decidable (∀ pr ∈ s.ckpt,
      (s.disk.files.keys.filter (pr.seq < ·)).card < 2))
  | .session _ | .lookup _ _ | .commitTxn _ | .start | .copy _ | .writeSnapshot | .writeManifest
  | .truncate => isTrue trivial

/-- The tables of `defs`, and no session yet. -/
def created (defs : List (String × List Column)) : Online := { split := { sys := Sys.created defs } }

/-! ## A checkpoint with nothing beside it -/

theorem run_copy {s : Online} {pr : Progress} (hck : s.ckpt = some pr) (hph : pr.phase = .copying)
    {names : List String} (hnodup : names.Nodup) (hfresh : ∀ n ∈ names, pr.copied.get? n = none)
    (hlive : ∀ n ∈ names, n ∈ s.eng.tables.keys) :
    ∃ m, Run.run step s (names.map .copy) = { s with ckpt := some { pr with copied := m } } ∧
      ∀ n, m.get? n = if n ∈ names then (s.eng.tables.get? n).map (Table.snapshot n)
        else pr.copied.get? n := by
  induction names generalizing s pr with
  | nil => exact ⟨pr.copied, by rw [List.map_nil, Run.run_nil, ← hck], fun n => by simp⟩
  | cons name names ih =>
    rw [List.nodup_cons] at hnodup
    obtain ⟨t, ht⟩ := GoMap.mem_keys.mp (hlive name (by simp))
    have hstep : s.step (.copy name)
        = { s with ckpt := some { pr with copied := pr.copied.set name (t.snapshot name) } } := by
      show s.copy name = _
      simp only [copy, hck, ht]
      rw [if_pos ⟨hph, hfresh name (by simp)⟩]
    rw [List.map_cons, Run.run_cons, hstep]
    obtain ⟨m, hrun, hm⟩ := ih
      (s := { s with ckpt := some { pr with copied := pr.copied.set name (t.snapshot name) } })
      rfl hph hnodup.2
      (fun n hn => by
        rw [GoMap.get?_set_ne _ _ (by rintro rfl; exact hnodup.1 hn)]
        exact hfresh n (by simp [hn]))
      (fun n hn => hlive n (by simp [hn]))
    refine ⟨m, hrun, fun n => ?_⟩
    rw [hm]
    by_cases hn : n = name
    · subst hn
      rw [if_neg hnodup.1, if_pos (by simp), GoMap.get?_set_self, ht]
      rfl
    · simp only [List.mem_cons, hn, false_or, GoMap.get?_set_ne _ _ hn]

/-- **The steps of a checkpoint that nothing comes between** are `Checkpoint`,
in whatever order it visits the tables. -/
theorem run_checkpoint {s : Online} (hck : s.ckpt = none) {names : List String}
    (hnodup : names.Nodup) (hnames : ∀ n, n ∈ names ↔ n ∈ s.eng.tables.keys) :
    Run.run step s (.start :: names.map .copy ++ [.writeSnapshot, .writeManifest, .truncate, .prune])
      = s.setSys (s.eng.checkpoint s.disk).1 (s.eng.checkpoint s.disk).2 := by
  have hstart : s.step .start = { s with ckpt := some { seq := s.eng.seq } } := by
    show s.start = _
    simp only [start, hck]
  obtain ⟨m, hrun, hm⟩ := run_copy (s := { s with ckpt := some { seq := s.eng.seq } }) rfl rfl hnodup
    (fun n _ => GoMap.get?_empty n) (fun n hn => (hnames n).mp hn)
  have hcap : m = s.eng.capture.tables := by
    ext1 n
    rw [hm, Engine.capture, GoMap.get?_mapEntries]
    split
    · rfl
    · next hn =>
      rw [hnames, GoMap.mem_keys, not_exists] at hn
      rw [GoMap.get?_empty, Option.eq_none_iff_forall_ne_some.mpr hn]
      rfl
  have hall : ∀ name ∈ s.eng.tables.keys, (m.get? name).isSome := by
    intro name hname
    obtain ⟨t, ht⟩ := GoMap.mem_keys.mp hname
    rw [hm, if_pos ((hnames name).mpr hname), ht]
    rfl
  rw [List.cons_append, Run.run_cons, hstart, Run.run_append, hrun]
  have hwrite : step { s with ckpt := some { seq := s.eng.seq, copied := m } } .writeSnapshot
      = { s.setSys s.eng (s.disk.writeSnapshot s.eng.capture) with
          ckpt := some { seq := s.eng.seq, copied := m, phase := .written } } := by
    simp only [step, writeSnapshot]
    rw [if_pos ⟨trivial, hall⟩, Progress.data, hcap]
    rfl
  rw [Run.run_cons, hwrite]
  -- the last three steps read nothing but the phase
  show setSys { s with ckpt := none } _ _ = _
  rw [← hck]
  rfl

theorem run_checkpoint_oneTable :
    Run.run step (created [("a", uniqueCol)])
        [.start, .copy "a", .writeSnapshot, .writeManifest, .truncate, .prune] =
      (created [("a", uniqueCol)]).setSys
        ((created [("a", uniqueCol)]).eng.checkpoint (created [("a", uniqueCol)]).disk).1
        ((created [("a", uniqueCol)]).eng.checkpoint (created [("a", uniqueCol)]).disk).2 := by
  have hkeys : (created [("a", uniqueCol)]).eng.tables.keys = {"a"} := by decide +kernel
  exact run_checkpoint rfl (by decide : ["a"].Nodup) fun n => by simp [hkeys]

end Online

/-! ## What a snapshot and a log give back -/

/-- A table of a snapshot, read as its rows. -/
def SnapshotTable.plain (st : SnapshotTable) : RowTable := ⟨st.id, st.name, st.cols, st.rows.get?⟩

theorem SnapshotTable.plain_load (ord : MapOrder) (st : SnapshotTable) :
    (st.load ord).plain = st.plain := by
  obtain ⟨hrows, hcols, hid, hname, -⟩ := Table.buildUniqLocked_frame ord.rows
    ({ id := st.id, name := st.name, cols := st.cols, rows := st.rows,
       nextID := st.nextID } : Table).initUniq
  show RowTable.mk (st.load ord).id (st.load ord).name (st.load ord).cols (st.load ord).rows.get? = _
  unfold load
  rw [hrows, hcols, hid, hname]
  rfl

theorem Table.plain_snapshot {t : Table} {name : String} (h : t.name = name) :
    (t.snapshot name).plain = t.plain := by
  subst h
  rfl

/-- The rows recovery starts from: those of the snapshot, and where there is
none the empty tables of `m0`, which the log creates. -/
def basis (m0 : Engine) : Option SnapshotData → String → Option RowTable
  | none, n => m0.plain n
  | some d, n => (d.tables.get? n).map SnapshotTable.plain

/-- The log `pre ++ bs` leads from the snapshot to the rows of `e`: `bs` holds
the writes `ops`, and `pre` the creates, unless they have been truncated. -/
structure Tail (m0 : Engine) (snap : Option SnapshotData) (e : Engine) (pre bs : List Block)
    (ops : List Op) : Prop where
  wal : e.wal = records (pre ++ bs)
  told : bodies bs = Engine.opRecords m0.idOf ops
  live : m0.Live ops
  fits : m0.Fits ops
  creates : bodies pre = logged m0.wal ∨ (bodies pre = [] ∧ snap ≠ none)
  rows : ∀ n, e.plain n = (basis m0 snap n).map (·.write (opsOn n ops))

/-- Creates of tables that are there are skipped. -/
theorem Engine.applyBodies_creates {r : Engine} {bs : List RecBody}
    (h : ∀ b ∈ bs, ∃ d, b = .create d ∧ ∃ t, r.view d.name = some t) :
    r.applyBodies bs = .ok r := by
  induction bs with
  | nil => rfl
  | cons b bs ih =>
    obtain ⟨d, rfl, t, ht⟩ := h b (by simp)
    obtain ⟨t', ht', -⟩ := Engine.exists_of_view ht
    have hskip : r.applyBody (.create d) = .ok r := by
      simp [Engine.applyBody, ht']
    have htail := ih fun b' hb' => h b' (by simp [hb'])
    show (r.applyBody (.create d) >>= fun r => r.applyBodies bs) = _
    rw [hskip]
    exact htail

namespace Tail

variable {m0 e e' : Engine} {snap : Option SnapshotData} {pre bs : List Block} {ops : List Op}
  {k : Nat}

/-- The engine before the log: it knows the tables, and has the basis. -/
theorem loaded (h : Tail m0 snap e pre bs ops) (hm : Sys.Founded m0 k)
    (hshape : Engine.SameShape e m0) (ord : MapOrder) :
    ∃ r, (loadSnapshot ord snap).applyBodies (bodies pre) = .ok r ∧ r.Knows m0 ∧
      r.plain = basis m0 snap := by
  cases snap with
  | none =>
    obtain ⟨r, happ, hknows, hplain⟩ := hm.recreate
    rcases h.creates with hpre | ⟨-, hno⟩
    · exact ⟨r, by rw [hpre]; exact happ, hknows, hplain⟩
    · exact absurd rfl hno
  | some d =>
    -- the snapshot has the shape of `e`, and so of `m0`
    have hd : ∀ n, ((d.tables.get? n).map SnapshotTable.plain).map RowTable.shape
        = (m0.plain n).map RowTable.shape := by
      intro n
      show (basis m0 (some d) n).map RowTable.shape = _
      rw [← hshape n, h.rows, Option.map_map]
      rfl
    have htab : ∀ n st, d.tables.get? n = some st → ∃ t, m0.view n = some t ∧ t.id = st.id := by
      intro n st hst
      have hn := (hd n).symm
      rw [hst, Engine.plain, Option.map_map, Option.map_some, Option.map_some,
        Option.map_eq_some_iff] at hn
      obtain ⟨t, ht, heq⟩ := hn
      exact ⟨t, ht, congrArg Prod.fst heq⟩
    obtain ⟨hload, hid⟩ := loadSnapshot_spec ord (d := d) (by
      intro n n' st st' hst hst' heq
      obtain ⟨t, ht, htid⟩ := htab n st hst
      obtain ⟨t', ht', htid'⟩ := htab n' st' hst'
      exact hm.wf.inj ht ht' (by rw [htid, htid', heq]))
    have hplain : (loadSnapshot ord (some d)).plain = basis m0 (some d) := by
      funext n
      rw [Engine.plain_eq, hload, Option.map_map]
      show (d.tables.get? n).map (fun st => (st.load ord).plain) = _
      simp only [SnapshotTable.plain_load]
      rfl
    have hsame : Engine.SameShape (loadSnapshot ord (some d)) m0 := by
      intro n
      rw [hplain]
      exact hd n
    refine ⟨loadSnapshot ord (some d), ?_, ⟨hsame, ?_⟩, hplain⟩
    · rcases h.creates with hpre | ⟨hpre, -⟩
      · rw [hpre]
        refine Engine.applyBodies_creates fun b hb => ?_
        obtain ⟨c, hc, t, ht⟩ := hm.creates b hb
        obtain ⟨t', ht', -⟩ := hsame.view ht
        exact ⟨c, hc, t', ht'⟩
      · rw [hpre]
        rfl
    · intro n t ht
      obtain ⟨t', ht', htid, -⟩ := hsame.view ht
      obtain ⟨t'', ht'', rfl⟩ := Engine.exists_of_view ht'
      rw [hload, Option.map_eq_some_iff] at ht''
      obtain ⟨st, hst, rfl⟩ := ht''
      rw [← htid]
      have hbyID := hid n st hst
      have hst : (st.load ord).id = st.id := congrArg RowTable.id (st.plain_load ord)
      show (loadSnapshot ord (some d)).byID.get? (st.load ord).id = some n
      rw [hst]
      exact hbyID

/-- **`Open` gives back the rows of `e`.** -/
theorem opens (h : Tail m0 snap e pre bs ops) (hm : Sys.Founded m0 k)
    (hshape : Engine.SameShape e m0) (g : Gob) (ord : MapOrder) (hfit : ∀ r ∈ e.wal, Storage.fits g r) :
    ∃ r, openEngine g ord snap (encodeAll g e.wal) = .ok r ∧ r.plain = e.plain := by
  obtain ⟨r, happ, hknows, hplain⟩ := h.loaded hm hshape ord
  obtain ⟨r', happ', hwr⟩ := hknows.applyBodies_ops h.live h.fits
  have hreplay : (loadSnapshot ord snap).replay (openWAL g (encodeAll g e.wal)).1 = .ok r' := by
    rw [openWAL_encodeAll hfit, h.wal, replay_records, bodies_append, h.told, Engine.applyBodies,
      applyPending_append_ok happ]
    exact happ'
  refine ⟨_, openEngine_of_replay hreplay, ?_⟩
  funext n
  show r'.plain n = _
  rw [hwr.plain, hplain, h.rows]

theorem quiet (h : Tail m0 snap e pre bs ops) (hq : Engine.Quiet e e') :
    Tail m0 snap e' pre bs ops :=
  ⟨hq.wal.trans h.wal, h.told, h.live, h.fits, h.creates, fun n => by rw [hq.plain, h.rows]⟩

/-- One more block of writes. -/
theorem write (h : Tail m0 snap e pre bs ops) (hshape : Engine.SameShape e m0) {begins : Bool}
    {tx : UInt64} {ops' : List Op} (hl : e.Live ops') (hf : e.Fits ops')
    (hwal : e'.wal = e.wal ++ (e.writeBlock begins tx ops').records)
    (hw : Engine.Wrote ops' e e') :
    Tail m0 snap e' pre (bs ++ [e.writeBlock begins tx ops']) (ops ++ ops') := by
  refine ⟨?_, ?_, ?_, ?_, h.creates, fun n => ?_⟩
  · rw [hwal, h.wal, ← List.append_assoc, records_append (pre ++ bs), records_cons, records_nil,
      List.append_nil]
  · rw [bodies_append, h.told, bodies_cons, bodies_nil, List.append_nil]
    show _ ++ Engine.opRecords e.idOf ops' = _
    rw [hshape.idOf, Engine.opRecords, Engine.opRecords, Engine.opRecords, List.map_append]
  · exact h.live.append (hshape.symm.live hl)
  · exact h.fits.append (hshape.symm.fits hf)
  · rw [hw.plain, h.rows, RowTable.map_write_append, opsOn_append]

/-- **A snapshot of the very rows may take the place of the basis**: the log
writes them a second time. -/
theorem rebase (h : Tail m0 snap e pre bs ops) {d : SnapshotData}
    (hd : basis m0 (some d) = e.plain) : Tail m0 (some d) e pre bs ops := by
  refine ⟨h.wal, h.told, h.live, h.fits, ?_, fun n => ?_⟩
  · exact h.creates.imp id fun hpre => ⟨hpre.1, by simp⟩
  · rw [hd, h.rows, RowTable.map_write_idem]

/-- With such a snapshot the log is not needed. -/
theorem truncated {d : SnapshotData} (hd : basis m0 (some d) = e.plain) :
    Tail m0 (some d) { e with wal := [] } [] [] [] := by
  refine ⟨rfl, rfl, ?_, ?_, .inr ⟨rfl, by simp⟩, fun n => ?_⟩
  · intro o ho
    cases ho
  · intro n t _ id row hm
    cases hm
  · rw [hd]
    exact (RowTable.map_write_nil _).symm

end Tail

/-! ## The invariant -/

namespace Online

/-- What a checkpoint in progress has so far. A copy is up to date until the
truncation, and of no interest after it. -/
structure Holds (s : Online) (pr : Progress) : Prop where
  copied : pr.phase ≠ .truncated → ∀ n st, pr.copied.get? n = some st →
    s.eng.plain n = some st.plain
  full : pr.phase ≠ .copying → ∀ n p, s.eng.plain n = some p → ∃ st, pr.copied.get? n = some st
  file : pr.phase ≠ .copying → s.disk.files.get? pr.seq = some pr.data
  named : pr.phase = .manifested ∨ pr.phase = .truncated → s.disk.manifest = some pr.seq

/-- The directory covers every acknowledged write. `m0` has the tables, empty. -/
structure Covered (m0 : Engine) (s : Online) : Prop where
  ready : s.split.Ready
  rowCalls : ∀ w c, s.writers.get? w = some c → c.onRows = true
  named : ∀ n p, s.eng.plain n = some p → p.name = n
  live : m0.Live s.acked
  acked : ∀ n, s.eng.plain n = (m0.plain n).map (·.write (opsOn n s.acked))
  tail : ∃ pre bs ops, Tail m0 s.disk.loadLatestSnapshot s.eng pre bs ops
  progress : ∀ pr ∈ s.ckpt, s.Holds pr

variable {m0 : Engine} {s s' : Online} {pr : Progress}

theorem Covered.sameShape (h : s.Covered m0) : Engine.SameShape s.eng m0 := by
  intro n
  rw [h.acked, Option.map_map]
  rfl

/-- An acknowledged write went to a table. -/
theorem Covered.table_of_last (h : s.Covered m0) {name : String} {id : Int64} {v : Option Row}
    (hlast : WriteLog.last id ((opsOn name s.acked).map RowOp.write) = some v) :
    ∃ p, m0.plain name = some p := by
  cases hops : opsOn name s.acked with
  | nil =>
    rw [hops] at hlast
    cases hlast
  | cons op ops =>
    have hmem : op ∈ opsOn name s.acked := by
      rw [hops]
      simp
    obtain ⟨t, ht⟩ := h.live _ (mem_opsOn.mp hmem)
    exact ⟨t.plain, Option.map_eq_some_iff.mpr ⟨t, ht, rfl⟩⟩

/-- When all tables have been copied the copies are the rows in memory. -/
theorem Holds.basis (h : s.Holds pr) (hcop : pr.phase ≠ .copying) (htr : pr.phase ≠ .truncated) :
    basis m0 (some pr.data) = s.eng.plain := by
  funext n
  show (pr.copied.get? n).map SnapshotTable.plain = _
  cases hst : pr.copied.get? n with
  | some st => exact (h.copied htr n st hst).symm
  | none =>
    cases hp : s.eng.plain n with
    | none => rfl
    | some p =>
      obtain ⟨st, hst'⟩ := h.full hcop n p hp
      rw [hst] at hst'
      cases hst'

theorem Holds.quiet (h : s.Holds pr) (hq : Engine.Quiet s.eng s'.eng) (hd : s'.disk = s.disk) :
    s'.Holds pr where
  copied := by
    rw [hq.plain]
    exact h.copied
  full := by
    rw [hq.plain]
    exact h.full
  file := by
    rw [hd]
    exact h.file
  named := by
    rw [hd]
    exact h.named

/-- Writes to tables that have not been copied. -/
theorem Holds.write (h : s.Holds pr) {ops : List Op} (hw : Engine.Wrote ops s.eng s'.eng)
    (hd : s'.disk = s.disk)
    (hapart : ∀ o ∈ ops, pr.phase = .truncated ∨ pr.copied.get? o.name = none) :
    s'.Holds pr where
  copied := by
    intro htr n st hst
    have hnone : opsOn n ops = [] := by
      rw [List.eq_nil_iff_forall_not_mem]
      intro op hop
      rcases hapart _ (mem_opsOn.mp hop) with h' | h'
      · exact htr h'
      · rw [hst] at h'
        cases h'
    rw [hw.plain, hnone, h.copied htr n st hst]
    rfl
  full := by
    intro hcop n p hp
    rw [hw.plain, Option.map_eq_some_iff] at hp
    obtain ⟨p0, hp0, -⟩ := hp
    exact h.full hcop n p0 hp0
  file := by
    rw [hd]
    exact h.file
  named := by
    rw [hd]
    exact h.named

/-- Nothing happened to the rows, the log or the directory. -/
theorem Covered.quiet (h : s.Covered m0) (hq : Engine.Quiet s.eng s'.eng)
    (hd : s'.disk = s.disk) (hready : s'.split.Ready)
    (hrows : ∀ w c, s'.writers.get? w = some c → c.onRows = true)
    (hck : s'.ckpt = s.ckpt) (hack : s'.acked = s.acked) : s'.Covered m0 where
  ready := hready
  rowCalls := hrows
  named := by
    rw [hq.plain]
    exact h.named
  live := by
    rw [hack]
    exact h.live
  acked := by
    rw [hq.plain, hack]
    exact h.acked
  tail := by
    obtain ⟨pre, bs, ops, ht⟩ := h.tail
    rw [hd]
    exact ⟨pre, bs, ops, ht.quiet hq⟩
  progress := by
    rw [hck]
    exact fun pr hpr => (h.progress pr hpr).quiet hq hd

/-- A block of writes was logged, applied and acknowledged. -/
theorem Covered.write (h : s.Covered m0) {begins : Bool} {tx : UInt64} {ops : List Op}
    (hl : s.eng.Live ops) (hf : s.eng.Fits ops)
    (hwal : s'.eng.wal = s.eng.wal ++ (s.eng.writeBlock begins tx ops).records)
    (hw : Engine.Wrote ops s.eng s'.eng) (hd : s'.disk = s.disk) (hready : s'.split.Ready)
    (hrows : ∀ w c, s'.writers.get? w = some c → c.onRows = true)
    (hck : s'.ckpt = s.ckpt) (hack : s'.acked = s.acked ++ ops)
    (hapart : ∀ o ∈ ops, ∀ pr ∈ s.ckpt, pr.phase = .truncated ∨ pr.copied.get? o.name = none) :
    s'.Covered m0 where
  ready := hready
  rowCalls := hrows
  named := by
    intro n p hp
    rw [hw.plain, Option.map_eq_some_iff] at hp
    obtain ⟨p0, hp0, rfl⟩ := hp
    exact h.named n p0 hp0
  live := by
    rw [hack]
    exact h.live.append (h.sameShape.symm.live hl)
  acked := by
    intro n
    rw [hw.plain, h.acked, hack, RowTable.map_write_append, opsOn_append]
  tail := by
    obtain ⟨pre, bs, ops', ht⟩ := h.tail
    rw [hd]
    exact ⟨pre, _, _, ht.write h.sameShape hl hf hwal hw⟩
  progress := by
    rw [hck]
    exact fun pr hpr => (h.progress pr hpr).write hw hd fun o ho => hapart o ho pr hpr

/-! ### The steps of sessions -/

theorem Covered.session (h : s.Covered m0) (c : Call) : (s.session c).Covered m0 := by
  unfold Online.session
  split
  · next hc =>
    obtain ⟨hready, hdisk, hcases⟩ := s.split.onRows_cases h.ready hc.1
    have hnone : s.split.sys.writes c = [] := by
      obtain ⟨-, hc⟩ := hc
      cases c <;> first | rfl | cases hc
    rcases hcases with ⟨tx, o, ho, -⟩ | ⟨-, hq⟩
    · -- a call without a table of its own writes no row
      rw [hnone] at ho
      cases ho
    · exact h.quiet hq hdisk hready h.rowCalls rfl rfl
  · exact h

theorem Covered.lookup (h : s.Covered m0) (w : Nat) (c : Call) : (s.lookup w c).Covered m0 := by
  unfold Online.lookup
  split
  · next hck hw hfound =>
    refine h.quiet (.refl _) rfl h.ready ?_ rfl rfl
    intro w' c' hc'
    dsimp only at hc'
    rw [GoMap.get?_set] at hc'
    split at hc'
    · cases hc'
      cases c <;> first | rfl | cases hfound
    · exact h.rowCalls w' c' hc'
  · exact h

theorem Covered.locked (h : s.Covered m0) {w : Nat} (hc : s.Apart (.locked w)) :
    (s.locked w).Covered m0 := by
  unfold Online.locked
  cases hw : s.writers.get? w with
  | none => exact h
  | some c =>
    have hrow := h.rowCalls w c hw
    obtain ⟨hready, hdisk, hcases⟩ := s.split.onRows_cases h.ready hrow
    have hrows : ∀ w' c', (s.writers.delete w).get? w' = some c' → c'.onRows = true := by
      intro w' c' hc'
      rw [GoMap.get?_delete] at hc'
      split at hc'
      · cases hc'
      · exact h.rowCalls w' c' hc'
    dsimp only
    rcases hcases with ⟨tx, o, ho, hwr⟩ | ⟨ho, hq⟩
    · exact h.write hwr.live hwr.fits hwr.wal hwr.wrote hdisk hready hrows rfl
        (by rw [ho]) (by rw [← ho]; exact hc c hw)
    · exact h.quiet hq hdisk hready hrows rfl (by rw [ho, List.append_nil])

theorem Covered.commitTxn (h : s.Covered m0) (tx : UInt64) : (s.commitTxn tx).Covered m0 := by
  unfold Online.commitTxn
  split
  · next t hck ht =>
    obtain ⟨hl, hf⟩ := h.ready tx t ht
    obtain ⟨e', hcommit, hw, hwal⟩ := Engine.commitTxn_spec hl hf t.id
    have hsplit : s.split.commitTxn tx = { s.split with
        sys := { s.split.sys with eng := e' }
        validated := s.split.validated.delete tx
        clobbered := (s.split.commitTxn tx).clobbered } := by
      simp only [Split.commitTxn, ht, hcommit]
    rw [hsplit, hcommit]
    refine h.write hl hf hwal hw rfl ?_ h.rowCalls rfl rfl ?_
    · refine h.ready.mono (fun tx' t' ht' => ?_) (fun _ hl => hw.live hl) fun _ hf => hw.fits hf
      dsimp only at ht'
      rw [GoMap.get?_delete] at ht'
      split at ht'
      · cases ht'
      · exact ht'
    · -- no checkpoint is in progress
      intro o _ pr hpr
      rw [hck] at hpr
      cases hpr
  · exact h

/-! ### The steps of a checkpoint -/

/-- Only the directory and the checkpoint's progress have changed. -/
theorem Covered.onDisk (h : s.Covered m0) {d : Disk} {ck : Option Progress}
    (htail : ∀ pre bs ops, Tail m0 s.disk.loadLatestSnapshot s.eng pre bs ops →
      Tail m0 d.loadLatestSnapshot s.eng pre bs ops)
    (hck : ∀ pr ∈ ck, Holds { s.setSys s.eng d with ckpt := ck } pr) :
    Covered m0 { s.setSys s.eng d with ckpt := ck } := by
  obtain ⟨pre, bs, ops, ht⟩ := h.tail
  exact ⟨h.ready, h.rowCalls, h.named, h.live, h.acked, ⟨pre, bs, ops, htail pre bs ops ht⟩, hck⟩

theorem Covered.start (h : s.Covered m0) : s.start.Covered m0 := by
  unfold Online.start
  split
  · refine h.onDisk (d := s.disk) (fun _ _ _ ht => ht) ?_
    intro pr hpr
    cases hpr
    refine ⟨?_, ?_, ?_, ?_⟩
    · intro _ n st hst
      rw [GoMap.get?_empty] at hst
      cases hst
    · intro hcop
      exact absurd rfl hcop
    · intro hcop
      exact absurd rfl hcop
    · rintro (hph | hph) <;> cases hph
  · exact h

theorem Covered.copy (h : s.Covered m0) (name : String) : (s.copy name).Covered m0 := by
  unfold Online.copy
  split
  · next pr t hck ht =>
    split
    · next hc =>
      have hpr := h.progress pr hck
      have hplain : s.eng.plain name = some t.plain := by
        rw [Engine.plain_eq, ht]
        rfl
      refine h.onDisk (d := s.disk) (fun _ _ _ ht => ht) ?_
      intro pr' hpr'
      cases hpr'
      refine ⟨?_, fun hcop => absurd hc.1 hcop, fun hcop => absurd hc.1 hcop, hpr.named⟩
      intro htr n st hst
      dsimp only at hst
      rw [GoMap.get?_set] at hst
      split at hst
      · next hn =>
        cases hst
        rw [hn, Table.plain_snapshot (h.named name t.plain hplain)]
        exact hplain
      · exact hpr.copied htr n st hst
    · exact h
  · exact h

theorem loadLatestSnapshot_writeSnapshot (d : Disk) (snap : SnapshotData) :
    (d.writeSnapshot snap).loadLatestSnapshot
      = if d.manifest = some snap.seq then some snap else d.loadLatestSnapshot := by
  show d.manifest.bind (d.files.set snap.seq snap).get? = _
  cases hm : d.manifest with
  | none => simp [Disk.loadLatestSnapshot, hm]
  | some seq =>
    rw [Option.bind_some, GoMap.get?_set]
    by_cases hseq : seq = snap.seq
    · rw [if_pos hseq, if_pos (by rw [hseq])]
    · rw [if_neg hseq, if_neg (by simpa using hseq), Disk.loadLatestSnapshot, hm, Option.bind_some]

theorem Covered.writeSnapshot (h : s.Covered m0) : s.writeSnapshot.Covered m0 := by
  unfold Online.writeSnapshot
  split
  · next pr hck =>
    split
    · next hc =>
      have hpr := h.progress pr hck
      -- the copies are complete from here on
      have hnow : Holds { s.setSys s.eng (s.disk.writeSnapshot pr.data) with
          ckpt := some { pr with phase := .written } } { pr with phase := .written } := by
        refine ⟨fun _ => hpr.copied (by rw [hc.1]; simp), ?_, ?_, ?_⟩
        · intro _ n p hp
          obtain ⟨t, ht, -⟩ := Option.map_eq_some_iff.mp ((Engine.plain_eq s.eng n).symm.trans hp)
          exact Option.isSome_iff_exists.mp (hc.2 n (GoMap.mem_keys.mpr ⟨t, ht⟩))
        · intro _
          exact GoMap.get?_set_self _ _ _
        · rintro (hph | hph) <;> cases hph
      refine h.onDisk (fun pre bs ops ht => ?_) (by intro pr' hpr'; cases hpr'; exact hnow)
      rw [loadLatestSnapshot_writeSnapshot]
      split
      · -- the file replaced the one the manifest names
        exact ht.rebase (hnow.basis (by simp) (by simp))
      · exact ht
    · exact h
  · exact h

theorem Covered.writeManifest (h : s.Covered m0) : s.writeManifest.Covered m0 := by
  unfold Online.writeManifest
  split
  · next pr hck =>
    split
    · next hc =>
      have hpr := h.progress pr hck
      have hcop : pr.phase ≠ .copying := by rw [hc]; simp
      have htr : pr.phase ≠ .truncated := by rw [hc]; simp
      refine h.onDisk (fun pre bs ops ht => ?_) ?_
      · show Tail m0 (s.disk.files.get? pr.seq) _ _ _ _
        rw [hpr.file hcop]
        exact ht.rebase (hpr.basis hcop htr)
      · intro pr' hpr'
        cases hpr'
        exact ⟨fun _ => hpr.copied htr, fun _ => hpr.full hcop, fun _ => hpr.file hcop,
          fun _ => rfl⟩
    · exact h
  · exact h

theorem Covered.truncate (h : s.Covered m0) : s.truncate.Covered m0 := by
  unfold Online.truncate
  split
  · next pr hck =>
    split
    · next hc =>
      have hpr := h.progress pr hck
      have hcop : pr.phase ≠ .copying := by rw [hc]; simp
      have htr : pr.phase ≠ .truncated := by rw [hc]; simp
      have hload : s.disk.loadLatestSnapshot = some pr.data := by
        rw [Disk.loadLatestSnapshot, hpr.named (.inl hc), Option.bind_some, hpr.file hcop]
      refine ⟨h.ready, h.rowCalls, h.named, h.live, h.acked, ⟨[], [], [], ?_⟩, ?_⟩
      · show Tail m0 s.disk.loadLatestSnapshot { s.eng with wal := [] } [] [] []
        rw [hload]
        exact Tail.truncated (hpr.basis hcop htr)
      · intro pr' hpr'
        cases hpr'
        exact ⟨fun htr => absurd rfl htr, fun _ => hpr.full hcop, fun _ => hpr.file hcop,
          fun _ => hpr.named (.inl hc)⟩
    · exact h
  · exact h

theorem Covered.prune (h : s.Covered m0) (hc : s.Apart .prune) : s.prune.Covered m0 := by
  unfold Online.prune
  split
  · next pr hck =>
    split
    · next hph =>
      have hpr := h.progress pr hck
      have hkeep : s.disk.pruneSnapshots.loadLatestSnapshot = s.disk.loadLatestSnapshot := by
        show s.disk.manifest.bind s.disk.pruneSnapshots.files.get? = _
        rw [Disk.loadLatestSnapshot, hpr.named (.inr hph), Option.bind_some, Option.bind_some,
          Disk.get?_pruneSnapshots, if_pos (hc pr hck)]
      refine h.onDisk (fun pre bs ops ht => ?_) (by intro pr' hpr'; cases hpr')
      rw [hkeep]
      exact ht
    · exact h
  · exact h

theorem Covered.step {a : OnlineStep} (h : s.Covered m0) (hc : s.Apart a) :
    (s.step a).Covered m0 := by
  cases a with
  | session c => exact h.session c
  | lookup w c => exact h.lookup w c
  | locked w => exact h.locked hc
  | commitTxn tx => exact h.commitTxn tx
  | start => exact h.start
  | copy name => exact h.copy name
  | writeSnapshot => exact h.writeSnapshot
  | writeManifest => exact h.writeManifest
  | truncate => exact h.truncate
  | prune => exact h.prune hc

/-- Creating tables writes no file. -/
theorem disk_created (defs : List (String × List Column)) : (Sys.created defs).disk = {} := by
  induction defs using List.reverseRecOn with
  | nil => rfl
  | append_singleton defs d ih =>
    rw [Sys.created_concat]
    exact ih

theorem covered_created {defs : List (String × List Column)} (h : defs.length < 2 ^ 32) :
    (created defs).Covered (Sys.created defs).eng := by
  have hf := Sys.founded_created h
  obtain ⟨bs, -, hwal, -, -⟩ := hf.replays
  have hnil : ∀ n, (Sys.created defs).eng.plain n
      = ((Sys.created defs).eng.plain n).map (·.write []) :=
    fun n => (RowTable.map_write_nil _).symm
  refine ⟨?_, ?_, ?_, ?_, hnil, ⟨bs, [], [], ?_⟩, ?_⟩
  · intro tx t ht
    simp [created] at ht
  · intro w c hc
    simp [created] at hc
  · intro n p hp
    obtain ⟨t, ht, rfl⟩ := Option.map_eq_some_iff.mp hp
    exact hf.wf.named n t ht
  · intro o ho
    cases ho
  · have hnone : (created defs).disk.loadLatestSnapshot = none := by
      show (Sys.created defs).disk.loadLatestSnapshot = none
      rw [disk_created]
      rfl
    rw [hnone]
    refine ⟨by rw [List.append_nil]; exact hwal, rfl, ?_, ?_, .inl ?_, hnil⟩
    · intro o ho
      cases ho
    · intro n t _ id row hm
      cases hm
    · rw [hwal, logged_records]
  · intro pr hpr
    cases hpr

end Online

/-- **No acknowledged write is lost**, at any moment of any run of autocommit
calls, commits and checkpoints on a fixed set of tables in which no autocommit
call writes a table between a checkpoint's copy of it and the truncation, and
no checkpoint prunes its own snapshot. Of the writes to one row, the last one
acknowledged is what `Open` finds. -/
theorem acked_writes_survive (g : Gob) (ord : MapOrder) (defs : List (String × List Column))
    (steps : List OnlineStep) (hdefs : defs.length < 2 ^ 32)
    (hrun : Run.Along Online.step Online.Apart (Online.created defs) steps)
    (hfit : ∀ r ∈ (Run.run Online.step (Online.created defs) steps).eng.wal, fits g r) :
    ∃ r, openEngine g ord
        (Run.run Online.step (Online.created defs) steps).disk.loadLatestSnapshot
        (encodeAll g (Run.run Online.step (Online.created defs) steps).eng.wal) = .ok r ∧
      ∀ name id v, WriteLog.last id
          ((opsOn name (Run.run Online.step (Online.created defs) steps).acked).map RowOp.write)
          = some v → r.get name id = v := by
  have h := hrun.invariant (I := Online.Covered (Sys.created defs).eng)
    (fun _ _ hs hc => hs.step hc) (Online.covered_created hdefs)
  obtain ⟨pre, bs, ops, ht⟩ := h.tail
  obtain ⟨r, hopen, hplain⟩ := ht.opens (Sys.founded_created hdefs) h.sameShape g ord hfit
  refine ⟨r, hopen, fun name id v hlast => ?_⟩
  obtain ⟨p, hp⟩ := h.table_of_last hlast
  rw [Engine.get_eq_plain, hplain, h.acked, hp]
  show WriteLog.replay p.rows _ id = v
  rw [WriteLog.replay_apply]
  exact congrArg (·.getD (p.rows id)) hlast

/-- A table is written before and after a checkpoint copies it, by the autocommit
calls 1 and 2 and by a commit; the second call waits until the log has been
truncated. -/
def writesAround : List OnlineStep :=
  [.lookup 1 (.put "a" 1 [.int 5]), .lookup 2 (.put "a" 2 [.int 6]), .start, .locked 1, .copy "a",
   .writeSnapshot, .writeManifest, .truncate, .locked 2, .prune, .session (.begin 1),
   .session (.txnPut 1 "a" 3 [.int 7]), .session (.commit 1), .commitTxn 4]

theorem acked_writes_survive_writesAround :
    (Run.run Online.step (Online.created [("a", uniqueCol)]) writesAround).acked
        = [⟨"a", .put 1 [.int 5]⟩, ⟨"a", .put 2 [.int 6]⟩, ⟨"a", .put 3 [.int 7]⟩] ∧
      ∃ r, openEngine plainGob .ascending
        (Run.run Online.step (Online.created [("a", uniqueCol)]) writesAround
          ).disk.loadLatestSnapshot
        (encodeAll plainGob
          (Run.run Online.step (Online.created [("a", uniqueCol)]) writesAround).eng.wal) = .ok r ∧
      ∀ name id v, WriteLog.last id
          ((opsOn name (Run.run Online.step (Online.created [("a", uniqueCol)]) writesAround).acked
            ).map RowOp.write) = some v → r.get name id = v :=
  ⟨by decide +kernel, acked_writes_survive plainGob .ascending [("a", uniqueCol)] writesAround
    (by decide) (by decide +kernel) (by decide +kernel)⟩

/-- The call has found its table when the checkpoint starts, and gets the
table's lock when the checkpoint has copied the table. -/
def writeBehindCopy : List OnlineStep :=
  [.lookup 1 (.put "a" 1 [.int 5]), .start, .copy "a", .locked 1, .writeSnapshot, .writeManifest,
   .truncate]

/-- **The row is acknowledged, and neither in the snapshot nor in the log.** -/
theorem writeBehindCopy_is_lost :
    (Run.run Online.step (Online.created [("a", uniqueCol)]) writeBehindCopy).acked
        = [⟨"a", .put 1 [.int 5]⟩] ∧
      ∃ r, openEngine plainGob .ascending
        (Run.run Online.step (Online.created [("a", uniqueCol)]) writeBehindCopy
          ).disk.loadLatestSnapshot
        (encodeAll plainGob
          (Run.run Online.step (Online.created [("a", uniqueCol)]) writeBehindCopy).eng.wal) = .ok r ∧
      r.get "a" 1 = none := by
  have hsnap : (Run.run Online.step (Online.created [("a", uniqueCol)]) writeBehindCopy
      ).disk.loadLatestSnapshot
        = some ⟨3, (∅ : GoMap String SnapshotTable).set "a" ⟨0, "a", uniqueCol, ∅, 1⟩⟩ := by decide
  have hwal : (Run.run Online.step (Online.created [("a", uniqueCol)]) writeBehindCopy).eng.wal = [] := by
    decide
  refine ⟨by decide, _, openEngine_of_replay (r := loadSnapshot .ascending
    (Run.run Online.step (Online.created [("a", uniqueCol)]) writeBehindCopy
      ).disk.loadLatestSnapshot) ?_, ?_⟩
  · rw [hwal, openWAL_encodeAll (by simp)]
    rfl
  · show (loadSnapshot .ascending _).get "a" 1 = none
    rw [hsnap, loadSnapshot_single]
    decide

end Tsql.Storage
