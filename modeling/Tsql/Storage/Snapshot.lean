import Mathlib.Order.Lattice.Nat
import Tsql.Storage.Engine

/-!
# Snapshots (`internal/storage/snapshot.go`, `Checkpoint`)

A checkpoint copies the catalog (`Engine.capture`), writes it to
`snapshot-<Seq>.bin`, points the manifest at that file, truncates the log
and prunes old files. The number in a file's name is the number of records
in the log at the time, which restarts at every truncate; `pruneSnapshots`
keeps the two files with the HIGHEST numbers.

A snapshot file holds the value that was written: the gob encoding of a
snapshot is taken to round-trip. The directory is the map from the numbers
to the files, since the numbers and the names determine each other.
-/

namespace Tsql.Storage

/-- `snapshotTable`. -/
structure SnapshotTable where
  id : UInt32
  name : String
  cols : List Column
  rows : GoMap Int64 Row
  nextID : Int64
  deriving DecidableEq

/-- `snapshotData`. -/
structure SnapshotData where
  seq : UInt64
  tables : GoMap String SnapshotTable
  deriving DecidableEq

/-- The copy of one table, filed under `name`. -/
def Table.snapshot (name : String) (t : Table) : SnapshotTable :=
  { id := t.id, name := name, cols := t.cols, rows := t.rows, nextID := t.nextID }

/-- The copy loop of `Checkpoint`, over all tables at one moment. -/
def Engine.capture (e : Engine) : SnapshotData :=
  { seq := e.seq, tables := e.tables.mapEntries Table.snapshot }

/-! ## The directory -/

/-- The snapshot files and the manifest. A file is what gob reads back of it, but
for the sign of a float zero, which gob drops. -/
structure Disk where
  files : GoMap UInt64 SnapshotData := ∅
  manifest : Option UInt64 := none
  deriving DecidableEq

namespace Disk

/-- `WriteSnapshot`: the rename replaces a file of the same number. -/
def writeSnapshot (d : Disk) (snap : SnapshotData) : Disk :=
  { d with files := d.files.set snap.seq snap }

/-- `writeManifest`. -/
def writeManifest (d : Disk) (seq : UInt64) : Disk := { d with manifest := some seq }

/-- The numbers `pruneSnapshots` removes: all but the two highest. -/
def stale (d : Disk) : List UInt64 := (d.files.keys.sort (· ≤ ·)).reverse.drop 2

/-- `pruneSnapshots`. -/
def pruneSnapshots (d : Disk) : Disk :=
  { d with files := d.stale.foldl GoMap.delete d.files }

/-- `LoadLatestSnapshot`: no manifest, or no such file, is no snapshot. -/
def loadLatestSnapshot (d : Disk) : Option SnapshotData := d.manifest.bind d.files.get?

end Disk

/-- `Checkpoint`, with nothing else running. -/
def Engine.checkpoint (e : Engine) (d : Disk) : Engine × Disk :=
  let snap := e.capture
  let d := (d.writeSnapshot snap).writeManifest snap.seq
  ({ e with wal := [] }, d.pruneSnapshots)

/-! ## Loading -/

/-- The orders in which `Open` happens to visit its maps. -/
structure MapOrder where
  rows : GoMap.Ranging Int64 Row
  tables : GoMap.Ranging String SnapshotTable

/-- One such pair of orders: ascending keys. -/
def MapOrder.ascending : MapOrder := ⟨.ascending, .ascending⟩

/-- A table as `Open` rebuilds it from a snapshot. -/
def SnapshotTable.load (ord : MapOrder) (st : SnapshotTable) : Table :=
  ({ id := st.id, name := st.name, cols := st.cols, rows := st.rows,
     nextID := st.nextID } : Table).initUniq.buildUniqLocked ord.rows

/-- One turn of the loop of `Open` over the snapshot's tables. -/
def Engine.loadTable (ord : MapOrder) (e : Engine) (st : String × SnapshotTable) : Engine :=
  let t := st.2.load ord
  { e with
    tables := e.tables.set st.1 t
    byID := e.byID.set t.id st.1
    nextTableID := if st.2.id ≥ e.nextTableID then st.2.id + 1 else e.nextTableID }

/-- The engine `Open` has before it replays the log. The id counter is the
highest id in the snapshot plus one: ids handed out to tables that were
dropped before the checkpoint are forgotten. -/
def loadSnapshot (ord : MapOrder) : Option SnapshotData → Engine
  | none => {}
  | some snap => (ord.tables.list snap.tables).foldl (Engine.loadTable ord) {}

/-- The counter `loadSnapshot` arrives at, as long as no id is the last one. -/
def SnapshotData.idBound (snap : SnapshotData) : Nat :=
  snap.tables.keys.sup fun name => ((snap.tables.get? name).map (·.id.toNat + 1)).getD 0

end Tsql.Storage
