import Tsql.Storage.Steps

/-!
# The catalog, and what `Open` makes of a snapshot

`Engine.WF` is what the two catalog maps owe each other: a table is filed
under its own name, its id leads back to it, and the id counter is past
every id in use. The `uint32` counter keeps it as long as it does not wrap.

`load_capture` says what `Open` has after loading a snapshot, in
whatever order it visits the tables and rows: the captured tables, and a
counter just past the highest id among THEM, which may be lower than the
counter was when the snapshot was taken.
-/

namespace Tsql.Storage

namespace Engine

/-- What a reader of the table under `name` can see: columns, rows, index. -/
def contents (e : Engine) (name : String) :
    Option (List Column × GoMap Int64 Row × GoMap Nat (GoMap UniqKey Int64)) :=
  (e.tables.get? name).map fun t => (t.cols, t.rows, t.uniq)

/-- The same tables under the same names. -/
def SameTables (e e' : Engine) : Prop := ∀ name, e.contents name = e'.contents name

variable {e e' : Engine}

theorem contents_eq_view (e : Engine) (name : String) :
    e.contents name = (e.view name).map fun t => (t.cols, t.rows, t.uniq) := by
  rw [contents, view, Option.map_map]
  rfl

/-- A catalog in order. -/
structure WF (e : Engine) : Prop where
  named : ∀ n t, e.view n = some t → t.name = n
  byID : ∀ n t, e.view n = some t → e.byID.get? t.id = some n
  lt : ∀ n t, e.view n = some t → t.id.toNat < e.nextTableID.toNat

theorem WF.empty : ({} : Engine).WF := by
  refine ⟨?_, ?_, ?_⟩ <;> · intro n t ht; simp [view] at ht

/-- Ids are not shared. -/
theorem WF.inj (h : e.WF) {n n' : String} {t t' : Table} (ht : e.view n = some t)
    (ht' : e.view n' = some t') (hid : t.id = t'.id) : n = n' := by
  have h1 := h.byID n t ht
  rw [hid, h.byID n' t' ht'] at h1
  exact (Option.some.inj h1).symm

theorem toNat_next {e : Engine} (h : e.nextTableID.toNat + 1 < 2 ^ 32) :
    (e.nextTableID + 1).toNat = e.nextTableID.toNat + 1 := by
  rw [UInt32.toNat_add]
  exact Nat.mod_eq_of_lt h

theorem WF.created (h : e.WF) {name : String} {cols : List Column}
    (hview : e'.view = Function.update e.view name (some (newTable e.nextTableID name cols)))
    (hbyID : e'.byID = e.byID.set e.nextTableID name)
    (hnext : e'.nextTableID = e.nextTableID + 1) (hwrap : e.nextTableID.toNat + 1 < 2 ^ 32) :
    e'.WF := by
  have hn : e'.nextTableID.toNat = e.nextTableID.toNat + 1 := by rw [hnext, toNat_next hwrap]
  refine ⟨?_, ?_, ?_⟩
  · intro n t ht
    rw [hview, Function.update_apply] at ht
    split at ht
    · next he => cases ht; exact he.symm
    · exact h.named n t ht
  · intro n t ht
    rw [hview, Function.update_apply] at ht
    rw [hbyID]
    split at ht
    · next he => cases ht; rw [he]; exact GoMap.get?_set_self _ _ _
    · -- an id in use is below the counter, so the new one is another
      have hlt := h.lt n t ht
      rw [GoMap.get?_set_ne _ _ (by intro he; rw [he] at hlt; omega)]
      exact h.byID n t ht
  · intro n t ht
    rw [hview, Function.update_apply] at ht
    rw [hn]
    split at ht
    · cases ht; exact Nat.lt_succ_self _
    · exact Nat.lt_succ_of_lt (h.lt n t ht)

theorem WF.dropped (h : e.WF) {name : String} {t : Table} (live : e.view name = some t)
    (hview : e'.view = Function.update e.view t.name none)
    (hbyID : e'.byID = e.byID.delete t.id) (hnext : e'.nextTableID = e.nextTableID) : e'.WF := by
  have hsub : ∀ n t', e'.view n = some t' → n ≠ name ∧ e.view n = some t' := by
    intro n t' ht'
    rw [hview, Function.update_apply, h.named name t live] at ht'
    split at ht'
    · cases ht'
    · next hne => exact ⟨hne, ht'⟩
  refine ⟨fun n t' ht' => h.named n t' (hsub n t' ht').2, ?_, ?_⟩
  · intro n t' ht'
    obtain ⟨hne, ht'⟩ := hsub n t' ht'
    rw [hbyID, GoMap.get?_delete_ne]
    · exact h.byID n t' ht'
    · exact fun he => hne (h.inj ht' live he)
  · intro n t' ht'
    rw [hnext]
    exact h.lt n t' (hsub n t' ht').2

theorem WF.wrote (h : e.WF) {ops : List Op} (hw : Wrote ops e e') : e'.WF := by
  have hsub : ∀ n t', e'.view n = some t' → ∃ t, e.view n = some t ∧ t.name = t'.name ∧
      t.id = t'.id := by
    intro n t' ht'
    rw [hw.view, Option.map_eq_some_iff] at ht'
    obtain ⟨t, ht, rfl⟩ := ht'
    exact ⟨t, ht, by simp, by simp⟩
  refine ⟨?_, ?_, ?_⟩
  · intro n t' ht'
    obtain ⟨t, ht, hname, -⟩ := hsub n t' ht'
    rw [← hname]
    exact h.named n t ht
  · intro n t' ht'
    obtain ⟨t, ht, -, hid⟩ := hsub n t' ht'
    rw [← hid, hw.byID]
    exact h.byID n t ht
  · intro n t' ht'
    obtain ⟨t, ht, -, hid⟩ := hsub n t' ht'
    rw [← hid, hw.next]
    exact h.lt n t ht

/-- A call keeps the catalog in order, unless it makes the counter wrap. -/
theorem Did.wf {names : List String} (h : Did names e e') (hwf : e.WF)
    (hwrap : e'.nextTableID ≠ e.nextTableID → e.nextTableID.toNat + 1 < 2 ^ 32) : e'.WF := by
  cases h with
  | quiet q =>
    obtain ⟨-, byID, next, view⟩ := q
    refine ⟨?_, ?_, ?_⟩
    · rw [view]; exact hwf.named
    · rw [view, byID]; exact hwf.byID
    · rw [view, next]; exact hwf.lt
  | create tx name cols _ _ byID next view =>
    refine hwf.created view byID next (hwrap ?_)
    rw [next]
    simp
  | drop tx name t live _ byID next view => exact hwf.dropped live view byID next
  | write begins tx ops _ w => exact hwf.wrote w.wrote

end Engine

/-! ## Loading a snapshot -/

section Load

variable (ord : MapOrder)

/-- The loop of `Open` over the snapshot's tables, names and ids distinct. -/
theorem loadTables_spec {l : List (String × SnapshotTable)} (hkeys : (l.map Prod.fst).Nodup)
    (hids : (l.map fun p => p.2.id).Nodup) (e : Engine) :
    (∀ p ∈ l, (l.foldl (Engine.loadTable ord) e).tables.get? p.1 = some (p.2.load ord) ∧
        (l.foldl (Engine.loadTable ord) e).byID.get? p.2.id = some p.1) ∧
      (∀ n, n ∉ l.map Prod.fst →
        (l.foldl (Engine.loadTable ord) e).tables.get? n = e.tables.get? n) ∧
      (∀ i, i ∉ l.map (fun p => p.2.id) →
        (l.foldl (Engine.loadTable ord) e).byID.get? i = e.byID.get? i) := by
  induction l generalizing e with
  | nil => simp
  | cons p l ih =>
    have hload : (p.2.load ord).id = p.2.id := (Table.buildUniqLocked_frame ord.rows _).2.2.1
    simp only [List.map_cons, List.nodup_cons] at hkeys hids
    obtain ⟨hin, htab, hid⟩ := ih hkeys.2 hids.2 (e.loadTable ord p)
    refine ⟨?_, ?_, ?_⟩
    · intro q hq
      rcases List.mem_cons.mp hq with rfl | hq
      · rw [List.foldl_cons, htab q.1 hkeys.1, hid q.2.id hids.1, Engine.loadTable]
        simp [hload]
      · exact hin q hq
    · intro n hn
      simp only [List.map_cons, List.mem_cons, not_or] at hn
      rw [List.foldl_cons, htab n hn.2, Engine.loadTable, GoMap.get?_set_ne _ _ hn.1]
    · intro i hi
      simp only [List.map_cons, List.mem_cons, not_or] at hi
      rw [List.foldl_cons, hid i hi.2, Engine.loadTable, hload, GoMap.get?_set_ne _ _ hi.1]

/-- The counter after the loop: past every id, and no further than one. -/
theorem loadTables_next {l : List (String × SnapshotTable)}
    (hlt : ∀ p ∈ l, p.2.id.toNat + 1 < 2 ^ 32) (e : Engine) :
    e.nextTableID.toNat ≤ (l.foldl (Engine.loadTable ord) e).nextTableID.toNat ∧
      (∀ p ∈ l, p.2.id.toNat < (l.foldl (Engine.loadTable ord) e).nextTableID.toNat) ∧
      ((l.foldl (Engine.loadTable ord) e).nextTableID = e.nextTableID ∨
        ∃ p ∈ l, (l.foldl (Engine.loadTable ord) e).nextTableID.toNat = p.2.id.toNat + 1) := by
  induction l generalizing e with
  | nil => exact ⟨Nat.le_refl _, by simp, .inl rfl⟩
  | cons p l ih =>
    have hp : (p.2.id + 1).toNat = p.2.id.toNat + 1 := by
      rw [UInt32.toNat_add]
      exact Nat.mod_eq_of_lt (hlt p (by simp))
    have hstep : (e.loadTable ord p).nextTableID
        = if p.2.id ≥ e.nextTableID then p.2.id + 1 else e.nextTableID := rfl
    obtain ⟨hle, hall, hlast⟩ := ih (fun q hq => hlt q (by simp [hq])) (e.loadTable ord p)
    rw [List.foldl_cons]
    generalize hr : l.foldl (Engine.loadTable ord) (e.loadTable ord p) = r at hle hall hlast ⊢
    rw [hstep] at hle hlast
    split at hle
    · -- this table moves the counter
      next hge =>
      have hge' : e.nextTableID.toNat ≤ p.2.id.toNat := UInt32.le_iff_toNat_le.mp hge
      rw [hp] at hle
      refine ⟨by omega, ?_, ?_⟩
      · intro q hq
        rcases List.mem_cons.mp hq with rfl | hq
        · omega
        · exact hall q hq
      · rw [if_pos hge] at hlast
        rcases hlast with heq | ⟨q, hq, heq⟩
        · exact .inr ⟨p, by simp, by rw [heq, hp]⟩
        · exact .inr ⟨q, by simp [hq], heq⟩
    · next hge =>
      have hlt' : p.2.id.toNat < e.nextTableID.toNat := by
        have : ¬ e.nextTableID.toNat ≤ p.2.id.toNat := fun h => hge (UInt32.le_iff_toNat_le.mpr h)
        omega
      refine ⟨hle, ?_, ?_⟩
      · intro q hq
        rcases List.mem_cons.mp hq with rfl | hq
        · omega
        · exact hall q hq
      · rw [if_neg hge] at hlast
        rcases hlast with heq | ⟨q, hq, heq⟩
        · exact .inl heq
        · exact .inr ⟨q, by simp [hq], heq⟩

/-- A captured table with an exact index is loaded as it was. -/
theorem load_snapshot {t : Table} {n : String} (hname : t.name = n) (hexact : t.Exact) :
    (t.snapshot n).load ord = t := by
  subst hname
  exact hexact.buildUniqLocked_eq ord.rows

variable {m : Engine}

theorem get?_capture (m : Engine) (n : String) :
    m.capture.tables.get? n = (m.tables.get? n).map (Table.snapshot n) :=
  GoMap.get?_mapEntries _ _ _

theorem lt_idBound {snap : SnapshotData} {n : String} {st : SnapshotTable}
    (h : snap.tables.get? n = some st) : st.id.toNat < snap.idBound := by
  have hle := Finset.le_sup
    (f := fun name => ((snap.tables.get? name).map (·.id.toNat + 1)).getD 0)
    (GoMap.mem_keys.mpr ⟨st, h⟩)
  simp only [h, Option.map_some, Option.getD_some] at hle
  exact hle

theorem idBound_le {snap : SnapshotData} {b : Nat}
    (h : ∀ n st, snap.tables.get? n = some st → st.id.toNat < b) : snap.idBound ≤ b := by
  refine Finset.sup_le fun n hn => ?_
  obtain ⟨st, hst⟩ := GoMap.mem_keys.mp hn
  simp only [hst, Option.map_some, Option.getD_some]
  exact h n st hst

/-- **What `Open` has after loading a snapshot** whose tables have different
ids: each table loaded under its name, and its id leading to it. -/
theorem loadSnapshot_spec {d : SnapshotData}
    (hinj : ∀ n n' st st', d.tables.get? n = some st → d.tables.get? n' = some st' →
      st.id = st'.id → n = n') :
    (∀ n, (loadSnapshot ord (some d)).tables.get? n = (d.tables.get? n).map (·.load ord)) ∧
      ∀ n st, d.tables.get? n = some st →
        (loadSnapshot ord (some d)).byID.get? st.id = some n := by
  have hmem := (ord.tables.enumerates d.tables).mem_iff
  have hnodup := (ord.tables.enumerates d.tables).nodup
  -- the visiting order lists each name once, and so each id
  have hids : ((ord.tables.list d.tables).map fun p => p.2.id).Nodup := by
    refine List.Nodup.map_on ?_ (List.Nodup.of_map _ hnodup)
    intro p hp q hq hid
    have hp := (hmem p.1 p.2).mp hp
    have hq := (hmem q.1 q.2).mp hq
    have hname := hinj p.1 q.1 p.2 q.2 hp hq hid
    refine Prod.ext hname ?_
    rw [hname, hq] at hp
    exact (Option.some.inj hp).symm
  obtain ⟨hin, hout, -⟩ := loadTables_spec ord hnodup hids {}
  constructor
  · intro n
    show ((ord.tables.list d.tables).foldl (Engine.loadTable ord) {}).tables.get? n = _
    cases hst : d.tables.get? n with
    | none =>
      rw [hout n]
      · simp
      · intro hn
        obtain ⟨p, hp, rfl⟩ := List.mem_map.mp hn
        rw [(hmem p.1 p.2).mp hp] at hst
        cases hst
    | some st => exact (hin (n, st) ((hmem n st).mpr hst)).1
  · intro n st hst
    exact (hin (n, st) ((hmem n st).mpr hst)).2

theorem exists_of_capture {n : String} {st : SnapshotTable}
    (h : m.capture.tables.get? n = some st) : ∃ t, m.tables.get? n = some t ∧ st = t.snapshot n := by
  rw [get?_capture, Option.map_eq_some_iff] at h
  obtain ⟨t, ht, heq⟩ := h
  exact ⟨t, ht, heq.symm⟩

/-- A captured catalog is loaded as it was. -/
theorem loadSnapshot_capture (hwf : m.WF) (hidx : m.Indexed) :
    (loadSnapshot ord (some m.capture)).tables = m.tables ∧
      ∀ n t, m.view n = some t → (loadSnapshot ord (some m.capture)).byID.get? t.id = some n := by
  obtain ⟨hload, hid⟩ := loadSnapshot_spec ord (d := m.capture) (by
    intro n n' st st' hst hst' heq
    obtain ⟨t, ht, rfl⟩ := exists_of_capture hst
    obtain ⟨t', ht', rfl⟩ := exists_of_capture hst'
    exact hwf.inj (Engine.view_eq_some ht) (Engine.view_eq_some ht') heq)
  constructor
  · ext1 n
    rw [hload, get?_capture, Option.map_map]
    cases ht : m.tables.get? n with
    | none => rfl
    | some t =>
      have hv := Engine.view_eq_some ht
      exact congrArg some (load_snapshot ord (hwf.named n t.data hv)
        (Table.exact_data.mp (hidx n t.data hv)))
  · intro n t ht
    obtain ⟨t', ht', rfl⟩ := Engine.exists_of_view ht
    exact hid n (t'.snapshot n) (by rw [get?_capture, ht']; rfl)

/-- The counter of a loaded catalog is just past the highest id in it. -/
theorem nextTableID_capture (hwf : m.WF) :
    (loadSnapshot ord (some m.capture)).nextTableID.toNat = m.capture.idBound ∧
      m.capture.idBound ≤ m.nextTableID.toNat := by
  have hmem := (ord.tables.enumerates m.capture.tables).mem_iff
  have hlt : ∀ n st, m.capture.tables.get? n = some st → st.id.toNat < m.nextTableID.toNat := by
    intro n st hst
    obtain ⟨t, ht, rfl⟩ := exists_of_capture hst
    exact hwf.lt n t.data (Engine.view_eq_some ht)
  have hwrap : ∀ p ∈ ord.tables.list m.capture.tables, p.2.id.toNat + 1 < 2 ^ 32 := by
    intro p hp
    have h1 := hlt p.1 p.2 ((hmem p.1 p.2).mp hp)
    have h2 := m.nextTableID.toNat_lt
    omega
  obtain ⟨-, hbelow, hlast⟩ := loadTables_next ord hwrap {}
  refine ⟨Nat.le_antisymm ?_ ?_, idBound_le hlt⟩
  · rcases hlast with h0 | ⟨p, hp, heq⟩
    · show ((ord.tables.list m.capture.tables).foldl (Engine.loadTable ord) {}).nextTableID.toNat ≤ _
      rw [h0]
      exact Nat.zero_le _
    · exact Nat.le_trans (Nat.le_of_eq heq) (lt_idBound ((hmem p.1 p.2).mp hp))
  · exact idBound_le fun n st hst => hbelow (n, st) ((hmem n st).mpr hst)

/-- **What `Open` has after loading a captured catalog**: the very tables, a
catalog in order, and a counter just past the highest id captured. -/
theorem load_capture (hwf : m.WF) (hidx : m.Indexed) :
    (loadSnapshot ord (some m.capture)).tables = m.tables ∧
      (loadSnapshot ord (some m.capture)).WF ∧
      (loadSnapshot ord (some m.capture)).nextTableID.toNat = m.capture.idBound ∧
      m.capture.idBound ≤ m.nextTableID.toNat := by
  obtain ⟨htables, hid⟩ := loadSnapshot_capture ord hwf hidx
  obtain ⟨hnext, hle⟩ := nextTableID_capture ord hwf
  have hview : (loadSnapshot ord (some m.capture)).view = m.view := by
    funext n
    rw [Engine.view, Engine.view, htables]
  refine ⟨htables, ⟨?_, ?_, ?_⟩, hnext, hle⟩
  · rw [hview]
    exact hwf.named
  · rw [hview]
    exact hid
  · intro n t ht
    rw [hview] at ht
    obtain ⟨t', ht', rfl⟩ := Engine.exists_of_view ht
    have hbound : (t'.snapshot n).id.toNat < m.capture.idBound :=
      lt_idBound (n := n) (by rw [get?_capture, ht']; rfl)
    rw [hnext]
    exact hbound

end Load

/-- `Open` on a log whose surviving records replay. -/
theorem openEngine_of_replay {g : Gob} {ord : MapOrder} {snap : Option SnapshotData} {file : Bytes}
    {r : Engine} (h : (loadSnapshot ord snap).replay (openWAL g file).1 = .ok r) :
    openEngine g ord snap file = .ok { r with wal := (openWAL g file).1 } := by
  unfold openEngine
  dsimp only
  rw [h]
  rfl

end Tsql.Storage
