import Tsql.Storage.SessionWrites

/-!
# Referential integrity of tables

`Intact` is referential integrity as the executor's checks can keep it: a
foreign key that is not NULL is the ID of a row of its parent table, and a row
of a table that others refer to has its id in its primary key. Both together
are what a reader means by it (`Intact.integrity`).

Two lists of writes that keep it each for itself keep it together if they do
not CLASH: neither removes a row the other refers to (`Intact.merge`).
-/

namespace Tsql.Storage

/-- The position of the primary key. -/
def keyColumn (cols : List Column) : Option Nat := cols.findIdx? Column.primary

/-- The tables that some foreign key refers to. -/
def Tables.Referenced (v : Tables) (p : String) : Prop :=
  ∃ (n : String) (w : View) (ci : Nat) (c : Column),
    v n = some w ∧ w.cols[ci]? = some c ∧ c.fkTable = p

/-- A row of table `n` has a foreign key that refers to row `k` of table `p`. -/
def Tables.Refers (v : Tables) (n : String) (row : Row) (p : String) (k : Int64) : Prop :=
  p ≠ "" ∧ ∃ (w : View) (ci : Nat) (c : Column),
    v n = some w ∧ w.cols[ci]? = some c ∧ c.fkTable = p ∧ row[ci]? = some (.int k)

/-- The tables have this row. -/
def Tables.Has (v : Tables) (p : String) (k : Int64) : Prop :=
  ∃ w row, v p = some w ∧ w.rows.get? k = some row

/-- **Referential integrity.** -/
structure Tables.Intact (v : Tables) : Prop where
  parent : ∀ n w, v n = some w → ∀ id row, w.rows.get? id = some row →
    ∀ (ci : Nat) (c : Column), w.cols[ci]? = some c → c.fkTable ≠ "" →
      ∀ x : Value, row[ci]? = some x → x = .null ∨ ∃ k, x = .int k ∧ v.Has c.fkTable k
  key : ∀ p w, v p = some w → v.Referenced p → ∀ i, keyColumn w.cols = some i →
    ∀ (id : Int64) (row : Row), w.rows.get? id = some row → row[i]? = some (.int id)

/-- The same for a reader who knows nothing of row ids: every foreign key that
is not NULL is the value of the column it refers to in some row. -/
def Tables.Integrity (v : Tables) : Prop :=
  ∀ n w, v n = some w → ∀ id row, w.rows.get? id = some row →
    ∀ (ci : Nat) (c : Column), w.cols[ci]? = some c → c.fkTable ≠ "" →
      ∀ x : Value, row[ci]? = some x → x ≠ .null →
        ∃ pw i pid prow, v c.fkTable = some pw ∧
          (pw.cols.findIdx? fun pc => pc.name = c.fkCol) = some i ∧
          pw.rows.get? pid = some prow ∧ prow[i]? = some x

/-- The table has a row with this value as its primary key. -/
def Tables.HasKey (v : Tables) (p : String) (x : Value) : Prop :=
  ∃ pw ∈ v p, ∃ i ∈ keyColumn pw.cols, ∃ r ∈ pw.rows.ascending, r.2[i]? = some x

/-- Every foreign key that is not NULL is the primary key of a parent row. -/
def Tables.Parented (v : Tables) : Prop :=
  ∀ n w, v n = some w → ∀ id row, w.rows.get? id = some row →
    ∀ c ∈ w.cols.zipIdx, c.1.fkTable ≠ "" →
      ∀ x ∈ row[c.2]?, x ≠ .null → v.HasKey c.1.fkTable x

/-- Every primary key is the row id. -/
def Tables.Keyed (v : Tables) : Prop :=
  ∀ n w, v n = some w → ∀ i ∈ keyColumn w.cols,
    ∀ (id : Int64) (row : Row), w.rows.get? id = some row → row[i]? = some (.int id)

/-- Foreign keys as CREATE TABLE lets them be: to the primary key of another
table. -/
structure Tables.KeyRefs (v : Tables) : Prop where
  other : ∀ n w, v n = some w → ∀ c ∈ w.cols, c.fkTable ≠ "" → c.fkTable ≠ n
  primary : ∀ n w, v n = some w → ∀ c ∈ w.cols, c.fkTable ≠ "" → ∀ pw ∈ v c.fkTable,
    ∃ i ∈ keyColumn pw.cols, (pw.cols.findIdx? fun pc => pc.name = c.fkCol) = some i

/-- The foreign keys of a row refer to rows that are there. -/
def Tables.Backed (v : Tables) (cols : List Column) (row : Row) : Prop :=
  ∀ (ci : Nat) (c : Column), cols[ci]? = some c → c.fkTable ≠ "" →
    ∀ x : Value, row[ci]? = some x → x = .null ∨ ∃ k, x = .int k ∧ v.Has c.fkTable k

/-- One write removes a row that the other refers to. -/
def Tables.Clash (v : Tables) : Op → Op → Prop
  | ⟨p, .delete k⟩, ⟨n, .put _ row⟩ => v.Refers n row p k
  | ⟨n, .put _ row⟩, ⟨p, .delete k⟩ => v.Refers n row p k
  | _, _ => False

namespace Tables

variable {v : Tables} {ops : List Op}

theorem Intact.integrity (h : v.Intact) (hrefs : v.KeyRefs) : v.Integrity := by
  intro n w hw id row hrow ci c hc hfk x hx hnull
  rcases h.parent n w hw id row hrow ci c hc hfk x hx with hx | ⟨k, rfl, pw, prow, hpw, hprow⟩
  · exact absurd hx hnull
  · obtain ⟨i, hi, hcol⟩ := hrefs.primary n w hw c (List.mem_of_getElem? hc) hfk pw hpw
    exact ⟨pw, i, k, prow, hpw, hcol, hprow, h.key _ pw hpw ⟨n, w, ci, c, hw, hc, rfl⟩ i hi k prow hprow⟩

/-! ## Writes leave the columns -/

theorem referenced_apply {p : String} : (v.apply ops).Referenced p ↔ v.Referenced p := by
  constructor
  · intro ⟨n, w, ci, c, hw, hc, hp⟩
    obtain ⟨w0, hw0, hcols, -⟩ := apply_eq_some hw
    exact ⟨n, w0, ci, c, hw0, hcols ▸ hc, hp⟩
  · intro ⟨n, w, ci, c, hw, hc, hp⟩
    obtain ⟨w', hw', hcols, -⟩ := apply_of_eq_some hw ops
    exact ⟨n, w', ci, c, hw', hcols ▸ hc, hp⟩

theorem KeyRefs.congr {v' : Tables} (h : v.KeyRefs)
    (hcols : ∀ n, (v' n).map View.cols = (v n).map View.cols) : v'.KeyRefs := by
  have hback : ∀ {n w'}, v' n = some w' → ∃ w, v n = some w ∧ w'.cols = w.cols := by
    intro n w' hw'
    have hn := hcols n
    rw [hw'] at hn
    obtain ⟨w, hw, heq⟩ := Option.map_eq_some_iff.mp hn.symm
    exact ⟨w, hw, heq.symm⟩
  constructor
  · intro n w' hw' c hc hfk
    obtain ⟨w, hw, heq⟩ := hback hw'
    exact h.other n w hw c (heq ▸ hc) hfk
  · intro n w' hw' c hc hfk pw' hpw'
    obtain ⟨w, hw, heq⟩ := hback hw'
    obtain ⟨pw, hpw, hpeq⟩ := hback hpw'
    rw [hpeq]
    exact h.primary n w hw c (heq ▸ hc) hfk pw hpw

theorem KeyRefs.apply (h : v.KeyRefs) : (v.apply ops).KeyRefs := by
  refine h.congr fun n => ?_
  rw [Tables.apply, Option.map_map]
  rfl

/-- A row after the writes: written by them, or there before. -/
theorem get?_apply {n : String} {w : View} {id : Int64} {row : Row} (hw : v.apply ops n = some w)
    (hrow : w.rows.get? id = some row) :
    lastWrite n id ops = some (some row) ∨
      ∃ w0, v n = some w0 ∧ w0.rows.get? id = some row ∧ lastWrite n id ops = none := by
  obtain ⟨w0, hw0, -, hget⟩ := apply_eq_some hw
  rw [hget] at hrow
  cases hl : lastWrite n id ops with
  | none =>
    rw [hl] at hrow
    exact .inr ⟨w0, hw0, hrow, rfl⟩
  | some r =>
    rw [hl] at hrow
    exact .inl (congrArg some hrow)

/-- A row is there after the writes unless they delete it last. -/
theorem Has.apply {p : String} {k : Int64} (h : v.Has p k) (hdel : lastWrite p k ops ≠ some none) :
    (v.apply ops).Has p k := by
  obtain ⟨w, row, hw, hrow⟩ := h
  obtain ⟨w', hw', -, hget⟩ := apply_of_eq_some hw ops
  cases hl : lastWrite p k ops with
  | none => exact ⟨w', row, hw', by rw [hget, hl]; exact hrow⟩
  | some r =>
    cases r with
    | none => exact absurd hl hdel
    | some row' => exact ⟨w', row', hw', by rw [hget, hl]; rfl⟩

/-- What is there after the writes was put there, or was there before. -/
theorem Has.of_apply {p : String} {k : Int64} (h : (v.apply ops).Has p k) :
    lastWrite p k ops ≠ some none ∧ (lastWrite p k ops = none → v.Has p k) := by
  obtain ⟨w, row, hw, hrow⟩ := h
  rcases get?_apply hw hrow with hput | ⟨w0, hw0, hrow0, hnone⟩
  · rw [hput]
    exact ⟨fun h => (nomatch h), fun h => (nomatch h)⟩
  · rw [hnone]
    exact ⟨fun h => (nomatch h), fun _ => ⟨w0, row, hw0, hrow0⟩⟩

/-! ## Two lists of writes -/

/-- **Writes that do not clash** keep integrity together if they keep it each
for itself. -/
theorem Intact.merge {ops' : List Op} (h : (v.apply ops).Intact) (h' : (v.apply ops').Intact)
    (hno : ∀ o ∈ ops, ∀ o' ∈ ops', ¬ v.Clash o o') : ((v.apply ops).apply ops').Intact := by
  constructor
  · intro n w hw id row hrow ci c hc hfk x hx
    obtain ⟨w1, hw1, hcols1, -⟩ := apply_eq_some hw
    obtain ⟨w0, hw0, hcols0, -⟩ := apply_eq_some hw1
    obtain ⟨w2, hw2, hcols2, hget2⟩ := apply_of_eq_some hw0 ops'
    have hrefers : ∀ k, x = .int k → v.Refers n row c.fkTable k := fun k hk =>
      ⟨hfk, w0, ci, c, hw0, by rw [← hcols0, ← hcols1]; exact hc, rfl, hk ▸ hx⟩
    rcases get?_apply hw hrow with hput | ⟨w1', hw1', hrow1, hnone⟩
    · -- the second list has put the row, over a parent that it has seen
      have hrow2 : w2.rows.get? id = some row := by
        rw [hget2, hput]
        rfl
      have hc2 : w2.cols[ci]? = some c := by rw [hcols2, ← hcols0, ← hcols1]; exact hc
      rcases h'.parent n w2 hw2 id row hrow2 ci c hc2 hfk x hx with hnull | ⟨k, hk, hhas⟩
      · exact .inl hnull
      · refine .inr ⟨k, hk, ?_⟩
        obtain ⟨hkept, hbefore⟩ := hhas.of_apply
        cases hl : lastWrite c.fkTable k ops' with
        | some r =>
          obtain ⟨pw, prow, hpw, hprow⟩ := hhas
          obtain ⟨pw0, hpw0, -, -⟩ := apply_eq_some hpw
          obtain ⟨pw1, hpw1, -, -⟩ := apply_of_eq_some hpw0 ops
          obtain ⟨pw', hpw', -, hget'⟩ := apply_of_eq_some hpw1 ops'
          cases r with
          | none => exact absurd hl hkept
          | some prow' => exact ⟨pw', prow', hpw', by rw [hget', hl]; rfl⟩
        | none =>
          refine ((hbefore hl).apply ?_).apply hkept
          intro hdel
          exact hno _ (mem_of_lastWrite_delete hdel) _ (mem_of_lastWrite_put hput)
            (hrefers k hk)
    · -- the row is there after the first list, and so is its parent
      rw [hw1] at hw1'
      cases hw1'
      have hc1 : w1.cols[ci]? = some c := by rw [← hcols1]; exact hc
      rcases h.parent n w1 hw1 id row hrow1 ci c hc1 hfk x hx with hnull | ⟨k, hk, hhas⟩
      · exact .inl hnull
      · refine .inr ⟨k, hk, hhas.apply ?_⟩
        intro hdel
        rcases get?_apply hw1 hrow1 with hput | ⟨w0', hw0', hrow0, -⟩
        · exact hno _ (mem_of_lastWrite_put hput) _ (mem_of_lastWrite_delete hdel)
            (hrefers k hk)
        · -- the row was there from the start, so the second list has kept its parent
          rw [hw0] at hw0'
          cases hw0'
          have hrow2 : w2.rows.get? id = some row := by
            rw [hget2, hnone]
            exact hrow0
          have hc2 : w2.cols[ci]? = some c := by rw [hcols2, ← hcols0]; exact hc1
          rcases h'.parent n w2 hw2 id row hrow2 ci c hc2 hfk x hx with hnull | ⟨k', hk', hhas'⟩
          · rw [hk] at hnull
            cases hnull
          · rw [hk] at hk'
            cases hk'
            exact hhas'.of_apply.1 hdel
  · intro p w hw href i hi id row hrow
    obtain ⟨w1, hw1, hcols1, -⟩ := apply_eq_some hw
    obtain ⟨w0, hw0, hcols0, -⟩ := apply_eq_some hw1
    rw [referenced_apply] at href
    rcases get?_apply hw hrow with hput | ⟨w1', hw1', hrow1, -⟩
    · obtain ⟨w2, hw2, hcols2, hget2⟩ := apply_of_eq_some hw0 ops'
      refine h'.key p w2 hw2 (referenced_apply.mpr (referenced_apply.mp href)) i ?_ id row ?_
      · rw [hcols2, ← hcols0, ← hcols1]
        exact hi
      · rw [hget2, hput]
        rfl
    · rw [hw1] at hw1'
      cases hw1'
      rw [hcols1] at hi
      exact h.key p w1 hw1 href i hi id row hrow1

end Tables

/-! ## On the views of a session these can be computed -/

namespace Session

variable {s : Session}

theorem forall_view {P : String → View → Prop} :
    (∀ n w, s.view n = some w → P n w) ↔
      ∀ p ∈ s.1.tables.ascending, P p.1 ⟨p.2.cols, (opsOn p.1 s.pending).foldl overlay p.2.rows⟩ := by
  have hlist := GoMap.forall_get? (m := s.1.tables)
    (P := fun n (tb : Table) => P n ⟨tb.cols, (opsOn n s.pending).foldl overlay tb.rows⟩)
  refine Iff.trans ?_ hlist
  constructor
  · intro h n tb htb
    exact h n _ (by rw [view, htb]; rfl)
  · intro h n w hw
    obtain ⟨tb, htb, rfl⟩ := Option.map_eq_some_iff.mp hw
    exact h n tb htb

instance (P : String → View → Prop) [∀ n w, Decidable (P n w)] :
    Decidable (∀ n w, s.view n = some w → P n w) :=
  decidable_of_iff' _ forall_view

end Session

instance {m : GoMap Int64 Row} (P : Int64 → Row → Prop) [∀ id row, Decidable (P id row)] :
    Decidable (∀ id row, m.get? id = some row → P id row) :=
  decidable_of_iff' _ GoMap.forall_get?

instance (v : Tables) (n p : String) (row : Row) (k : Int64) : Decidable (v.Refers n row p k) :=
  decidable_of_iff (p ≠ "" ∧ ∃ w ∈ v n, ∃ c ∈ w.cols.zipIdx, c.1.fkTable = p ∧
      row[c.2]? = some (.int k)) (by
    refine and_congr_right fun _ => ⟨?_, ?_⟩
    · intro ⟨w, hw, c, hc, hfk, hcell⟩
      exact ⟨w, c.2, c.1, hw, List.mk_mem_zipIdx_iff_getElem?.mp hc, hfk, hcell⟩
    · intro ⟨w, ci, c, hw, hc, hfk, hcell⟩
      exact ⟨w, hw, (c, ci), List.mk_mem_zipIdx_iff_getElem?.mpr hc, hfk, hcell⟩)

instance (v : Tables) : ∀ o o', Decidable (v.Clash o o')
  | ⟨p, .delete k⟩, ⟨n, .put _ row⟩ => inferInstanceAs (Decidable (v.Refers n row p k))
  | ⟨n, .put _ row⟩, ⟨p, .delete k⟩ => inferInstanceAs (Decidable (v.Refers n row p k))
  | ⟨_, .put _ _⟩, ⟨_, .put _ _⟩ => isFalse id
  | ⟨_, .delete _⟩, ⟨_, .delete _⟩ => isFalse id

instance (s : Session) (p : String) : Decidable (Tables.Referenced s.view p) :=
  decidable_of_iff (¬ ∀ n w, s.view n = some w → ∀ c ∈ w.cols, c.fkTable ≠ p) (by
    constructor
    · intro h
      by_contra hno
      refine h fun n w hw c hc hfk => hno ?_
      obtain ⟨ci, hci⟩ := List.getElem?_of_mem hc
      exact ⟨n, w, ci, c, hw, hci, hfk⟩
    · intro ⟨n, w, ci, c, hw, hc, hfk⟩ hno
      exact hno n w hw c (List.mem_of_getElem? hc) hfk)

instance (v : Tables) (p : String) (x : Value) : Decidable (v.HasKey p x) :=
  inferInstanceAs (Decidable (∃ pw ∈ v p, ∃ i ∈ keyColumn pw.cols, ∃ r ∈ pw.rows.ascending,
    r.2[i]? = some x))

instance (s : Session) : Decidable (Tables.Parented s.view) :=
  inferInstanceAs (Decidable (∀ n w, s.view n = some w → ∀ id row, w.rows.get? id = some row →
    ∀ c ∈ w.cols.zipIdx, c.1.fkTable ≠ "" →
      ∀ x ∈ row[c.2]?, x ≠ .null → Tables.HasKey s.view c.1.fkTable x))

instance (s : Session) : Decidable (Tables.Keyed s.view) :=
  inferInstanceAs (Decidable (∀ n w, s.view n = some w → ∀ i ∈ keyColumn w.cols,
    ∀ (id : Int64) (row : Row), w.rows.get? id = some row → row[i]? = some (.int id)))

instance (s : Session) : Decidable (Tables.KeyRefs s.view) :=
  decidable_of_iff
    ((∀ n w, s.view n = some w → ∀ c ∈ w.cols, c.fkTable ≠ "" → c.fkTable ≠ n) ∧
      ∀ n w, s.view n = some w → ∀ c ∈ w.cols, c.fkTable ≠ "" → ∀ pw ∈ s.view c.fkTable,
        ∃ i ∈ keyColumn pw.cols, (pw.cols.findIdx? fun pc => pc.name = c.fkCol) = some i)
    ⟨fun h => ⟨h.1, h.2⟩, fun h => ⟨h.other, h.primary⟩⟩

/-- The table has a row with this value in this column. -/
def Tables.HasValue (v : Tables) (p col : String) (x : Value) : Prop :=
  ∃ pw ∈ v p, ∃ i ∈ pw.cols.findIdx? (fun pc => pc.name = col),
    ∃ r ∈ pw.rows.ascending, r.2[i]? = some x

instance (v : Tables) (p col : String) (x : Value) : Decidable (v.HasValue p col x) :=
  inferInstanceAs (Decidable (∃ pw ∈ v p, ∃ i ∈ pw.cols.findIdx? (fun pc : Column => pc.name = col),
    ∃ r ∈ pw.rows.ascending, r.2[i]? = some x))

instance (s : Session) : Decidable (Tables.Integrity s.view) :=
  decidable_of_iff (∀ n w, s.view n = some w → ∀ id row, w.rows.get? id = some row →
      ∀ c ∈ w.cols.zipIdx, c.1.fkTable ≠ "" → ∀ x ∈ row[c.2]?, x ≠ .null →
        Tables.HasValue s.view c.1.fkTable c.1.fkCol x) (by
    constructor
    · intro h n w hw id row hrow ci c hc hfk x hx hnull
      obtain ⟨pw, hpw, i, hi, r, hr, hcell⟩ :=
        h n w hw id row hrow (c, ci) (List.mk_mem_zipIdx_iff_getElem?.mpr hc) hfk x hx hnull
      exact ⟨pw, i, r.1, r.2, hpw, hi, GoMap.mem_ascending.mp hr, hcell⟩
    · intro h n w hw id row hrow c hc hfk x hx hnull
      obtain ⟨pw, i, pid, prow, hpw, hi, hprow, hcell⟩ :=
        h n w hw id row hrow c.2 c.1 (List.mk_mem_zipIdx_iff_getElem?.mp hc) hfk x hx hnull
      exact ⟨pw, hpw, i, hi, (pid, prow), GoMap.mem_ascending.mpr hprow, hcell⟩)

end Tsql.Storage
