import Tsql.Storage.System

/-!
# UNIQUE columns

Two results about the same check at two grains. With every call one step,
the index of every table is exact in every reachable state, whatever the
sessions do and whether the calls succeed or fail (`unique_index_exact`).
With `Commit` cut where the code cuts it, into a validation under the
transaction's own lock and a `commitTxn` under `commitMu`, two transactions
can validate before either applies, and the guarantee is lost; it comes back
exactly for the runs in which a validation still holds when its `commitTxn`
gets to run (`unique_of_valid_commits`).
-/

namespace Tsql.Storage

namespace Engine

variable {e e' : Engine}

theorem exact_newTable (id : UInt32) (name : String) (cols : List Column) :
    (newTable id name cols).Exact :=
  Table.exact_initUniq _ rfl

/-- **Every call keeps every index exact.** -/
theorem Did.indexed {names : List String} (h : Did names e e') (hi : e.Indexed) : e'.Indexed := by
  intro n t ht
  cases h with
  | quiet q =>
    have view := q.view
    rw [view] at ht
    exact hi n t ht
  | create tx name cols _ _ _ _ view =>
    rw [view, Function.update_apply] at ht
    split at ht
    · cases ht
      exact exact_newTable _ name cols
    · exact hi n t ht
  | drop tx name t0 _ _ _ _ view =>
    rw [view, Function.update_apply] at ht
    split at ht
    · cases ht
    · exact hi n t ht
  | write begins tx ops _ w =>
    obtain ⟨-, fits, -, wrote, right⟩ := w
    rw [wrote.view, Option.map_eq_some_iff] at ht
    obtain ⟨t0, ht0, rfl⟩ := ht
    exact (hi n t0 ht0).applyOps (fits n t0 ht0) (right hi n t0 ht0)

theorem indexed_empty : ({} : Engine).Indexed := by
  intro n t ht
  simp [view] at ht

end Engine

theorem Sys.indexed_exec {s : Sys} (c : Call) (hi : s.eng.Indexed) : (s.exec c).eng.Indexed := by
  by_cases hc : c = .checkpoint
  · subst hc
    exact hi
  · exact (s.did_exec hc).indexed hi

theorem Sys.indexed_run (calls : List Call) : (Run.run Sys.exec {} calls).eng.Indexed :=
  Run.invariant (I := fun s : Sys => s.eng.Indexed) (fun _ c hi => indexed_exec c hi) calls
    Engine.indexed_empty

/-- Row `id` holds the value `v`, not NULL, in column `ci`. -/
def Table.HasValue (t : Table) (ci : Nat) (id : Int64) (v : Value) : Prop :=
  ∃ row, t.rows.get? id = some row ∧ row[ci]? = some v ∧ v.isNull = false

theorem Table.holds_of_hasValue {t : Table} {ci : Nat} {id : Int64} {v : Value}
    (h : t.HasValue ci id v) : t.Holds id ci (uniqKey v) := by
  obtain ⟨row, hrow, hv, hn⟩ := h
  exact ⟨row, hrow, keyAt_eq_some.mpr ⟨v, hv, hn, rfl⟩⟩

theorem Table.hasValue_of_holds {t : Table} {ci : Nat} {id : Int64} {k : UniqKey}
    (h : t.Holds id ci k) : ∃ v, uniqKey v = k ∧ t.HasValue ci id v := by
  obtain ⟨row, hrow, hk⟩ := h
  obtain ⟨v, hv, hn, hkey⟩ := keyAt_eq_some.mp hk
  exact ⟨v, hkey, row, hrow, hv, hn⟩

/-- No UNIQUE column of the table holds a value twice. -/
def Table.Distinct (t : Table) : Prop :=
  ∀ ci ∈ uniqCols t.cols, ∀ id id' v, t.HasValue ci id v → t.HasValue ci id' v → id = id'

theorem Table.Exact.distinct {t : Table} (h : t.Exact) : t.Distinct :=
  fun _ hci _ _ _ hv hv' => h.unique hci (holds_of_hasValue hv) (holds_of_hasValue hv')

/-- **The UNIQUE index is exact in every reachable state.** After any calls
by any sessions, whether they succeeded or failed: no UNIQUE column holds a
value twice, its index maps the key of a value to a row id exactly when that
row holds that value, and rebuilding the index from the rows, in any order,
gives the index that was maintained. -/
theorem unique_index_exact (calls : List Call) (name : String) (t : Table)
    (ht : (Run.run Sys.exec {} calls).eng.tables.get? name = some t) :
    t.Distinct ∧
      (∀ ci ∈ uniqCols t.cols, ∀ k id,
        t.index ci k = some id ↔ ∃ v, uniqKey v = k ∧ t.HasValue ci id v) ∧
      ∀ ord, (t.buildUniqLocked ord).uniq = t.uniq := by
  have hexact : t.Exact :=
    Table.exact_data.mp (Sys.indexed_run calls name t.data (Engine.view_eq_some ht))
  refine ⟨hexact.distinct, ?_, hexact.buildUniqLocked_uniq⟩
  intro ci hci k id
  constructor
  · intro hi
    exact Table.hasValue_of_holds (hexact.sound ci k id hi)
  · rintro ⟨v, rfl, hv⟩
    exact hexact.complete ci hci id _ (Table.holds_of_hasValue hv)

/-- Two sessions and an autocommit writer on one table. The second commit
finds its value taken, and fails. -/
def twoSessions : List Call :=
  [.createTable "a" uniqueCol, .begin 1, .begin 2, .txnPut 1 "a" 7 [.int 5], .txnPut 2 "a" 8 [.int 5],
   .put "a" 3 [.int 4], .commit 1, .commit 2]

theorem unique_index_exact_twoSessions :
    ∃ t, (Run.run Sys.exec {} twoSessions).eng.tables.get? "a" = some t ∧
      t.Distinct ∧ ∀ ord, (t.buildUniqLocked ord).uniq = t.uniq := by
  have hsome : ((Run.run Sys.exec {} twoSessions).eng.tables.get? "a").isSome = true := by
    decide +kernel
  obtain ⟨t, ht⟩ := Option.isSome_iff_exists.mp hsome
  obtain ⟨hdistinct, -, hbuild⟩ := unique_index_exact twoSessions "a" t ht
  exact ⟨t, ht, hdistinct, hbuild⟩

/-! ## Commit in two steps -/

/-- The machine with `Commit` cut in two: `validated` holds the transactions
that have passed validation and wait for `commitMu`, by transaction id.
`clobbered` is a ghost: the rows that were there, committed by someone else,
when a transaction that had inserted them under the same id was applied. -/
structure Split where
  sys : Sys := {}
  validated : GoMap UInt64 Txn := ∅
  clobbered : List (String × Int64) := []
  deriving DecidableEq

/-- A call, of which `commit` runs the validation only, or a `commitTxn`. -/
inductive SplitStep where
  | call (c : Call)
  | commitTxn (tx : UInt64)
  deriving DecidableEq

namespace Split

/-- The first half of `Commit`: validate, take the buffer, mark it done. -/
def validate (s : Split) (h : Nat) : Split :=
  match s.sys.txns.get? h with
  | none => s
  | some t =>
    if t.done then s
    else
      match t.validate .ascending s.sys.eng with
      | .error _ => s
      | .ok () =>
        { s with
          sys := { s.sys with txns := s.sys.txns.set h { t with ops := [], done := true } }
          validated := if t.ops = [] then s.validated else s.validated.set t.id t }

/-- The second half of `Commit`. -/
def commitTxn (s : Split) (tx : UInt64) : Split :=
  match s.validated.get? tx with
  | none => s
  | some t =>
    { s with
      sys := { s.sys with eng := (s.sys.eng.commitTxn t.id t.ops).1 }
      validated := s.validated.delete tx
      clobbered := s.clobbered ++ t.inserts.filter fun p => (s.sys.eng.get p.1 p.2).isSome }

/-- One step. -/
def step (s : Split) : SplitStep → Split
  | .call (.commit h) => s.validate h
  | .call c => { s with sys := s.sys.exec c }
  | .commitTxn tx => s.commitTxn tx

/-- A transaction's validation still holds when its `commitTxn` runs. -/
def StillValid (s : Split) : SplitStep → Prop
  | .call _ => True
  | .commitTxn tx => ∀ t ∈ s.validated.get? tx, t.validate .ascending s.sys.eng = .ok ()

instance (s : Split) : ∀ a, Decidable (s.StillValid a)
  | .call _ => isTrue trivial
  | .commitTxn tx =>
    inferInstanceAs (Decidable (∀ t ∈ s.validated.get? tx, t.validate .ascending s.sys.eng = .ok ()))

/-- What the two halves are to guarantee together: no value twice in a UNIQUE
column, and no committed row of another session overwritten by an insert. -/
def Safe (s : Split) : Prop :=
  (∀ name t, s.sys.eng.tables.get? name = some t → t.Distinct) ∧ s.clobbered = []

/-- The state behind `Safe`. -/
structure Inv (s : Split) : Prop where
  indexed : s.sys.eng.Indexed
  clobbered : s.clobbered = []

/-- Validating leaves the engine and its directory alone. -/
theorem validate_frame (s : Split) (h : Nat) :
    (s.validate h).sys.eng = s.sys.eng ∧ (s.validate h).sys.disk = s.sys.disk ∧
      (s.validate h).clobbered = s.clobbered := by
  unfold validate
  cases s.sys.txns.get? h with
  | none => exact ⟨rfl, rfl, rfl⟩
  | some t =>
    dsimp only
    split
    · exact ⟨rfl, rfl, rfl⟩
    · cases t.validate .ascending s.sys.eng with
      | error err => exact ⟨rfl, rfl, rfl⟩
      | ok u => exact ⟨rfl, rfl, rfl⟩

theorem step_call (s : Split) {c : Call} (hc : ∀ h, c ≠ .commit h) :
    s.step (.call c) = { s with sys := s.sys.exec c } := by
  cases c with
  | commit h => exact absurd rfl (hc h)
  | _ => rfl

/-- What the validation half does: nothing, or it hands over a buffer that is
in order for the tables as they are. -/
theorem validate_cases (s : Split) (h : Nat) :
    s.validate h = s ∨ ∃ t, t.validate .ascending s.sys.eng = .ok () ∧
      ∀ tx t', (s.validate h).validated.get? tx = some t' →
        t' = t ∨ s.validated.get? tx = some t' := by
  unfold validate
  cases s.sys.txns.get? h with
  | none => exact .inl rfl
  | some t =>
    dsimp only
    split
    · exact .inl rfl
    · cases hv : t.validate .ascending s.sys.eng with
      | error err => exact .inl rfl
      | ok u =>
        refine .inr ⟨t, hv, ?_⟩
        intro tx t' ht'
        dsimp only at ht'
        split at ht'
        · exact .inr ht'
        · rw [GoMap.get?_set] at ht'
          split at ht'
          · exact .inl (Option.some.inj ht').symm
          · exact .inr ht'

/-- Every validated buffer is in order. -/
def Ready (s : Split) : Prop :=
  ∀ tx t, s.validated.get? tx = some t → s.sys.eng.Live t.ops ∧ s.sys.eng.Fits t.ops

theorem Ready.validate {s : Split} (hs : s.Ready) (h : Nat) : (s.validate h).Ready := by
  rcases s.validate_cases h with heq | ⟨t, hv, hin⟩
  · rw [heq]
    exact hs
  · intro tx t' ht'
    rw [(s.validate_frame h).1]
    rcases hin tx t' ht' with rfl | hold
    · exact ⟨Engine.live_of_validate hv, Engine.fits_of_validate hv⟩
    · exact hs tx t' hold

theorem Ready.mono {s s' : Split} (hs : s.Ready)
    (hval : ∀ tx t, s'.validated.get? tx = some t → s.validated.get? tx = some t)
    (hlive : ∀ ops, s.sys.eng.Live ops → s'.sys.eng.Live ops)
    (hfits : ∀ ops, s.sys.eng.Fits ops → s'.sys.eng.Fits ops) : s'.Ready :=
  fun tx t ht => ⟨hlive _ (hs tx t (hval tx t ht)).1, hfits _ (hs tx t (hval tx t ht)).2⟩

theorem Inv.commitTxn {s : Split} (hs : s.Inv) {tx : UInt64}
    (hc : s.StillValid (.commitTxn tx)) : (s.commitTxn tx).Inv := by
  unfold Split.commitTxn
  cases ht : s.validated.get? tx with
  | none => exact hs
  | some t =>
    have hv := hc t ht
    refine ⟨(Engine.did_commitTxn hv).indexed hs.indexed, ?_⟩
    -- validation has just found every inserted id free
    have hfree : t.inserts.filter (fun p => (s.sys.eng.get p.1 p.2).isSome) = [] := by
      rw [List.filter_eq_nil_iff]
      intro p hp
      rw [(Txn.validate_ok_iff.mp hv).2.2 p hp]
      simp
    show s.clobbered ++ _ = []
    rw [hs.clobbered, hfree]
    rfl

theorem Inv.step {s : Split} (a : SplitStep) (hs : s.Inv) (hc : s.StillValid a) :
    (s.step a).Inv := by
  cases a with
  | commitTxn tx => exact hs.commitTxn hc
  | call c =>
    by_cases hcommit : ∃ h, c = .commit h
    · obtain ⟨h, rfl⟩ := hcommit
      obtain ⟨heng, -, hclob⟩ := s.validate_frame h
      refine ⟨?_, hclob.trans hs.clobbered⟩
      show (s.validate h).sys.eng.Indexed
      rw [heng]
      exact hs.indexed
    · rw [s.step_call fun h hc => hcommit ⟨h, hc⟩]
      exact ⟨Sys.indexed_exec c hs.indexed, hs.clobbered⟩

theorem Inv.safe {s : Split} (hs : s.Inv) : s.Safe := by
  refine ⟨fun name t ht => ?_, hs.clobbered⟩
  exact (Table.exact_data.mp (hs.indexed name t.data (Engine.view_eq_some ht))).distinct

end Split

/-- Three sessions validate before any of them applies. -/
def threeCommits : List SplitStep :=
  [.call (.createTable "a" uniqueCol), .call (.begin 1), .call (.begin 2), .call (.begin 3),
   .call (.txnPut 1 "a" 7 [.int 5]), .call (.txnPut 2 "a" 7 [.int 6]),
   .call (.txnPut 3 "a" 8 [.int 6]), .call (.commit 1), .call (.commit 2), .call (.commit 3),
   .commitTxn 2, .commitTxn 3, .commitTxn 4]

/-- **All three commits go through.** The second overwrites the row the first
inserted under the same id, and the third stores its value a second time. -/
theorem threeCommits_unsafe :
    ∃ t id id', (Run.run Split.step {} threeCommits).sys.eng.tables.get? "a" = some t ∧
      t.HasValue 0 id (.int 6) ∧ t.HasValue 0 id' (.int 6) ∧ id ≠ id' ∧
      (Run.run Split.step {} threeCommits).clobbered = [("a", 7)] := by
  have hrun : ((Run.run Split.step {} threeCommits).sys.eng.tables.get? "a").map
      (fun t => (t.rows.get? 7, t.rows.get? 8)) = some (some [.int 6], some [.int 6]) := by
    decide +kernel
  obtain ⟨t, ht, hrows⟩ := Option.map_eq_some_iff.mp hrun
  simp only [Prod.mk.injEq] at hrows
  exact ⟨t, 7, 8, ht, ⟨_, hrows.1, rfl, rfl⟩, ⟨_, hrows.2, rfl, rfl⟩, by decide +kernel,
    by decide +kernel⟩

/-- **UNIQUE and primary keys survive concurrent commits** in every run whose
validations still hold when their `commitTxn` runs. -/
theorem unique_of_valid_commits (steps : List SplitStep)
    (h : Run.Along Split.step Split.StillValid {} steps) :
    (Run.run Split.step {} steps).Safe :=
  (h.invariant (I := Split.Inv) (fun _ a hs hc => hs.step a hc)
    ⟨Engine.indexed_empty, rfl⟩).safe

/-- Two sessions whose commits do not meet: both halves of one, then of the
other, which fails its validation. -/
def commitsApart : List SplitStep :=
  [.call (.createTable "a" uniqueCol), .call (.begin 1), .call (.begin 2),
   .call (.txnPut 1 "a" 7 [.int 5]), .call (.txnPut 2 "a" 8 [.int 5]),
   .call (.commit 1), .commitTxn 2, .call (.put "a" 3 [.int 4]), .call (.commit 2), .commitTxn 3]

theorem unique_of_valid_commits_apart : (Run.run Split.step {} commitsApart).Safe :=
  unique_of_valid_commits commitsApart (by decide +kernel)

end Tsql.Storage
