import Tsql.Executor.ReadOnly
import Tsql.Storage.Writes

/-!
# The loops of the writing statements

INSERT, UPDATE and DELETE read first and then take their rows one by one, each
in a turn of its own: checks, then one write, or two where a row is moved. The
first error ends the loop, with the turns before it done.
-/

namespace Tsql.Executor

open Storage

variable {env : Env} {sc : JoinScope} {td : TableDef} {table name : String}

/-! ## The candidates -/

theorem filterCandidates_cons {where_ : Option Expr} {c : Int64 × Row}
    {rows out : List (Int64 × Row)} (h : filterCandidates env sc where_ (c :: rows) = .ok out) :
    ∃ b rest, filterCandidates env sc where_ rows = .ok rest ∧
      out = if b = true then c :: rest else rest := by
  unfold filterCandidates at h
  cases where_ <;>
  · obtain ⟨b, -, h⟩ := bind_eq_ok.mp h
    obtain ⟨rest, hrest, h⟩ := bind_eq_ok.mp h
    exact ⟨b, rest, hrest, (Except.ok.inj h).symm⟩

theorem filterCandidates_sublist {where_ : Option Expr} {rows out : List (Int64 × Row)}
    (h : filterCandidates env sc where_ rows = .ok out) : out.Sublist rows := by
  induction rows generalizing out with
  | nil =>
    cases h
    exact .slnil
  | cons c rows ih =>
    obtain ⟨b, rest, hrest, rfl⟩ := filterCandidates_cons h
    cases b with
    | true => exact (ih hrest).cons_cons c
    | false => exact (ih hrest).cons c

theorem lookupUnique_sound {s : Session} {w : Expr} {ci : Nat} {lit : Value} {c : Int64 × Row}
    (h : (lookupUnique env sc name w ci lit).eval s.reply = .ok (some c)) :
    s.reply (.get name c.1) = some c.2 := by
  unfold lookupUnique at h
  rw [Prog.eval_bind] at h
  obtain ⟨found, -, h⟩ := bind_eq_ok.mp h
  cases found with
  | none => cases h
  | some id =>
    dsimp only at h
    rw [Prog.eval_bind] at h
    obtain ⟨row, hrow, h⟩ := bind_eq_ok.mp h
    cases row with
    | none => cases h
    | some row =>
      dsimp only at h
      rw [Prog.eval_bind] at h
      obtain ⟨b, -, h⟩ := bind_eq_ok.mp h
      cases b with
      | false => cases h
      | true =>
        cases h
        exact Except.ok.inj hrow

/-- **The candidates are rows of the table**, each listed once. -/
theorem collectCandidates_sound {s : Session} {where_ : Option Expr} {cands : List (Int64 × Row)}
    (h : (collectCandidates env name td sc where_).eval s.reply = .ok cands) :
    (cands.map Prod.fst).Nodup ∧ ∀ c ∈ cands, s.reply (.get name c.1) = some c.2 := by
  have hscan : (scanCandidates env name sc where_).eval s.reply = .ok cands →
      (cands.map Prod.fst).Nodup ∧ ∀ c ∈ cands, s.reply (.get name c.1) = some c.2 := by
    intro h
    unfold scanCandidates at h
    rw [Prog.eval_bind] at h
    obtain ⟨r, hr, h⟩ := bind_eq_ok.mp h
    have hr : s.reply (.allRows name) = r := Except.ok.inj hr
    rw [Session.reply_allRows] at hr
    cases hv : s.view name with
    | none =>
      simp only [hv] at hr
      subst hr
      cases h
    | some v =>
      simp only [hv] at hr
      subst hr
      have hsub := filterCandidates_sublist ((Prog.eval_ofExcept _ _).symm.trans h)
      refine ⟨(GoMap.nodup_ascending v.rows).sublist (hsub.map Prod.fst), ?_⟩
      intro c hc
      rw [Session.reply_get hv]
      exact GoMap.mem_ascending.mp (hsub.subset hc)
  unfold collectCandidates at h
  split at h
  · exact hscan h
  · split at h
    · rw [Prog.eval_bind] at h
      obtain ⟨found, hfound, h⟩ := bind_eq_ok.mp h
      cases h
      cases found with
      | none => simp
      | some c =>
        refine ⟨List.nodup_singleton _, ?_⟩
        intro c' hc'
        simp only [Option.toList_some, List.mem_singleton] at hc'
        subst hc'
        exact lookupUnique_sound hfound
    · exact hscan h

/-! ## Before the loops -/

section

variable {o : (c : Accessor.Call) → Accessor.Reply c}

theorem selectInsert_ok {i : Insert} {idx : List Nat}
    (h : (selectInsert i).eval o = .ok (td, idx)) : (tableDef i.table).eval o = .ok td := by
  unfold selectInsert at h
  rw [Prog.eval_bind] at h
  obtain ⟨td', htd, h⟩ := bind_eq_ok.mp h
  rw [Prog.eval_bind] at h
  obtain ⟨idx', -, h⟩ := bind_eq_ok.mp h
  cases h
  exact htd

theorem selectUpdate_ok {u : Update} {sets : List (Nat × Expr)} {cands : List (Int64 × Row)}
    (h : (selectUpdate env u).eval o = .ok (td, sets, cands)) :
    (tableDef u.table).eval o = .ok td ∧ setTargets td u.sets = .ok sets ∧
      ∃ where_, (planWhere env (singleTableScope td) u.where_).eval o = .ok where_ ∧
        (collectCandidates env u.table td (singleTableScope td) where_).eval o = .ok cands := by
  unfold selectUpdate at h
  simp only [Prog.eval_bind] at h
  obtain ⟨td', htd, h⟩ := bind_eq_ok.mp h
  obtain ⟨sets', hsets, h⟩ := bind_eq_ok.mp h
  obtain ⟨-, -, h⟩ := bind_eq_ok.mp h
  obtain ⟨where_, hwhere, h⟩ := bind_eq_ok.mp h
  obtain ⟨cands', hcands, h⟩ := bind_eq_ok.mp h
  cases h
  exact ⟨htd, (Prog.eval_ofExcept _ _).symm.trans hsets, where_, hwhere, hcands⟩

theorem selectDelete_ok {d : Delete} {cands : List (Int64 × Row)}
    (h : (selectDelete env d).eval o = .ok cands) :
    ∃ td where_, (tableDef d.table).eval o = .ok td ∧
      (collectCandidates env d.table td (singleTableScope td) where_).eval o = .ok cands := by
  unfold selectDelete at h
  simp only [Prog.eval_bind] at h
  obtain ⟨td, htd, h⟩ := bind_eq_ok.mp h
  obtain ⟨where_, -, hcands⟩ := bind_eq_ok.mp h
  exact ⟨td, where_, htd, hcands⟩

end

/-! ## The loops -/

theorem insertRows_eq_each (idx : List Nat) (n : Nat) (rows : List (List Expr)) :
    insertRows env td table idx n rows =
      Prog.each (fun p => insertRow env td table idx p.2 p.1) (rows.zipIdx n) := by
  induction rows generalizing n with
  | nil => rfl
  | cons exprs rows ih =>
    rw [insertRows, ih]
    rfl

theorem updateRows_eq_each (sets : List (Nat × Expr)) (cands : List (Int64 × Row)) :
    updateRows env sc td table sets cands = Prog.each (updateRow env sc td table sets) cands := by
  induction cands with
  | nil => rfl
  | cons c cands ih =>
    rw [updateRows, ih]
    rfl

theorem deleteRows_eq_each (cands : List (Int64 × Row)) :
    deleteRows table cands = Prog.each (deleteRow table) cands := by
  induction cands with
  | nil => rfl
  | cons c cands ih =>
    rw [deleteRows, ih]
    rfl

end Tsql.Executor
