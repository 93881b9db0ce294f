import Tsql.Executor.Dml
import Tsql.Storage.Session

/-!
# The tables a query asks for

A query reads the catalog, and then only tables under the names it mentions
(`asks_execSelect`). A derived table that came out empty is read under its
alias, so an alias is among these names.
-/

namespace Tsql.Executor

open Storage

/-! ## The tables a query names -/

mutual

/-- The names under which a SELECT may ask for a table: those of its stored
FROM items, and the aliases of its derived ones. -/
def mentions : Select → List String
  | ⟨first, joins, _, _, where_, _, having, _, _⟩ =>
    refMentions first ++ joinMentions joins ++ optionMentions where_ ++ optionMentions having

def refMentions : TableRef → List String
  | ⟨_, alias_, some sub⟩ => alias_ :: mentions sub
  | ⟨table, _, none⟩ => [table]

def joinMentions : List Join → List String
  | [] => []
  | ⟨_, ref, on⟩ :: joins => refMentions ref ++ exprMentions on ++ joinMentions joins

def optionMentions : Option Expr → List String
  | none => []
  | some e => exprMentions e

def exprMentions : Expr → List String
  | .inSub _ sub _ => mentions sub
  | .cmp _ l r | .and l r | .or l r | .binary _ l r => exprMentions l ++ exprMentions r
  | .not x | .isNull x _ | .inList x _ _ => exprMentions x
  | .lit _ | .colRef _ _ | .func _ _ _ => []

end

/-! ## What it asks for -/

/-- The table a call is about. -/
def tableOf : AccessorCall → Option String
  | .catalog => none
  | .allRows n | .get n _ | .uniqueGet n _ _ | .put n _ _ | .putAuto n _ _ | .update n _ _
  | .delete n _ => some n

/-- The program only reads, and no table but those of `N`; its result
satisfies `Q`. -/
def Asks {α : Type} (N : String → Prop) (Q : α → Prop) (p : Exec α) : Prop :=
  p.CallsThen (fun c => AccessorCall.reads c = true ∧ ∀ n ∈ tableOf c, N n) Q

/-- The items of a scope go by names of `N`. -/
def Known (N : String → Prop) (sc : JoinScope) : Prop := ∀ t ∈ sc, N t.td.name

namespace Asks

variable {α β : Type} {N : String → Prop} {Q : α → Prop} {R : β → Prop}

theorem ret {a : α} (h : Q a) : Asks N Q (.ret a : Exec α) := h

theorem lift {x : Except Failure α} (h : ∀ a, x = .ok a → Q a) : Asks N Q (lift x) :=
  Prog.CallsThen.ofExcept h

theorem any (x : Except Failure α) : Asks N (fun _ => True) (Executor.lift x) :=
  .lift fun _ _ => trivial

theorem bind {p : Exec α} {f : α → Exec β} (hp : Asks N Q p) (hf : ∀ a, Q a → Asks N R (f a)) :
    Asks N R (p >>= f) :=
  Prog.CallsThen.bind hp hf

end Asks

section

variable {N : String → Prop} {sc : JoinScope}

theorem asks_allRows {name : String} (h : N name) : Asks N (fun _ => True) (allRows name) :=
  ⟨⟨rfl, by rintro n ⟨⟩; exact h⟩, fun _ => trivial⟩

theorem asks_get {name : String} (h : N name) (id : Int64) :
    Asks N (fun _ => True) (get name id) :=
  ⟨⟨rfl, by rintro n ⟨⟩; exact h⟩, fun _ => trivial⟩

theorem asks_uniqueGet {name : String} (h : N name) (ci : Nat) (v : Value) :
    Asks N (fun _ => True) (uniqueGet name ci v) :=
  ⟨⟨rfl, by rintro n ⟨⟩; exact h⟩, fun _ => trivial⟩

theorem asks_catalog (N : String → Prop) : Asks N (fun _ => True) catalog :=
  ⟨⟨rfl, by rintro n ⟨⟩⟩, fun _ => trivial⟩

theorem asks_tableDef (N : String → Prop) (name : String) :
    Asks N (fun td => td.name = name) (tableDef name) := by
  unfold tableDef
  refine (asks_catalog N).bind fun defs _ => ?_
  split
  · next d hd => exact .ret (by simpa using List.find?_some hd)
  · refine .lift fun td h => ?_
    cases h

theorem asks_loadTable {t : JoinTable} (h : N t.td.name) :
    Asks N (fun _ => True) (loadTable t) := by
  unfold loadTable
  split
  · exact .ret trivial
  · refine (asks_allRows h).bind fun r _ => ?_
    split
    · exact .ret trivial
    · exact .any _

theorem asks_loadTables (h : Known N sc) : Asks N (fun _ => True) (loadTables sc) := by
  induction sc with
  | nil => exact .ret trivial
  | cons t sc ih =>
    refine (asks_loadTable (h t List.mem_cons_self)).bind fun _ _ => ?_
    exact (ih fun u hu => h u (List.mem_cons_of_mem _ hu)).bind fun _ _ => .ret trivial

theorem asks_collectJoined (env : Env) (h : Known N sc) (joins : List (Bool × Expr))
    (where_ : Option Expr) : Asks N (fun _ => True) (collectJoined env sc joins where_) :=
  (asks_loadTables h).bind fun _ _ => .any _

theorem asks_lookupUnique (env : Env) {name : String} (h : N name) (w : Expr) (ci : Nat)
    (lit : Value) : Asks N (fun _ => True) (lookupUnique env sc name w ci lit) := by
  refine (asks_uniqueGet h _ _).bind fun r _ => ?_
  split
  · exact .ret trivial
  · refine (asks_get h _).bind fun r _ => ?_
    split
    · exact .ret trivial
    · exact (Asks.any _).bind fun _ _ => .ret trivial

theorem asks_candidateRows (env : Env) (h : Known N sc) (joins : List (Bool × Expr))
    (where_ : Option Expr) : Asks N (fun _ => True) (candidateRows env sc joins where_) := by
  unfold candidateRows
  split
  · next t w =>
    split
    · split
      · exact (asks_lookupUnique env (h t (by simp)) ..).bind fun _ _ => .ret trivial
      · exact asks_collectJoined env h ..
    · exact asks_collectJoined env h ..
  · exact asks_collectJoined env h ..

theorem asks_runSelect (env : Env) (h : Known N sc) (s : Plain) :
    Asks N (fun _ => True) (runSelect env sc s) :=
  (Asks.any _).bind fun _ _ => (asks_candidateRows env h ..).bind fun _ _ => .any _

theorem known_addItem {sc' : JoinScope} {td : TableDef} {alias_ : String}
    {rows : Option (List Row)} (h : Known N sc) (htd : N td.name)
    (hadd : addItem sc td alias_ rows = .ok sc') : Known N sc' := by
  unfold addItem at hadd
  split at hadd
  · cases hadd
  · cases hadd
    intro t ht
    rcases List.mem_append.mp ht with ht | ht
    · exact h t ht
    · cases List.mem_singleton.mp ht
      exact htd

end

/-! ## By the structure of the statement -/

variable {N : String → Prop}

mutual

/-- **A SELECT reads the tables it mentions.** -/
theorem asks_execSelect (env : Env) : (s : Select) → (∀ n ∈ mentions s, N n) →
    Asks N (fun _ => True) (execSelect env s)
  | ⟨first, joins, _, _, where_, _, having, _, _⟩, hs => by
    rw [mentions] at hs
    simp only [List.mem_append] at hs
    have hjoins : ∀ n ∈ joinMentions joins, N n := fun n hn => hs n (.inl (.inl (.inr hn)))
    rw [execSelect]
    have hnil : Known N [] := by
      intro t ht
      cases ht
    refine (asks_fromItem env hnil first fun n hn => hs n (.inl (.inl (.inl hn)))).bind
      fun sc hsc => ?_
    refine (asks_fromJoins env hsc joins hjoins).bind fun sc hsc => ?_
    refine (asks_resolveOption env where_ fun n hn => hs n (.inl (.inr hn))).bind fun _ _ => ?_
    refine (asks_resolveOption env having fun n hn => hs n (.inr hn)).bind fun _ _ => ?_
    exact (asks_resolveJoins env joins hjoins).bind fun _ _ => asks_runSelect env hsc _

theorem asks_fromItem (env : Env) {sc : JoinScope} (hsc : Known N sc) : (r : TableRef) →
    (∀ n ∈ refMentions r, N n) → Asks N (Known N) (fromItem env sc r)
  | ⟨_, alias_, some sub⟩, hr => by
    rw [refMentions] at hr
    rw [fromItem]
    refine (asks_execSelect env sub fun n hn => hr n (List.mem_cons_of_mem _ hn)).bind
      fun res _ => ?_
    exact .lift fun sc' hadd => known_addItem hsc (hr alias_ List.mem_cons_self) hadd
  | ⟨table, _, none⟩, hr => by
    rw [refMentions] at hr
    rw [fromItem]
    refine (asks_tableDef N table).bind fun td htd => ?_
    refine .lift fun sc' hadd => known_addItem hsc ?_ hadd
    rw [htd]
    exact hr table List.mem_cons_self

theorem asks_fromJoins (env : Env) {sc : JoinScope} (hsc : Known N sc) : (joins : List Join) →
    (∀ n ∈ joinMentions joins, N n) → Asks N (Known N) (fromJoins env sc joins)
  | [], _ => by
    rw [fromJoins]
    exact .ret hsc
  | ⟨_, ref, on⟩ :: joins, hj => by
    rw [joinMentions] at hj
    simp only [List.mem_append] at hj
    rw [fromJoins]
    refine (asks_fromItem env hsc ref fun n hn => hj n (.inl (.inl hn))).bind fun sc hsc => ?_
    exact asks_fromJoins env hsc joins fun n hn => hj n (.inr hn)

theorem asks_resolveJoins (env : Env) : (joins : List Join) → (∀ n ∈ joinMentions joins, N n) →
    Asks N (fun _ => True) (resolveJoins env joins)
  | [], _ => by
    rw [resolveJoins]
    exact .ret trivial
  | ⟨_, ref, on⟩ :: joins, hj => by
    rw [joinMentions] at hj
    simp only [List.mem_append] at hj
    rw [resolveJoins]
    refine (asks_resolveInSubqueries env on fun n hn => hj n (.inl (.inr hn))).bind fun _ _ => ?_
    exact (asks_resolveJoins env joins fun n hn => hj n (.inr hn)).bind fun _ _ => .ret trivial

theorem asks_resolveOption (env : Env) : (e : Option Expr) → (∀ n ∈ optionMentions e, N n) →
    Asks N (fun _ => True) (resolveOption env e)
  | none, _ => by
    rw [resolveOption]
    exact .ret trivial
  | some e, he => by
    rw [optionMentions] at he
    rw [resolveOption]
    exact (asks_resolveInSubqueries env e he).bind fun _ _ => .ret trivial

theorem asks_resolveInSubqueries (env : Env) : (e : Expr) → (∀ n ∈ exprMentions e, N n) →
    Asks N (fun _ => True) (resolveInSubqueries env e)
  | .inSub _ sub _, he => by
    rw [exprMentions] at he
    rw [resolveInSubqueries]
    refine (asks_execSelect env sub he).bind fun res _ => ?_
    split
    · exact .any _
    · exact (Asks.any _).bind fun _ _ => .ret trivial
  | .cmp _ l r, he | .and l r, he | .or l r, he | .binary _ l r, he => by
    rw [exprMentions] at he
    simp only [List.mem_append] at he
    rw [resolveInSubqueries]
    refine (asks_resolveInSubqueries env l fun n hn => he n (.inl hn)).bind fun _ _ => ?_
    exact (asks_resolveInSubqueries env r fun n hn => he n (.inr hn)).bind fun _ _ => .ret trivial
  | .not x, he | .isNull x _, he | .inList x _ _, he => by
    rw [exprMentions] at he
    rw [resolveInSubqueries]
    exact (asks_resolveInSubqueries env x he).bind fun _ _ => .ret trivial
  | .lit _, _ | .colRef _ _, _ | .func _ _ _, _ => by
    rw [resolveInSubqueries]
    exact .ret trivial

end

theorem asks_planWhere (env : Env) (sc : JoinScope) (where_ : Option Expr)
    (h : ∀ n ∈ optionMentions where_, N n) :
    Asks N (fun _ => True) (planWhere env sc where_) := by
  unfold planWhere
  split
  · exact .ret trivial
  · next w =>
    rw [optionMentions] at h
    exact (asks_resolveInSubqueries env w h).bind fun _ _ => (Asks.any _).bind fun _ _ => .ret trivial

end Tsql.Executor
