import Tsql.Lib.Reading
import Tsql.Parser.Print

/-!
# What the parse functions read

Each parse function reads the tokens its tree may be written with and returns
the tree, if what comes behind does not continue it. For an expression of
level `l` that is a symbol that binds less than `l` (`Follow`); for the parts
of a SELECT it is the word of a later clause, or the end (`From`).

The recursive calls are taken as reading everything up to a length, and the
functions then read everything that is one token longer; `grammar n` reads
everything of length `n`.
-/

namespace Tsql.Parser

open Cursor

variable {ts : List Sym} {rest : List Sym} {l : Level} {k : Nat} {e : Expr} {s : Sym}

/-- Reading tokens by their symbols. -/
abbrev Accepts {α : Type} (p : Parse α) (ts : List Sym) (a : α) (F : List Sym → Prop) : Prop :=
  Reads Token.sym p ts a F

/-! ## The helpers -/

section Helpers

variable {α : Type} {F : List Sym → Prop} {us : List Sym} {a : α} {yes no : Parse α}

/-- What is ahead does not begin with `s`. -/
def NotAhead (s : Sym) (rest : List Sym) : Prop := rest.head? ≠ some s

theorem accepts_takeSym (s : Sym) : ReadsOne Token.sym (takeSym s) s true := by
  refine reads_peek fun t ht => ?_
  rw [if_pos ht]
  exact reads_next fun _ _ => reads_pure

theorem accepts_takeSym_not (s : Sym) : Accepts (takeSym s) [] false (NotAhead s) := by
  refine reads_peek_nil fun t ⟨rest, ht⟩ => ?_
  have hne : t.sym ≠ s := fun h => ht (by simp [h])
  rw [if_neg hne]
  exact reads_pure

theorem accepts_atSym (s : Sym) : Accepts (atSym s) [] true fun rest => rest.head? = some s := by
  refine reads_peek_nil fun t ⟨rest, ht⟩ => ?_
  have heq : t.sym = s := by simpa using ht
  rw [heq, decide_eq_true rfl]
  exact reads_pure

theorem accepts_atSym_not (s : Sym) : Accepts (atSym s) [] false (NotAhead s) := by
  refine reads_peek_nil fun t ⟨rest, ht⟩ => ?_
  have hne : t.sym ≠ s := fun h => ht (by simp [h])
  rw [decide_eq_false hne]
  exact reads_pure

theorem accepts_expectSym (s : Sym) (m : Sym → Message) :
    ReadsOne Token.sym (expectSym s m) s () := by
  refine reads_peek fun t ht => ?_
  rw [if_pos ht]
  exact reads_next fun _ _ => reads_pure

theorem accepts_identOrErr (what w : String) :
    ReadsOne Token.sym (identOrErr what) (.ident w) w := by
  refine reads_peek fun t ht => ?_
  rw [ht]
  exact reads_next fun _ _ => reads_pure

/-- What is expected is there. -/
theorem accepts_expect {m : Sym → Message} (h : Accepts yes us a F) :
    Accepts (expectSym s m >>= fun _ => yes) (s :: us) a F :=
  ReadsOne.bind (accepts_expectSym s m) h

theorem accepts_ident {what w : String} {f : String → Parse α} (h : Accepts (f w) us a F) :
    Accepts (identOrErr what >>= f) (.ident w :: us) a F :=
  ReadsOne.bind (accepts_identOrErr what w) h

/-- If the token is there, it is read. -/
theorem accepts_take (h : Accepts yes us a F) :
    Accepts (do if ← takeSym s then yes else no) (s :: us) a F :=
  (accepts_takeSym s).yes h

/-- If another token is there, nothing is read. -/
theorem accepts_skip (hs : ∀ rest, rest ≠ [] → F rest → NotAhead s (us ++ rest))
    (h : Accepts no us a F) : Accepts (do if ← takeSym s then yes else no) us a F :=
  (accepts_takeSym_not s).ite hs h

theorem accepts_at (hs : ∀ rest, rest ≠ [] → F rest → (us ++ rest).head? = some s)
    (h : Accepts yes us a F) : Accepts (do if ← atSym s then yes else no) us a F :=
  (accepts_atSym s).ite hs h

theorem accepts_notAt (hs : ∀ rest, rest ≠ [] → F rest → NotAhead s (us ++ rest))
    (h : Accepts no us a F) : Accepts (do if ← atSym s then yes else no) us a F :=
  (accepts_atSym_not s).ite hs h

end Helpers

/-! ## Lists -/

section Lists

variable {α : Type} {R S : α → List Sym → Prop} {as : List α} {ts : List Sym}

theorem Listed.imp {n : Nat} (hRS : ∀ {a us}, R a us → us.length ≤ n → S a us)
    (h : Listed R as ts) (hlen : ts.length ≤ n) : Listed S as ts := by
  induction h with
  | one h => exact .one (hRS h hlen)
  | more h hmore ih =>
    rw [List.length_append, List.length_cons] at hlen
    exact .more (hRS h (by omega)) (ih (by omega))

/-- A list begins as its first item does. -/
theorem Listed.notAhead (hR : ∀ {a us}, R a us → ∀ rest, NotAhead s (us ++ rest))
    (h : Listed R as ts) (rest : List Sym) : NotAhead s (ts ++ rest) := by
  cases h with
  | one h => exact hR h rest
  | more h hmore =>
    rw [List.append_assoc]
    exact hR h _

end Lists

/-- **A list between commas.** -/
theorem accepts_commaList {α : Type} {item : Parse α} {F : List Sym → Prop}
    (hcomma : ∀ rest, F (.punct .comma :: rest)) {as : List α}
    (h : Listed (fun a us => Accepts item us a F) as ts) :
    Accepts (commaList item) ts as fun rest => F rest ∧ NotAhead (.punct .comma) rest := by
  -- the rounds before have read `us` and collected `acc`
  have hrest : ∀ {us : List Sym} {acc : List α},
      Goes Token.sym (commaRound item) (fun _ => True) [] us acc →
        Accepts (commaList item) (us ++ ts) (acc ++ as)
          fun rest => F rest ∧ NotAhead (.punct .comma) rest := by
    induction h with
    | @one a ts h =>
      intro us acc hgoes
      refine hgoes.done ?_ fun _ _ _ => trivial
      have hlast : Accepts (do
          if ← takePunct .comma then return ForInStep.yield (acc ++ [a])
          else return .done (acc ++ [a])) [] (.done (acc ++ [a]))
          fun rest => F rest ∧ NotAhead (.punct .comma) rest :=
        accepts_skip (fun _ _ hF => hF.2) reads_pure
      exact h.last hlast fun _ _ hF => hF.1
    | @more a as ts vs h hmore ih =>
      intro us acc hgoes
      have hround : Accepts (commaRound item acc) (ts ++ [.punct .comma])
          (.yield (acc ++ [a])) fun _ => True :=
        h.bind (accepts_take reads_pure) fun rest _ _ => hcomma rest
      have hnext := ih (hgoes.yield hround (by simp) fun _ _ _ => trivial)
      simpa using hnext
  exact hrest goes_nil

/-! ## What continues an expression, and what begins one -/

def Level.rank : Level → Nat
  | .or => 0
  | .and => 1
  | .not => 2
  | .cmp => 3
  | .add => 4
  | .mul => 5
  | .unary => 6
  | .primary => 7

/-- The level at which a symbol continues what stands before it. -/
def binds : Sym → Option Level
  | .punct .dot | .punct .lparen => some .primary
  | .punct .star | .punct .slash | .punct .percent => some .mul
  | .punct .plus | .punct .minus => some .add
  | .punct .eq | .punct .ne | .punct .lt | .punct .le | .punct .gt | .punct .ge => some .cmp
  | .ident w =>
    if w = "or" then some .or
    else if w = "and" then some .and
    else if w = "is" ∨ w = "in" ∨ w = "not" then some .cmp
    else none
  | _ => none

/-- Does the symbol leave an expression of level `l` as it is? -/
def stops (l : Level) (s : Sym) : Bool :=
  match binds s with
  | none => true
  | some k => k.rank < l.rank

/-- What may come behind an expression of level `l`. -/
def Follow (l : Level) (rest : List Sym) : Prop := ∀ s ∈ rest.head?, stops l s = true

theorem follow_cons (h : stops l s = true) (rest : List Sym) :
    Follow l (s :: rest) := by
  rintro _ ⟨⟩
  exact h

theorem Level.next_rank {l m : Level} (h : l.next = some m) : m.rank = l.rank + 1 := by
  cases l <;> cases h <;> rfl

theorem Follow.lift {l m : Level} (hl : l.next = some m) (h : Follow l rest) :
    Follow m rest := by
  intro s hs
  have hstops := h s hs
  unfold stops at hstops ⊢
  split at hstops
  · rfl
  · simp only [decide_eq_true_eq, Level.next_rank hl] at hstops ⊢
    omega

/-- What is ahead is no symbol that continues. -/
theorem Follow.notAhead (h : Follow l rest) (hs : stops l s = false) : NotAhead s rest := by
  intro hhead
  have := h s hhead
  rw [hs] at this
  cases this

/-- What an expression of level `l` may begin with. -/
inductive Opens : Level → Sym → Prop
  | num {l : Level} (text : Bytes) : Opens l (.num text)
  | str {l : Level} (s : Bytes) : Opens l (.str s)
  | lparen {l : Level} : Opens l (.punct .lparen)
  | word {l : Level} {w : String} (h : Name w ∨ w ∈ ["null", "true", "false"]) :
      Opens l (.ident w)
  | minus {l : Level} (h : l.rank ≤ 6) : Opens l (.punct .minus)
  | not {l : Level} (h : l.rank ≤ 2) : Opens l (.ident "not")

theorem Opens.lift {l m : Level} (hl : l.next = some m) (h : Opens m s) : Opens l s := by
  have hrank := Level.next_rank hl
  cases h with
  | num text => exact .num text
  | str s => exact .str s
  | lparen => exact .lparen
  | word h => exact .word h
  | minus h => exact .minus (by omega)
  | not h => exact .not (by omega)

/-- The tokens begin with something that may begin an expression. -/
def Opening (l : Level) (ts : List Sym) : Prop := ∃ s us, ts = s :: us ∧ Opens l s

theorem Opening.append (h : Opening l ts) (us : List Sym) : Opening l (ts ++ us) := by
  obtain ⟨s, vs, rfl, hs⟩ := h
  exact ⟨s, vs ++ us, rfl, hs⟩

theorem Opening.lift {m : Level} (hl : l.next = some m) (h : Opening m ts) : Opening l ts := by
  obtain ⟨s, us, rfl, hs⟩ := h
  exact ⟨s, us, rfl, hs.lift hl⟩

/-- **Every expression begins with something that may begin one.** -/
theorem Shows.opens {l : Level} {e : Expr} {ts : List Sym} : Shows l e ts → Opening l ts
  | .lift hl h => h.opens.lift hl
  | .parens _ => ⟨_, _, rfl, .lparen⟩
  | .or hl _ | .and hl _ | .add _ hl _ | .mul _ hl _ => hl.opens.append _
  | .not _ => ⟨_, _, rfl, .not (Nat.le_refl 2)⟩
  | .cmp h _ | .isNull h | .inList h _ | .inSub h _ => (h.opens.append _).lift rfl
  | .minus _ => ⟨_, _, rfl, .minus (Nat.le_refl 6)⟩
  | .lit h => by
    refine ⟨_, _, rfl, ?_⟩
    cases h with
    | null | true | false => exact .word (.inr (by simp))
    | text s => exact .str s
    | int hdot h | float hdot h => exact .num _
  | .column h | .qualified h _ | .star h | .noArg h | .call h _ => ⟨_, _, rfl, .word (.inl h)⟩

theorem Name.ne {w kw : String} (h : Name w) (hkw : kw ∈ keywords) : w ≠ kw := by
  rintro rfl
  exact h.free hkw

theorem Name.ne_empty {w : String} (h : Name w) : w ≠ "" := by
  rintro rfl
  cases h.spelled

/-- What an expression does not begin with. -/
theorem Shows.notAhead (h : Shows l e ts)
    (hs : ¬ Opens l s) (rest : List Sym) : NotAhead s (ts ++ rest) := by
  obtain ⟨u, us, rfl, hu⟩ := h.opens
  rintro ⟨⟩
  exact hs hu

theorem not_opens_punct {p : Punct} (hl : p ≠ .lparen) (hm : p ≠ .minus) :
    ¬ Opens l (.punct p) := by
  rintro ⟨⟩
  · exact hl rfl
  · exact hm rfl

theorem not_opens_kw {kw : String} (hkw : kw ∈ keywords)
    (hlit : kw ∉ ["null", "true", "false"]) (hnot : kw = "not" → 2 < l.rank) :
    ¬ Opens l (.ident kw) := by
  rintro ⟨⟩
  case word h =>
    rcases h with h | h
    · exact h.free hkw
    · exact hlit h
  case not h =>
    have := hnot rfl
    omega

/-! ## Chains of operators -/

section Chains

variable {op : Sym → Option (Expr → Expr → Expr)} {operand : Parse Expr} {m : Level}
  {ts us : List Sym} {e x : Expr}

/-- The first operand of a chain, and the rounds that have read the others,
each with an operator before it. -/
def Chained (op : Sym → Option (Expr → Expr → Expr)) (operand : Parse Expr) (m : Level)
    (ts : List Sym) (e : Expr) : Prop :=
  ∃ e0 us vs, ts = us ++ vs ∧ Accepts operand us e0 (Follow m) ∧
    Goes Token.sym (chainRound op operand) (Follow m) e0 vs e ∧
    ∀ rest, Follow m rest → Follow m (vs ++ rest)

theorem chained_one (h : Accepts operand ts e (Follow m)) : Chained op operand m ts e :=
  ⟨e, ts, [], by simp, h, goes_nil, fun _ hF => hF⟩

/-- One more operator, with its right operand. -/
theorem Chained.more (h : Chained op operand m ts e) {mk : Expr → Expr → Expr}
    (hop : op s = some mk) (hs : stops m s = true) (hx : Accepts operand us x (Follow m)) :
    Chained op operand m (ts ++ s :: us) (mk e x) := by
  obtain ⟨e0, vs, ws, rfl, hfirst, hgoes, hbehind⟩ := h
  refine ⟨e0, vs, ws ++ s :: us, by simp, hfirst, ?_, fun rest _ => ?_⟩
  · have hround : Accepts (chainRound op operand e) (s :: us) (.yield (mk e x)) (Follow m) := by
      refine ReadsOne.bind (reads_take fun t ht => ?_) (Reads.map hx)
      rw [ht, hop]
    exact hgoes.yield hround (by simp) fun rest _ _ => follow_cons hs (us ++ rest)
  · rw [List.append_assoc]
    exact hbehind _ (follow_cons hs (us ++ rest))

/-- **A chain ends** where no operator of its level comes behind. -/
theorem Chained.accepts (h : Chained op operand m ts e) (hl : l.next = some m)
    (hop : ∀ s, stops l s = true → op s = none) : Accepts (chain op operand) ts e (Follow l) := by
  obtain ⟨e0, us, vs, rfl, hfirst, hgoes, hbehind⟩ := h
  have hlast : Accepts (chainRound op operand e) [] (.done e) (Follow l) := by
    refine Reads.pass (reads_take_none fun t ⟨rest, ht⟩ => ?_) (fun _ _ hF => hF) reads_pure
    exact hop t.sym (ht t.sym rfl)
  have hloop := hgoes.done hlast fun _ _ hF => hF.lift hl
  rw [List.append_nil] at hloop
  exact hfirst.bind hloop fun rest _ hF => hbehind rest (hF.lift hl)

/-- An operand alone, or a shorter chain with one more operator and operand. -/
def Links (op : Sym → Option (Expr → Expr → Expr)) (l m : Level) (e : Expr) (ts : List Sym) : Prop :=
  Shows m e ts ∨ ∃ s mk e1 e2 us vs, op s = some mk ∧ stops m s = true ∧ Shows l e1 us ∧
    Shows m e2 vs ∧ e = mk e1 e2 ∧ ts = us ++ s :: vs

/-- **A level of the grammar that is a chain** of operands of the next. -/
theorem accepts_chain {n : Nat} (hl : l.next = some m)
    (hoperand : ∀ {e ts}, Shows m e ts → ts.length ≤ n → Accepts operand ts e (Follow m))
    (hop : ∀ s, stops l s = true → op s = none)
    (hlinks : ∀ {e ts}, Shows l e ts → Links op l m e ts) (h : Shows l e ts)
    (hlen : ts.length ≤ n) : Accepts (chain op operand) ts e (Follow l) := by
  suffices hchained : Chained op operand m ts e from hchained.accepts hl hop
  induction hk : ts.length using Nat.strong_induction_on generalizing ts e with
  | _ k ih =>
    rcases hlinks h with h | ⟨s, mk, e1, e2, us, vs, hs, hstops, h1, h2, rfl, rfl⟩
    · exact chained_one (hoperand h hlen)
    · rw [List.length_append, List.length_cons] at hlen hk
      exact (ih us.length (by omega) h1 (by omega) rfl).more hs hstops (hoperand h2 (by omega))

end Chains

/-! ## What comes behind the parts of a SELECT -/

/-- The clauses of a SELECT in their order, by the words they begin with, and
what may come behind it. -/
def clauseRank : Sym → Option Nat
  | .ident "join" | .ident "inner" | .ident "left" => some 0
  | .ident "where" => some 1
  | .ident "group" => some 2
  | .ident "having" => some 3
  | .ident "order" => some 4
  | .ident "limit" => some 5
  | .punct .rparen | .punct .semi | .eof => some 6
  | _ => none

/-- What is ahead is the clause of this rank or one behind it. -/
def From (k : Nat) (rest : List Sym) : Prop := ∀ s ∈ rest.head?, ∃ m, clauseRank s = some m ∧ k ≤ m

theorem From.follow (h : From k rest) : Follow .or rest := by
  intro s hs
  obtain ⟨m, hm, -⟩ := h s hs
  revert hm
  unfold clauseRank
  split <;> intro hm <;> first | rfl | cases hm

theorem from_cons {k m : Nat} (hs : clauseRank s = some m) (hk : k ≤ m)
    (rest : List Sym) : From k (s :: rest) := by
  rintro _ ⟨⟩
  exact ⟨m, hs, hk⟩

theorem ShowsSelect.head {s : Select} (h : ShowsSelect s ts) (rest : List Sym) :
    (ts ++ rest).head? = some (.ident "select") := by
  cases h
  rfl

/-- What is ahead is no clause before this one. -/
theorem From.notAhead (h : From k rest) {m : Nat}
    (hs : clauseRank s = some m) (hm : m < k) : NotAhead s rest := by
  intro hhead
  obtain ⟨m', hm', hle⟩ := h s hhead
  rw [hs] at hm'
  cases hm'
  omega

theorem From.mono {k m : Nat} (h : From m rest) (hk : k ≤ m) : From k rest := by
  intro s hs
  obtain ⟨m', hm', hle⟩ := h s hs
  exact ⟨m', hm', Nat.le_trans hk hle⟩

theorem From.comma (h : From k rest) :
    NotAhead (.punct .comma) rest := by
  intro hhead
  obtain ⟨m, hm, -⟩ := h _ hhead
  cases hm

/-! ## Expressions -/

/-- The recursive calls read everything that is at most `n` tokens long. -/
structure Calls.Accept (n : Nat) (r : Calls) : Prop where
  expr : ∀ {e ts}, Shows .or e ts → ts.length ≤ n → Accepts r.expr ts e (Follow .or)
  select : ∀ {s ts}, ShowsSelect s ts → ts.length ≤ n → Accepts r.select ts s (From 6)
  not : ∀ {e ts}, Shows .not e ts → ts.length ≤ n → Accepts r.not ts e (Follow .not)
  unary : ∀ {e ts}, Shows .unary e ts → ts.length ≤ n → Accepts r.unary ts e (Follow .unary)

section Expressions

variable {n : Nat} {r : Calls}

theorem accepts_literal {v : Value} (h : ShowsLit v s) :
    ReadsOne Token.sym (parsePrimary r) s (.lit v) := by
  refine reads_peek fun t ht => ?_
  rw [ht]
  cases h with
  | null => exact reads_next fun _ _ => reads_pure
  | true => exact reads_next fun _ _ => reads_pure
  | false => exact reads_next fun _ _ => reads_pure
  | text s => exact reads_next fun _ _ => reads_pure
  | int hdot h =>
    refine reads_next fun _ _ => ?_
    rw [parseNumber, if_neg hdot, h]
    exact reads_pure
  | float hdot h =>
    refine reads_next fun _ _ => ?_
    rw [parseNumber, if_pos hdot, h]
    exact reads_pure

/-- A name that is no literal. -/
theorem accepts_name {w : String} (hw : Name w) {F : List Sym → Prop}
    (h : Accepts (parseNamed r w) ts e F) : Accepts (parsePrimary r) (.ident w :: ts) e F := by
  refine reads_peek fun t ht => ?_
  rw [ht]
  refine reads_next fun _ _ => ?_
  rw [if_neg (hw.ne (by decide)), if_neg (hw.ne (by decide)), if_neg (hw.ne (by decide))]
  exact h

/-- A call, given what its arguments are read as. -/
theorem accepts_call {w : String} {star : Bool} {arg : Option Expr}
    (h : Accepts (parseArgument r) ts (star, arg) fun rest => rest.head? = some (.punct .rparen)) :
    Accepts (parseNamed r w) (parens ts) (.func (funcName w) star arg) (Follow .primary) := by
  refine accepts_skip (fun _ _ _ => by simp [NotAhead, parens]) (accepts_take ?_)
  exact h.bind (accepts_expect reads_pure) fun _ _ _ => rfl

/-- **What needs no parentheses.** -/
theorem accepts_primary (hr : r.Accept n) (h : Shows .primary e ts)
    (hlen : ts.length ≤ n + 1) : Accepts (parsePrimary r) ts e (Follow .primary) := by
  cases h with
  | lift hl h => cases hl
  | parens h =>
    simp only [parens, List.length_cons, List.length_append, List.length_nil] at hlen
    refine reads_peek fun t ht => ?_
    rw [ht]
    refine reads_next fun _ _ => ?_
    exact (hr.expr h (by omega)).bind (accepts_expect reads_pure)
      fun rest _ _ => follow_cons rfl rest
  | lit h => exact (accepts_literal h).mono fun _ _ => trivial
  | column h =>
    refine accepts_name h (accepts_skip (fun _ _ hF => hF.notAhead rfl) ?_)
    exact accepts_skip (fun _ _ hF => hF.notAhead rfl) reads_pure
  | qualified ht hn =>
    exact accepts_name ht (accepts_take (accepts_ident reads_pure))
  | star hf => exact accepts_name hf (accepts_call (accepts_take reads_pure))
  | noArg hf =>
    refine accepts_name hf (accepts_call (accepts_skip (fun rest _ hF => ?_) ?_))
    · rw [List.nil_append, NotAhead, hF]
      decide
    · exact (accepts_atSym _).ite (fun _ _ hF => hF) reads_pure
  | @call f x ts hf h =>
    simp only [parens, List.length_cons, List.length_append, List.length_nil] at hlen
    refine accepts_name hf (accepts_call ?_)
    refine accepts_skip
      (fun rest _ _ => h.notAhead (not_opens_punct (by decide) (by decide)) rest) ?_
    refine accepts_notAt
      (fun rest _ _ => h.notAhead (not_opens_punct (by decide) (by decide)) rest) ?_
    refine Reads.map ((hr.expr h (by omega)).mono fun rest hF s hs => ?_)
    rw [hF] at hs
    cases hs
    rfl

/-- **A sign**, or what needs no parentheses. -/
theorem accepts_unary (hr : r.Accept n) (h : Shows .unary e ts)
    (hlen : ts.length ≤ n + 1) : Accepts (parseUnary r) ts e (Follow .unary) := by
  cases h with
  | lift hl h =>
    cases hl
    have hskip : ∀ rest : List Sym, NotAhead (.punct .minus) (ts ++ rest) := by
      refine h.notAhead ?_
      rintro ⟨⟩
      case minus h => exact absurd h (by decide)
    exact accepts_skip (fun rest _ _ => hskip rest)
      ((accepts_primary hr h hlen).mono fun _ hF => hF.lift rfl)
  | @minus x ts h =>
    exact accepts_take (Reads.map (hr.unary h (Nat.le_of_succ_le_succ hlen)))

theorem accepts_mul (hr : r.Accept n) (h : Shows .mul e ts)
    (hlen : ts.length ≤ n + 1) : Accepts (parseMul r) ts e (Follow .mul) := by
  refine accepts_chain rfl (accepts_unary hr) (fun s hs => ?_) (fun h => ?_) h hlen
  · rw [Option.map_eq_none_iff]
    revert hs
    cases s with
    | punct p => cases p <;> decide
    | _ => exact fun _ => rfl
  · cases h with
    | lift hl h =>
      cases hl
      exact .inl h
    | @mul op _ _ _ _ hop h1 h2 =>
      have hmul : mulOp (.punct (binPunct op)) = some op ∧
          stops .unary (.punct (binPunct op)) = true := by
        revert hop
        cases op <;> decide
      exact .inr ⟨_, _, _, _, _, _, congrArg (Option.map Expr.binary) hmul.1, hmul.2, h1, h2, rfl, rfl⟩

theorem accepts_add (hr : r.Accept n) (h : Shows .add e ts)
    (hlen : ts.length ≤ n + 1) : Accepts (parseAdd r) ts e (Follow .add) := by
  refine accepts_chain rfl (accepts_mul hr) (fun s hs => ?_) (fun h => ?_) h hlen
  · rw [Option.map_eq_none_iff]
    revert hs
    cases s with
    | punct p => cases p <;> decide
    | _ => exact fun _ => rfl
  · cases h with
    | lift hl h =>
      cases hl
      exact .inl h
    | @add op _ _ _ _ hop h1 h2 =>
      have hadd : addOp (.punct (binPunct op)) = some op ∧
          stops .mul (.punct (binPunct op)) = true := by
        revert hop
        cases op <;> decide
      exact .inr ⟨_, _, _, _, _, _, congrArg (Option.map Expr.binary) hadd.1, hadd.2, h1, h2, rfl, rfl⟩

/-- `[NOT] IN` is read as such. -/
theorem accepts_inKw (neg : Bool) :
    Accepts parseInKw (notKw neg ++ [.ident "in"]) (some neg) fun _ => True := by
  cases neg with
  | false =>
    refine accepts_notAt (fun _ _ _ => by simp [NotAhead, notKw]) ?_
    exact accepts_take reads_pure
  | true =>
    refine accepts_at (fun _ _ _ => rfl) ?_
    have hin : Accepts (tentatively (do
        let _ ← next
        takeKw "in")) [.ident "not", .ident "in"] true fun _ => True :=
      reads_tentatively (reads_next fun _ _ => accepts_takeSym _)
    exact hin.bind reads_pure fun _ _ _ => trivial

theorem accepts_notKw (neg : Bool) :
    Accepts (takeKw "not") (notKw neg) neg fun rest => rest.head? = some (.ident "null") := by
  cases neg with
  | false =>
    refine (accepts_takeSym_not _).mono fun rest h => ?_
    rw [NotAhead, h]
    decide
  | true => exact (accepts_takeSym _).mono fun _ _ => trivial

/-- What stands behind an operand is read, if no comparison does. -/
theorem accepts_tested (hr : r.Accept n) {l e : Expr} {ts us : List Sym} {F : List Sym → Prop}
    (hl : Shows .add l ts) (hlen : ts.length ≤ n + 1)
    (hF : ∀ rest, rest ≠ [] → F rest → Follow .add (us ++ rest) ∧
      ∀ s ∈ (us ++ rest).head?, cmpOp s = none)
    (h : Accepts (parseTest r l) us e F) : Accepts (parseCmp r) (ts ++ us) e F := by
  refine (accepts_add hr hl hlen).bind ?_ fun rest hrest h => (hF rest hrest h).1
  have hnone : Accepts (take fun t => cmpOp t.sym) [] none
      fun rest => ∀ s ∈ rest.head?, cmpOp s = none :=
    reads_take_none fun t ⟨_, ht⟩ => ht t.sym rfl
  exact hnone.pass (fun rest hrest h => (hF rest hrest h).2) h

theorem follow_in (neg : Bool) (us : List Sym) :
    Follow .add (notKw neg ++ .ident "in" :: us) ∧
      ∀ s ∈ (notKw neg ++ .ident "in" :: us).head?, cmpOp s = none := by
  cases neg with
  | false =>
    refine ⟨follow_cons rfl us, ?_⟩
    rintro _ ⟨⟩
    rfl
  | true =>
    refine ⟨follow_cons rfl _, ?_⟩
    rintro _ ⟨⟩
    rfl

/-- A list or a SELECT behind `[NOT] IN`. -/
theorem accepts_in {l e : Expr} {neg : Bool} {us : List Sym}
    (h : Accepts (parseIn r l neg) (parens us) e fun _ => True) :
    Accepts (parseTest r l) (notKw neg ++ .ident "in" :: parens us) e (Follow .cmp) := by
  refine accepts_skip (fun rest _ _ => by cases neg <;> simp [NotAhead, notKw]) ?_
  have hts : notKw neg ++ .ident "in" :: parens us = (notKw neg ++ [.ident "in"]) ++ parens us := by
    rw [List.append_assoc, List.singleton_append]
  rw [hts]
  exact (Reads.bind (accepts_inKw neg) h fun _ _ _ => trivial).mono fun _ _ => trivial

theorem stops_cmp (h : stops .cmp s = true) : cmpOp s = none := by
  revert h
  cases s with
  | punct p => cases p <;> decide
  | _ => exact fun _ => rfl

/-- **Comparisons and tests.** -/
theorem accepts_cmp (hr : r.Accept n) (h : Shows .cmp e ts)
    (hlen : ts.length ≤ n + 1) : Accepts (parseCmp r) ts e (Follow .cmp) := by
  cases h with
  | lift hl h =>
    cases hl
    have hnone : Accepts (parseTest r e) [] e (Follow .cmp) := by
      refine accepts_skip (fun _ _ hF => hF.notAhead rfl) ?_
      have hkw : Accepts parseInKw [] none (Follow .cmp) :=
        accepts_notAt (fun _ _ hF => hF.notAhead rfl)
          (accepts_skip (fun _ _ hF => hF.notAhead rfl) reads_pure)
      exact hkw.pass (fun _ _ hF => hF) reads_pure
    have htest := accepts_tested hr h hlen
      (fun rest _ hF => ⟨Follow.lift rfl hF, fun s hs => stops_cmp (hF s hs)⟩) hnone
    rwa [List.append_nil] at htest
  | @cmp op l x ts us hl hx =>
    rw [List.length_append, List.length_cons] at hlen
    refine (accepts_add hr hl (by omega)).bind ?_ fun rest _ _ => follow_cons ?_ (us ++ rest)
    · refine ReadsOne.bind (reads_take fun t ht => ?_)
        (Reads.map ((accepts_add hr hx (by omega)).mono fun _ hF => hF.lift rfl))
      rw [ht]
      cases op <;> rfl
    · cases op <;> rfl
  | @isNull x neg ts h =>
    rw [List.length_append] at hlen
    refine accepts_tested hr h (by omega) (fun rest _ _ => ⟨follow_cons rfl _, ?_⟩) ?_
    · rintro _ ⟨⟩
      rfl
    · refine accepts_take ?_
      exact (accepts_notKw neg).bind (accepts_expect reads_pure)
        fun _ _ _ => rfl
  | @inList x list neg ts us h hlist =>
    simp only [List.length_append, List.length_cons, parens, List.length_nil] at hlen
    refine accepts_tested hr h (by omega) (fun rest _ _ => ?_) (accepts_in ?_)
    · rw [List.append_assoc]
      exact follow_in neg _
    refine accepts_expect (accepts_notAt (fun rest _ _ => ?_) ?_)
    · rw [List.append_assoc]
      exact hlist.notAhead (fun h => h.notAhead (not_opens_kw (by decide) (by decide) (by decide)))
        _
    · have hitems := hlist.imp (fun h hlen => hr.expr h hlen) (n := n) (by omega)
      exact (accepts_commaList (fun rest => follow_cons rfl rest) hitems).bind
        (accepts_expect reads_pure)
        fun rest _ _ => ⟨follow_cons rfl rest, by simp [NotAhead]⟩
  | @inSub x sub neg ts us h hsub =>
    simp only [List.length_append, List.length_cons, parens, List.length_nil] at hlen
    refine accepts_tested hr h (by omega) (fun rest _ _ => ?_) (accepts_in ?_)
    · rw [List.append_assoc]
      exact follow_in neg _
    refine accepts_expect ?_
    refine accepts_at (fun rest _ _ => ?_) ?_
    · rw [List.append_assoc]
      exact hsub.head _
    exact (hr.select hsub (by omega)).bind (accepts_expect reads_pure)
      fun rest _ _ => from_cons rfl (Nat.le_refl 6) rest

theorem accepts_not (hr : r.Accept n) (h : Shows .not e ts)
    (hlen : ts.length ≤ n + 1) : Accepts (parseNot r) ts e (Follow .not) := by
  cases h with
  | lift hl h =>
    cases hl
    refine accepts_skip (fun rest _ _ => ?_)
      ((accepts_cmp hr h hlen).mono fun _ hF => hF.lift rfl)
    exact h.notAhead (not_opens_kw (by decide) (by decide) (by decide)) rest
  | not h => exact accepts_take (Reads.map (hr.not h (Nat.le_of_succ_le_succ hlen)))

/-- The symbol is no operator of this level, since it would continue. -/
theorem ne_of_stops {s o : Sym} (hs : stops l s = true) (ho : stops l o = false) :
    s ≠ o := by
  rintro rfl
  rw [hs] at ho
  cases ho

theorem accepts_and (hr : r.Accept n) (h : Shows .and e ts)
    (hlen : ts.length ≤ n + 1) : Accepts (parseAnd r) ts e (Follow .and) := by
  refine accepts_chain rfl (accepts_not hr) (fun _ hs => if_neg (ne_of_stops hs rfl))
    (fun h => ?_) h hlen
  cases h with
  | lift hl h =>
    cases hl
    exact .inl h
  | and h1 h2 => exact .inr ⟨_, _, _, _, _, _, if_pos rfl, rfl, h1, h2, rfl, rfl⟩

/-- **Every expression is read back.** -/
theorem accepts_expr (hr : r.Accept n) (h : Shows .or e ts)
    (hlen : ts.length ≤ n + 1) : Accepts (parseExpr r) ts e (Follow .or) := by
  refine accepts_chain rfl (accepts_and hr) (fun _ hs => if_neg (ne_of_stops hs rfl))
    (fun h => ?_) h hlen
  cases h with
  | lift hl h =>
    cases hl
    exact .inl h
  | or h1 h2 => exact .inr ⟨_, _, _, _, _, _, if_pos rfl, rfl, h1, h2, rfl, rfl⟩

end Expressions

/-! ## SELECT -/

section Selects

variable {n : Nat} {r : Calls}

/-- What may come behind a table: a word that is no alias, or no word. -/
def BehindRef (rest : List Sym) : Prop := ∀ w, rest.head? = some (.ident w) → w ∈ refStopWords

theorem accepts_refAlias (what : String) {a : String} :
    Accepts (parseRefAlias what) [.ident "as", .ident a] (some a) fun _ => True :=
  accepts_take (Reads.map (accepts_identOrErr what a))

theorem accepts_noAlias (what : String) :
    Accepts (parseRefAlias what) [] none fun rest =>
      NotAhead (.ident "as") rest ∧ BehindRef rest := by
  refine accepts_skip (fun _ _ hF => hF.1) (reads_peek_nil fun t ⟨rest, ht⟩ => ?_)
  cases hsym : t.sym with
  | ident w =>
    show Accepts (if w ∈ refStopWords then _ else _) _ _ _
    rw [if_pos (ht.2 w (by rw [hsym]; rfl))]
    exact reads_pure
  | _ => exact reads_pure

theorem From.behindRef (h : From k rest) :
    NotAhead (.ident "as") rest ∧ BehindRef rest := by
  refine ⟨fun hhead => ?_, fun w hhead => ?_⟩
  · obtain ⟨m, hm, -⟩ := h _ hhead
    cases hm
  · obtain ⟨m, hm, -⟩ := h _ hhead
    revert hm
    unfold clauseRank
    split <;> intro hm <;> first | (rename_i heq; cases heq <;> decide) | cases hm

/-- **A table, or a SELECT in its place.** -/
theorem accepts_tableRef (hr : r.Accept n) {ref : TableRef} (h : ShowsRef ref ts)
    (hlen : ts.length ≤ n + 1) :
    Accepts (parseTableRef r) ts ref fun rest => NotAhead (.ident "as") rest ∧ BehindRef rest := by
  cases h with
  | plain ht =>
    refine accepts_skip (fun _ _ _ => by simp [NotAhead]) ?_
    exact accepts_ident (Reads.map (accepts_noAlias _))
  | @aliased t a ht ha =>
    refine accepts_skip (fun _ _ _ => by simp [NotAhead]) ?_
    refine accepts_ident ?_
    show Accepts _ _ (TableRef.mk t ((some a).getD t) none) _
    exact Reads.map ((accepts_refAlias _).mono fun _ _ => trivial)
  | @derived sub a ts ha h =>
    simp only [parens, List.length_append, List.length_cons, List.length_nil] at hlen
    have ha' : (some a).getD "" ≠ "" := ha.ne_empty
    have hts : parens ts ++ [.ident "as", .ident a] =
        .punct .lparen :: (ts ++ [.punct .rparen, .ident "as", .ident a]) := by simp [parens]
    rw [hts]
    refine accepts_take (accepts_at (fun rest _ _ => ?_) ?_)
    · rw [List.append_assoc]
      exact h.head _
    refine (hr.select h (by omega)).bind ?_ fun rest _ _ => from_cons rfl (Nat.le_refl 6) _
    refine accepts_expect ?_
    refine (accepts_refAlias _).bind ?_ fun _ _ _ => trivial
    rw [if_neg ha']
    exact reads_pure

/-- What may come behind a field. -/
def BehindField (rest : List Sym) : Prop :=
  rest.head? = some (.punct .comma) ∨ rest.head? = some (.ident "from")

theorem BehindField.follow (h : BehindField rest) : Follow .or rest := by
  intro s hs
  rcases h with h | h <;>
  · rw [h] at hs
    cases hs
    rfl

theorem accepts_fieldAlias {a : String} :
    Accepts parseOptionalAlias [.ident "as", .ident a] a fun _ => True :=
  accepts_take (accepts_identOrErr _ a)

theorem accepts_noFieldAlias : Accepts parseOptionalAlias [] "" BehindField := by
  refine accepts_skip (fun rest _ hF => ?_) (reads_peek_nil fun t ⟨rest, ht⟩ => ?_)
  · rcases hF with hF | hF <;> simp [NotAhead, hF]
  · rcases ht with ht | ht
    · have hsym : t.sym = .punct .comma := by simpa using ht
      rw [hsym]
      exact reads_pure
    · have hsym : t.sym = .ident "from" := by simpa using ht
      rw [hsym]
      exact reads_pure

theorem accepts_field (hr : r.Accept n) {f : Expr × String} (h : ShowsField f ts)
    (hlen : ts.length ≤ n + 1) : Accepts (parseField r) ts f BehindField := by
  cases h with
  | plain h =>
    exact (accepts_expr hr h hlen).last (Reads.map accepts_noFieldAlias) fun _ _ hF => hF.follow
  | @aliased e a ts h ha =>
    rw [List.length_append] at hlen
    refine (accepts_expr hr h (by omega)).bind ?_ fun rest _ _ => follow_cons rfl _
    exact Reads.map (accepts_fieldAlias.mono fun _ _ => trivial)

theorem accepts_fields (hr : r.Accept n) {star : Bool} {fields : List (Expr × String)}
    (h : ShowsFields star fields ts) (hlen : ts.length ≤ n + 1) :
    Accepts (parseFields r) ts (star, fields) fun rest => rest.head? = some (.ident "from") := by
  cases h with
  | star => exact accepts_take reads_pure
  | list h =>
    refine accepts_skip (fun rest _ _ => h.notAhead ?_ rest) (Reads.map ?_)
    · intro f us hf rest
      cases hf with
      | plain h => exact h.notAhead (not_opens_punct (by decide) (by decide)) rest
      | aliased h ha =>
        rw [List.append_assoc]
        exact h.notAhead (not_opens_punct (by decide) (by decide)) _
    · have hitems := h.imp (fun h hlen => accepts_field hr h hlen) hlen
      refine (accepts_commaList (fun rest => .inl rfl) hitems).mono fun rest hF => ⟨.inr hF, ?_⟩
      rw [NotAhead, hF]
      decide

theorem accepts_joinKw {left : Bool} {ks : List Sym} (h : ks ∈ joinKws left) :
    Accepts parseJoinKw ks (some left) fun _ => True := by
  cases left with
  | false =>
    simp only [joinKws, List.mem_cons, List.not_mem_nil, or_false] at h
    rcases h with rfl | rfl
    · exact accepts_take reads_pure
    · refine accepts_skip (fun _ _ _ => by simp [NotAhead]) (accepts_at (fun _ _ _ => rfl) ?_)
      have hkw : Accepts (tentatively (do
          let _ ← next
          takeKw "join")) [.ident "inner", .ident "join"] true fun _ => True :=
        reads_tentatively (reads_next fun _ _ => accepts_takeSym _)
      exact hkw.bind reads_pure fun _ _ _ => trivial
  | true =>
    simp only [joinKws, List.mem_cons, List.not_mem_nil, or_false] at h
    have hkw : Accepts (tentatively (do
        let _ ← next
        let _ ← takeKw "outer"
        takeKw "join")) ks true fun _ => True := by
      rcases h with rfl | rfl
      · refine reads_tentatively (reads_next fun _ _ => ?_)
        exact (accepts_takeSym_not _).pass (fun _ _ _ => by simp [NotAhead]) (accepts_takeSym _)
      · exact reads_tentatively (reads_next fun _ _ =>
          ReadsOne.bind (accepts_takeSym _) (accepts_takeSym _))
    have hhead : ∀ rest : List Sym, (ks ++ rest).head? = some (.ident "left") := by
      rcases h with rfl | rfl <;> exact fun _ => rfl
    refine accepts_skip (fun rest _ _ => by simp [NotAhead, hhead]) ?_
    refine accepts_notAt (fun rest _ _ => by simp [NotAhead, hhead]) ?_
    refine accepts_at (fun rest _ _ => hhead rest) ?_
    exact hkw.last reads_pure fun _ _ _ => trivial

theorem ShowsJoin.from {j : Join} (h : ShowsJoin j ts) (rest : List Sym) :
    From 0 (ts ++ rest) := by
  cases h with
  | @mk left ref on ks ts us hks href hon =>
    cases left <;> simp only [joinKws, List.mem_cons, List.not_mem_nil, or_false] at hks <;>
      rcases hks with rfl | rfl <;> exact from_cons rfl (Nat.le_refl 0) _

theorem ShowsJoin.ne_nil {j : Join} (h : ShowsJoin j ts) : ts ≠ [] := by
  cases h
  simp

theorem accepts_joinRound (hr : r.Accept n) {j : Join} (h : ShowsJoin j ts)
    (hlen : ts.length ≤ n + 1) (acc : List Join) :
    Accepts (joinRound r acc) ts (.yield (acc ++ [j])) (From 0) := by
  cases h with
  | mk hks href hon =>
    simp only [List.length_append, List.length_cons] at hlen
    refine (accepts_joinKw hks).bind ?_ fun _ _ _ => trivial
    refine (accepts_tableRef hr href (by omega)).bind ?_ fun rest _ _ => ⟨by simp [NotAhead], ?_⟩
    · refine accepts_expect (Reads.map ?_)
      exact (accepts_expr hr hon (by omega)).mono fun _ hF => hF.follow
    · rintro w ⟨⟩
      decide

theorem accepts_noJoin (acc : List Join) :
    Accepts (joinRound r acc) [] (.done acc) (From 1) := by
  have hkw : Accepts parseJoinKw [] none (From 1) := by
    refine accepts_skip (fun _ _ hF => hF.notAhead rfl Nat.zero_lt_one) ?_
    refine accepts_notAt (fun _ _ hF => hF.notAhead rfl Nat.zero_lt_one) ?_
    exact accepts_notAt (fun _ _ hF => hF.notAhead rfl Nat.zero_lt_one) reads_pure
  exact hkw.pass (fun _ _ hF => hF) reads_pure

/-- **Each join, until no word of one comes.** -/
theorem accepts_joins (hr : r.Accept n) {joins : List Join}
    (h : Each ShowsJoin joins ts) (hlen : ts.length ≤ n + 1) :
    Accepts (parseJoins r) ts joins (From 1) := by
  -- the rounds before have read `us` and collected `acc`
  have hrest : ∀ {us : List Sym} {acc : List Join},
      Goes Token.sym (joinRound r) (From 0) [] us acc →
        Accepts (parseJoins r) (us ++ ts) (acc ++ joins) (From 1) := by
    induction h with
    | nil =>
      intro us acc hgoes
      rw [List.append_nil acc]
      exact hgoes.done (accepts_noJoin acc) fun _ _ hF => hF.mono (Nat.zero_le 1)
    | @cons j joins ts vs h hmore ih =>
      intro us acc hgoes
      rw [List.length_append] at hlen
      have hnext := ih (by omega) (hgoes.yield (accepts_joinRound hr h (by omega) acc) h.ne_nil
        fun rest _ _ => h.from rest)
      simpa using hnext
  exact hrest goes_nil

/-- A clause that may be left out. -/
theorem accepts_clause {α : Type} {kw : String} (hk : clauseRank (.ident kw) = some k)
    {p : Parse α} {R : α → List Sym → Prop} {a : Option α}
    (hp : ∀ {a us}, R a us → us.length ≤ n + 1 → Accepts p us a (From (k + 1)))
    (h : Clause [.ident kw] R a ts) (hlen : ts.length ≤ n + 1) :
    Accepts (clause kw p) ts a (From (k + 1)) := by
  cases h with
  | none => exact accepts_skip (fun _ _ hF => hF.notAhead hk (Nat.lt_succ_self k)) reads_pure
  | some h => exact accepts_take (Reads.map (hp h (Nat.le_of_succ_le hlen)))

theorem accepts_group (hr : r.Accept n) {group : List Expr}
    (h : ClauseList [.ident "group", .ident "by"] (Shows .or) group ts)
    (hlen : ts.length ≤ n + 1) : Accepts (parseGroup r) ts group (From 3) := by
  cases h with
  | nil => exact accepts_skip (fun _ _ hF => hF.notAhead rfl (Nat.lt_succ_self 2)) reads_pure
  | list h =>
    have hitems := h.imp (fun h hlen => accepts_expr hr h hlen)
      (Nat.le_of_succ_le (Nat.le_of_succ_le hlen))
    refine accepts_take (accepts_expect ?_)
    exact (accepts_commaList (fun rest => follow_cons rfl rest) hitems).mono
      fun _ hF => ⟨hF.follow, hF.comma⟩

theorem accepts_term (hr : r.Accept n) {t : Expr × Bool} (h : ShowsTerm t ts)
    (hlen : ts.length ≤ n + 1) :
    Accepts (do
      let e ← parseExpr r
      let desc ← parseDesc
      return (e, desc)) ts t fun rest => rest.head? = some (.punct .comma) ∨ From 5 rest := by
  have hnext : ∀ {rest : List Sym}, rest.head? = some (.punct .comma) ∨ From 5 rest →
      Follow .or rest ∧ NotAhead (.ident "desc") rest ∧ NotAhead (.ident "asc") rest := by
    rintro rest (h | h)
    · refine ⟨fun s hs => ?_, by simp [NotAhead, h], by simp [NotAhead, h]⟩
      rw [h] at hs
      cases hs
      rfl
    · refine ⟨h.follow, fun hhead => ?_, fun hhead => ?_⟩
      · obtain ⟨m, hm, -⟩ := h _ hhead
        cases hm
      · obtain ⟨m, hm, -⟩ := h _ hhead
        cases hm
  cases h with
  | plain h =>
    refine (accepts_expr hr h hlen).last (Reads.map ?_) fun _ _ hF => (hnext hF).1
    refine accepts_skip (fun _ _ hF => (hnext hF).2.1) ?_
    exact (accepts_takeSym_not _).pass (fun _ _ hF => (hnext hF).2.2) reads_pure
  | asc h =>
    rw [List.length_append] at hlen
    refine (accepts_expr hr h (by omega)).bind (Reads.map ?_) fun rest _ _ => follow_cons rfl _
    refine accepts_skip (fun _ _ _ => by simp [NotAhead]) ?_
    exact ReadsOne.bind (accepts_takeSym _) reads_pure
  | desc h =>
    rw [List.length_append] at hlen
    refine (accepts_expr hr h (by omega)).bind (Reads.map ?_) fun rest _ _ => follow_cons rfl _
    exact accepts_take reads_pure

theorem accepts_order (hr : r.Accept n) {order : List (Expr × Bool)}
    (h : ClauseList [.ident "order", .ident "by"] ShowsTerm order ts)
    (hlen : ts.length ≤ n + 1) : Accepts (parseOrder r) ts order (From 5) := by
  cases h with
  | nil => exact accepts_skip (fun _ _ hF => hF.notAhead rfl (Nat.lt_succ_self 4)) reads_pure
  | list h =>
    have hitems := h.imp (fun h hlen => accepts_term hr h hlen)
      (Nat.le_of_succ_le (Nat.le_of_succ_le hlen))
    refine accepts_take (accepts_expect ?_)
    exact (accepts_commaList (fun rest => .inl rfl) hitems).mono fun _ hF => ⟨.inr hF, hF.comma⟩

theorem accepts_limit {m : Nat} (h : ShowsLimit m ts) :
    Accepts parseLimit ts m fun _ => True := by
  cases h with
  | mk h =>
    refine ReadsOne.bind (reads_take fun t ht => ?_) reads_pure
    rw [ht, h]

theorem clause_from {α : Type} {kw : String} (hk : clauseRank (.ident kw) = some k)
    {R : α → List Sym → Prop} {a : Option α} (h : Clause [.ident kw] R a ts)
    (hrest : From (k + 1) rest) : From k (ts ++ rest) := by
  cases h with
  | none => exact hrest.mono (Nat.le_succ k)
  | some h => exact from_cons hk (Nat.le_refl k) _

theorem clauseList_from {α : Type} {kw by_ : String}
    (hk : clauseRank (.ident kw) = some k) {R : α → List Sym → Prop} {as : List α}
    (h : ClauseList [.ident kw, .ident by_] R as ts)
    (hrest : From (k + 1) rest) : From k (ts ++ rest) := by
  cases h with
  | nil => exact hrest.mono (Nat.le_succ k)
  | list h => exact from_cons hk (Nat.le_refl k) _

theorem joins_from {joins : List Join} (h : Each ShowsJoin joins ts)
    (hrest : From 1 rest) : From 0 (ts ++ rest) := by
  cases h with
  | nil => exact hrest.mono (Nat.zero_le 1)
  | cons h hmore =>
    rw [List.append_assoc]
    exact h.from _

/-- **Every SELECT is read back.** -/
theorem accepts_select (hr : r.Accept n) {s : Select} (h : ShowsSelect s ts)
    (hlen : ts.length ≤ n + 1) : Accepts (parseSelect r) ts s (From 6) := by
  cases h with
  | @mk first joins star fields where_ having group order limit fs rs js ws gs hs os ls
      hfields hfirst hjoins hwhere hgroup hhaving horder hlimit =>
      simp only [List.length_append, List.length_cons] at hlen
      have hexpr : ∀ {k : Nat} {e : Expr} {us : List Sym}, Shows .or e us → us.length ≤ n + 1 →
          Accepts (parseExpr r) us e (From k) :=
        fun h hlen => (accepts_expr hr h hlen).mono fun _ hF => hF.follow
      -- what comes behind each part, from the last to the first
      have h5 : ∀ rest, From 6 rest → From 5 (ls ++ rest) := fun _ h => clause_from rfl hlimit h
      have h4 : ∀ rest, From 6 rest → From 4 (os ++ ls ++ rest) := fun rest h => by
        rw [List.append_assoc]
        exact clauseList_from rfl horder (h5 rest h)
      have h3 : ∀ rest, From 6 rest → From 3 (hs ++ (os ++ ls) ++ rest) := fun rest h => by
        rw [List.append_assoc]
        exact clause_from rfl hhaving (h4 rest h)
      have h2 : ∀ rest, From 6 rest → From 2 (gs ++ (hs ++ (os ++ ls)) ++ rest) := fun rest h => by
        rw [List.append_assoc]
        exact clauseList_from rfl hgroup (h3 rest h)
      have h1 : ∀ rest, From 6 rest → From 1 (ws ++ (gs ++ (hs ++ (os ++ ls))) ++ rest) :=
        fun rest h => by
          rw [List.append_assoc]
          exact clause_from rfl hwhere (h2 rest h)
      have h0 : ∀ rest, From 6 rest → From 0 (js ++ (ws ++ (gs ++ (hs ++ (os ++ ls)))) ++ rest) :=
        fun rest h => by
          rw [List.append_assoc]
          exact joins_from hjoins (h1 rest h)
      refine reads_next fun _ _ => (accepts_fields hr hfields (by omega)).bind ?_ fun _ _ _ => rfl
      refine accepts_expect ?_
      refine (accepts_tableRef hr hfirst (by omega)).bind ?_
        fun rest _ h => (h0 rest h).behindRef
      refine (accepts_joins hr hjoins (by omega)).bind ?_ fun rest _ h => h1 rest h
      refine (accepts_clause rfl hexpr hwhere (by omega)).bind ?_ fun rest _ h => h2 rest h
      refine (accepts_group hr hgroup (by omega)).bind ?_ fun rest _ h => h3 rest h
      refine (accepts_clause rfl hexpr hhaving (by omega)).bind ?_ fun rest _ h => h4 rest h
      refine (accepts_order hr horder (by omega)).bind ?_ fun rest _ h => h5 rest h
      refine Reads.map (accepts_clause (n := n) rfl (fun h _ => ?_) hlimit (by omega))
      exact (accepts_limit h).mono fun _ _ => trivial

/-- **As many levels of calls as there are tokens** read them. -/
theorem accepts_grammar (n : Nat) : (grammar n).Accept n := by
  induction n with
  | zero =>
    have hnil : ∀ {ts : List Sym}, ts.length ≤ 0 → ts = [] :=
      fun h => List.length_eq_zero_iff.mp (Nat.le_zero.mp h)
    have hexpr : ∀ {l : Level} {e : Expr} {ts : List Sym}, Shows l e ts → ¬ ts.length ≤ 0 := by
      intro l e ts h hlen
      obtain ⟨s, us, rfl, -⟩ := h.opens
      cases hnil hlen
    refine ⟨fun h hlen => absurd hlen (hexpr h), fun h hlen => ?_,
      fun h hlen => absurd hlen (hexpr h), fun h hlen => absurd hlen (hexpr h)⟩
    cases h
    cases hlen
  | succ n ih =>
    exact ⟨accepts_expr ih, accepts_select ih, accepts_not ih, accepts_unary ih⟩

end Selects

end Tsql.Parser
