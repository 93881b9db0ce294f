import Tsql.Parser.Parse

/-!
# The parser makes progress

Every parse function, at every position of a list of tokens that ends in
`eof`, returns or fails with a syntax error, inside the list and not before
the position it began at; and if it returns, it has read a token. So no loop
and no recursion of `Parse` goes on for ever.

`next` stays where it is at `eof`. That it has moved on is known where the
current token is known not to be `eof`, and each function reads at least one
such token; its recursive calls come behind one, which is why as many levels
of calls as there are tokens ahead are enough.
-/

namespace Tsql.Parser

open Cursor

/-- The recursive calls make progress where at most `n` tokens are ahead. -/
structure Calls.Moves (toks : List Token) (n : Nat) (r : Calls) : Prop where
  expr : Cursor.Moves toks n r.expr
  select : Cursor.Moves toks n r.select
  not : Cursor.Moves toks n r.not
  unary : Cursor.Moves toks n r.unary

section

variable {α : Type} {toks : List Token} {n : Nat} {k : α → Nat}

/-! ## The helpers -/

theorem progress_errf (m : Message) : Progress toks n k (errf m : Parse α) :=
  progress_peek fun t => (progress_fail _).at t

theorem stays_atSym (s : Sym) : Stays toks n (atSym s) :=
  progress_peek fun _ => progressAt_pure rfl

/-- A branch on the current token. -/
theorem moves_atKw {kw : String} {yes no : Parse α} (hyes : Moves toks n yes)
    (hno : Moves toks n no) : Moves toks n (do if ← atKw kw then yes else no) := by
  refine (stays_atSym _).bind fun b => ?_
  cases b with
  | true => exact hyes
  | false => exact hno

theorem Ended.sym_of_getLast? (hend : Ended toks) {t : Token} (h : toks.getLast? = some t) :
    t.sym = .eof := by
  obtain ⟨init, pos, rfl, -⟩ := hend
  rw [List.getLast?_append_of_ne_nil] at h
  · cases h
    rfl
  · simp

variable (hend : Ended toks)

include hend

theorem Ended.next {t : Token} {f : Token → Parse α} (ht : t.sym ≠ .eof)
    (hf : Progress toks (n - 1) (fun a => k a - 1) (f t)) :
    ProgressAt toks t n k (Cursor.next >>= f) :=
  progressAt_next (fun h => ht (hend.sym_of_getLast? h)) hf

theorem progress_takeSym {s : Sym} (hs : s ≠ .eof) : Progress toks n readIf (takeSym s) := by
  refine progress_peek fun t => ?_
  by_cases ht : t.sym = s
  · rw [if_pos ht]
    exact hend.next (by rwa [ht]) (progress_pure rfl)
  · rw [if_neg ht]
    exact progressAt_pure rfl

theorem progress_takeKw (kw : String) : Progress toks n readIf (takeKw kw) :=
  progress_takeSym hend (by simp)

theorem progress_takePunct (p : Punct) : Progress toks n readIf (takePunct p) :=
  progress_takeSym hend (by simp)

theorem moves_expectSym {s : Sym} (hs : s ≠ .eof) (m : Sym → Message) :
    Moves toks n (expectSym s m) := by
  refine progress_peek fun t => ?_
  by_cases ht : t.sym = s
  · rw [if_pos ht]
    exact hend.next (by rwa [ht]) (progress_pure rfl)
  · rw [if_neg ht]
    exact (progress_errf _).at t

theorem moves_expectKw (kw : String) : Moves toks n (expectKw kw) :=
  moves_expectSym hend (by simp) _

theorem moves_expectPunct (p : Punct) : Moves toks n (expectPunct p) :=
  moves_expectSym hend (by simp) _

theorem moves_identOrErr (what : String) : Moves toks n (identOrErr what) := by
  refine progress_peek fun t => ?_
  cases ht : t.sym with
  | ident name => exact hend.next (by simp [ht]) (progress_pure rfl)
  | eof => exact (progress_errf _).at t
  | num text => exact (progress_errf _).at t
  | str s => exact (progress_errf _).at t
  | punct p => exact (progress_errf _).at t

theorem progress_takeOp {β : Type} {op : Sym → Option β} (hop : op .eof = none) :
    Progress toks n readOne (take fun t => op t.sym : Parse (Option β)) :=
  progress_take fun t ht => by rw [hend.sym_of_getLast? ht, hop]

/-- **A list between commas** reads what its items read. -/
theorem moves_commaList {item : Parse α} (hitem : Moves toks n item) :
    Moves toks n (commaList item) := by
  refine progress_forever (fun acc => hitem.bind fun a => ?_) []
  exact (progress_takePunct hend .comma).ite (progress_pure rfl) (progress_pure rfl)

theorem stays_clause {p : Parse α} (kw : String) (hp : Stays toks n p) :
    Stays toks n (clause kw p) :=
  (progress_takeKw hend kw).ite
    ((hp.mono (Nat.sub_le n 1) fun _ => Nat.le_refl 0).bind fun _ => progress_pure rfl)
    (progress_pure rfl)

/-- **A chain of operators** reads its first operand. -/
theorem moves_chain {op : Sym → Option (Expr → Expr → Expr)} (hop : op .eof = none)
    {operand : Parse Expr} (hoperand : Moves toks n operand) :
    Moves toks n (chain op operand) := by
  refine hoperand.bind fun l => progress_forever (fun l => ?_) l
  refine (progress_takeOp hend hop).bind fun o => ?_
  cases o with
  | none => exact progress_pure rfl
  | some mk =>
    have hless : Stays toks (n - 1 - 1) operand :=
      hoperand.stays.mono (by omega) fun _ => Nat.le_refl 0
    exact hless.bind fun x => progress_pure rfl

end

/-! ## Expressions -/

section

variable {α : Type} {toks : List Token} (hend : Ended toks) {n : Nat} {r : Calls}

theorem stays_parseNumber (text : Bytes) : Stays toks n (parseNumber text) := by
  unfold parseNumber
  split
  · split
    · exact progress_pure rfl
    · exact progress_errf _
  · split
    · exact progress_pure rfl
    · exact progress_errf _

include hend

theorem stays_parseArgument (hr : r.Moves toks n) : Stays toks n (parseArgument r) := by
  refine (progress_takePunct hend .star).ite (progress_pure rfl) ?_
  refine (stays_atSym _).bind fun b => ?_
  cases b with
  | true => exact progress_pure rfl
  | false => exact hr.expr.stays.bind fun arg => progress_pure rfl

theorem stays_parseNamed (hr : r.Moves toks n) (name : String) :
    Stays toks n (parseNamed r name) := by
  refine (progress_takePunct hend .dot).ite ?_ ?_
  · exact (moves_identOrErr hend _).bind fun cn => progress_pure rfl
  refine (progress_takePunct hend .lparen).ite ?_ (progress_pure rfl)
  have harg : Stays toks (n - 1) (parseArgument r) :=
    (stays_parseArgument hend hr).mono (Nat.sub_le n 1) fun _ => Nat.le_refl 0
  exact harg.bind fun _ => (moves_expectPunct hend .rparen).bind fun _ => progress_pure rfl

theorem moves_parsePrimary (hr : r.Moves toks n) : Moves toks (n + 1) (parsePrimary r) := by
  refine progress_peek fun t => ?_
  cases ht : t.sym with
  | num text => exact hend.next (by simp [ht]) (stays_parseNumber text)
  | str s => exact hend.next (by simp [ht]) (progress_pure rfl)
  | ident name =>
    refine hend.next (by simp [ht]) ?_
    show Stays toks n _
    split
    · exact progress_pure rfl
    split
    · exact progress_pure rfl
    split
    · exact progress_pure rfl
    exact stays_parseNamed hend hr name
  | punct p =>
    cases p with
    | lparen =>
      refine hend.next (by simp [ht]) ?_
      exact hr.expr.bind fun e => (moves_expectPunct hend .rparen).bind fun _ =>
        progress_pure rfl
    | _ => exact (progress_errf _).at t
  | eof => exact (progress_errf _).at t

theorem moves_parseUnary (hr : r.Moves toks n) : Moves toks (n + 1) (parseUnary r) :=
  (progress_takePunct hend .minus).ite (hr.unary.bind fun _ => progress_pure rfl)
    (moves_parsePrimary hend hr)

theorem moves_parseMul (hr : r.Moves toks n) : Moves toks (n + 1) (parseMul r) :=
  moves_chain hend rfl (moves_parseUnary hend hr)

theorem moves_parseAdd (hr : r.Moves toks n) : Moves toks (n + 1) (parseAdd r) :=
  moves_chain hend rfl (moves_parseMul hend hr)

/-- Dangling words are put back: only a result has read tokens. -/
theorem progress_tentativelyKw (kw : String) {p : Parse α} (hp : Stays toks n p) :
    Progress toks n readIf (tentatively (do let _ ← p; takeKw kw)) :=
  progress_tentatively rfl (hp.bind fun _ => progress_takeKw hend kw)

theorem progress_parseInKw : Progress toks n readOne parseInKw := by
  refine (stays_atSym _).bind fun b => ?_
  cases b with
  | true =>
    exact (progress_tentativelyKw hend "in" progress_next).ite (progress_pure rfl)
      (progress_pure rfl)
  | false => exact (progress_takeKw hend "in").ite (progress_pure rfl) (progress_pure rfl)

theorem stays_parseIn (hr : r.Moves toks n) (l : Expr) (neg : Bool) :
    Stays toks (n + 1) (parseIn r l neg) := by
  refine (moves_expectPunct hend .lparen).bind fun _ => ?_
  refine (stays_atSym _).bind fun b => ?_
  cases b with
  | true =>
    exact hr.select.bind fun sub => (moves_expectPunct hend .rparen).bind fun _ =>
      progress_pure rfl
  | false =>
    exact (moves_commaList hend hr.expr).bind fun list =>
      (moves_expectPunct hend .rparen).bind fun _ => progress_pure rfl

theorem stays_parseTest (hr : r.Moves toks n) (l : Expr) :
    Stays toks (n + 1) (parseTest r l) := by
  refine (progress_takeKw hend "is").ite ?_ ?_
  · exact (progress_takeKw hend "not").stays.bind fun neg =>
      (moves_expectKw hend "null").bind fun _ => progress_pure rfl
  refine (progress_parseInKw hend).stays.bind fun neg => ?_
  cases neg with
  | some neg => exact stays_parseIn hend hr l neg
  | none => exact progress_pure rfl

theorem moves_parseCmp (hr : r.Moves toks n) : Moves toks (n + 1) (parseCmp r) := by
  refine (moves_parseAdd hend hr).bind fun l => ?_
  refine (progress_takeOp hend rfl).stays.bind fun op => ?_
  cases op with
  | some op =>
    have hless : Stays toks n (parseAdd r) :=
      (moves_parseAdd hend hr).stays.fewer
    exact hless.bind fun x => progress_pure rfl
  | none =>
    exact (stays_parseTest hend hr l).fewer

theorem moves_parseNot (hr : r.Moves toks n) : Moves toks (n + 1) (parseNot r) :=
  (progress_takeKw hend "not").ite (hr.not.bind fun _ => progress_pure rfl)
    (moves_parseCmp hend hr)

theorem moves_parseAnd (hr : r.Moves toks n) : Moves toks (n + 1) (parseAnd r) :=
  moves_chain hend rfl (moves_parseNot hend hr)

theorem moves_parseOr (hr : r.Moves toks n) : Moves toks (n + 1) (parseOr r) :=
  moves_chain hend rfl (moves_parseAnd hend hr)

theorem moves_parseExpr (hr : r.Moves toks n) : Moves toks (n + 1) (parseExpr r) :=
  moves_parseOr hend hr

/-! ## SELECT -/

theorem progress_parseRefAlias (what : String) :
    Progress toks n readOne (parseRefAlias what) := by
  refine (progress_takeKw hend "as").ite ?_ ?_
  · exact (moves_identOrErr hend what).stays.bind fun _ => progress_pure rfl
  refine progress_peek fun t => ?_
  cases t.sym with
  | ident w =>
    show ProgressAt toks t n readOne (if w ∈ refStopWords then _ else _)
    split
    · exact progressAt_pure rfl
    · exact Progress.at ((moves_identOrErr hend what).bind fun _ => progress_pure rfl) t
  | _ => exact progressAt_pure rfl

theorem moves_parseTableRef (hr : r.Moves toks n) : Moves toks (n + 1) (parseTableRef r) := by
  refine (progress_takePunct hend .lparen).ite ?_ ?_
  · refine (stays_atSym _).bind fun b => ?_
    cases b with
    | false => exact progress_errf _
    | true =>
      refine hr.select.stays.bind fun sub => ?_
      refine (moves_expectPunct hend .rparen).stays.bind fun _ => ?_
      refine (progress_parseRefAlias hend _).stays.bind fun a => ?_
      show Stays toks n (if a.getD "" = "" then _ else _)
      split
      · exact progress_errf _
      · exact progress_pure rfl
  · exact (moves_identOrErr hend _).bind fun name =>
      (progress_parseRefAlias hend _).stays.bind fun a => progress_pure rfl

/-- An alias that is there has been read. -/
theorem progress_parseOptionalAlias :
    Progress toks n (fun a => if a = "" then 0 else 1) parseOptionalAlias := by
  refine (progress_takeKw hend "as").ite ?_ ?_
  · refine (moves_identOrErr hend _).mono (Nat.le_refl _) fun a => ?_
    split <;> omega
  refine progress_peek fun t => ?_
  cases ht : t.sym with
  | ident w =>
    show ProgressAt toks t n _ (if w ∈ fieldStopWords then _ else _)
    split
    · exact progressAt_pure rfl
    · refine hend.next (by simp [ht]) (progress_pure ?_)
      split <;> omega
  | _ => exact progressAt_pure rfl

theorem moves_parseField (hr : r.Moves toks n) : Moves toks (n + 1) (parseField r) :=
  (moves_parseExpr hend hr).bind fun _ => (progress_parseOptionalAlias hend).stays.bind fun _ =>
    progress_pure rfl

theorem moves_parseFields (hr : r.Moves toks n) : Moves toks (n + 1) (parseFields r) :=
  (progress_takePunct hend .star).ite (progress_pure rfl)
    ((moves_commaList hend (moves_parseField hend hr)).bind fun _ => progress_pure rfl)

theorem progress_parseJoinKw : Progress toks n readOne parseJoinKw := by
  refine (progress_takeKw hend "join").ite (progress_pure rfl) ?_
  refine (stays_atSym _).bind fun b => ?_
  cases b with
  | true =>
    exact (progress_tentativelyKw hend "join" progress_next).ite (progress_pure rfl)
      (progress_pure rfl)
  | false =>
    refine (stays_atSym _).bind fun b => ?_
    cases b with
    | true =>
      have hkw : Progress toks n readIf
          (tentatively (do let _ ← next; let _ ← takeKw "outer"; takeKw "join")) :=
        progress_tentatively rfl (progress_next.bind fun _ =>
          (progress_takeKw hend "outer").stays.bind fun _ => progress_takeKw hend "join")
      exact hkw.ite (progress_pure rfl) (progress_pure rfl)
    | false => exact progress_pure rfl

theorem stays_parseJoins (hr : r.Moves toks n) : Stays toks (n + 1) (parseJoins r) := by
  refine progress_forever (fun joins => ?_) []
  refine (progress_parseJoinKw hend).bind fun left => ?_
  cases left with
  | none => exact progress_pure rfl
  | some left =>
    have href : Stays toks n (parseTableRef r) :=
      (moves_parseTableRef hend hr).stays.fewer
    have hon : Stays toks n (parseExpr r) :=
      (moves_parseExpr hend hr).stays.fewer
    exact href.bind fun ref => (moves_expectKw hend "on").stays.bind fun _ =>
      hon.bind fun on => progress_pure rfl

theorem stays_parseGroup (hr : r.Moves toks n) : Stays toks (n + 1) (parseGroup r) :=
  (progress_takeKw hend "group").ite
    ((moves_expectKw hend "by").stays.bind fun _ =>
      (moves_commaList hend (moves_parseExpr hend hr)).stays.fewer)
    (progress_pure rfl)

theorem stays_parseDesc : Stays toks n parseDesc :=
  (progress_takeKw hend "desc").ite (progress_pure rfl)
    ((progress_takeKw hend "asc").stays.bind fun _ => progress_pure rfl)

theorem stays_parseOrder (hr : r.Moves toks n) : Stays toks (n + 1) (parseOrder r) := by
  refine (progress_takeKw hend "order").ite ?_ (progress_pure rfl)
  refine (moves_expectKw hend "by").stays.bind fun _ => ?_
  have hterm : Moves toks (n + 1) (do
      let e ← parseExpr r
      let desc ← parseDesc
      return (e, desc)) :=
    (moves_parseExpr hend hr).bind fun _ => (stays_parseDesc hend).bind fun _ =>
      progress_pure rfl
  exact (moves_commaList hend hterm).stays.fewer

theorem stays_parseLimit : Stays toks n parseLimit := by
  refine (progress_takeOp hend rfl).stays.bind fun o => ?_
  cases o with
  | some m => exact progress_pure rfl
  | none => exact progress_errf _

theorem stays_parseClauses (hr : r.Moves toks n) (star : Bool) (fields : List (Expr × String)) :
    Stays toks n (parseClauses r star fields) := by
  refine (moves_expectKw hend "from").stays.bind fun _ => ?_
  refine (moves_parseTableRef hend hr).stays.fewer.bind fun _ => ?_
  refine (stays_parseJoins hend hr).fewer.bind fun _ => ?_
  refine (stays_clause hend "where" (moves_parseExpr hend hr).stays.fewer).bind fun _ => ?_
  refine (stays_parseGroup hend hr).fewer.bind fun _ => ?_
  refine (stays_clause hend "having" (moves_parseExpr hend hr).stays.fewer).bind fun _ => ?_
  refine (stays_parseOrder hend hr).fewer.bind fun _ => ?_
  exact (stays_clause hend "limit" (stays_parseLimit hend)).bind fun _ => progress_pure rfl

theorem moves_parseSelect (hr : r.Moves toks n) : Moves toks (n + 1) (parseSelect r) :=
  progress_next.bind fun _ => (moves_parseFields hend hr).bind fun fields =>
    stays_parseClauses hend hr fields.1 fields.2

/-- **As many levels of calls as there are tokens ahead** are enough. -/
theorem moves_grammar (n : Nat) : (grammar n).Moves toks n := by
  induction n with
  | zero =>
    -- there is no position with nothing ahead
    have hnone : ∀ {α : Type} (p : Parse α), Moves toks 0 p := fun p i hi hn => by omega
    exact ⟨hnone _, hnone _, hnone _, hnone _⟩
  | succ n ih =>
    exact ⟨moves_parseExpr hend ih, moves_parseSelect hend ih, moves_parseNot hend ih,
      moves_parseUnary hend ih⟩

/-! ## The other statements -/

theorem progress_attrRound (cd : ColumnDef) :
    Progress toks n (readRound fun _ => 0) (attrRound cd) := by
  refine (progress_takeKw hend "primary").ite ?_ ?_
  · exact (moves_expectKw hend "key").stays.bind fun _ => progress_pure rfl
  refine (progress_takeKw hend "not").ite ?_ ?_
  · exact (moves_expectKw hend "null").stays.bind fun _ => progress_pure rfl
  refine (progress_takeKw hend "auto_increment").ite (progress_pure rfl) ?_
  refine (progress_takeKw hend "unique").ite (progress_pure rfl) ?_
  refine (progress_takeKw hend "references").ite ?_ (progress_pure rfl)
  refine (moves_identOrErr hend _).stays.bind fun ref => ?_
  refine (progress_takePunct hend .lparen).ite ?_ (progress_pure rfl)
  exact (moves_identOrErr hend _).stays.bind fun c =>
    (moves_expectPunct hend .rparen).stays.bind fun _ => progress_pure rfl

theorem moves_parseColumnDef : Moves toks n parseColumnDef := by
  refine (moves_identOrErr hend _).bind fun name => ?_
  refine (moves_identOrErr hend _).stays.bind fun tn => ?_
  show Stays toks (n - 1) (if _ then _ else _)
  split
  · exact progress_forever (progress_attrRound hend) _
  · exact progress_errf _

theorem moves_parseCreate : Moves toks n parseCreate :=
  progress_next.bind fun _ => (moves_expectKw hend "table").bind fun _ =>
    (moves_identOrErr hend _).stays.bind fun _ =>
      (moves_expectPunct hend .lparen).stays.bind fun _ =>
        (moves_commaList hend (moves_parseColumnDef hend)).stays.bind fun _ =>
          (moves_expectPunct hend .rparen).stays.bind fun _ => progress_pure rfl

theorem stays_parseIfExists : Stays toks n parseIfExists :=
  (progress_takeKw hend "if").ite
    ((moves_expectKw hend "exists").stays.bind fun _ => progress_pure rfl) (progress_pure rfl)

theorem moves_parseDrop : Moves toks n parseDrop :=
  progress_next.bind fun _ => (moves_expectKw hend "table").bind fun _ =>
    (stays_parseIfExists hend).bind fun _ => (moves_identOrErr hend _).stays.bind fun _ =>
      progress_pure rfl

theorem stays_parseInsertCols : Stays toks n parseInsertCols :=
  (progress_takePunct hend .lparen).ite
    ((moves_commaList hend (moves_identOrErr hend _)).stays.bind fun _ =>
      (moves_expectPunct hend .rparen).stays.bind fun _ => progress_pure rfl)
    (progress_pure rfl)

theorem moves_parseTuple (hr : r.Moves toks n) : Moves toks (n + 1) (parseTuple r) :=
  (moves_expectPunct hend .lparen).bind fun _ =>
    (progress_takePunct hend .rparen).ite (progress_pure rfl)
      ((moves_commaList hend (moves_parseExpr hend hr)).stays.fewer.bind fun _ =>
        (moves_expectPunct hend .rparen).stays.bind fun _ => progress_pure rfl)

theorem moves_parseInsert (hr : r.Moves toks n) : Moves toks (n + 1) (parseInsert r) :=
  progress_next.bind fun _ => (moves_expectKw hend "into").bind fun _ =>
    (moves_identOrErr hend _).stays.bind fun _ => (stays_parseInsertCols hend).bind fun _ =>
      (moves_expectKw hend "values").stays.bind fun _ =>
        (moves_commaList hend (moves_parseTuple hend hr)).stays.fewer.bind fun _ =>
          progress_pure rfl

theorem moves_parseAssignment (hr : r.Moves toks n) : Moves toks (n + 1) (parseAssignment r) :=
  (moves_identOrErr hend _).bind fun _ => (moves_expectPunct hend .eq).stays.bind fun _ =>
    (moves_parseExpr hend hr).stays.fewer.bind fun _ => progress_pure rfl

theorem moves_parseUpdate (hr : r.Moves toks n) : Moves toks (n + 1) (parseUpdate r) :=
  progress_next.bind fun _ => (moves_identOrErr hend _).bind fun _ =>
    (moves_expectKw hend "set").stays.bind fun _ =>
      (moves_commaList hend (moves_parseAssignment hend hr)).stays.fewer.bind fun _ =>
        (stays_clause hend "where" (moves_parseExpr hend hr).stays.fewer).bind fun _ =>
          progress_pure rfl

theorem moves_parseDelete (hr : r.Moves toks n) : Moves toks (n + 1) (parseDelete r) :=
  progress_next.bind fun _ => (moves_expectKw hend "from").bind fun _ =>
    (moves_identOrErr hend _).stays.bind fun _ =>
      (stays_clause hend "where" (moves_parseExpr hend hr).stays.fewer).bind fun _ =>
        progress_pure rfl

theorem moves_parseStatement (hr : r.Moves toks n) : Moves toks (n + 1) (parseStatement r) := by
  refine moves_atKw (moves_parseCreate hend) ?_
  refine moves_atKw (moves_parseDrop hend) ?_
  refine moves_atKw (moves_parseInsert hend hr) ?_
  refine moves_atKw ((moves_parseSelect hend hr).bind fun _ => progress_pure rfl) ?_
  refine moves_atKw (moves_parseUpdate hend hr) ?_
  refine moves_atKw (moves_parseDelete hend hr) ?_
  refine (progress_takeKw hend "begin").ite (progress_pure rfl) ?_
  refine (progress_takeKw hend "start").ite ?_ ?_
  · exact (moves_expectKw hend "transaction").stays.bind fun _ => progress_pure rfl
  refine (progress_takeKw hend "commit").ite (progress_pure rfl) ?_
  refine (progress_takeKw hend "rollback").ite (progress_pure rfl) ?_
  refine progress_peek fun t => ?_
  split
  · exact (progress_errf _).at t
  · exact (progress_errf _).at t

theorem stays_parseWhole (hr : r.Moves toks n) : Stays toks n (parseWhole r) := by
  refine (moves_parseStatement hend hr).stays.fewer.bind fun st => ?_
  refine (progress_takePunct hend .semi).stays.bind fun _ => ?_
  refine progress_peek fun t => ?_
  split
  · exact progressAt_pure rfl
  · exact (progress_errf _).at t

end

/-! ## Every parse function, and `Parse` -/

/-- The parse functions of the statement and the expression grammar. -/
inductive Rule : Type → Type 1
  | statement : Rule Statement
  | create : Rule Statement
  | columnDef : Rule ColumnDef
  | drop : Rule Statement
  | insert : Rule Statement
  | tableRef : Rule TableRef
  | select : Rule Select
  | update : Rule Statement
  | delete : Rule Statement
  | expr : Rule Expr
  | or : Rule Expr
  | and : Rule Expr
  | not : Rule Expr
  | cmp : Rule Expr
  | add : Rule Expr
  | mul : Rule Expr
  | unary : Rule Expr
  | primary : Rule Expr

def Rule.run (r : Calls) : {α : Type} → Rule α → Parse α
  | _, .statement => parseStatement r
  | _, .create => parseCreate
  | _, .columnDef => parseColumnDef
  | _, .drop => parseDrop
  | _, .insert => parseInsert r
  | _, .tableRef => parseTableRef r
  | _, .select => parseSelect r
  | _, .update => parseUpdate r
  | _, .delete => parseDelete r
  | _, .expr => parseExpr r
  | _, .or => parseOr r
  | _, .and => parseAnd r
  | _, .not => parseNot r
  | _, .cmp => parseCmp r
  | _, .add => parseAdd r
  | _, .mul => parseMul r
  | _, .unary => parseUnary r
  | _, .primary => parsePrimary r

theorem Rule.moves {α : Type} {toks : List Token} (hend : Ended toks) {n : Nat} {r : Calls}
    (hr : r.Moves toks n) (f : Rule α) : Moves toks (n + 1) (f.run r) := by
  cases f with
  | statement => exact moves_parseStatement hend hr
  | create => exact moves_parseCreate hend
  | columnDef => exact moves_parseColumnDef hend
  | drop => exact moves_parseDrop hend
  | insert => exact moves_parseInsert hend hr
  | tableRef => exact moves_parseTableRef hend hr
  | select => exact moves_parseSelect hend hr
  | update => exact moves_parseUpdate hend hr
  | delete => exact moves_parseDelete hend hr
  | expr => exact moves_parseExpr hend hr
  | or => exact moves_parseOr hend hr
  | and => exact moves_parseAnd hend hr
  | not => exact moves_parseNot hend hr
  | cmp => exact moves_parseCmp hend hr
  | add => exact moves_parseAdd hend hr
  | mul => exact moves_parseMul hend hr
  | unary => exact moves_parseUnary hend hr
  | primary => exact moves_parsePrimary hend hr

/-- `Parse` returns a statement or a syntax error: it neither reads outside
the tokens nor goes on for ever. -/
theorem parse_ends (src : Bytes) :
    (∃ st, parse src = .ok st) ∨ ∃ e, parse src = .error (.error e) := by
  unfold parse
  cases hlex : lex src with
  | error e => exact .inr ⟨e, rfl⟩
  | ok toks =>
    have hend := lex_ends hlex
    have hpos : 0 < toks.length := by
      obtain ⟨init, pos, rfl, -⟩ := hend
      simp
    have h := stays_parseWhole hend (moves_grammar hend toks.length) 0 hpos (Nat.sub_le _ _)
    revert h
    show Lands toks 0 _ (parseWhole (grammar toks.length) toks 0) →
      (∃ st, (parseWhole (grammar toks.length) toks 0).1 = .ok st) ∨
        ∃ e, (parseWhole (grammar toks.length) toks 0).1 = .error (.error e)
    generalize parseWhole (grammar toks.length) toks 0 = out
    rintro ⟨⟩
    case ok a _ _ _ => exact .inl ⟨a, rfl⟩
    case error e _ _ _ => exact .inr ⟨e, rfl⟩

/-- **The parser makes progress.** The tokens end in the one `eof`. Each parse
function, begun at any of them, ends inside the list, and if it succeeds it
has read a token; an optional alias has been read if there is one. `Parse`
ends on every input. -/
theorem parser_makes_progress (src : Bytes) :
    (∀ toks, lex src = .ok toks → Ended toks ∧ ∀ n, toks.length ≤ n → ∀ i, i < toks.length →
      (∀ {α : Type} (f : Rule α), Lands toks i (fun _ => 1) (f.run (grammar n) toks i)) ∧
        Lands toks i (fun a => if a = "" then 0 else 1) (parseOptionalAlias toks i)) ∧
    ((∃ st, parse src = .ok st) ∨ ∃ e, parse src = .error (.error e)) := by
  refine ⟨fun toks hlex => ?_, parse_ends src⟩
  have hend := lex_ends hlex
  refine ⟨hend, fun n hn i hi => ⟨fun f => ?_, ?_⟩⟩
  · exact f.moves hend (moves_grammar hend n) i hi (by omega)
  · exact progress_parseOptionalAlias hend i hi (Nat.le_refl _)

/-- A SELECT that breaks off: three tokens, each of which it may begin at. -/
theorem parser_makes_progress_truncated :
    ∃ toks, lex (Bytes.ofString "select (") = .ok toks ∧ toks.length = 3 ∧
      ∀ i, i < 3 → Lands toks i (fun _ => 1) (Rule.select.run (grammar 3) toks i) := by
  have hlex : lex (Bytes.ofString "select (") =
      .ok [⟨.ident "select", 0⟩, ⟨.punct .lparen, 7⟩, ⟨.eof, 8⟩] := by decide +kernel
  obtain ⟨-, h⟩ := (parser_makes_progress (Bytes.ofString "select (")).1 _ hlex
  exact ⟨_, hlex, rfl, fun i hi => (h 3 (Nat.le_refl 3) i hi).1 .select⟩

end Tsql.Parser
