import Tsql.Executor.Dml
import Tsql.Executor.Frame
import Tsql.Executor.Shortcut
import Tsql.Parser.RoundTrip
import Tsql.Storage.SessionWrites

/-!
# Literals through INSERT

A literal travels from the text of an INSERT into a column and back through a
SELECT: the lexer reads its bytes, the parser its tokens, `evalInsertValue`
its expression, and `coerce` its value. All of them keep it, but for the
integers below zero: the parser reads their sign as a subtraction, and VALUES
takes no expressions.
-/

namespace Tsql.Executor

open Storage Tsql.Parser

/-! ## How literals are written -/

inductive Literal where
  | int (n : Int64)
  | text (s : Bytes)
  | bool (b : Bool)
  | null

namespace Literal

def value : Literal → Value
  | .int n => .int n
  | .text s => .text s
  | .bool b => .bool b
  | .null => .null

/-- Is it written with a sign? -/
def negative : Literal → Bool
  | .int n => decide (n.toInt < 0)
  | _ => false

/-- **The text of a literal**: integers in decimal, strings in quotes with each
quote doubled. -/
def written : Literal → Bytes
  | .int n =>
    if n.toInt < 0 then '-'.toUInt8 :: Decimal.digits n.toInt.natAbs
    else Decimal.digits n.toInt.natAbs
  | .text s => apostrophe :: (doubled s ++ [apostrophe])
  | .bool true => Bytes.ofString "true"
  | .bool false => Bytes.ofString "false"
  | .null => Bytes.ofString "NULL"

/-- The types of the columns that store the literal as it is. -/
def matchesType : Literal → ColumnType → Bool
  | .int _, ct => decide (ct = .int ∨ ct = .bigint)
  | .text _, ct => decide (ct = .text)
  | .bool _, ct => decide (ct = .bool)
  | .null, _ => true

end Literal

/-- `INSERT INTO t VALUES (lit)`. -/
def insertText (t : String) (l : Literal) : Bytes :=
  Bytes.ofString "INSERT" ++ space :: (Bytes.ofString "INTO" ++ space :: (Bytes.ofString t ++
    space :: (Bytes.ofString "VALUES" ++ space :: (Bytes.ofString "(" ++
      (l.written ++ Bytes.ofString ")")))))

/-- `SELECT c FROM t`. -/
def selectText (c t : String) : Bytes :=
  Bytes.ofString "SELECT" ++ space :: (Bytes.ofString c ++ space :: (Bytes.ofString "FROM" ++
    space :: Bytes.ofString t))

/-! ## The statements they parse to -/

section Parsing

variable {ts : List Sym} {text : Bytes} {t c : String}

/-- A token with a blank behind it. -/
theorem written_word {s : Sym} {w : Bytes} (hw : Spells s w) (h : Written ts text) :
    Written (s :: ts) (w ++ space :: text) := by
  refine .token hw ?_ (.blank rfl h)
  rintro d ⟨⟩
  exact isBlank_apart _ rfl s

/-- A token at the end. -/
theorem written_last {s : Sym} {w : Bytes} (hw : Spells s w) : Written [s] w := by
  have h := Written.token hw (fun _ hd => by cases hd) .nil
  rwa [List.append_nil] at h

/-- A word of the grammar, with letters of either case. -/
theorem spells_word {w : String} {text : Bytes} (hword : text.head?.any isIdentStart = true)
    (hchars : text.all isIdentChar = true) (hw : lowered text = w) : Spells (.ident w) text := by
  subst hw
  cases text with
  | nil => cases hword
  | cons c more =>
    have hall := List.all_eq_true.mp hchars
    exact .ident hword fun d hd => hall d (List.mem_cons_of_mem c hd)

theorem written_insert {ls : List Sym} (ht : Name t) {l : Literal}
    (h : Written (ls ++ [.punct .rparen]) (l.written ++ Bytes.ofString ")"))
    (hapart : Apart (.punct .lparen) (l.written ++ Bytes.ofString ")")) :
    Written (.ident "insert" :: .ident "into" :: .ident t :: .ident "values" ::
        parens ls) (insertText t l) :=
  written_word (spells_word (by decide) (by decide) (by decide +kernel))
    (written_word (spells_word (by decide) (by decide) (by decide +kernel))
      (written_word (spells_name ht.spelled)
        (written_word (spells_word (by decide) (by decide) (by decide +kernel))
          (.token (.punct .lparen) hapart h))))

/-- The tokens of a literal. -/
def Literal.tokens : Literal → List Sym
  | .int n =>
    if n.toInt < 0 then [.punct .minus, .num (Decimal.digits n.toInt.natAbs)]
    else [.num (Decimal.digits n.toInt.natAbs)]
  | .text s => [.str s]
  | .bool true => [.ident "true"]
  | .bool false => [.ident "false"]
  | .null => [.ident "null"]

/-- The expression the parser makes of a literal. -/
def Literal.expr : Literal → Expr
  | .int n =>
    if n.toInt < 0 then .binary .sub (.lit (.int 0)) (.lit (.int (-n))) else .lit (.int n)
  | l => .lit l.value

theorem written_rparen : Written [.punct .rparen] (Bytes.ofString ")") := written_last (.punct .rparen)

/-- A token in front of the closing parenthesis. -/
theorem written_closed {s : Sym} {w : Bytes} (hw : Spells s w)
    (hs : apart s ')'.toUInt8 = true) :
    Written [s, .punct .rparen] (w ++ Bytes.ofString ")") := by
  refine .token hw ?_ written_rparen
  rintro d ⟨⟩
  exact hs

/-- Digits may come directly behind a punctuation mark. -/
theorem apart_digits (p : Punct) (m : Nat) (rest : Bytes) :
    Apart (.punct p) (Decimal.digits m ++ rest) := by
  have hdigit : ∀ d : UInt8, Decimal.isDigit d = true → d ≠ '='.toUInt8 ∧ d ≠ '>'.toUInt8 :=
    forall_byte (by decide +kernel)
  intro d hd
  have hmem : d ∈ Decimal.digits m := by
    rw [List.head?_append_of_ne_nil _ (Decimal.digits_ne_nil m)] at hd
    exact List.mem_of_mem_head? hd
  simp [apart, hdigit d (Decimal.isDigit_of_mem_digits hmem)]

theorem written_literal (l : Literal) :
    Written (l.tokens ++ [.punct .rparen]) (l.written ++ Bytes.ofString ")") := by
  have hword : ∀ {w : String} {text : Bytes}, Spells (.ident w) text →
      Written [.ident w, .punct .rparen] (text ++ Bytes.ofString ")") :=
    fun h => written_closed h rfl
  cases l with
  | int n =>
    have hnum : Written [.num (Decimal.digits n.toInt.natAbs), .punct .rparen]
        (Decimal.digits n.toInt.natAbs ++ Bytes.ofString ")") :=
      written_closed (.num (numeral_digits _).1) rfl
    simp only [Literal.tokens, Literal.written]
    split
    case isTrue h =>
      have hminus := Written.token (.punct .minus) (apart_digits .minus _ _) hnum
      exact hminus
    case isFalse h => exact hnum
  | text s => exact written_closed (.str s) rfl
  | bool b =>
    cases b with
    | false => exact hword (spells_word (by decide) (by decide) (by decide +kernel))
    | true => exact hword (spells_word (by decide) (by decide) (by decide +kernel))
  | null => exact hword (spells_word (by decide) (by decide) (by decide +kernel))

theorem apart_literal (l : Literal) :
    Apart (.punct .lparen) (l.written ++ Bytes.ofString ")") := by
  cases l with
  | int n =>
    simp only [Literal.written]
    split
    case isTrue h => exact fun d hd => by cases hd; rfl
    case isFalse h => exact apart_digits _ _ _
  | bool b => cases b <;> exact fun d hd => by cases hd; rfl
  | text s => exact fun d hd => by cases hd; rfl
  | null => exact fun d hd => by cases hd; rfl

theorem toInt_neg_of_neg {n : Int64} (hn : n.toInt < 0) (hmin : n ≠ Int64.minValue) :
    (-n).toInt = n.toInt.natAbs := by
  have hle := n.le_toInt
  have hne : n.toInt ≠ -2 ^ 63 := fun h => hmin (Int64.toInt_inj.mp h)
  rw [Int64.toInt_neg, Int.bmod_eq_of_le] <;> omega

/-- **The tokens of a literal show its expression**, unless its digits are too
many for an integer. -/
theorem shows_literal {l : Literal} (hmin : ∀ n, l = .int n → n ≠ Int64.minValue) :
    Shows .or l.expr l.tokens := by
  have hnum : ∀ {n : Int64} {m : Nat}, n.toInt = m →
      Shows .primary (.lit (.int n)) [.num (Decimal.digits m)] := by
    intro n m h
    have hparse := parseInt_digits (i := n) (by omega)
    rw [h] at hparse
    exact .lit (.int (numeral_digits m).2 hparse)
  cases l with
  | int n =>
    simp only [Literal.expr, Literal.tokens]
    split
    case isTrue h =>
      have hneg := toInt_neg_of_neg h (hmin n rfl)
      exact (Shows.minus ((hnum hneg).of_primary .unary)).to_or
    case isFalse h => exact (hnum (by omega)).to_or
  | text s => exact (Shows.lit (.text s)).to_or
  | bool b =>
    cases b with
    | false => exact (Shows.lit .false).to_or
    | true => exact (Shows.lit .true).to_or
  | null => exact (Shows.lit .null).to_or

/-- **What the INSERT parses to.** -/
theorem parse_insertText (ht : Name t) {l : Literal}
    (hmin : ∀ n, l = .int n → n ≠ Int64.minValue) :
    parse (insertText t l) = .ok (.insert ⟨t, [], [[l.expr]]⟩) :=
  parse_written (.insert ht .all (.one (.values (.one (shows_literal hmin)))))
    (written_insert ht (written_literal l) (apart_literal l))

/-- The digits of the smallest integer are too many. -/
theorem parse_insertText_min (ht : Name t) (st : Statement) :
    parse (insertText t (.int Int64.minValue)) ≠ .ok st := by
  obtain ⟨toks, hlex, hsyms⟩ := lex_written
    (written_insert ht (written_literal (.int Int64.minValue)) (apart_literal _))
  have htokens : (Literal.int Int64.minValue).tokens =
      [.punct .minus, .num (Decimal.digits (2 ^ 63))] := rfl
  rw [htokens] at hsyms
  match toks, hsyms with
  | [⟨_, _⟩, ⟨_, _⟩, ⟨_, _⟩, ⟨_, _⟩, ⟨_, _⟩, ⟨_, _⟩, ⟨_, _⟩, ⟨_, _⟩, ⟨_, _⟩], hsyms =>
    simp only [parens, List.map_cons, List.map_nil, List.cons_append, List.nil_append,
      List.cons.injEq, and_true] at hsyms
    obtain ⟨rfl, rfl, rfl, rfl, rfl, rfl, rfl, rfl, rfl⟩ := hsyms
    rw [parse, hlex]
    intro h
    cases (Eq.trans (b := Except.error (Stop.error _)) (by rfl) h)

/-- `SELECT c FROM t`. -/
def selectColumn (t c : String) : Select :=
  ⟨⟨t, t, none⟩, [], false, [(.colRef "" c, "")], none, [], none, [], none⟩

theorem parse_selectText (ht : Name t) (hc : Name c) :
    parse (selectText c t) = .ok (.select (selectColumn t c)) := by
  have hshows : ShowsStatement (.select (selectColumn t c))
      [.ident "select", .ident c, .ident "from", .ident t] :=
    .select (.mk (.list (.one (.plain (Shows.column hc).to_or))) (.plain ht) .nil .none .nil .none
      .nil .none)
  refine parse_written hshows ?_
  exact written_word (spells_word (by decide) (by decide) (by decide +kernel))
    (written_word (spells_name hc.spelled)
      (written_word (spells_word (by decide) (by decide) (by decide +kernel))
        (written_last (spells_name ht.spelled))))

end Parsing

/-! ## The INSERT -/

section Running

variable {env : Env} {e : Engine} {t : String} {col : Column} {tb : Table} {v : Value}

/-- The table `t`: it has one column, which may be NULL and is no key of any
kind, and every row has a cell for it. -/
structure OneColumn (e : Engine) (t : String) (col : Column) (tb : Table) : Prop where
  table : e.tables.get? t = some tb
  cols : tb.cols = [col]
  nullable : col.notNull = false
  notPrimary : col.primary = false
  notUnique : col.unique = false
  notForeign : col.fkTable = ""
  width : ∀ id row, tb.rows.get? id = some row → row.length = 1

/-- The definition of a table that is there. -/
theorem eval_tableDef_named (hn : e.Named) (htb : e.tables.get? t = some tb) :
    (tableDef t).eval (Session.reply (e, none)) = .ok ⟨t, tb.cols⟩ := by
  rw [eval_tableDef, Session.reply_catalog]
  have hmem : (⟨t, tb.cols⟩ : TableDef) ∈ e.catalog :=
    Engine.mem_catalog.mpr ⟨t, tb, htb, by rw [Table.definition, hn.name_eq htb]⟩
  cases hfind : e.catalog.find? (fun d : TableDef => d.name = t) with
  | none => simpa using List.find?_eq_none.mp hfind _ hmem
  | some d =>
    -- no other table has the name
    have hname : d.name = t := by simpa using List.find?_some hfind
    obtain ⟨n, tb', htb', rfl⟩ := Engine.mem_catalog.mp (List.mem_of_find?_eq_some hfind)
    have hkey : n = t := (hn.name_eq htb').symm.trans hname
    subst hkey
    rw [htb] at htb'
    cases htb'
    exact congrArg (fun n => Except.ok (⟨n, tb.cols⟩ : TableDef)) hname

/-- **The row is stored** under the next id. -/
theorem put_oneColumn (h : OneColumn e t col tb) (v : Value) :
    ∃ e' tb', e.put t 0 [v] = (e', .ok tb.nextID) ∧ e'.tables = e.tables.set t tb' ∧
      tb'.name = tb.name ∧ tb'.cols = tb.cols ∧ tb'.rows = tb.rows.set tb.nextID [v] := by
  let tb1 := ({ tb with nextID := tb.nextID + 1 } : Table).bumpNextID tb.nextID
  obtain ⟨hname, hcols, hrows⟩ : tb1.name = tb.name ∧ tb1.cols = tb.cols ∧ tb1.rows = tb.rows := by
    simp only [tb1, Table.bumpNextID]
    split <;> simp
  have hclash : tb1.uniqueClash tb.nextID [v] = false := by
    simp [Table.uniqueClash, hcols, h.cols, uniqCols, h.notUnique, List.range_succ]
  have hcheck : tb.putCheck (-1) 0 [v] false = (tb1, .ok (tb.nextID, [v])) := by
    have hwidth : ¬ [v].length ≠ tb.cols.length := by simp [h.cols]
    rw [Table.putCheck, if_neg hwidth]
    simp [Table.stampPK_neg, hclash, tb1]
  have hput : e.put t 0 [v] = ((e.txn (.put tb1.id tb.nextID [v])).setTable t
      (tb1.storeRow tb.nextID [v]), .ok tb.nextID) := by
    simp only [Engine.put, Engine.putRow, h.table, Engine.putSection, hcheck]
    rfl
  exact ⟨_, _, hput, rfl, by simp [hname], by simp [hcols], by simp [hrows]⟩

theorem prepareRow_literal (h : OneColumn e t col tb) (hv : coerce env col v = .ok v) :
    prepareRow env ⟨t, [col]⟩ t [0] 1 [.lit v] = .ok ([v], some 0) := by
  have hcoerce : coerceAt env ⟨t, [col]⟩ 0 v = .ok v := by simp [coerceAt, hv]
  have hfill : fillRow env ⟨t, [col]⟩ [0] [.lit v] [.null] = .ok [v] := by
    show (coerceAt env ⟨t, [col]⟩ 0 v >>= fun v => .ok ([.null].set 0 v)) = _
    rw [hcoerce]
    rfl
  have hkey : insertKey ⟨t, [col]⟩ t [v] = .ok (some 0) := by
    simp [insertKey, pkIndex, List.findIdx?_cons, h.notPrimary]
  have hnull : checkNotNull t [v] [(col, 0)] = .ok () := by
    rw [checkNotNull, h.notPrimary, h.nullable]
    rfl
  show (fillRow env ⟨t, [col]⟩ [0] [.lit v] [.null] >>= fun row => insertKey ⟨t, [col]⟩ t row >>=
    fun key => checkNotNull t row [(col, 0)] >>= fun _ => pure (row, key)) = _
  rw [hfill]
  show (insertKey ⟨t, [col]⟩ t [v] >>= fun key => checkNotNull t [v] [(col, 0)] >>=
    fun _ => pure ([v], key)) = _
  rw [hkey, hnull]
  rfl

theorem run_selectInsert (hn : e.Named) (h : OneColumn e t col tb) (rows : List (List Expr)) :
    (selectInsert ⟨t, [], rows⟩).run Engine.handler e = (e, .ok (⟨t, [col]⟩, [0])) := by
  rw [(reads_selectInsert _).run_engine e, selectInsert, Prog.eval_bind,
    eval_tableDef_named hn h.table, h.cols]
  rfl

/-- **The INSERT of a literal** the column takes as it is. -/
theorem exec_insert_literal (hn : e.Named) (h : OneColumn e t col tb)
    (hv : coerce env col v = .ok v) :
    ∃ e' tb', exec env e (.insert ⟨t, [], [[.lit v]]⟩) = (e', .ok { affected := 1 }) ∧
      e'.tables = e.tables.set t tb' ∧ tb'.name = tb.name ∧ tb'.cols = tb.cols ∧
      tb'.rows = tb.rows.set tb.nextID [v] := by
  obtain ⟨e', tb', hput, htables, hnew⟩ := put_oneColumn h v
  refine ⟨e', tb', ?_, htables, hnew⟩
  have hrow : (insertRow env ⟨t, [col]⟩ t [0] 1 [.lit v]).run Engine.handler e = (e', .ok ()) := by
    have hcall : (put t 0 [v]).run Engine.handler e = (e', .ok (.ok tb.nextID)) := by
      show ((e.put t 0 [v]).1, Except.ok (e.put t 0 [v]).2) = _
      rw [hput]
    rw [insertRow, prepareRow_literal h hv]
    show (checkFKCols t [v] [(col, 0)] >>= fun _ => put t 0 [v] >>= fun reply => _).run
      Engine.handler e = _
    rw [checkFKCols, if_pos h.notForeign]
    show (put t 0 [v] >>= fun reply => _).run Engine.handler e = _
    rw [Prog.run_bind_ok hcall]
    rfl
  have hrows : (insertRows env ⟨t, [col]⟩ t [0] 1 [[.lit v]]).run Engine.handler e =
      (e', .ok ()) := by
    rw [insertRows, Prog.run_bind_ok hrow]
    rfl
  show (execInsert env ⟨t, [], [[.lit v]]⟩).run Engine.handler e = _
  rw [execInsert, Prog.run_bind_ok (run_selectInsert hn h _)]
  show (insertRows env ⟨t, [col]⟩ t [0] 1 [[.lit v]] >>= fun _ => pure _).run Engine.handler e = _
  rw [Prog.run_bind_ok hrows]
  rfl

/-- VALUES takes no other expressions than literals and `NOW()`. -/
theorem exec_insert_binary (env : Env) (hn : e.Named) (h : OneColumn e t col tb) (op : BinOp)
    (l r : Expr) :
    (exec env e (.insert ⟨t, [], [[.binary op l r]]⟩)).2 = .error (.sql .valuesLiterals) := by
  show ((execInsert env ⟨t, [], [[.binary op l r]]⟩).run Engine.handler e).2 = _
  rw [execInsert, Prog.run_bind_ok (run_selectInsert hn h _)]
  rfl

/-! ## The SELECT -/

theorem planSelect_column (t : String) (col : Column) :
    planSelect (storedScope ⟨t, [col]⟩ t) ⟨[], false, [(.colRef "" col.name, "")], none, [], none,
      [], none⟩ = .ok ⟨[], false, [(.col 0, col.name)], []⟩ := by
  have hresolve : (storedScope ⟨t, [col]⟩ t).resolve "" col.name = .ok 0 :=
    resolve_storedScope (by simp) rfl (.inl rfl)
  have hfield : planField (storedScope ⟨t, [col]⟩ t) false [] (.colRef "" col.name) "" =
      .ok (.col 0, col.name) := by
    rw [planField, hresolve]
    rfl
  have hfields : planFields (storedScope ⟨t, [col]⟩ t) false [(.colRef "" col.name, "")] false [] =
      .ok [(.col 0, col.name)] := by
    rw [planFields, if_neg Bool.false_ne_true, List.mapM_cons, hfield]
    rfl
  show (planFields (storedScope ⟨t, [col]⟩ t) false [(.colRef "" col.name, "")] false [] >>= _) = _
  rw [hfields]
  rfl

theorem project_column {sc : JoinScope} {rows : List Row} (h : ∀ row ∈ rows, row.length = 1) :
    project [.col 0] (rowField env sc) rows = .ok rows := by
  induction rows with
  | nil => rfl
  | cons row rows ih =>
    obtain ⟨hrow, hrows⟩ := List.forall_mem_cons.mp h
    obtain ⟨v, rfl⟩ := List.length_eq_one_iff.mp hrow
    have ih := ih hrows
    rw [project] at ih ⊢
    rw [List.mapM_cons, ih]
    rfl

theorem finishSelect_column {sc : JoinScope} {s : Plain} {c : String} {rows : List Row}
    (horder : s.order = []) (hlimit : s.limit = none) (h : ∀ row ∈ rows, row.length = 1) :
    finishSelect env sc s ⟨[], false, [(.col 0, c)], []⟩ rows =
      .ok { columns := [c], rows := rows } := by
  rw [finishSelect, horder, hlimit]
  show (project [.col 0] (rowField env sc) rows >>= fun rows => pure _) = _
  rw [project_column h]
  rfl

/-- **A SELECT of the column** lists the cells of all rows. -/
theorem eval_select_column (env : Env) (hn : e.Named) (h : OneColumn e t col tb) :
    (execSelect env (selectColumn t col.name)).eval (Session.reply (e, none)) =
      .ok { columns := [col.name], rows := tb.rows.ascending.map Prod.snd } := by
  have htd := eval_tableDef_named hn h.table
  rw [h.cols] at htd
  have hscope : (fromItem env [] ⟨t, t, none⟩).eval (Session.reply (e, none)) =
      .ok (storedScope ⟨t, [col]⟩ t) := by
    rw [fromItem, Prog.eval_bind, htd]
    rfl
  have hview : Session.view (e, none) t = some ⟨tb.cols, tb.rows⟩ := by
    rw [Session.view, h.table]
    rfl
  have hcands : (collectJoined env (storedScope ⟨t, [col]⟩ t) [] none).eval _ = _ :=
    eval_collectJoined hview [col] none
  rw [selectColumn, execSelect, Prog.eval_bind, hscope]
  show (runSelect env (storedScope ⟨t, [col]⟩ t) _).eval (Session.reply (e, none)) = _
  have hfilter : ∀ rows, filterCandidates env (storedScope ⟨t, [col]⟩ t) none rows = .ok rows := by
    intro rows
    induction rows with
    | nil => rfl
    | cons c rows ih =>
      rw [filterCandidates, ih]
      rfl
  rw [hfilter] at hcands
  rw [runSelect, planSelect_column]
  show (collectJoined env (storedScope ⟨t, [col]⟩ t) [] none >>= fun filtered => lift _).eval _ = _
  rw [Prog.eval_bind, hcands]
  show (lift (finishSelect env _ _ _ (tb.rows.ascending.map Prod.snd))).eval _ = _
  rw [finishSelect_column rfl rfl, Prog.eval_ofExcept]
  intro row hrow
  obtain ⟨⟨id, _⟩, hmem, rfl⟩ := List.mem_map.mp hrow
  exact h.width id _ (GoMap.mem_ascending.mp hmem)

/-! ## There and back -/

/-- The literal comes back: the INSERT is accepted, and the SELECT lists the
rows there were and the new one, which alone there is if the table was empty. -/
def RoundTrips (env : Env) (e : Engine) (t : String) (col : Column) (tb : Table) (l : Literal) :
    Prop :=
  ∃ ins sel e' rows, parse (insertText t l) = .ok ins ∧
    exec env e ins = (e', .ok { affected := 1 }) ∧ parse (selectText col.name t) = .ok sel ∧
    (exec env e' sel).2 = .ok { columns := [col.name], rows := rows } ∧
    rows = (tb.rows.set tb.nextID [l.value]).ascending.map Prod.snd ∧
    (tb.rows = ∅ → rows = [[l.value]])

theorem coerce_literal (env : Env) {l : Literal} (h : l.matchesType col.type = true) :
    coerce env col l.value = .ok l.value := by
  cases l with
  | int n =>
    have htype : col.type = .int ∨ col.type = .bigint := of_decide_eq_true h
    rcases htype with htype | htype <;> simp [coerce, Literal.value, htype, ColumnType.check]
  | text s =>
    have htype : col.type = .text := of_decide_eq_true h
    simp [coerce, Literal.value, htype, ColumnType.check]
  | bool b =>
    have htype : col.type = .bool := of_decide_eq_true h
    simp [coerce, Literal.value, htype, ColumnType.check]
  | null => simp [coerce, Literal.value, ColumnType.check]

theorem OneColumn.of_insert (hn : e.Named) (h : OneColumn e t col tb) {e' : Engine} {tb' : Table}
    (htables : e'.tables = e.tables.set t tb') (hname : tb'.name = tb.name)
    (hcols : tb'.cols = tb.cols) (hrows : tb'.rows = tb.rows.set tb.nextID [v]) :
    e'.Named ∧ OneColumn e' t col tb' := by
  refine ⟨(Engine.sameDefs_of_set h.table htables hname hcols).named hn,
    by rw [htables, GoMap.get?_set_self], hcols.trans h.cols, h.nullable, h.notPrimary, h.notUnique,
    h.notForeign, ?_⟩
  intro id row hrow
  rw [hrows, GoMap.get?_set] at hrow
  split at hrow
  case isTrue => cases hrow; rfl
  case isFalse => exact h.width id row hrow

/-- **Literals come back, but for the integers below zero.** -/
theorem literal_round_trips_iff (env : Env) (e : Engine) (t : String) (col : Column) (tb : Table)
    (ht : Name t) (hc : Name col.name) (hn : e.Named) (h : OneColumn e t col tb) (l : Literal)
    (hmatch : l.matchesType col.type = true) :
    RoundTrips env e t col tb l ↔ l.negative = false := by
  constructor
  · rintro ⟨ins, sel, e', rows, hins, hexec, -⟩
    by_contra hneg
    cases l with
    | int n =>
      have hn0 : n.toInt < 0 := by simpa [Literal.negative] using hneg
      by_cases hmin : n = Int64.minValue
      · subst hmin
        exact parse_insertText_min ht ins hins
      · rw [parse_insertText ht (by rintro m ⟨⟩; exact hmin)] at hins
        cases hins
        have herr := exec_insert_binary env hn h .sub (.lit (.int 0)) (.lit (.int (-n)))
        simp only [Literal.expr, if_pos hn0] at hexec
        rw [hexec] at herr
        cases herr
    | text s => exact hneg rfl
    | bool b => exact hneg rfl
    | null => exact hneg rfl
  · intro hpos
    have hmin : ∀ n, l = .int n → n ≠ Int64.minValue := by
      rintro n rfl rfl
      cases hpos
    have hexpr : l.expr = .lit l.value := by
      cases l with
      | int n =>
        have hn0 : ¬ n.toInt < 0 := by simpa [Literal.negative] using hpos
        exact if_neg hn0
      | _ => rfl
    have hparse := parse_insertText ht hmin
    rw [hexpr] at hparse
    obtain ⟨e', tb', hexec, htables, hname, hcols, hrows⟩ :=
      exec_insert_literal hn h (coerce_literal env hmatch)
    obtain ⟨hn', h'⟩ := h.of_insert hn htables hname hcols hrows
    have hselect := eval_select_column env hn' h'
    rw [hrows] at hselect
    refine ⟨_, _, e', _, hparse, hexec, parse_selectText ht hc, ?_, rfl, ?_⟩
    · show ((execSelect env (selectColumn t col.name)).run Engine.handler e').2 = _
      rw [(reads_execSelect env _).run_engine e', hselect]
    · intro hempty
      rw [hempty, GoMap.ascending_set_empty]
      rfl

/-- The table `t` with the one integer column `v`. -/
def integerColumn : Engine :=
  (Run.run Sys.exec {} [.createTable "t" [{ name := "v", type := .int }]]).eng

theorem oneColumn_integerColumn :
    ∃ tb, OneColumn integerColumn "t" { name := "v", type := .int } tb := by
  have hcols : (integerColumn.tables.get? "t").map Table.cols =
      some [{ name := "v", type := .int }] := by decide +kernel
  have hrows : (integerColumn.tables.get? "t").map (·.rows.ascending) = some [] := by decide +kernel
  obtain ⟨tb, htb, hcols⟩ := Option.map_eq_some_iff.mp hcols
  rw [htb] at hrows
  have hnone : tb.rows.ascending = [] := Option.some.inj hrows
  refine ⟨tb, htb, hcols, rfl, rfl, rfl, rfl, fun id row hrow => ?_⟩
  have hmem := GoMap.mem_ascending.mpr hrow
  rw [hnone] at hmem
  cases hmem

theorem literal_round_trips_max :
    ∃ tb, RoundTrips epochEnv integerColumn "t" { name := "v", type := .int } tb
      (.int Int64.maxValue) := by
  obtain ⟨tb, htb⟩ := oneColumn_integerColumn
  have hname : ∀ w ∈ ["t", "v"], isName w = true ∧ w ∉ keywords := by decide +kernel
  refine ⟨tb, (literal_round_trips_iff epochEnv integerColumn "t" _ tb ?_ ?_ (Sys.named_run _) htb
    (.int Int64.maxValue) (by decide)).mpr (by decide)⟩
  · exact ⟨(hname "t" (by decide)).1, (hname "t" (by decide)).2⟩
  · exact ⟨(hname "v" (by decide)).1, (hname "v" (by decide)).2⟩

/-- **A negative integer is no literal to VALUES.** -/
theorem negative_literal_rejected :
    ∃ st, parse (Bytes.ofString "INSERT INTO t VALUES (-5)") = .ok st ∧
      (exec epochEnv integerColumn st).2 = .error (.sql .valuesLiterals) := by
  have htext : Bytes.ofString "INSERT INTO t VALUES (-5)" = insertText "t" (.int (-5)) := by
    decide +kernel
  have hname : isName "t" = true ∧ "t" ∉ keywords := by decide +kernel
  refine ⟨_, htext ▸ parse_insertText ⟨hname.1, hname.2⟩ (by rintro n ⟨⟩; decide), ?_⟩
  decide +kernel

end Running

end Tsql.Executor
