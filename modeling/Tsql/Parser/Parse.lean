import Tsql.Lib.Cursor
import Tsql.Parser.Ast
import Tsql.Parser.Lexer

/-!
# The parser (`internal/parser`)

The parse functions of the source, each under its own name, as computations
over a cursor in the tokens. `if p.atKw(kw) { p.next() … }` is written with
`takeKw`, and likewise `takePunct`; a clause of `parseSelect` is a function of
its own, and so is the loop over what stands between commas.

The functions that call each other again, always behind a token they have
read, are given those calls as an argument (`Calls`). `grammar n` ties the
knot for `n` levels of such calls; a call below that is `Stop.endless`.
-/

namespace Tsql.Parser

open Cursor

/-- A method of the source's `parser`. -/
abbrev Parse (α : Type) : Type := Cursor Token SyntaxError α

/-! ## The cursor's helpers -/

/-- `errf`: an error at the position of the current token. -/
def errf {α : Type} (m : Message) : Parse α := do
  let t ← peek
  fail ⟨t.pos, m⟩

/-- Is this the current token? -/
def atSym (s : Sym) : Parse Bool := do
  let t ← peek
  return t.sym = s

/-- Move past this token if it is the current one. -/
def takeSym (s : Sym) : Parse Bool := do
  let t ← peek
  if t.sym = s then do
    let _ ← next
    return true
  else return false

/-- Move past this token, or fail. -/
def expectSym (s : Sym) (m : Sym → Message) : Parse Unit := do
  let t ← peek
  if t.sym = s then do
    let _ ← next
    return ()
  else errf (m t.sym)

def atPunct (p : Punct) : Parse Bool := atSym (.punct p)

def takePunct (p : Punct) : Parse Bool := takeSym (.punct p)

def expectPunct (p : Punct) : Parse Unit := expectSym (.punct p) (.expectedPunct p)

def atKw (kw : String) : Parse Bool := atSym (.ident kw)

def takeKw (kw : String) : Parse Bool := takeSym (.ident kw)

def expectKw (kw : String) : Parse Unit := expectSym (.ident kw) (.expectedKw kw)

def identOrErr (what : String) : Parse String := do
  let t ← peek
  match t.sym with
  | .ident name => do
    let _ ← next
    return name
  | got => errf (.expectedIdent what got)

/-- A round of the loops over items between commas. -/
def commaRound {α : Type} (item : Parse α) (acc : List α) : Parse (ForInStep (List α)) := do
  let a ← item
  if ← takePunct .comma then return .yield (acc ++ [a])
  else return .done (acc ++ [a])

/-- `for { item; if p.atPunct(",") { p.next(); continue }; break }`. -/
def commaList {α : Type} (item : Parse α) : Parse (List α) := forever (commaRound item) []

/-- `if p.atKw(kw) { p.next(); … }`. -/
def clause {α : Type} (kw : String) (p : Parse α) : Parse (Option α) := do
  if ← takeKw kw then do
    let a ← p
    return some a
  else return none

/-! ## Words and numbers -/

/-- `refStopWords`. -/
def refStopWords : List String :=
  ["where", "group", "order", "limit", "join", "inner", "left", "right", "outer", "cross", "on",
    "having", "in", "not"]

/-- `fieldStopWords`. -/
def fieldStopWords : List String := ["from", "where", "group", "having", "order", "limit"]

/-- `strconv.ParseInt(text, 10, 64)` of a text of digits. -/
def parseInt (text : Bytes) : Option Int64 :=
  if Decimal.value text < 2 ^ 63 then some (Int64.ofNat (Decimal.value text)) else none

/-- `strconv.ParseFloat(text, 64)` of digits with a dot: the nearest number,
and an error if that is infinite. -/
def parseFloat (text : Bytes) : Option F64 :=
  let whole := text.takeWhile (· ≠ dotByte)
  let frac := (text.dropWhile (· ≠ dotByte)).drop 1
  let bits := Binary64.encode false (Decimal.value (whole ++ frac)) (10 ^ frac.length)
  if bits = Binary64.infinity false then none else some (F64.ofBits bits)

/-- The number of a LIMIT clause. -/
def limitOf : Sym → Option Nat
  | .num text =>
    if dotByte ∈ text then none
    else (parseInt text).bind fun n => if n < 0 then none else some n.toInt.toNat
  | _ => none

/-- The column type of a name, if it is in `types.ValidTypes`. -/
def columnType : String → ColumnType
  | "int" => .int
  | "bigint" => .bigint
  | "float" => .float
  | "text" => .text
  | "bool" => .bool
  | "timestamp" => .timestamp
  | tn => .unknown tn

/-- The function of a name. -/
def funcName : String → FuncName
  | "now" => .now
  | "count" => .count
  | "sum" => .sum
  | "avg" => .avg
  | "min" => .min
  | "max" => .max
  | name => .other name

def cmpOp : Sym → Option CmpOp
  | .punct .eq => some .eq
  | .punct .ne => some .ne
  | .punct .lt => some .lt
  | .punct .le => some .le
  | .punct .gt => some .gt
  | .punct .ge => some .ge
  | _ => none

def addOp : Sym → Option BinOp
  | .punct .plus => some .add
  | .punct .minus => some .sub
  | _ => none

def mulOp : Sym → Option BinOp
  | .punct .star => some .mul
  | .punct .slash => some .div
  | .punct .percent => some .mod
  | _ => none

/-! ## Expressions -/

/-- The recursive calls, each made behind a token already read. -/
structure Calls where
  expr : Parse Expr
  select : Parse Select
  not : Parse Expr
  unary : Parse Expr

/-- The number of a numeral that has been read. -/
def parseNumber (text : Bytes) : Parse Expr :=
  if dotByte ∈ text then
    match parseFloat text with
    | some f => return .lit (.float f)
    | none => errf (.badNumber text)
  else
    match parseInt text with
    | some n => return .lit (.int n)
    | none => errf (.badNumber text)

/-- The arguments of a function call: a star, nothing, or one expression. -/
def parseArgument (r : Calls) : Parse (Bool × Option Expr) := do
  if ← takePunct .star then return (true, none)
  else if ← atPunct .rparen then return (false, none)
  else do
    let arg ← r.expr
    return (false, some arg)

/-- What begins with the name that has been read: a qualified column, a
function call, or a column. -/
def parseNamed (r : Calls) (name : String) : Parse Expr := do
  if ← takePunct .dot then do
    let cn ← identOrErr "column name"
    return .colRef name cn
  else if ← takePunct .lparen then do
    let (star, arg) ← parseArgument r
    expectPunct .rparen
    return .func (funcName name) star arg
  else return .colRef "" name

def parsePrimary (r : Calls) : Parse Expr := do
  let t ← peek
  match t.sym with
  | .num text => do
    let _ ← next
    parseNumber text
  | .str s => do
    let _ ← next
    return .lit (.text s)
  | .ident name => do
    let _ ← next
    if name = "null" then return .lit .null
    else if name = "true" then return .lit (.bool true)
    else if name = "false" then return .lit (.bool false)
    else parseNamed r name
  | .punct .lparen => do
    let _ ← next
    let e ← r.expr
    expectPunct .rparen
    return e
  | .punct p => errf (.unexpected (.punct p))
  | .eof => errf .unexpectedEnd

/-- A minus is a subtraction from zero. -/
def parseUnary (r : Calls) : Parse Expr := do
  if ← takePunct .minus then do
    let x ← r.unary
    return .binary .sub (.lit (.int 0)) x
  else parsePrimary r

/-- One more operator of a level, and its right operand. -/
def chainRound (op : Sym → Option (Expr → Expr → Expr)) (operand : Parse Expr) (l : Expr) :
    Parse (ForInStep Expr) := do
  match ← take fun t => op t.sym with
  | some mk => do
    let x ← operand
    return .yield (mk l x)
  | none => return .done l

/-- A chain of operators of one level, which associate to the left. -/
def chain (op : Sym → Option (Expr → Expr → Expr)) (operand : Parse Expr) : Parse Expr := do
  let l ← operand
  forever (chainRound op operand) l

def parseMul (r : Calls) : Parse Expr :=
  chain (fun s => (mulOp s).map Expr.binary) (parseUnary r)

def parseAdd (r : Calls) : Parse Expr :=
  chain (fun s => (addOp s).map Expr.binary) (parseMul r)

/-- `IN` or `NOT IN`; a bare `NOT` is left for the caller. -/
def parseInKw : Parse (Option Bool) := do
  if ← atKw "not" then do
    if ← tentatively (do
        let _ ← next
        takeKw "in") then return some true
    else return none
  else if ← takeKw "in" then return some false
  else return none

/-- What stands behind `[NOT] IN`. -/
def parseIn (r : Calls) (l : Expr) (neg : Bool) : Parse Expr := do
  expectPunct .lparen
  if ← atKw "select" then do
    let sub ← r.select
    expectPunct .rparen
    return .inSub l sub neg
  else do
    let list ← commaList r.expr
    expectPunct .rparen
    return .inList l list neg

/-- `IS [NOT] NULL` or `[NOT] IN` behind an operand. -/
def parseTest (r : Calls) (l : Expr) : Parse Expr := do
  if ← takeKw "is" then do
    let neg ← takeKw "not"
    expectKw "null"
    return .isNull l neg
  else do
    match ← parseInKw with
    | some neg => parseIn r l neg
    | none => return l

def parseCmp (r : Calls) : Parse Expr := do
  let l ← parseAdd r
  match ← take fun t => cmpOp t.sym with
  | some op => do
    let x ← parseAdd r
    return .cmp op l x
  | none => parseTest r l

def parseNot (r : Calls) : Parse Expr := do
  if ← takeKw "not" then do
    let x ← r.not
    return .not x
  else parseCmp r

def parseAnd (r : Calls) : Parse Expr :=
  chain (fun s => if s = .ident "and" then some .and else none) (parseNot r)

def parseOr (r : Calls) : Parse Expr :=
  chain (fun s => if s = .ident "or" then some .or else none) (parseAnd r)

def parseExpr (r : Calls) : Parse Expr := parseOr r

/-! ## SELECT -/

/-- `[AS] ident` behind a table. -/
def parseRefAlias (what : String) : Parse (Option String) := do
  if ← takeKw "as" then do
    let a ← identOrErr what
    return some a
  else do
    let t ← peek
    match t.sym with
    | .ident w =>
      if w ∈ refStopWords then return none
      else do
        let a ← identOrErr what
        return some a
    | _ => return none

def parseTableRef (r : Calls) : Parse TableRef := do
  if ← takePunct .lparen then do
    if ← atKw "select" then do
      let sub ← r.select
      expectPunct .rparen
      let a ← parseRefAlias "derived table alias"
      if a.getD "" = "" then errf .derivedAlias
      else return ⟨"", a.getD "", some sub⟩
    else errf .derivedSelect
  else do
    let name ← identOrErr "table name"
    let a ← parseRefAlias "alias"
    return ⟨name, a.getD name, none⟩

def parseOptionalAlias : Parse String := do
  if ← takeKw "as" then identOrErr "column alias"
  else do
    let t ← peek
    match t.sym with
    | .ident w =>
      if w ∈ fieldStopWords then return ""
      else do
        let _ ← next
        return w
    | _ => return ""

/-- One field with its alias. -/
def parseField (r : Calls) : Parse (Expr × String) := do
  let e ← parseExpr r
  let a ← parseOptionalAlias
  return (e, a)

/-- The select list: a star, or fields. -/
def parseFields (r : Calls) : Parse (Bool × List (Expr × String)) := do
  if ← takePunct .star then return (true, [])
  else do
    let fields ← commaList (parseField r)
    return (false, fields)

/-- The words of a join: is it a left join? Dangling words are left for the
caller. -/
def parseJoinKw : Parse (Option Bool) := do
  if ← takeKw "join" then return some false
  else if ← atKw "inner" then do
    if ← tentatively (do
        let _ ← next
        takeKw "join") then return some false
    else return none
  else if ← atKw "left" then do
    if ← tentatively (do
        let _ ← next
        let _ ← takeKw "outer"
        takeKw "join") then return some true
    else return none
  else return none

/-- One more join. -/
def joinRound (r : Calls) (joins : List Join) : Parse (ForInStep (List Join)) := do
  match ← parseJoinKw with
  | none => return .done joins
  | some left => do
    let ref ← parseTableRef r
    expectKw "on"
    let on ← parseExpr r
    return .yield (joins ++ [⟨left, ref, on⟩])

/-- The `joinLoop`. -/
def parseJoins (r : Calls) : Parse (List Join) := forever (joinRound r) []

/-- `GROUP BY`. -/
def parseGroup (r : Calls) : Parse (List Expr) := do
  if ← takeKw "group" then do
    expectKw "by"
    commaList (parseExpr r)
  else return []

/-- `[DESC | ASC]`. -/
def parseDesc : Parse Bool := do
  if ← takeKw "desc" then return true
  else do
    let _ ← takeKw "asc"
    return false

/-- `ORDER BY`. -/
def parseOrder (r : Calls) : Parse (List (Expr × Bool)) := do
  if ← takeKw "order" then do
    expectKw "by"
    commaList (do
      let e ← parseExpr r
      let desc ← parseDesc
      return (e, desc))
  else return []

/-- The number of a LIMIT. -/
def parseLimit : Parse Nat := do
  match ← take fun t => limitOf t.sym with
  | some n => return n
  | none => errf .limit

/-- What stands behind the select list. -/
def parseClauses (r : Calls) (star : Bool) (fields : List (Expr × String)) : Parse Select := do
  expectKw "from"
  let first ← parseTableRef r
  let joins ← parseJoins r
  let where_ ← clause "where" (parseExpr r)
  let group ← parseGroup r
  let having ← clause "having" (parseExpr r)
  let order ← parseOrder r
  let limit ← clause "limit" parseLimit
  return { first, joins, star, fields, where_, group, having, order, limit }

def parseSelect (r : Calls) : Parse Select := do
  let _ ← next
  let (star, fields) ← parseFields r
  parseClauses r star fields

/-- The calls, `n` levels deep. -/
def grammar : Nat → Calls
  | 0 => ⟨halt .endless, halt .endless, halt .endless, halt .endless⟩
  | n + 1 =>
    let r := grammar n
    ⟨parseExpr r, parseSelect r, parseNot r, parseUnary r⟩

/-! ## The other statements -/

/-- One of the things that may stand behind the type of a column. -/
def attrRound (cd : ColumnDef) : Parse (ForInStep ColumnDef) := do
  if ← takeKw "primary" then do
    expectKw "key"
    return .yield { cd with primary := true }
  else if ← takeKw "not" then do
    expectKw "null"
    return .yield { cd with notNull := true }
  else if ← takeKw "auto_increment" then return .yield { cd with autoInc := true }
  else if ← takeKw "unique" then return .yield { cd with unique := true }
  else if ← takeKw "references" then do
    let ref ← identOrErr "referenced table name"
    if ← takePunct .lparen then do
      let c ← identOrErr "referenced column name"
      expectPunct .rparen
      return .yield { cd with refTable := ref, refCol := c }
    else return .yield { cd with refTable := ref }
  else return .done cd

def parseColumnDef : Parse ColumnDef := do
  let name ← identOrErr "column name"
  let tn ← identOrErr "column type"
  if (columnType tn).valid then forever attrRound { name, type := columnType tn }
  else errf (.unknownType tn)

def parseCreate : Parse Statement := do
  let _ ← next
  expectKw "table"
  let name ← identOrErr "table name"
  expectPunct .lparen
  let cols ← commaList parseColumnDef
  expectPunct .rparen
  return .createTable name cols

/-- `IF EXISTS`. -/
def parseIfExists : Parse Bool := do
  if ← takeKw "if" then do
    expectKw "exists"
    return true
  else return false

def parseDrop : Parse Statement := do
  let _ ← next
  expectKw "table"
  let ifExists ← parseIfExists
  let name ← identOrErr "table name"
  return .dropTable name ifExists

/-- The columns an INSERT names. -/
def parseInsertCols : Parse (List String) := do
  if ← takePunct .lparen then do
    let cols ← commaList (identOrErr "column name")
    expectPunct .rparen
    return cols
  else return []

/-- One tuple of VALUES, which may be empty. -/
def parseTuple (r : Calls) : Parse (List Expr) := do
  expectPunct .lparen
  if ← takePunct .rparen then return []
  else do
    let row ← commaList (parseExpr r)
    expectPunct .rparen
    return row

def parseInsert (r : Calls) : Parse Statement := do
  let _ ← next
  expectKw "into"
  let table ← identOrErr "table name"
  let cols ← parseInsertCols
  expectKw "values"
  let rows ← commaList (parseTuple r)
  return .insert { table, cols, rows }

/-- `col = expr`. -/
def parseAssignment (r : Calls) : Parse Assignment := do
  let col ← identOrErr "column name"
  expectPunct .eq
  let expr ← parseExpr r
  return { col, expr }

def parseUpdate (r : Calls) : Parse Statement := do
  let _ ← next
  let table ← identOrErr "table name"
  expectKw "set"
  let sets ← commaList (parseAssignment r)
  let where_ ← clause "where" (parseExpr r)
  return .update { table, sets, where_ }

def parseDelete (r : Calls) : Parse Statement := do
  let _ ← next
  expectKw "from"
  let table ← identOrErr "table name"
  let where_ ← clause "where" (parseExpr r)
  return .delete { table, where_ }

def parseStatement (r : Calls) : Parse Statement := do
  if ← atKw "create" then parseCreate
  else if ← atKw "drop" then parseDrop
  else if ← atKw "insert" then parseInsert r
  else if ← atKw "select" then do
    let s ← parseSelect r
    return .select s
  else if ← atKw "update" then parseUpdate r
  else if ← atKw "delete" then parseDelete r
  else if ← takeKw "begin" then return .begin
  else if ← takeKw "start" then do
    expectKw "transaction"
    return .begin
  else if ← takeKw "commit" then return .commit
  else if ← takeKw "rollback" then return .rollback
  else do
    let t ← peek
    if t.sym = .eof then errf .emptyStatement else errf (.unsupported t.sym)

/-- A statement, an optional semicolon, and nothing else. -/
def parseWhole (r : Calls) : Parse Statement := do
  let st ← parseStatement r
  let _ ← takePunct .semi
  let t ← peek
  if t.sym = .eof then return st else errf (.afterStatement t.sym)

/-- `Parse`. There cannot be more levels of calls than tokens. -/
def parse (src : Bytes) : Except (Stop SyntaxError) Statement :=
  match lex src with
  | .error e => .error (.error e)
  | .ok toks => (parseWhole (grammar toks.length) toks 0).1

end Tsql.Parser
