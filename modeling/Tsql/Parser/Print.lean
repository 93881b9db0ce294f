import Tsql.Parser.Parse
import Tsql.Parser.Spelling

/-!
# Printing statements

The tokens a statement may be written with. `Shows l e ts` says that `ts` is
the expression `e` as it may stand where the grammar wants an expression of
level `l`: an operator whose level is lower needs parentheses there, one whose
level is not lower may have them, and an operand on the left may be of the
operator's own level. The other relations put whole statements together.

`print` is the rendering with parentheses around EVERY compound
subexpression, and is one of them (`prints_statement`), for statements whose names
are lowercase and no keywords and whose numbers are given by digits
(`Printable`).
-/

namespace Tsql.Parser

/-! ## Names and numbers -/

/-- The words of the grammar. -/
def keywords : List String :=
  ["create", "table", "primary", "key", "not", "null", "auto_increment", "unique", "references",
    "drop", "if", "exists", "insert", "into", "values", "select", "as", "from", "join", "inner",
    "left", "right", "outer", "cross", "on", "where", "group", "by", "having", "order", "desc",
    "asc", "limit", "update", "set", "delete", "begin", "start", "transaction", "commit",
    "rollback", "or", "and", "is", "in", "true", "false"]

/-- The name of a table, a column, an alias or a function. -/
structure Name (w : String) : Prop where
  spelled : isName w = true
  free : w ∉ keywords

/-- The token of a literal. -/
inductive ShowsLit : Value → Sym → Prop
  | null : ShowsLit .null (.ident "null")
  | true : ShowsLit (.bool true) (.ident "true")
  | false : ShowsLit (.bool false) (.ident "false")
  | text (s : Bytes) : ShowsLit (.text s) (.str s)
  | int {i : Int64} {text : Bytes} (hdot : dotByte ∉ text) (h : parseInt text = some i) :
      ShowsLit (.int i) (.num text)
  | float {f : F64} {text : Bytes} (hdot : dotByte ∈ text) (h : parseFloat text = some f) :
      ShowsLit (.float f) (.num text)

/-! ## Lists and clauses -/

/-- In parentheses. -/
def parens (ts : List Sym) : List Sym := .punct .lparen :: (ts ++ [.punct .rparen])

/-- One or more items, with a comma between two of them. -/
inductive Listed {α : Type} (R : α → List Sym → Prop) : List α → List Sym → Prop
  | one {a : α} {ts : List Sym} (h : R a ts) : Listed R [a] ts
  | more {a : α} {as : List α} {ts us : List Sym} (h : R a ts) (hmore : Listed R as us) :
      Listed R (a :: as) (ts ++ .punct .comma :: us)

/-- Any number of items, one behind the other. -/
inductive Each {α : Type} (R : α → List Sym → Prop) : List α → List Sym → Prop
  | nil : Each R [] []
  | cons {a : α} {as : List α} {ts us : List Sym} (h : R a ts) (hmore : Each R as us) :
      Each R (a :: as) (ts ++ us)

/-- A clause that may be left out. -/
inductive Clause {α : Type} (kws : List Sym) (R : α → List Sym → Prop) :
    Option α → List Sym → Prop
  | none : Clause kws R none []
  | some {a : α} {ts : List Sym} (h : R a ts) : Clause kws R (some a) (kws ++ ts)

/-- A clause with a list, which may be left out. -/
inductive ClauseList {α : Type} (kws : List Sym) (R : α → List Sym → Prop) :
    List α → List Sym → Prop
  | nil : ClauseList kws R [] []
  | list {as : List α} {ts : List Sym} (h : Listed R as ts) : ClauseList kws R as (kws ++ ts)

/-! ## Expressions and SELECT -/

/-- The levels of precedence, from OR to what needs no parentheses. -/
inductive Level where
  | or | and | not | cmp | add | mul | unary | primary
  deriving DecidableEq

/-- The next higher level. -/
def Level.next : Level → Option Level
  | .or => some .and
  | .and => some .not
  | .not => some .cmp
  | .cmp => some .add
  | .add => some .mul
  | .mul => some .unary
  | .unary => some .primary
  | .primary => none

def cmpPunct : CmpOp → Punct
  | .eq => .eq
  | .ne => .ne
  | .lt => .lt
  | .le => .le
  | .gt => .gt
  | .ge => .ge

def binPunct : BinOp → Punct
  | .add => .plus
  | .sub => .minus
  | .mul => .star
  | .div => .slash
  | .mod => .percent

/-- The level of an arithmetic operator. -/
def binLevel : BinOp → Level
  | .add | .sub => .add
  | .mul | .div | .mod => .mul

/-- `NOT`, if it is there. -/
def notKw (neg : Bool) : List Sym := if neg then [.ident "not"] else []

/-- The words of a join. -/
def joinKws : Bool → List (List Sym)
  | false => [[.ident "join"], [.ident "inner", .ident "join"]]
  | true => [[.ident "left", .ident "join"], [.ident "left", .ident "outer", .ident "join"]]

/-- The number of a LIMIT. -/
inductive ShowsLimit : Nat → List Sym → Prop
  | mk {n : Nat} {text : Bytes} (h : limitOf (.num text) = some n) : ShowsLimit n [.num text]

mutual

/-- **The tokens of an expression** where one of level `l` is wanted. -/
inductive Shows : Level → Expr → List Sym → Prop
  /-- what is of a higher level will do -/
  | lift {l m : Level} {e : Expr} {ts : List Sym} (hl : l.next = some m) (h : Shows m e ts) :
      Shows l e ts
  /-- and so will anything in parentheses -/
  | parens {e : Expr} {ts : List Sym} (h : Shows .or e ts) : Shows .primary e (parens ts)
  | or {l r : Expr} {ts us : List Sym} (hl : Shows .or l ts) (hr : Shows .and r us) :
      Shows .or (.or l r) (ts ++ .ident "or" :: us)
  | and {l r : Expr} {ts us : List Sym} (hl : Shows .and l ts) (hr : Shows .not r us) :
      Shows .and (.and l r) (ts ++ .ident "and" :: us)
  | not {x : Expr} {ts : List Sym} (h : Shows .not x ts) : Shows .not (.not x) (.ident "not" :: ts)
  | cmp {op : CmpOp} {l r : Expr} {ts us : List Sym} (hl : Shows .add l ts)
      (hr : Shows .add r us) : Shows .cmp (.cmp op l r) (ts ++ .punct (cmpPunct op) :: us)
  | isNull {x : Expr} {neg : Bool} {ts : List Sym} (h : Shows .add x ts) :
      Shows .cmp (.isNull x neg) (ts ++ .ident "is" :: (notKw neg ++ [.ident "null"]))
  | inList {x : Expr} {list : List Expr} {neg : Bool} {ts us : List Sym} (h : Shows .add x ts)
      (hlist : Listed (Shows .or) list us) :
      Shows .cmp (.inList x list neg) (ts ++ (notKw neg ++ .ident "in" :: parens us))
  | inSub {x : Expr} {sub : Select} {neg : Bool} {ts us : List Sym} (h : Shows .add x ts)
      (hsub : ShowsSelect sub us) :
      Shows .cmp (.inSub x sub neg) (ts ++ (notKw neg ++ .ident "in" :: parens us))
  | add {op : BinOp} {l r : Expr} {ts us : List Sym} (hop : binLevel op = .add)
      (hl : Shows .add l ts) (hr : Shows .mul r us) :
      Shows .add (.binary op l r) (ts ++ .punct (binPunct op) :: us)
  | mul {op : BinOp} {l r : Expr} {ts us : List Sym} (hop : binLevel op = .mul)
      (hl : Shows .mul l ts) (hr : Shows .unary r us) :
      Shows .mul (.binary op l r) (ts ++ .punct (binPunct op) :: us)
  /-- a subtraction from zero may be written as a sign -/
  | minus {x : Expr} {ts : List Sym} (h : Shows .unary x ts) :
      Shows .unary (.binary .sub (.lit (.int 0)) x) (.punct .minus :: ts)
  | lit {v : Value} {s : Sym} (h : ShowsLit v s) : Shows .primary (.lit v) [s]
  | column {name : String} (h : Name name) : Shows .primary (.colRef "" name) [.ident name]
  | qualified {table name : String} (ht : Name table) (hn : Name name) :
      Shows .primary (.colRef table name) [.ident table, .punct .dot, .ident name]
  | star {f : String} (hf : Name f) :
      Shows .primary (.func (funcName f) true none) (.ident f :: parens [.punct .star])
  | noArg {f : String} (hf : Name f) :
      Shows .primary (.func (funcName f) false none) (.ident f :: parens [])
  | call {f : String} {x : Expr} {ts : List Sym} (hf : Name f) (h : Shows .or x ts) :
      Shows .primary (.func (funcName f) false (some x)) (.ident f :: parens ts)

/-- A table: its alias is its name if none is written. -/
inductive ShowsRef : TableRef → List Sym → Prop
  | plain {t : String} (ht : Name t) : ShowsRef ⟨t, t, none⟩ [.ident t]
  | aliased {t a : String} (ht : Name t) (ha : Name a) :
      ShowsRef ⟨t, a, none⟩ [.ident t, .ident "as", .ident a]
  | derived {sub : Select} {a : String} {ts : List Sym} (ha : Name a) (h : ShowsSelect sub ts) :
      ShowsRef ⟨"", a, some sub⟩ (parens ts ++ [.ident "as", .ident a])

inductive ShowsJoin : Join → List Sym → Prop
  | mk {left : Bool} {ref : TableRef} {on : Expr} {ks ts us : List Sym} (hks : ks ∈ joinKws left)
      (href : ShowsRef ref ts) (hon : Shows .or on us) :
      ShowsJoin ⟨left, ref, on⟩ (ks ++ (ts ++ .ident "on" :: us))

inductive ShowsField : Expr × String → List Sym → Prop
  | plain {e : Expr} {ts : List Sym} (h : Shows .or e ts) : ShowsField (e, "") ts
  | aliased {e : Expr} {a : String} {ts : List Sym} (h : Shows .or e ts) (ha : Name a) :
      ShowsField (e, a) (ts ++ [.ident "as", .ident a])

inductive ShowsFields : Bool → List (Expr × String) → List Sym → Prop
  | star : ShowsFields true [] [.punct .star]
  | list {fields : List (Expr × String)} {ts : List Sym} (h : Listed ShowsField fields ts) :
      ShowsFields false fields ts

/-- A sort term; ascending is the default. -/
inductive ShowsTerm : Expr × Bool → List Sym → Prop
  | plain {e : Expr} {ts : List Sym} (h : Shows .or e ts) : ShowsTerm (e, false) ts
  | asc {e : Expr} {ts : List Sym} (h : Shows .or e ts) :
      ShowsTerm (e, false) (ts ++ [.ident "asc"])
  | desc {e : Expr} {ts : List Sym} (h : Shows .or e ts) :
      ShowsTerm (e, true) (ts ++ [.ident "desc"])

inductive ShowsSelect : Select → List Sym → Prop
  | mk {first : TableRef} {joins : List Join} {star : Bool} {fields : List (Expr × String)}
      {where_ having : Option Expr} {group : List Expr} {order : List (Expr × Bool)}
      {limit : Option Nat} {fs rs js ws gs hs os ls : List Sym}
      (hfields : ShowsFields star fields fs) (hfirst : ShowsRef first rs)
      (hjoins : Each ShowsJoin joins js)
      (hwhere : Clause [.ident "where"] (Shows .or) where_ ws)
      (hgroup : ClauseList [.ident "group", .ident "by"] (Shows .or) group gs)
      (hhaving : Clause [.ident "having"] (Shows .or) having hs)
      (horder : ClauseList [.ident "order", .ident "by"] ShowsTerm order os)
      (hlimit : Clause [.ident "limit"] ShowsLimit limit ls) :
      ShowsSelect ⟨first, joins, star, fields, where_, group, having, order, limit⟩
        (.ident "select" :: (fs ++ .ident "from" ::
          (rs ++ (js ++ (ws ++ (gs ++ (hs ++ (os ++ ls))))))))

end

/-! ## The other statements -/

/-- What stands behind the type of a column. -/
def attrs (cd : ColumnDef) : List (List Sym) :=
  [if cd.primary then [.ident "primary", .ident "key"] else [],
    if cd.notNull then [.ident "not", .ident "null"] else [],
    if cd.autoInc then [.ident "auto_increment"] else [],
    if cd.unique then [.ident "unique"] else [],
    if cd.refTable = "" then []
    else .ident "references" :: .ident cd.refTable ::
      (if cd.refCol = "" then [] else parens [.ident cd.refCol])]

/-- The column can be written: it has a type, and its references are names. -/
structure ColumnOk (cd : ColumnDef) : Prop where
  name : Name cd.name
  type : cd.type.valid = true
  refTable : cd.refTable = "" ∧ cd.refCol = "" ∨ Name cd.refTable
  refCol : cd.refCol = "" ∨ Name cd.refCol

inductive ShowsColumn : ColumnDef → List Sym → Prop
  | mk {cd : ColumnDef} (h : ColumnOk cd) :
      ShowsColumn cd (.ident cd.name :: .ident cd.type.written :: (attrs cd).flatten)

inductive ShowsIdent : String → List Sym → Prop
  | mk {w : String} (h : Name w) : ShowsIdent w [.ident w]

/-- The columns an INSERT names, if any. -/
inductive ShowsCols : List String → List Sym → Prop
  | all : ShowsCols [] []
  | named {cols : List String} {ts : List Sym} (h : Listed ShowsIdent cols ts) :
      ShowsCols cols (parens ts)

inductive ShowsTuple : List Expr → List Sym → Prop
  | empty : ShowsTuple [] (parens [])
  | values {es : List Expr} {ts : List Sym} (h : Listed (Shows .or) es ts) :
      ShowsTuple es (parens ts)

inductive ShowsAssignment : Assignment → List Sym → Prop
  | mk {col : String} {e : Expr} {ts : List Sym} (hcol : Name col) (h : Shows .or e ts) :
      ShowsAssignment ⟨col, e⟩ (.ident col :: .punct .eq :: ts)

/-- **The tokens of a statement.** -/
inductive ShowsStatement : Statement → List Sym → Prop
  | create {t : String} {cols : List ColumnDef} {ts : List Sym} (ht : Name t)
      (h : Listed ShowsColumn cols ts) :
      ShowsStatement (.createTable t cols)
        (.ident "create" :: .ident "table" :: .ident t :: parens ts)
  | drop {t : String} (ht : Name t) :
      ShowsStatement (.dropTable t false) [.ident "drop", .ident "table", .ident t]
  | dropIf {t : String} (ht : Name t) :
      ShowsStatement (.dropTable t true)
        [.ident "drop", .ident "table", .ident "if", .ident "exists", .ident t]
  | insert {t : String} {cols : List String} {rows : List (List Expr)} {cs rs : List Sym}
      (ht : Name t) (hcols : ShowsCols cols cs) (hrows : Listed ShowsTuple rows rs) :
      ShowsStatement (.insert ⟨t, cols, rows⟩)
        (.ident "insert" :: .ident "into" :: .ident t :: (cs ++ .ident "values" :: rs))
  | select {s : Select} {ts : List Sym} (h : ShowsSelect s ts) : ShowsStatement (.select s) ts
  | update {t : String} {sets : List Assignment} {where_ : Option Expr} {ss ws : List Sym}
      (ht : Name t) (hsets : Listed ShowsAssignment sets ss)
      (hwhere : Clause [.ident "where"] (Shows .or) where_ ws) :
      ShowsStatement (.update ⟨t, sets, where_⟩)
        (.ident "update" :: .ident t :: .ident "set" :: (ss ++ ws))
  | delete {t : String} {where_ : Option Expr} {ws : List Sym} (ht : Name t)
      (hwhere : Clause [.ident "where"] (Shows .or) where_ ws) :
      ShowsStatement (.delete ⟨t, where_⟩)
        (.ident "delete" :: .ident "from" :: .ident t :: ws)
  | begin : ShowsStatement .begin [.ident "begin"]
  | start : ShowsStatement .begin [.ident "start", .ident "transaction"]
  | commit : ShowsStatement .commit [.ident "commit"]
  | rollback : ShowsStatement .rollback [.ident "rollback"]

/-! ## Parentheses around every compound subexpression -/

/-- Is this more than one piece? -/
def compound : Expr → Bool
  | .lit _ | .colRef _ _ | .func _ _ _ => false
  | _ => true

/-- A subexpression. -/
def wrapped (e : Expr) (ts : List Sym) : List Sym := if compound e then parens ts else ts

/-- Items, with a comma between two of them. -/
def commas : List (List Sym) → List Sym
  | [] => []
  | [ts] => ts
  | ts :: tss => ts ++ .punct .comma :: commas tss

/-- A list that is left out if it is empty. -/
def clauseOf (kws : List Sym) : List (List Sym) → List Sym
  | [] => []
  | tss => kws ++ commas tss

def printLimit : Option Nat → List Sym
  | none => []
  | some n => [.ident "limit", .num (Decimal.digits n)]

section Printing

-- the digits a `float64` literal is written with
variable (digitsOf : F64 → Bytes)

def literal : Value → Sym
  | .null => .ident "null"
  | .int i => .num (Decimal.digits i.toInt.toNat)
  | .float f => .num (digitsOf f)
  | .text s => .str s
  | .bool b => .ident (if b then "true" else "false")
  -- there are no literals of this kind
  | .time _ => .eof

mutual

def printExpr : Expr → List Sym
  | .lit v => [literal digitsOf v]
  | .colRef table name =>
    if table = "" then [.ident name] else [.ident table, .punct .dot, .ident name]
  | .func f star arg =>
    .ident f.written :: parens (if star then [.punct .star] else printArg arg)
  | .cmp op l r =>
    wrapped l (printExpr l) ++ .punct (cmpPunct op) :: wrapped r (printExpr r)
  | .isNull x neg => wrapped x (printExpr x) ++ .ident "is" :: (notKw neg ++ [.ident "null"])
  | .and l r => wrapped l (printExpr l) ++ .ident "and" :: wrapped r (printExpr r)
  | .or l r => wrapped l (printExpr l) ++ .ident "or" :: wrapped r (printExpr r)
  | .not x => .ident "not" :: wrapped x (printExpr x)
  | .binary op l r =>
    wrapped l (printExpr l) ++ .punct (binPunct op) :: wrapped r (printExpr r)
  | .inList x list neg =>
    wrapped x (printExpr x) ++ (notKw neg ++ .ident "in" :: parens (commas (printList list)))
  | .inSub x sub neg =>
    wrapped x (printExpr x) ++ (notKw neg ++ .ident "in" :: parens (printSelect sub))

def printArg : Option Expr → List Sym
  | none => []
  | some x => wrapped x (printExpr x)

def printList : List Expr → List (List Sym)
  | [] => []
  | e :: es => wrapped e (printExpr e) :: printList es

def printWhere (kw : String) : Option Expr → List Sym
  | none => []
  | some e => .ident kw :: printExpr e

def printFields : List (Expr × String) → List (List Sym)
  | [] => []
  | (e, a) :: fields =>
    (printExpr e ++ if a = "" then [] else [.ident "as", .ident a]) :: printFields fields

def printOrder : List (Expr × Bool) → List (List Sym)
  | [] => []
  | (e, desc) :: terms => (printExpr e ++ if desc then [.ident "desc"] else []) :: printOrder terms

def printRef : TableRef → List Sym
  | ⟨_, a, some sub⟩ => parens (printSelect sub) ++ [.ident "as", .ident a]
  | ⟨t, a, none⟩ => [.ident t, .ident "as", .ident a]

def printJoins : List Join → List (List Sym)
  | [] => []
  | ⟨left, ref, on⟩ :: joins =>
    ((if left then [.ident "left", .ident "join"] else [.ident "join"]) ++
      (printRef ref ++ .ident "on" :: printExpr on)) :: printJoins joins

def printSelect : Select → List Sym
  | ⟨first, joins, star, fields, where_, group, having, order, limit⟩ =>
    .ident "select" :: ((if star then [.punct .star] else commas (printFields fields)) ++
      .ident "from" :: (printRef first ++ ((printJoins joins).flatten ++
        (printWhere "where" where_ ++
          (clauseOf [.ident "group", .ident "by"] (printList group) ++
            (printWhere "having" having ++
              (clauseOf [.ident "order", .ident "by"] (printOrder order) ++
                printLimit limit)))))))

end

def printColumn (cd : ColumnDef) : List Sym :=
  .ident cd.name :: .ident cd.type.written :: (attrs cd).flatten

def printTuple (row : List Expr) : List Sym := parens (commas (printList digitsOf row))

def printAssignment (a : Assignment) : List Sym :=
  .ident a.col :: .punct .eq :: printExpr digitsOf a.expr

/-- **The tokens of a statement**, with parentheses around every compound
subexpression and `AS` before every alias. -/
def print : Statement → List Sym
  | .createTable t cols =>
    .ident "create" :: .ident "table" :: .ident t :: parens (commas (cols.map printColumn))
  | .dropTable t ifExists =>
    .ident "drop" :: .ident "table" ::
      ((if ifExists then [.ident "if", .ident "exists"] else []) ++ [.ident t])
  | .insert st =>
    .ident "insert" :: .ident "into" :: .ident st.table ::
      ((if st.cols = [] then [] else parens (commas (st.cols.map fun c => [.ident c]))) ++
        .ident "values" :: commas (st.rows.map (printTuple digitsOf)))
  | .select s => printSelect digitsOf s
  | .update st =>
    .ident "update" :: .ident st.table :: .ident "set" ::
      (commas (st.sets.map (printAssignment digitsOf)) ++ printWhere digitsOf "where" st.where_)
  | .delete st =>
    .ident "delete" :: .ident "from" :: .ident st.table :: printWhere digitsOf "where" st.where_
  | .begin => [.ident "begin"]
  | .commit => [.ident "commit"]
  | .rollback => [.ident "rollback"]

/-! ## The statements of the grammar -/

/-- The literals there are: a number is not negative and has its digits. -/
def LitOk : Value → Prop
  | .null | .text _ | .bool _ => True
  | .int i => 0 ≤ i.toInt
  | .float f =>
    Numeral (digitsOf f) ∧ dotByte ∈ digitsOf f ∧ parseFloat (digitsOf f) = some f
  | .time _ => False

mutual

def ExprOk : Expr → Prop
  | .lit v => LitOk digitsOf v
  | .colRef table name => (table = "" ∨ Name table) ∧ Name name
  | .func f star arg =>
    Name f.written ∧ funcName f.written = f ∧ (star = true → arg = none) ∧ OptionOk arg
  | .cmp _ l r | .and l r | .or l r | .binary _ l r => ExprOk l ∧ ExprOk r
  | .isNull x _ | .not x => ExprOk x
  | .inList x list _ => ExprOk x ∧ list ≠ [] ∧ ListOk list
  | .inSub x sub _ => ExprOk x ∧ SelectOk sub

def OptionOk : Option Expr → Prop
  | none => True
  | some e => ExprOk e

def ListOk : List Expr → Prop
  | [] => True
  | e :: es => ExprOk e ∧ ListOk es

def FieldsOk : List (Expr × String) → Prop
  | [] => True
  | (e, a) :: fields => ExprOk e ∧ (a = "" ∨ Name a) ∧ FieldsOk fields

def OrderOk : List (Expr × Bool) → Prop
  | [] => True
  | (e, _) :: terms => ExprOk e ∧ OrderOk terms

def RefOk : TableRef → Prop
  | ⟨t, a, some sub⟩ => t = "" ∧ Name a ∧ SelectOk sub
  | ⟨t, a, none⟩ => Name t ∧ Name a

def JoinsOk : List Join → Prop
  | [] => True
  | ⟨_, ref, on⟩ :: joins => RefOk ref ∧ ExprOk on ∧ JoinsOk joins

def SelectOk : Select → Prop
  | ⟨first, joins, star, fields, where_, group, having, order, limit⟩ =>
    RefOk first ∧ JoinsOk joins ∧ (star = true ↔ fields = []) ∧ FieldsOk fields ∧
      OptionOk where_ ∧ ListOk group ∧ OptionOk having ∧ OrderOk order ∧
      ∀ n ∈ limit, n < 2 ^ 63

end

/-- **A statement of the grammar**: names are lowercase and no keywords,
numbers are not negative, and nothing is empty that must not be. -/
def Printable : Statement → Prop
  | .createTable t cols => Name t ∧ cols ≠ [] ∧ ∀ cd ∈ cols, ColumnOk cd
  | .dropTable t _ => Name t
  | .insert st =>
    Name st.table ∧ (∀ c ∈ st.cols, Name c) ∧ st.rows ≠ [] ∧ ∀ row ∈ st.rows, ListOk digitsOf row
  | .select s => SelectOk digitsOf s
  | .update st =>
    Name st.table ∧ st.sets ≠ [] ∧ (∀ a ∈ st.sets, Name a.col ∧ ExprOk digitsOf a.expr) ∧
      OptionOk digitsOf st.where_
  | .delete st => Name st.table ∧ OptionOk digitsOf st.where_
  | .begin | .commit | .rollback => True

end Printing

end Tsql.Parser
