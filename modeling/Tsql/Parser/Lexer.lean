import Tsql.Lib.Decimal
import Tsql.Values

/-!
# Tokens (`internal/parser`, `lex`)

`lex` cuts a byte string into tokens. It looks at the bytes from where it
stands on (`lexeme`), and goes on behind the last byte of what it has seen;
`scan` is that loop, with the number of bytes still to go over as a counter,
so that it is plain recursion on the bytes.

Identifiers are lowercased; the text of a string literal is any bytes; a
numeral is digits, with at most one dot behind the first digit. The last token
is `eof`, and it is the only one of its kind (`lex_ends`).
-/

namespace Tsql.Parser

open Decimal (isDigit)

/-! ## Tokens -/

/-- The punctuation: one of `punctChars`, or `<=`, `>=`, `<>`. -/
inductive Punct where
  | lparen | rparen | comma | eq | lt | gt | plus | minus | star | percent | slash | semi | dot
  | le | ge | ne
  deriving DecidableEq

def Punct.text : Punct → String
  | .lparen => "(" | .rparen => ")" | .comma => "," | .eq => "=" | .lt => "<" | .gt => ">"
  | .plus => "+" | .minus => "-" | .star => "*" | .percent => "%" | .slash => "/" | .semi => ";"
  | .dot => "." | .le => "<=" | .ge => ">=" | .ne => "<>"

/-- `tokKind` and the text of a token. -/
inductive Sym where
  | eof
  | ident (name : String)
  | num (text : Bytes)
  | str (s : Bytes)
  | punct (p : Punct)
  deriving DecidableEq

/-- `token`. -/
structure Token where
  sym : Sym
  pos : Nat
  deriving DecidableEq

/-! ## Errors -/

/-- What a syntax error says, with what is formatted into it. -/
inductive Message where
  | unterminatedString
  | unexpectedCharacter (c : UInt8)
  | afterStatement (got : Sym)
  | expectedPunct (p : Punct) (got : Sym)
  | expectedKw (kw : String) (got : Sym)
  | expectedIdent (what : String) (got : Sym)
  | emptyStatement
  | unsupported (got : Sym)
  | unknownType (tn : String)
  | derivedSelect
  | derivedAlias
  | limit
  | badNumber (text : Bytes)
  | unexpected (got : Sym)
  | unexpectedEnd
  deriving DecidableEq

structure SyntaxError where
  pos : Nat
  msg : Message
  deriving DecidableEq

/-! ## Characters -/

def isBlank (c : UInt8) : Bool :=
  c == ' '.toUInt8 || c == '\t'.toUInt8 || c == '\n'.toUInt8 || c == '\r'.toUInt8

def isIdentStart (c : UInt8) : Bool :=
  c == '_'.toUInt8 || ('a'.toUInt8 ≤ c && c ≤ 'z'.toUInt8) ||
    ('A'.toUInt8 ≤ c && c ≤ 'Z'.toUInt8)

def isIdentChar (c : UInt8) : Bool := isIdentStart c || isDigit c

/-- The single quote. -/
def apostrophe : UInt8 := 39

def dotByte : UInt8 := '.'.toUInt8

/-- `punctChars`. -/
def punctChars : List (UInt8 × Punct) :=
  [('('.toUInt8, .lparen), (')'.toUInt8, .rparen), (','.toUInt8, .comma), ('='.toUInt8, .eq),
    ('<'.toUInt8, .lt), ('>'.toUInt8, .gt), ('+'.toUInt8, .plus), ('-'.toUInt8, .minus),
    ('*'.toUInt8, .star), ('%'.toUInt8, .percent), ('/'.toUInt8, .slash), (';'.toUInt8, .semi),
    (dotByte, .dot)]

/-- The punctuation of two characters. -/
def punctPairs : List ((UInt8 × UInt8) × Punct) :=
  [(('<'.toUInt8, '='.toUInt8), .le), (('>'.toUInt8, '='.toUInt8), .ge),
    (('<'.toUInt8, '>'.toUInt8), .ne)]

/-! ## The lexer -/

/-- The text of a string literal behind its opening quote, and how many bytes
it takes up to its closing one. A doubled quote is a quote. -/
def readString : Bytes → Option (Bytes × Nat)
  | [] => none
  | [d] => if d = apostrophe then some ([], 1) else none
  | d :: e :: rest =>
    if d = apostrophe then
      if e = apostrophe then (readString rest).map fun (s, len) => (apostrophe :: s, len + 2)
      else some ([], 1)
    else (readString (e :: rest)).map fun (s, len) => (d :: s, len + 1)

/-- The bytes of a numeral behind its first digit. -/
def readNumber (rest : Bytes) : Bytes :=
  let whole := rest.takeWhile isDigit
  match rest.dropWhile isDigit with
  | [] => whole
  | d :: frac => if d = dotByte then whole ++ d :: frac.takeWhile isDigit else whole

/-- `strings.ToLower` of an identifier. -/
def lowered (word : Bytes) : String :=
  String.ofList (word.map fun c => (Char.ofNat c.toNat).toLower)

/-- What begins with the byte `c`: nothing, or a token; and how many bytes it
takes behind `c`. -/
def lexeme (c : UInt8) (rest : Bytes) : Except Message (Option Sym × Nat) :=
  if isBlank c then .ok (none, 0)
  else if c = apostrophe then
    match readString rest with
    | some (s, len) => .ok (some (.str s), len)
    | none => .error .unterminatedString
  else if isDigit c then
    .ok (some (.num (c :: readNumber rest)), (readNumber rest).length)
  else if isIdentStart c then
    let more := rest.takeWhile isIdentChar
    .ok (some (.ident (lowered (c :: more))), more.length)
  else
    match punctChars.lookup c with
    | none => .error (.unexpectedCharacter c)
    | some p =>
      match rest.head?.bind fun d => punctPairs.lookup (c, d) with
      | some two => .ok (some (.punct two), 1)
      | none => .ok (some (.punct p), 0)

/-- The loop of `lex`: `skip` bytes belong to what was seen last. -/
def scan : Nat → Nat → Bytes → Except SyntaxError (List Token)
  | _, pos, [] => .ok [⟨.eof, pos⟩]
  | skip + 1, pos, _ :: rest => scan skip (pos + 1) rest
  | 0, pos, c :: rest =>
    match lexeme c rest with
    | .error m => .error ⟨pos, m⟩
    | .ok (none, len) => scan len (pos + 1) rest
    | .ok (some s, len) => do
      let toks ← scan len (pos + 1) rest
      return ⟨s, pos⟩ :: toks

/-- `lex`. -/
def lex (src : Bytes) : Except SyntaxError (List Token) := scan 0 0 src

/-! ## The end of the tokens -/

theorem lexeme_ne_eof {c : UInt8} {rest : Bytes} {s : Sym} {len : Nat}
    (h : lexeme c rest = .ok (some s, len)) : s ≠ .eof := by
  rintro rfl
  unfold lexeme at h
  repeat' split at h
  all_goals simp at h

/-- The end is the one `eof`. -/
def Ended (toks : List Token) : Prop :=
  ∃ init pos, toks = init ++ [⟨.eof, pos⟩] ∧ ∀ t ∈ init, t.sym ≠ .eof

theorem scan_ends {skip pos : Nat} {src : Bytes} {toks : List Token}
    (h : scan skip pos src = .ok toks) : Ended toks := by
  fun_induction scan skip pos src generalizing toks with
  | case1 skip pos =>
    cases h
    exact ⟨[], pos, rfl, by simp⟩
  | case2 skip pos c rest ih => exact ih h
  | case3 pos c rest m hl => cases h
  | case4 pos c rest len hl ih => exact ih h
  | case5 pos c rest s len hl ih =>
    cases hrest : scan len (pos + 1) rest with
    | error e =>
      rw [hrest] at h
      cases h
    | ok toks' =>
      rw [hrest] at h
      cases h
      obtain ⟨init, last, rfl, hinit⟩ := ih hrest
      refine ⟨⟨s, pos⟩ :: init, last, rfl, ?_⟩
      simpa using ⟨lexeme_ne_eof hl, hinit⟩

/-- **The tokens end in `eof`**, which stands nowhere else. -/
theorem lex_ends {src : Bytes} {toks : List Token} (h : lex src = .ok toks) : Ended toks :=
  scan_ends h

end Tsql.Parser
