import Tsql.Types

/-!
# The catalog types (`internal/schema`)

`TableDef.validate` is the only gate between a `CREATE TABLE` and the
catalog: it checks the names against `identRe`, rejects duplicate columns,
unknown types and a second primary key, and rewrites the type of the
primary-key column in place.
-/

namespace Tsql

/-- `types.ColumnType`: a string in the source, of which six are valid. -/
inductive ColumnType where
  | int | bigint | float | text | bool | timestamp
  | unknown (name : String)
  deriving DecidableEq

/-- Membership in `types.ValidTypes`. -/
def ColumnType.valid : ColumnType → Bool
  | .unknown _ => false
  | _ => true

/-- A column type as it is written. -/
def ColumnType.written : ColumnType → String
  | .int => "int"
  | .bigint => "bigint"
  | .float => "float"
  | .text => "text"
  | .bool => "bool"
  | .timestamp => "timestamp"
  | .unknown name => name

/-- `schema.Column`. An empty `fkTable` means no foreign key. -/
structure Column where
  name : String
  type : ColumnType
  notNull : Bool := false
  primary : Bool := false
  autoInc : Bool := false
  unique : Bool := false
  fkTable : String := ""
  fkCol : String := ""
  deriving DecidableEq

/-- `schema.TableDef`. -/
structure TableDef where
  name : String
  cols : List Column
  deriving DecidableEq

/-- The errors of `TableDef.Validate`, each with the operands of its text. -/
inductive SchemaError where
  /-- `invalid table name %q` -/
  | invalidTableName (name : String)
  /-- `table %s needs at least one column` -/
  | noColumns (table : String)
  /-- `invalid column name %q in table %s` -/
  | invalidColumnName (column table : String)
  /-- `duplicate column %q in table %s` -/
  | duplicateColumn (column table : String)
  /-- `column %s: unknown type %q` -/
  | unknownType (column : String) (type : ColumnType)
  /-- `table %s: v1 supports at most one primary key column` -/
  | manyPrimaryKeys (table : String)
  deriving DecidableEq

def identStart (c : Char) : Bool :=
  ('a' ≤ c ∧ c ≤ 'z') ∨ ('A' ≤ c ∧ c ≤ 'Z') ∨ c = '_'

def identRest (c : Char) : Bool := identStart c ∨ ('0' ≤ c ∧ c ≤ '9')

/-- `identRe.MatchString`: `^[a-zA-Z_][a-zA-Z0-9_]*$`. -/
def identRe (s : String) : Bool :=
  match s.toList with
  | [] => false
  | c :: cs => identStart c && cs.all identRest

/-- `normalizePKType`: a primary key is an integer column. -/
def normalizePKType (ct : ColumnType) : ColumnType :=
  if ct = .int ∨ ct = .bigint then ct else .int

/-- The column loop of `Validate`: the columns with their key types
normalised, and the number of primary keys. `seen` holds the names so far. -/
def validateCols (table : String) : List Column → List String →
    Except SchemaError (List Column × Nat)
  | [], _ => .ok ([], 0)
  | c :: cs, seen =>
    if !identRe c.name then .error (.invalidColumnName c.name table)
    else if c.name ∈ seen then .error (.duplicateColumn c.name table)
    else if !c.type.valid then .error (.unknownType c.name c.type)
    else
      match validateCols table cs (c.name :: seen) with
      | .error err => .error err
      | .ok (cs', pkCount) =>
        if c.primary then
          .ok ({ c with type := normalizePKType c.type } :: cs', pkCount + 1)
        else .ok (c :: cs', pkCount)

/-- `TableDef.Validate`; the result is the definition as normalised in place. -/
def TableDef.validate (td : TableDef) : Except SchemaError TableDef :=
  if !identRe td.name then .error (.invalidTableName td.name)
  else if td.cols = [] then .error (.noColumns td.name)
  else
    match validateCols td.name td.cols [] with
    | .error err => .error err
    | .ok (cols, pkCount) =>
      if pkCount > 1 then .error (.manyPrimaryKeys td.name)
      else .ok { td with cols := cols }

/-! ## What a valid definition has -/

/-- At most one column is the primary key, and it is an integer column. -/
structure GoodKeys (cols : List Column) : Prop where
  int : ∀ c ∈ cols, c.primary = true → c.type = .int ∨ c.type = .bigint
  one : cols.countP Column.primary ≤ 1

theorem validateCols_keys {table : String} {cols cols' : List Column} {seen : List String}
    {n : Nat} (h : validateCols table cols seen = .ok (cols', n)) :
    (∀ c ∈ cols', c.primary = true → c.type = .int ∨ c.type = .bigint) ∧
      cols'.countP Column.primary = n := by
  induction cols generalizing seen cols' n with
  | nil =>
    cases h
    exact ⟨fun c hc => (List.not_mem_nil hc).elim, rfl⟩
  | cons c cols ih =>
    unfold validateCols at h
    split at h
    · cases h
    split at h
    · cases h
    split at h
    · cases h
    split at h
    · cases h
    · next cs pkCount hcols =>
      obtain ⟨hrest, hcount⟩ := ih hcols
      split at h
      · next hprimary =>
        cases h
        refine ⟨?_, ?_⟩
        · intro c' hc'
          rcases List.mem_cons.mp hc' with rfl | hc'
          · intro _
            show normalizePKType c.type = .int ∨ normalizePKType c.type = .bigint
            unfold normalizePKType
            split
            · assumption
            · exact .inl rfl
          · exact hrest c' hc'
        · rw [List.countP_cons_of_pos (by exact hprimary), hcount]
      · next hprimary =>
        cases h
        refine ⟨?_, ?_⟩
        · intro c' hc'
          rcases List.mem_cons.mp hc' with rfl | hc'
          · exact fun hp => absurd hp hprimary
          · exact hrest c' hc'
        · rw [List.countP_cons_of_neg hprimary, hcount]

theorem TableDef.goodKeys_of_validate {td td' : TableDef} (h : td.validate = .ok td') :
    GoodKeys td'.cols := by
  unfold TableDef.validate at h
  split at h
  · cases h
  split at h
  · cases h
  split at h
  · cases h
  · next cols n hcols =>
    split at h
    · cases h
    · next hone =>
      cases h
      obtain ⟨hint, hcount⟩ := validateCols_keys hcols
      exact ⟨hint, by rw [hcount]; omega⟩

end Tsql
