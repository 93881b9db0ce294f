import Mathlib.Data.List.Forall2
import Tsql.Parser.Print

/-!
# `print` prints

For a statement of the grammar, `print` gives tokens that show it, and each of
them can be written. The proof goes along the printing functions: a compound
subexpression stands in parentheses, and so will do at any level; anything
else needs none.
-/

namespace Tsql.Parser

variable {ts : List Sym}

/-! ## Tokens that can be written -/

/-- Each of the tokens can be written. -/
def Lexables (ts : List Sym) : Prop := ∀ s ∈ ts, Lexable s

@[simp] theorem lexables_nil : Lexables [] := fun _ h => by cases h

@[simp] theorem lexables_cons {s : Sym} :
    Lexables (s :: ts) ↔ Lexable s ∧ Lexables ts := List.forall_mem_cons

@[simp] theorem lexables_append {ts us : List Sym} :
    Lexables (ts ++ us) ↔ Lexables ts ∧ Lexables us := List.forall_mem_append

@[simp] theorem lexable_punct (p : Punct) : Lexable (.punct p) := trivial

@[simp] theorem lexables_parens : Lexables (parens ts) ↔ Lexables ts := by
  simp [parens]

theorem Name.lexable {w : String} (h : Name w) : Lexable (.ident w) := h.spelled

theorem lexable_kw {w : String} (hw : w ∈ keywords) : Lexable (.ident w) := by
  have h : ∀ w ∈ keywords, isName w = true := by decide +kernel
  exact h w hw

/-- The tokens show `a`, and can be written. -/
def Prints {α : Type} (R : α → List Sym → Prop) (a : α) (ts : List Sym) : Prop :=
  R a ts ∧ Lexables ts

theorem listed_commas {α : Type} {R : α → List Sym → Prop} {as : List α} {tss : List (List Sym)}
    (h : List.Forall₂ (Prints R) as tss) (hne : as ≠ []) : Prints (Listed R) as (commas tss) := by
  induction h with
  | nil => exact absurd rfl hne
  | @cons a ts as tss h hmore ih =>
    cases hmore with
    | nil => exact ⟨.one h.1, h.2⟩
    | cons h' hmore' =>
      obtain ⟨hlist, hlex⟩ := ih (by simp)
      exact ⟨.more h.1 hlist, by simp [commas, h.2, hlex]⟩

theorem clauseList_clauseOf {α : Type} {R : α → List Sym → Prop} {as : List α}
    {tss : List (List Sym)} {kws : List Sym} (hkws : Lexables kws)
    (h : List.Forall₂ (Prints R) as tss) :
    Prints (ClauseList kws R) as (clauseOf kws tss) := by
  cases h with
  | nil => exact ⟨.nil, lexables_nil⟩
  | cons h hmore =>
    obtain ⟨hlist, hlex⟩ := listed_commas (.cons h hmore) (by simp)
    exact ⟨.list hlist, lexables_append.mpr ⟨hkws, hlex⟩⟩

/-! ## Levels -/

/-- The level of an expression without parentheses. -/
def levelOf : Expr → Level
  | .or _ _ => .or
  | .and _ _ => .and
  | .not _ => .not
  | .cmp _ _ _ | .isNull _ _ | .inList _ _ _ | .inSub _ _ _ => .cmp
  | .binary op _ _ => binLevel op
  | .lit _ | .colRef _ _ | .func _ _ _ => .primary

theorem Shows.of_primary {e : Expr} (h : Shows .primary e ts) (l : Level) :
    Shows l e ts := by
  have hunary : Shows .unary e ts := .lift rfl h
  have hmul : Shows .mul e ts := .lift rfl hunary
  have hadd : Shows .add e ts := .lift rfl hmul
  have hcmp : Shows .cmp e ts := .lift rfl hadd
  have hnot : Shows .not e ts := .lift rfl hcmp
  have hand : Shows .and e ts := .lift rfl hnot
  have hor : Shows .or e ts := .lift rfl hand
  cases l with
  | or => exact hor
  | and => exact hand
  | not => exact hnot
  | cmp => exact hcmp
  | add => exact hadd
  | mul => exact hmul
  | unary => exact hunary
  | primary => exact h

/-- Any level will do where the lowest is wanted. -/
theorem Shows.to_or {l : Level} {e : Expr} (h : Shows l e ts) :
    Shows .or e ts := by
  have hand : ∀ {ts}, Shows .and e ts → Shows .or e ts := fun h => .lift rfl h
  have hnot : ∀ {ts}, Shows .not e ts → Shows .or e ts := fun h => hand (.lift rfl h)
  have hcmp : ∀ {ts}, Shows .cmp e ts → Shows .or e ts := fun h => hnot (.lift rfl h)
  have hadd : ∀ {ts}, Shows .add e ts → Shows .or e ts := fun h => hcmp (.lift rfl h)
  have hmul : ∀ {ts}, Shows .mul e ts → Shows .or e ts := fun h => hadd (.lift rfl h)
  have hunary : ∀ {ts}, Shows .unary e ts → Shows .or e ts := fun h => hmul (.lift rfl h)
  cases l with
  | or => exact h
  | and => exact hand h
  | not => exact hnot h
  | cmp => exact hcmp h
  | add => exact hadd h
  | mul => exact hmul h
  | unary => exact hunary h
  | primary => exact h.of_primary .or

/-- **A subexpression may stand anywhere.** -/
theorem prints_wrapped {e : Expr} (h : Prints (Shows (levelOf e)) e ts)
    (l : Level) : Prints (Shows l) e (wrapped e ts) := by
  unfold wrapped
  split
  case isTrue hc => exact ⟨(Shows.parens h.1.to_or).of_primary l, lexables_parens.mpr h.2⟩
  case isFalse hc =>
    have hlevel : levelOf e = .primary := by
      cases e with
      | lit v => rfl
      | colRef t c => rfl
      | func f star arg => rfl
      | _ => exact absurd rfl hc
    rw [hlevel] at h
    exact ⟨h.1.of_primary l, h.2⟩

/-! ## Printing -/

theorem numeral_digits (m : Nat) : Numeral (Decimal.digits m) ∧ dotByte ∉ Decimal.digits m := by
  have hdigits := fun d (hd : d ∈ Decimal.digits m) => Decimal.isDigit_of_mem_digits hd
  refine ⟨?_, fun hdot => absurd (hdigits _ hdot) (by decide)⟩
  cases hm : Decimal.digits m with
  | nil => exact absurd hm (Decimal.digits_ne_nil m)
  | cons c ds =>
    rw [hm] at hdigits
    exact .whole (hdigits c (by simp)) fun d hd => hdigits d (by simp [hd])

theorem parseInt_digits {i : Int64} (h : 0 ≤ i.toInt) :
    parseInt (Decimal.digits i.toInt.toNat) = some i := by
  have hlt := i.toInt_lt
  have hnat : i.toInt.toNat < 2 ^ 63 := by omega
  rw [parseInt, Decimal.value_digits, if_pos hnat]
  congr 1
  rw [← Int64.toInt_inj, Int64.toInt_ofNat_of_lt hnat]
  omega

theorem limitOf_digits {m : Nat} (h : m < 2 ^ 63) :
    limitOf (.num (Decimal.digits m)) = some m := by
  have hint : (Int64.ofNat m).toInt = m := Int64.toInt_ofNat_of_lt h
  have hneg : ¬ Int64.ofNat m < 0 := by
    rw [Int64.lt_iff_toInt_lt, hint]
    simp
  simp only [limitOf, if_neg (numeral_digits m).2, parseInt, Decimal.value_digits, if_pos h,
    Option.bind_some, if_neg hneg, hint]
  rfl

theorem prints_limit {limit : Option Nat} (h : ∀ n ∈ limit, n < 2 ^ 63) :
    Prints (Clause [.ident "limit"] ShowsLimit) limit (printLimit limit) := by
  cases limit with
  | none => exact ⟨.none, lexables_nil⟩
  | some m =>
    have hnum : Lexable (.num (Decimal.digits m)) := (numeral_digits m).1
    refine ⟨.some (.mk (limitOf_digits (h m rfl))), ?_⟩
    simp [printLimit, lexable_kw (show "limit" ∈ keywords by decide), hnum]

section Printing

variable {digitsOf : F64 → Bytes}

theorem prints_literal {v : Value} (h : LitOk digitsOf v) :
    ShowsLit v (literal digitsOf v) ∧ Lexable (literal digitsOf v) := by
  cases v with
  | null => exact ⟨.null, lexable_kw (by decide)⟩
  | int i => exact ⟨.int (numeral_digits _).2 (parseInt_digits h), (numeral_digits _).1⟩
  | float f => exact ⟨.float h.2.1 h.2.2, h.1⟩
  | text s => exact ⟨.text s, trivial⟩
  | bool b =>
    cases b with
    | false => exact ⟨.false, lexable_kw (by decide)⟩
    | true => exact ⟨.true, lexable_kw (by decide)⟩
  | time t => exact absurd h id

theorem lexables_notKw (neg : Bool) : Lexables (notKw neg) := by
  cases neg with
  | false => exact lexables_nil
  | true => exact lexables_cons.mpr ⟨lexable_kw (by decide), lexables_nil⟩

/-- Two operands with an operator between them. -/
theorem prints_infix {l r e : Expr} {ll lr : Level} {lvl : Level} {s : Sym} {ts us : List Sym}
    (hl : Prints (Shows (levelOf l)) l ts) (hr : Prints (Shows (levelOf r)) r us) (hs : Lexable s)
    (h : ∀ {ts us}, Shows ll l ts → Shows lr r us → Shows lvl e (ts ++ s :: us)) :
    Prints (Shows lvl) e (wrapped l ts ++ s :: wrapped r us) := by
  have hl' := prints_wrapped hl ll
  have hr' := prints_wrapped hr lr
  exact ⟨h hl'.1 hr'.1, lexables_append.mpr ⟨hl'.2, lexables_cons.mpr ⟨hs, hr'.2⟩⟩⟩

mutual

/-- **An expression is printed** at its own level. -/
theorem prints_expr : (e : Expr) → ExprOk digitsOf e →
    Prints (Shows (levelOf e)) e (printExpr digitsOf e)
  | .lit v, h => by
    rw [ExprOk] at h
    obtain ⟨hshows, hlex⟩ := prints_literal h
    rw [printExpr]
    exact ⟨.lit hshows, by simp [hlex]⟩
  | .colRef table name, h => by
    rw [ExprOk] at h
    rw [printExpr]
    split
    case isTrue ht =>
      subst ht
      exact ⟨.column h.2, by simp [h.2.lexable]⟩
    case isFalse ht =>
      have ht' := h.1.resolve_left ht
      exact ⟨.qualified ht' h.2, by simp [ht'.lexable, h.2.lexable]⟩
  | .func f star arg, h => by
    rw [ExprOk] at h
    obtain ⟨hname, hf, hstar, harg⟩ := h
    rw [printExpr]
    cases star with
    | true =>
      rw [hstar rfl]
      refine ⟨?_, by simp [hname.lexable]⟩
      have := Shows.star hname
      rwa [hf] at this
    | false =>
      cases arg with
      | none =>
        refine ⟨?_, by simp [hname.lexable, printArg]⟩
        have := Shows.noArg hname
        rwa [hf] at this
      | some x =>
        rw [OptionOk] at harg
        have hx := prints_wrapped (prints_expr x harg) .or
        refine ⟨?_, by simp [hname.lexable, printArg, hx.2]⟩
        have := Shows.call hname hx.1
        rwa [hf] at this
  | .cmp op l r, h => by
    rw [ExprOk] at h
    rw [printExpr]
    exact prints_infix (prints_expr l h.1) (prints_expr r h.2) trivial .cmp
  | .and l r, h => by
    rw [ExprOk] at h
    rw [printExpr]
    exact prints_infix (prints_expr l h.1) (prints_expr r h.2) (lexable_kw (by decide)) .and
  | .or l r, h => by
    rw [ExprOk] at h
    rw [printExpr]
    exact prints_infix (prints_expr l h.1) (prints_expr r h.2) (lexable_kw (by decide)) .or
  | .binary op l r, h => by
    rw [ExprOk] at h
    rw [printExpr, levelOf]
    cases hop : binLevel op with
    | add => exact prints_infix (prints_expr l h.1) (prints_expr r h.2) trivial (.add hop)
    | mul => exact prints_infix (prints_expr l h.1) (prints_expr r h.2) trivial (.mul hop)
    | _ => cases op <;> cases hop
  | .not x, h => by
    rw [ExprOk] at h
    rw [printExpr]
    have hx := prints_wrapped (prints_expr x h) .not
    exact ⟨.not hx.1, lexables_cons.mpr ⟨lexable_kw (by decide), hx.2⟩⟩
  | .isNull x neg, h => by
    rw [ExprOk] at h
    rw [printExpr]
    have hx := prints_wrapped (prints_expr x h) .add
    refine ⟨.isNull hx.1, ?_⟩
    simp [hx.2, lexables_notKw, lexable_kw (show "is" ∈ keywords by decide),
      lexable_kw (show "null" ∈ keywords by decide)]
  | .inList x list neg, h => by
    rw [ExprOk] at h
    rw [printExpr]
    have hx := prints_wrapped (prints_expr x h.1) .add
    have hlist := listed_commas (prints_list list h.2.2) h.2.1
    refine ⟨.inList hx.1 hlist.1, ?_⟩
    simp [hx.2, hlist.2, lexables_notKw, lexable_kw (show "in" ∈ keywords by decide)]
  | .inSub x sub neg, h => by
    rw [ExprOk] at h
    rw [printExpr]
    have hx := prints_wrapped (prints_expr x h.1) .add
    have hsub := prints_select sub h.2
    refine ⟨.inSub hx.1 hsub.1, ?_⟩
    simp [hx.2, hsub.2, lexables_notKw, lexable_kw (show "in" ∈ keywords by decide)]

theorem prints_list : (es : List Expr) → ListOk digitsOf es →
    List.Forall₂ (Prints (Shows .or)) es (printList digitsOf es)
  | [], _ => by
    rw [printList]
    exact .nil
  | e :: es, h => by
    rw [ListOk] at h
    rw [printList]
    exact .cons (prints_wrapped (prints_expr e h.1) .or) (prints_list es h.2)

theorem prints_where {kw : String} (hkw : kw ∈ keywords) : (w : Option Expr) →
    OptionOk digitsOf w →
    Prints (Clause [.ident kw] (Shows .or)) w (printWhere digitsOf kw w)
  | none, _ => by
    rw [printWhere]
    exact ⟨.none, lexables_nil⟩
  | some e, h => by
    rw [OptionOk] at h
    have he := prints_expr e h
    rw [printWhere]
    exact ⟨.some he.1.to_or, lexables_cons.mpr ⟨lexable_kw hkw, he.2⟩⟩

theorem prints_fields : (fields : List (Expr × String)) → FieldsOk digitsOf fields →
    List.Forall₂ (Prints ShowsField) fields (printFields digitsOf fields)
  | [], _ => by
    rw [printFields]
    exact .nil
  | (e, a) :: fields, h => by
    rw [FieldsOk] at h
    have he := prints_expr e h.1
    rw [printFields]
    refine .cons ?_ (prints_fields fields h.2.2)
    split
    case isTrue ha =>
      subst ha
      rw [List.append_nil]
      exact ⟨.plain he.1.to_or, he.2⟩
    case isFalse ha =>
      have ha' := h.2.1.resolve_left ha
      refine ⟨.aliased he.1.to_or ha', ?_⟩
      simp [he.2, ha'.lexable, lexable_kw (show "as" ∈ keywords by decide)]

theorem prints_order : (terms : List (Expr × Bool)) → OrderOk digitsOf terms →
    List.Forall₂ (Prints ShowsTerm) terms (printOrder digitsOf terms)
  | [], _ => by
    rw [printOrder]
    exact .nil
  | (e, desc) :: terms, h => by
    rw [OrderOk] at h
    have he := prints_expr e h.1
    rw [printOrder]
    refine .cons ?_ (prints_order terms h.2)
    cases desc with
    | false =>
      rw [if_neg Bool.false_ne_true, List.append_nil]
      exact ⟨.plain he.1.to_or, he.2⟩
    | true =>
      refine ⟨.desc he.1.to_or, ?_⟩
      simp [he.2, lexable_kw (show "desc" ∈ keywords by decide)]

theorem prints_ref : (ref : TableRef) → RefOk digitsOf ref →
    Prints ShowsRef ref (printRef digitsOf ref)
  | ⟨t, a, some sub⟩, h => by
    rw [RefOk] at h
    obtain ⟨rfl, ha, hsub⟩ := h
    have hs := prints_select sub hsub
    rw [printRef]
    refine ⟨.derived ha hs.1, ?_⟩
    simp [hs.2, ha.lexable, lexable_kw (show "as" ∈ keywords by decide)]
  | ⟨t, a, none⟩, h => by
    rw [RefOk] at h
    rw [printRef]
    refine ⟨.aliased h.1 h.2, ?_⟩
    simp [h.1.lexable, h.2.lexable, lexable_kw (show "as" ∈ keywords by decide)]

theorem prints_joins : (joins : List Join) → JoinsOk digitsOf joins →
    Prints (Each ShowsJoin) joins (printJoins digitsOf joins).flatten
  | [], _ => by
    rw [printJoins]
    exact ⟨.nil, lexables_nil⟩
  | ⟨left, ref, on⟩ :: joins, h => by
    rw [JoinsOk] at h
    have href := prints_ref ref h.1
    have hon := prints_expr on h.2.1
    have hmore := prints_joins joins h.2.2
    rw [printJoins, List.flatten_cons]
    have hks : (if left then [.ident "left", .ident "join"] else [.ident "join"]) ∈
        joinKws left := by
      cases left <;> simp [joinKws]
    refine ⟨.cons (.mk hks href.1 hon.1.to_or) hmore.1, ?_⟩
    cases left <;>
      simp [href.2, hon.2, hmore.2, lexable_kw (show "left" ∈ keywords by decide),
        lexable_kw (show "join" ∈ keywords by decide), lexable_kw (show "on" ∈ keywords by decide)]

/-- **A SELECT is printed.** -/
theorem prints_select : (s : Select) → SelectOk digitsOf s →
    Prints ShowsSelect s (printSelect digitsOf s)
  | ⟨first, joins, star, fields, where_, group, having, order, limit⟩, h => by
    rw [SelectOk] at h
    obtain ⟨hfirst, hjoins, hstar, hfields, hwhere, hgroup, hhaving, horder, hlimit⟩ := h
    have hfirst' := prints_ref first hfirst
    have hjoins' := prints_joins joins hjoins
    have hfields' : Prints (ShowsFields star) fields
        (if star then [.punct .star] else commas (printFields digitsOf fields)) := by
      cases star with
      | true =>
        rw [hstar.mp rfl]
        exact ⟨.star, by simp⟩
      | false =>
        have hne : fields ≠ [] := fun h => by simpa using hstar.mpr h
        have hlist := listed_commas (prints_fields fields hfields) hne
        exact ⟨.list hlist.1, hlist.2⟩
    have hwhere' := prints_where (show "where" ∈ keywords by decide) where_ hwhere
    have hhaving' := prints_where (show "having" ∈ keywords by decide) having hhaving
    have hby := lexable_kw (show "by" ∈ keywords by decide)
    have hgroupBy : Lexables [.ident "group", .ident "by"] := by
      simp [hby, lexable_kw (show "group" ∈ keywords by decide)]
    have horderBy : Lexables [.ident "order", .ident "by"] := by
      simp [hby, lexable_kw (show "order" ∈ keywords by decide)]
    have hgroup' := clauseList_clauseOf hgroupBy (prints_list group hgroup)
    have horder' := clauseList_clauseOf horderBy (prints_order order horder)
    have hlimit' := prints_limit hlimit
    rw [printSelect]
    refine ⟨.mk hfields'.1 hfirst'.1 hjoins'.1 hwhere'.1 hgroup'.1 hhaving'.1 horder'.1
      hlimit'.1, ?_⟩
    simp [hfields'.2, hfirst'.2, hjoins'.2, hwhere'.2, hgroup'.2, hhaving'.2, horder'.2,
      hlimit'.2, lexable_kw (show "select" ∈ keywords by decide),
      lexable_kw (show "from" ∈ keywords by decide)]

end

/-! ## Statements -/

theorem forall₂_map {α : Type} {R : α → List Sym → Prop} {f : α → List Sym} {as : List α}
    (h : ∀ a ∈ as, Prints R a (f a)) : List.Forall₂ (Prints R) as (as.map f) := by
  induction as with
  | nil => exact .nil
  | cons a as ih =>
    obtain ⟨ha, has⟩ := List.forall_mem_cons.mp h
    exact .cons ha (ih has)

theorem lexables_ite {c : Prop} [Decidable c] {ts us : List Sym} (hts : c → Lexables ts)
    (hus : ¬ c → Lexables us) : Lexables (if c then ts else us) := by
  split
  case isTrue h => exact hts h
  case isFalse h => exact hus h

theorem lexables_attrs {cd : ColumnDef} (h : ColumnOk cd) : Lexables (attrs cd).flatten := by
  have hkw : ∀ {w : String}, w ∈ keywords → Lexable (.ident w) := lexable_kw
  simp only [attrs, List.flatten_cons, List.flatten_nil, lexables_append]
  refine ⟨lexables_ite (fun _ => ?_) fun _ => lexables_nil,
    lexables_ite (fun _ => ?_) fun _ => lexables_nil,
    lexables_ite (fun _ => ?_) fun _ => lexables_nil,
    lexables_ite (fun _ => ?_) fun _ => lexables_nil,
    lexables_ite (fun _ => lexables_nil) fun href => ?_, lexables_nil⟩
  · simp [hkw (show "primary" ∈ keywords by decide), hkw (show "key" ∈ keywords by decide)]
  · simp [hkw (show "not" ∈ keywords by decide), hkw (show "null" ∈ keywords by decide)]
  · simp [hkw (show "auto_increment" ∈ keywords by decide)]
  · simp [hkw (show "unique" ∈ keywords by decide)]
  · have hname : Name cd.refTable := h.refTable.resolve_left fun h => href h.1
    refine lexables_cons.mpr ⟨hkw (by decide), lexables_cons.mpr ⟨hname.lexable, ?_⟩⟩
    refine lexables_ite (fun _ => lexables_nil) fun hcol => ?_
    simp [(h.refCol.resolve_left hcol).lexable]

theorem prints_column {cd : ColumnDef} (h : ColumnOk cd) :
    Prints ShowsColumn cd (printColumn cd) := by
  have htype : Lexable (.ident cd.type.written) := by
    have hvalid := h.type
    cases htype : cd.type with
    | unknown tn => rw [htype] at hvalid; cases hvalid
    | _ =>
      show isName _ = true
      decide +kernel
  exact ⟨.mk h, by simp [printColumn, h.name.lexable, htype, lexables_attrs h]⟩

theorem prints_tuple {row : List Expr} (h : ListOk digitsOf row) :
    Prints ShowsTuple row (printTuple digitsOf row) := by
  cases row with
  | nil => exact ⟨.empty, by simp [printTuple, printList, commas]⟩
  | cons e es =>
    have hlist := listed_commas (prints_list (e :: es) h) (by simp)
    exact ⟨.values hlist.1, lexables_parens.mpr hlist.2⟩

theorem prints_assignment {a : Assignment} (hcol : Name a.col) (h : ExprOk digitsOf a.expr) :
    Prints ShowsAssignment a (printAssignment digitsOf a) := by
  have he := prints_expr a.expr h
  exact ⟨.mk hcol he.1.to_or, by simp [printAssignment, hcol.lexable, he.2]⟩

/-- **A statement of the grammar is printed.** -/
theorem prints_statement {st : Statement} (h : Printable digitsOf st) :
    Prints ShowsStatement st (print digitsOf st) := by
  cases st with
  | createTable t cols =>
    obtain ⟨ht, hne, hcols⟩ := h
    have hlist := listed_commas (forall₂_map fun cd hcd => prints_column (hcols cd hcd)) hne
    refine ⟨.create ht hlist.1, ?_⟩
    simp [print, ht.lexable, hlist.2, lexable_kw (show "create" ∈ keywords by decide),
      lexable_kw (show "table" ∈ keywords by decide)]
  | dropTable t ifExists =>
    have ht : Name t := h
    have hdrop := lexable_kw (show "drop" ∈ keywords by decide)
    have htable := lexable_kw (show "table" ∈ keywords by decide)
    cases ifExists with
    | false => exact ⟨.drop ht, by simp [print, ht.lexable, hdrop, htable]⟩
    | true =>
      refine ⟨.dropIf ht, ?_⟩
      simp [print, ht.lexable, hdrop, htable, lexable_kw (show "if" ∈ keywords by decide),
        lexable_kw (show "exists" ∈ keywords by decide)]
  | insert st =>
    obtain ⟨ht, hcols, hne, hrows⟩ := h
    have hlist := listed_commas (forall₂_map fun row hrow => prints_tuple (hrows row hrow)) hne
    have hcols' : Prints ShowsCols st.cols
        (if st.cols = [] then [] else parens (commas (st.cols.map fun c => [.ident c]))) := by
      split
      case isTrue h =>
        rw [h]
        exact ⟨.all, lexables_nil⟩
      case isFalse h =>
        have hnames := listed_commas (forall₂_map fun c hc =>
          (⟨.mk (hcols c hc), by simp [(hcols c hc).lexable]⟩ : Prints ShowsIdent c [.ident c])) h
        exact ⟨.named hnames.1, lexables_parens.mpr hnames.2⟩
    refine ⟨.insert ht hcols'.1 hlist.1, ?_⟩
    simp [print, ht.lexable, hcols'.2, hlist.2, lexable_kw (show "insert" ∈ keywords by decide),
      lexable_kw (show "into" ∈ keywords by decide),
      lexable_kw (show "values" ∈ keywords by decide)]
  | select s =>
    have hs := prints_select s h
    exact ⟨.select hs.1, hs.2⟩
  | update st =>
    obtain ⟨ht, hne, hsets, hwhere⟩ := h
    have hlist := listed_commas
      (forall₂_map fun a ha => prints_assignment (hsets a ha).1 (hsets a ha).2) hne
    have hwhere' := prints_where (show "where" ∈ keywords by decide) st.where_ hwhere
    refine ⟨.update ht hlist.1 hwhere'.1, ?_⟩
    simp [print, ht.lexable, hlist.2, hwhere'.2, lexable_kw (show "update" ∈ keywords by decide),
      lexable_kw (show "set" ∈ keywords by decide)]
  | delete st =>
    obtain ⟨ht, hwhere⟩ := h
    have hwhere' := prints_where (show "where" ∈ keywords by decide) st.where_ hwhere
    refine ⟨.delete ht hwhere'.1, ?_⟩
    simp [print, ht.lexable, hwhere'.2, lexable_kw (show "delete" ∈ keywords by decide),
      lexable_kw (show "from" ∈ keywords by decide)]
  | begin => exact ⟨.begin, by simp [print, lexable_kw (show "begin" ∈ keywords by decide)]⟩
  | commit => exact ⟨.commit, by simp [print, lexable_kw (show "commit" ∈ keywords by decide)]⟩
  | rollback =>
    exact ⟨.rollback, by simp [print, lexable_kw (show "rollback" ∈ keywords by decide)]⟩

end Printing

end Tsql.Parser
