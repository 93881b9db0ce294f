import Tsql.Parser.Printed
import Tsql.Parser.Reading

/-!
# Parse undoes printing

The statements, and the whole of `Parse`: every text in which the tokens of a
statement are written parses to the statement, whether redundant parentheses
have been kept or dropped.
-/

namespace Tsql.Parser

open Cursor

variable {ts : List Sym} {t : String} {where_ : Option Expr}

/-! ## The other statements -/

section Statements

variable {n : Nat} {r : Calls}

/-- What may come behind a column. -/
def BehindColumn (rest : List Sym) : Prop :=
  rest.head? = some (.punct .comma) ∨ rest.head? = some (.punct .rparen)

theorem BehindColumn.notAhead {rest : List Sym} (h : BehindColumn rest) {s : Sym}
    (hs : s ∉ [.punct .comma, .punct .rparen]) : NotAhead s rest := by
  intro hhead
  rcases h with h | h <;>
  · rw [hhead] at h
    cases h
    exact hs (by simp)

/-- A round of the attributes, if there is one to read. -/
theorem goes_flag {x cd : ColumnDef} {us ks : List Sym} (set : Bool → ColumnDef)
    (hgoes : Goes Token.sym attrRound (fun _ => True) x us cd) (hset : set false = cd)
    (hks : ks ≠ []) (h : Accepts (attrRound cd) ks (.yield (set true)) fun _ => True) (b : Bool) :
    Goes Token.sym attrRound (fun _ => True) x (us ++ if b then ks else []) (set b) := by
  cases b with
  | false =>
    rw [if_neg Bool.false_ne_true, List.append_nil, hset]
    exact hgoes
  | true => exact hgoes.yield h hks fun _ _ _ => trivial

/-- The reference of a column, which may name a column of its own. -/
theorem accepts_references (cd : ColumnDef) (ref col : String) :
    Accepts (attrRound cd) (.ident "references" :: .ident ref ::
        if col = "" then [] else parens [.ident col])
      (.yield { cd with refTable := ref, refCol := if col = "" then cd.refCol else col })
      BehindColumn := by
  have hskip : ∀ kw : String, kw ≠ "references" → ∀ rest : List Sym,
      NotAhead (.ident kw) (.ident "references" :: rest) :=
    fun kw hkw rest h => hkw (by cases h; rfl)
  refine accepts_skip (fun _ _ _ => hskip _ (by decide) _) ?_
  refine accepts_skip (fun _ _ _ => hskip _ (by decide) _) ?_
  refine accepts_skip (fun _ _ _ => hskip _ (by decide) _) ?_
  refine accepts_skip (fun _ _ _ => hskip _ (by decide) _) ?_
  refine accepts_take (accepts_ident ?_)
  by_cases hcol : col = ""
  · rw [if_pos hcol, if_pos hcol]
    exact accepts_skip (fun _ _ hF => hF.notAhead (by decide)) reads_pure
  · rw [if_neg hcol, if_neg hcol]
    exact accepts_take (accepts_ident
      (accepts_expect reads_pure))

theorem accepts_noAttr (cd : ColumnDef) : Accepts (attrRound cd) [] (.done cd) BehindColumn := by
  refine accepts_skip (fun _ _ hF => hF.notAhead (by decide)) ?_
  refine accepts_skip (fun _ _ hF => hF.notAhead (by decide)) ?_
  refine accepts_skip (fun _ _ hF => hF.notAhead (by decide)) ?_
  refine accepts_skip (fun _ _ hF => hF.notAhead (by decide)) ?_
  exact accepts_skip (fun _ _ hF => hF.notAhead (by decide)) reads_pure

/-- **The attributes of a column**, from a column that has none. -/
theorem accepts_attrs {cd : ColumnDef} (h : ColumnOk cd) :
    Accepts (forever attrRound { name := cd.name, type := cd.type }) (attrs cd).flatten cd
      BehindColumn := by
  obtain ⟨name, type, primary, notNull, autoInc, unique, refTable, refCol⟩ := cd
  have hskip : ∀ {kw kw' : String}, kw' ≠ kw → ∀ rest : List Sym,
      NotAhead (.ident kw) (.ident kw' :: rest) := fun hkw rest h => hkw (by cases h; rfl)
  have h1 := goes_flag (fun b => { name, type, primary := b }) goes_nil rfl (by simp)
    (accepts_take (accepts_expect reads_pure)) primary
  have h2 := goes_flag (fun b => { name, type, primary, notNull := b }) h1 rfl (by simp)
    (accepts_skip (fun _ _ _ => hskip (by decide) _)
      (accepts_take (accepts_expect reads_pure))) notNull
  have h3 := goes_flag (fun b => { name, type, primary, notNull, autoInc := b }) h2 rfl (by simp)
    (accepts_skip (fun _ _ _ => hskip (by decide) _)
      (accepts_skip (fun _ _ _ => hskip (by decide) _) (accepts_take reads_pure))) autoInc
  have h4 := goes_flag (fun b => { name, type, primary, notNull, autoInc, unique := b }) h3 rfl
    (by simp)
    (accepts_skip (fun _ _ _ => hskip (by decide) _)
      (accepts_skip (fun _ _ _ => hskip (by decide) _)
        (accepts_skip (fun _ _ _ => hskip (by decide) _) (accepts_take reads_pure)))) unique
  simp only [attrs, List.flatten_cons, List.flatten_nil, List.append_nil]
  rcases h.refTable with ⟨rfl, rfl⟩ | href
  · have hloop := h4.done (accepts_noAttr _) fun _ _ _ => trivial
    simpa using hloop
  · have hne : refTable ≠ "" := href.ne_empty
    have h5 := h4.yield (accepts_references _ refTable refCol) (by simp) fun _ _ _ => trivial
    have hloop := h5.done (accepts_noAttr _) fun _ _ hF => hF
    have hcol : (if refCol = "" then "" else refCol) = refCol := by
      split
      case isTrue h => exact h.symm
      case isFalse h => rfl
    rw [if_neg hne]
    rw [hcol] at hloop
    simpa using hloop

theorem accepts_columnDef {cd : ColumnDef} (h : ShowsColumn cd ts) :
    Accepts parseColumnDef ts cd BehindColumn := by
  cases h with
  | mk h =>
    refine accepts_ident (accepts_ident ?_)
    have htype : columnType cd.type.written = cd.type := by
      have hvalid := h.type
      cases htype : cd.type with
      | unknown tn => rw [htype] at hvalid; cases hvalid
      | _ => rfl
    rw [htype, if_pos h.type]
    exact accepts_attrs h

/-- A statement that begins with another word. -/
theorem accepts_else {α : Type} {kw kw' : String} (hkw : kw ≠ kw') {us : List Sym} {a : α}
    {F : List Sym → Prop} {yes no : Parse α} (h : Accepts no (.ident kw :: us) a F) :
    Accepts (do if ← atKw kw' then yes else no) (.ident kw :: us) a F :=
  accepts_notAt (fun _ _ _ h => hkw (by cases h; rfl)) h

/-- One that begins with none of three words. -/
theorem accepts_elseThree {α : Type} {kw k1 k2 k3 : String} (hkw : kw ∉ [k1, k2, k3])
    {us : List Sym} {a : α} {F : List Sym → Prop} {y1 y2 y3 no : Parse α}
    (h : Accepts no (.ident kw :: us) a F) :
    Accepts (do if ← atKw k1 then y1 else if ← atKw k2 then y2 else if ← atKw k3 then y3 else no)
      (.ident kw :: us) a F := by
  simp only [List.mem_cons, List.not_mem_nil, not_or] at hkw
  exact accepts_else hkw.1 (accepts_else hkw.2.1 (accepts_else hkw.2.2.1 h))

theorem accepts_elseTake {α : Type} {kw kw' : String} (hkw : kw ≠ kw') {us : List Sym} {a : α}
    {F : List Sym → Prop} {yes no : Parse α} (h : Accepts no (.ident kw :: us) a F) :
    Accepts (do if ← takeKw kw' then yes else no) (.ident kw :: us) a F :=
  accepts_skip (fun _ _ _ h => hkw (by cases h; rfl)) h

theorem accepts_create {cols : List ColumnDef} (h : Listed ShowsColumn cols ts) :
    Accepts parseCreate (.ident "create" :: .ident "table" :: .ident t :: parens ts)
      (.createTable t cols) (From 6) := by
  have hcols := h.imp (fun h _ => accepts_columnDef h) (Nat.le_refl _)
  refine reads_next fun _ _ => accepts_expect ?_
  refine accepts_ident (accepts_expect ?_)
  exact (accepts_commaList (fun _ => .inl rfl) hcols).bind
    (accepts_expect reads_pure) fun _ _ _ => ⟨.inr rfl, by simp [NotAhead]⟩

theorem accepts_drop {b : Bool} {us : List Sym}
    (h : Accepts parseIfExists us b fun rest => rest.head? = some (.ident t)) :
    Accepts parseDrop (.ident "drop" :: .ident "table" :: (us ++ [.ident t])) (.dropTable t b)
      (From 6) := by
  refine reads_next fun _ _ => accepts_expect ?_
  refine h.bind (Reads.map ?_) fun _ _ _ => rfl
  exact (accepts_identOrErr _ _).mono fun _ _ => trivial

theorem accepts_insertCols {cols : List String} (h : ShowsCols cols ts) :
    Accepts parseInsertCols ts cols fun rest => rest.head? = some (.ident "values") := by
  cases h with
  | all =>
    refine accepts_skip (fun rest _ hF => ?_) reads_pure
    rw [List.nil_append, NotAhead, hF]
    decide
  | named h =>
    have hcols : Listed (fun a us => Accepts (identOrErr "column name") us a fun _ => True)
        cols _ := h.imp (fun h _ => by cases h; exact accepts_identOrErr _ _) (Nat.le_refl _)
    refine accepts_take ((accepts_commaList (fun _ => trivial) hcols).bind
      (accepts_expect reads_pure) fun _ _ _ => ⟨trivial, ?_⟩)
    simp [NotAhead]

theorem accepts_tuple (hr : r.Accept n) {row : List Expr} (h : ShowsTuple row ts)
    (hlen : ts.length ≤ n + 1) : Accepts (parseTuple r) ts row fun _ => True := by
  cases h with
  | empty => exact accepts_expect (accepts_take reads_pure)
  | @values _ ts h =>
    simp only [parens, List.length_cons, List.length_append, List.length_nil] at hlen
    have hitems := h.imp (fun h hlen => accepts_expr hr h hlen) (n := n + 1) (by omega)
    refine accepts_expect (accepts_skip (fun rest _ _ => ?_) ?_)
    · rw [List.append_assoc]
      exact h.notAhead (fun h => h.notAhead (not_opens_punct (by decide) (by decide))) _
    · exact (accepts_commaList (fun rest => follow_cons rfl rest) hitems).bind
        (accepts_expect reads_pure)
        fun rest _ _ => ⟨follow_cons rfl rest, by simp [NotAhead]⟩

theorem accepts_insert (hr : r.Accept n) {cols : List String}
    {rows : List (List Expr)} {cs rs : List Sym} (hcols : ShowsCols cols cs)
    (hrows : Listed ShowsTuple rows rs) (hlen : rs.length ≤ n + 1) :
    Accepts (parseInsert r)
      (.ident "insert" :: .ident "into" :: .ident t :: (cs ++ .ident "values" :: rs))
      (.insert ⟨t, cols, rows⟩) (From 6) := by
  have hitems := hrows.imp (fun h hlen => accepts_tuple hr h hlen) hlen
  refine reads_next fun _ _ => accepts_expect ?_
  refine accepts_ident ?_
  refine (accepts_insertCols hcols).bind (accepts_expect ?_) fun _ _ _ => rfl
  exact Reads.map ((accepts_commaList (fun _ => trivial) hitems).mono
    fun _ hF => ⟨trivial, hF.comma⟩)

/-- What may come behind an assignment. -/
def BehindSet (rest : List Sym) : Prop := rest.head? = some (.punct .comma) ∨ From 1 rest

theorem BehindSet.follow {rest : List Sym} (h : BehindSet rest) : Follow .or rest := by
  rcases h with h | h
  · intro s hs
    rw [h] at hs
    cases hs
    rfl
  · exact h.follow

theorem accepts_assignment (hr : r.Accept n) {a : Assignment}
    (h : ShowsAssignment a ts) (hlen : ts.length ≤ n + 1) :
    Accepts (parseAssignment r) ts a BehindSet := by
  cases h with
  | mk hcol h =>
    simp only [List.length_cons] at hlen
    refine accepts_ident (accepts_expect ?_)
    exact Reads.map ((accepts_expr hr h (by omega)).mono fun _ hF => hF.follow)

theorem accepts_where (hr : r.Accept n)
    (h : Clause [.ident "where"] (Shows .or) where_ ts) (hlen : ts.length ≤ n + 1) :
    Accepts (clause "where" (parseExpr r)) ts where_ (From 2) :=
  accepts_clause rfl (fun h hlen => (accepts_expr hr h hlen).mono fun _ hF => hF.follow) h hlen

theorem accepts_update (hr : r.Accept n) {sets : List Assignment}
    {ss ws : List Sym} (hsets : Listed ShowsAssignment sets ss)
    (hwhere : Clause [.ident "where"] (Shows .or) where_ ws) (hss : ss.length ≤ n + 1)
    (hws : ws.length ≤ n + 1) :
    Accepts (parseUpdate r) (.ident "update" :: .ident t :: .ident "set" :: (ss ++ ws))
      (.update ⟨t, sets, where_⟩) (From 6) := by
  have hitems := hsets.imp (fun h hlen => accepts_assignment hr h hlen) hss
  refine reads_next fun _ _ => accepts_ident ?_
  refine accepts_expect ?_
  refine (accepts_commaList (fun _ => .inl rfl) hitems).bind (Reads.map ?_) fun rest _ hF => ?_
  · exact (accepts_where hr hwhere hws).mono fun _ hF => hF.mono (by decide)
  · have hfrom : From 1 (ws ++ rest) := clause_from rfl hwhere (hF.mono (by decide))
    exact ⟨.inr hfrom, hfrom.comma⟩

theorem accepts_delete (hr : r.Accept n) {ws : List Sym}
    (hwhere : Clause [.ident "where"] (Shows .or) where_ ws) (hws : ws.length ≤ n + 1) :
    Accepts (parseDelete r) (.ident "delete" :: .ident "from" :: .ident t :: ws)
      (.delete ⟨t, where_⟩) (From 6) := by
  refine reads_next fun _ _ => accepts_expect ?_
  refine accepts_ident (Reads.map ?_)
  exact (accepts_where hr hwhere hws).mono fun _ hF => hF.mono (by decide)

/-- **Every statement is read back.** -/
theorem accepts_statement (hr : r.Accept n) {st : Statement}
    (h : ShowsStatement st ts) (hlen : ts.length ≤ n + 1) :
    Accepts (parseStatement r) ts st (From 6) := by
  unfold parseStatement
  cases h with
  | create ht h => exact accepts_at (fun _ _ _ => rfl) (accepts_create h)
  | drop ht =>
    refine accepts_else (by decide) (accepts_at (fun _ _ _ => rfl) ?_)
    have hno : Accepts parseIfExists [] false (NotAhead (.ident "if")) :=
      accepts_skip (fun _ _ hF => hF) reads_pure
    refine accepts_drop (hno.mono fun rest hF hhead => ?_)
    rw [hF, Option.some.injEq, Sym.ident.injEq] at hhead
    exact ht.ne (by decide) hhead
  | dropIf ht =>
    refine accepts_else (by decide) (accepts_at (fun _ _ _ => rfl) ?_)
    exact accepts_drop (accepts_take (accepts_expect reads_pure))
  | insert ht hcols hrows =>
    simp only [List.length_cons, List.length_append] at hlen
    refine accepts_else (by decide) (accepts_else (by decide) ?_)
    exact accepts_at (fun _ _ _ => rfl) (accepts_insert hr hcols hrows (by omega))
  | select h =>
    have hskip : ∀ {kw : String}, kw ≠ "select" → ∀ rest : List Sym,
        NotAhead (.ident kw) (ts ++ rest) := by
      intro kw hkw rest hhead
      rw [h.head] at hhead
      cases hhead
      exact hkw rfl
    refine accepts_notAt (fun rest _ _ => hskip (by decide) rest) ?_
    refine accepts_notAt (fun rest _ _ => hskip (by decide) rest) ?_
    refine accepts_notAt (fun rest _ _ => hskip (by decide) rest) ?_
    exact accepts_at (fun rest _ _ => h.head rest) (Reads.map (accepts_select hr h hlen))
  | update ht hsets hwhere =>
    simp only [List.length_cons, List.length_append] at hlen
    refine accepts_elseThree (by decide) ?_
    refine accepts_else (by decide) (accepts_at (fun _ _ _ => rfl) ?_)
    exact accepts_update hr hsets hwhere (by omega) (by omega)
  | delete ht hwhere =>
    simp only [List.length_cons] at hlen
    refine accepts_elseThree (by decide) ?_
    refine accepts_else (by decide) (accepts_else (by decide) (accepts_at (fun _ _ _ => rfl) ?_))
    exact accepts_delete hr hwhere (by omega)
  | begin =>
    refine accepts_elseThree (by decide) (accepts_elseThree (by decide) ?_)
    exact accepts_take reads_pure
  | start =>
    refine accepts_elseThree (by decide) (accepts_elseThree (by decide) ?_)
    refine accepts_elseTake (by decide) (accepts_take ?_)
    exact accepts_expect reads_pure
  | commit =>
    refine accepts_elseThree (by decide) (accepts_elseThree (by decide) ?_)
    refine accepts_elseTake (by decide) (accepts_elseTake (by decide) ?_)
    exact accepts_take reads_pure
  | rollback =>
    refine accepts_elseThree (by decide) (accepts_elseThree (by decide) ?_)
    refine accepts_elseTake (by decide) (accepts_elseTake (by decide) ?_)
    exact accepts_elseTake (by decide) (accepts_take reads_pure)

end Statements

/-! ## The whole text -/

/-- **Every text in which the tokens of a statement are written parses to the
statement.** -/
theorem parse_written {st : Statement} (h : ShowsStatement st ts) {text : Bytes}
    (htext : Written ts text) : parse text = .ok st := by
  obtain ⟨toks, hlex, hsyms⟩ := lex_written htext
  have hlen : ts.length ≤ toks.length := by
    have := congrArg List.length hsyms
    simp only [List.length_map, List.length_append] at this
    omega
  have hahead : Ahead Token.sym toks 0 (ts ++ [.eof]) := hsyms
  have hst := accepts_statement (accepts_grammar toks.length) h (Nat.le_succ_of_le hlen) toks 0
    [.eof] hahead (by simp) (from_cons rfl (Nat.le_refl 6) [])
  obtain ⟨t, ht, heof⟩ := hahead.behind.head
  have hsemi : takeSym (.punct .semi) toks (0 + ts.length) = (.ok false, 0 + ts.length) :=
    accepts_takeSym_not (.punct .semi) toks (0 + ts.length) [.eof] hahead.behind (by simp)
      (by simp [NotAhead])
  rw [parse, hlex]
  show (parseWhole (grammar toks.length) toks 0).1 = _
  rw [parseWhole, bind_ok hst, takePunct, bind_ok hsemi, bind_ok (peek_eq ht), if_pos heof]
  rfl

/-- **Parse undoes printing.** The text of `print` parses to the statement, and
so does every text in which its tokens are written with redundant parentheses
dropped. -/
theorem parse_print (digitsOf : F64 → Bytes) (st : Statement) (h : Printable digitsOf st) :
    parse (render (print digitsOf st)) = .ok st ∧
      ∀ (ts : List Sym) (text : Bytes), ShowsStatement st ts → Written ts text →
        parse text = .ok st := by
  obtain ⟨hshows, hlex⟩ := prints_statement h
  exact ⟨parse_written hshows (written_render hlex), fun ts text hts => parse_written hts⟩

/-- `DELETE FROM t WHERE (NOT (a = (b - (1 * c)))) OR (d IS NULL)`, which needs
none of its parentheses. -/
theorem parse_print_delete :
    let col : String → Expr := .colRef ""
    let st : Statement := .delete ⟨"t", some (.or
      (.not (.cmp .eq (col "a") (.binary .sub (col "b") (.binary .mul (.lit (.int 1)) (col "c")))))
      (.isNull (col "d") false))⟩
    let ts : List Sym := [.ident "delete", .ident "from", .ident "t", .ident "where", .ident "not",
      .ident "a", .punct .eq, .ident "b", .punct .minus, .num [49], .punct .star, .ident "c",
      .ident "or", .ident "d", .ident "is", .ident "null"]
    parse (render (print (fun _ => []) st)) = .ok st ∧ parse (render ts) = .ok st := by
  intro col st ts
  have hname : ∀ w ∈ ["t", "a", "b", "c", "d"], Name w := by
    have h : ∀ w ∈ ["t", "a", "b", "c", "d"], isName w = true ∧ w ∉ keywords := by decide +kernel
    exact fun w hw => ⟨(h w hw).1, (h w hw).2⟩
  have hst : Printable (fun _ => []) st := by
    simp [st, col, Printable, OptionOk, ExprOk, LitOk, hname]
  have hcol : ∀ w ∈ ["t", "a", "b", "c", "d"], ∀ l, Shows l (col w) [.ident w] :=
    fun w hw => (Shows.column (hname w hw)).of_primary
  have hone : Shows .primary (.lit (.int 1)) [.num [49]] :=
    .lit (.int (by decide) (by decide +kernel))
  have hmul : Shows .mul (.binary .mul (.lit (.int 1)) (col "c")) _ :=
    .mul rfl (hone.of_primary .mul) (hcol "c" (by decide) .unary)
  have hsub : Shows .add (.binary .sub (col "b") _) _ := .add rfl (hcol "b" (by decide) .add) hmul
  have hcmp : Shows .cmp (.cmp .eq (col "a") _) _ := .cmp (hcol "a" (by decide) .add) hsub
  have hnull : Shows .cmp (.isNull (col "d") false) _ := .isNull (hcol "d" (by decide) .add)
  have hor := Shows.or (Shows.not (.lift rfl hcmp)).to_or (.lift rfl (.lift rfl hnull))
  have hshows := ShowsStatement.delete (hname "t" (by decide)) (.some hor)
  -- the tokens are some of those of `print`
  have hmem : ∀ s ∈ ts, s ∈ print (fun _ => []) st := by decide +kernel
  have hlex : Lexables ts := fun s hs => (prints_statement hst).2 s (hmem s hs)
  have hparse := parse_print (fun _ => []) st hst
  exact ⟨hparse.1, hparse.2 _ _ hshows (written_render hlex)⟩

end Tsql.Parser
