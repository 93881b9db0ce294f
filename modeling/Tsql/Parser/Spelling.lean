import Tsql.Parser.Lexer

/-!
# Writing tokens

The bytes a token is written with (`Spells`), and texts in which tokens are
written one after the other, with blanks between them where they would run
together otherwise (`Written`). `lex` reads such a text back (`lex_written`).
`render` writes every token in lowercase, with one space between two of them.
-/

namespace Tsql.Parser

open Decimal (isDigit)

/-! ## Bytes of a token -/

/-- Each quote of a string literal is written twice. -/
def doubled (s : Bytes) : Bytes := s.flatMap fun c => if c = apostrophe then [c, c] else [c]

/-- The text of a numeral: digits, and a dot behind the first of them at most. -/
inductive Numeral : Bytes → Prop
  | whole {c : UInt8} {ds : Bytes} (hc : isDigit c = true) (hds : ∀ d ∈ ds, isDigit d = true) :
      Numeral (c :: ds)
  | decimal {c : UInt8} {ds fs : Bytes} (hc : isDigit c = true) (hds : ∀ d ∈ ds, isDigit d = true)
      (hfs : ∀ d ∈ fs, isDigit d = true) : Numeral (c :: (ds ++ dotByte :: fs))

/-- **The bytes a token is written with.** The letters of an identifier may be
of either case. -/
inductive Spells : Sym → Bytes → Prop
  | ident {c : UInt8} {more : Bytes} (hc : isIdentStart c = true)
      (hmore : ∀ d ∈ more, isIdentChar d = true) : Spells (.ident (lowered (c :: more))) (c :: more)
  | num {text : Bytes} (h : Numeral text) : Spells (.num text) text
  | str (s : Bytes) : Spells (.str s) (apostrophe :: (doubled s ++ [apostrophe]))
  | punct (p : Punct) : Spells (.punct p) (Bytes.ofString p.text)

/-- May this byte come directly behind the token? -/
def apart : Sym → UInt8 → Bool
  | .eof, _ => true
  | .ident _, d => !isIdentChar d
  | .num _, d => !isDigit d && d != dotByte
  | .str _, d => d != apostrophe
  | .punct _, d => d != '='.toUInt8 && d != '>'.toUInt8

/-- May this text come directly behind the token? -/
def Apart (s : Sym) (rest : Bytes) : Prop := ∀ d ∈ rest.head?, apart s d = true

/-- **A text in which the tokens are written**, with any blanks before each. -/
inductive Written : List Sym → Bytes → Prop
  | nil : Written [] []
  | blank {ts : List Sym} {text : Bytes} {c : UInt8} (hc : isBlank c = true)
      (h : Written ts text) : Written ts (c :: text)
  | token {s : Sym} {ts : List Sym} {w rest : Bytes} (hw : Spells s w) (hrest : Apart s rest)
      (h : Written ts rest) : Written (s :: ts) (w ++ rest)

/-! ## Characters -/

/-- A fact about every byte is a fact about 256 of them. -/
theorem forall_byte {P : UInt8 → Prop} (h : ∀ n : Fin 256, P (UInt8.ofFin n)) (c : UInt8) : P c :=
  h c.toFin

theorem isIdentStart_spec : ∀ c : UInt8, isIdentStart c = true →
    isBlank c = false ∧ c ≠ apostrophe ∧ isDigit c = false :=
  forall_byte (by decide +kernel)

theorem isDigit_spec : ∀ c : UInt8, isDigit c = true → isBlank c = false ∧ c ≠ apostrophe :=
  forall_byte (by decide +kernel)

theorem isBlank_apart : ∀ c : UInt8, isBlank c = true → ∀ s : Sym, apart s c = true := by
  have h : ∀ c : UInt8, isBlank c = true → isIdentChar c = false ∧ isDigit c = false ∧
      c ≠ dotByte ∧ c ≠ apostrophe ∧ c ≠ '='.toUInt8 ∧ c ≠ '>'.toUInt8 :=
    forall_byte (by decide +kernel)
  intro c hc s
  obtain ⟨hident, hdigit, hdot, hquote, heq, hgt⟩ := h c hc
  cases s <;> simp [apart, hident, hdigit, hdot, hquote, heq, hgt]

/-! ## Reading a token back -/

/-- Runs of bytes of one kind end where another kind begins. -/
theorem takeWhile_append {f : UInt8 → Bool} {w rest : Bytes} (hw : ∀ d ∈ w, f d = true)
    (hrest : ∀ d ∈ rest.head?, f d = false) : (w ++ rest).takeWhile f = w := by
  rw [List.takeWhile_append_of_pos hw]
  cases rest with
  | nil => simp
  | cons d rest => simp [hrest d rfl]

theorem dropWhile_append {f : UInt8 → Bool} {w rest : Bytes} (hw : ∀ d ∈ w, f d = true)
    (hrest : ∀ d ∈ rest.head?, f d = false) : (w ++ rest).dropWhile f = rest := by
  rw [List.dropWhile_append_of_pos hw]
  cases rest with
  | nil => simp
  | cons d rest => simp [hrest d rfl]

theorem readString_doubled (s : Bytes) {rest : Bytes} (hrest : Apart (.str s) rest) :
    readString (doubled s ++ apostrophe :: rest) = some (s, (doubled s).length + 1) := by
  induction s with
  | nil =>
    cases rest with
    | nil => rfl
    | cons d rest =>
      have hd : d ≠ apostrophe := by simpa [apart] using hrest d rfl
      simp [doubled, readString, hd]
  | cons c s ih =>
    have hdoubled : doubled (c :: s) = (if c = apostrophe then [c, c] else [c]) ++ doubled s := rfl
    have ih := ih hrest
    rw [hdoubled]
    split
    case isTrue hc =>
      subst hc
      simp [readString, ih]
    case isFalse hc =>
      -- the recursion needs a second byte, and the closing quote is one
      cases hs : doubled s ++ apostrophe :: rest with
      | nil => simp at hs
      | cons e more =>
        rw [hs] at ih
        simp [readString, hc, hs, ih]

theorem readNumber_append {c : UInt8} {more rest : Bytes} (h : Numeral (c :: more))
    (hrest : Apart (.num (c :: more)) rest) : readNumber (more ++ rest) = more := by
  have hdigit : ∀ d ∈ rest.head?, isDigit d = false := fun d hd => by
    have := hrest d hd
    simp only [apart, Bool.and_eq_true, Bool.not_eq_true'] at this
    exact this.1
  cases h with
  | whole hc hds =>
    rw [readNumber, takeWhile_append hds hdigit, dropWhile_append hds hdigit]
    cases rest with
    | nil => rfl
    | cons d rest =>
      have hdot : d ≠ dotByte := by
        have := hrest d rfl
        simp only [apart, Bool.and_eq_true, bne_iff_ne] at this
        exact this.2
      simp [hdot]
  | @decimal _ ds fs hc hds hfs =>
    have hdot : ∀ d ∈ (dotByte :: (fs ++ rest)).head?, isDigit d = false := by
      rintro d ⟨⟩
      decide
    rw [List.append_assoc, List.cons_append, readNumber, takeWhile_append hds hdot,
      dropWhile_append hds hdot]
    show (if dotByte = dotByte then _ else _) = _
    rw [if_pos rfl, takeWhile_append hfs hdigit]

theorem lexeme_punct (p : Punct) {rest : Bytes} (hrest : Apart (.punct p) rest) :
    ∃ c more, Bytes.ofString p.text = c :: more ∧
      lexeme c (more ++ rest) = .ok (some (.punct p), more.length) := by
  have hpair : ∀ c, (rest.head?.bind fun d => punctPairs.lookup (c, d)) = none := by
    intro c
    cases rest with
    | nil => rfl
    | cons d rest =>
      have hd := hrest d rfl
      simp only [apart, Bool.and_eq_true, bne_iff_ne] at hd
      have hne : ∀ x y : UInt8, d ≠ y → ((c, d) == (x, y)) = false := fun x y h => by
        simp [h]
      show punctPairs.lookup (c, d) = none
      simp only [punctPairs, List.lookup_cons, List.lookup_nil, hne _ _ hd.1, hne _ _ hd.2]
  cases p with
  | le => exact ⟨_, _, rfl, rfl⟩
  | ge => exact ⟨_, _, rfl, rfl⟩
  | ne => exact ⟨_, _, rfl, rfl⟩
  | _ =>
    refine ⟨_, [], rfl, ?_⟩
    simp only [List.nil_append]
    unfold lexeme
    rw [hpair]
    rfl

/-- **A token is read back** from its bytes, in front of any text that may
come behind it. -/
theorem lexeme_spells {s : Sym} {w rest : Bytes} (hw : Spells s w) (hrest : Apart s rest) :
    ∃ c more, w = c :: more ∧ lexeme c (more ++ rest) = .ok (some s, more.length) := by
  cases hw with
  | @ident c more hc hmore =>
    obtain ⟨hblank, hquote, hdigit⟩ := isIdentStart_spec c hc
    have hend : ∀ d ∈ rest.head?, isIdentChar d = false := fun d hd => by
      simpa [apart] using hrest d hd
    refine ⟨c, more, rfl, ?_⟩
    simp [lexeme, hblank, hquote, hdigit, hc, takeWhile_append hmore hend]
  | num h =>
    cases w with
    | nil => cases h
    | cons c more =>
      have hc : isDigit c = true := by
        cases h with
        | whole hc hds => exact hc
        | decimal hc hds hfs => exact hc
      obtain ⟨hblank, hquote⟩ := isDigit_spec c hc
      refine ⟨c, more, rfl, ?_⟩
      simp [lexeme, hblank, hquote, hc, readNumber_append h hrest]
  | str s =>
    refine ⟨apostrophe, doubled s ++ [apostrophe], rfl, ?_⟩
    have hblank : isBlank apostrophe = false := by decide
    rw [List.append_assoc, List.singleton_append]
    simp [lexeme, hblank, readString_doubled s hrest]
  | punct p => exact lexeme_punct p hrest

theorem scan_skip (w rest : Bytes) (pos : Nat) :
    scan w.length pos (w ++ rest) = scan 0 (pos + w.length) rest := by
  induction w generalizing pos with
  | nil => rfl
  | cons c w ih =>
    rw [List.length_cons, List.cons_append, scan, ih]
    congr 1
    omega

theorem scan_written {ts : List Sym} {text : Bytes} (h : Written ts text) (pos : Nat) :
    ∃ toks, scan 0 pos text = .ok toks ∧ toks.map Token.sym = ts ++ [.eof] := by
  induction h generalizing pos with
  | nil => exact ⟨[⟨.eof, pos⟩], rfl, rfl⟩
  | @blank ts text c hc h ih =>
    obtain ⟨toks, htoks, hsyms⟩ := ih (pos + 1)
    refine ⟨toks, ?_, hsyms⟩
    have hlexeme : lexeme c text = .ok (none, 0) := by rw [lexeme, if_pos hc]
    simp only [scan, hlexeme, htoks]
  | @token s ts w rest hw hrest h ih =>
    obtain ⟨c, more, rfl, hlexeme⟩ := lexeme_spells hw hrest
    obtain ⟨toks, htoks, hsyms⟩ := ih (pos + 1 + more.length)
    refine ⟨⟨s, pos⟩ :: toks, ?_, by rw [List.map_cons, hsyms, List.cons_append]⟩
    rw [List.cons_append]
    simp only [scan, hlexeme, scan_skip, htoks]
    rfl

/-- **Written tokens are read back.** -/
theorem lex_written {ts : List Sym} {text : Bytes} (h : Written ts text) :
    ∃ toks, lex text = .ok toks ∧ toks.map Token.sym = ts ++ [.eof] :=
  scan_written h 0

/-! ## One space between two tokens -/

def isNameStart (c : Char) : Bool := c == '_' || ('a' ≤ c && c ≤ 'z')

def isNameChar (c : Char) : Bool := isNameStart c || ('0' ≤ c && c ≤ '9')

/-- An identifier in lowercase. -/
def isName (w : String) : Bool :=
  match w.toList with
  | [] => false
  | c :: cs => isNameStart c && cs.all isNameChar

/-- Can this token be written? -/
def Lexable : Sym → Prop
  | .eof => False
  | .ident w => isName w = true
  | .num text => Numeral text
  | .str _ => True
  | .punct _ => True

/-- A token in lowercase. -/
def spell : Sym → Bytes
  | .eof => []
  | .ident w => Bytes.ofString w
  | .num text => text
  | .str s => apostrophe :: (doubled s ++ [apostrophe])
  | .punct p => Bytes.ofString p.text

def space : UInt8 := ' '.toUInt8

/-- The tokens, with a space between two of them. -/
def render : List Sym → Bytes
  | [] => []
  | [s] => spell s
  | s :: ts => spell s ++ space :: render ts

/-- What writing and lowering does to a character of a name. -/
structure NameByte (c : Char) : Prop where
  encoded : String.utf8EncodeChar c = [c.toUInt8]
  lower : (Char.ofNat c.toUInt8.toNat).toLower = c
  char : isIdentChar c.toUInt8 = true
  start : isNameStart c = true → isIdentStart c.toUInt8 = true

theorem nameByte {c : Char} (h : isNameChar c = true) : NameByte c := by
  have hascii : ∀ n : Fin 128, isNameChar (Char.ofNat n) = true →
      String.utf8EncodeChar (Char.ofNat n) = [(Char.ofNat n).toUInt8] ∧
        (Char.ofNat (Char.ofNat n).toUInt8.toNat).toLower = Char.ofNat n ∧
        isIdentChar (Char.ofNat n).toUInt8 = true ∧
        (isNameStart (Char.ofNat n) = true → isIdentStart (Char.ofNat n).toUInt8 = true) := by
    decide +kernel
  have hlt : c.toNat < 128 := by
    simp only [isNameChar, isNameStart, Bool.or_eq_true, beq_iff_eq, Bool.and_eq_true,
      decide_eq_true_eq] at h
    have hle : c.toNat ≤ 122 := by
      rcases h with (rfl | h) | h
      · decide
      · exact h.2
      · exact Nat.le_trans (show c.toNat ≤ 57 from h.2) (by decide)
    omega
  have hc := hascii ⟨c.toNat, hlt⟩
  simp only [Char.ofNat_toNat] at hc
  obtain ⟨hencoded, hlower, hchar, hstart⟩ := hc h
  exact ⟨hencoded, hlower, hchar, hstart⟩

theorem ofString_name {cs : List Char} (h : ∀ c ∈ cs, isNameChar c = true) :
    cs.flatMap String.utf8EncodeChar = cs.map Char.toUInt8 := by
  induction cs with
  | nil => rfl
  | cons c cs ih =>
    obtain ⟨hc, hcs⟩ := List.forall_mem_cons.mp h
    rw [List.flatMap_cons, (nameByte hc).encoded, ih hcs]
    rfl

theorem lowered_name {w : String} (h : ∀ c ∈ w.toList, isNameChar c = true) :
    lowered (w.toList.map Char.toUInt8) = w := by
  rw [lowered, List.map_map]
  have hid : w.toList.map ((fun c : UInt8 => (Char.ofNat c.toNat).toLower) ∘ Char.toUInt8) =
      w.toList := by
    conv_rhs => rw [← List.map_id w.toList]
    exact List.map_congr_left fun c hc => (nameByte (h c hc)).lower
  rw [hid, String.ofList_toList]

/-- A name is written with its own characters. -/
theorem spells_name {w : String} (h : isName w = true) :
    Spells (.ident w) (Bytes.ofString w) := by
  unfold isName at h
  cases hw : w.toList with
  | nil => simp [hw] at h
  | cons c cs =>
    simp only [hw, Bool.and_eq_true, List.all_eq_true] at h
    have hchars : ∀ d ∈ w.toList, isNameChar d = true := by
      rw [hw]
      exact List.forall_mem_cons.mpr ⟨by simp [isNameChar, h.1], h.2⟩
    have hbytes : Bytes.ofString w = w.toList.map Char.toUInt8 := ofString_name hchars
    have hlow := lowered_name hchars
    rw [hbytes]
    rw [hw, List.map_cons] at hlow ⊢
    have hmore : ∀ d ∈ cs.map Char.toUInt8, isIdentChar d = true := by
      intro d hd
      obtain ⟨x, hx, rfl⟩ := List.mem_map.mp hd
      exact (nameByte (h.2 x hx)).char
    have hspells := Spells.ident ((nameByte (hchars c (by simp [hw]))).start h.1) hmore
    rwa [hlow] at hspells

theorem spells_spell {s : Sym} (h : Lexable s) : Spells s (spell s) := by
  cases s with
  | eof => exact absurd h id
  | ident w => exact spells_name h
  | num text => exact .num h
  | str s => exact .str s
  | punct p => exact .punct p

theorem written_render {ts : List Sym} (h : ∀ s ∈ ts, Lexable s) : Written ts (render ts) := by
  induction ts with
  | nil => exact .nil
  | cons s ts ih =>
    obtain ⟨hs, hts⟩ := List.forall_mem_cons.mp h
    cases ts with
    | nil =>
      have hw := Written.token (spells_spell hs) (fun d hd => by cases hd) .nil
      rwa [List.append_nil] at hw
    | cons t ts =>
      refine .token (spells_spell hs) (fun d hd => ?_) (.blank (by decide) (ih hts))
      cases hd
      exact isBlank_apart space (by decide) s

end Tsql.Parser
