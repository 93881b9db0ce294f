import Tsql.Lib.Cursor

/-!
# What a computation over a cursor reads

The other half of a parser's logic: given the symbols ahead, which of them a
computation reads and what it returns. `Reads sym p us a F` says that where
the symbols `us` are ahead, and behind them something that satisfies `F`, the
computation `p` returns `a` and stands behind `us`. What comes behind matters,
since a parser that reads as far as it can reads on if it may; something
always comes behind, since the tokens end in one of their own.

`Goes` is the same for the first rounds of a loop: they lead from one state of
the loop to another and read `us`. Rounds are added at the end, which is the
order in which operators that associate to the left are nested.
-/

namespace Cursor

variable {τ σ ε α β s : Type} {sym : τ → σ}

/-- The symbols from the index on. -/
def Ahead (sym : τ → σ) (toks : List τ) (i : Nat) (us : List σ) : Prop :=
  (toks.drop i).map sym = us

theorem Ahead.behind {toks : List τ} {i : Nat} {us rest : List σ}
    (h : Ahead sym toks i (us ++ rest)) : Ahead sym toks (i + us.length) rest := by
  unfold Ahead at h ⊢
  rw [← List.drop_drop, List.map_drop, h, List.drop_left]

theorem Ahead.head {toks : List τ} {i : Nat} {u : σ} {rest : List σ}
    (h : Ahead sym toks i (u :: rest)) : ∃ t, toks[i]? = some t ∧ sym t = u := by
  unfold Ahead at h
  cases hdrop : toks.drop i with
  | nil => simp [hdrop] at h
  | cons t more =>
    rw [hdrop, List.map_cons, List.cons.injEq] at h
    refine ⟨t, ?_, h.1⟩
    rw [← Nat.add_zero i, ← List.getElem?_drop, hdrop, List.getElem?_cons_zero]

theorem Ahead.length {toks : List τ} {i : Nat} {us : List σ} (h : Ahead sym toks i us) :
    us.length = toks.length - i := by
  unfold Ahead at h
  rw [← h, List.length_map, List.length_drop]

/-- **`p` reads `us` and returns `a`**, if what comes behind satisfies `F`. -/
def Reads (sym : τ → σ) (p : Cursor τ ε α) (us : List σ) (a : α) (F : List σ → Prop) : Prop :=
  ∀ toks i rest, Ahead sym toks i (us ++ rest) → rest ≠ [] → F rest →
    p toks i = (.ok a, i + us.length)

section Rules

variable {us vs : List σ} {u : σ} {a : α} {b : β} {F G : List σ → Prop} {p : Cursor τ ε α}
  {f : α → Cursor τ ε β}

theorem Reads.mono (h : Reads sym p us a F) (hF : ∀ rest, G rest → F rest) :
    Reads sym p us a G :=
  fun toks i rest hi hrest hG => h toks i rest hi hrest (hF rest hG)

theorem reads_pure : Reads sym (pure a : Cursor τ ε α) [] a F := fun _ _ _ _ _ _ => rfl

/-- **One after the other**, if the second part may come behind the first. -/
theorem Reads.bind (hp : Reads sym p us a F)
    (hf : Reads sym (f a) vs b G) (hF : ∀ rest, rest ≠ [] → G rest → F (vs ++ rest)) :
    Reads sym (p >>= f) (us ++ vs) b G := by
  intro toks i rest hi hrest hG
  rw [List.append_assoc] at hi
  have hp' := hp toks i (vs ++ rest) hi (by simp [hrest]) (hF rest hrest hG)
  rw [bind_ok hp', hf toks _ rest hi.behind hrest hG, List.length_append, Nat.add_assoc]

/-- The second part reads nothing. -/
theorem Reads.last (hp : Reads sym p us a F)
    (hf : Reads sym (f a) [] b G) (hF : ∀ rest, rest ≠ [] → G rest → F rest) :
    Reads sym (p >>= f) us b G := by
  have h := hp.bind hf hF
  rwa [List.append_nil] at h

theorem Reads.map {f : α → β} (h : Reads sym p us a F) :
    Reads sym (p >>= fun a => pure (f a)) us (f a) F :=
  h.last reads_pure fun _ _ hF => hF

/-- One symbol, whatever comes behind. -/
abbrev ReadsOne (sym : τ → σ) (p : Cursor τ ε α) (u : σ) (a : α) : Prop :=
  Reads sym p [u] a fun _ => True

theorem ReadsOne.bind (hp : ReadsOne sym p u a) (hf : Reads sym (f a) vs b G) :
    Reads sym (p >>= f) (u :: vs) b G :=
  Reads.bind hp hf fun _ _ _ => trivial

/-- Nothing, because of what is ahead. -/
theorem Reads.pass (hp : Reads sym p [] a F)
    (hF : ∀ rest, rest ≠ [] → G rest → F (vs ++ rest)) (hf : Reads sym (f a) vs b G) :
    Reads sym (p >>= f) vs b G :=
  Reads.bind hp hf hF

/-- The way on from an answer that has read a symbol. -/
theorem ReadsOne.yes {p : Cursor τ ε Bool} {yes no : Cursor τ ε α}
    (hp : ReadsOne sym p u true) (hyes : Reads sym yes us a F) :
    Reads sym (do if ← p then yes else no) (u :: us) a F :=
  hp.bind (f := fun b => if b then yes else no) hyes

/-- The way on from an answer that has read nothing. -/
theorem Reads.ite {p : Cursor τ ε Bool} {yes no : Cursor τ ε α} {b : Bool}
    (hp : Reads sym p [] b G) (hG : ∀ rest, rest ≠ [] → F rest → G (us ++ rest))
    (h : Reads sym (if b then yes else no) us a F) :
    Reads sym (do if ← p then yes else no) us a F :=
  hp.pass (f := fun b => if b then yes else no) hG h

/-- The current token is the one the symbol ahead says. -/
theorem reads_peek {f : τ → Cursor τ ε α} (hf : ∀ t, sym t = u → Reads sym (f t) (u :: us) a F) :
    Reads sym (peek >>= f) (u :: us) a F := by
  intro toks i rest hi hrest hF
  obtain ⟨t, ht, hu⟩ := Ahead.head hi
  rw [bind_ok (peek_eq ht)]
  exact hf t hu toks i rest hi hrest hF

theorem reads_peek_nil {f : τ → Cursor τ ε α}
    (hf : ∀ t, (∃ rest, F (sym t :: rest)) → Reads sym (f t) [] a F) :
    Reads sym (peek >>= f) [] a F := by
  intro toks i rest hi hrest hF
  cases rest with
  | nil => exact absurd rfl hrest
  | cons u rest =>
    obtain ⟨t, ht, rfl⟩ := Ahead.head hi
    rw [bind_ok (peek_eq ht)]
    exact hf t ⟨rest, hF⟩ toks i _ hi hrest hF

/-- The cursor moves on, since something comes behind. -/
theorem reads_next {f : τ → Cursor τ ε α} (hf : ∀ t, sym t = u → Reads sym (f t) us a F) :
    Reads sym (next >>= f) (u :: us) a F := by
  intro toks i rest hi hrest hF
  obtain ⟨t, ht, hu⟩ := Ahead.head hi
  have hmore : i < toks.length - 1 := by
    have hlen := hi.length
    have hpos : 0 < rest.length := List.length_pos_iff.mpr hrest
    simp only [List.length_append, List.length_cons] at hlen
    omega
  have hi' : Ahead sym toks i ([u] ++ (us ++ rest)) := hi
  rw [bind_ok (next_eq ht), if_pos hmore, hf t hu toks (i + 1) rest hi'.behind hrest hF,
    List.length_cons]
  simp only [Prod.mk.injEq, true_and]
  omega

theorem reads_take {f : τ → Option β} (hf : ∀ t, sym t = u → f t = some b) :
    ReadsOne sym (take f : Cursor τ ε (Option β)) u (some b) := by
  refine reads_peek fun t ht => ?_
  rw [hf t ht]
  exact reads_next fun _ _ => reads_pure

theorem reads_take_none {f : τ → Option β} (hf : ∀ t, (∃ rest, F (sym t :: rest)) → f t = none) :
    Reads sym (take f : Cursor τ ε (Option β)) [] none F := by
  refine reads_peek_nil fun t ht => ?_
  rw [hf t ht]
  exact reads_pure

theorem reads_tentatively {p : Cursor τ ε Bool} (h : Reads sym p us true F) :
    Reads sym (tentatively p) us true F := by
  intro toks i rest hi hrest hF
  rw [tentatively, h toks i rest hi hrest hF]

end Rules

/-! ## Loops -/

/-- **The first rounds of a loop** read `us` and lead from one state to
another. -/
def Goes (sym : τ → σ) (body : s → Cursor τ ε (ForInStep s)) (F : List σ → Prop) (x : s)
    (us : List σ) (y : s) : Prop :=
  ∃ c, c ≤ us.length ∧ ∀ toks i rest m, Ahead sym toks i (us ++ rest) → rest ≠ [] → F rest →
    rounds body (m + c) x toks i = rounds body m y toks (i + us.length)

section Loops

variable {body : s → Cursor τ ε (ForInStep s)} {F G : List σ → Prop} {x y z : s}
  {us vs : List σ}

theorem goes_nil : Goes sym body F x [] x :=
  ⟨0, Nat.le_refl 0, fun _ _ _ _ _ _ _ => rfl⟩

/-- One more round, which reads something. -/
theorem Goes.yield (h : Goes sym body F x us y) (hbody : Reads sym (body y) vs (.yield z) G)
    (hvs : vs ≠ []) (hF : ∀ rest, rest ≠ [] → G rest → F (vs ++ rest)) :
    Goes sym body G x (us ++ vs) z := by
  obtain ⟨c, hc, hrounds⟩ := h
  have hpos : 0 < vs.length := List.length_pos_iff.mpr hvs
  refine ⟨c + 1, ?_, fun toks i rest m hi hrest hG => ?_⟩
  · rw [List.length_append]
    omega
  · rw [List.append_assoc] at hi
    have hsum : m + (c + 1) = m + 1 + c := by omega
    rw [hsum, hrounds toks i (vs ++ rest) (m + 1) hi (by simp [hrest]) (hF rest hrest hG),
      rounds_yield (hbody toks _ rest hi.behind hrest hG), List.length_append, Nat.add_assoc]

/-- **The last round.** There are fewer rounds than tokens. -/
theorem Goes.done (h : Goes sym body F x us y) (hbody : Reads sym (body y) vs (.done z) G)
    (hF : ∀ rest, rest ≠ [] → G rest → F (vs ++ rest)) :
    Reads sym (forever body x) (us ++ vs) z G := by
  obtain ⟨c, hc, hrounds⟩ := h
  intro toks i rest hi hrest hG
  rw [List.append_assoc] at hi
  have hlen := hi.length
  have hpos : 0 < rest.length := List.length_pos_iff.mpr hrest
  simp only [List.length_append] at hlen
  obtain ⟨m, hm⟩ : ∃ m, toks.length = m + 1 + c := ⟨toks.length - 1 - c, by omega⟩
  rw [forever, hm, hrounds toks i (vs ++ rest) (m + 1) hi (by simp [hrest]) (hF rest hrest hG),
    rounds_done (hbody toks _ rest hi.behind hrest hG), List.length_append, Nat.add_assoc]

end Loops

end Cursor
