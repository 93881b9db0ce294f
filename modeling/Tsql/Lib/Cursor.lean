import Mathlib.Data.List.Basic
import Mathlib.Tactic.Common

/-!
# Computations over a cursor in a list of tokens

A hand-written recursive-descent parser is one list of tokens and one index
into it, which the parse functions share and move. `Cursor τ ε α` is such a
function: it is given the tokens and the index, and leaves the index somewhere
whether it returns or fails. Reading outside the list and running out of the
bound of a loop are failures of their own (`Stop`), so that a proof has to
show that they do not happen.

`Progress` is the logic for that proof: from every position with at most `n`
tokens from there on, the computation returns or fails with an error of its
own, inside the list, not before the position it began at, and if it returns
`a` then at least `k a` tokens later. Sequencing adds the counts up and gives
the second part the smaller bound, which is what a recursive call needs.
-/

/-- Why a computation over a cursor ends without a result. -/
inductive Stop (ε : Type) where
  /-- it has returned an error -/
  | error (e : ε)
  /-- the index is outside the list -/
  | outOfRange
  /-- a loop or a recursion has used up its bound -/
  | endless
  deriving DecidableEq

/-- A computation that reads a list of tokens at an index and moves the index. -/
def Cursor (τ ε α : Type) : Type := List τ → Nat → Except (Stop ε) α × Nat

namespace Cursor

variable {τ ε α β σ : Type} {p : Cursor τ ε α} {f : α → Cursor τ ε β}

instance : Monad (Cursor τ ε) where
  pure a := fun _ i => (.ok a, i)
  bind p f := fun toks i =>
    match p toks i with
    | (.ok a, j) => f a toks j
    | (.error e, j) => (.error e, j)

/-- Stop here. -/
def halt (s : Stop ε) : Cursor τ ε α := fun _ i => (.error s, i)

/-- Return an error. -/
def fail (e : ε) : Cursor τ ε α := halt (.error e)

/-- The token at the index. -/
def peek : Cursor τ ε τ := fun toks i =>
  match toks[i]? with
  | some t => (.ok t, i)
  | none => (.error .outOfRange, i)

/-- The token at the index, and move on unless it is the last one. -/
def next : Cursor τ ε τ := fun toks i =>
  match toks[i]? with
  | some t => (.ok t, if i < toks.length - 1 then i + 1 else i)
  | none => (.error .outOfRange, i)

/-- Move past the token at the index if `f` reads it. -/
def take (f : τ → Option β) : Cursor τ ε (Option β) := do
  let t ← peek
  match f t with
  | some b => do
    let _ ← next
    return some b
  | none => return none

/-- Look ahead: if `p` says no, put the index back. -/
def tentatively (p : Cursor τ ε Bool) : Cursor τ ε Bool := fun toks i =>
  match p toks i with
  | (.ok false, _) => (.ok false, i)
  | r => r

/-- At most `n` rounds of a loop. -/
def rounds (body : σ → Cursor τ ε (ForInStep σ)) : Nat → σ → Cursor τ ε σ
  | 0, _ => halt .endless
  | n + 1, s => do
    match ← body s with
    | .done s => return s
    | .yield s => rounds body n s

/-- An open-ended loop. Rounds that all read a token cannot be more than there
are tokens. -/
def forever (body : σ → Cursor τ ε (ForInStep σ)) (s : σ) : Cursor τ ε σ :=
  fun toks i => rounds body toks.length s toks i

/-! ## Running -/

section Run

variable {toks : List τ} {i j : Nat}

@[simp] theorem pure_apply (a : α) : (pure a : Cursor τ ε α) toks i = (.ok a, i) := rfl

theorem bind_ok {a : α} (h : p toks i = (.ok a, j)) :
    (p >>= f) toks i = f a toks j := by
  show (match p toks i with
    | (.ok a, j) => f a toks j
    | (.error e, j) => (.error e, j)) = _
  rw [h]

theorem bind_error {e : Stop ε}
    (h : p toks i = (.error e, j)) : (p >>= f) toks i = (.error e, j) := by
  show (match p toks i with
    | (.ok a, j) => f a toks j
    | (.error e, j) => (.error e, j)) = _
  rw [h]

theorem peek_eq {t : τ} (h : toks[i]? = some t) :
    (peek : Cursor τ ε τ) toks i = (.ok t, i) := by
  rw [peek, h]

theorem next_eq {t : τ} (h : toks[i]? = some t) :
    (next : Cursor τ ε τ) toks i = (.ok t, if i < toks.length - 1 then i + 1 else i) := by
  rw [next, h]

theorem rounds_done {body : σ → Cursor τ ε (ForInStep σ)} {s s' : σ} {m : Nat}
    (h : body s toks i = (.ok (.done s'), j)) :
    rounds body (m + 1) s toks i = (.ok s', j) := by
  rw [rounds, bind_ok h]
  rfl

theorem rounds_yield {body : σ → Cursor τ ε (ForInStep σ)} {s s' : σ} {m : Nat}
    (h : body s toks i = (.ok (.yield s'), j)) :
    rounds body (m + 1) s toks i = rounds body m s' toks j := by
  rw [rounds, bind_ok h]

end Run

/-! ## Progress -/

/-- What a computation begun at `i` may end with: `k a` tokens are behind it
when it returns `a`. -/
inductive Lands (toks : List τ) (i : Nat) (k : α → Nat) : Except (Stop ε) α × Nat → Prop
  | ok {a : α} {j : Nat} (hi : i + k a ≤ j) (hj : j < toks.length) : Lands toks i k (.ok a, j)
  | error {e : ε} {j : Nat} (hi : i ≤ j) (hj : j < toks.length) :
      Lands toks i k (.error (.error e), j)

/-- **Progress** from every position of `toks` with at most `n` tokens ahead. -/
def Progress (toks : List τ) (n : Nat) (k : α → Nat) (p : Cursor τ ε α) : Prop :=
  ∀ i, i < toks.length → toks.length - i ≤ n → Lands toks i k (p toks i)

/-- Progress by at least one token. -/
abbrev Moves (toks : List τ) (n : Nat) (p : Cursor τ ε α) : Prop := Progress toks n (fun _ => 1) p

/-- Progress by any number of tokens. -/
abbrev Stays (toks : List τ) (n : Nat) (p : Cursor τ ε α) : Prop := Progress toks n (fun _ => 0) p

/-- Progress from the positions where the token is `t`. -/
def ProgressAt (toks : List τ) (t : τ) (n : Nat) (k : α → Nat) (p : Cursor τ ε α) : Prop :=
  ∀ i, toks[i]? = some t → toks.length - i ≤ n → Lands toks i k (p toks i)

section Rules

variable {toks : List τ} {n : Nat} {k : α → Nat}

/-- A computation that goes on from `j` has what was read before `j` to its
credit. -/
theorem Lands.later {k' : α → Nat} {i j : Nat} {r : Except (Stop ε) α × Nat}
    (h : Lands toks j k r) (hij : i ≤ j) (hk : ∀ a, i + k' a ≤ j + k a) : Lands toks i k' r := by
  cases h with
  | ok hi hj => exact .ok (Nat.le_trans (hk _) hi) hj
  | error hi hj => exact .error (Nat.le_trans hij hi) hj

theorem Progress.mono {k' : α → Nat} {m : Nat} (h : Progress toks n k p)
    (hn : m ≤ n) (hk : ∀ a, k' a ≤ k a) : Progress toks m k' p :=
  fun i hi hm => (h i hi (Nat.le_trans hm hn)).later (Nat.le_refl i)
    fun a => Nat.add_le_add_left (hk a) i

theorem Progress.fewer (h : Progress toks (n + 1) k p) : Progress toks n k p :=
  h.mono (Nat.le_succ n) fun a => Nat.le_refl (k a)

theorem Progress.at (h : Progress toks n k p) (t : τ) :
    ProgressAt toks t n k p :=
  fun i hi hn => h i (List.getElem?_eq_some_iff.mp hi).1 hn

theorem progress_pure {a : α} (h : k a = 0) :
    Progress toks n k (pure a : Cursor τ ε α) :=
  fun _ hi _ => .ok (Nat.le_of_eq (by rw [h, Nat.add_zero])) hi

theorem progressAt_pure {a : α} {t : τ} (h : k a = 0) :
    ProgressAt toks t n k (pure a : Cursor τ ε α) :=
  (progress_pure h).at t

theorem progress_fail (e : ε) : Progress toks n k (fail e : Cursor τ ε α) :=
  fun i hi _ => .error (Nat.le_refl i) hi

/-- **Sequencing**: what the first part has read, the second need not. -/
theorem Progress.bind {k' : β → Nat} (hp : Progress toks n k p)
    (hf : ∀ a, Progress toks (n - k a) (fun b => k' b - k a) (f a)) :
    Progress toks n k' (p >>= f) := by
  intro i hi hn
  have h := hp i hi hn
  cases hr : p toks i with
  | mk out j =>
    rw [hr] at h
    cases h with
    | ok hij hj =>
      rw [bind_ok hr]
      exact (hf _ j hj (by omega)).later (by omega) fun b => by omega
    | error hij hj =>
      rw [bind_error hr]
      exact .error hij hj

theorem Progress.stays (h : Progress toks n k p) : Stays toks n p :=
  h.mono (Nat.le_refl n) fun _ => Nat.zero_le _

/-- Looking at the token says which one the rest is run at. -/
theorem progress_peek {f : τ → Cursor τ ε α} (hf : ∀ t, ProgressAt toks t n k (f t)) :
    Progress toks n k (peek >>= f) := by
  intro i hi hn
  have ht : toks[i]? = some toks[i] := List.getElem?_eq_getElem hi
  rw [bind_ok (peek_eq ht)]
  exact hf _ i ht hn

theorem progress_next : Progress toks n (fun _ => 0) (next : Cursor τ ε τ) := by
  intro i hi _
  rw [next_eq (List.getElem?_eq_getElem hi)]
  refine .ok ?_ ?_
  · split <;> omega
  · split <;> omega

/-- **Moving on from a token that is not the last** reads it. -/
theorem progressAt_next {t : τ} {f : τ → Cursor τ ε α} (hlast : toks.getLast? ≠ some t)
    (hf : Progress toks (n - 1) (fun a => k a - 1) (f t)) :
    ProgressAt toks t n k (next >>= f) := by
  intro i ht hn
  have hi : i < toks.length := (List.getElem?_eq_some_iff.mp ht).1
  have hmore : i < toks.length - 1 := by
    refine Nat.lt_of_le_of_ne (by omega) ?_
    rintro rfl
    exact hlast (List.getLast?_eq_getElem? ▸ ht)
  rw [bind_ok (next_eq ht), if_pos hmore]
  exact (hf (i + 1) (by omega) (by omega)).later (by omega) fun a => by omega

/-- One token if there is a result, none otherwise. -/
def readOne : Option β → Nat
  | some _ => 1
  | none => 0

/-- One token if the answer is yes. -/
def readIf : Bool → Nat
  | true => 1
  | false => 0

/-- The two ways on from a token that may have been read. -/
theorem Progress.ite {p : Cursor τ ε Bool} {yes no : Cursor τ ε α}
    (hp : Progress toks n readIf p) (hyes : Progress toks (n - 1) (fun a => k a - 1) yes)
    (hno : Progress toks n k no) :
    Progress toks n k (do if ← p then yes else no) := by
  refine hp.bind fun b => ?_
  cases b with
  | true => exact hyes
  | false => exact hno

theorem progress_take {f : τ → Option β} (hlast : ∀ t, toks.getLast? = some t → f t = none) :
    Progress toks n readOne (take f : Cursor τ ε (Option β)) := by
  refine progress_peek fun t => ?_
  cases hf : f t with
  | none =>
    show ProgressAt toks t n readOne (pure none)
    exact progressAt_pure rfl
  | some b =>
    refine progressAt_next ?_ (progress_pure rfl)
    intro h
    rw [hlast t h] at hf
    cases hf

/-- A look ahead reads tokens only if it says yes. -/
theorem progress_tentatively {p : Cursor τ ε Bool} {k : Bool → Nat} (hfalse : k false = 0)
    (hp : Progress toks n k p) : Progress toks n k (tentatively p) := by
  intro i hi hn
  have h := hp i hi hn
  rw [tentatively]
  cases hr : p toks i with
  | mk out j =>
    rw [hr] at h
    cases h with
    | @ok b _ hij hj =>
      cases b with
      | false => exact .ok (by omega) hi
      | true => exact .ok hij hj
    | error hij hj => exact .error hij hj

/-- What a round has to read: a token if another one follows, and what the
result asks for if it is the last. -/
def readRound (k : σ → Nat) : ForInStep σ → Nat
  | .done s => k s
  | .yield _ => 1

/-- **A loop ends**, since every round but the last reads a token. -/
theorem lands_rounds {body : σ → Cursor τ ε (ForInStep σ)} {k : σ → Nat}
    (hbody : ∀ s, Progress toks n (readRound k) (body s)) {m : Nat} {s : σ}
    {i : Nat} (hi : i < toks.length) (hm : toks.length - i ≤ m) (hn : toks.length - i ≤ n) :
    Lands toks i k (rounds body m s toks i) := by
  induction m generalizing s i with
  | zero => omega
  | succ m ih =>
    have h := hbody s i hi hn
    cases hr : body s toks i with
    | mk out j =>
      rw [hr] at h
      cases h with
      | @ok a _ hij hj =>
        cases a with
        | done s' =>
          rw [rounds_done hr]
          exact .ok hij hj
        | yield s' =>
          have hstep : i + 1 ≤ j := hij
          rw [rounds_yield hr]
          exact (ih hj (by omega) (by omega)).later (by omega) fun a => by omega
      | error hij hj =>
        rw [rounds, bind_error hr]
        exact .error hij hj

theorem progress_forever {body : σ → Cursor τ ε (ForInStep σ)} {k : σ → Nat}
    (hbody : ∀ s, Progress toks n (readRound k) (body s)) (s : σ) :
    Progress toks n k (forever body s) :=
  fun _ hi hn => lands_rounds hbody hi (Nat.sub_le _ _) hn

end Rules

end Cursor
