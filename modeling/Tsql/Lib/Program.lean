import Mathlib.Control.Lawful
import Mathlib.Data.Set.Insert
import Mathlib.Tactic.Common
import Tsql.Lib.Outcome

/-!
# Programs over an interface

A program that works through an interface is a tree: it is done with a
result, or with an error, or makes a call and goes on with the answer
(`Prog`). What the calls do is not part of it. A `Handler` answers them from
a state, and `Prog.run` is the run of a whole program against one handler, so
that ONE program can be run over several implementations of its interface,
alone or call by call between other programs.

The rules say what a run inherits from the calls a program is limited to
(`Calls`) or from those it really makes (`Meets`): an invariant, and that a
program which only reads depends on nothing but the answers (`run_eq_eval`).
-/

/-- An interface: its calls, and the type of the answer to each. -/
structure Interface where
  Call : Type
  Reply : Call → Type

/-- A program over the interface `I`: errors in `ε`, results in `α`. -/
inductive Prog (I : Interface) (ε α : Type) where
  | ret (a : α)
  | fail (err : ε)
  | call (c : I.Call) (k : I.Reply c → Prog I ε α)

/-- An implementation of the interface on the states `σ`. -/
abbrev Handler (I : Interface) (σ : Type) := (c : I.Call) → σ → σ × I.Reply c

namespace Prog

variable {I : Interface} {ε α β σ : Type} {p : Prog I ε α} {f : α → Prog I ε β} {a : α}
  {P : I.Call → Prop} {h : Handler I σ} {s : σ}

/-- Go on with the result; an error ends the program. -/
def bind : Prog I ε α → (α → Prog I ε β) → Prog I ε β
  | .ret a, f => f a
  | .fail err, _ => .fail err
  | .call c k, f => .call c fun r => (k r).bind f

instance : Monad (Prog I ε) where
  pure := .ret
  bind := .bind

/-- Make one call. -/
def ask (c : I.Call) : Prog I ε (I.Reply c) := .call c .ret

/-- A computation that makes no calls. -/
def ofExcept : Except ε α → Prog I ε α
  | .ok a => .ret a
  | .error err => .fail err

@[simp] theorem pure_eq (a : α) : (pure a : Prog I ε α) = .ret a := rfl

@[simp] theorem ret_bind (a : α) (f : α → Prog I ε β) : (.ret a : Prog I ε α) >>= f = f a := rfl

@[simp] theorem fail_bind (err : ε) (f : α → Prog I ε β) :
    (.fail err : Prog I ε α) >>= f = .fail err := rfl

@[simp] theorem call_bind (c : I.Call) (k : I.Reply c → Prog I ε α) (f : α → Prog I ε β) :
    (.call c k : Prog I ε α) >>= f = .call c fun r => k r >>= f := rfl

@[simp] theorem ask_bind (c : I.Call) (f : I.Reply c → Prog I ε β) :
    (ask c : Prog I ε _) >>= f = .call c f := rfl

/-! ## Runs -/

/-- Run a program against a handler. -/
def run (h : Handler I σ) : Prog I ε α → σ → σ × Except ε α
  | .ret a, s => (s, .ok a)
  | .fail err, s => (s, .error err)
  | .call c k, s => (k (h c s).2).run h (h c s).1

@[simp] theorem run_ret (h : Handler I σ) (a : α) (s : σ) :
    (.ret a : Prog I ε α).run h s = (s, .ok a) := rfl

@[simp] theorem run_fail (h : Handler I σ) (err : ε) (s : σ) :
    (.fail err : Prog I ε α).run h s = (s, .error err) := rfl

@[simp] theorem run_call (h : Handler I σ) (c : I.Call) (k : I.Reply c → Prog I ε α) (s : σ) :
    (Prog.call c k).run h s = (k (h c s).2).run h (h c s).1 := rfl

@[simp] theorem run_ofExcept (h : Handler I σ) (x : Except ε α) (s : σ) :
    (ofExcept x : Prog I ε α).run h s = (s, x) := by
  cases x <;> rfl

theorem bind_bind {γ : Type} (p : Prog I ε α) (f : α → Prog I ε β) (g : β → Prog I ε γ) :
    (p >>= f) >>= g = p >>= fun a => f a >>= g := by
  induction p with
  | ret a => rfl
  | fail err => rfl
  | call c k ih => exact congrArg (Prog.call c) (funext ih)

/-- **A run of two programs in a row.** -/
theorem run_bind (h : Handler I σ) (p : Prog I ε α) (f : α → Prog I ε β) (s : σ) :
    (p >>= f).run h s =
      match p.run h s with
      | (s', .ok a) => (f a).run h s'
      | (s', .error err) => (s', .error err) := by
  induction p generalizing s with
  | ret a => rfl
  | fail err => rfl
  | call c k ih => exact ih (h c s).2 (h c s).1

theorem run_bind_ok {s s' : σ} (hp : p.run h s = (s', .ok a)) (f : α → Prog I ε β) :
    (p >>= f).run h s = (f a).run h s' := by
  rw [run_bind, hp]

theorem run_bind_error {s s' : σ} {err : ε}
    (hp : p.run h s = (s', .error err)) (f : α → Prog I ε β) :
    (p >>= f).run h s = (s', .error err) := by
  rw [run_bind, hp]

/-- A run of two programs in a row that succeeds. -/
theorem run_bind_eq_ok {s s'' : σ} {b : β} :
    (p >>= f).run h s = (s'', .ok b) ↔
      ∃ s' a, p.run h s = (s', .ok a) ∧ (f a).run h s' = (s'', .ok b) := by
  rw [run_bind]
  rcases p.run h s with ⟨s', err | a⟩
  · simp
  · simp

/-- Run a program against fixed answers: a state that no call changes. -/
def eval (o : (c : I.Call) → I.Reply c) : Prog I ε α → Except ε α
  | .ret a => .ok a
  | .fail err => .error err
  | .call c k => (k (o c)).eval o

@[simp] theorem eval_ret (o : (c : I.Call) → I.Reply c) (a : α) :
    (.ret a : Prog I ε α).eval o = .ok a := rfl

@[simp] theorem eval_fail (o : (c : I.Call) → I.Reply c) (err : ε) :
    (.fail err : Prog I ε α).eval o = .error err := rfl

@[simp] theorem eval_call (o : (c : I.Call) → I.Reply c) (c : I.Call)
    (k : I.Reply c → Prog I ε α) : (Prog.call c k).eval o = (k (o c)).eval o := rfl

@[simp] theorem eval_ofExcept (o : (c : I.Call) → I.Reply c) (x : Except ε α) :
    (ofExcept x : Prog I ε α).eval o = x := by
  cases x <;> rfl

@[simp] theorem eval_bind (o : (c : I.Call) → I.Reply c) (p : Prog I ε α) (f : α → Prog I ε β) :
    (p >>= f).eval o = p.eval o >>= fun a => (f a).eval o := by
  induction p with
  | ret a => rfl
  | fail err => rfl
  | call c k ih => exact ih (o c)

theorem eval_bind_ok {o : (c : I.Call) → I.Reply c}
    (h : p.eval o = .ok a) (f : α → Prog I ε β) : (p >>= f).eval o = (f a).eval o := by
  rw [eval_bind, h]
  rfl

/-! ## What a run inherits from its calls -/

/-- Every call the program may make, whatever the answers, satisfies `P`. -/
def Calls (P : I.Call → Prop) : Prog I ε α → Prop
  | .ret _ => True
  | .fail _ => True
  | .call c k => P c ∧ ∀ r, (k r).Calls P

theorem Calls.bind (hp : p.Calls P) (hf : ∀ a, (f a).Calls P) : (p >>= f).Calls P := by
  induction p with
  | ret a => exact hf a
  | fail err => trivial
  | call c k ih => exact ⟨hp.1, fun r => ih r (hp.2 r)⟩

theorem Calls.ofExcept (x : Except ε α) :
    (ofExcept x : Prog I ε α).Calls P := by
  cases x <;> trivial

theorem Calls.mono {P Q : I.Call → Prop} (h : ∀ c, P c → Q c) (hp : p.Calls P) : p.Calls Q := by
  induction p with
  | ret a => trivial
  | fail err => trivial
  | call c k ih => exact ⟨h c hp.1, fun r => ih r (hp.2 r)⟩

theorem calls_true (p : Prog I ε α) : p.Calls fun _ => True := by
  induction p with
  | ret a => trivial
  | fail err => trivial
  | call c k ih => exact ⟨trivial, ih⟩

/-- Every call the program may make satisfies `P`, and every result it may come
to satisfies `Q`, whatever the answers. -/
def CallsThen (P : I.Call → Prop) (Q : α → Prop) : Prog I ε α → Prop
  | .ret a => Q a
  | .fail _ => True
  | .call c k => P c ∧ ∀ r, (k r).CallsThen P Q

theorem CallsThen.bind {Q : α → Prop} {R : β → Prop}
    (hp : p.CallsThen P Q) (hf : ∀ a, Q a → (f a).CallsThen P R) :
    (p >>= f).CallsThen P R := by
  induction p with
  | ret a => exact hf a hp
  | fail err => trivial
  | call c k ih => exact ⟨hp.1, fun r => ih r (hp.2 r)⟩

theorem CallsThen.ofExcept {Q : α → Prop} {x : Except ε α}
    (h : ∀ a, x = .ok a → Q a) : (ofExcept x : Prog I ε α).CallsThen P Q := by
  cases x with
  | ok a => exact h a rfl
  | error err => trivial

theorem CallsThen.calls {Q : α → Prop} (hp : p.CallsThen P Q) : p.Calls P := by
  induction p with
  | ret a => trivial
  | fail err => trivial
  | call c k ih => exact ⟨hp.1, fun r => ih r (hp.2 r)⟩

/-- **A program of reads** leaves the state alone, and its outcome is that of
the answers the state gives. -/
theorem run_eq_eval (hread : ∀ c, P c → (h c s).1 = s) (hp : p.Calls P) :
    p.run h s = (s, p.eval fun c => (h c s).2) := by
  induction p with
  | ret a => rfl
  | fail err => rfl
  | call c k ih =>
    rw [run_call, hread c hp.1]
    exact ih _ (hp.2 _)

/-- Answers that agree on the calls of a program give it the same outcome. -/
theorem eval_congr {o o' : (c : I.Call) → I.Reply c}
    (h : ∀ c, P c → o c = o' c) (hp : p.Calls P) : p.eval o = p.eval o' := by
  induction p with
  | ret a => rfl
  | fail err => rfl
  | call c k ih =>
    rw [eval_call, eval_call, ← h c hp.1]
    exact ih _ (hp.2 _)

/-- Every call a run makes meets `C`, judged on the state before it. -/
def Meets (h : Handler I σ) (C : σ → I.Call → Prop) : Prog I ε α → σ → Prop
  | .ret _, _ => True
  | .fail _, _ => True
  | .call c k, s => C s c ∧ (k (h c s).2).Meets h C (h c s).1

instance decidableMeets (h : Handler I σ) (C : σ → I.Call → Prop) [∀ s c, Decidable (C s c)] :
    (p : Prog I ε α) → (s : σ) → Decidable (p.Meets h C s)
  | .ret _, _ => isTrue trivial
  | .fail _, _ => isTrue trivial
  | .call c k, s => @instDecidableAnd _ _ _ (decidableMeets h C (k (h c s).2) (h c s).1)

/-- A run of two programs in a row meets what both parts meet. -/
theorem meets_bind {C : σ → I.Call → Prop} :
    (p >>= f).Meets h C s ↔
      p.Meets h C s ∧ ∀ s' a, p.run h s = (s', .ok a) → (f a).Meets h C s' := by
  induction p generalizing s with
  | ret a => simp [Meets]
  | fail err => simp [Meets]
  | call c k ih =>
    show C s c ∧ (k _ >>= f).Meets h C _ ↔ _
    rw [ih, Meets, and_assoc]
    rfl

theorem Calls.meets {C : σ → I.Call → Prop}
    (hC : ∀ s c, P c → C s c) (hp : p.Calls P) (s : σ) : p.Meets h C s := by
  induction p generalizing s with
  | ret a => trivial
  | fail err => trivial
  | call c k ih => exact ⟨hC s c hp.1, ih _ (hp.2 _) _⟩

/-- **The invariant rule.** -/
theorem run_invariant {J : σ → Prop} (hstep : ∀ c s, P c → J s → J (h c s).1) (hp : p.Calls P)
    (hs : J s) : J (p.run h s).1 := by
  induction p generalizing s with
  | ret a => exact hs
  | fail err => exact hs
  | call c k ih => exact ih _ (hp.2 _) (hstep c s hp.1 hs)

/-! ## Reads among other writers -/

section Reaches

variable {reply : σ → (c : I.Call) → I.Reply c} {S : Set σ} {E : ε → Prop}

/-- The outcomes a program may reach if each of its calls is answered by one of
the states `S`, whichever the others have brought about by then. -/
def Reaches (reply : σ → (c : I.Call) → I.Reply c) (S : Set σ) : Prog I ε α → Except ε α → Prop
  | .ret a, x => x = .ok a
  | .fail err, x => x = .error err
  | .call c k, x => ∃ s ∈ S, (k (reply s c)).Reaches reply S x

@[simp] theorem reaches_ofExcept {x y : Except ε α} :
    (ofExcept y : Prog I ε α).Reaches reply S x ↔ x = y := by
  cases y <;> rfl

theorem reaches_bind {x : Except ε β} :
    (p >>= f).Reaches reply S x ↔
      (∃ a, p.Reaches reply S (.ok a) ∧ (f a).Reaches reply S x) ∨
        ∃ err, p.Reaches reply S (.error err) ∧ x = .error err := by
  induction p with
  | ret a => simp [Reaches]
  | fail err => simp [Reaches]
  | call c k ih =>
    show (∃ s ∈ S, (k (reply s c) >>= f).Reaches reply S x) ↔ _
    simp only [ih, Reaches]
    constructor
    · rintro ⟨s, hs, ⟨a, ha, hf⟩ | ⟨err, herr, hx⟩⟩
      · exact .inl ⟨a, ⟨s, hs, ha⟩, hf⟩
      · exact .inr ⟨err, ⟨s, hs, herr⟩, hx⟩
    · rintro (⟨a, ⟨s, hs, ha⟩, hf⟩ | ⟨err, ⟨s, hs, herr⟩, hx⟩)
      · exact ⟨s, hs, .inl ⟨a, ha, hf⟩⟩
      · exact ⟨s, hs, .inr ⟨err, herr, hx⟩⟩

theorem Reaches.bind_ok {x : Except ε β}
    (hp : p.Reaches reply S (.ok a)) (hf : (f a).Reaches reply S x) :
    (p >>= f).Reaches reply S x :=
  reaches_bind.mpr (.inl ⟨a, hp, hf⟩)

/-- With a single state there is one outcome. -/
theorem reaches_singleton {x : Except ε α} :
    p.Reaches reply {s} x ↔ x = p.eval (reply s) := by
  induction p with
  | ret a => rfl
  | fail err => rfl
  | call c k ih => simp only [Reaches, ih, Set.mem_singleton_iff, exists_eq_left, eval_call]

/-- A run is answered by the states it goes through. -/
theorem reaches_run (hS : ∀ s ∈ S, ∀ c, (h c s).1 ∈ S) (p : Prog I ε α) (hs : s ∈ S) :
    p.Reaches (fun s c => (h c s).2) S (p.run h s).2 := by
  induction p generalizing s with
  | ret a => rfl
  | fail err => rfl
  | call c k ih => exact ⟨s, hs, ih _ (hS s hs c)⟩

/-- Whatever the answers, the result satisfies `Q` or the error `E`. -/
def Always (reply : σ → (c : I.Call) → I.Reply c) (S : Set σ) (E : ε → Prop) (Q : α → Prop)
    (p : Prog I ε α) : Prop :=
  ∀ x, p.Reaches reply S x → Yields E Q x

namespace Always

variable {Q Q' : α → Prop} {R : β → Prop}

theorem ret (h : Q a) : Always reply S E Q (.ret a : Prog I ε α) := by
  rintro x rfl
  exact h

theorem ofExcept {x : Except ε α} (h : Yields E Q x) :
    Always reply S E Q (ofExcept x : Prog I ε α) := by
  intro y hy
  rw [reaches_ofExcept.mp hy]
  exact h

theorem ask (c : I.Call) :
    Always reply S E (fun r => ∃ s ∈ S, reply s c = r) (.call c .ret : Prog I ε (I.Reply c)) := by
  rintro x ⟨s, hs, rfl⟩
  exact ⟨s, hs, rfl⟩

theorem bind (h : Always reply S E Q p)
    (hf : ∀ a, Q a → Always reply S E R (f a)) : Always reply S E R (p >>= f) := by
  intro x hx
  rcases reaches_bind.mp hx with ⟨a, ha, hx⟩ | ⟨err, herr, rfl⟩
  · exact hf a (h _ ha) x hx
  · exact h _ herr

theorem mono (h : Always reply S E Q p) (hQ : ∀ a, Q a → Q' a) :
    Always reply S E Q' p :=
  fun x hx => (h x hx).mono hQ

/-- What is known of a result besides: it was reached. -/
theorem and_reaches (h : Always reply S E Q p) :
    Always reply S E (fun a => Q a ∧ p.Reaches reply S (.ok a)) p := by
  intro x hx
  refine (h x hx).and_of_ok fun a ha => ?_
  rwa [← ha]

end Always

end Reaches

/-! ## Logs -/

/-- The implementation, with a log of what its answers say. -/
def logging (h : Handler I σ) (f : (c : I.Call) → I.Reply c → List β) : Handler I (σ × List β) :=
  fun c s => (((h c s.1).1, s.2 ++ f c (h c s.1).2), (h c s.1).2)

/-- A log changes neither the states nor the outcome, and only grows. -/
theorem run_logging (h : Handler I σ) (f : (c : I.Call) → I.Reply c → List β)
    (p : Prog I ε α) (s : σ) (l : List β) :
    ∃ l', p.run (logging h f) (s, l) = (((p.run h s).1, l ++ l'), (p.run h s).2) := by
  induction p generalizing s l with
  | ret a => exact ⟨[], by simp⟩
  | fail err => exact ⟨[], by simp⟩
  | call c k ih =>
    obtain ⟨l', hl'⟩ := ih (h c s).2 (h c s).1 (l ++ f c (h c s).2)
    refine ⟨f c (h c s).2 ++ l', ?_⟩
    rw [run_call, run_call, ← List.append_assoc]
    exact hl'

/-! ## Traces -/

/-- What the answers of a run say, in order. -/
def trace (h : Handler I σ) (f : (c : I.Call) → I.Reply c → List β) : Prog I ε α → σ → List β
  | .ret _, _ => []
  | .fail _, _ => []
  | .call c k, s => f c (h c s).2 ++ (k (h c s).2).trace h f (h c s).1

section Traces

variable {h : Handler I σ} {f : (c : I.Call) → I.Reply c → List β} {γ : Type} {s : σ}

theorem trace_bind_ok {s' : σ} (hp : p.run h s = (s', .ok a))
    (q : α → Prog I ε γ) : (p >>= q).trace h f s = p.trace h f s ++ (q a).trace h f s' := by
  induction p generalizing s with
  | ret a =>
    cases hp
    rfl
  | fail err => cases hp
  | call c k ih =>
    show f c _ ++ (k _ >>= q).trace h f _ = f c _ ++ (k _).trace h f _ ++ _
    rw [ih _ hp, List.append_assoc]

theorem trace_bind_error {s' : σ} {err : ε} (hp : p.run h s = (s', .error err))
    (q : α → Prog I ε γ) : (p >>= q).trace h f s = p.trace h f s := by
  induction p generalizing s with
  | ret a => cases hp
  | fail err => rfl
  | call c k ih =>
    show f c _ ++ (k _ >>= q).trace h f _ = f c _ ++ (k _).trace h f _
    rw [ih _ hp]

theorem Calls.trace_eq_nil (hP : ∀ c, P c → ∀ r, f c r = [])
    (hp : p.Calls P) (s : σ) : p.trace h f s = [] := by
  induction p generalizing s with
  | ret a => rfl
  | fail err => rfl
  | call c k ih =>
    rw [trace, hP c hp.1, ih _ (hp.2 _)]
    rfl

end Traces

/-! ## Loops -/

section Loops

variable {ι : Type} {turn : ι → Prog I ε Unit} {h : Handler I σ} {C : σ → I.Call → Prop}

/-- The program once for every item; the first error ends the loop. -/
def each (turn : ι → Prog I ε Unit) : List ι → Prog I ε Unit
  | [] => .ret ()
  | c :: cs => turn c >>= fun _ => each turn cs

/-- Where a turn has got to: on with `J` for the items left, or at an end
where `F` holds. -/
def Ends (J : List ι → σ → Prop) (F : σ → Prop) (cs : List ι) : σ × Except ε Unit → Prop
  | (s, .ok _) => J cs s
  | (s, .error _) => F s

/-- **The invariant rule of a loop.** -/
theorem run_each {J : List ι → σ → Prop} {F : σ → Prop} (hdone : ∀ cs s, J cs s → F s)
    (hturn : ∀ c cs s, J (c :: cs) s → Ends J F cs ((turn c).run h s)) {cs : List ι}
    (hs : J cs s) : F ((each turn cs).run h s).1 := by
  induction cs generalizing s with
  | nil => exact hdone _ _ hs
  | cons c cs ih =>
    have hc := hturn c cs s hs
    rw [each]
    rcases hrun : (turn c).run h s with ⟨s', err | u⟩
    · rw [hrun] at hc
      rw [run_bind_error hrun]
      exact hc
    · rw [hrun] at hc
      rw [run_bind_ok hrun]
      exact ih hc

/-- **The trace of a loop**: what every turn keeps, and what it says. -/
theorem trace_each {f : (c : I.Call) → I.Reply c → List β} {J : σ → Prop} {P : β → Prop}
    {cs : List ι}
    (hturn : ∀ c ∈ cs, ∀ s, J s → J ((turn c).run h s).1 ∧ ∀ b ∈ (turn c).trace h f s, P b)
    (hs : J s) : ∀ b ∈ (each turn cs).trace h f s, P b := by
  induction cs generalizing s with
  | nil =>
    intro b hb
    cases hb
  | cons c cs ih =>
    obtain ⟨hnext, hsays⟩ := hturn c List.mem_cons_self s hs
    have ih' := fun s hs => ih (s := s) (fun c' hc' => hturn c' (List.mem_cons_of_mem _ hc')) hs
    rw [each]
    intro b hb
    rcases hrun : (turn c).run h s with ⟨s', err | u⟩
    · rw [trace_bind_error hrun] at hb
      exact hsays b hb
    · rw [hrun] at hnext
      rw [trace_bind_ok hrun, List.mem_append] at hb
      rcases hb with hb | hb
      · exact hsays b hb
      · exact ih' s' hnext b hb

/-- The first item that is not touched comes before any that is changed. -/
def StopsFirst (same touched : ι → Prop) (cs : List ι) : Prop :=
  ∃ pre c post, cs = pre ++ c :: post ∧ (∀ p ∈ pre, same p) ∧ ¬ touched c

/-- **A loop that cannot go back.** `B` is for good: once there, the run does
not end where `F` holds. So if every turn fails in `F`, or keeps `G`, or goes to
`B`, a loop that fails does so in `F` exactly if no turn before the failing one
went to `B`. -/
theorem each_fails_iff {F : σ → Prop} {G B : List ι → σ → Prop} {same touched : ι → Prop}
    (hdone : ∀ cs s, B cs s → ¬ F s)
    (hbad : ∀ c cs s, B (c :: cs) s → Ends B (¬ F ·) cs ((turn c).run h s))
    (hgood : ∀ c cs s, G (c :: cs) s →
      ¬ touched c ∧ Ends (fun _ _ => False) F cs ((turn c).run h s) ∨
        touched c ∧ same c ∧ Ends G (fun _ => False) cs ((turn c).run h s) ∨
        touched c ∧ ¬ same c ∧ Ends B (¬ F ·) cs ((turn c).run h s))
    {cs : List ι} (hs : G cs s) {err : ε} (hfail : ((each turn cs).run h s).2 = .error err) :
    F ((each turn cs).run h s).1 ↔ StopsFirst same touched cs := by
  induction cs generalizing s with
  | nil => cases hfail
  | cons c cs ih =>
    rw [each] at hfail ⊢
    rcases hrun : (turn c).run h s with ⟨s', e | u⟩
    · rw [run_bind_error hrun]
      rcases hgood c cs s hs with ⟨hno, hends⟩ | ⟨-, -, hends⟩ | ⟨hto, hne, hends⟩ <;>
        rw [hrun] at hends
      · exact ⟨fun _ => ⟨[], c, cs, rfl, by simp, hno⟩, fun _ => hends⟩
      · exact hends.elim
      · refine ⟨fun hF => absurd hF hends, ?_⟩
        rintro ⟨- | ⟨p, pre⟩, c', post, heq, hpre, hno⟩ <;> cases heq
        · exact absurd hto hno
        · exact absurd (hpre _ List.mem_cons_self) hne
    · rw [run_bind_ok hrun] at hfail ⊢
      rcases hgood c cs s hs with ⟨-, hends⟩ | ⟨hto, hsame, hends⟩ | ⟨hto, hne, hends⟩ <;>
        rw [hrun] at hends
      · exact hends.elim
      · rw [ih hends hfail]
        constructor
        · rintro ⟨pre, c', post, rfl, hpre, hno⟩
          exact ⟨c :: pre, c', post, rfl, List.forall_mem_cons.mpr ⟨hsame, hpre⟩, hno⟩
        · rintro ⟨- | ⟨p, pre⟩, c', post, heq, hpre, hno⟩ <;> cases heq
          · exact absurd hto hno
          · exact ⟨pre, c', post, rfl, (List.forall_mem_cons.mp hpre).2, hno⟩
      · refine ⟨fun hF => absurd hF (run_each hdone hbad hends), ?_⟩
        rintro ⟨- | ⟨p, pre⟩, c', post, heq, hpre, hno⟩ <;> cases heq
        · exact absurd hto hno
        · exact absurd (hpre _ List.mem_cons_self) hne

end Loops

end Prog
