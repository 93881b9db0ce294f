import Tsql.Lib.Bytes
import Mathlib.Tactic.Common

/-!
# Self-delimiting byte codecs

A `Codec α` writes a value so that it can be read back in front of ANY
bytes: the reader returns the value and what follows it. Such codecs
compose: pairs and lists of encoded values need no separators, and a type
that embeds in one that has a codec has one itself (`Codec.comap`).
-/

/-- A codec whose encodings say where they end. -/
structure Codec (α : Type) where
  enc : α → Bytes
  dec : Bytes → Option (α × Bytes)
  dec_enc : ∀ a rest, dec (enc a ++ rest) = some (a, rest)

namespace Codec

variable {α β : Type}

/-- Read a whole byte string. -/
def read (c : Codec α) (bs : Bytes) : Option α := (c.dec bs).map Prod.fst

theorem read_enc (c : Codec α) (a : α) : c.read (c.enc a) = some a := by
  have := c.dec_enc a []
  rw [List.append_nil] at this
  rw [read, this]
  rfl

/-- One byte. -/
def byte : Codec UInt8 where
  enc b := [b]
  dec
    | [] => none
    | b :: rest => some (b, rest)
  dec_enc _ _ := rfl

/-- One value after another. -/
def pair (c : Codec α) (d : Codec β) : Codec (α × β) where
  enc p := c.enc p.1 ++ d.enc p.2
  dec bs := do
    let (a, rest) ← c.dec bs
    let (b, rest) ← d.dec rest
    return ((a, b), rest)
  dec_enc := by
    rintro ⟨a, b⟩ rest
    simp [List.append_assoc, c.dec_enc, d.dec_enc]

/-- The codec of a type that embeds in one that has a codec. -/
def comap (c : Codec β) (f : α → β) (inv : β → Option α) (h : ∀ a, inv (f a) = some a) :
    Codec α where
  enc a := c.enc (f a)
  dec bs := do
    let (b, rest) ← c.dec bs
    let a ← inv b
    return (a, rest)
  dec_enc a rest := by simp [c.dec_enc, h]

/-- The reader of `list`, with a bound on the number of elements. -/
def decList (c : Codec α) : Nat → Bytes → Option (List α × Bytes)
  | 0, _ => none
  | _, [] => none
  | fuel + 1, b :: bs =>
    if b = 0 then some ([], bs)
    else do
      let (a, rest) ← c.dec bs
      let (as, rest) ← decList c fuel rest
      return (a :: as, rest)

/-- The writer of `list`: a one before every element, a zero at the end. -/
def encList (c : Codec α) : List α → Bytes
  | [] => [0]
  | a :: as => 1 :: (c.enc a ++ encList c as)

theorem decList_encList (c : Codec α) (as : List α) (rest : Bytes) {fuel : Nat}
    (h : (encList c as).length ≤ fuel) :
    decList c fuel (encList c as ++ rest) = some (as, rest) := by
  induction as generalizing fuel with
  | nil =>
    cases fuel with
    | zero => simp [encList] at h
    | succ fuel => simp [encList, decList]
  | cons a as ih =>
    cases fuel with
    | zero => simp [encList] at h
    | succ fuel =>
      have hle : (encList c as).length ≤ fuel := by
        simp only [encList, List.length_cons, List.length_append] at h
        omega
      simp [encList, decList, c.dec_enc, ih hle]

/-- A list of values. -/
def list (c : Codec α) : Codec (List α) where
  enc := encList c
  dec bs := decList c bs.length bs
  dec_enc as rest := decList_encList c as rest (by simp)

/-- A number below `256 ^ n`, in `n` bytes. -/
def fixed (n : Nat) : Codec (Fin (256 ^ n)) where
  enc i := Bytes.leBytes n i
  dec bs :=
    if h : Bytes.leNat (bs.take n) < 256 ^ n then some (⟨_, h⟩, bs.drop n) else none
  dec_enc := by
    intro i rest
    have htake : (Bytes.leBytes n i ++ rest).take n = Bytes.leBytes n i :=
      List.take_left' (Bytes.length_leBytes n i)
    have hdrop : (Bytes.leBytes n i ++ rest).drop n = rest :=
      List.drop_left' (Bytes.length_leBytes n i)
    simp only [htake, hdrop, Bytes.leNat_leBytes_of_lt i.isLt, i.isLt, dite_true, Fin.eta]

end Codec
