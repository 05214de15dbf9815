import Mathlib.Tactic

/-!
# Stream ciphers with a position

A stream cipher adds a stream of key bytes to the data; all that changes from one call
to the next is how far into the stream it is.

* `KeyStream.apply` — the data with the key bytes from the position on;
  `KeyStream.advance` — the cipher that many bytes further on.
* `apply_append` — data handled in two pieces, or in one.
* `apply_apply` — what was enciphered at a position is deciphered at that position.
-/

/-- A stream of key bytes and the position of the next one. -/
structure KeyStream where
  key : ℕ → UInt8
  pos : ℕ

namespace KeyStream

/-- The data with the key bytes from the position on. -/
def apply (k : KeyStream) : List UInt8 → List UInt8
  | [] => []
  | b :: bs => (b ^^^ k.key k.pos) :: apply { k with pos := k.pos + 1 } bs

/-- The cipher `n` bytes further on. -/
def advance (k : KeyStream) (n : ℕ) : KeyStream := { k with pos := k.pos + n }

variable (k : KeyStream)

@[simp] theorem advance_zero : k.advance 0 = k := rfl

@[simp] theorem advance_advance (m n : ℕ) : (k.advance m).advance n = k.advance (m + n) := by
  simp [advance, Nat.add_assoc]

@[simp] theorem advance_pos (n : ℕ) : (k.advance n).pos = k.pos + n := rfl

@[simp] theorem apply_nil : k.apply [] = [] := rfl

theorem apply_cons (b : UInt8) (bs : List UInt8) :
    k.apply (b :: bs) = (b ^^^ k.key k.pos) :: (k.advance 1).apply bs := rfl

@[simp] theorem length_apply (bs : List UInt8) : (k.apply bs).length = bs.length := by
  induction bs generalizing k with
  | nil => rfl
  | cons b bs ih => simp [apply_cons, ih]

/-- Two pieces handled one after the other are handled as one. -/
theorem apply_append (xs ys : List UInt8) :
    k.apply (xs ++ ys) = k.apply xs ++ (k.advance xs.length).apply ys := by
  induction xs generalizing k with
  | nil => rfl
  | cons b xs ih => simp [apply_cons, ih, Nat.add_comm]

/-- What was enciphered at a position is deciphered at that position. -/
@[simp] theorem apply_apply (bs : List UInt8) : k.apply (k.apply bs) = bs := by
  induction bs generalizing k with
  | nil => rfl
  | cons b bs ih =>
    have htail : (k.advance 1).apply ((k.advance 1).apply bs) = bs := ih (k.advance 1)
    rw [apply_cons, apply_cons, htail, UInt8.xor_assoc, UInt8.xor_self, UInt8.xor_zero]

theorem apply_take (bs : List UInt8) (n : ℕ) : k.apply (bs.take n) = (k.apply bs).take n := by
  induction bs generalizing k n with
  | nil => simp
  | cons b bs ih =>
    cases n with
    | zero => rfl
    | succ n => simp [apply_cons, ih]

theorem apply_drop (bs : List UInt8) (n : ℕ) :
    (k.advance n).apply (bs.drop n) = (k.apply bs).drop n := by
  induction bs generalizing k n with
  | nil => simp
  | cons b bs ih =>
    cases n with
    | zero => rfl
    | succ n => simp [apply_cons, ← ih, Nat.add_comm]

/-- One key byte for each byte of data. -/
theorem apply_eq_zipWith (bs : List UInt8) :
    k.apply bs = List.zipWith (· ^^^ ·) bs (k.apply (List.replicate bs.length 0)) := by
  induction bs generalizing k with
  | nil => rfl
  | cons b bs ih => simp [apply_cons, List.replicate_succ, ← ih]

end KeyStream
