import Mathlib.Tactic

/-!
# Machine integers and constants

The model computes with natural numbers; a value that the source stores in a
`Uint32` or `Uint64` is reduced where it is stored.  `u32` and `u64` are the two
reductions, `sub32` and `sub64` the wrapping subtractions, and the lemmas say
when nothing is lost.  The file also has the constants and the enumeration of
`util/constants.h` that the model uses.
-/

namespace KTorrent

/-- A value stored in a `Uint32`. -/
def u32 (n : ℕ) : ℕ := n % 2 ^ 32

/-- A value stored in a `Uint64`. -/
def u64 (n : ℕ) : ℕ := n % 2 ^ 64

/-- `a - b` computed in a type of `w` bits. -/
def subw (w a b : ℕ) : ℕ := (a + (2 ^ w - b % 2 ^ w)) % 2 ^ w

/-- `a - b` on `Uint32`. -/
def sub32 (a b : ℕ) : ℕ := subw 32 a b

/-- `a - b` on `Uint64`. -/
def sub64 (a b : ℕ) : ℕ := subw 64 a b

/-- An `Int64` converted to `Uint64`. -/
def int64ToUint64 (z : ℤ) : ℕ := (z % 2 ^ 64).toNat

theorem u32_of_lt {n : ℕ} (h : n < 2 ^ 32) : u32 n = n := Nat.mod_eq_of_lt h

theorem u64_of_lt {n : ℕ} (h : n < 2 ^ 64) : u64 n = n := Nat.mod_eq_of_lt h

theorem u32_lt (n : ℕ) : u32 n < 2 ^ 32 := Nat.mod_lt _ (by decide)

theorem u64_lt (n : ℕ) : u64 n < 2 ^ 64 := Nat.mod_lt _ (by decide)

theorem subw_of_le {w a b : ℕ} (h : b ≤ a) (ha : a < 2 ^ w) : subw w a b = a - b := by
  have hsum : a + (2 ^ w - b) = a - b + 2 ^ w := by omega
  rw [subw, Nat.mod_eq_of_lt (h.trans_lt ha), hsum, Nat.add_mod_right]
  exact Nat.mod_eq_of_lt (by omega)

theorem sub32_of_le {a b : ℕ} (h : b ≤ a) (ha : a < 2 ^ 32) : sub32 a b = a - b :=
  subw_of_le h ha

theorem sub64_of_le {a b : ℕ} (h : b ≤ a) (ha : a < 2 ^ 64) : sub64 a b = a - b :=
  subw_of_le h ha

/-- `MAX_PIECE_LEN`. -/
def maxPieceLen : ℕ := 16384

/-- `Priority`, in increasing order of the source's values. -/
inductive Priority where
  | excluded
  | onlySeed
  | last
  | lastPreview
  | normal
  | normalPreview
  | first
  | firstPreview
  deriving DecidableEq, Repr

/-- The value of the enumerator. -/
def Priority.value : Priority → ℕ
  | excluded => 10
  | onlySeed => 20
  | last => 30
  | lastPreview => 35
  | normal => 40
  | normalPreview => 45
  | first => 50
  | firstPreview => 55

end KTorrent
