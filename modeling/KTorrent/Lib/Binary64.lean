import Mathlib.Data.Int.Log
import Mathlib.Algebra.Order.Round
import Mathlib.Tactic

/-!
# Rounding to binary64

The numbers of the format, without its ends: quantities that are neither subnormal nor
overflow.  An operation is the exact one on rationals with its result rounded.

* `roundEven` — to the nearest integer, of two to the even one.
* `round` — to 53 significant bits.
* `round_le_zpow` — rounding does not cross a power of two.
* `toUint32` — the conversion to an unsigned integer, with whatever it gives outside its range.
-/

namespace Binary64

/-- The nearest integer; of two that are as near, the even one. -/
def roundEven (q : ℚ) : ℤ :=
  if q - ⌊q⌋ < 1 / 2 then ⌊q⌋
  else if 1 / 2 < q - ⌊q⌋ then ⌊q⌋ + 1
  else if Even ⌊q⌋ then ⌊q⌋
  else ⌊q⌋ + 1

/-- The unit in the last of 53 places. -/
def ulp (q : ℚ) : ℚ := 2 ^ (Int.log 2 |q| - 52)

/-- The number of the format that is nearest. -/
def round (q : ℚ) : ℚ := roundEven (q / ulp q) * ulp q

/-- The conversion; what it gives for an integer that does not fit is not defined. -/
def toUint32 (undefined : ℤ → UInt32) (z : ℤ) : UInt32 :=
  if 0 ≤ z ∧ z < 2 ^ 32 then UInt32.ofNat z.toNat else undefined z

theorem ulp_pos (q : ℚ) : 0 < ulp q := zpow_pos (by norm_num) _

/-- An integer bound is kept. -/
theorem roundEven_le {q : ℚ} {n : ℤ} (h : q ≤ n) : roundEven q ≤ n := by
  obtain rfl | hlt := h.eq_or_lt
  · simp [roundEven]
  · have hfloor : ⌊q⌋ < n := Int.floor_lt.mpr hlt
    rw [roundEven]
    split_ifs <;> omega

theorem roundEven_pos {q : ℚ} (h : 1 ≤ q) : 0 < roundEven q := by
  have hfloor : 1 ≤ ⌊q⌋ := Int.le_floor.mpr (by exact_mod_cast h)
  rw [roundEven]
  split_ifs <;> omega

/-- The leading place of a number is not behind its last one. -/
theorem one_le_units {q : ℚ} (h : 0 < q) : 1 ≤ q / ulp q := by
  rw [one_le_div (ulp_pos q)]
  have hlog := Int.zpow_log_le_self (b := 2) (r := |q|) (by norm_num) (abs_pos.mpr h.ne')
  calc ulp q ≤ 2 ^ Int.log 2 |q| := zpow_le_zpow_right₀ (by norm_num) (by omega)
    _ ≤ q := by
      rw [abs_of_pos h] at hlog ⊢
      exact_mod_cast hlog

theorem round_pos {q : ℚ} (h : 0 < q) : 0 < round q := by
  have hint : 0 < roundEven (q / ulp q) := roundEven_pos (one_le_units h)
  exact mul_pos (by exact_mod_cast hint) (ulp_pos q)

/-- Rounding does not cross a power of two. -/
theorem round_le_zpow {q : ℚ} {k : ℤ} (h0 : 0 ≤ q) (h : q ≤ 2 ^ k) : round q ≤ 2 ^ k := by
  obtain rfl | hpos := h0.eq_or_lt
  · simpa [round, roundEven] using (zpow_pos (by norm_num : (0 : ℚ) < 2) k).le
  obtain ⟨e, he⟩ : ∃ e, e = Int.log 2 |q| := ⟨_, rfl⟩
  have hulp : ulp q = 2 ^ (e - 52) := by rw [ulp, he]
  have hlow : (2 : ℚ) ^ e ≤ q := by
    have hlog := Int.zpow_log_le_self (b := 2) (r := |q|) (by norm_num) (abs_pos.mpr hpos.ne')
    rw [← he, abs_of_pos hpos] at hlog
    exact_mod_cast hlog
  have hcross : ∀ n : ℕ, q ≤ 2 ^ (e + n) → round q ≤ 2 ^ (e + n) := by
    intro n hq
    have hscale : (2 : ℚ) ^ (e + n) = ((2 ^ (52 + n) : ℤ) : ℚ) * 2 ^ (e - 52) := by
      push_cast
      rw [← zpow_natCast, ← zpow_add₀ (by norm_num)]
      congr 1
      push_cast
      ring
    have hunits : q / ulp q ≤ ((2 ^ (52 + n) : ℤ) : ℚ) := by
      rw [div_le_iff₀ (ulp_pos q), hulp, ← hscale]
      exact hq
    have hint : (roundEven (q / ulp q) : ℚ) ≤ ((2 ^ (52 + n) : ℤ) : ℚ) := by
      exact_mod_cast roundEven_le hunits
    rw [hscale, ← hulp]
    exact mul_le_mul_of_nonneg_right hint (ulp_pos q).le
  have hek : e ≤ k := (zpow_le_zpow_iff_right₀ (by norm_num)).mp (hlow.trans h)
  obtain ⟨n, hn⟩ := Int.le.dest hek
  rw [← hn] at h ⊢
  exact hcross n h

end Binary64
