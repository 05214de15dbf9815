import Mathlib.Tactic

/-!
# uTP sequence numbers

A uTP packet carries its number modulo `2 ^ 16`.  The three helpers of
`utpprotocol.h` compare and subtract such fields; this file models them and
shows what they compute when the two numbers behind the fields are less than
`2 ^ 15` apart: the order and the difference of the unbounded numbers
(`seqNrCmpSE_ofNat`, `seqNrCmpS_ofNat`, `seqNrDiff_ofNat`).
-/

namespace KTorrent
namespace Utp

/-- `qAbs(b - a)`, computed in `int`. -/
def seqNrAbs (a b : UInt16) : ℕ := ((b.toNat : ℤ) - (a.toNat : ℤ)).natAbs

/-- `SeqNrCmpSE`: `≤` on sequence numbers. -/
def seqNrCmpSE (a b : UInt16) : Bool := if seqNrAbs a b < 32768 then a ≤ b else a > b

/-- `SeqNrCmpS`: `<` on sequence numbers. -/
def seqNrCmpS (a b : UInt16) : Bool := if seqNrAbs a b < 32768 then a < b else a > b

/-- `SeqNrDiff`: the difference of two sequence numbers. -/
def seqNrDiff (a b : UInt16) : UInt16 :=
  if seqNrAbs a b < 32768 then b - a
  else if b > a then UInt16.ofNat (a.toNat + (65536 - b.toNat))
  else UInt16.ofNat (b.toNat + (65536 - a.toNat))

/-! ## Fields of unbounded numbers -/

theorem ofNat_succ (n : ℕ) : UInt16.ofNat n + 1 = UInt16.ofNat (n + 1) := by
  rw [UInt16.ofNat_add]
  rfl

theorem ofNat_inj_of_near {x y : ℕ} (h₁ : x < y + 65536) (h₂ : y < x + 65536)
    (h : UInt16.ofNat x = UInt16.ofNat y) : x = y := by
  have := congrArg UInt16.toNat h
  simp only [UInt16.toNat_ofNat'] at this
  omega

theorem seqNrCmpSE_ofNat {x y : ℕ} (h₁ : x < y + 32768) (h₂ : y < x + 32768) :
    seqNrCmpSE (UInt16.ofNat x) (UInt16.ofNat y) = decide (x ≤ y) := by
  simp only [seqNrCmpSE, seqNrAbs, UInt16.le_iff_toNat_le, UInt16.lt_iff_toNat_lt,
    UInt16.toNat_ofNat', gt_iff_lt]
  split <;> simp only [decide_eq_decide] <;> omega

theorem seqNrCmpS_ofNat {x y : ℕ} (h₁ : x < y + 32768) (h₂ : y < x + 32768) :
    seqNrCmpS (UInt16.ofNat x) (UInt16.ofNat y) = decide (x < y) := by
  simp only [seqNrCmpS, seqNrAbs, UInt16.lt_iff_toNat_lt, UInt16.toNat_ofNat', gt_iff_lt]
  split <;> simp only [decide_eq_decide] <;> omega

/-- Counting forward, `SeqNrDiff` is the number of packets in between. -/
theorem seqNrDiff_ofNat {x y : ℕ} (h₁ : x ≤ y) (h₂ : y ≤ x + 32768) :
    (seqNrDiff (UInt16.ofNat x) (UInt16.ofNat y)).toNat = y - x := by
  simp only [seqNrDiff, seqNrAbs, UInt16.lt_iff_toNat_lt, UInt16.toNat_ofNat', gt_iff_lt]
  split
  · rw [UInt16.toNat_sub, UInt16.toNat_ofNat', UInt16.toNat_ofNat']
    omega
  · split <;> rw [UInt16.toNat_ofNat'] <;> omega

/-- What is not `≤` is ahead, by at most half of the numbers. -/
theorem toNat_sub_of_not_cmpSE {a b : UInt16} (h : seqNrCmpSE a b = false) :
    0 < (a - b).toNat ∧ (a - b).toNat ≤ 32768 := by
  have ha := a.toNat_lt
  have hb := b.toNat_lt
  rw [UInt16.toNat_sub]
  simp only [seqNrCmpSE, seqNrAbs, UInt16.le_iff_toNat_le, UInt16.lt_iff_toNat_lt, gt_iff_lt] at h
  split at h
  · simp only [decide_eq_false_iff_not] at h
    omega
  · simp only [decide_eq_false_iff_not] at h
    omega

/-- Of two different numbers one is before the other. -/
theorem cmpS_of_not_cmpSE {a b : UInt16} (h : seqNrCmpSE a b = false) : seqNrCmpS b a = true := by
  simp only [seqNrCmpSE, seqNrCmpS, seqNrAbs, UInt16.le_iff_toNat_le, UInt16.lt_iff_toNat_lt,
    gt_iff_lt] at h ⊢
  split at h
  · simp only [decide_eq_false_iff_not] at h
    rw [if_pos (by omega), decide_eq_true_eq]
    omega
  · simp only [decide_eq_false_iff_not] at h
    rw [if_neg (by omega), decide_eq_true_eq]
    omega

end Utp
end KTorrent
