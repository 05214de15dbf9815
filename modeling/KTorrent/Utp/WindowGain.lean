import KTorrent.Utp.RemoteWindow

/-!
# The gain of the congestion window

`updateWindowSize` adds a signed gain to an unsigned window and compares the sum with the
smallest window.  A sum below zero is a large number by then.

* `GainLaw` — the sum over the integers, kept above the smallest window.
* `gainLaw_iff` — the window follows it exactly when the sum is not below zero.
-/

namespace KTorrent.Utp.RemoteWindow

variable {w : RemoteWindow} {d : ℤ}

/-- **The law**: the window is the sum, or the smallest one; without a gain it does not grow. -/
structure GainLaw (w : RemoteWindow) (d : ℤ) : Prop where
  sum : ((w.updateWindowSize d).maxWindow : ℤ) = max (minPacketSize : ℤ) (w.maxWindow + d)
  loss : d ≤ 0 → minPacketSize ≤ w.maxWindow → (w.updateWindowSize d).maxWindow ≤ w.maxWindow

theorem updateWindowSize_of_nonneg (hnonneg : 0 ≤ (w.maxWindow : ℤ) + d)
    (hsum : (w.maxWindow : ℤ) + d < 2 ^ 32) :
    ((w.updateWindowSize d).maxWindow : ℤ) = max (minPacketSize : ℤ) (w.maxWindow + d) := by
  have hmod : ((w.maxWindow : ℤ) + d) % 2 ^ 32 = w.maxWindow + d :=
    Int.emod_eq_of_lt hnonneg hsum
  simp only [updateWindowSize, hmod]
  split <;> omega

/-- Below zero the sum wraps. -/
theorem updateWindowSize_of_neg (hneg : (w.maxWindow : ℤ) + d < 0) (hd : -2 ^ 31 ≤ d) :
    ((w.updateWindowSize d).maxWindow : ℤ) = w.maxWindow + d + 2 ^ 32 := by
  have hmod : ((w.maxWindow : ℤ) + d) % 2 ^ 32 = w.maxWindow + d + 2 ^ 32 := by
    rw [← Int.add_emod_right]
    exact Int.emod_eq_of_lt (by omega) (by omega)
  have hlarge : ¬ ((w.maxWindow : ℤ) + d + 2 ^ 32).toNat < minPacketSize := by
    rw [minPacketSize]
    omega
  simp only [updateWindowSize, hmod, if_neg hlarge]
  omega

/-- **The law holds** exactly when the window loses no more than it has. -/
theorem gainLaw_iff (w : RemoteWindow) (d : ℤ) (hd : -2 ^ 31 ≤ d)
    (hsum : (w.maxWindow : ℤ) + d < 2 ^ 32) : GainLaw w d ↔ 0 ≤ (w.maxWindow : ℤ) + d := by
  constructor
  · intro h
    by_contra hneg
    have hwrapped := updateWindowSize_of_neg (not_le.mp hneg) hd
    have hlaw := h.sum
    rw [minPacketSize] at hlaw
    omega
  · intro hnonneg
    have hlaw := updateWindowSize_of_nonneg hnonneg hsum
    exact ⟨hlaw, fun hloss hmin => by omega⟩

/-- A window of 2000 bytes that loses 500, and 1950. -/
theorem gainLaw_loss : GainLaw { RemoteWindow.new with maxWindow := 2000 } (-500) ∧
    GainLaw { RemoteWindow.new with maxWindow := 2000 } (-1950) :=
  ⟨(gainLaw_iff _ _ (by norm_num) (by norm_num)).mpr (by norm_num),
    (gainLaw_iff _ _ (by norm_num) (by norm_num)).mpr (by norm_num)⟩

/-- A window of 2000 bytes that loses 2001 has almost 4 GiB afterwards. -/
theorem gainLaw_wraps : ¬ GainLaw { RemoteWindow.new with maxWindow := 2000 } (-2001) := by
  intro h
  have hloss := h.loss (by norm_num) (by decide)
  revert hloss
  decide

end KTorrent.Utp.RemoteWindow
