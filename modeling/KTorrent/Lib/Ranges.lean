import Mathlib.Tactic

/-!
# Ranges that lie one behind the other

A list of things, each with a first and a last number, tiles the numbers from `lo`
up to `hi` when each range begins where the one before it ended.

* `tiles_append` — a tiling is cut between any two ranges, and ranges that tile the
  same numbers take the place of others.
* `Tiles.countP_inside`, `Tiles.countP_outside` — a number is in exactly one range, or
  in none.
* `Tiles.pairwise` — the ranges are in increasing order.
-/

namespace Ranges

variable {α β : Type*} {first last : α → ℕ} {lo hi k : ℕ} {l : List α}

/-- The ranges tile the numbers from `lo` up to `hi`, which is not one of them. -/
def Tiles (first last : α → ℕ) : ℕ → List α → ℕ → Prop
  | lo, [], hi => lo = hi
  | lo, a :: l, hi => first a = lo ∧ first a ≤ last a ∧ Tiles first last (last a + 1) l hi

/-- The number is in the range. -/
def covers (first last : α → ℕ) (k : ℕ) (a : α) : Bool := first a ≤ k ∧ k ≤ last a

theorem tiles_cons {a : α} :
    Tiles first last lo (a :: l) hi ↔
      first a = lo ∧ first a ≤ last a ∧ Tiles first last (last a + 1) l hi :=
  Iff.rfl

theorem tiles_append {l' : List α} :
    Tiles first last lo (l ++ l') hi ↔
      ∃ mid, Tiles first last lo l mid ∧ Tiles first last mid l' hi := by
  induction l generalizing lo with
  | nil => exact ⟨fun h => ⟨lo, rfl, h⟩, fun ⟨_, hmid, h⟩ => hmid ▸ h⟩
  | cons a l ih =>
    rw [List.cons_append, tiles_cons, ih]
    constructor
    · rintro ⟨hlo, hle, mid, hl, hl'⟩
      exact ⟨mid, ⟨hlo, hle, hl⟩, hl'⟩
    · rintro ⟨mid, ⟨hlo, hle, hl⟩, hl'⟩
      exact ⟨hlo, hle, mid, hl, hl'⟩

theorem Tiles.le (h : Tiles first last lo l hi) : lo ≤ hi := by
  induction l generalizing lo with
  | nil => exact Nat.le_of_eq h
  | cons a l ih =>
    obtain ⟨hlo, hle, hl⟩ := h
    have hrest := ih hl
    omega

/-- Every range lies between the ends. -/
theorem Tiles.bounds (h : Tiles first last lo l hi) {a : α} (ha : a ∈ l) :
    lo ≤ first a ∧ first a ≤ last a ∧ last a < hi := by
  induction l generalizing lo with
  | nil => cases ha
  | cons b l ih =>
    obtain ⟨hlo, hle, hl⟩ := h
    rcases List.mem_cons.mp ha with rfl | ha
    · exact ⟨hlo.ge, hle, hl.le⟩
    · obtain ⟨hfirst, hrest⟩ := ih hl ha
      exact ⟨by omega, hrest⟩

theorem Tiles.pairwise (h : Tiles first last lo l hi) : l.Pairwise fun a b => last a < first b := by
  induction l generalizing lo with
  | nil => exact List.Pairwise.nil
  | cons a l ih =>
    obtain ⟨-, -, hl⟩ := h
    exact List.pairwise_cons.mpr ⟨fun b hb => (hl.bounds hb).1, ih hl⟩

/-- Two ranges of a tiling with a common number are one. -/
theorem Tiles.unique (h : Tiles first last lo l hi) {a b : α} (ha : a ∈ l) (hb : b ∈ l)
    (hka : first a ≤ k ∧ k ≤ last a) (hkb : first b ≤ k ∧ k ≤ last b) : a = b := by
  induction l generalizing lo with
  | nil => cases ha
  | cons c l ih =>
    obtain ⟨-, -, hl⟩ := h
    rcases List.mem_cons.mp ha with rfl | ha' <;> rcases List.mem_cons.mp hb with rfl | hb'
    · rfl
    · have hbounds := hl.bounds hb'
      omega
    · have hbounds := hl.bounds ha'
      omega
    · exact ih hl ha' hb'

/-- No range has a number outside the ends. -/
theorem Tiles.countP_outside (h : Tiles first last lo l hi) (hk : k < lo ∨ hi ≤ k) :
    l.countP (covers first last k) = 0 := by
  refine List.countP_eq_zero.mpr fun a ha hin => ?_
  obtain ⟨hfirst, -, hlast⟩ := h.bounds ha
  obtain ⟨hk₁, hk₂⟩ := of_decide_eq_true hin
  omega

/-- **Exactly one range has a number between the ends.** -/
theorem Tiles.countP_inside (h : Tiles first last lo l hi) (hlo : lo ≤ k) (hhi : k < hi) :
    l.countP (covers first last k) = 1 := by
  induction l generalizing lo with
  | nil =>
    have hends : lo = hi := h
    omega
  | cons a l ih =>
    obtain ⟨hfirst, hle, hl⟩ := h
    by_cases hk : k ≤ last a
    · have hrest := hl.countP_outside (k := k) (.inl (by omega))
      have hin : covers first last k a := decide_eq_true ⟨by omega, hk⟩
      rw [List.countP_cons_of_pos hin, hrest]
    · have hout : ¬ covers first last k a := fun hin => hk (of_decide_eq_true hin).2
      rw [List.countP_cons_of_neg hout]
      exact ih hl (by omega)

end Ranges
