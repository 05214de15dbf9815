import Mathlib.Tactic

/-!
# Upper bound

The search of `std::upper_bound`: it halves a range of positions in which the
elements above the value come last, and returns the first of them.

* `upperBound` — the loop.
* `upperBound_eq` — on a range split at `k` it returns `k`.
* `upperBound_findIdx` — over a list in which `p` stays true it finds the first element with `p`.
-/

namespace Search

/-- The loop of `std::upper_bound` over the `len` positions from `first` on;
`above i` says that the element at `i` is greater than the value. -/
def upperBound (above : ℕ → Bool) (first len : ℕ) : ℕ :=
  if len = 0 then first
  else
    let half := len / 2
    if above (first + half) then upperBound above first half
    else upperBound above (first + half + 1) (len - half - 1)
termination_by len

/-- **The search finds where the range is split.** -/
theorem upperBound_eq {above : ℕ → Bool} {k : ℕ} :
    ∀ {len first : ℕ}, first ≤ k → k ≤ first + len →
      (∀ i, first ≤ i → i < first + len → above i = decide (k ≤ i)) →
      upperBound above first len = k := by
  intro len
  induction len using Nat.strong_induction_on with
  | _ len ih =>
    intro first hle hge habove
    unfold upperBound
    split
    · omega
    · rename_i hlen
      have hmid : above (first + len / 2) = decide (k ≤ first + len / 2) :=
        habove _ (by omega) (by omega)
      simp only [hmid, decide_eq_true_eq]
      split
      · rename_i hk
        apply ih (len / 2) (by omega) hle hk
        intro i hi hlt
        exact habove i hi (by omega)
      · rename_i hk
        apply ih (len - len / 2 - 1) (by omega) (by omega) (by omega)
        intro i hi hlt
        exact habove i (by omega) (by omega)

/-- **Over a list** in which `p` stays true, the search finds the first element with `p`. -/
theorem upperBound_findIdx {α : Type*} {p : α → Bool} {l : List α}
    (hsplit : l.Pairwise fun a b => p a = true → p b = true) :
    upperBound (fun i => (l[i]?).all p) 0 l.length = l.findIdx p := by
  refine upperBound_eq (Nat.zero_le _) (by simpa using List.findIdx_le_length) ?_
  intro i _ hi
  have hlt : i < l.length := by omega
  simp only [List.getElem?_eq_getElem hlt, Option.all_some]
  by_cases hfound : l.findIdx p ≤ i
  · have hin : l.findIdx p < l.length := by omega
    have hfirst : p l[l.findIdx p] = true := List.findIdx_getElem
    rw [decide_eq_true hfound]
    rcases hfound.eq_or_lt with heq | hless
    · simpa only [heq] using hfirst
    · exact List.pairwise_iff_getElem.mp hsplit _ i (by omega) hlt hless hfirst
  · rw [decide_eq_false hfound]
    simpa using List.not_of_lt_findIdx (not_le.mp hfound)

end Search
