import Mathlib.Tactic

/-!
# Searching a list for a pattern

A list is searched for the first place where a pattern stands, and it is split where the
pattern stands.

* `indexOf` — the first place; `indexOf_eq_some_iff`, `indexOf_eq_none_iff` — what it is.
* `indexOf_take`, `indexOf_take_eq_none` — the search in a list of which only the front is there
  finds the pattern as soon as it is there whole, and nothing before that.
* `indexOf_append_of_notMem` — a front without the first element of the pattern is skipped.
* `splitOn` — the parts between the patterns; `splitOn_append_of_notMem` — the first of them.
-/

namespace Pattern

variable {α : Type*} [DecidableEq α]

/-- The first place at which `p` stands. -/
def indexOf (p : List α) : List α → Option ℕ
  | [] => if p = [] then some 0 else none
  | c :: s => if p <+: c :: s then some 0 else (indexOf p s).map (· + 1)

/-- The parts of a list between the patterns; the first `skip` elements belong to a pattern. -/
def splitOn (p : List α) : ℕ → List α → List (List α)
  | _, [] => [[]]
  | skip + 1, _ :: s => splitOn p skip s
  | 0, c :: s =>
    if p <+: c :: s then [] :: splitOn p (p.length - 1) s
    else (splitOn p 0 s).modifyHead (c :: ·)

variable {p s l : List α} {i m : ℕ} {c : α}

theorem indexOf_eq_none_iff (hp : p ≠ []) : indexOf p s = none ↔ ∀ j, ¬ p <+: s.drop j := by
  induction s with
  | nil => simp [indexOf, hp]
  | cons c s ih =>
    rw [indexOf]
    by_cases hc : p <+: c :: s
    · rw [if_pos hc]
      exact iff_of_false (by simp) fun h => h 0 hc
    · rw [if_neg hc, Option.map_eq_none_iff, ih]
      refine ⟨fun h j => ?_, fun h j => h (j + 1)⟩
      cases j with
      | zero => exact hc
      | succ j => exact h j

theorem indexOf_eq_some_iff (hp : p ≠ []) :
    indexOf p s = some i ↔ p <+: s.drop i ∧ ∀ j < i, ¬ p <+: s.drop j := by
  induction s generalizing i with
  | nil => simp [indexOf, hp]
  | cons c s ih =>
    rw [indexOf]
    by_cases hc : p <+: c :: s
    · rw [if_pos hc, Option.some.injEq]
      constructor
      · rintro rfl
        exact ⟨hc, fun j hj => absurd hj (by omega)⟩
      · rintro ⟨-, hfirst⟩
        by_contra hne
        exact hfirst 0 (by omega) hc
    · rw [if_neg hc]
      cases i with
      | zero => simp [hc]
      | succ i =>
        have hmap : (indexOf p s).map (· + 1) = some (i + 1) ↔ indexOf p s = some i := by
          cases indexOf p s <;> simp
        rw [hmap, ih, List.drop_succ_cons]
        refine and_congr_right fun _ => ⟨fun h j hj => ?_, fun h j hj => h (j + 1) (by omega)⟩
        cases j with
        | zero => exact hc
        | succ j => exact h j (by omega)

omit [DecidableEq α] in
/-- A place in the front of a list. -/
theorem prefix_drop_take {j : ℕ} :
    p <+: (s.take m).drop j ↔ p <+: s.drop j ∧ p.length ≤ m - j := by
  rw [List.drop_take, List.prefix_take_iff]

/-- **The pattern is found as soon as it is there whole.** -/
theorem indexOf_take (h : indexOf p s = some i) (hp : p ≠ []) (hm : i + p.length ≤ m) :
    indexOf p (s.take m) = some i := by
  obtain ⟨hat, hfirst⟩ := (indexOf_eq_some_iff hp).mp h
  refine (indexOf_eq_some_iff hp).mpr ⟨prefix_drop_take.mpr ⟨hat, by omega⟩, fun j hj => ?_⟩
  rw [prefix_drop_take]
  exact fun hc => hfirst j hj hc.1

/-- Before that nothing is found. -/
theorem indexOf_take_eq_none (h : indexOf p s = some i) (hp : p ≠ []) (hm : m < i + p.length) :
    indexOf p (s.take m) = none := by
  obtain ⟨-, hfirst⟩ := (indexOf_eq_some_iff hp).mp h
  have hlen := List.length_pos_iff.mpr hp
  refine (indexOf_eq_none_iff hp).mpr fun j => ?_
  rw [prefix_drop_take]
  rintro ⟨hat, hle⟩
  by_cases hj : j < i
  · exact hfirst j hj hat
  · omega

/-- A front in which the pattern cannot start. -/
theorem indexOf_append_of_notMem (hc : c ∉ l) :
    indexOf (c :: p) (l ++ s) = (indexOf (c :: p) s).map (l.length + ·) := by
  induction l with
  | nil => simp
  | cons d l ih =>
    rw [List.mem_cons, not_or] at hc
    have hnot : ¬ c :: p <+: d :: (l ++ s) := fun h => hc.1 (List.cons_prefix_cons.mp h).1
    rw [List.cons_append, indexOf, if_neg hnot, ih hc.2, Option.map_map]
    congr 1
    funext n
    simp only [Function.comp_apply, List.length_cons]
    omega

theorem splitOn_ne_nil (p s : List α) (skip : ℕ) : splitOn p skip s ≠ [] := by
  induction s generalizing skip with
  | nil => cases skip <;> exact List.cons_ne_nil _ _
  | cons c s ih =>
    cases skip with
    | succ skip => exact ih skip
    | zero =>
      rw [splitOn]
      split
      · exact List.cons_ne_nil _ _
      · obtain ⟨l, ls, hl⟩ := List.exists_cons_of_ne_nil (ih 0)
        rw [hl]
        exact List.cons_ne_nil _ _

theorem splitOn_append_of_notMem (hc : c ∉ l) :
    splitOn (c :: p) 0 (l ++ s) = (splitOn (c :: p) 0 s).modifyHead (l ++ ·) := by
  induction l with
  | nil =>
    rw [List.nil_append]
    cases splitOn (c :: p) 0 s <;> rfl
  | cons d l ih =>
    rw [List.mem_cons, not_or] at hc
    have hnot : ¬ c :: p <+: d :: (l ++ s) := fun h => hc.1 (List.cons_prefix_cons.mp h).1
    rw [List.cons_append, splitOn, if_neg hnot, ih hc.2]
    cases splitOn (c :: p) 0 s <;> rfl

end Pattern
