import Mathlib.Tactic

/-!
# A list that arrives in pieces

Facts about the front of a list and the pieces behind it, for a receiver that has taken
the first `t` elements and is given the next piece.

* `next_piece` — the front grows by the piece.
* `take_eq_append_take` — so does every front between the two.
* `extend_drop` — what agreed with the front from some place on still does.
-/

namespace Pieces

variable {α : Type*} {l piece : List α} {pieces : List (List α)} {t m k : ℕ}

/-- The next piece of a list, and the pieces behind it. -/
theorem next_piece (hle : t ≤ l.length) (hflat : l = l.take t ++ (piece :: pieces).flatten) :
    l.take (t + piece.length) = l.take t ++ piece ∧ t + piece.length ≤ l.length ∧
      l = l.take (t + piece.length) ++ pieces.flatten := by
  have htake : (l.take t).length = t := by rw [List.length_take, min_eq_left hle]
  rw [List.flatten_cons, ← List.append_assoc] at hflat
  have hnext : l.take (t + piece.length) = l.take t ++ piece := by
    have hcut := congrArg (List.take (t + piece.length)) hflat
    rwa [List.take_left' (by rw [List.length_append, htake])] at hcut
  refine ⟨hnext, ?_, by rw [hnext]; exact hflat⟩
  have hlen := congrArg List.length hflat
  simp only [List.length_append, htake] at hlen
  omega

/-- The whole list has arrived when no piece is left. -/
theorem eq_length_of_no_pieces (hle : t ≤ l.length) (hflat : l = l.take t ++ [].flatten) :
    t = l.length := by
  have hlen := congrArg List.length hflat
  simp at hlen
  omega

/-- A front between two others. -/
theorem take_eq_append_drop_take (htm : t ≤ m) : l.take m = l.take t ++ (l.take m).drop t := by
  conv_lhs => rw [← List.take_append_drop t (l.take m)]
  rw [List.take_take, min_eq_left htm]

/-- What agreed with the front from `k` on still does when both grow by the same elements. -/
theorem extend_drop {buf : List α} (hlen : buf.length = t) (hle : t ≤ l.length) (htm : t ≤ m)
    (hk : k ≤ t) (h : buf.drop k = (l.take t).drop k) :
    (buf ++ (l.take m).drop t).drop k = (l.take m).drop k := by
  have htake : (l.take t).length = t := by rw [List.length_take, min_eq_left hle]
  conv_rhs => rw [take_eq_append_drop_take (l := l) htm]
  rw [List.drop_append_of_le_length (by omega), List.drop_append_of_le_length (by omega), h]

end Pieces
