import Mathlib.Tactic

/-!
# Buffers of a fixed length

* `overwrite` — data stored over what a buffer holds at a position.
* `length_overwrite`, `take_overwrite`, `drop_overwrite` — the buffer keeps its length and
  what is in front of the data; from the position on it holds the data and what was
  behind them.
-/

namespace Buffer

variable {α : Type*}

/-- `d` stored over the elements of `buf` from position `off` on. -/
def overwrite (buf : List α) (off : ℕ) (d : List α) : List α :=
  buf.take off ++ d ++ buf.drop (off + d.length)

variable {buf d : List α} {off : ℕ}

theorem length_overwrite (h : off + d.length ≤ buf.length) :
    (overwrite buf off d).length = buf.length := by
  simp only [overwrite, List.length_append, List.length_take, List.length_drop]
  omega

theorem take_overwrite (h : off ≤ buf.length) : (overwrite buf off d).take off = buf.take off := by
  have hlen : (buf.take off).length = off := by simp [h]
  rw [overwrite, List.append_assoc, List.take_left' hlen]

theorem drop_overwrite (h : off ≤ buf.length) :
    (overwrite buf off d).drop off = d ++ buf.drop (off + d.length) := by
  have hlen : (buf.take off).length = off := by simp [h]
  rw [overwrite, List.append_assoc, List.drop_left' hlen]

theorem overwrite_zero (buf d : List α) : overwrite buf 0 d = d ++ buf.drop d.length := by
  simp [overwrite]

/-- What is stored behind the data stays. -/
theorem drop_overwrite_of_le {n : ℕ} (hn : off + d.length ≤ n) (h : off + d.length ≤ buf.length) :
    (overwrite buf off d).drop n = buf.drop n := by
  obtain ⟨k, rfl⟩ := Nat.exists_eq_add_of_le hn
  have hlen : (buf.take off ++ d).length = off + d.length := by
    rw [List.length_append, List.length_take]
    omega
  rw [overwrite, ← hlen, List.drop_length_add_append, List.drop_drop]

/-- Data stored behind a position, as they are seen from there. -/
theorem drop_overwrite_add {n : ℕ} (h : n + off ≤ buf.length) :
    (overwrite buf (n + off) d).drop n = overwrite (buf.drop n) off d := by
  have hle : n ≤ (buf.take (n + off)).length := by
    rw [List.length_take]
    omega
  rw [overwrite, List.append_assoc, List.drop_append_of_le_length hle, List.drop_take,
    Nat.add_sub_cancel_left, overwrite, List.drop_drop, List.append_assoc, Nat.add_assoc]

end Buffer
