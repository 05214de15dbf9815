import Mathlib.Tactic

/-!
# Files as lists

Reading and writing a file at a position.  A read returns what is there, which
may be less than asked for; a write behind the end of the file fills the gap.

* `getElem?_readAt`, `readAt_eq_of_forall` — what a read returns.
* `getElem?_writeAt_inside`, `getElem?_writeAt_outside` — what a write changes
  and what it keeps.
* `readAt_writeAt`, `take_writeAt` — what was written is read back.
-/

namespace ByteFile

variable {α : Type*}

/-- Up to `n` elements from position `off` on. -/
def readAt (f : List α) (off n : ℕ) : List α := (f.drop off).take n

/-- Store `buf` at position `off`; a gap is filled with `z`.  Writing nothing
changes nothing. -/
def writeAt (z : α) (f : List α) (off : ℕ) (buf : List α) : List α :=
  if buf = [] then f
  else f.take off ++ List.replicate (off - f.length) z ++ buf ++ f.drop (off + buf.length)

/-! ## Reading -/

theorem getElem?_readAt (f : List α) (off n i : ℕ) :
    (readAt f off n)[i]? = if i < n then f[off + i]? else none := by
  rw [readAt, List.getElem?_take, List.getElem?_drop]

theorem length_readAt (f : List α) (off n : ℕ) :
    (readAt f off n).length = min n (f.length - off) := by
  rw [readAt, List.length_take, List.length_drop]

/-- Two files that agree where they are read give the same result. -/
theorem readAt_eq_of_forall {f g : List α} {off off' n : ℕ}
    (h : ∀ i < n, f[off + i]? = g[off' + i]?) : readAt f off n = readAt g off' n := by
  apply List.ext_getElem?
  intro i
  rw [getElem?_readAt, getElem?_readAt]
  split
  · exact h i ‹_›
  · rfl

/-- A read that returns all it was asked for determines every element. -/
theorem exists_getElem?_of_length_readAt {f : List α} {off n i : ℕ}
    (h : (readAt f off n).length = n) (hi : i < n) : ∃ b, f[off + i]? = some b := by
  rw [length_readAt] at h
  have hlt : off + i < f.length := by omega
  exact ⟨f[off + i], List.getElem?_eq_getElem hlt⟩

/-! ## Writing -/

theorem length_writeAt (z : α) (f : List α) (off : ℕ) {buf : List α} (h : buf ≠ []) :
    (writeAt z f off buf).length = max f.length (off + buf.length) := by
  rw [writeAt, if_neg h]
  simp only [List.length_append, List.length_take, List.length_replicate, List.length_drop]
  omega

theorem writeAt_nil (z : α) (f : List α) (off : ℕ) : writeAt z f off [] = f := if_pos rfl

/-- The written elements. -/
theorem getElem?_writeAt_inside {z : α} {f buf : List α} {off i : ℕ} (h : off ≤ i)
    (hi : i < off + buf.length) : (writeAt z f off buf)[i]? = buf[i - off]? := by
  have hne : buf ≠ [] := by
    rintro rfl
    simp only [List.length_nil] at hi
    omega
  have hpre : (f.take off ++ List.replicate (off - f.length) z).length = off := by
    simp only [List.length_append, List.length_take, List.length_replicate]
    omega
  rw [writeAt, if_neg hne, List.getElem?_append_left (by
    rw [List.length_append, hpre]; omega), List.getElem?_append_right (by omega), hpre]

/-- What was written is read back. -/
theorem readAt_writeAt (z : α) (f : List α) (off : ℕ) (buf : List α) :
    readAt (writeAt z f off buf) off buf.length = buf := by
  apply List.ext_getElem?
  intro i
  rw [getElem?_readAt]
  by_cases hi : i < buf.length
  · rw [if_pos hi, getElem?_writeAt_inside (by omega) (by omega), Nat.add_sub_cancel_left]
  · rw [if_neg hi, List.getElem?_eq_none (by omega)]

/-- Up to the end of what was written, a file is what was in front of it and that. -/
theorem take_writeAt (z : α) {f : List α} {off : ℕ} (buf : List α) (h : off ≤ f.length) :
    (writeAt z f off buf).take (off + buf.length) = f.take off ++ buf := by
  by_cases hbuf : buf = []
  · rw [hbuf, writeAt_nil, List.length_nil, Nat.add_zero, List.append_nil]
  · have hlen : (f.take off ++ buf).length = off + buf.length := by
      rw [List.length_append, List.length_take]
      omega
    rw [writeAt, if_neg hbuf, Nat.sub_eq_zero_of_le h, List.replicate_zero, List.append_nil,
      List.take_append_of_le_length hlen.ge, List.take_of_length_le hlen.le]

/-- An element that is there and is not written over stays. -/
theorem getElem?_writeAt_outside {z : α} {f buf : List α} {off i : ℕ} (hlt : i < f.length)
    (h : i < off ∨ off + buf.length ≤ i) : (writeAt z f off buf)[i]? = f[i]? := by
  by_cases hbuf : buf = []
  · rw [hbuf, writeAt_nil]
  have hpre : (f.take off ++ List.replicate (off - f.length) z).length = off := by
    simp only [List.length_append, List.length_take, List.length_replicate]
    omega
  rw [writeAt, if_neg hbuf]
  rcases h with h | h
  · rw [List.append_assoc, List.getElem?_append_left (by omega),
      List.getElem?_append_left (by rw [List.length_take]; omega), List.getElem?_take, if_pos h]
  · rw [List.getElem?_append_right (by rw [List.length_append, hpre]; omega),
      List.length_append, hpre, List.getElem?_drop]
    congr 1
    omega

/-- What a file holds at a position after a write. -/
theorem getElem?_writeAt {z b : α} {f buf : List α} {off i : ℕ}
    (h : (if off ≤ i ∧ i < off + buf.length then buf[i - off]? else f[i]?) = some b) :
    (writeAt z f off buf)[i]? = some b := by
  split at h
  · rename_i hin
    rw [getElem?_writeAt_inside hin.1 hin.2, h]
  · rename_i hout
    have hlt : i < f.length := by
      by_contra hge
      rw [List.getElem?_eq_none (by omega)] at h
      exact Option.some_ne_none b h.symm
    rw [getElem?_writeAt_outside hlt (by omega), h]

end ByteFile
