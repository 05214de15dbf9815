import KTorrent.Lib.Buffer

/-!
# Rings

A list of fixed length used as a ring: a run of its elements that may go over the
end and on at the front.

* `wrap` — a position after at most one time around; `mod_once` — as a remainder.
* `contents` — the elements from a position on.
* `store` — elements written from a position on.
* `contents_store` — what is stored behind the contents comes after them.
* `contents_drop` — moving the position on drops elements from the front.
-/

namespace Ring

open Buffer

variable {α : Type*}

/-- A position after at most one time around. -/
def wrap (n i : ℕ) : ℕ := if i < n then i else i - n

/-- A remainder of less than twice the divisor. -/
theorem mod_once {a n : ℕ} (h : a < 2 * n) : a % n = wrap n a := by
  unfold wrap
  split_ifs with hlt
  · exact Nat.mod_eq_of_lt hlt
  · rw [Nat.mod_eq_sub_mod (not_lt.mp hlt), Nat.mod_eq_of_lt (by omega)]

/-- `size` elements from `start` on. -/
def contents (data : List α) (start size : ℕ) : List α :=
  (data.drop start ++ data.take start).take size

/-- Elements stored from `pos` on, over the end if they have to. -/
def store (data : List α) (pos : ℕ) (src : List α) : List α :=
  if pos + src.length ≤ data.length then overwrite data pos src
  else overwrite (overwrite data pos (src.take (data.length - pos))) 0
    (src.drop (data.length - pos))

variable {data src : List α} {start size pos i n : ℕ}

theorem length_contents (hstart : start ≤ data.length) (hsize : size ≤ data.length) :
    (contents data start size).length = size := by
  simp only [contents, List.length_take, List.length_append, List.length_drop]
  omega

/-- Contents that do not go over the end. -/
theorem contents_inside (hstart : start + size ≤ data.length) :
    contents data start size = (data.drop start).take size := by
  rw [contents, List.take_append_of_le_length]
  rw [List.length_drop]
  omega

/-- Contents that do. -/
theorem contents_over (hover : data.length < start + size) (hstart : start ≤ data.length)
    (hsize : size ≤ data.length) :
    contents data start size = data.drop start ++ data.take (size - (data.length - start)) := by
  have hlen : (data.drop start).length = data.length - start := List.length_drop
  rw [contents, List.take_append, List.take_of_length_le (by omega), List.take_take, hlen,
    min_eq_left (by omega)]

theorem getElem?_contents (hstart : start < data.length) (hsize : size ≤ data.length)
    (hi : i < size) : (contents data start size)[i]? = data[wrap data.length (start + i)]? := by
  rw [contents, List.getElem?_take_of_lt hi, wrap]
  split_ifs with hin
  · rw [List.getElem?_append_left (by rw [List.length_drop]; omega), List.getElem?_drop]
  · rw [List.getElem?_append_right (by rw [List.length_drop]; omega), List.length_drop,
      List.getElem?_take_of_lt (by omega)]
    congr 1
    omega

theorem contents_take (hn : n ≤ size) :
    (contents data start size).take n = contents data start n := by
  rw [contents, contents, List.take_take, min_eq_left hn]

/-- **Reading.**  Moving the position on drops elements from the front. -/
theorem contents_drop (hstart : start < data.length) (hsize : size ≤ data.length) (hn : n ≤ size) :
    contents data (wrap data.length (start + n)) (size - n) = (contents data start size).drop n := by
  have hwrap : wrap data.length (start + n) < data.length := by
    unfold wrap
    split_ifs <;> omega
  apply List.ext_getElem?
  intro i
  rw [List.getElem?_drop]
  rcases Nat.lt_or_ge i (size - n) with hi | hi
  · rw [getElem?_contents hwrap (by omega) hi, getElem?_contents hstart hsize (by omega)]
    congr 1
    unfold wrap
    split_ifs <;> omega
  · rw [List.getElem?_eq_none, List.getElem?_eq_none]
    · rw [length_contents hstart.le hsize]
      omega
    · rw [length_contents hwrap.le (by omega)]
      exact hi

/-! ## Storing -/

theorem getElem?_overwrite (h : pos + src.length ≤ data.length) (j : ℕ) :
    (overwrite data pos src)[j]? =
      if pos ≤ j ∧ j < pos + src.length then src[j - pos]? else data[j]? := by
  have hlen : (data.take pos).length = pos := List.length_take_of_le (by omega)
  unfold overwrite
  rcases Nat.lt_or_ge j pos with hlt | hge
  · rw [if_neg (by omega), List.append_assoc, List.getElem?_append_left (by omega),
      List.getElem?_take_of_lt hlt]
  · rw [List.append_assoc, List.getElem?_append_right (by omega), hlen]
    rcases Nat.lt_or_ge j (pos + src.length) with hin | hout
    · rw [if_pos ⟨hge, hin⟩, List.getElem?_append_left (by omega)]
    · rw [if_neg (by omega), List.getElem?_append_right (by omega), List.getElem?_drop]
      congr 1
      omega

theorem length_store (hpos : pos < data.length) (hsrc : src.length ≤ data.length) :
    (store data pos src).length = data.length := by
  unfold store
  split_ifs with hin
  · exact length_overwrite hin
  · have hfirst : (overwrite data pos (src.take (data.length - pos))).length = data.length :=
      length_overwrite (by rw [List.length_take]; omega)
    rw [length_overwrite (by rw [hfirst, List.length_drop]; omega), hfirst]

theorem getElem?_store (hpos : pos < data.length) (hsrc : src.length ≤ data.length) {j : ℕ}
    (hj : j < data.length) : (store data pos src)[j]? =
      if pos ≤ j ∧ j < pos + src.length then src[j - pos]?
      else if j + data.length < pos + src.length then src[j + data.length - pos]?
      else data[j]? := by
  unfold store
  split_ifs with hin hhit hover hhit hover
  · rw [getElem?_overwrite hin, if_pos hhit]
  · omega
  · rw [getElem?_overwrite hin, if_neg hhit]
  all_goals
    have htake : (src.take (data.length - pos)).length = data.length - pos :=
      List.length_take_of_le (by omega)
    have hdrop : (src.drop (data.length - pos)).length = src.length - (data.length - pos) :=
      List.length_drop
    have hfirst : (overwrite data pos (src.take (data.length - pos))).length = data.length :=
      length_overwrite (by omega)
    rw [getElem?_overwrite (by omega), getElem?_overwrite (by omega), htake, hdrop]
  · rw [if_neg (by omega), if_pos (by omega), List.getElem?_take_of_lt (by omega)]
  · rw [if_pos (by omega), List.getElem?_drop]
    congr 1
    omega
  · rw [if_neg (by omega), if_neg (by omega)]

/-- **Writing.**  What is stored behind the contents comes after them. -/
theorem contents_store (hstart : start < data.length) (hroom : size + src.length ≤ data.length) :
    contents (store data (wrap data.length (start + size)) src) start (size + src.length) =
      contents data start size ++ src := by
  have hpos : wrap data.length (start + size) < data.length := by
    unfold wrap
    split_ifs <;> omega
  have hlen := length_store hpos (show src.length ≤ data.length by omega)
  have hold := length_contents hstart.le (show size ≤ data.length by omega)
  apply List.ext_getElem?
  intro i
  rcases Nat.lt_or_ge i (size + src.length) with hi | hi
  · have hwrap : wrap data.length (start + i) < data.length := by
      unfold wrap
      split_ifs <;> omega
    rw [getElem?_contents (by omega) (by omega) hi, hlen, getElem?_store hpos (by omega) hwrap]
    rcases Nat.lt_or_ge i size with hin | hout
    · rw [List.getElem?_append_left (by omega), getElem?_contents hstart (by omega) hin,
        if_neg (by unfold wrap; split_ifs <;> omega), if_neg (by unfold wrap; split_ifs <;> omega)]
    · rw [List.getElem?_append_right (by omega), hold]
      unfold wrap
      split_ifs
      all_goals first
        | omega
        | (congr 1; omega)
  · rw [List.getElem?_eq_none, List.getElem?_eq_none]
    · rw [List.length_append]
      omega
    · rw [length_contents (by omega) (by omega)]
      exact hi

end Ring
