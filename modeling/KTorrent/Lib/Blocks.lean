import KTorrent.Lib.Buffer

/-!
# Blocks of a list

A list cut into blocks of `k` elements; the last one may be shorter.

* `block`, `blockCount` — the blocks, and how many there are.
* `block_overwrite_self`, `block_overwrite_ne` — writing a block replaces it and no other.
* `eq_of_blocks` — a list is what its blocks are.
-/

namespace Blocks

open Buffer

variable {α : Type*} {k : ℕ} {l buf d : List α} {i j n : ℕ}

/-- Block `i`: the elements from `k * i` on, `k` of them or as many as there are. -/
def block (k : ℕ) (l : List α) (i : ℕ) : List α := (l.drop (k * i)).take k

/-- The number of blocks that `n` elements need. -/
def blockCount (k n : ℕ) : ℕ := n / k + if n % k > 0 then 1 else 0

theorem length_block : (block k l i).length = min k (l.length - k * i) := by
  rw [block, List.length_take, List.length_drop]

theorem lt_blockCount (hk : 0 < k) : i < blockCount k n ↔ k * i < n := by
  have hdiv := Nat.div_add_mod n k
  have hmod := Nat.mod_lt n hk
  rw [blockCount]
  constructor
  · intro h
    split at h
    · have hle : i ≤ n / k := Nat.lt_succ_iff.mp h
      have hmul := Nat.mul_le_mul_left k hle
      omega
    · have hle : i + 1 ≤ n / k := h
      have hmul := Nat.mul_le_mul_left k hle
      rw [Nat.mul_succ] at hmul
      omega
  · intro h
    by_contra hge
    split at hge
    · have hmul := Nat.mul_le_mul_left k (not_lt.mp hge)
      rw [Nat.mul_succ] at hmul
      omega
    · have hmul := Nat.mul_le_mul_left k (not_lt.mp hge)
      rw [Nat.add_zero] at hmul
      omega

/-- The last block has the rest of the elements, or `k` of them; the others have `k`. -/
theorem length_block_eq (hk : 0 < k) (hi : i < blockCount k l.length) :
    (block k l i).length
      = if i + 1 = blockCount k l.length ∧ l.length % k > 0 then l.length % k else k := by
  have hdiv := Nat.div_add_mod l.length k
  have hlt := (lt_blockCount hk).mp hi
  rw [length_block]
  split
  case isTrue hlast =>
    obtain ⟨hlast, hrest⟩ := hlast
    rw [blockCount, if_pos hrest, Nat.add_right_cancel_iff] at hlast
    have hmod := Nat.mod_lt l.length hk
    rw [hlast]
    omega
  case isFalse hnot =>
    have hnext : k * (i + 1) ≤ l.length := by
      by_contra hgt
      have hlast : i + 1 = blockCount k l.length := by
        refine le_antisymm hi (not_lt.mp fun hmore => hgt ?_)
        exact ((lt_blockCount hk).mp hmore).le
      refine hnot ⟨hlast, Nat.pos_of_ne_zero fun hzero => hgt ?_⟩
      rw [hlast, blockCount, if_neg (by omega), Nat.add_zero]
      omega
    rw [Nat.mul_succ] at hnext
    omega

theorem block_overwrite_self (hle : k * i + d.length ≤ buf.length)
    (hd : d.length = (block k buf i).length) : block k (overwrite buf (k * i) d) i = d := by
  have hoff : k * i ≤ buf.length := by omega
  rw [length_block] at hd
  rw [block, drop_overwrite hoff, List.take_append]
  have hrest : (buf.drop (k * i + d.length)).take (k - d.length) = [] := by
    rw [List.take_eq_nil_iff, List.drop_eq_nil_iff]
    omega
  rw [hrest, List.append_nil, List.take_of_length_le (by omega)]

theorem block_overwrite_ne (hle : k * i + d.length ≤ buf.length) (hd : d.length ≤ k)
    (hij : j ≠ i) : block k (overwrite buf (k * i) d) j = block k buf j := by
  have hoff : k * i ≤ buf.length := by omega
  rcases Nat.lt_or_gt_of_ne hij with hlt | hgt
  · -- the block lies before what was written
    have hmul := Nat.mul_le_mul_left k (Nat.succ_le_of_lt hlt)
    rw [Nat.mul_succ] at hmul
    have hbefore : ∀ l : List α, block k l j = ((l.take (k * i)).drop (k * j)).take k := by
      intro l
      rw [block, List.drop_take, List.take_take, Nat.min_eq_left (by omega)]
    rw [hbefore, hbefore, take_overwrite hoff]
  · have hmul := Nat.mul_le_mul_left k (Nat.succ_le_of_lt hgt)
    rw [Nat.mul_succ] at hmul
    obtain ⟨m, hm⟩ := Nat.exists_eq_add_of_le (show k * i + d.length ≤ k * j by omega)
    rw [block, block, hm, Nat.add_assoc, ← List.drop_drop, drop_overwrite hoff, List.drop_append,
      List.drop_eq_nil_of_le (by omega), List.nil_append, List.drop_drop, Nat.add_sub_cancel_left,
      Nat.add_assoc]

/-- **A list is what its blocks are.** -/
theorem eq_of_blocks {m : List α} (hk : 0 < k) (hlen : l.length = m.length)
    (h : ∀ i < blockCount k m.length, block k l i = block k m i) : l = m := by
  have hget : ∀ (l : List α) (p : ℕ), l[p]? = (block k l (p / k))[p % k]? := by
    intro l p
    rw [block, List.getElem?_take_of_lt (Nat.mod_lt p hk), List.getElem?_drop, Nat.div_add_mod]
  refine List.ext_getElem? fun p => ?_
  by_cases hp : p < m.length
  · rw [hget, hget m, h]
    exact (lt_blockCount hk).mpr (lt_of_le_of_lt (Nat.mul_div_le p k) hp)
  · rw [List.getElem?_eq_none (by omega), List.getElem?_eq_none (by omega)]

end Blocks
