import Mathlib.Tactic
import Mathlib.Data.Nat.Digits.Lemmas

/-!
# Numbers as big-endian bytes

* `minimal` — the digits of a number in base 256, the most significant first, without
  leading zeros; `padded n` — with zeros in front, so that there are `n`.
* `number` — the number that a list of bytes stands for; `number_minimal` and
  `number_padded` read it back.
* `positional` — the number that digits of any base stand for; `positional_regroup` reads `k`
  digits at a time as one of the base `b ^ k`.
* `number_append_eq_iff` — digits with more bytes behind them stand for another number,
  unless all is zero.
-/

namespace BigEndian

/-- The base-256 digits, the most significant first, without leading zeros. -/
def minimal (v : ℕ) : List UInt8 := (Nat.digits 256 v).reverse.map UInt8.ofNat

/-- The digits with zeros in front, so that there are at least `n`. -/
def padded (n v : ℕ) : List UInt8 := List.replicate (n - (minimal v).length) 0 ++ minimal v

/-- The number the bytes stand for. -/
def number (bs : List UInt8) : ℕ := Nat.ofDigits 256 (bs.reverse.map UInt8.toNat)

variable {n v : ℕ} {bs cs : List UInt8}

@[simp] theorem number_nil : number [] = 0 := rfl

theorem number_append : number (bs ++ cs) = number bs * 256 ^ cs.length + number cs := by
  simp only [number, List.reverse_append, List.map_append, Nat.ofDigits_append,
    List.length_map, List.length_reverse]
  ring

@[simp] theorem number_zeros (n : ℕ) : number (List.replicate n 0) = 0 := by
  simp [number, Nat.ofDigits_replicate_zero]

@[simp] theorem number_minimal (v : ℕ) : number (minimal v) = v := by
  have hdigits : (Nat.digits 256 v).map (UInt8.toNat ∘ UInt8.ofNat) = Nat.digits 256 v := by
    conv_rhs => rw [← List.map_id (Nat.digits 256 v)]
    refine List.map_congr_left fun d hd => ?_
    have hlt : d < 256 := Nat.digits_lt_base (by decide) hd
    simp [Nat.mod_eq_of_lt hlt]
  simp [number, minimal, List.map_reverse, hdigits, Nat.ofDigits_digits]

@[simp] theorem number_padded (n v : ℕ) : number (padded n v) = v := by
  simp [padded, number_append]

theorem length_minimal_le_iff : (minimal v).length ≤ n ↔ v < 256 ^ n := by
  rw [minimal, List.length_map, List.length_reverse]
  exact Nat.digits_length_le_iff (by decide) v

theorem lt_length_minimal_iff : n < (minimal v).length ↔ 256 ^ n ≤ v := by
  rw [← not_le, length_minimal_le_iff, not_lt]

@[simp] theorem length_padded (hv : v < 256 ^ n) : (padded n v).length = n := by
  have hle : (minimal v).length ≤ n := length_minimal_le_iff.mpr hv
  rw [padded, List.length_append, List.length_replicate]
  omega

theorem number_lt (bs : List UInt8) : number bs < 256 ^ bs.length := by
  have hlt := Nat.ofDigits_lt_base_pow_length (b := 256) (l := bs.reverse.map UInt8.toNat)
    (by decide) fun d hd => by
      obtain ⟨b, -, rfl⟩ := List.mem_map.mp hd
      exact b.toNat_lt
  rwa [List.length_map, List.length_reverse] at hlt

/-- As many bytes that stand for the same number are the same. -/
theorem eq_of_number_eq (hlen : bs.length = cs.length) (h : number bs = number cs) : bs = cs := by
  have hdigits := Nat.ofDigits_inj_of_len_eq (b := 256) (by decide)
    (show (bs.reverse.map UInt8.toNat).length = (cs.reverse.map UInt8.toNat).length by
      simpa using hlen) (fun d hd => ?_) (fun d hd => ?_) h
  · have hmap := List.map_injective_iff.mpr (fun a b => UInt8.toNat_inj.mp) hdigits
    exact List.reverse_injective hmap
  all_goals
    obtain ⟨b, -, rfl⟩ := List.mem_map.mp hd
    exact b.toNat_lt

/-- Bytes are the digits of their number. -/
theorem padded_eq (hlen : bs.length = n) : padded n (number bs) = bs :=
  eq_of_number_eq ((length_padded (hlen ▸ number_lt bs)).trans hlen.symm) (number_padded _ _)

/-! ## Digits of any base -/

/-- The number that digits stand for, the most significant first. -/
def positional (b : ℕ) (ds : List ℕ) : ℕ := Nat.ofDigits b ds.reverse

theorem number_eq_positional (bs : List UInt8) :
    number bs = positional 256 (bs.map UInt8.toNat) := by
  rw [number, positional, List.map_reverse]

theorem positional_append (b : ℕ) (ds es : List ℕ) :
    positional b (ds ++ es) = positional b ds * b ^ es.length + positional b es := by
  rw [positional, List.reverse_append, Nat.ofDigits_append, List.length_reverse, positional,
    positional, Nat.mul_comm, Nat.add_comm]

theorem range_mul_map {α : Type*} (f : ℕ → α) (k n : ℕ) :
    (List.range (k * n)).map f
      = (List.range n).flatMap fun i => (List.range k).map fun j => f (k * i + j) := by
  induction n with
  | zero => rfl
  | succ n ih =>
    rw [Nat.mul_succ, List.range_add, List.map_append, ih, List.range_succ, List.flatMap_append,
      List.flatMap_singleton, List.map_map]
    rfl

/-- **`k` digits at a time** are the digits of a larger base. -/
theorem positional_regroup (b k : ℕ) (f : ℕ → ℕ) (n : ℕ) :
    positional (b ^ k) ((List.range n).map fun i =>
        positional b ((List.range k).map fun j => f (k * i + j)))
      = positional b ((List.range (k * n)).map f) := by
  induction n with
  | zero => rfl
  | succ n ih =>
    rw [List.range_succ, List.map_append, positional_append, ih, Nat.mul_succ, List.range_add,
      List.map_append, positional_append, List.map_map]
    simp [positional, Function.comp_def]

/-! ## More bytes behind -/

/-- Digits with more bytes behind them stand for the same number only when there are no
more, or when all is zero. -/
theorem number_append_eq_iff (hv : v ≠ 0) : number (minimal v ++ bs) = v ↔ bs = [] := by
  constructor
  · intro h
    rw [number_append, number_minimal] at h
    by_contra hne
    have hpos : 0 < bs.length := List.length_pos_iff.mpr hne
    have hpow : 2 ≤ 256 ^ bs.length := by
      calc 2 ≤ 256 ^ 1 := by decide
        _ ≤ 256 ^ bs.length := Nat.pow_le_pow_right (by decide) hpos
    have hmul : v * 2 ≤ v * 256 ^ bs.length := Nat.mul_le_mul_left v hpow
    omega
  · rintro rfl
    simp

/-- The digits at the front of `n` bytes stand for their number exactly when they are `n`. -/
theorem number_take_eq_iff (hv : v ≠ 0) (hlt : v < 256 ^ (n + 1))
    (hlen : n < (minimal v ++ bs).length) :
    number ((minimal v ++ bs).take (n + 1)) = v ↔ 256 ^ n ≤ v := by
  have hle : (minimal v).length ≤ n + 1 := length_minimal_le_iff.mpr hlt
  rw [List.length_append] at hlen
  rw [List.take_append, List.take_of_length_le hle, number_append_eq_iff hv,
    ← lt_length_minimal_iff, List.take_eq_nil_iff, ← List.length_eq_zero_iff]
  omega

/-- They are the number with zeros in front exactly then, too. -/
theorem take_eq_padded_iff (hv : v ≠ 0) (hlt : v < 256 ^ (n + 1))
    (hlen : n < (minimal v ++ bs).length) :
    (minimal v ++ bs).take (n + 1) = padded (n + 1) v ↔ 256 ^ n ≤ v := by
  constructor
  · intro h
    have hnumber := congrArg number h
    rw [number_padded] at hnumber
    exact (number_take_eq_iff hv hlt hlen).mp hnumber
  · intro h
    have hle : (minimal v).length ≤ n + 1 := length_minimal_le_iff.mpr hlt
    have hge : n < (minimal v).length := lt_length_minimal_iff.mpr h
    have heq : (minimal v).length = n + 1 := by omega
    rw [List.take_left' heq, padded, heq, Nat.sub_self]
    rfl

end BigEndian
