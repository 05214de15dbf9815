import KTorrent.Dht.Key
import KTorrent.Util.Constants

/-!
# The arithmetic of keys

The loops of the operators of `dht/key.cpp` compute in unsigned numbers of 64
bits and store words of 32.  Here they are written with every reduction, and
nothing is lost: the operators of `Key` are these loops.

* `addLoop`, `addValueLoop`, `divLoop` — the loops; `subLoop` stands with `Key`.
* `add64`, `addValue64`, `div64`, `mid64` — the operators made of them.
* `arithmetic` — the operators are the operations on numbers modulo `2 ^ 160`.
-/

namespace KTorrent
namespace Key

/-! ## The loops -/

/-- The loop of `operator+`: the words, and the sum that is left. -/
def addLoop : List ℕ → List ℕ → List ℕ × ℕ
  | a :: as, b :: bs =>
    let r := addLoop as bs
    let sum := u64 (r.2 + u64 (a + b))
    (u32 sum :: r.1, sum / 2 ^ 32)
  | _, _ => ([], 0)

/-- The loop of `operator+` for a small number, which stops when no sum is left. -/
def addValueLoop (value : ℕ) : List ℕ → List ℕ × ℕ
  | [] => ([], value)
  | a :: as =>
    let r := addValueLoop value as
    if r.2 = 0 then (a :: r.1, 0)
    else
      let sum := u64 (r.2 + a)
      (u32 sum :: r.1, sum / 2 ^ 32)

/-- The loop of `operator/`, with the remainder of the words before. -/
def divLoop (value : ℕ) : ℕ → List ℕ → List ℕ
  | _, [] => []
  | remainder, h :: hs =>
    u32 (u64 (h + remainder) / value) :: divLoop value (u64 (u64 (h + remainder) % value * 2 ^ 32)) hs

/-! ## Nothing is lost -/

variable {as bs : List ℕ}

theorem addLoop_eq (ha : Words.InBase (2 ^ 32) as) (hb : Words.InBase (2 ^ 32) bs) :
    addLoop as bs = Words.addWords (2 ^ 32) as bs 0 ∧ (addLoop as bs).2 ≤ 1 := by
  induction as generalizing bs with
  | nil => exact ⟨rfl, Nat.zero_le _⟩
  | cons a as ih =>
    cases bs with
    | nil => exact ⟨rfl, Nat.zero_le _⟩
    | cons b bs =>
      obtain ⟨haB, has⟩ := Words.inBase_cons.mp ha
      obtain ⟨hbB, hbs⟩ := Words.inBase_cons.mp hb
      obtain ⟨heq, hcarry⟩ := ih has hbs
      have hsum : u64 ((addLoop as bs).2 + u64 (a + b)) = (addLoop as bs).2 + (a + b) := by
        rw [u64_of_lt (n := a + b) (by omega), u64_of_lt (by omega)]
      rw [addLoop, Words.addWords, ← heq]
      dsimp only
      rw [hsum]
      exact ⟨rfl, by omega⟩

theorem addValueLoop_eq {value : ℕ} (hvalue : value < 2 ^ 8) (ha : Words.InBase (2 ^ 32) as) :
    addValueLoop value as = Words.addWord (2 ^ 32) as value ∧
      (addValueLoop value as).2 < 2 ^ 8 := by
  induction as with
  | nil => exact ⟨rfl, hvalue⟩
  | cons a as ih =>
    obtain ⟨haB, has⟩ := Words.inBase_cons.mp ha
    obtain ⟨heq, hcarry⟩ := ih has
    have hsum : u64 ((addValueLoop value as).2 + a) = (addValueLoop value as).2 + a :=
      u64_of_lt (by omega)
    rw [addValueLoop, Words.addWord, ← heq]
    dsimp only
    rw [hsum]
    split
    · exact ⟨rfl, by norm_num⟩
    · exact ⟨rfl, by omega⟩

theorem divLoop_eq {value : ℕ} (hpos : 0 < value) (hint : value < 2 ^ 31) :
    ∀ {as : List ℕ} {r : ℕ}, Words.InBase (2 ^ 32) as → r < value →
      divLoop value (r * 2 ^ 32) as = Words.divWords (2 ^ 32) value r as := by
  intro as
  induction as with
  | nil => exact fun _ _ => rfl
  | cons a as ih =>
    intro r ha hr
    obtain ⟨haB, has⟩ := Words.inBase_cons.mp ha
    have hsum : u64 (a + r * 2 ^ 32) = a + r * 2 ^ 32 := u64_of_lt (by omega)
    have hrest : (a + r * 2 ^ 32) % value < value := Nat.mod_lt _ hpos
    have hquotient : (a + r * 2 ^ 32) / value < 2 ^ 32 := by
      refine Nat.div_lt_of_lt_mul ?_
      calc a + r * 2 ^ 32 < (r + 1) * 2 ^ 32 := by omega
        _ ≤ value * 2 ^ 32 := Nat.mul_le_mul_right _ hr
    rw [divLoop, Words.divWords, hsum, u32_of_lt hquotient, u64_of_lt (by omega), ih has hrest]

/-! ## The operators -/

variable (a b : Key)

/-- `operator+`, in numbers of 64 bits. -/
def add64 : Key :=
  ofWords (addLoop a.words b.words).1 (by
    rw [(addLoop_eq a.words_spec.2.1 b.words_spec.2.1).1,
      Words.addWords_length (by rw [a.words_spec.1, b.words_spec.1]), a.words_spec.1])

/-- `operator+` with a small number, in numbers of 64 bits. -/
def addValue64 (value : UInt8) : Key :=
  ofWords (addValueLoop value.toNat a.words).1 (by
    rw [(addValueLoop_eq value.toNat_lt a.words_spec.2.1).1, Words.addWord_length, a.words_spec.1])

theorem divLoop_length (value : ℕ) : ∀ (as : List ℕ) (r : ℕ), (divLoop value r as).length = as.length := by
  intro as
  induction as with
  | nil => exact fun _ => rfl
  | cons a as ih => exact fun r => congrArg Nat.succ (ih _)

/-- `operator/`, in numbers of 64 bits. -/
def div64 (value : ℕ) : Key :=
  ofWords (divLoop value 0 a.words) (by rw [divLoop_length, a.words_spec.1])

/-- `Key::mid`, in numbers of 64 bits. -/
def mid64 : Key := if a ≤ b then add64 a (div64 (b - a) 2) else add64 b (div64 (a - b) 2)

theorem add64_eq : add64 a b = a + b := by
  have h := (addLoop_eq a.words_spec.2.1 b.words_spec.2.1).1
  exact Subtype.ext (congrArg (fun r : List ℕ × ℕ => bytesOf r.1) h)

theorem addValue64_eq (v : UInt8) : addValue64 a v = a.addValue v := by
  have h := (addValueLoop_eq v.toNat_lt a.words_spec.2.1).1
  exact Subtype.ext (congrArg (fun r : List ℕ × ℕ => bytesOf r.1) h)

theorem div64_eq {n : ℕ} (hpos : 0 < n) (hint : n < 2 ^ 31) : div64 a n = a.div n := by
  have h := divLoop_eq hpos hint a.words_spec.2.1 hpos
  rw [zero_mul] at h
  exact Subtype.ext (congrArg bytesOf h)

theorem mid64_eq : mid64 a b = mid a b := by
  rw [mid64, mid, add64_eq, add64_eq, div64_eq _ (by decide) (by decide),
    div64_eq _ (by decide) (by decide)]

/-- `memcmp` of the hashes, which all comparisons look at. -/
def memcmp : Ordering := Words.memcmp (a.1.map UInt8.toNat) (b.1.map UInt8.toNat)

/-- `operator==`. -/
def eqHash : Bool := memcmp a b = .eq

/-- `operator!=`. -/
def neHash : Bool := !eqHash a b

/-- `operator>`. -/
def gtHash : Bool := memcmp a b = .gt

/-- `operator>=`. -/
def geHash : Bool := memcmp a b ≠ .lt

/-- The difference modulo `2 ^ 160`. -/
theorem toNat_sub_mod : (a - b).toNat = (a.toNat + 2 ^ 160 - b.toNat) % 2 ^ 160 := by
  obtain ⟨hlen, hbase, hvalue⟩ := a.words_spec
  obtain ⟨hlen', hbase', hvalue'⟩ := b.words_spec
  have hdiff := Words.subWords_value (B := 2 ^ 32) (hlen.trans hlen'.symm) hbase'
  have hborrow : (Words.subWords (2 ^ 32) a.words b.words).2 ≤ 1 := Words.subWords_borrow
  have hlt := (a - b).toNat_lt
  have hlta := a.toNat_lt
  have hltb := b.toNat_lt
  have hres : (a - b).toNat = Words.value (2 ^ 32) (Words.subWords (2 ^ 32) a.words b.words).1 := by
    have hin : Words.InBase (2 ^ 32) (subLoop a.words b.words).1 := by
      rw [subLoop_eq hbase hbase']
      exact Words.subWords_inBase hbase
    rw [← subLoop_eq hbase hbase']
    exact toNat_ofWords _ hin
  rw [← hres, hlen, hvalue, hvalue'] at hdiff
  omega

/-- The comparisons are those of the numbers. -/
theorem comparisons :
    (a < b ↔ a.toNat < b.toNat) ∧ (a ≤ b ↔ a.toNat ≤ b.toNat) ∧
      (gtHash a b ↔ a.toNat > b.toNat) ∧ (geHash a b ↔ a.toNat ≥ b.toNat) ∧
        (eqHash a b ↔ a.toNat = b.toNat) ∧ (neHash a b ↔ a.toNat ≠ b.toNat) := by
  have hcmp : memcmp a b = compare a.toNat b.toNat := memcmp_eq a b
  refine ⟨lt_iff, le_iff, ?_, ?_, ?_, ?_⟩
  · rw [gtHash, hcmp, decide_eq_true_iff, Nat.compare_eq_gt]
  · rw [geHash, hcmp, decide_eq_true_iff, Nat.compare_ne_lt]
  · rw [eqHash, hcmp, decide_eq_true_iff, Nat.compare_eq_eq]
  · simp [neHash, eqHash, hcmp]

/-- The middle lies between the two keys, rounded down. -/
theorem toNat_mid_min :
    (mid a b).toNat = a.toNat ⊓ b.toNat + (a.toNat ⊔ b.toNat - a.toNat ⊓ b.toNat) / 2 := by
  by_cases h : a ≤ b
  · have hle := le_iff.mp h
    rw [toNat_mid h, inf_eq_left.mpr hle, sup_eq_right.mpr hle]
  · have hle := (lt_iff.mp (not_le.mp h)).le
    have hlt := a.toNat_lt
    rw [mid, if_neg h, toNat_add, toNat_div _ two_pos, toNat_sub (le_iff.mpr hle),
      inf_eq_right.mpr hle, sup_eq_left.mpr hle]
    exact Nat.mod_eq_of_lt (by omega)

/-- **The arithmetic of keys.**  On the numbers of 160 bits that keys stand for, the sums and
differences are those modulo `2 ^ 160`, division by a positive number of type `int` is that of
integers, the comparisons are those of integers, and the middle of two keys is the smaller
plus half of the distance, rounded down, which is between the two. -/
theorem arithmetic (v : UInt8) {n : ℕ} (hn : 1 ≤ n) (hint : n < 2 ^ 31) :
    (add64 a b).toNat = (a.toNat + b.toNat) % 2 ^ 160 ∧
    (addValue64 a v).toNat = (a.toNat + v.toNat) % 2 ^ 160 ∧
    (a - b).toNat = (a.toNat + 2 ^ 160 - b.toNat) % 2 ^ 160 ∧
    (div64 a n).toNat = a.toNat / n ∧
    ((a < b ↔ a.toNat < b.toNat) ∧ (a ≤ b ↔ a.toNat ≤ b.toNat) ∧
      (gtHash a b ↔ a.toNat > b.toNat) ∧ (geHash a b ↔ a.toNat ≥ b.toNat) ∧
        (eqHash a b ↔ a.toNat = b.toNat) ∧ (neHash a b ↔ a.toNat ≠ b.toNat)) ∧
    (mid64 a b).toNat = a.toNat ⊓ b.toNat + (a.toNat ⊔ b.toNat - a.toNat ⊓ b.toNat) / 2 ∧
    a ⊓ b ≤ mid64 a b ∧ mid64 a b ≤ a ⊔ b := by
  rw [add64_eq, addValue64_eq, div64_eq a hn hint, mid64_eq]
  have hmid := toNat_mid_min a b
  refine ⟨toNat_add a b, toNat_addValue a v, toNat_sub_mod a b, toNat_div a hn, comparisons a b,
    hmid, ?_, ?_⟩
  · rw [inf_le_iff, le_iff, le_iff]
    omega
  · rw [le_sup_iff, le_iff, le_iff]
    omega

/-- Dividing by ten thousand: the remainder of every word goes into the next one. -/
theorem arithmetic_tenThousand :
    (1 ≤ 10000 ∧ 10000 < 2 ^ 31) ∧ (div64 max 10000).toNat = max.toNat / 10000 :=
  ⟨by decide, (arithmetic max min 1 (n := 10000) (by decide) (by decide)).2.2.2.1⟩

end Key
end KTorrent
