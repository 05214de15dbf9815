import Mathlib.Tactic

/-!
# Numbers of several words

A number is a list of words in base `B`, the most significant one first.  The
operations go over the words one by one, as a program does.

* `value` — the number; `value_lt`, `value_inj` — it is below `B ^ length` and
  determines the words.
* `memcmp_eq` — comparing word by word compares the numbers.
* `addWords_value`, `addWord_value`, `subWords_value`, `divWords_value` — sums with a
  carry, differences with a borrow, and quotients by one word with a remainder.
-/

namespace Words

/-- The number that the words stand for. -/
def value (B : ℕ) : List ℕ → ℕ
  | [] => 0
  | a :: as => a * B ^ as.length + value B as

/-- Every word is below the base. -/
def InBase (B : ℕ) (as : List ℕ) : Prop := ∀ a ∈ as, a < B

variable {B a b n r : ℕ} {as bs : List ℕ}

theorem inBase_cons : InBase B (a :: as) ↔ a < B ∧ InBase B as := List.forall_mem_cons

theorem value_lt (h : InBase B as) : value B as < B ^ as.length := by
  induction as with
  | nil => exact Nat.one_pos
  | cons a as ih =>
    obtain ⟨ha, has⟩ := inBase_cons.mp h
    have hrest := ih has
    calc a * B ^ as.length + value B as < a * B ^ as.length + B ^ as.length := by omega
      _ = (a + 1) * B ^ as.length := by ring
      _ ≤ B * B ^ as.length := Nat.mul_le_mul_right _ ha
      _ = B ^ (as.length + 1) := by ring

/-- The first word and the rest of a number are its quotient and remainder. -/
theorem value_cons_divMod (h : InBase B as) :
    value B (a :: as) / B ^ as.length = a ∧ value B (a :: as) % B ^ as.length = value B as := by
  have hlt := value_lt h
  have hpos : 0 < B ^ as.length := by omega
  rw [value, mul_comm, Nat.mul_add_div hpos, Nat.mul_add_mod, Nat.div_eq_of_lt hlt,
    Nat.mod_eq_of_lt hlt]
  exact ⟨rfl, rfl⟩

theorem value_inj (hlen : as.length = bs.length) (ha : InBase B as) (hb : InBase B bs)
    (h : value B as = value B bs) : as = bs := by
  induction as generalizing bs with
  | nil => exact (List.length_eq_zero_iff.mp hlen.symm).symm
  | cons a as ih =>
    cases bs with
    | nil => cases hlen
    | cons b bs =>
      have hlen' : as.length = bs.length := Nat.succ.inj hlen
      have has := value_cons_divMod (a := a) (inBase_cons.mp ha).2
      have hbs := value_cons_divMod (a := b) (inBase_cons.mp hb).2
      rw [h, hlen'] at has
      rw [← has.1, hbs.1, ih hlen' (inBase_cons.mp ha).2 (inBase_cons.mp hb).2
        (has.2.symm.trans hbs.2)]

/-! ## Comparing -/

/-- The first pair of different words decides. -/
def memcmp : List ℕ → List ℕ → Ordering
  | a :: as, b :: bs => (compare a b).then (memcmp as bs)
  | _, _ => .eq

theorem memcmp_eq (hlen : as.length = bs.length) (ha : InBase B as) (hb : InBase B bs) :
    memcmp as bs = compare (value B as) (value B bs) := by
  induction as generalizing bs with
  | nil =>
    rw [List.length_eq_zero_iff.mp hlen.symm]
    rfl
  | cons a as ih =>
    cases bs with
    | nil => cases hlen
    | cons b bs =>
      have hlen' : as.length = bs.length := Nat.succ.inj hlen
      have hva := value_lt (inBase_cons.mp ha).2
      have hvb := value_lt (inBase_cons.mp hb).2
      have hrest := ih hlen' (inBase_cons.mp ha).2 (inBase_cons.mp hb).2
      rw [memcmp, value, value, hlen']
      rw [hlen'] at hva
      rcases lt_trichotomy a b with hab | rfl | hab
      · have hmul : (a + 1) * B ^ bs.length ≤ b * B ^ bs.length := Nat.mul_le_mul_right _ hab
        rw [add_mul] at hmul
        rw [Nat.compare_eq_lt.mpr hab, Nat.compare_eq_lt.mpr (by omega)]
        rfl
      · rw [Nat.compare_eq_eq.mpr rfl, hrest, Ordering.eq_then]
        rcases lt_trichotomy (value B as) (value B bs) with hv | hv | hv
        · rw [Nat.compare_eq_lt.mpr hv, Nat.compare_eq_lt.mpr (by omega)]
        · rw [Nat.compare_eq_eq.mpr hv, Nat.compare_eq_eq.mpr (by omega)]
        · rw [Nat.compare_eq_gt.mpr hv, Nat.compare_eq_gt.mpr (by omega)]
      · have hmul : (b + 1) * B ^ bs.length ≤ a * B ^ bs.length := Nat.mul_le_mul_right _ hab
        rw [add_mul] at hmul
        rw [Nat.compare_eq_gt.mpr hab, Nat.compare_eq_gt.mpr (by omega)]
        rfl

/-! ## Sums and differences -/

/-- The words of a sum, and the carry out of the first one; `c` is added to the last word. -/
def addWords (B : ℕ) : List ℕ → List ℕ → ℕ → List ℕ × ℕ
  | a :: as, b :: bs, c =>
    let r := addWords B as bs c
    ((r.2 + (a + b)) % B :: r.1, (r.2 + (a + b)) / B)
  | _, _, c => ([], c)

theorem addWords_length (hlen : as.length = bs.length) (c : ℕ) :
    (addWords B as bs c).1.length = as.length := by
  induction as generalizing bs with
  | nil => rfl
  | cons a as ih =>
    cases bs with
    | nil => cases hlen
    | cons b bs => exact congrArg Nat.succ (ih (Nat.succ.inj hlen))

theorem addWords_inBase (hB : 0 < B) (c : ℕ) : InBase B (addWords B as bs c).1 := by
  induction as generalizing bs with
  | nil => exact fun _ h => nomatch h
  | cons a as ih =>
    cases bs with
    | nil => exact fun _ h => nomatch h
    | cons b bs => exact inBase_cons.mpr ⟨Nat.mod_lt _ hB, ih⟩

theorem addWords_value (hlen : as.length = bs.length) (c : ℕ) :
    value B (addWords B as bs c).1 + (addWords B as bs c).2 * B ^ as.length =
      value B as + value B bs + c := by
  induction as generalizing bs with
  | nil =>
    rw [List.length_eq_zero_iff.mp hlen.symm]
    simp [addWords, value]
  | cons a as ih =>
    cases bs with
    | nil => cases hlen
    | cons b bs =>
      have hlen' : as.length = bs.length := Nat.succ.inj hlen
      have hrest := ih hlen'
      rw [addWords]
      dsimp only
      rw [value, value, value, addWords_length hlen', ← hlen', List.length_cons]
      generalize hr : addWords B as bs c = r at hrest ⊢
      have hdiv := Nat.div_add_mod (r.2 + (a + b)) B
      generalize (r.2 + (a + b)) / B = q at hdiv ⊢
      generalize (r.2 + (a + b)) % B = m at hdiv ⊢
      calc m * B ^ as.length + value B r.1 + q * B ^ (as.length + 1)
          = (B * q + m) * B ^ as.length + value B r.1 := by ring
        _ = (a + b) * B ^ as.length + (value B r.1 + r.2 * B ^ as.length) := by rw [hdiv]; ring
        _ = (a + b) * B ^ as.length + (value B as + value B bs + c) := by rw [hrest]
        _ = a * B ^ as.length + value B as + (b * B ^ as.length + value B bs) + c := by ring

/-- Adding one word to the last one stops as soon as nothing is left to carry. -/
def addWord (B : ℕ) : List ℕ → ℕ → List ℕ × ℕ
  | [], v => ([], v)
  | a :: as, v =>
    let r := addWord B as v
    if r.2 = 0 then (a :: r.1, 0) else ((r.2 + a) % B :: r.1, (r.2 + a) / B)

theorem addWord_length (v : ℕ) : (addWord B as v).1.length = as.length := by
  induction as with
  | nil => rfl
  | cons a as ih =>
    rw [addWord]
    split <;> exact congrArg Nat.succ ih

theorem addWord_inBase (ha : InBase B as) (v : ℕ) : InBase B (addWord B as v).1 := by
  induction as with
  | nil => exact fun _ h => nomatch h
  | cons a as ih =>
    obtain ⟨haB, has⟩ := inBase_cons.mp ha
    rw [addWord]
    split
    · exact inBase_cons.mpr ⟨haB, ih has⟩
    · exact inBase_cons.mpr ⟨Nat.mod_lt _ (by omega), ih has⟩

theorem addWord_value (v : ℕ) :
    value B (addWord B as v).1 + (addWord B as v).2 * B ^ as.length = value B as + v := by
  induction as with
  | nil => simp [addWord, value]
  | cons a as ih =>
    have hlen : (addWord B as v).1.length = as.length := addWord_length v
    rw [addWord]
    generalize addWord B as v = r at ih hlen ⊢
    split
    case isTrue h0 =>
      rw [h0] at ih
      rw [value, value, hlen]
      omega
    case isFalse =>
      have hdiv := Nat.div_add_mod (r.2 + a) B
      rw [value, value, hlen, List.length_cons]
      generalize (r.2 + a) / B = q at hdiv ⊢
      generalize (r.2 + a) % B = m at hdiv ⊢
      calc m * B ^ as.length + value B r.1 + q * B ^ (as.length + 1)
          = (B * q + m) * B ^ as.length + value B r.1 := by ring
        _ = a * B ^ as.length + (value B r.1 + r.2 * B ^ as.length) := by rw [hdiv]; ring
        _ = a * B ^ as.length + value B as + v := by rw [ih]; ring

/-- The words of a difference, and the borrow from the first one. -/
def subWords (B : ℕ) : List ℕ → List ℕ → List ℕ × ℕ
  | a :: as, b :: bs =>
    let r := subWords B as bs
    if b + r.2 ≤ a then ((a - b - r.2) :: r.1, 0) else ((a + B - b - r.2) :: r.1, 1)
  | _, _ => ([], 0)

theorem subWords_borrow : (subWords B as bs).2 ≤ 1 := by
  cases as with
  | nil => exact Nat.zero_le _
  | cons a as =>
    cases bs with
    | nil => exact Nat.zero_le _
    | cons b bs =>
      rw [subWords]
      split
      · exact Nat.zero_le _
      · exact le_rfl

theorem subWords_length (hlen : as.length = bs.length) : (subWords B as bs).1.length = as.length := by
  induction as generalizing bs with
  | nil => rfl
  | cons a as ih =>
    cases bs with
    | nil => cases hlen
    | cons b bs =>
      have hrest := ih (Nat.succ.inj hlen)
      rw [subWords]
      split <;> exact congrArg Nat.succ hrest

theorem subWords_inBase (ha : InBase B as) : InBase B (subWords B as bs).1 := by
  induction as generalizing bs with
  | nil => exact fun _ h => nomatch h
  | cons a as ih =>
    cases bs with
    | nil => exact fun _ h => nomatch h
    | cons b bs =>
      obtain ⟨haB, has⟩ := inBase_cons.mp ha
      rw [subWords]
      split
      · exact inBase_cons.mpr ⟨by omega, ih has⟩
      · exact inBase_cons.mpr ⟨by omega, ih has⟩

theorem subWords_value (hlen : as.length = bs.length) (hb : InBase B bs) :
    value B (subWords B as bs).1 + value B bs =
      value B as + (subWords B as bs).2 * B ^ as.length := by
  induction as generalizing bs with
  | nil =>
    rw [List.length_eq_zero_iff.mp hlen.symm]
    simp [subWords, value]
  | cons a as ih =>
    cases bs with
    | nil => cases hlen
    | cons b bs =>
      have hlen' : as.length = bs.length := Nat.succ.inj hlen
      obtain ⟨hbB, hbs⟩ := inBase_cons.mp hb
      have hrest := ih hlen' hbs
      have hborrow : (subWords B as bs).2 ≤ 1 := subWords_borrow
      have hsize := subWords_length (B := B) hlen'
      rw [subWords]
      generalize subWords B as bs = s at hrest hborrow hsize ⊢
      split
      · obtain ⟨d, rfl⟩ : ∃ d, a = d + b + s.2 := ⟨a - b - s.2, by omega⟩
        have hd : d + b + s.2 - b - s.2 = d := by omega
        rw [hd, value, value, value, hsize, ← hlen']
        linear_combination hrest
      · obtain ⟨d, hd⟩ : ∃ d, a + B = d + b + s.2 := ⟨a + B - b - s.2, by omega⟩
        have hd' : a + B - b - s.2 = d := by omega
        have hscaled : (a + B) * B ^ as.length = (d + b + s.2) * B ^ as.length := by rw [hd]
        rw [hd', value, value, value, hsize, ← hlen', List.length_cons, pow_succ]
        linear_combination hrest - hscaled

/-! ## Quotients -/

/-- The words of a quotient by `n`, after words that left the remainder `r`. -/
def divWords (B n : ℕ) : ℕ → List ℕ → List ℕ
  | _, [] => []
  | r, a :: as => (a + r * B) / n :: divWords B n ((a + r * B) % n) as

theorem divWords_length : ∀ (as : List ℕ) (r : ℕ), (divWords B n r as).length = as.length := by
  intro as
  induction as with
  | nil => exact fun _ => rfl
  | cons a as ih => exact fun r => congrArg Nat.succ (ih _)

theorem divWords_inBase (hn : 0 < n) : ∀ (as : List ℕ) (r : ℕ), InBase B as → r < n →
    InBase B (divWords B n r as) := by
  intro as
  induction as with
  | nil => exact fun _ _ _ _ h => nomatch h
  | cons a as ih =>
    intro r has hr
    obtain ⟨ha, has⟩ := inBase_cons.mp has
    refine inBase_cons.mpr ⟨Nat.div_lt_of_lt_mul ?_, ih _ has (Nat.mod_lt _ hn)⟩
    calc a + r * B < B + r * B := by omega
      _ = (r + 1) * B := by ring
      _ ≤ n * B := Nat.mul_le_mul_right _ hr

theorem divWords_value (hn : 0 < n) : ∀ (as : List ℕ) (r : ℕ), r < n →
    value B (divWords B n r as) = (r * B ^ as.length + value B as) / n := by
  intro as
  induction as with
  | nil => exact fun r hr => by simp [divWords, value, Nat.div_eq_of_lt hr]
  | cons a as ih =>
    intro r _
    have hrest := ih ((a + r * B) % n) (Nat.mod_lt _ hn)
    have hdiv := Nat.div_add_mod (a + r * B) n
    rw [divWords, value, divWords_length, hrest, value, List.length_cons]
    generalize (a + r * B) / n = q at hdiv ⊢
    generalize (a + r * B) % n = m at hdiv ⊢
    have hsum : r * B ^ (as.length + 1) + (a * B ^ as.length + value B as) =
        m * B ^ as.length + value B as + n * (q * B ^ as.length) := by
      calc r * B ^ (as.length + 1) + (a * B ^ as.length + value B as)
          = (a + r * B) * B ^ as.length + value B as := by ring
        _ = m * B ^ as.length + value B as + n * (q * B ^ as.length) := by rw [← hdiv]; ring
    rw [hsum, Nat.add_mul_div_left _ _ hn, add_comm]

end Words
