import KTorrent.Lib.Run
import KTorrent.Util.BitSet

/-!
# When the bits of a set are counted right

The operations that count anew count the padding bits of the last byte, too.
This file says for each of them when its count is right, and for whole runs of
operations on any number of sets.

* `InvertClean`, `AndClean`, `SubClean`, `OrClean` — what the operations need of
  the padding bits of their operands.
* `counted_invert`, `counted_andBitSet`, `counted_sub`, `counted_orBitSet` — and
  that they need exactly that.
* `allStates_counted_iff` — along a run of operations every count is right
  exactly when every operation has what it needs.
* `wire_padding_counted` — a set received with padding bits on.
-/

namespace KTorrent

open Runs

namespace BitSet

/-! ## Padding bits after an operation -/

/-- The padding bits of bytes that are computed one by one. -/
theorem paddingOff_mapIdx (s : BitSet) (f : ℕ → UInt8 → UInt8) :
    PaddingOff s.numBits.toNat (dataBit (s.data.mapIdx f)) ↔
      ∀ i b, s.numBits.toNat ≤ i → s.data[i / 8]? = some b → byteBit (f (i / 8) b) (i % 8) = false := by
  constructor
  · intro h i b hi hb
    have hoff := h i hi
    rwa [dataBit_of_getElem? (by rw [List.getElem?_mapIdx, hb, Option.map_some])] at hoff
  · intro h i hi
    unfold dataBit
    rw [List.getElem?_mapIdx]
    cases hb : s.data[i / 8]? with
    | none => rfl
    | some b => exact h i b hi hb

/-- A bit of a byte, or of a missing one. -/
theorem byteBit_getD (data : List UInt8) (i : ℕ) :
    byteBit (data.getD (i / 8) 0) (i % 8) = dataBit data i := by
  unfold dataBit
  rw [List.getD_eq_getElem?_getD]
  cases data[i / 8]? with
  | none => exact byteBit_zero (Nat.mod_lt _ (by decide))
  | some b => rfl

theorem dataBit_eq_true {data : List UInt8} {i : ℕ} (h : dataBit data i = true) :
    ∃ b, data[i / 8]? = some b ∧ byteBit b (i % 8) = true := by
  unfold dataBit at h
  cases hb : data[i / 8]? with
  | none => simp [hb] at h
  | some b => exact ⟨b, rfl, by simpa [hb] using h⟩

/-- The byte of a padding bit is the last one. -/
theorem padding_last {s : BitSet} {i : ℕ} {b : UInt8} (hi : s.numBits.toNat ≤ i)
    (hb : s.data[i / 8]? = some b) :
    i / 8 + 1 = s.data.length ∧ 7 - i % 8 = 8 * s.data.length - 1 - i := by
  have hlt : i / 8 < s.data.length := by
    by_contra hge
    rw [List.getElem?_eq_none (by omega)] at hb
    cases hb
  have hbounds := s.length_data_bounds
  omega

/-- What `invert` needs: the padding bits that its mask keeps are on. -/
def InvertClean (s : BitSet) : Prop :=
  ∀ i, s.numBits.toNat ≤ i → i < 8 * s.data.length →
    8 * s.data.length - 1 - i < s.numBits.toNat % 8 → dataBit s.data i = true

theorem counted_invert (s : BitSet) : s.invert.Counted ↔ s.InvertClean := by
  rw [invert, counted_recount, paddingOff_mapIdx]
  have hmask : s.numBits.toNat % 8 < 8 := Nat.mod_lt _ (by decide)
  constructor
  · intro h i hi hlt hmsk
    have hb : s.data[i / 8]? = some s.data[i / 8] := List.getElem?_eq_getElem (by omega)
    obtain ⟨hlast, hpos⟩ := padding_last hi hb
    have hk : i % 8 < 8 := Nat.mod_lt _ (by decide)
    have hoff := h i _ hi hb
    rw [if_pos hlast, byteBit_and _ _ hk, byteBit_not _ hk, byteBit_tailMask hmask hk,
      decide_eq_true (Or.inr (by omega)), Bool.and_true, Bool.not_eq_false'] at hoff
    rw [dataBit_of_getElem? hb, hoff]
  · intro h i b hi hb
    obtain ⟨hlast, hpos⟩ := padding_last hi hb
    have hk : i % 8 < 8 := Nat.mod_lt _ (by decide)
    rw [if_pos hlast, byteBit_and _ _ hk, byteBit_not _ hk, byteBit_tailMask hmask hk]
    have hbounds := s.length_data_bounds
    by_cases hmsk : 8 * s.data.length - 1 - i < s.numBits.toNat % 8
    · have hon := h i hi (by omega) hmsk
      rw [dataBit_of_getElem? hb] at hon
      rw [hon]
      rfl
    · rw [decide_eq_false (by omega), Bool.and_false]

/-- What `andBitSet` needs: no padding bit is on in both sets. -/
def AndClean (s other : BitSet) : Prop :=
  ∀ i, s.numBits.toNat ≤ i → (dataBit s.data i && dataBit other.data i) = false

theorem counted_andBitSet (s other : BitSet) :
    (s.andBitSet other).Counted ↔ s.AndClean other := by
  rw [andBitSet, counted_recount, paddingOff_mapIdx]
  have hbyte : ∀ i b, s.data[i / 8]? = some b →
      byteBit (b &&& other.data.getD (i / 8) 0) (i % 8)
        = (dataBit s.data i && dataBit other.data i) := by
    intro i b hb
    rw [byteBit_and _ _ (Nat.mod_lt _ (by decide)), byteBit_getD, dataBit_of_getElem? hb]
  constructor
  · intro h i hi
    cases hs : dataBit s.data i with
    | false => rfl
    | true =>
      obtain ⟨b, hb, -⟩ := dataBit_eq_true hs
      have hoff := h i b hi hb
      rwa [hbyte i b hb, hs] at hoff
  · intro h i b hi hb
    rw [hbyte i b hb]
    exact h i hi

/-- What `operator-=` needs: the other set has the bytes, and it has the padding
bits that are on. -/
def SubClean (s other : BitSet) : Prop :=
  s.data.length ≤ other.data.length ∧
    ∀ i, s.numBits.toNat ≤ i → dataBit s.data i = true → dataBit other.data i = true

theorem counted_sub (s other : BitSet) :
    (∃ t, s.sub other = some t ∧ t.Counted) ↔ s.SubClean other := by
  unfold sub SubClean
  by_cases hlen : other.data.length < s.data.length
  · rw [if_pos hlen]
    constructor
    · rintro ⟨t, h, -⟩
      cases h
    · rintro ⟨h, -⟩
      omega
  · rw [if_neg hlen]
    simp only [Option.some.injEq, exists_eq_left']
    rw [counted_recount, paddingOff_mapIdx]
    have hbyte : ∀ i b, s.data[i / 8]? = some b →
        byteBit (b &&& ~~~(b &&& other.data.getD (i / 8) 0)) (i % 8)
          = (dataBit s.data i && !dataBit other.data i) := by
      intro i b hb
      have hk : i % 8 < 8 := Nat.mod_lt _ (by decide)
      rw [byteBit_and _ _ hk, byteBit_not _ hk, byteBit_and _ _ hk, byteBit_getD,
        dataBit_of_getElem? hb]
      cases byteBit b (i % 8) <;> rfl
    constructor
    · intro h
      refine ⟨by omega, fun i hi hs => ?_⟩
      obtain ⟨b, hb, -⟩ := dataBit_eq_true hs
      have hoff := h i b hi hb
      rw [hbyte i b hb, hs] at hoff
      simpa using hoff
    · rintro ⟨-, h⟩ i b hi hb
      rw [hbyte i b hb]
      cases hs : dataBit s.data i with
      | false => rfl
      | true => simp [h i hi hs]

/-- What `orBitSet` needs.  For sets of one size: no padding bit is on.  For sets
of different sizes: there is a last byte, and none of its padding bits is on, or
of those that the mask keeps when the other set has that byte, too. -/
def OrClean (s other : BitSet) : Prop :=
  if s.numBits = other.numBits then
    ∀ i, s.numBits.toNat ≤ i → (dataBit s.data i || dataBit other.data i) = false
  else if other.data.length ≥ s.data.length then
    s.data.length ≠ 0 ∧ ∀ i, s.numBits.toNat ≤ i → i < 8 * s.data.length →
      (s.data.length % 8 = 0 ∨ 8 * s.data.length - 1 - i < s.data.length % 8) →
        (dataBit s.data i || dataBit other.data i) = false
  else ∀ i, s.numBits.toNat ≤ i → dataBit s.data i = false

theorem counted_orBitSet (s other : BitSet) :
    (∃ t, s.orBitSet other = some t ∧ t.Counted) ↔ s.OrClean other := by
  unfold orBitSet OrClean
  by_cases hsame : s.numBits = other.numBits
  · rw [if_pos hsame, if_pos hsame]
    simp only [Option.some.injEq, exists_eq_left']
    rw [counted_recount, paddingOff_mapIdx]
    have hlen : other.data.length = s.data.length := by
      rw [other.length_data, s.length_data, hsame]
    constructor
    · intro h i hi
      by_cases hlt : i / 8 < s.data.length
      · have hb : s.data[i / 8]? = some s.data[i / 8] := List.getElem?_eq_getElem hlt
        have hoff := h i _ hi hb
        rwa [byteBit_or _ _ (Nat.mod_lt _ (by decide)), byteBit_getD,
          ← dataBit_of_getElem? hb] at hoff
      · rw [dataBit_outside (by omega), dataBit_outside (by omega)]
        rfl
    · intro h i b hi hb
      rw [byteBit_or _ _ (Nat.mod_lt _ (by decide)), byteBit_getD, ← dataBit_of_getElem? hb]
      exact h i hi
  · rw [if_neg hsame, if_neg hsame]
    by_cases hempty : s.data.length = 0
    · rw [if_pos hempty, if_pos (by omega)]
      constructor
      · rintro ⟨t, h, -⟩
        cases h
      · rintro ⟨h, -⟩
        exact absurd hempty h
    · rw [if_neg hempty]
      simp only [Option.some.injEq, exists_eq_left']
      rw [counted_recount, paddingOff_mapIdx]
      by_cases hlen : other.data.length ≥ s.data.length
      · simp only [if_pos hlen]
        have hmask : s.data.length % 8 < 8 := Nat.mod_lt _ (by decide)
        have hbyte : ∀ i b, s.numBits.toNat ≤ i → s.data[i / 8]? = some b →
            byteBit ((b ||| other.data.getD (i / 8) 0) &&& tailMaskLookup (s.data.length % 8)) (i % 8)
              = ((dataBit s.data i || dataBit other.data i) &&
                decide (s.data.length % 8 = 0 ∨ 7 - i % 8 < s.data.length % 8)) := by
          intro i b hi hb
          have hk : i % 8 < 8 := Nat.mod_lt _ (by decide)
          rw [byteBit_and _ _ hk, byteBit_or _ _ hk, byteBit_getD, ← dataBit_of_getElem? hb,
            byteBit_tailMask hmask hk]
        constructor
        · intro h
          refine ⟨hempty, fun i hi hlt hkeep => ?_⟩
          have hb : s.data[i / 8]? = some s.data[i / 8] := List.getElem?_eq_getElem (by omega)
          obtain ⟨hlast, hpos⟩ := padding_last hi hb
          have hoff := h i _ hi hb
          rw [if_pos hlast, hbyte i _ hi hb, decide_eq_true (by omega), Bool.and_true] at hoff
          exact hoff
        · rintro ⟨-, h⟩ i b hi hb
          obtain ⟨hlast, hpos⟩ := padding_last hi hb
          rw [if_pos hlast, hbyte i b hi hb]
          by_cases hkeep : s.data.length % 8 = 0 ∨ 7 - i % 8 < s.data.length % 8
          · rw [h i hi (by omega) (by omega), Bool.false_and]
          · rw [decide_eq_false hkeep, Bool.and_false]
      · simp only [if_neg hlen]
        constructor
        · intro h i hi
          cases hs : dataBit s.data i with
          | false => rfl
          | true =>
            obtain ⟨b, hb, -⟩ := dataBit_eq_true hs
            have hoff := h i b hi hb
            rw [if_pos (padding_last hi hb).1, ← dataBit_of_getElem? hb, hs] at hoff
            cases hoff
        · intro h i b hi hb
          rw [if_pos (padding_last hi hb).1, ← dataBit_of_getElem? hb]
          exact h i hi

end BitSet

/-! ## Runs -/

open BitSet

/-- An operation on variables that hold bit sets. -/
inductive BitSetOp where
  | new (x : ℕ) (numBits : UInt32)
  | fromData (x : ℕ) (mem : ℕ → UInt8) (numBits : UInt32)
  | copy (x y : ℕ)
  | move (x y : ℕ)
  | set (x i : ℕ) (on : Bool)
  | setAll (x : ℕ) (on : Bool)
  | clear (x : ℕ)
  | invert (x : ℕ)
  | orBitSet (x y : ℕ)
  | andBitSet (x y : ℕ)
  | sub (x y : ℕ)

/-- One operation; `none` when bytes are accessed that are not there. -/
def stepBits : Option (ℕ → BitSet) → BitSetOp → Option (ℕ → BitSet)
  | none, _ => none
  | some v, .new x numBits => some (Function.update v x (BitSet.new numBits))
  | some v, .fromData x mem numBits => some (Function.update v x (BitSet.fromData mem numBits))
  | some v, .copy x y => some (Function.update v x (v y))
  | some v, .move x y =>
    some (if x = y then v else Function.update (Function.update v y BitSet.moved) x (v y))
  | some v, .set x i on => some (Function.update v x ((v x).set i on))
  | some v, .setAll x on => some (Function.update v x ((v x).setAll on))
  | some v, .clear x => some (Function.update v x (v x).clear)
  | some v, .invert x => some (Function.update v x (v x).invert)
  | some v, .orBitSet x y => ((v x).orBitSet (v y)).map (Function.update v x)
  | some v, .andBitSet x y => some (Function.update v x ((v x).andBitSet (v y)))
  | some v, .sub x y => ((v x).sub (v y)).map (Function.update v x)

/-- Before a run every variable holds the default set. -/
def initBits : Option (ℕ → BitSet) := some fun _ => BitSet.new 8

/-- Every variable holds a set that is counted right. -/
def AllCounted (s : Option (ℕ → BitSet)) : Prop := ∃ v, s = some v ∧ ∀ x, (v x).Counted

/-- An operation that counts anew has what it needs. -/
def OperandsClean : Option (ℕ → BitSet) → BitSetOp → Prop
  | none, _ => True
  | some _, .fromData _ mem numBits =>
    PaddingOff numBits.toNat
      (dataBit ((List.range (numBytesFromNumBits numBits.toNat)).map mem))
  | some v, .invert x => (v x).InvertClean
  | some v, .orBitSet x y => (v x).OrClean (v y)
  | some v, .andBitSet x y => (v x).AndClean (v y)
  | some v, .sub x y => (v x).SubClean (v y)
  | some _, _ => True

theorem counted_new (numBits : UInt32) : (BitSet.new numBits).Counted := by
  have hcount : countBytes (BitSet.new numBits).data = 0 := by
    simp [countBytes, BitSet.new, List.map_replicate, popcount, List.countP_eq_zero]
  apply (counted_iff_paddingOff _ _).mpr
  · intro i _
    unfold dataBit
    cases hb : (BitSet.new numBits).data[i / 8]? with
    | none => rfl
    | some b =>
      have hzero : b = 0 := List.eq_of_mem_replicate (List.mem_of_getElem? hb)
      rw [hzero]
      exact byteBit_zero (Nat.mod_lt _ (by decide))
  · rw [hcount]
    rfl

theorem counted_moved : BitSet.moved.Counted := (counted_iff _).mpr rfl

/-- Replacing the set of one variable. -/
theorem allCounted_update {v : ℕ → BitSet} (h : ∀ x, (v x).Counted) (x : ℕ) (t : BitSet) :
    AllCounted (some (Function.update v x t)) ↔ t.Counted := by
  constructor
  · rintro ⟨u, heq, hu⟩
    obtain rfl := Option.some.inj heq
    have hx := hu x
    rwa [Function.update_self] at hx
  · intro ht
    refine ⟨_, rfl, fun y => ?_⟩
    by_cases hy : y = x
    · rw [hy, Function.update_self]
      exact ht
    · rw [Function.update_of_ne hy]
      exact h y

/-- Replacing the set of one variable by what an operation gives, if it is
defined. -/
theorem allCounted_map_update {v : ℕ → BitSet} (h : ∀ x, (v x).Counted) (x : ℕ)
    (t : Option BitSet) :
    AllCounted (t.map (Function.update v x)) ↔ ∃ u, t = some u ∧ u.Counted := by
  cases t with
  | none => simp [AllCounted]
  | some u =>
    rw [Option.map_some, allCounted_update h]
    simp

/-- **One operation**: every count is right afterwards exactly when the operation
had what it needs. -/
theorem allCounted_step {v : ℕ → BitSet} (h : ∀ x, (v x).Counted) (op : BitSetOp) :
    AllCounted (stepBits (some v) op) ↔ OperandsClean (some v) op := by
  cases op with
  | new x numBits =>
    refine ((allCounted_update h x _).trans ?_)
    exact iff_of_true (counted_new numBits) trivial
  | fromData x mem numBits => exact (allCounted_update h x _).trans (counted_recount _)
  | copy x y => exact (allCounted_update h x _).trans (iff_of_true (h y) trivial)
  | move x y =>
    refine iff_of_true ?_ trivial
    show AllCounted
      (some (if x = y then v else Function.update (Function.update v y BitSet.moved) x (v y)))
    by_cases hxy : x = y
    · rw [if_pos hxy]
      exact ⟨v, rfl, h⟩
    · rw [if_neg hxy]
      obtain ⟨u, hu, hcounted⟩ := (allCounted_update h y BitSet.moved).mpr counted_moved
      obtain rfl := Option.some.inj hu
      exact (allCounted_update hcounted x (v y)).mpr (h y)
  | set x i on =>
    exact (allCounted_update h x _).trans (iff_of_true (counted_set (h x) i on) trivial)
  | setAll x on =>
    exact (allCounted_update h x _).trans (iff_of_true (counted_setAll (v x) on) trivial)
  | clear x =>
    exact (allCounted_update h x _).trans (iff_of_true (counted_setAll (v x) false) trivial)
  | invert x => exact (allCounted_update h x _).trans (counted_invert (v x))
  | orBitSet x y => exact (allCounted_map_update h x _).trans (counted_orBitSet (v x) (v y))
  | andBitSet x y => exact (allCounted_update h x _).trans (counted_andBitSet (v x) (v y))
  | sub x y => exact (allCounted_map_update h x _).trans (counted_sub (v x) (v y))

/-- **The count invariant.**  Along a run of operations every set is counted
right, in every state, exactly when every operation that counts anew has what it
needs. -/
theorem allStates_counted_iff (ops : List BitSetOp) :
    AllStates stepBits AllCounted initBits ops ↔ AllSteps stepBits OperandsClean initBits ops := by
  apply allStates_iff_allSteps (fun _ h => h)
  · rintro s op ⟨v, rfl, h⟩ hok
    exact (allCounted_step h op).mpr hok
  · rintro s op ⟨v, rfl, h⟩ hbad hcounted
    exact hbad ((allCounted_step h op).mp hcounted)
  · exact ⟨_, rfl, fun _ => counted_new 8⟩

/-- **Padding on the wire.**  Three bits received in a byte whose bits are all on
are counted as eight. -/
theorem wire_padding_counted :
    ¬ AllStates stepBits AllCounted initBits [.fromData 0 (fun _ => 0xFF) 3] := by
  rintro ⟨-, hlast⟩
  have hpad := (allCounted_step (fun _ => counted_new 8) _).mp hlast 3 (by decide)
  revert hpad
  decide

end KTorrent
