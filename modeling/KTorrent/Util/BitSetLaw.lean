import KTorrent.Util.BitSetCount

/-!
# What inverting and merging do to the bits of a set

`BitSetCount` says when the counts are right.  This file says when the bits
themselves are: the bits of a byte are stored with the most significant one
first, but the masks of the last byte keep its least significant bits.

* `Inverts` — `invert` flips every bit, turns the count around, and undoes itself.
* `inverts_iff` — that is so exactly when the last byte is full.
* `Merges` — `orBitSet`, `andBitSet` and `includesBitSet` do as their names say.
* `merges_iff` — for sets with clear padding that is so exactly when the mask of
  the last byte is not used, or keeps exactly the bits that are on in it.
-/

namespace KTorrent

open Runs

/-- A byte is its bits. -/
theorem byte_eq_iff (a b : UInt8) : a = b ↔ ∀ k < 8, byteBit a k = byteBit b k := by
  constructor
  · rintro rfl k _
    rfl
  · intro h
    apply UInt8.toBitVec_inj.mp
    apply BitVec.eq_of_getLsbD_eq
    intro i hi
    have hbit := h (7 - i) (by omega)
    rwa [byteBit_eq a (by omega), byteBit_eq b (by omega), show 7 - (7 - i) = i by omega] at hbit

namespace BitSet

/-! ## Bits of computed bytes -/

/-- A bit of bytes that are computed one by one. -/
theorem dataBit_mapIdx (data : List UInt8) (f : ℕ → UInt8 → UInt8) {i : ℕ}
    (hi : i < 8 * data.length) :
    dataBit (data.mapIdx f) i = byteBit (f (i / 8) (data.getD (i / 8) 0)) (i % 8) := by
  have hlt : i / 8 < data.length := by omega
  apply dataBit_of_getElem?
  rw [List.getElem?_mapIdx, List.getElem?_eq_getElem hlt, List.getD_eq_getElem?_getD,
    List.getElem?_eq_getElem hlt]
  rfl

/-- An index belongs to a byte of the set. -/
theorem index_inside (s : BitSet) {i : ℕ} (hi : i < s.numBits.toNat) : i < 8 * s.data.length := by
  have hbounds := s.length_data_bounds
  omega

theorem get_eq_dataBit (s : BitSet) {i : ℕ} (hi : i < s.numBits.toNat) :
    s.get i = dataBit s.data i := by
  rw [get, decide_eq_true hi, Bool.true_and]

/-- Clear padding: the bits of the bytes are those of the indexes. -/
theorem get_of_paddingOff {s : BitSet} (h : PaddingOff s.numBits.toNat (dataBit s.data)) (i : ℕ) :
    s.get i = dataBit s.data i := by
  rcases Nat.lt_or_ge i s.numBits.toNat with hi | hi
  · exact s.get_eq_dataBit hi
  · rw [s.get_outside hi, h i hi]

/-- `orBitSet` counts new bytes anew. -/
theorem orBitSet_recount {s other t : BitSet} (h : s.orBitSet other = some t) :
    ∃ data, ∃ hdata : data.length = numBytesFromNumBits s.numBits.toNat,
      t = recount s.numBits data hdata := by
  unfold orBitSet at h
  by_cases hsame : s.numBits = other.numBits
  · rw [if_pos hsame] at h
    exact ⟨_, _, (Option.some.inj h).symm⟩
  · rw [if_neg hsame] at h
    by_cases hempty : s.data.length = 0
    · rw [if_pos hempty] at h
      cases h
    · rw [if_neg hempty] at h
      exact ⟨_, _, (Option.some.inj h).symm⟩

/-! ## Inverting -/

@[simp] theorem numBits_invert (s : BitSet) : s.invert.numBits = s.numBits := rfl

@[simp] theorem length_invert (s : BitSet) : s.invert.data.length = s.data.length :=
  List.length_mapIdx

/-- A bit after `invert`: the mask of the last byte drops some. -/
theorem dataBit_invert (s : BitSet) {i : ℕ} (hi : i < 8 * s.data.length) :
    dataBit s.invert.data i = (!dataBit s.data i &&
      decide (i / 8 + 1 = s.data.length → s.numBits.toNat % 8 = 0 ∨
        7 - i % 8 < s.numBits.toNat % 8)) := by
  have hk : i % 8 < 8 := Nat.mod_lt _ (by decide)
  have hmask : s.numBits.toNat % 8 < 8 := Nat.mod_lt _ (by decide)
  refine (dataBit_mapIdx s.data _ hi).trans ?_
  split_ifs with hlast
  · rw [byteBit_and _ _ hk, byteBit_not _ hk, byteBit_getD, byteBit_tailMask hmask hk]
    simp only [hlast, true_imp_iff]
  · rw [byteBit_not _ hk, byteBit_getD]
    simp only [hlast, false_imp_iff, decide_true, Bool.and_true]

/-- `invert` flips every bit, turns the count around, and undoes itself. -/
structure Inverts (s : BitSet) : Prop where
  /-- Every bit is negated. -/
  flips : ∀ i, i < s.numBits.toNat → s.invert.get i = !s.get i
  /-- The count is that of the bits that were off. -/
  counts : s.invert.numOn = s.numBits - s.numOn
  /-- Inverting twice restores every bit. -/
  restores : ∀ i, i < s.numBits.toNat → s.invert.invert.get i = s.get i

/-- A full last byte: every bit is flipped. -/
theorem get_invert_of_full {s : BitSet} (hfull : s.numBits.toNat % 8 = 0) {i : ℕ}
    (hi : i < s.numBits.toNat) : s.invert.get i = !s.get i := by
  have hi' : i < s.invert.numBits.toNat := hi
  rw [s.invert.get_eq_dataBit hi', s.get_eq_dataBit hi, s.dataBit_invert (s.index_inside hi)]
  simp [hfull]

/-- A full last byte has no padding. -/
theorem counted_recount_of_full {numBits : UInt32} (hfull : numBits.toNat % 8 = 0)
    {data : List UInt8} (h : data.length = numBytesFromNumBits numBits.toNat) :
    (recount numBits data h).Counted := by
  refine (counted_recount h).mpr fun i hi => dataBit_outside ?_
  have hbounds := (recount numBits data h).length_data_bounds
  dsimp only [recount] at hbounds
  omega

/-- Flipping every bit turns the number of bits that are on around. -/
theorem countOn_flipped {s t : BitSet} (hbits : t.numBits = s.numBits)
    (hflip : ∀ i, i < s.numBits.toNat → t.get i = !s.get i) :
    t.countOn + s.countOn = s.numBits.toNat := by
  have hcongr : t.countOn = (List.range s.numBits.toNat).countP fun i => !s.get i := by
    rw [countOn, hbits]
    apply List.countP_congr
    intro i hi
    rw [hflip i (List.mem_range.mp hi)]
  have htotal := List.length_eq_countP_add_countP s.get (l := List.range s.numBits.toNat)
  rw [List.length_range] at htotal
  have hnot : (List.range s.numBits.toNat).countP (fun i => decide ¬s.get i = true)
      = (List.range s.numBits.toNat).countP fun i => !s.get i := by
    apply List.countP_congr
    intro i _
    simp
  rw [hcongr, countOn]
  omega

/-- **The law of `invert`, for one set**: the last byte must be full. -/
theorem inverts_iff_full {s : BitSet} (hcount : s.numBits.toNat % 8 = 0 → s.Counted) :
    s.Inverts ↔ s.numBits.toNat % 8 = 0 := by
  constructor
  · intro h
    by_contra hpart
    have hbounds := s.length_data_bounds
    have hlen : s.data.length ≠ 0 := by omega
    -- the first bit of the last byte belongs to an index, but the mask drops it
    obtain ⟨i, hi⟩ : ∃ i, i = 8 * (s.data.length - 1) := ⟨_, rfl⟩
    have hin : i < s.numBits.toNat := by omega
    have hdrop : ∀ t : BitSet, t.numBits = s.numBits → t.data.length = s.data.length →
        t.invert.get i = false := by
      intro t hbits hdata
      have hit : i < t.invert.numBits.toNat := by rw [numBits_invert, hbits]; exact hin
      rw [t.invert.get_eq_dataBit hit, t.dataBit_invert (by omega), hbits, hdata,
        decide_eq_false (by omega), Bool.and_false]
    have hflip := h.flips i hin
    have hback := h.restores i hin
    rw [hdrop s rfl rfl] at hflip
    rw [hdrop s.invert rfl (by simp)] at hback
    rw [← hback] at hflip
    cases hflip
  · intro hfull
    have hflips : ∀ i, i < s.numBits.toNat → s.invert.get i = !s.get i :=
      fun i hi => get_invert_of_full hfull hi
    refine ⟨hflips, ?_, ?_⟩
    · have hnew := ((counted_iff _).mp (counted_recount_of_full hfull s.invert.length_data))
      have hold := (counted_iff _).mp (hcount hfull)
      have htotal := countOn_flipped (s.numBits_invert) hflips
      have hinv : s.invert.numOn.toNat = s.invert.countOn := hnew
      have hle : s.numOn ≤ s.numBits := UInt32.le_iff_toNat_le.mpr (by omega)
      rw [← UInt32.toNat_inj, UInt32.toNat_sub_of_le _ _ hle]
      omega
    · intro i hi
      have hfull' : s.invert.numBits.toNat % 8 = 0 := hfull
      rw [get_invert_of_full hfull' hi, hflips i hi, Bool.not_not]

end BitSet

/-! ## Sets that operations make -/

open BitSet

/-- Sets whose last byte is full are counted right. -/
def FullCounted (v : ℕ → BitSet) : Prop := ∀ x, (v x).numBits.toNat % 8 = 0 → (v x).Counted

theorem FullCounted.update {v : ℕ → BitSet} (h : FullCounted v) (x : ℕ) {t : BitSet}
    (ht : t.numBits.toNat % 8 = 0 → t.Counted) : FullCounted (Function.update v x t) := by
  intro y
  by_cases hy : y = x
  · rw [hy, Function.update_self]
    exact ht
  · rw [Function.update_of_ne hy]
    exact h y

/-- One operation keeps them so. -/
theorem fullCounted_step (s : Option (ℕ → BitSet)) (op : BitSetOp)
    (h : ∀ v, s = some v → FullCounted v) {w : ℕ → BitSet} (hstep : stepBits s op = some w) :
    FullCounted w := by
  obtain ⟨v, rfl⟩ : ∃ v, s = some v := by
    cases s with
    | none => cases hstep
    | some v => exact ⟨v, rfl⟩
  replace h := h v rfl
  cases op with
  | new x numBits =>
    obtain rfl := Option.some.inj hstep
    exact h.update x fun _ => counted_new numBits
  | fromData x mem numBits =>
    obtain rfl := Option.some.inj hstep
    exact h.update x fun hfull => counted_recount_of_full hfull _
  | copy x y =>
    obtain rfl := Option.some.inj hstep
    exact h.update x (h y)
  | move x y =>
    obtain rfl := Option.some.inj hstep
    by_cases hxy : x = y
    · rw [if_pos hxy]
      exact h
    · rw [if_neg hxy]
      exact (h.update y fun _ => counted_moved).update x (h y)
  | set x i on =>
    obtain rfl := Option.some.inj hstep
    exact h.update x fun hfull => counted_set (h x (by simpa using hfull)) i on
  | setAll x on =>
    obtain rfl := Option.some.inj hstep
    exact h.update x fun _ => counted_setAll (v x) on
  | clear x =>
    obtain rfl := Option.some.inj hstep
    exact h.update x fun _ => counted_setAll (v x) false
  | invert x =>
    obtain rfl := Option.some.inj hstep
    exact h.update x fun hfull => counted_recount_of_full hfull _
  | orBitSet x y =>
    obtain ⟨t, ht, rfl⟩ := Option.map_eq_some_iff.mp hstep
    refine h.update x fun hfull => ?_
    obtain ⟨data, hdata, rfl⟩ := orBitSet_recount ht
    exact counted_recount_of_full hfull hdata
  | andBitSet x y =>
    obtain rfl := Option.some.inj hstep
    exact h.update x fun hfull => counted_recount_of_full hfull _
  | sub x y =>
    obtain ⟨t, ht, rfl⟩ := Option.map_eq_some_iff.mp hstep
    refine h.update x fun hfull => ?_
    unfold sub at ht
    split_ifs at ht
    obtain rfl := Option.some.inj ht
    exact counted_recount_of_full hfull _

/-- **The law of `invert`.**  Along every run of operations, `invert` flips every
bit of a set, turns the count around and undoes itself exactly when the number of
bits is a multiple of eight. -/
theorem inverts_iff (ops : List BitSetOp) :
    AllStates stepBits
      (fun s => ∀ v, s = some v → ∀ x, (v x).Inverts ↔ (v x).numBits.toNat % 8 = 0)
      initBits ops := by
  refine @AllStates.mono _ _ stepBits _ (fun s => ∀ v, s = some v → FullCounted v) ?_ _ _ ?_
  · intro s h v hv x
    exact inverts_iff_full (h v hv x)
  · refine allStates_of_step (fun s op h w hw => fullCounted_step s op h hw) ops initBits ?_
    rintro v hv x -
    obtain rfl := Option.some.inj hv
    exact counted_new 8

/-- **A part of a byte.**  The one bit of a set is not flipped. -/
theorem one_bit_stays : ¬ (BitSet.new 1).Inverts := by
  intro h
  have hflip := h.flips 0 (by decide)
  revert hflip
  decide

/-! ## Merging -/

namespace BitSet

/-- The mask of the last byte, by the number of bytes, keeps a bit. -/
def keepsLast (s : BitSet) (i : ℕ) : Bool :=
  decide (s.data.length % 8 = 0 ∨ 7 - i % 8 < s.data.length % 8)

/-- A bit after `orBitSet`. -/
def mergedBit (s other : BitSet) (i : ℕ) : Bool :=
  if s.numBits = other.numBits ∨ i / 8 + 1 ≠ s.data.length then
    dataBit s.data i || dataBit other.data i
  else if other.data.length ≥ s.data.length then
    (dataBit s.data i || dataBit other.data i) && s.keepsLast i
  else dataBit s.data i

section Merge

variable {s other t : BitSet} {i : ℕ}

theorem numBits_orBitSet (h : s.orBitSet other = some t) :
    t.numBits = s.numBits ∧ t.data.length = s.data.length := by
  obtain ⟨data, hdata, rfl⟩ := orBitSet_recount h
  exact ⟨rfl, hdata.trans s.length_data.symm⟩

/-- `orBitSet` counts the bits of the bytes. -/
theorem numOn_orBitSet (h : s.orBitSet other = some t) :
    t.numOn = UInt32.ofNat (countBytes t.data) := by
  obtain ⟨data, hdata, rfl⟩ := orBitSet_recount h
  rfl

theorem dataBit_orBitSet (h : s.orBitSet other = some t) (hi : i < 8 * s.data.length) :
    dataBit t.data i = s.mergedBit other i := by
  have hk : i % 8 < 8 := Nat.mod_lt _ (by decide)
  unfold orBitSet at h
  unfold mergedBit
  by_cases hsame : s.numBits = other.numBits
  · rw [if_pos hsame] at h
    obtain rfl := Option.some.inj h
    rw [if_pos (Or.inl hsame)]
    refine (dataBit_mapIdx s.data _ hi).trans ?_
    rw [byteBit_or _ _ hk, byteBit_getD, byteBit_getD]
  · rw [if_neg hsame] at h
    split at h
    · cases h
    · obtain rfl := Option.some.inj h
      refine (dataBit_mapIdx s.data _ hi).trans ?_
      by_cases hlast : i / 8 + 1 = s.data.length
      · have hmasked : ¬ (s.numBits = other.numBits ∨ i / 8 + 1 ≠ s.data.length) := by
          rintro (h | h)
          · exact hsame h
          · exact h hlast
        rw [if_pos hlast, if_neg hmasked]
        by_cases hlen : other.data.length ≥ s.data.length
        · rw [if_pos hlen, if_pos hlen, byteBit_and _ _ hk, byteBit_or _ _ hk, byteBit_getD,
            byteBit_getD, byteBit_tailMask (Nat.mod_lt _ (by decide)) hk]
          rfl
        · rw [if_neg hlen, if_neg hlen, byteBit_getD]
      · rw [if_neg hlast, if_pos (Or.inr hlast), byteBit_or _ _ hk, byteBit_getD, byteBit_getD]

theorem dataBit_andBitSet (hi : i < 8 * s.data.length) :
    dataBit (s.andBitSet other).data i = (dataBit s.data i && dataBit other.data i) := by
  refine (dataBit_mapIdx s.data _ hi).trans ?_
  rw [byteBit_and _ _ (Nat.mod_lt _ (by decide)), byteBit_getD, byteBit_getD]

/-- A byte that the other one adds nothing to. -/
theorem included_iff (s other : BitSet) (j : ℕ) :
    (s.data.getD j 0 ||| other.data.getD j 0 == s.data.getD j 0) = true ↔
      ∀ k < 8, (dataBit s.data (8 * j + k) || dataBit other.data (8 * j + k))
        = dataBit s.data (8 * j + k) := by
  rw [beq_iff_eq, byte_eq_iff]
  refine forall₂_congr fun k hk => ?_
  rw [byteBit_or _ _ hk]
  have hdiv : (8 * j + k) / 8 = j := by omega
  have hmod : (8 * j + k) % 8 = k := by omega
  rw [← byteBit_getD s.data, ← byteBit_getD other.data, hdiv, hmod]

/-- The last byte, masked. -/
theorem included_last_iff (s other : BitSet) (j : ℕ) :
    ((s.data.getD j 0 ||| other.data.getD j 0) &&& tailMaskLookup (s.data.length % 8)
        == s.data.getD j 0) = true ↔
      ∀ k < 8, ((dataBit s.data (8 * j + k) || dataBit other.data (8 * j + k))
        && s.keepsLast (8 * j + k)) = dataBit s.data (8 * j + k) := by
  rw [beq_iff_eq, byte_eq_iff]
  refine forall₂_congr fun k hk => ?_
  have hdiv : (8 * j + k) / 8 = j := by omega
  have hmod : (8 * j + k) % 8 = k := by omega
  rw [byteBit_and _ _ hk, byteBit_or _ _ hk, byteBit_tailMask (Nat.mod_lt _ (by decide)) hk,
    keepsLast, ← byteBit_getD s.data, ← byteBit_getD other.data, hdiv, hmod]

/-- `includesBitSet` compares with what `orBitSet` would make of the bytes. -/
theorem includesBitSet_eq_some (hne : s.data.length ≠ 0) :
    ∃ r, s.includesBitSet other = some r ∧
      (r = true ↔ ∀ i < 8 * s.data.length, s.mergedBit other i = dataBit s.data i) := by
  unfold includesBitSet
  by_cases hsame : s.numBits = other.numBits
  · rw [if_pos hsame]
    refine ⟨_, rfl, ?_⟩
    simp only [List.all_eq_true, List.mem_range, included_iff, mergedBit, hsame, true_or, if_true]
    constructor
    · intro h i hi
      have hbit := h (i / 8) (by omega) (i % 8) (Nat.mod_lt _ (by decide))
      rwa [Nat.div_add_mod] at hbit
    · intro h j hj k hk
      exact h (8 * j + k) (by omega)
  · rw [if_neg hsame, if_neg hne]
    refine ⟨_, rfl, ?_⟩
    simp only [Bool.and_eq_true, List.all_eq_true, List.mem_range, Bool.or_eq_true,
      decide_eq_true_eq, included_iff, included_last_iff, mergedBit, hsame, false_or]
    constructor
    · rintro ⟨hbytes, hlast⟩ i hi
      have hdm := Nat.div_add_mod i 8
      have hk : i % 8 < 8 := Nat.mod_lt _ (by decide)
      by_cases hl : i / 8 + 1 = s.data.length
      · rw [if_neg (not_not.mpr hl)]
        split_ifs with hlen
        · have hbit := hlast.resolve_left (by omega) (i % 8) hk
          rwa [show 8 * (s.data.length - 1) + i % 8 = i by omega] at hbit
        · rfl
      · rw [if_pos hl]
        rcases Nat.lt_or_ge (i / 8) other.data.length with hin | hout
        · have hbit := hbytes (i / 8) (lt_min (by omega) hin) (i % 8) hk
          rwa [hdm] at hbit
        · rw [@dataBit_outside other.data i (by omega), Bool.or_false]
    · intro h
      constructor
      · intro j hj k hk
        have hbit := h (8 * j + k) (by omega)
        rwa [if_pos (by omega)] at hbit
      · rcases Nat.lt_or_ge other.data.length s.data.length with hlen | hlen
        · exact Or.inl hlen
        · refine Or.inr fun k hk => ?_
          have hbit := h (8 * (s.data.length - 1) + k) (by omega)
          rwa [if_neg (by omega), if_pos hlen] at hbit

end Merge

/-- The operations on two sets do as their names say. -/
structure Merges (s other : BitSet) : Prop where
  /-- `orBitSet` gives the union, with clear padding and the exact count. -/
  union : ∃ t, s.orBitSet other = some t ∧
    (∀ i, i < s.numBits.toNat → t.get i = (s.get i || other.get i)) ∧
    PaddingOff s.numBits.toNat (dataBit t.data) ∧ t.numOn.toNat = t.countOn
  /-- `andBitSet` gives the common bits, with clear padding and the exact count. -/
  common : (∀ i, i < s.numBits.toNat → (s.andBitSet other).get i = (s.get i && other.get i)) ∧
    PaddingOff s.numBits.toNat (dataBit (s.andBitSet other).data) ∧
    (s.andBitSet other).numOn.toNat = (s.andBitSet other).countOn
  /-- `includesBitSet` tells whether every bit of the other set is on. -/
  includes : ∃ r, s.includesBitSet other = some r ∧
    (r = true ↔ ∀ i, i < s.numBits.toNat → other.get i = true → s.get i = true)

/-- The mask of the last byte is not used, or it keeps, of the bits that are on,
exactly those that belong to an index. -/
def MaskFits (s other : BitSet) : Prop :=
  s.numBits = other.numBits ∨ other.data.length < s.data.length ∨
    ∀ i, i / 8 + 1 = s.data.length → (dataBit s.data i || dataBit other.data i) = true →
      (s.keepsLast i = true ↔ i < s.numBits.toNat)

section Clear

variable {s other : BitSet} (hs : PaddingOff s.numBits.toNat (dataBit s.data))
  (ho : PaddingOff other.numBits.toNat (dataBit other.data))

include hs ho in
/-- The mask fits exactly when `orBitSet` makes the union of the bytes. -/
theorem maskFits_iff : s.MaskFits other ↔ ∀ i < 8 * s.data.length,
    s.mergedBit other i = (decide (i < s.numBits.toNat) && (s.get i || other.get i)) := by
  have hbounds := s.length_data_bounds
  simp only [get_of_paddingOff hs, get_of_paddingOff ho]
  constructor
  · intro hfit i hi
    unfold mergedBit
    split_ifs with hwhole hlen
    · by_cases hin : i < s.numBits.toNat
      · rw [decide_eq_true hin, Bool.true_and]
      · rcases hwhole with hsame | hinner
        · rw [hs i (by omega), ho i (by rw [← hsame]; omega), Bool.or_false, Bool.and_false]
        · omega
    · push Not at hwhole
      rcases hfit with hsame | hshort | hkeep
      · exact absurd hsame hwhole.1
      · omega
      · have hbit := hkeep i hwhole.2
        cases hon : dataBit s.data i || dataBit other.data i with
        | false => simp
        | true =>
          have hiff := hbit hon
          rw [Bool.true_and, Bool.and_true, Bool.eq_iff_iff, hiff, decide_eq_true_iff]
    · rw [@dataBit_outside other.data i (by omega), Bool.or_false]
      by_cases hin : i < s.numBits.toNat
      · rw [decide_eq_true hin, Bool.true_and]
      · rw [hs i (by omega), Bool.and_false]
  · intro hmerged
    by_cases hsame : s.numBits = other.numBits
    · exact Or.inl hsame
    rcases Nat.lt_or_ge other.data.length s.data.length with hshort | hlen
    · exact Or.inr (Or.inl hshort)
    refine Or.inr (Or.inr fun i hlast hon => ?_)
    have hbit := hmerged i (by omega)
    have hmasked : ¬ (s.numBits = other.numBits ∨ i / 8 + 1 ≠ s.data.length) := by
      rintro (h | h)
      · exact hsame h
      · exact h hlast
    rw [mergedBit, if_neg hmasked, if_pos hlen, hon, Bool.true_and, Bool.and_true,
      Bool.eq_iff_iff, decide_eq_true_iff] at hbit
    exact hbit

include hs ho in
/-- `andBitSet` is right whatever the sizes are. -/
theorem andBitSet_right :
    (∀ i, i < s.numBits.toNat → (s.andBitSet other).get i = (s.get i && other.get i)) ∧
    PaddingOff s.numBits.toNat (dataBit (s.andBitSet other).data) ∧
    (s.andBitSet other).numOn.toNat = (s.andBitSet other).countOn := by
  have hclean : s.AndClean other := fun i hi => by rw [hs i hi, Bool.false_and]
  have hcounted := (counted_andBitSet s other).mpr hclean
  refine ⟨fun i hi => ?_, (counted_recount _).mp hcounted, hcounted.1⟩
  have hi' : i < (s.andBitSet other).numBits.toNat := hi
  rw [(s.andBitSet other).get_eq_dataBit hi', dataBit_andBitSet (s.index_inside hi),
    s.get_eq_dataBit hi, get_of_paddingOff ho]

include hs ho in
/-- `orBitSet` is right exactly when the mask fits. -/
theorem orBitSet_right_iff (hpos : s.data.length ≠ 0) :
    (∃ t, s.orBitSet other = some t ∧
      (∀ i, i < s.numBits.toNat → t.get i = (s.get i || other.get i)) ∧
      PaddingOff s.numBits.toNat (dataBit t.data) ∧ t.numOn.toNat = t.countOn) ↔
    s.MaskFits other := by
  rw [maskFits_iff hs ho]
  constructor
  · rintro ⟨t, ht, hbits, hpad, -⟩ i hi
    obtain ⟨hnum, -⟩ := numBits_orBitSet ht
    rw [← dataBit_orBitSet ht hi]
    rcases Nat.lt_or_ge i s.numBits.toNat with hin | hout
    · rw [decide_eq_true hin, Bool.true_and, ← hbits i hin, t.get_eq_dataBit (by rwa [hnum])]
    · rw [decide_eq_false (by omega), Bool.false_and, hpad i hout]
  · intro hmerged
    obtain ⟨t, ht⟩ : ∃ t, s.orBitSet other = some t := by
      unfold orBitSet
      by_cases hsame : s.numBits = other.numBits
      · exact ⟨_, if_pos hsame⟩
      · rw [if_neg hsame, if_neg hpos]
        exact ⟨_, rfl⟩
    obtain ⟨hnum, hlen⟩ := numBits_orBitSet ht
    have hpad : PaddingOff t.numBits.toNat (dataBit t.data) := by
      intro i hi
      rw [hnum] at hi
      rcases Nat.lt_or_ge i (8 * s.data.length) with hlt | hge
      · rw [dataBit_orBitSet ht hlt, hmerged i hlt, decide_eq_false (by omega), Bool.false_and]
      · exact dataBit_outside (by omega)
    refine ⟨t, ht, fun i hi => ?_, hnum ▸ hpad, ?_⟩
    · rw [t.get_eq_dataBit (by rwa [hnum]), dataBit_orBitSet ht (s.index_inside hi),
        hmerged i (s.index_inside hi), decide_eq_true hi, Bool.true_and]
    · exact ((counted_iff_paddingOff t (numOn_orBitSet ht)).mpr hpad).1

include hs ho in
/-- `includesBitSet` is right when the mask fits. -/
theorem includesBitSet_right (hpos : s.data.length ≠ 0) (hfit : s.MaskFits other) :
    ∃ r, s.includesBitSet other = some r ∧
      (r = true ↔ ∀ i, i < s.numBits.toNat → other.get i = true → s.get i = true) := by
  have hmerged := (maskFits_iff hs ho).mp hfit
  obtain ⟨r, hr, hiff⟩ := @includesBitSet_eq_some s other hpos
  refine ⟨r, hr, hiff.trans ?_⟩
  constructor
  · intro hall i hi hon
    have hbit := hall i (s.index_inside hi)
    rwa [hmerged i (s.index_inside hi), hon, Bool.or_true, Bool.and_true, decide_eq_true hi,
      ← s.get_eq_dataBit hi, eq_comm] at hbit
  · intro hall i hi
    rw [hmerged i hi, ← get_of_paddingOff hs]
    rcases Nat.lt_or_ge i s.numBits.toNat with hin | hout
    · cases hon : other.get i with
      | false => rw [decide_eq_true hin, Bool.true_and, Bool.or_false]
      | true => rw [decide_eq_true hin, Bool.true_and, Bool.or_true, hall i hin hon]
    · rw [decide_eq_false (by omega), Bool.false_and, s.get_outside hout]

end Clear

/-- **The law of merging.**  For a set of at least one bit and any other set, both
with clear padding, the three operations do as their names say exactly when the
mask of the last byte fits. -/
theorem merges_iff {s other : BitSet} (hpos : 1 ≤ s.numBits.toNat)
    (hs : PaddingOff s.numBits.toNat (dataBit s.data))
    (ho : PaddingOff other.numBits.toNat (dataBit other.data)) :
    s.Merges other ↔ s.MaskFits other := by
  have hbytes : s.data.length ≠ 0 := by
    have hbounds := s.length_data_bounds
    omega
  constructor
  · intro h
    exact (orBitSet_right_iff hs ho hbytes).mp h.union
  · intro hfit
    exact ⟨(orBitSet_right_iff hs ho hbytes).mpr hfit, andBitSet_right hs ho,
      includesBitSet_right hs ho hbytes hfit⟩

/-- Eight bits and the first bit of sixteen. -/
theorem merges_longer :
    (BitSet.new 64).Merges ((BitSet.new 72).set 3 true) ↔
      (BitSet.new 64).MaskFits ((BitSet.new 72).set 3 true) := by
  refine merges_iff (by decide) ?_ ?_
  · exact (counted_iff_paddingOff _ (by decide)).mp (counted_new 64)
  · exact (counted_iff_paddingOff _ (by decide +kernel)).mp (counted_set (counted_new 72) 3 true)

/-- **The wrong mask.**  One byte is masked as if it had one bit: the first bit of
sixteen is lost when it is merged into eight. -/
theorem merged_bit_lost : ¬ ∀ s other : BitSet, 1 ≤ s.numBits.toNat →
    PaddingOff s.numBits.toNat (dataBit s.data) →
    PaddingOff other.numBits.toNat (dataBit other.data) → s.Merges other := by
  intro hall
  have hmerges := hall (BitSet.new 8) ((BitSet.new 16).set 0 true) (by decide)
    ((counted_iff_paddingOff _ (by decide)).mp (counted_new 8))
    ((counted_iff_paddingOff _ (by decide +kernel)).mp (counted_set (counted_new 16) 0 true))
  obtain ⟨t, ht, hbits, -⟩ := hmerges.union
  have hbit := hbits 0 (by decide)
  obtain rfl := Option.some.inj ht
  revert hbit
  decide +kernel

end BitSet

end KTorrent
