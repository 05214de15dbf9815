import Mathlib.Tactic

/-!
# Bit sets

The model of `util/bitset.cpp`.  The bits of a byte are numbered from its most
significant bit; the last byte of a set may have bits that belong to no index,
its padding.  The number of bits that are on is kept in `num_on`, which most
operations count anew over whole bytes, padding included.

* `BitSet.Counted` — `numOnBits` is the number of indexes whose bit is on.
* `counted_recount` — after counting anew that is so exactly when no padding bit
  is on.
* `counted_set`, `counted_setAll` — setting bits keeps the count.
-/

namespace KTorrent

/-! ## Bytes -/

/-- `set_on_lookup`. -/
def setOnLookup (k : ℕ) : UInt8 := [0x80, 0x40, 0x20, 0x10, 0x08, 0x04, 0x02, 0x01].getD k 0

/-- `set_off_lookup`. -/
def setOffLookup (k : ℕ) : UInt8 := [0x7F, 0xBF, 0xDF, 0xEF, 0xF7, 0xFB, 0xFD, 0xFE].getD k 0

/-- `tail_mask_lookup`. -/
def tailMaskLookup (k : ℕ) : UInt8 := [0xFF, 0x01, 0x03, 0x07, 0x0F, 0x1F, 0x3F, 0x7F].getD k 0

/-- `std::popcount`. -/
def popcount (b : UInt8) : ℕ := (List.range 8).countP b.toNat.testBit

/-- Bit `k` of a byte, counted from the most significant one. -/
def byteBit (b : UInt8) (k : ℕ) : Bool := b &&& setOnLookup k != 0

theorem byteBit_toBitVec : ∀ (b : BitVec 8) (k : Fin 8), byteBit ⟨b⟩ k = b.getLsbD (7 - k) := by
  decide +kernel

theorem popcount_toBitVec : ∀ b : BitVec 8,
    popcount ⟨b⟩ = (List.range 8).countP (byteBit ⟨b⟩) := by
  decide +kernel

theorem byteBit_lookup : ∀ j k : Fin 8, byteBit (setOnLookup j) k = decide (j = k) ∧
    byteBit (setOffLookup j) k = decide (j ≠ k) ∧
    byteBit (tailMaskLookup j) k = decide (j.val = 0 ∨ 7 - k.val < j.val) := by
  decide

section Byte

variable {k : ℕ}

theorem byteBit_eq (b : UInt8) (hk : k < 8) : byteBit b k = b.toBitVec.getLsbD (7 - k) :=
  byteBit_toBitVec b.toBitVec ⟨k, hk⟩

theorem popcount_eq (b : UInt8) : popcount b = (List.range 8).countP (byteBit b) :=
  popcount_toBitVec b.toBitVec

theorem byteBit_or (a b : UInt8) (hk : k < 8) :
    byteBit (a ||| b) k = (byteBit a k || byteBit b k) := by
  simp [byteBit_eq, hk]

theorem byteBit_and (a b : UInt8) (hk : k < 8) :
    byteBit (a &&& b) k = (byteBit a k && byteBit b k) := by
  simp [byteBit_eq, hk]

theorem byteBit_not (b : UInt8) (hk : k < 8) : byteBit (~~~b) k = !byteBit b k := by
  simp [byteBit_eq, hk]
  omega

theorem byteBit_setOn {j : ℕ} (hj : j < 8) (hk : k < 8) :
    byteBit (setOnLookup j) k = decide (j = k) := by
  simpa [Fin.ext_iff] using (byteBit_lookup ⟨j, hj⟩ ⟨k, hk⟩).1

theorem byteBit_setOff {j : ℕ} (hj : j < 8) (hk : k < 8) :
    byteBit (setOffLookup j) k = decide (j ≠ k) := by
  simpa [Fin.ext_iff] using (byteBit_lookup ⟨j, hj⟩ ⟨k, hk⟩).2.1

theorem byteBit_tailMask {j : ℕ} (hj : j < 8) (hk : k < 8) :
    byteBit (tailMaskLookup j) k = decide (j = 0 ∨ 7 - k < j) :=
  (byteBit_lookup ⟨j, hj⟩ ⟨k, hk⟩).2.2

theorem byteBit_zero (hk : k < 8) : byteBit 0 k = false := by
  simp [byteBit_eq, hk]

theorem byteBit_allOnes (hk : k < 8) : byteBit 0xFF k = true := by
  interval_cases k <;> decide

end Byte

/-! ## Sequences of bytes -/

/-- Bit `i` of a sequence of bytes. -/
def dataBit (data : List UInt8) (i : ℕ) : Bool :=
  match data[i / 8]? with
  | some b => byteBit b (i % 8)
  | none => false

/-- The sum of the population counts. -/
def countBytes (data : List UInt8) : ℕ := (data.map popcount).sum

theorem dataBit_cons_lt (b : UInt8) (data : List UInt8) {i : ℕ} (hi : i < 8) :
    dataBit (b :: data) i = byteBit b i := by
  unfold dataBit
  rw [Nat.div_eq_of_lt hi, Nat.mod_eq_of_lt hi]
  rfl

theorem dataBit_cons_add (b : UInt8) (data : List UInt8) (i : ℕ) :
    dataBit (b :: data) (8 + i) = dataBit data i := by
  unfold dataBit
  rw [show (8 + i) / 8 = i / 8 + 1 by omega, show (8 + i) % 8 = i % 8 by omega,
    List.getElem?_cons_succ]

theorem dataBit_of_getElem? {data : List UInt8} {i : ℕ} {b : UInt8} (h : data[i / 8]? = some b) :
    dataBit data i = byteBit b (i % 8) := by
  unfold dataBit
  rw [h]

theorem dataBit_outside {data : List UInt8} {i : ℕ} (h : 8 * data.length ≤ i) :
    dataBit data i = false := by
  unfold dataBit
  rw [List.getElem?_eq_none (by omega)]

/-- The population counts count the bits of the sequence. -/
theorem countBytes_eq (data : List UInt8) :
    countBytes data = (List.range (8 * data.length)).countP (dataBit data) := by
  induction data with
  | nil => rfl
  | cons b data ih =>
    have hcons : countBytes (b :: data) = popcount b + countBytes data := rfl
    rw [hcons, List.length_cons, show 8 * (data.length + 1) = 8 + 8 * data.length by omega,
      List.range_add, List.countP_append, List.countP_map, popcount_eq, ih]
    have hfirst : (List.range 8).countP (byteBit b)
        = (List.range 8).countP (dataBit (b :: data)) := by
      apply List.countP_congr
      intro i hi
      rw [dataBit_cons_lt b data (List.mem_range.mp hi)]
    rw [hfirst]
    congr 1
    apply List.countP_congr
    intro i _
    rw [Function.comp_apply, dataBit_cons_add]

theorem countBytes_set {data : List UInt8} {i : ℕ} {b : UInt8} (h : data[i]? = some b) (c : UInt8) :
    countBytes (data.set i c) + popcount b = countBytes data + popcount c := by
  induction data generalizing i with
  | nil => simp at h
  | cons a data ih =>
    cases i with
    | zero =>
      obtain rfl : a = b := by simpa using h
      simp only [countBytes, List.set_cons_zero, List.map_cons, List.sum_cons]
      omega
    | succ i =>
      have hrec := ih (by simpa using h)
      simp only [countBytes, List.set_cons_succ, List.map_cons, List.sum_cons] at hrec ⊢
      omega

/-! ## Bit sets -/

/-- `NumBytesFromNumBits`. -/
def numBytesFromNumBits (numBits : ℕ) : ℕ := numBits / 8 + if numBits % 8 > 0 then 1 else 0

/-- `BitSet`. -/
structure BitSet where
  /-- Number of bits. -/
  numBits : UInt32
  /-- The bits. -/
  data : List UInt8
  /-- Number of bits that are on. -/
  numOn : UInt32
  /-- There are as many bytes as the bits need. -/
  length_data : data.length = numBytesFromNumBits numBits.toNat

namespace BitSet

/-- `BitSet(num_bits)`. -/
def new (numBits : UInt32) : BitSet where
  numBits := numBits
  data := List.replicate (numBytesFromNumBits numBits.toNat) 0
  numOn := 0
  length_data := List.length_replicate

/-- New bytes, whose bits are counted. -/
def recount (numBits : UInt32) (data : List UInt8)
    (h : data.length = numBytesFromNumBits numBits.toNat) : BitSet where
  numBits := numBits
  data := data
  numOn := UInt32.ofNat (countBytes data)
  length_data := h

/-- `BitSet(data, num_bits)`, for the memory that starts at `data`. -/
def fromData (mem : ℕ → UInt8) (numBits : UInt32) : BitSet :=
  recount numBits ((List.range (numBytesFromNumBits numBits.toNat)).map mem) (by simp)

/-- What is left of a set that was moved from. -/
def moved : BitSet := ⟨0, [], 0, rfl⟩

/-- `get`. -/
def get (s : BitSet) (i : ℕ) : Bool := decide (i < s.numBits.toNat) && dataBit s.data i

/-- `allOn`. -/
def allOn (s : BitSet) : Bool := s.numOn == s.numBits

/-- `set`. -/
def set (s : BitSet) (i : ℕ) (on : Bool) : BitSet :=
  if i ≥ s.numBits.toNat then s
  else
    let d := s.data.getD (i / 8) 0
    let d' := if on then d ||| setOnLookup (i % 8) else d &&& setOffLookup (i % 8)
    { numBits := s.numBits
      data := s.data.set (i / 8) d'
      numOn := s.numOn - UInt32.ofNat (popcount d) + UInt32.ofNat (popcount d')
      length_data := by rw [List.length_set, s.length_data] }

/-- `setAll`. -/
def setAll (s : BitSet) (on : Bool) : BitSet where
  numBits := s.numBits
  data := s.data.map fun _ => if on then 0xFF else 0x00
  numOn := if on then s.numBits else 0
  length_data := by rw [List.length_map, s.length_data]

/-- `clear`. -/
def clear (s : BitSet) : BitSet := s.setAll false

/-- `invert`; the mask of the last byte keeps its least significant bits. -/
def invert (s : BitSet) : BitSet :=
  recount s.numBits
    (s.data.mapIdx fun i b =>
      if i + 1 = s.data.length then ~~~b &&& tailMaskLookup (s.numBits.toNat % 8) else ~~~b)
    (by rw [List.length_mapIdx, s.length_data])

/-- `operator-=`; `none` when the other set has too few bytes. -/
def sub (s other : BitSet) : Option BitSet :=
  if other.data.length < s.data.length then none
  else
    some (recount s.numBits
      (s.data.mapIdx fun i b => b &&& ~~~(b &&& other.data.getD i 0))
      (by rw [List.length_mapIdx, s.length_data]))

/-- `orBitSet`.  For sets of different sizes the last byte is masked, by the
number of bytes; `none` when there is no last byte. -/
def orBitSet (s other : BitSet) : Option BitSet :=
  if s.numBits = other.numBits then
    some (recount s.numBits (s.data.mapIdx fun i b => b ||| other.data.getD i 0)
      (by rw [List.length_mapIdx, s.length_data]))
  else if s.data.length = 0 then none
  else
    some (recount s.numBits
      (s.data.mapIdx fun i b =>
        if i + 1 = s.data.length then
          if other.data.length ≥ s.data.length then
            (b ||| other.data.getD i 0) &&& tailMaskLookup (s.data.length % 8)
          else b
        else b ||| other.data.getD i 0)
      (by rw [List.length_mapIdx, s.length_data]))

/-- `andBitSet`; bytes that the other set does not have are cleared. -/
def andBitSet (s other : BitSet) : BitSet :=
  recount s.numBits (s.data.mapIdx fun i b => b &&& other.data.getD i 0)
    (by rw [List.length_mapIdx, s.length_data])

/-- `includesBitSet`, masked as `orBitSet` is; `none` when there is no last byte. -/
def includesBitSet (s other : BitSet) : Option Bool :=
  let included (i : ℕ) : Bool := s.data.getD i 0 ||| other.data.getD i 0 == s.data.getD i 0
  if s.numBits = other.numBits then some ((List.range s.data.length).all included)
  else if s.data.length = 0 then none
  else
    let last := s.data.length - 1
    some ((List.range (min last other.data.length)).all included &&
      (decide (other.data.length < s.data.length) ||
        (s.data.getD last 0 ||| other.data.getD last 0) &&& tailMaskLookup (s.data.length % 8)
          == s.data.getD last 0))

/-! ## Counting -/

/-- The number of indexes whose bit is on. -/
def countOn (s : BitSet) : ℕ := (List.range s.numBits.toNat).countP s.get

/-- `numOnBits` is the number of indexes whose bit is on, and `allOn` holds
exactly when all of them are. -/
def Counted (s : BitSet) : Prop :=
  s.numOn.toNat = s.countOn ∧ (s.allOn = true ↔ ∀ i, i < s.numBits.toNat → s.get i = true)

/-- No padding bit is on. -/
def PaddingOff (numBits : ℕ) (bit : ℕ → Bool) : Prop := ∀ i, numBits ≤ i → bit i = false

theorem countOn_eq (s : BitSet) :
    s.countOn = (List.range s.numBits.toNat).countP (dataBit s.data) := by
  apply List.countP_congr
  intro i hi
  rw [get, decide_eq_true (List.mem_range.mp hi), Bool.true_and]

theorem countOn_le (s : BitSet) : s.countOn ≤ s.numBits.toNat := by
  have hle := List.countP_le_length (p := s.get) (l := List.range s.numBits.toNat)
  rwa [List.length_range] at hle

/-- A right count makes `allOn` right. -/
theorem counted_iff (s : BitSet) : s.Counted ↔ s.numOn.toNat = s.countOn := by
  refine ⟨fun h => h.1, fun h => ⟨h, ?_⟩⟩
  rw [allOn, beq_iff_eq, ← UInt32.toNat_inj, h]
  constructor
  · intro heq i hi
    have hlen : (List.range s.numBits.toNat).countP s.get
        = (List.range s.numBits.toNat).length := by
      rw [List.length_range]
      exact heq
    exact List.countP_eq_length.mp hlen i (List.mem_range.mpr hi)
  · intro hall
    rw [countOn, List.countP_eq_length.mpr, List.length_range]
    intro i hi
    exact hall i (List.mem_range.mp hi)

/-- How far the bytes reach behind the bits. -/
theorem length_data_bounds (s : BitSet) : s.numBits.toNat ≤ 8 * s.data.length ∧
    8 * s.data.length < s.numBits.toNat + 8 := by
  rw [s.length_data, numBytesFromNumBits]
  split_ifs <;> omega

/-- The bits on in the bytes are those of the indexes and the padding bits. -/
theorem countBytes_split (s : BitSet) :
    countBytes s.data = s.countOn + (List.range (8 * s.data.length - s.numBits.toNat)).countP
      fun k => dataBit s.data (s.numBits.toNat + k) := by
  have hle := s.length_data_bounds.1
  rw [countBytes_eq, s.countOn_eq,
    show 8 * s.data.length = s.numBits.toNat + (8 * s.data.length - s.numBits.toNat) by omega,
    List.range_add, List.countP_append, List.countP_map, Nat.add_sub_cancel_left]
  rfl

/-- A count over whole bytes is right exactly when no padding bit is on. -/
theorem counted_iff_paddingOff (s : BitSet) (hnum : s.numOn = UInt32.ofNat (countBytes s.data)) :
    s.Counted ↔ PaddingOff s.numBits.toNat (dataBit s.data) := by
  have hbounds := s.length_data_bounds
  have hsplit := s.countBytes_split
  set pad := (List.range (8 * s.data.length - s.numBits.toNat)).countP
    fun k => dataBit s.data (s.numBits.toNat + k) with hpad
  have hpadlt : pad < 8 := by
    have hle := List.countP_le_length
      (p := fun k => dataBit s.data (s.numBits.toNat + k))
      (l := List.range (8 * s.data.length - s.numBits.toNat))
    rw [List.length_range] at hle
    omega
  have hon : s.countOn < 2 ^ 32 := lt_of_le_of_lt s.countOn_le s.numBits.toNat_lt
  -- the padding bits are too few to make the count wrap around to the right one
  have hzero : (s.countOn + pad) % 2 ^ 32 = s.countOn ↔ pad = 0 := by omega
  rw [counted_iff, hnum, UInt32.toNat_ofNat', hsplit, hzero, hpad, List.countP_eq_zero]
  constructor
  · intro hoff i hi
    rcases Nat.lt_or_ge i (8 * s.data.length) with hlt | hge
    · have hk := hoff (i - s.numBits.toNat) (List.mem_range.mpr (by omega))
      rw [Nat.add_sub_cancel' hi] at hk
      simpa using hk
    · exact dataBit_outside hge
  · intro hoff k _
    simpa using hoff (s.numBits.toNat + k) (Nat.le_add_right _ _)

/-- **Counting anew** is right exactly when no padding bit is on. -/
theorem counted_recount {numBits : UInt32} {data : List UInt8}
    (h : data.length = numBytesFromNumBits numBits.toNat) :
    (recount numBits data h).Counted ↔ PaddingOff numBits.toNat (dataBit data) :=
  counted_iff_paddingOff (recount numBits data h) rfl

/-- **Setting a bit** keeps the count. -/
theorem counted_set {s : BitSet} (h : s.Counted) (i : ℕ) (on : Bool) : (s.set i on).Counted := by
  unfold set
  by_cases hi : i ≥ s.numBits.toNat
  · rwa [if_pos hi]
  · rw [if_neg hi]
    have hlt : i / 8 < s.data.length := by
      have hbounds := s.length_data_bounds
      omega
    set d := s.data.getD (i / 8) 0 with hd
    set d' := if on then d ||| setOnLookup (i % 8) else d &&& setOffLookup (i % 8) with hd'
    have hget : s.data[i / 8]? = some d := by
      rw [hd, List.getD_eq_getElem?_getD, List.getElem?_eq_getElem hlt, Option.getD_some]
    have hbytes := countBytes_set hget d'
    set t : BitSet := ⟨s.numBits, s.data.set (i / 8) d',
      s.numOn - UInt32.ofNat (popcount d) + UInt32.ofNat (popcount d'),
      by rw [List.length_set, s.length_data]⟩ with ht
    -- the padding bits are as before
    have hpad : ∀ k, dataBit t.data (s.numBits.toNat + k) = dataBit s.data (s.numBits.toNat + k) := by
      intro k
      show dataBit (s.data.set (i / 8) d') _ = _
      by_cases hbyte : (s.numBits.toNat + k) / 8 = i / 8
      · have hk : (s.numBits.toNat + k) % 8 < 8 := Nat.mod_lt _ (by decide)
        have hi8 : i % 8 < 8 := Nat.mod_lt _ (by decide)
        have hne : i % 8 ≠ (s.numBits.toNat + k) % 8 := by omega
        rw [dataBit_of_getElem? (by rw [hbyte, List.getElem?_set_self hlt]),
          dataBit_of_getElem? (by rw [hbyte, hget]), hd']
        cases on with
        | true => simp [byteBit_or _ _ hk, byteBit_setOn hi8 hk, hne]
        | false => simp [byteBit_and _ _ hk, byteBit_setOff hi8 hk, hne]
      · unfold dataBit
        rw [List.getElem?_set_ne (Ne.symm hbyte)]
    have hs := s.countBytes_split
    have ht' := t.countBytes_split
    have hlen : t.data.length = s.data.length := List.length_set
    have hnb : t.numBits.toNat = s.numBits.toNat := rfl
    rw [hlen, hnb] at ht'
    simp only [hpad] at ht'
    have hdata : countBytes t.data = countBytes (s.data.set (i / 8) d') := rfl
    have hle : popcount d ≤ 8 ∧ popcount d' ≤ 8 := by
      constructor <;> exact le_trans List.countP_le_length (by simp)
    have honlt : t.countOn < 2 ^ 32 := lt_of_le_of_lt t.countOn_le t.numBits.toNat_lt
    rw [counted_iff] at h ⊢
    show (s.numOn - UInt32.ofNat (popcount d) + UInt32.ofNat (popcount d')).toNat = _
    rw [UInt32.toNat_add, UInt32.toNat_sub, UInt32.toNat_ofNat', UInt32.toNat_ofNat', h]
    omega

theorem numBits_eq_of_length (s : BitSet) {i : ℕ} (hi : i < s.numBits.toNat) :
    i / 8 < s.data.length := by
  have hbounds := s.length_data_bounds
  omega

/-! ## Single bits -/

theorem get_outside (s : BitSet) {i : ℕ} (hi : s.numBits.toNat ≤ i) : s.get i = false := by
  rw [get, decide_eq_false (not_lt.mpr hi), Bool.false_and]

@[simp] theorem numBits_new (numBits : UInt32) : (new numBits).numBits = numBits := rfl

@[simp] theorem numBits_setAll (s : BitSet) (on : Bool) : (s.setAll on).numBits = s.numBits := rfl

@[simp] theorem numBits_fromData (mem : ℕ → UInt8) (numBits : UInt32) :
    (fromData mem numBits).numBits = numBits := rfl

@[simp] theorem numBits_set (s : BitSet) (i : ℕ) (on : Bool) : (s.set i on).numBits = s.numBits := by
  unfold set
  split
  · rfl
  · rfl

theorem get_new (numBits : UInt32) (i : ℕ) : (new numBits).get i = false := by
  unfold get
  rcases Nat.lt_or_ge i numBits.toNat with hi | hi
  · have hlt : i / 8 < (new numBits).data.length := by
      have hbounds := (new numBits).length_data_bounds
      rw [numBits_new] at hbounds
      omega
    have hget : (new numBits).data[i / 8]? = some 0 := by
      rw [List.getElem?_eq_getElem hlt]
      exact congrArg some (List.getElem_replicate _)
    rw [dataBit_of_getElem? hget, byteBit_zero (Nat.mod_lt _ (by decide)), Bool.and_false]
  · exact (new numBits).get_outside hi

theorem get_setAll (s : BitSet) (on : Bool) {i : ℕ} (hi : i < s.numBits.toNat) :
    (s.setAll on).get i = on := by
  have hlt := s.numBits_eq_of_length hi
  have hk : i % 8 < 8 := Nat.mod_lt _ (by decide)
  have hget : (s.setAll on).data[i / 8]? = some (if on then 0xFF else 0x00) := by
    simp only [setAll, List.getElem?_map, List.getElem?_eq_getElem hlt, Option.map_some]
  have hnb : i < (s.setAll on).numBits.toNat := hi
  rw [get, decide_eq_true hnb, Bool.true_and, dataBit_of_getElem? hget]
  cases on with
  | true => exact byteBit_allOnes hk
  | false => exact byteBit_zero hk

/-- **Setting a bit** changes this bit alone. -/
theorem get_set (s : BitSet) {i : ℕ} (on : Bool) (hi : i < s.numBits.toNat) (j : ℕ) :
    (s.set i on).get j = if j = i then on else s.get j := by
  have hlt := s.numBits_eq_of_length hi
  have hi8 : i % 8 < 8 := Nat.mod_lt _ (by decide)
  have hj8 : j % 8 < 8 := Nat.mod_lt _ (by decide)
  obtain ⟨d, hd⟩ : ∃ d, s.data[i / 8]? = some d := ⟨_, List.getElem?_eq_getElem hlt⟩
  have hgetD : s.data.getD (i / 8) 0 = d := by
    rw [List.getD_eq_getElem?_getD, hd, Option.getD_some]
  have hset : (s.set i on).data =
      s.data.set (i / 8) (if on then d ||| setOnLookup (i % 8) else d &&& setOffLookup (i % 8)) := by
    unfold set
    rw [if_neg (not_le.mpr hi)]
    simp only [hgetD]
  unfold get
  rw [numBits_set]
  rcases Nat.lt_or_ge j s.numBits.toNat with hj | hj
  · rw [decide_eq_true hj, Bool.true_and, Bool.true_and]
    by_cases hbyte : j / 8 = i / 8
    · have hnew : (s.set i on).data[j / 8]? =
          some (if on then d ||| setOnLookup (i % 8) else d &&& setOffLookup (i % 8)) := by
        rw [hset, hbyte, List.getElem?_set_self hlt]
      rw [dataBit_of_getElem? hnew, dataBit_of_getElem? (by rw [hbyte, hd])]
      have hiff : i % 8 = j % 8 ↔ j = i := by omega
      cases on with
      | true =>
        rw [if_pos rfl, byteBit_or _ _ hj8, byteBit_setOn hi8 hj8]
        by_cases hji : j = i
        · simp [hji]
        · simp [hji, hiff]
      | false =>
        rw [if_neg Bool.false_ne_true, byteBit_and _ _ hj8, byteBit_setOff hi8 hj8]
        by_cases hji : j = i
        · simp [hji]
        · simp [hji, hiff]
    · have hne : j ≠ i := by
        rintro rfl
        exact hbyte rfl
      rw [if_neg hne]
      unfold dataBit
      rw [hset, List.getElem?_set_ne (Ne.symm hbyte)]
  · rw [decide_eq_false (not_lt.mpr hj), Bool.false_and, Bool.false_and, if_neg (by omega)]

/-- Setting a bit keeps the number of bits that are on in the bytes. -/
theorem numOn_set {s : BitSet} (h : s.numOn = UInt32.ofNat (countBytes s.data)) (i : ℕ) (on : Bool) :
    (s.set i on).numOn = UInt32.ofNat (countBytes (s.set i on).data) := by
  unfold set
  split
  · exact h
  next hi =>
    have hlt := s.numBits_eq_of_length (not_le.mp hi)
    have hget : s.data[i / 8]? = some (s.data.getD (i / 8) 0) := by
      rw [List.getD_eq_getElem?_getD, List.getElem?_eq_getElem hlt, Option.getD_some]
    have hbytes := countBytes_set hget (if on then s.data.getD (i / 8) 0 ||| setOnLookup (i % 8)
      else s.data.getD (i / 8) 0 &&& setOffLookup (i % 8))
    dsimp only
    rw [h, ← UInt32.toNat_inj, UInt32.toNat_add, UInt32.toNat_sub, UInt32.toNat_ofNat',
      UInt32.toNat_ofNat', UInt32.toNat_ofNat', UInt32.toNat_ofNat']
    omega

/-- Counting the bits of a set anew gives the set. -/
theorem recount_eq {s : BitSet} (h : s.numOn = UInt32.ofNat (countBytes s.data)) {numBits : UInt32}
    {data : List UInt8} (hbits : numBits = s.numBits) (hdata : data = s.data)
    (hlen : data.length = numBytesFromNumBits numBits.toNat) : recount numBits data hlen = s := by
  subst hbits hdata
  rw [recount, ← h]

/-- **Setting all bits** makes the count right. -/
theorem counted_setAll (s : BitSet) (on : Bool) : (s.setAll on).Counted := by
  have hbit : ∀ i, i < s.numBits.toNat → (s.setAll on).get i = on := fun i hi => s.get_setAll on hi
  rw [counted_iff]
  cases on with
  | true =>
    rw [countOn, List.countP_eq_length.mpr, List.length_range]
    · rfl
    · intro i hi
      exact hbit i (List.mem_range.mp hi)
  | false =>
    rw [countOn, List.countP_eq_zero.mpr]
    · rfl
    · intro i hi
      rw [hbit i (List.mem_range.mp hi)]
      decide

end BitSet

end KTorrent
