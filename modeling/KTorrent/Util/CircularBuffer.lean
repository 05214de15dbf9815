import KTorrent.Lib.Ring

/-!
# Circular buffers

The model of `CircularBuffer`, a byte queue in an array of fixed capacity.

* `CircularBuffer.write`, `read`, `firstRange`, `secondRange` — as the source computes them;
  they fail where bytes outside an array are accessed.
* `Fifo` — the purpose: a queue of bytes that takes no more than its capacity.
* `Stores` — a buffer holds a queue; `write_stores`, `read_stores` — the calls keep that.
* `answers_eq` — along every sequence of calls the buffer answers as the queue does.
-/

namespace KTorrent

open Buffer Ring

/-! ## The model -/

/-- `CircularBuffer`. -/
structure CircularBuffer where
  data : List UInt8
  bufCapacity : UInt32
  start : UInt32
  bufSize : UInt32
  /-- The array that the constructor allocates. -/
  length_data : data.length = bufCapacity.toNat

/-- A part of an array, from `off` on; `none` when it is not inside. -/
def sliced (bytes : List UInt8) (off n : ℕ) : Option (List UInt8) :=
  if off + n ≤ bytes.length then some ((bytes.drop off).take n) else none

namespace CircularBuffer

/-- `CircularBuffer(cap)`, with what the array happens to hold. -/
def new (cap : UInt32) (mem : ℕ → UInt8) : CircularBuffer where
  data := (List.range cap.toNat).map mem
  bufCapacity := cap
  start := 0
  bufSize := 0
  length_data := by simp

/-- `CircularBuffer::empty`. -/
def empty (b : CircularBuffer) : Bool := b.bufSize == 0

/-- `CircularBuffer::full`. -/
def full (b : CircularBuffer) : Bool := b.bufSize == b.bufCapacity

/-- `memcpy` into the array. -/
def copyTo (b : CircularBuffer) (off : ℕ) (src : List UInt8) : Option CircularBuffer :=
  if h : off + src.length ≤ b.data.length then
    some { b with
      data := overwrite b.data off src
      length_data := by rw [length_overwrite h, b.length_data] }
  else none

/-- `CircularBuffer::firstRange`. -/
def firstRange (b : CircularBuffer) : Option (List UInt8) :=
  if b.start + b.bufSize > b.bufCapacity then
    sliced b.data b.start.toNat (b.data.length - b.start.toNat)
  else sliced b.data b.start.toNat b.bufSize.toNat

/-- `CircularBuffer::secondRange`. -/
def secondRange (b : CircularBuffer) : Option (List UInt8) :=
  if b.start + b.bufSize > b.bufCapacity then
    sliced b.data 0 (b.bufSize - (b.bufCapacity - b.start)).toNat
  else some []

/-- The copying of `read`: what the first range lacks comes from the second one. -/
def copyFrom (b : CircularBuffer) (r1 : List UInt8) (toRead : UInt32) : Option (List UInt8) :=
  if r1.length ≥ toRead.toNat then sliced r1 0 toRead.toNat
  else do
    let r2 ← b.secondRange
    let tail ← sliced r2 0 (toRead.toNat - r1.length)
    some (r1 ++ tail)

/-- `CircularBuffer::read`: the number of bytes read, and the bytes. -/
def read (b : CircularBuffer) (maxLen : UInt32) : Option ((UInt32 × List UInt8) × CircularBuffer) :=
  if b.empty then some ((0, []), b)
  else do
    let toRead := if b.bufSize < maxLen then b.bufSize else maxLen
    let r1 ← b.firstRange
    let out ← b.copyFrom r1 toRead
    some ((toRead, out),
      { b with start := (b.start + toRead) % b.bufCapacity, bufSize := b.bufSize - toRead })

/-- The copying of `write`: behind the end of the array it goes on at the front. -/
def copyAround (b : CircularBuffer) (writePos toWrite : UInt32) (buf : List UInt8) :
    Option CircularBuffer :=
  if writePos + toWrite > b.bufCapacity then do
    let w := b.bufCapacity - writePos
    let front ← sliced buf 0 w.toNat
    let b ← b.copyTo writePos.toNat front
    let back ← sliced buf w.toNat (toWrite - w).toNat
    b.copyTo 0 back
  else do
    let src ← sliced buf 0 toWrite.toNat
    b.copyTo writePos.toNat src

/-- `CircularBuffer::write`: the number of bytes written. -/
def write (b : CircularBuffer) (buf : List UInt8) : Option (UInt32 × CircularBuffer) :=
  if b.full then some (0, b)
  else do
    let freeSpace := b.bufCapacity - b.bufSize
    let toWrite := if freeSpace.toNat < buf.length then freeSpace else UInt32.ofNat buf.length
    let writePos := (b.start + b.bufSize) % b.bufCapacity
    let written ← b.copyAround writePos toWrite buf
    some (toWrite, { written with bufSize := written.bufSize + toWrite })

end CircularBuffer

/-! ## The purpose -/

/-- A call of a byte queue. -/
inductive FifoCall where
  | write (buf : List UInt8)
  | read (maxLen : UInt32)

/-- What a call returns: a number of bytes, and the bytes that were read. -/
structure FifoAnswer where
  count : ℕ
  bytes : List UInt8
  deriving DecidableEq

namespace Fifo

/-- A call of a queue with room for `cap` bytes. -/
def call (cap : ℕ) (q : List UInt8) : FifoCall → FifoAnswer × List UInt8
  | .write buf =>
    let n := min buf.length (cap - q.length)
    (⟨n, []⟩, q ++ buf.take n)
  | .read maxLen =>
    let n := min maxLen.toNat q.length
    (⟨n, q.take n⟩, q.drop n)

/-- The answers to a sequence of calls, and the queue in the end. -/
def answers (cap : ℕ) : List UInt8 → List FifoCall → List FifoAnswer × List UInt8
  | q, [] => ([], q)
  | q, c :: calls =>
    let r := call cap q c
    let rest := answers cap r.2 calls
    (r.1 :: rest.1, rest.2)

end Fifo

namespace CircularBuffer

/-- A call of the buffer. -/
def call (b : CircularBuffer) : FifoCall → Option (FifoAnswer × CircularBuffer)
  | .write buf => (b.write buf).map fun r => (⟨r.1.toNat, []⟩, r.2)
  | .read maxLen => (b.read maxLen).map fun r => (⟨r.1.1.toNat, r.1.2⟩, r.2)

/-- The answers to a sequence of calls, and the buffer in the end. -/
def answers (b : CircularBuffer) : List FifoCall → Option (List FifoAnswer × CircularBuffer)
  | [] => some ([], b)
  | c :: calls => do
    let r ← b.call c
    let rest ← r.2.answers calls
    some (r.1 :: rest.1, rest.2)

/-- A buffer of less than 2³¹ bytes holds a queue. -/
structure Stores (b : CircularBuffer) (q : List UInt8) : Prop where
  capacity_lt : b.bufCapacity.toNat < 2 ^ 31
  start_lt : 0 < b.bufCapacity.toNat → b.start.toNat < b.bufCapacity.toNat
  size_le : b.bufSize.toNat ≤ b.bufCapacity.toNat
  eq_contents : contents b.data b.start.toNat b.bufSize.toNat = q

/-- A part of an array that is inside. -/
theorem sliced_eq {bytes : List UInt8} {off n : ℕ} (h : off + n ≤ bytes.length) :
    sliced bytes off n = some ((bytes.drop off).take n) := if_pos h

/-- Copying into the array changes nothing else. -/
theorem copyTo_eq {b : CircularBuffer} {off : ℕ} {src : List UInt8}
    (h : off + src.length ≤ b.data.length) :
    ∃ b', b.copyTo off src = some b' ∧ b'.data = overwrite b.data off src ∧
      b'.bufCapacity = b.bufCapacity ∧ b'.start = b.start ∧ b'.bufSize = b.bufSize :=
  ⟨_, dif_pos h, rfl, rfl, rfl, rfl⟩

/-- What is copied is stored in the ring, and nothing else changes. -/
theorem copyAround_eq {b : CircularBuffer} {p k : UInt32} {buf : List UInt8}
    (hcap : b.bufCapacity.toNat < 2 ^ 31) (hp : p.toNat < b.bufCapacity.toNat)
    (hk : k.toNat ≤ b.bufCapacity.toNat) (hbuf : k.toNat ≤ buf.length) :
    ∃ b', b.copyAround p k buf = some b' ∧ b'.data = store b.data p.toNat (buf.take k.toNat) ∧
      b'.bufCapacity = b.bufCapacity ∧ b'.start = b.start ∧ b'.bufSize = b.bufSize := by
  have hdata := b.length_data
  have htake : (buf.take k.toNat).length = k.toNat := List.length_take_of_le hbuf
  have hover : p + k > b.bufCapacity ↔ b.data.length < p.toNat + k.toNat := by
    rw [gt_iff_lt, UInt32.lt_iff_toNat_lt, UInt32.toNat_add, Nat.mod_eq_of_lt (by omega), hdata]
  unfold copyAround store
  by_cases hwrap : p + k > b.bufCapacity
  · have hw : (b.bufCapacity - p).toNat = b.data.length - p.toNat := by
      rw [UInt32.toNat_sub_of_le _ _ (UInt32.le_iff_toNat_le.mpr hp.le), hdata]
    have hlt := hover.mp hwrap
    have hrest : (k - (b.bufCapacity - p)).toNat = k.toNat - (b.data.length - p.toNat) := by
      rw [UInt32.toNat_sub_of_le _ _ (UInt32.le_iff_toNat_le.mpr (by omega)), hw]
    have hfront : (buf.take k.toNat).take (b.data.length - p.toNat)
        = (buf.drop 0).take (b.data.length - p.toNat) := by
      rw [List.take_take, min_eq_left (by omega), List.drop_zero]
    have hflen : ((buf.drop 0).take (b.data.length - p.toNat)).length = b.data.length - p.toNat :=
      List.length_take_of_le (by rw [List.drop_zero]; omega)
    obtain ⟨b₁, hb₁, hd₁, hc₁, hs₁, hz₁⟩ := @copyTo_eq b p.toNat
      ((buf.drop 0).take (b.data.length - p.toNat)) (by omega)
    have hlen₁ : b₁.data.length = b.data.length := by rw [b₁.length_data, hc₁, hdata]
    have hblen : ((buf.drop (b.data.length - p.toNat)).take
        (k.toNat - (b.data.length - p.toNat))).length = k.toNat - (b.data.length - p.toNat) :=
      List.length_take_of_le (by rw [List.length_drop]; omega)
    obtain ⟨b₂, hb₂, hd₂, hc₂, hs₂, hz₂⟩ := @copyTo_eq b₁ 0
      ((buf.drop (b.data.length - p.toNat)).take (k.toNat - (b.data.length - p.toNat))) (by omega)
    refine ⟨b₂, ?_, ?_, hc₂.trans hc₁, hs₂.trans hs₁, hz₂.trans hz₁⟩
    · rw [if_pos hwrap]
      dsimp only
      rw [hrest, hw, sliced_eq (by omega), sliced_eq (by omega)]
      simp only [Option.bind_eq_bind, Option.bind_some, hb₁, hb₂]
    · rw [hd₂, hd₁, if_neg (by omega), hfront, List.drop_take]
  · have hle : p.toNat + k.toNat ≤ b.data.length := not_lt.mp (fun h => hwrap (hover.mpr h))
    obtain ⟨b₁, hb₁, hd₁, hc₁, hs₁, hz₁⟩ := @copyTo_eq b p.toNat
      ((buf.drop 0).take k.toNat) (by rw [List.drop_zero]; omega)
    refine ⟨b₁, ?_, ?_, hc₁, hs₁, hz₁⟩
    · rw [if_neg hwrap, sliced_eq (by omega)]
      simp only [Option.bind_eq_bind, Option.bind_some, hb₁]
    · rw [hd₁, if_pos (by omega), List.drop_zero]

namespace Stores

variable {b : CircularBuffer} {q : List UInt8}

/-- A buffer that is not empty, or not full, has room for a byte. -/
theorem length_eq (h : b.Stores q) : q.length = b.bufSize.toNat := by
  have hdata := b.length_data
  have hsize := h.size_le
  rw [← h.eq_contents]
  rcases Nat.eq_zero_or_pos b.bufCapacity.toNat with hzero | hpos
  · rw [show b.data = [] from List.eq_nil_of_length_eq_zero (by omega)]
    simp only [contents, List.drop_nil, List.take_nil, List.append_nil, List.length_nil]
    omega
  · have hstart := h.start_lt hpos
    exact length_contents (by omega) (by omega)

/-- The end of the contents, before it is wrapped. -/
theorem toNat_end (h : b.Stores q) (hpos : 0 < b.bufCapacity.toNat) {n : UInt32}
    (hn : n.toNat ≤ b.bufCapacity.toNat) :
    (b.start + n).toNat = b.start.toNat + n.toNat ∧
      ((b.start + n) % b.bufCapacity).toNat =
        wrap b.bufCapacity.toNat (b.start.toNat + n.toNat) := by
  have hstart := h.start_lt hpos
  have hcap := h.capacity_lt
  have hsum : (b.start + n).toNat = b.start.toNat + n.toNat := by
    rw [UInt32.toNat_add, Nat.mod_eq_of_lt (by omega)]
  exact ⟨hsum, by rw [UInt32.toNat_mod, hsum, mod_once (by omega)]⟩

/-- **Writing** appends what there is room for. -/
theorem write_stores (h : b.Stores q) (buf : List UInt8) :
    ∃ n b', b.write buf = some (n, b') ∧
      n.toNat = min buf.length (b.bufCapacity.toNat - q.length) ∧
      b'.bufCapacity = b.bufCapacity ∧ b'.Stores (q ++ buf.take n.toNat) := by
  have hlen := h.length_eq
  have hsize := h.size_le
  have hcap := h.capacity_lt
  have hdata := b.length_data
  unfold write
  by_cases hfull : b.full = true
  · have heq : b.bufSize = b.bufCapacity := by simpa [full] using hfull
    rw [if_pos hfull]
    refine ⟨0, b, rfl, ?_, rfl, ?_⟩
    · rw [hlen, heq, Nat.sub_self, Nat.min_zero]
      rfl
    · simpa using h
  rw [if_neg hfull]
  have hroom : b.bufSize.toNat < b.bufCapacity.toNat := by
    have hne : b.bufSize.toNat ≠ b.bufCapacity.toNat := by
      intro heq
      exact hfull (by simpa [full] using UInt32.toNat_inj.mp heq)
    omega
  have hpos : 0 < b.bufCapacity.toNat := by omega
  have hstart := h.start_lt hpos
  have hfree : (b.bufCapacity - b.bufSize).toNat = b.bufCapacity.toNat - b.bufSize.toNat :=
    UInt32.toNat_sub_of_le _ _ (UInt32.le_iff_toNat_le.mpr hsize)
  dsimp only
  -- how much is written
  obtain ⟨k, hk⟩ : ∃ k, k = if (b.bufCapacity - b.bufSize).toNat < buf.length then
    b.bufCapacity - b.bufSize else UInt32.ofNat buf.length := ⟨_, rfl⟩
  have hkn : k.toNat = min buf.length (b.bufCapacity.toNat - b.bufSize.toNat) := by
    rw [hk]
    split_ifs with hless
    · omega
    · rw [UInt32.toNat_ofNat', Nat.mod_eq_of_lt (by omega)]
      omega
  -- and where to
  obtain ⟨p, hp⟩ : ∃ p, p = (b.start + b.bufSize) % b.bufCapacity := ⟨_, rfl⟩
  have hpn : p.toNat = wrap b.bufCapacity.toNat (b.start.toNat + b.bufSize.toNat) := by
    rw [hp]
    exact (h.toNat_end hpos hsize).2
  have hplt : p.toNat < b.bufCapacity.toNat := by
    rw [hpn]
    unfold wrap
    split_ifs <;> omega
  have htake : (buf.take k.toNat).length = k.toNat := List.length_take_of_le (by omega)
  obtain ⟨b', hb', hd, hc, hs, hz⟩ :=
    copyAround_eq hcap hplt (show k.toNat ≤ b.bufCapacity.toNat by omega)
      (show k.toNat ≤ buf.length by omega)
  have hnew : (b'.bufSize + k).toNat = b.bufSize.toNat + k.toNat := by
    rw [hz, UInt32.toNat_add, Nat.mod_eq_of_lt (by omega)]
  refine ⟨k, { b' with bufSize := b'.bufSize + k }, ?_, by rw [hkn, hlen], hc, ?_⟩
  · rw [← hk, ← hp, hb']
    rfl
  refine ⟨hc.symm ▸ hcap, fun _ => ?_, ?_, ?_⟩
  · dsimp only
    rw [hs, hc]
    exact hstart
  · dsimp only
    rw [hnew, hc]
    omega
  · dsimp only
    have hcontents := @contents_store _ b.data (buf.take k.toNat) b.start.toNat
      b.bufSize.toNat (by omega) (by omega)
    rw [htake, hdata, ← hpn, h.eq_contents] at hcontents
    rw [hnew, hd, hs, hcontents]

/-- The two ranges give the bytes in front. -/
theorem copyFrom_eq (h : b.Stores q) (hpos : 0 < b.bufCapacity.toNat) {n : UInt32}
    (hn : n.toNat ≤ b.bufSize.toNat) :
    ∃ r1, b.firstRange = some r1 ∧
      b.copyFrom r1 n = some (contents b.data b.start.toNat n.toNat) := by
  have hdata := b.length_data
  have hsize := h.size_le
  have hstart := h.start_lt hpos
  have hover : b.start + b.bufSize > b.bufCapacity ↔
      b.data.length < b.start.toNat + b.bufSize.toNat := by
    rw [gt_iff_lt, UInt32.lt_iff_toNat_lt, (h.toNat_end hpos hsize).1, hdata]
  unfold firstRange copyFrom secondRange
  by_cases hwrap : b.start + b.bufSize > b.bufCapacity
  · have hlt := hover.mp hwrap
    have hlen : (b.data.drop b.start.toNat).length = b.data.length - b.start.toNat :=
      List.length_drop
    refine ⟨b.data.drop b.start.toNat, ?_, ?_⟩
    · rw [if_pos hwrap, sliced_eq (by omega), List.take_of_length_le (by omega)]
    · split_ifs with hfirst
      · rw [sliced_eq (by omega), List.drop_zero, contents_inside (by omega)]
      · have hback : (b.bufSize - (b.bufCapacity - b.start)).toNat =
            b.bufSize.toNat - (b.data.length - b.start.toNat) := by
          have hw : (b.bufCapacity - b.start).toNat = b.bufCapacity.toNat - b.start.toNat :=
            UInt32.toNat_sub_of_le _ _ (UInt32.le_iff_toNat_le.mpr hstart.le)
          rw [UInt32.toNat_sub_of_le _ _ (UInt32.le_iff_toNat_le.mpr (by omega)), hw, hdata]
        rw [hback, sliced_eq (by omega), Option.bind_eq_bind, Option.bind_some, List.drop_zero,
          sliced_eq (by rw [List.length_take]; omega), Option.bind_some, List.drop_zero,
          List.take_take, min_eq_left (by omega), contents_over (by omega) (by omega) (by omega),
          hlen]
  · have hle : b.start.toNat + b.bufSize.toNat ≤ b.data.length :=
      not_lt.mp fun hlt => hwrap (hover.mpr hlt)
    have hlen : ((b.data.drop b.start.toNat).take b.bufSize.toNat).length = b.bufSize.toNat :=
      List.length_take_of_le (by rw [List.length_drop]; omega)
    refine ⟨(b.data.drop b.start.toNat).take b.bufSize.toNat, ?_, ?_⟩
    · rw [if_neg hwrap, sliced_eq (by omega)]
    · rw [if_pos (by omega), sliced_eq (by omega), List.drop_zero, List.take_take,
        min_eq_left hn, contents_inside (by omega)]

/-- **Reading** takes bytes from the front. -/
theorem read_stores (h : b.Stores q) (maxLen : UInt32) :
    ∃ n b', b.read maxLen = some ((n, q.take n.toNat), b') ∧
      n.toNat = min maxLen.toNat q.length ∧
      b'.bufCapacity = b.bufCapacity ∧ b'.Stores (q.drop n.toNat) := by
  have hlen := h.length_eq
  have hsize := h.size_le
  have hdata := b.length_data
  unfold read
  by_cases hempty : b.empty = true
  · have hzero : b.bufSize = 0 := by simpa [empty] using hempty
    rw [if_pos hempty]
    refine ⟨0, b, rfl, ?_, rfl, ?_⟩
    · rw [hlen, hzero]
      exact (Nat.min_zero _).symm
    · simpa using h
  rw [if_neg hempty]
  have hsome : 0 < b.bufSize.toNat := by
    rw [Nat.pos_iff_ne_zero]
    intro heq
    exact hempty (by simpa [empty] using UInt32.toNat_inj.mp heq)
  have hpos : 0 < b.bufCapacity.toNat := by omega
  have hstart := h.start_lt hpos
  dsimp only
  obtain ⟨n, hn⟩ : ∃ n, n = if b.bufSize < maxLen then b.bufSize else maxLen := ⟨_, rfl⟩
  have hnn : n.toNat = min maxLen.toNat b.bufSize.toNat := by
    rw [hn]
    split_ifs with hless
    · have hlt := UInt32.lt_iff_toNat_lt.mp hless
      omega
    · have hge := not_lt.mp fun hlt => hless (UInt32.lt_iff_toNat_lt.mpr hlt)
      omega
  obtain ⟨r1, hr1, hout⟩ := h.copyFrom_eq hpos (show n.toNat ≤ b.bufSize.toNat by omega)
  have hnext := (h.toNat_end hpos (show n.toNat ≤ b.bufCapacity.toNat by omega)).2
  have hleft : (b.bufSize - n).toNat = b.bufSize.toNat - n.toNat :=
    UInt32.toNat_sub_of_le _ _ (UInt32.le_iff_toNat_le.mpr (by omega))
  have htake := @contents_take _ b.data b.start.toNat b.bufSize.toNat n.toNat (by omega)
  rw [h.eq_contents] at htake
  refine ⟨n, { b with start := (b.start + n) % b.bufCapacity, bufSize := b.bufSize - n }, ?_,
    by rw [hnn, hlen], rfl, h.capacity_lt, fun _ => ?_, ?_, ?_⟩
  · rw [← hn, hr1, Option.bind_eq_bind, Option.bind_some, hout, Option.bind_some, htake]
  · dsimp only
    rw [hnext]
    unfold wrap
    split_ifs <;> omega
  · dsimp only
    omega
  · dsimp only
    rw [hnext, hleft, ← hdata, contents_drop (by omega) (by omega) (by omega), h.eq_contents]

end Stores

theorem stores_new {cap : UInt32} (hcap : cap.toNat < 2 ^ 31) (mem : ℕ → UInt8) :
    (new cap mem).Stores [] where
  capacity_lt := hcap
  start_lt h := h
  size_le := Nat.zero_le _
  eq_contents := List.take_zero

/-- **One call**: the buffer answers as the queue, and holds it. -/
theorem call_stores {b : CircularBuffer} {q : List UInt8} (h : b.Stores q) (c : FifoCall) :
    ∃ b', b.call c = some ((Fifo.call b.bufCapacity.toNat q c).1, b') ∧
      b'.bufCapacity = b.bufCapacity ∧ b'.Stores (Fifo.call b.bufCapacity.toNat q c).2 := by
  cases c with
  | write buf =>
    obtain ⟨n, b', hw, hn, hc, hs⟩ := h.write_stores buf
    refine ⟨b', ?_, hc, ?_⟩
    · rw [call, hw, Option.map_some, hn]
      rfl
    · rw [hn] at hs
      exact hs
  | read maxLen =>
    obtain ⟨n, b', hr, hn, hc, hs⟩ := h.read_stores maxLen
    refine ⟨b', ?_, hc, ?_⟩
    · rw [call, hr, Option.map_some]
      dsimp only
      rw [hn]
      rfl
    · rw [hn] at hs
      exact hs

/-- A sequence of calls. -/
theorem answers_stores (calls : List FifoCall) {b : CircularBuffer} {q : List UInt8}
    (h : b.Stores q) : ∃ b', b.answers calls =
      some ((Fifo.answers b.bufCapacity.toNat q calls).1, b') ∧
        b'.Stores (Fifo.answers b.bufCapacity.toNat q calls).2 := by
  induction calls generalizing b q with
  | nil => exact ⟨b, rfl, h⟩
  | cons c calls ih =>
    obtain ⟨b₁, hb₁, hc₁, hs₁⟩ := call_stores h c
    obtain ⟨b₂, hb₂, hs₂⟩ := ih hs₁
    rw [hc₁] at hb₂ hs₂
    refine ⟨b₂, ?_, hs₂⟩
    rw [answers, hb₁, Option.bind_eq_bind, Option.bind_some, hb₂]
    rfl

/-- **The buffer is a queue.**  For every capacity below 2³¹ and every sequence of calls, no
byte outside an array is accessed, the buffer answers as a queue with room for as many bytes
does, and its size is the length of the queue. -/
theorem answers_eq {cap : UInt32} (hcap : cap.toNat < 2 ^ 31) (mem : ℕ → UInt8)
    (calls : List FifoCall) :
    ∃ b, (new cap mem).answers calls = some ((Fifo.answers cap.toNat [] calls).1, b) ∧
      b.bufSize.toNat = (Fifo.answers cap.toNat [] calls).2.length := by
  obtain ⟨b, hb, hs⟩ := answers_stores calls (stores_new hcap mem)
  exact ⟨b, hb, hs.length_eq.symm⟩

/-- Three bytes of room, and a read that goes over the end. -/
theorem answers_three : ∃ b, (new 3 fun _ => 0).answers
      [.write [1, 2], .read 1, .write [3, 4, 5], .read 9] =
    some ([⟨2, []⟩, ⟨1, [1]⟩, ⟨2, []⟩, ⟨3, [2, 3, 4]⟩], b) ∧ b.bufSize.toNat = 0 :=
  answers_eq (by decide) (fun _ => 0) [.write [1, 2], .read 1, .write [3, 4, 5], .read 9]

end CircularBuffer

end KTorrent
