import KTorrent.Lib.IndexLoop
import KTorrent.Util.BitSet

/-!
# The chunk counter

The model of `ChunkCounter`, the number of peers that have each chunk.

* `inc`, `dec`, `incBitSet`, `decBitSet` — as the source computes them.
* `get_inc`, `get_dec`, `get_incBitSet`, `get_decBitSet` — what each does to every counter.
-/

namespace KTorrent

/-- `ChunkCounter`, with counters that do not wrap.  There are fewer peers than a `Uint32` can
count; only a peer that announces a chunk again and again counts further, and a counter that it
makes wrap has been wrong since the first repetition. -/
structure ChunkCounter where
  cnt : List ℕ

namespace ChunkCounter

/-- `ChunkCounter(num_chunks)`. -/
def new (numChunks : ℕ) : ChunkCounter := ⟨List.replicate numChunks 0⟩

/-- `ChunkCounter::getNumChunks`. -/
def getNumChunks (c : ChunkCounter) : ℕ := c.cnt.length

/-- `ChunkCounter::get`. -/
def get (c : ChunkCounter) (idx : ℕ) : ℕ := if idx < c.getNumChunks then c.cnt.getD idx 0 else 0

/-- `ChunkCounter::inc`. -/
def inc (c : ChunkCounter) (idx : ℕ) : ChunkCounter :=
  if idx < c.getNumChunks then ⟨c.cnt.set idx (c.get idx + 1)⟩ else c

/-- `ChunkCounter::dec`. -/
def dec (c : ChunkCounter) (idx : ℕ) : ChunkCounter :=
  if idx < c.getNumChunks ∧ c.get idx > 0 then ⟨c.cnt.set idx (c.get idx - 1)⟩ else c

/-- `ChunkCounter::incBitSet`. -/
def incBitSet (c : ChunkCounter) (bs : BitSet) : ChunkCounter :=
  (List.range c.getNumChunks).foldl (fun c i => if bs.get i then c.inc i else c) c

/-- `ChunkCounter::decBitSet`. -/
def decBitSet (c : ChunkCounter) (bs : BitSet) : ChunkCounter :=
  (List.range c.getNumChunks).foldl (fun c i => if bs.get i then c.dec i else c) c

/-! ## What one operation does -/

open IndexLoop

variable (c : ChunkCounter) (idx i : ℕ) (bs : BitSet)

@[simp] theorem getNumChunks_new (n : ℕ) : (new n).getNumChunks = n := List.length_replicate

@[simp] theorem get_new (n : ℕ) : (new n).get i = 0 := by
  unfold get
  rw [getNumChunks_new]
  split
  · rename_i h
    rw [new, List.getD_eq_getElem?_getD, List.getElem?_replicate, if_pos h]
    rfl
  · rfl

/-- There is no counter outside. -/
theorem get_outside (h : c.getNumChunks ≤ i) : c.get i = 0 := if_neg (Nat.not_lt.mpr h)

@[simp] theorem getNumChunks_inc : (c.inc idx).getNumChunks = c.getNumChunks := by
  unfold inc
  split
  · exact List.length_set
  · rfl

@[simp] theorem getNumChunks_dec : (c.dec idx).getNumChunks = c.getNumChunks := by
  unfold dec
  split
  · exact List.length_set
  · rfl

/-- One counter is overwritten. -/
theorem get_set (n : ℕ) (hidx : idx < c.getNumChunks) :
    (ChunkCounter.mk (c.cnt.set idx n)).get i = if idx = i then n else c.get i := by
  unfold get getNumChunks at *
  rw [List.length_set, List.getD_eq_getElem?_getD, List.getElem?_set, List.getD_eq_getElem?_getD]
  by_cases hi : idx = i
  · subst hi
    simp [hidx]
  · simp [hi]

theorem get_inc (hidx : idx < c.getNumChunks) :
    (c.inc idx).get i = c.get i + if idx = i then 1 else 0 := by
  unfold inc
  rw [if_pos hidx, get_set c idx i _ hidx]
  split
  · rename_i h
    rw [h]
  · rfl

theorem get_dec : (c.dec idx).get i = c.get i - if idx = i then 1 else 0 := by
  unfold dec
  split
  · rename_i h
    rw [get_set c idx i _ h.1]
    split
    · rename_i hi
      rw [hi]
    · rfl
  · rename_i h
    split
    · rename_i hi
      subst hi
      by_cases hidx : idx < c.getNumChunks
      · have hzero : c.get idx = 0 := by
          by_contra hc
          exact h ⟨hidx, Nat.pos_of_ne_zero hc⟩
        rw [hzero]
      · rw [get_outside c idx (Nat.not_lt.mp hidx)]
    · rfl

/-! ## The loops -/

/-- The counters there are stay there. -/
def SameChunks (c c' : ChunkCounter) : Prop := c'.getNumChunks = c.getNumChunks

theorem entrywise_inc {k : ℕ} (hk : k < c.getNumChunks) :
    Entrywise (SameChunks c) get (fun _ n => n + 1) inc k := by
  intro c' hlen
  refine ⟨(getNumChunks_inc c' k).trans hlen, fun i => ?_⟩
  rw [get_inc c' k i (hlen.symm ▸ hk)]
  split
  · rfl
  · rfl

theorem entrywise_dec (k : ℕ) : Entrywise (SameChunks c) get (fun _ n => n - 1) dec k := by
  intro c' hlen
  refine ⟨(getNumChunks_dec c' k).trans hlen, fun i => ?_⟩
  rw [get_dec c' k i]
  split
  · rfl
  · rfl

theorem incBitSet_spec : SameChunks c (c.incBitSet bs) ∧ ∀ i, (c.incBitSet bs).get i =
    if i < c.getNumChunks then if bs.get i then c.get i + 1 else c.get i else c.get i :=
  get_foldl_range (fun _ hk => (entrywise_inc c hk).guarded bs.get) c rfl

theorem decBitSet_spec : SameChunks c (c.decBitSet bs) ∧ ∀ i, (c.decBitSet bs).get i =
    if i < c.getNumChunks then if bs.get i then c.get i - 1 else c.get i else c.get i :=
  get_foldl_range (fun k _ => (entrywise_dec c k).guarded bs.get) c rfl

@[simp] theorem getNumChunks_incBitSet : (c.incBitSet bs).getNumChunks = c.getNumChunks :=
  (incBitSet_spec c bs).1

@[simp] theorem getNumChunks_decBitSet : (c.decBitSet bs).getNumChunks = c.getNumChunks :=
  (decBitSet_spec c bs).1

theorem get_incBitSet (hi : i < c.getNumChunks) :
    (c.incBitSet bs).get i = if bs.get i then c.get i + 1 else c.get i :=
  ((incBitSet_spec c bs).2 i).trans (if_pos hi)

theorem get_decBitSet (hi : i < c.getNumChunks) :
    (c.decBitSet bs).get i = if bs.get i then c.get i - 1 else c.get i :=
  ((decBitSet_spec c bs).2 i).trans (if_pos hi)

end ChunkCounter

end KTorrent
