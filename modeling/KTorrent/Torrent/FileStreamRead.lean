import KTorrent.Torrent.TorrentFileStream

/-!
# How far a stream can read

The numbers a stream computes before and while it reads, for a file that has
data.

* `Streamed.Geometry` — which chunks the file lies in, and where.
* `contiguous` — how many bytes of the file are there from a position on, without
  a gap.
* `bytesReadable_updated` — what `update` computes at a position in the file.
* `readCurrentChunk_slice`, `readLoop_slice` — what is read of one chunk, and of
  all of them.
-/

namespace KTorrent

variable {L : Layout}

namespace Streamed

/-- Where the file starts in the torrent. -/
def start : Streamed L → ℕ
  | single => 0
  | file tf _ => tf.cacheOffset

/-- Where it ends. -/
def stop (f : Streamed L) : ℕ := f.start + f.size

/-- How many bytes of the file are there from position `pos` on. -/
def contiguous (f : Streamed L) (chunks : ℕ → Bool) (pos : ℕ) : ℕ :=
  ((List.range' pos (f.size - pos)).takeWhile fun p =>
    L.hasChunk chunks ((f.start + p) / L.chunkSize)).length

/-- The chunks of a file that has data. -/
structure Geometry (f : Streamed L) : Prop where
  first_le : f.firstChunk ≤ f.lastChunk
  last_lt : f.lastChunk < L.numChunks
  last_start : f.lastChunk * L.chunkSize < f.stop
  lastSize : f.lastChunkSize = f.stop - f.lastChunk * L.chunkSize
  stop_le : f.stop ≤ f.lastChunk * L.chunkSize + L.sizeOfChunk f.lastChunk
  numBits : f.numBits = f.lastChunk + 1 - f.firstChunk

variable (f : Streamed L)

theorem stop_le_total : f.stop ≤ L.total := by
  cases f with
  | single => exact (Nat.zero_add _).le
  | file tf mem => exact L.stop_le_total mem

theorem firstChunk_eq : f.firstChunk = f.start / L.chunkSize := by
  cases f with
  | single => exact (Nat.zero_div _).symm
  | file tf mem => exact (L.exact_of_mem mem).firstChunk

theorem firstChunkOffset_eq (hcs : L.chunkSize < 2 ^ 32) :
    f.firstChunkOffset = f.start % L.chunkSize := by
  cases f with
  | single => exact (Nat.zero_mod _).symm
  | file tf mem =>
    rw [firstChunkOffset, (L.exact_of_mem mem).firstChunkOff]
    exact u32_of_lt ((Nat.mod_lt _ L.chunkSize_pos).trans hcs)

/-- The first chunk starts in front of the file, or with it. -/
theorem firstChunk_mul : f.firstChunk * L.chunkSize + f.start % L.chunkSize = f.start := by
  rw [firstChunk_eq, Nat.div_add_mod']

theorem getSize_eq (hcs : L.chunkSize < 2 ^ 32) (c : ℕ) : L.getSize c = L.sizeOfChunk c :=
  u32_of_lt ((L.sizeOfChunk_le c).trans_lt hcs)

/-- **Where a file with data lies.** -/
theorem geometry (hcs : L.chunkSize < 2 ^ 32) (hsize : 0 < f.size) : Geometry f := by
  have hpos := L.chunkSize_pos
  have hnum := L.numChunks_lt
  cases f with
  | single =>
    have htotal : 0 < L.total := hsize
    have hle := L.total_le
    have hchunks : 0 < L.numChunks := by
      by_contra hzero
      rw [Nat.eq_zero_of_not_pos hzero, Nat.zero_mul] at hle
      omega
    obtain ⟨last, hlast⟩ : ∃ last, last = L.numChunks - 1 := ⟨_, rfl⟩
    have hsub : (single : Streamed L).lastChunk = last := by
      rw [lastChunk, sub32_of_le hchunks hnum, hlast]
    have hlt : last < L.numChunks := by omega
    obtain ⟨hstart, hend⟩ := L.chunk_bounds hlt
    have hstop : L.chunkStop last = L.total := by
      rw [Layout.chunkStop, hlast, Nat.sub_add_cancel hchunks]
      exact min_eq_right hle
    have hwhole : (single : Streamed L).stop = L.total := Nat.zero_add _
    refine ⟨Nat.zero_le _, hsub ▸ hlt, ?_, ?_, ?_, ?_⟩
    · rw [hsub, hwhole]
      exact hstart
    · rw [lastChunkSize, hsub, getSize_eq hcs, hwhole]
      omega
    · rw [hsub, hwhole]
      omega
    · rw [hsub, numBits, firstChunk]
      omega
  | file tf mem =>
    have hexact := L.exact_of_mem mem
    have hsize : 0 < tf.size := hsize
    have hle := L.stop_le_total mem
    have hlt := L.lastChunk_lt mem hsize
    have hstop : tf.stop = tf.cacheOffset + tf.size := rfl
    have hlast : tf.lastChunk = (tf.stop - 1) / L.chunkSize := by
      rw [hexact.lastChunk, if_pos hsize]
    have hmul : tf.lastChunk * L.chunkSize ≤ tf.stop - 1 := hlast ▸ Nat.div_mul_le_self _ _
    have hsucc : tf.stop - 1 < (tf.lastChunk + 1) * L.chunkSize := by
      rw [hlast]
      exact Nat.lt_mul_of_div_lt (Nat.lt_succ_self _) hpos
    have hmuls : (tf.lastChunk + 1) * L.chunkSize = tf.lastChunk * L.chunkSize + L.chunkSize :=
      Nat.succ_mul ..
    have hfirst : tf.firstChunk ≤ tf.lastChunk := by
      rw [hlast, hexact.firstChunk]
      exact Nat.div_le_div_right (by omega)
    refine ⟨hfirst, hlt, ?_, ?_, ?_, ?_⟩
    · show tf.lastChunk * L.chunkSize < tf.stop
      omega
    · show u32 tf.lastChunkSize = tf.stop - tf.lastChunk * L.chunkSize
      rw [hexact.lastChunkSize]
      exact u32_of_lt (by omega)
    · show tf.stop ≤ tf.lastChunk * L.chunkSize + L.sizeOfChunk tf.lastChunk
      have hbounds := (L.chunk_bounds hlt).2
      rw [hbounds, Layout.chunkStop]
      omega
    · show u32 (sub32 tf.lastChunk tf.firstChunk + 1) = tf.lastChunk + 1 - tf.firstChunk
      rw [sub32_of_le hfirst (by omega), u32_of_lt (by omega)]
      omega

variable {f}

/-- A chunk in front of the last one of the file has its full size. -/
theorem Geometry.getSize_of_lt (h : Geometry f) (hcs : L.chunkSize < 2 ^ 32) {c : ℕ}
    (hc : c < f.lastChunk) : L.getSize c = L.chunkSize := by
  have hlast := h.last_lt
  rw [getSize_eq hcs, Layout.sizeOfChunk, if_neg (by omega)]

/-! ## Contiguous bytes -/

/-- What makes a number the number of contiguous bytes. -/
theorem contiguous_eq {chunks : ℕ → Bool} {pos n : ℕ} (hn : n ≤ f.size - pos)
    (hthere : ∀ p, pos ≤ p → p < pos + n → L.hasChunk chunks ((f.start + p) / L.chunkSize) = true)
    (hend : n < f.size - pos → L.hasChunk chunks ((f.start + (pos + n)) / L.chunkSize) = false) :
    f.contiguous chunks pos = n := by
  have hsplit : List.range' pos (f.size - pos) =
      List.range' pos n ++ List.range' (pos + n) (f.size - pos - n) := by
    rw [List.range'_append_1]
    congr 1
    omega
  rw [contiguous, hsplit, List.takeWhile_append_of_pos]
  · rw [List.length_append, List.length_range']
    by_cases hlt : n < f.size - pos
    · obtain ⟨m, hm⟩ : ∃ m, f.size - pos - n = m + 1 := ⟨f.size - pos - n - 1, by omega⟩
      rw [hm, List.range'_succ, List.takeWhile_cons_of_neg]
      · rfl
      · rw [hend hlt]
        exact Bool.false_ne_true
    · rw [show f.size - pos - n = 0 by omega]
      rfl
  · intro p hp
    rw [List.mem_range'_1] at hp
    exact hthere p hp.1 hp.2

theorem contiguous_le (f : Streamed L) (chunks : ℕ → Bool) (pos : ℕ) :
    f.contiguous chunks pos ≤ f.size - pos :=
  (List.takeWhile_prefix _).length_le.trans (List.length_range' ..).le

/-- The contiguous bytes are there. -/
theorem hasChunk_of_contiguous {chunks : ℕ → Bool} {pos p : ℕ} (hp : pos ≤ p)
    (hlt : p < pos + f.contiguous chunks pos) :
    L.hasChunk chunks ((f.start + p) / L.chunkSize) = true := by
  have hle := contiguous_le f chunks pos
  have hall := List.all_takeWhile (l := List.range' pos (f.size - pos))
    (p := fun p => L.hasChunk chunks ((f.start + p) / L.chunkSize))
  rw [List.prefix_iff_eq_take.mp (List.takeWhile_prefix _), ← contiguous,
    List.take_range'_of_length_ge hle] at hall
  exact List.all_eq_true.mp hall p (List.mem_range'_1.mpr ⟨hp, hlt⟩)

end Streamed

namespace FileStream

open Streamed

variable {f : Streamed L} {s : FileStream}

/-! ## The bits -/

theorem numBits_foldl_set {α : Type*} (pos : α → ℕ) (val : α → Bool) (cs : List α) (bits : BitSet) :
    (cs.foldl (fun bits c => bits.set (pos c) (val c)) bits).numBits = bits.numBits := by
  induction cs generalizing bits with
  | nil => rfl
  | cons c cs ih => rw [List.foldl_cons, ih, BitSet.numBits_set]

@[simp] theorem numBits_refreshed (f : Streamed L) (s : FileStream) :
    (s.refreshed f).numBits = s.bitset.numBits := numBits_foldl_set ..

/-- A bit that is set for every chunk of a range is the chunk's. -/
theorem get_foldl_set (first : ℕ) (val : ℕ → Bool) : ∀ (k c : ℕ) (bits : BitSet),
    first ≤ c → c + k ≤ 2 ^ 32 → c + k - first ≤ bits.numBits.toNat → ∀ j, first ≤ j →
      ((List.range' c k).foldl (fun bits c => bits.set (sub32 c first) (val c)) bits).get (j - first) =
        if c ≤ j ∧ j < c + k then val j else bits.get (j - first) := by
  intro k
  induction k with
  | zero =>
    intro c bits _ _ _ j _
    rw [if_neg (by omega)]
    rfl
  | succ k ih =>
    intro c bits hc hlt hbits j hj
    rw [List.range'_succ, List.foldl_cons, sub32_of_le hc (by omega),
      ih (c + 1) _ (by omega) (by omega) (by rw [BitSet.numBits_set]; omega) j hj,
      BitSet.get_set _ _ (by omega)]
    by_cases hjc : j = c
    · subst hjc
      rw [if_neg (by omega), if_pos rfl, if_pos (by omega)]
    · rw [if_neg (c := j - first = c - first) (by omega)]
      by_cases hin : c + 1 ≤ j ∧ j < c + 1 + k
      · rw [if_pos hin, if_pos (by omega)]
      · rw [if_neg hin, if_neg (by omega)]

theorem get_refreshed (hgeo : Geometry f) (hbits : s.bitset.numBits.toNat = f.numBits) {c : ℕ}
    (hfirst : f.firstChunk ≤ c) (hlast : c ≤ f.lastChunk) :
    (s.refreshed f).get (sub32 c f.firstChunk) = L.hasChunk s.chunks c := by
  have hlt := hgeo.last_lt
  have hnum := L.numChunks_lt
  have hle := hgeo.first_le
  rw [sub32_of_le hfirst (by omega), refreshed, get_foldl_set, if_pos (by omega)]
  · exact le_rfl
  · omega
  · rw [hbits, hgeo.numBits]
    omega
  · exact hfirst

/-- A chunk outside the file has no bit. -/
theorem get_refreshed_outside (hgeo : Geometry f) (hbits : s.bitset.numBits.toNat = f.numBits) {c : ℕ}
    (hc : c < 2 ^ 32) (hout : c < f.firstChunk ∨ f.lastChunk < c) :
    (s.refreshed f).get (sub32 c f.firstChunk) = false := by
  refine BitSet.get_outside _ ?_
  have hlt := hgeo.last_lt
  have hnum := L.numChunks_lt
  have hle := hgeo.first_le
  rw [numBits_refreshed, hbits, hgeo.numBits]
  rcases hout with hout | hout
  · rw [sub32, subw]
    omega
  · rw [sub32_of_le (by omega) hc]
    omega

/-! ## How much can be read -/

/-- Where the bytes of the file end that lie in front of chunk `e`. -/
def endIn (f : Streamed L) (e : ℕ) : ℕ := if e ≤ f.lastChunk then e * L.chunkSize else f.stop

/-- **The loop over the chunks past the current one** stops with the first one that is missing. -/
theorem addChunks_spec (hcs : L.chunkSize < 2 ^ 32) (hgeo : Geometry f) {bits : BitSet} {chunks : ℕ → Bool}
    (hbits : ∀ c, f.firstChunk ≤ c → c ≤ f.lastChunk →
      bits.get (sub32 c f.firstChunk) = L.hasChunk chunks c) : ∀ (k c n : ℕ),
    f.firstChunk ≤ c → c + k = f.lastChunk + 1 → n ≤ c * L.chunkSize →
      ∃ e, c ≤ e ∧ e ≤ f.lastChunk + 1 ∧ (∀ j, c ≤ j → j < e → L.hasChunk chunks j = true) ∧
        (e ≤ f.lastChunk → L.hasChunk chunks e = false) ∧
        addChunks f bits (List.range' c k) n = n + (endIn f e - c * L.chunkSize) := by
  intro k
  induction k with
  | zero =>
    intro c n _ hck _
    have hstop := hgeo.stop_le
    have hsize := L.sizeOfChunk_le f.lastChunk
    have hmul : (f.lastChunk + 1) * L.chunkSize = f.lastChunk * L.chunkSize + L.chunkSize :=
      Nat.succ_mul ..
    refine ⟨c, le_rfl, by omega, fun j hj hjc => by omega, fun hle => by omega, ?_⟩
    rw [endIn, if_neg (by omega), show c = f.lastChunk + 1 by omega, hmul]
    show n = _
    omega
  | succ k ih =>
    intro c n hc hck hn
    rw [List.range'_succ, addChunks, hbits c hc (by omega)]
    have hmul : (c + 1) * L.chunkSize = c * L.chunkSize + L.chunkSize := Nat.succ_mul ..
    by_cases hhas : L.hasChunk chunks c = true
    · rw [if_pos hhas]
      have htotal := f.stop_le_total
      have hlt : L.total < 2 ^ 64 := L.total_lt
      by_cases hlast : c = f.lastChunk
      · -- the last chunk: there is nothing behind it
        have hk : k = 0 := by omega
        subst hk
        have hsize := hgeo.lastSize
        have hstart := hgeo.last_start
        refine ⟨c + 1, by omega, by omega, fun j hj hjc => ?_, fun hle => by omega, ?_⟩
        · rwa [show j = c by omega]
        · have hsame : c * L.chunkSize = f.lastChunk * L.chunkSize := by rw [hlast]
          rw [if_neg (not_not.mpr hlast), endIn, if_neg (by omega)]
          show u64 _ = _
          rw [hsize, u64_of_lt (by omega), hsame]
      · have hfull := hgeo.getSize_of_lt hcs (c := c) (by omega)
        have hnext : (c + 1) * L.chunkSize ≤ f.lastChunk * L.chunkSize :=
          Nat.mul_le_mul_right _ (by omega)
        have hstart := hgeo.last_start
        rw [if_pos hlast, hfull, u64_of_lt (by omega)]
        obtain ⟨e, hce, hel, hall, hmiss, hsum⟩ := ih (c + 1) (n + L.chunkSize) (by omega) (by omega)
          (by omega)
        refine ⟨e, by omega, hel, fun j hj hje => ?_, hmiss, ?_⟩
        · by_cases hjc : j = c
          · rwa [hjc]
          · exact hall j (by omega) hje
        · have hend : (c + 1) * L.chunkSize ≤ endIn f e := by
            rw [endIn]
            split
            · exact Nat.mul_le_mul_right _ hce
            · omega
          rw [hsum]
          omega
    · rw [if_neg hhas]
      refine ⟨c, le_rfl, by omega, fun j hj hjc => by omega, fun _ => Bool.eq_false_iff.mpr hhas, ?_⟩
      rw [endIn, if_pos (by omega)]
      omega

/-! ## Places -/

/-- The stream is at its position: the chunk and the offset in the chunk are those of its byte
offset. -/
structure Placed (D : StreamDisk L) (f : Streamed L) (s : FileStream) : Prop where
  bits : s.bitset.numBits.toNat = f.numBits
  le_size : s.currentByteOffset ≤ f.size
  chunk : s.currentByteOffset < f.size → s.currentChunk = (f.start + s.currentByteOffset) / L.chunkSize
  offset : s.currentByteOffset < f.size →
    s.currentChunkOffset = (f.start + s.currentByteOffset) % L.chunkSize
  /-- At the end of the file it is behind its last byte, or at the start of the next chunk. -/
  atEnd : s.currentByteOffset = f.size →
    s.currentChunk = f.lastChunk ∧ s.currentChunkOffset = f.lastChunkSize ∨
      s.currentChunk = f.lastChunk + 1 ∧ s.currentChunkOffset = 0
  cached : ∀ piece, s.currentChunkData = some piece → L.hasChunk s.chunks s.currentChunk = true ∧
    piece = (D.data.drop (s.currentChunk * L.chunkSize)).take (L.sizeOfChunk s.currentChunk)

variable {D : StreamDisk L}

/-- Inside the file: which chunk it is, and where in it. -/
theorem Placed.inside (h : Placed D f s) (hgeo : Geometry f) (hlt : s.currentByteOffset < f.size) :
    s.currentChunk * L.chunkSize + s.currentChunkOffset = f.start + s.currentByteOffset ∧
      s.currentChunkOffset < L.chunkSize ∧ f.firstChunk ≤ s.currentChunk ∧
      s.currentChunk ≤ f.lastChunk := by
  have hpos := L.chunkSize_pos
  have hstop : f.stop = f.start + f.size := rfl
  refine ⟨?_, ?_, ?_, ?_⟩
  · rw [h.chunk hlt, h.offset hlt, Nat.div_add_mod']
  · rw [h.offset hlt]
    exact Nat.mod_lt _ hpos
  · rw [h.chunk hlt, firstChunk_eq]
    exact Nat.div_le_div_right (by omega)
  · rw [h.chunk hlt, ← Nat.lt_succ_iff, Nat.div_lt_iff_lt_mul hpos]
    have hle := hgeo.stop_le
    have hsize := L.sizeOfChunk_le f.lastChunk
    have hmul : (f.lastChunk + 1) * L.chunkSize = f.lastChunk * L.chunkSize + L.chunkSize :=
      Nat.succ_mul ..
    rw [Nat.succ_eq_add_one, hmul]
    omega

/-- A chunk and an offset in it are determined by where they are. -/
theorem place_unique {c off p : ℕ} (h : c * L.chunkSize + off = p) (hoff : off < L.chunkSize) :
    c = p / L.chunkSize ∧ off = p % L.chunkSize := by
  obtain ⟨hdiv, hmod⟩ := (Nat.div_mod_unique L.chunkSize_pos).mpr
    ⟨show off + L.chunkSize * c = p by rw [Nat.mul_comm]; omega, hoff⟩
  exact ⟨hdiv.symm, hmod.symm⟩

/-- A byte of the file from position `p` on lies in a chunk between two others. -/
theorem chunk_between {p a b : ℕ} (ha : a * L.chunkSize ≤ f.start + p) (hb : f.start + p < b * L.chunkSize) :
    a ≤ (f.start + p) / L.chunkSize ∧ (f.start + p) / L.chunkSize < b :=
  ⟨(Nat.le_div_iff_mul_le L.chunkSize_pos).mpr ha, (Nat.div_lt_iff_lt_mul L.chunkSize_pos).mpr hb⟩

theorem endIn_le (hgeo : Geometry f) (e : ℕ) : endIn f e ≤ f.stop := by
  have hstart := hgeo.last_start
  rw [endIn]
  split
  case isTrue he => exact (Nat.mul_le_mul_right _ he).trans hstart.le
  case isFalse => exact le_rfl

/-- What `update` adds up, for a place in chunk `c` and a loop that stopped with chunk `e`. -/
theorem readable_value (hcs : L.chunkSize < 2 ^ 32) (hgeo : Geometry f) {c off pos e : ℕ}
    (hplace : c * L.chunkSize + off = pos) (hoff : off < L.chunkSize) (hcl : c ≤ f.lastChunk)
    (hlt : pos < f.stop) (hce : c + 1 ≤ e) (hel : e ≤ f.lastChunk + 1) :
    (if c = f.lastChunk then u64 (0 + (endIn f e - (c + 1) * L.chunkSize) + sub32 f.lastChunkSize off)
      else u64 (0 + (endIn f e - (c + 1) * L.chunkSize) + sub32 (L.getSize c) off)) =
      endIn f e - pos := by
  have htotal := f.stop_le_total
  have hlt64 : L.total < 2 ^ 64 := L.total_lt
  have hstop := hgeo.stop_le
  have hchunk := L.sizeOfChunk_le f.lastChunk
  have hsize := hgeo.lastSize
  have hends := endIn_le hgeo e
  have hmul : (c + 1) * L.chunkSize = c * L.chunkSize + L.chunkSize := Nat.succ_mul ..
  by_cases hlast : c = f.lastChunk
  · have hsame : c * L.chunkSize = f.lastChunk * L.chunkSize := by rw [hlast]
    have hend : endIn f e = f.stop := by rw [endIn, if_neg (by omega)]
    rw [if_pos hlast, hend, hsize, sub32_of_le (by omega) (by omega), u64_of_lt (by omega)]
    omega
  · have hfull := hgeo.getSize_of_lt hcs (c := c) (by omega)
    have hend : (c + 1) * L.chunkSize ≤ endIn f e := by
      rw [endIn]
      split
      · exact Nat.mul_le_mul_right _ hce
      · have hnext : (c + 1) * L.chunkSize ≤ f.lastChunk * L.chunkSize :=
          Nat.mul_le_mul_right _ (by omega)
        have hstart := hgeo.last_start
        omega
    rw [if_neg hlast, hfull, sub32_of_le hoff.le hcs, u64_of_lt (by omega)]
    omega

/-- All of the file is in one chunk. -/
theorem Placed.bytesReadable_oneChunk (h : Placed D f s) (hgeo : Geometry f)
    (hone : f.firstChunk = f.lastChunk) :
    (s.updated f).bytesReadable = f.contiguous s.chunks s.currentByteOffset := by
  have hle := h.le_size
  have hstop : f.stop = f.start + f.size := rfl
  have hsize64 : f.size < 2 ^ 64 := by
    have htotal := f.stop_le_total
    have hlt : L.total < 2 ^ 64 := L.total_lt
    omega
  have hfirst := f.firstChunk_mul
  have hmod := Nat.mod_lt f.start L.chunkSize_pos
  have hend := hgeo.stop_le
  have hchunk := L.sizeOfChunk_le f.lastChunk
  have hmul : (f.lastChunk + 1) * L.chunkSize = f.lastChunk * L.chunkSize + L.chunkSize :=
    Nat.succ_mul ..
  have hin : ∀ p, p < f.size → (f.start + p) / L.chunkSize = f.firstChunk := by
    intro p hp
    have := chunk_between (f := f) (p := p) (a := f.firstChunk) (b := f.firstChunk + 1) (by omega)
      (by rw [hone, hmul]; omega)
    omega
  rw [updated, if_pos hone]
  by_cases hhas : L.hasChunk s.chunks f.firstChunk = true
  · rw [if_pos hhas]
    show sub64 f.size s.currentByteOffset = _
    rw [sub64_of_le hle hsize64]
    refine (contiguous_eq le_rfl (fun p hp hp' => ?_) fun hlt => absurd hlt (lt_irrefl _)).symm
    rwa [hin p (by omega)]
  · rw [if_neg hhas]
    refine (contiguous_eq (Nat.zero_le _) (fun p hp hp' => by omega) fun hlt => ?_).symm
    rw [hin _ (by omega)]
    exact Bool.eq_false_iff.mpr hhas

/-- The stream is at a byte of a file of several chunks: it reads on up to a chunk that is
missing. -/
theorem Placed.bytesReadable_inside (h : Placed D f s) (hcs : L.chunkSize < 2 ^ 32)
    (hgeo : Geometry f) (hone : f.firstChunk ≠ f.lastChunk) (hlt : s.currentByteOffset < f.size) :
    (s.updated f).bytesReadable = f.contiguous s.chunks s.currentByteOffset := by
  have hstop : f.stop = f.start + f.size := rfl
  have hend := hgeo.stop_le
  have hchunk := L.sizeOfChunk_le f.lastChunk
  obtain ⟨hplace, hoff, hfc, hcl⟩ := h.inside hgeo hlt
  rw [updated, if_neg hone]
  dsimp only
  rw [get_refreshed hgeo h.bits hfc hcl]
  by_cases hhas : L.hasChunk s.chunks s.currentChunk = true
  · rw [if_pos hhas]
    obtain ⟨e, hce, hel, hall, hmiss, hsum⟩ := addChunks_spec hcs hgeo
      (fun c hc hc' => get_refreshed hgeo h.bits hc hc') (f.lastChunk - s.currentChunk)
      (s.currentChunk + 1) 0 (by omega) (by omega) (Nat.zero_le _)
    rw [hsum]
    have hvalue := readable_value hcs hgeo hplace hoff hcl (Nat.add_lt_add_left hlt f.start) hce hel
    dsimp only
    rw [hvalue]
    have hends := endIn_le hgeo e
    refine (contiguous_eq (by omega) (fun p hp hp' => ?_) fun hshort => ?_).symm
    · -- the byte lies in front of the chunk where the loop stopped
      have hbound : endIn f e ≤ e * L.chunkSize := by
        rw [endIn]
        split
        case isTrue => exact le_rfl
        case isFalse hbehind =>
          have he : e = f.lastChunk + 1 := by omega
          rw [he, Nat.succ_mul]
          omega
      obtain ⟨hlow, hhigh⟩ := chunk_between (f := f) (p := p) (a := s.currentChunk) (b := e)
        (by omega) (by omega)
      by_cases hcur : (f.start + p) / L.chunkSize = s.currentChunk
      · rwa [hcur]
      · exact hall _ (by omega) hhigh
    · have helast : e ≤ f.lastChunk := by
        by_contra hbehind
        rw [endIn, if_neg hbehind] at hshort
        omega
      have hat : f.start + (s.currentByteOffset + (endIn f e - (f.start + s.currentByteOffset))) =
          e * L.chunkSize := by
        have hmono : s.currentChunk * L.chunkSize + L.chunkSize ≤ e * L.chunkSize := by
          rw [← Nat.succ_mul]
          exact Nat.mul_le_mul_right _ hce
        rw [endIn, if_pos helast]
        omega
      rw [hat, Nat.mul_div_cancel _ L.chunkSize_pos]
      exact hmiss helast
  · rw [if_neg hhas]
    refine (contiguous_eq (Nat.zero_le _) (fun p hp hp' => by omega) fun _ => ?_).symm
    rw [Nat.add_zero, ← h.chunk hlt]
    exact Bool.eq_false_iff.mpr hhas

/-- Nothing can be read at the end of a file of several chunks. -/
theorem Placed.bytesReadable_atEnd (h : Placed D f s) (hcs : L.chunkSize < 2 ^ 32)
    (hgeo : Geometry f) (hone : f.firstChunk ≠ f.lastChunk) (hat : s.currentByteOffset = f.size) :
    (s.updated f).bytesReadable = 0 := by
  rw [updated, if_neg hone]
  dsimp only
  rcases h.atEnd hat with ⟨hcur, hoff⟩ | ⟨hcur, -⟩
  · rw [hcur, get_refreshed hgeo h.bits hgeo.first_le le_rfl]
    split
    · rw [if_pos rfl, hoff, Nat.sub_self, sub32_of_le le_rfl, Nat.sub_self]
      · rfl
      · rw [hgeo.lastSize]
        have hchunk := L.sizeOfChunk_le f.lastChunk
        have hstop : f.stop = f.start + f.size := rfl
        have hend := hgeo.stop_le
        omega
    · rfl
  · have hnum := L.numChunks_lt
    have hlast := hgeo.last_lt
    rw [hcur, get_refreshed_outside hgeo h.bits (by omega) (.inr (Nat.lt_succ_self _)),
      if_neg Bool.false_ne_true]

/-- **How much can be read** from a position in the file. -/
theorem Placed.bytesReadable_updated (h : Placed D f s) (hcs : L.chunkSize < 2 ^ 32) (hgeo : Geometry f) :
    (s.updated f).bytesReadable = f.contiguous s.chunks s.currentByteOffset := by
  by_cases hone : f.firstChunk = f.lastChunk
  · exact h.bytesReadable_oneChunk hgeo hone
  · rcases Nat.lt_or_eq_of_le h.le_size with hlt | hat
    · exact h.bytesReadable_inside hcs hgeo hone hlt
    · have hzero : f.contiguous s.chunks s.currentByteOffset = 0 :=
        contiguous_eq (Nat.zero_le _) (fun p hp hp' => by omega) fun hlt => by omega
      rw [hzero]
      exact h.bytesReadable_atEnd hcs hgeo hone hat

/-! ## Reading -/

/-- A piece that is long enough is copied. -/
theorem readPiece_eq {piece : List UInt8} {toRead off : ℕ} (h : off + toRead ≤ piece.length)
    (hlt : piece.length < 2 ^ 32) :
    readPiece piece toRead off = ((piece.drop off).take toRead).map some := by
  rw [readPiece, u32_of_lt (by omega), if_neg (by omega)]
  refine List.ext_getElem? fun i => ?_
  rw [List.getElem?_map, List.getElem?_map, List.getElem?_take, List.getElem?_drop]
  by_cases hi : i < toRead
  · have hin : off + i < piece.length := by omega
    rw [if_pos hi, List.getElem?_range' hi, List.getElem?_eq_getElem hin]
    simp [List.getElem?_eq_getElem hin]
  · rw [if_neg hi, List.getElem?_eq_none (by simpa using hi)]
    rfl

/-- The chunk of the position has its full size, or is the last one of the file. -/
theorem Placed.isLast_or_full (h : Placed D f s) (hcs : L.chunkSize < 2 ^ 32) (hgeo : Geometry f)
    (hlt : s.currentByteOffset < f.size) :
    s.currentChunk = f.lastChunk ∨ L.sizeOfChunk s.currentChunk = L.chunkSize ∧
      s.currentChunk * L.chunkSize + L.chunkSize ≤ f.lastChunk * L.chunkSize := by
  obtain ⟨-, -, -, hcl⟩ := h.inside hgeo hlt
  by_cases hlast : s.currentChunk = f.lastChunk
  · exact .inl hlast
  · refine .inr ⟨?_, ?_⟩
    · rw [← getSize_eq hcs]
      exact hgeo.getSize_of_lt hcs (by omega)
    · rw [← Nat.succ_mul]
      exact Nat.mul_le_mul_right _ (by omega)

/-- Something is left of the chunk of the position. -/
theorem Placed.offset_lt (h : Placed D f s) (hcs : L.chunkSize < 2 ^ 32) (hgeo : Geometry f)
    (hlt : s.currentByteOffset < f.size) : s.currentChunkOffset < L.sizeOfChunk s.currentChunk := by
  obtain ⟨hplace, hoff, -, -⟩ := h.inside hgeo hlt
  have hstop : f.stop = f.start + f.size := rfl
  have hend := hgeo.stop_le
  rcases h.isLast_or_full hcs hgeo hlt with hlast | ⟨hfull, -⟩
  · rw [hlast] at hplace ⊢
    omega
  · omega

/-- The data of the current chunk, loaded before or now. -/
theorem Placed.piece (h : Placed D f s) (hhas : L.hasChunk s.chunks s.currentChunk = true) :
    ∃ piece, s.currentChunkData.or (D.getPiece s.chunks s.currentChunk) = some piece ∧
      piece = (D.data.drop (s.currentChunk * L.chunkSize)).take (L.sizeOfChunk s.currentChunk) ∧
      piece.length = L.sizeOfChunk s.currentChunk := by
  rw [Layout.hasChunk, Bool.and_eq_true, decide_eq_true_eq] at hhas
  refine ⟨_, ?_, rfl, ?_⟩
  · cases hdata : s.currentChunkData with
    | none =>
      rw [Option.none_or]
      exact D.getPiece_downloaded _ _ hhas.1 hhas.2
    | some cached => rw [Option.some_or, (h.cached cached hdata).2]
  · have hbounds := L.chunk_bounds hhas.1
    have hstop := L.chunkStop_le_total s.currentChunk
    rw [List.length_take, List.length_drop, D.length_data]
    omega

/-- What one turn of the loop reads, and where the stream is behind it. -/
theorem Placed.readCurrentChunk_eq (h : Placed D f s) (hcs : L.chunkSize < 2 ^ 32) (hgeo : Geometry f)
    (hlt : s.currentByteOffset < f.size) (hhas : L.hasChunk s.chunks s.currentChunk = true)
    {a k : ℕ} (hk : k = min (L.sizeOfChunk s.currentChunk - s.currentChunkOffset) a)
    (hfit : s.currentByteOffset + a ≤ f.size) :
    ∃ piece, piece = (D.data.drop (s.currentChunk * L.chunkSize)).take (L.sizeOfChunk s.currentChunk) ∧
      readCurrentChunk D s a = some
        (((D.data.drop (f.start + s.currentByteOffset)).take k).map some,
          if s.currentChunkOffset + k = L.sizeOfChunk s.currentChunk then
            { s with
              currentByteOffset := s.currentByteOffset + k
              currentChunk := s.currentChunk + 1
              currentChunkData := none
              currentChunkOffset := 0 }
          else { s with
            currentChunkData := some piece
            currentByteOffset := s.currentByteOffset + k
            currentChunkOffset := s.currentChunkOffset + k }) := by
  obtain ⟨hplace, -, -, hcl⟩ := h.inside hgeo hlt
  obtain ⟨piece, hgot, hpiece, hlen⟩ := h.piece hhas
  have hleft := h.offset_lt hcs hgeo hlt
  have hchunk := L.sizeOfChunk_le s.currentChunk
  have hslice : readPiece piece k s.currentChunkOffset =
      ((D.data.drop (f.start + s.currentByteOffset)).take k).map some := by
    rw [readPiece_eq (by omega) (by omega), hpiece, List.drop_take, List.take_take, List.drop_drop,
      hplace, min_eq_left (by omega)]
  have hnum := L.numChunks_lt
  have hlast := hgeo.last_lt
  have hstop : f.stop = f.start + f.size := rfl
  have htotal := f.stop_le_total
  have hlt64 : L.total < 2 ^ 64 := L.total_lt
  refine ⟨piece, hpiece, ?_⟩
  rw [readCurrentChunk, if_neg (by omega), hgot]
  dsimp only
  rw [getSize_eq hcs, sub32_of_le hleft.le (by omega), ← hk, hslice, u64_of_lt (by omega),
    u32_of_lt (by omega), u32_of_lt (by omega)]

/-- The chunk was read to its end: the stream is at the start of the next one. -/
theorem Placed.nextChunk (h : Placed D f s) (hcs : L.chunkSize < 2 ^ 32) (hgeo : Geometry f)
    (hlt : s.currentByteOffset < f.size) {k : ℕ} (hfit : s.currentByteOffset + k ≤ f.size)
    (hwhole : s.currentChunkOffset + k = L.sizeOfChunk s.currentChunk) :
    Placed D f { s with
      currentByteOffset := s.currentByteOffset + k
      currentChunk := s.currentChunk + 1
      currentChunkData := none
      currentChunkOffset := 0 } := by
  obtain ⟨hplace, -, -, -⟩ := h.inside hgeo hlt
  have hcase := h.isLast_or_full hcs hgeo hlt
  have hstop : f.stop = f.start + f.size := rfl
  have hend := hgeo.stop_le
  have hstart := hgeo.last_start
  have hnext : s.currentByteOffset + k < f.size → (s.currentChunk + 1) * L.chunkSize + 0 =
      f.start + (s.currentByteOffset + k) := by
    intro hin
    rcases hcase with hlast | ⟨hfull, -⟩
    · rw [hlast] at hplace hwhole
      omega
    · rw [Nat.succ_mul]
      omega
  refine ⟨h.bits, hfit, fun hin => ?_, fun hin => ?_, fun hat => ?_, fun _ hd => ?_⟩
  · exact (place_unique (hnext hin) L.chunkSize_pos).1
  · exact (place_unique (hnext hin) L.chunkSize_pos).2
  · dsimp only at hat ⊢
    refine .inr ⟨?_, rfl⟩
    rcases hcase with hlast | ⟨hfull, hbefore⟩
    · rw [hlast]
    · omega
  · cases hd

/-- Something is left of the chunk: the stream is further in it. -/
theorem Placed.sameChunk (h : Placed D f s) (hcs : L.chunkSize < 2 ^ 32) (hgeo : Geometry f)
    (hlt : s.currentByteOffset < f.size) {k : ℕ} (hfit : s.currentByteOffset + k ≤ f.size)
    (hpart : s.currentChunkOffset + k < L.sizeOfChunk s.currentChunk) {piece : List UInt8}
    (hhas : L.hasChunk s.chunks s.currentChunk = true)
    (hpiece : piece = (D.data.drop (s.currentChunk * L.chunkSize)).take (L.sizeOfChunk s.currentChunk)) :
    Placed D f { s with
      currentChunkData := some piece
      currentByteOffset := s.currentByteOffset + k
      currentChunkOffset := s.currentChunkOffset + k } := by
  obtain ⟨hplace, -, -, -⟩ := h.inside hgeo hlt
  have hstop : f.stop = f.start + f.size := rfl
  have hstart := hgeo.last_start
  have hsame : s.currentChunk * L.chunkSize + (s.currentChunkOffset + k) =
      f.start + (s.currentByteOffset + k) := by omega
  have hin : s.currentChunkOffset + k < L.chunkSize := hpart.trans_le (L.sizeOfChunk_le _)
  refine ⟨h.bits, hfit, fun _ => ?_, fun _ => ?_, fun hat => ?_, fun _ hd => ?_⟩
  · exact (place_unique hsame hin).1
  · exact (place_unique hsame hin).2
  · dsimp only at hat ⊢
    have hlast : s.currentChunk = f.lastChunk := by
      rcases h.isLast_or_full hcs hgeo hlt with hlast | ⟨-, hbefore⟩
      · exact hlast
      · omega
    refine .inl ⟨hlast, ?_⟩
    rw [hgeo.lastSize, ← hlast]
    omega
  · obtain rfl := Option.some.inj hd
    exact ⟨hhas, hpiece⟩

/-- **One turn of the loop** reads what is left of the current chunk, or as much as is asked for. -/
theorem Placed.readCurrentChunk_slice (h : Placed D f s) (hcs : L.chunkSize < 2 ^ 32) (hgeo : Geometry f)
    (hhas : L.hasChunk s.chunks s.currentChunk = true) {a : ℕ} (ha : 0 < a)
    (hfit : s.currentByteOffset + a ≤ f.size) :
    ∃ k s', 0 < k ∧ k ≤ a ∧ readCurrentChunk D s a =
        some (((D.data.drop (f.start + s.currentByteOffset)).take k).map some, s') ∧
      Placed D f s' ∧ s'.currentByteOffset = s.currentByteOffset + k ∧ s'.chunks = s.chunks := by
  have hlt : s.currentByteOffset < f.size := by omega
  have hleft := h.offset_lt hcs hgeo hlt
  obtain ⟨k, hk⟩ : ∃ k, k = min (L.sizeOfChunk s.currentChunk - s.currentChunkOffset) a := ⟨_, rfl⟩
  obtain ⟨piece, hpiece, hread⟩ := h.readCurrentChunk_eq hcs hgeo hlt hhas hk hfit
  refine ⟨k, _, by omega, by omega, hread, ?_, ?_, ?_⟩
  · by_cases hwhole : s.currentChunkOffset + k = L.sizeOfChunk s.currentChunk
    · rw [if_pos hwhole]
      exact h.nextChunk hcs hgeo hlt (by omega) hwhole
    · rw [if_neg hwhole]
      exact h.sameChunk hcs hgeo hlt (by omega) (by omega) hhas hpiece
  · split <;> rfl
  · split <;> rfl

/-- **The loop** reads as much as is asked for, or as much as there is. -/
theorem readLoop_slice (readable maxlen : ℕ) (hcs : L.chunkSize < 2 ^ 32) (hgeo : Geometry f) :
    ∀ (fuel bytesRead : ℕ) (s : FileStream), Placed D f s → maxlen - bytesRead ≤ fuel →
      s.currentByteOffset + (readable - bytesRead) ≤ f.size →
      (∀ p, s.currentByteOffset ≤ p → p < s.currentByteOffset + (readable - bytesRead) →
        L.hasChunk s.chunks ((f.start + p) / L.chunkSize) = true) →
      ∃ s', readLoop D readable maxlen fuel bytesRead s =
          some (((D.data.drop (f.start + s.currentByteOffset)).take
            (min (readable - bytesRead) (maxlen - bytesRead))).map some, s') ∧
        Placed D f s' ∧ s'.chunks = s.chunks ∧ s'.currentByteOffset =
          s.currentByteOffset + min (readable - bytesRead) (maxlen - bytesRead) := by
  intro fuel
  induction fuel with
  | zero =>
    intro bytesRead s h hfuel _ _
    have hnone : min (readable - bytesRead) (maxlen - bytesRead) = 0 := by omega
    rw [hnone]
    exact ⟨s, rfl, h, rfl, rfl⟩
  | succ fuel ih =>
    intro bytesRead s h hfuel hfit hthere
    rw [readLoop]
    by_cases hmore : bytesRead < maxlen ∧ bytesRead < readable
    · rw [if_pos hmore]
      have hlt : s.currentByteOffset < f.size := by omega
      have hhas := hthere s.currentByteOffset le_rfl (by omega)
      rw [← h.chunk hlt] at hhas
      obtain ⟨k, s₁, hk, hka, hread, h₁, hpos₁, hchunks₁⟩ := h.readCurrentChunk_slice hcs hgeo hhas
        (a := min (readable - bytesRead) (maxlen - bytesRead)) (by omega) (by omega)
      have hlen : (((D.data.drop (f.start + s.currentByteOffset)).take k).map some).length = k := by
        have htotal := f.stop_le_total
        have hstop : f.stop = f.start + f.size := rfl
        rw [List.length_map, List.length_take, List.length_drop, D.length_data]
        omega
      obtain ⟨s₂, hloop, h₂, hchunks₂, hpos₂⟩ := ih (bytesRead + k) s₁ h₁ (by omega)
        (by rw [hpos₁]; omega) (by
          intro p hp hp'
          rw [hchunks₁]
          exact hthere p (by omega) (by omega))
      refine ⟨s₂, ?_, h₂, hchunks₂.trans hchunks₁, by rw [hpos₂, hpos₁]; omega⟩
      rw [hread, Option.bind_eq_bind, Option.bind_some]
      dsimp only
      rw [hlen, if_neg hk.ne', hloop, hpos₁]
      have hsum : min (readable - bytesRead) (maxlen - bytesRead) =
          k + min (readable - (bytesRead + k)) (maxlen - (bytesRead + k)) := by omega
      rw [hsum, List.take_add, List.map_append, List.drop_drop, ← Nat.add_assoc]
      rfl
    · rw [if_neg hmore]
      have hnone : min (readable - bytesRead) (maxlen - bytesRead) = 0 := by omega
      rw [hnone]
      exact ⟨s, rfl, h, rfl, rfl⟩

end FileStream
end KTorrent
