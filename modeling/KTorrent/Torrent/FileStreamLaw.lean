import KTorrent.Lib.Run
import KTorrent.Torrent.FileStreamRead

/-!
# What a stream reads

A stream over any run of seeks, reads and downloaded chunks.

* `HasChunk` — the torrent of a stream has a chunk; else no call returns.
* `Lawful` — a call returns, and a read returns the bytes of the file that are there
  without a gap from the position on, and moves the position behind them.
* `Overruns` — a position past the end of the file from which the stream reads on.
* `Beyond` — the place of a stream past the end of its file.
* `reads_lawful` — a run is lawful when the torrent has a chunk and no read is at such
  a position, and, for a torrent of less than `2 ^ 63` bytes, only then.
-/

namespace KTorrent

open Runs

variable {L : Layout}

namespace Streamed

/-- The chunk that `seek` computes. -/
def chunkAt (f : Streamed L) (pos : ℕ) : ℕ := u32 (u64 (f.start + pos) / L.chunkSize)

/-- The offset in the chunk that `seek` computes. -/
def offsetAt (f : Streamed L) (pos : ℕ) : ℕ := u64 (f.start + pos) % L.chunkSize

/-- A position past the end from which the stream reads on: the file is in several chunks; the chunk
that `seek` computes is one of them, and is there; if it is the last one, the offset is neither the
end of the file in it nor its own end. -/
structure Overruns (f : Streamed L) (chunks : ℕ → Bool) (pos : ℕ) : Prop where
  several : f.firstChunk ≠ f.lastChunk
  first_le : f.firstChunk ≤ f.chunkAt pos
  le_last : f.chunkAt pos ≤ f.lastChunk
  downloaded : L.hasChunk chunks (f.chunkAt pos) = true
  offset : f.chunkAt pos = f.lastChunk →
    f.offsetAt pos ≠ f.lastChunkSize ∧ f.offsetAt pos ≠ L.getSize f.lastChunk

/-- A torrent of one file has a chunk.  (A file of several is streamed also when it is empty.) -/
def HasChunk : Streamed L → Prop
  | single => 0 < L.numChunks
  | file .. => True

end Streamed

namespace FileStream

open Streamed

/-- The bytes of the file. -/
def fileBytes (D : StreamDisk L) (f : Streamed L) : List UInt8 := (D.data.drop f.start).take f.size

/-- **What is promised of an event.**  It returns.  A read returns the bytes of the file from the
position on, as many as are asked for and there without a gap. -/
def Lawful (D : StreamDisk L) (f : Streamed L) (s : FileStream) : Event → Prop
  | .seek pos => ∃ s', s.call D f (.seek pos) = some s' ∧ s'.currentByteOffset = pos
  | .read maxlen =>
    let n := min maxlen (f.contiguous s.chunks s.currentByteOffset)
    ∃ s', s.readData D f maxlen =
        some ((((fileBytes D f).drop s.currentByteOffset).take n).map some, s') ∧
      s'.currentByteOffset = s.currentByteOffset + n
  | .chunkDownloaded chunk =>
    ∃ s', s.call D f (.chunkDownloaded chunk) = some s' ∧ s'.currentByteOffset = s.currentByteOffset
  | .reset => ∃ s', s.call D f .reset = some s' ∧ s'.currentByteOffset = 0

/-- A read is at a position in the file, with less than `2 ^ 63` bytes ahead, or past its end where
the stream does not read on; or it asks for nothing. -/
def GoodRead (f : Streamed L) (s : FileStream) : Event → Prop
  | .read maxlen => maxlen = 0 ∨
      (s.currentByteOffset ≤ f.size ∧ f.contiguous s.chunks s.currentByteOffset < 2 ^ 63) ∨
      (f.size < s.currentByteOffset ∧ ¬ Overruns f s.chunks s.currentByteOffset)
  | _ => True

/-- A torrent of one file has a chunk, and a read is good. -/
def Good (f : Streamed L) (s : FileStream) (e : Event) : Prop :=
  f.HasChunk ∧ GoodRead f s e

variable {D : StreamDisk L} {f : Streamed L} {s : FileStream}

/-! ## Updates -/

/-- **An update returns** exactly when it is not one of a torrent of one file without a chunk. -/
theorem update_isSome_iff (f : Streamed L) (s : FileStream) : (s.update f).isSome ↔ f.HasChunk := by
  have hnum := L.numChunks_lt
  rw [update]
  cases f with
  | single =>
    show (if 0 ≠ sub32 L.numChunks 1 ∧ sub32 L.numChunks 1 = 0xFFFFFFFF then none
      else some (s.updated .single)).isSome ↔ 0 < L.numChunks
    by_cases hnone : L.numChunks = 0
    · rw [hnone, if_pos (by decide)]
      exact iff_of_false Bool.false_ne_true (lt_irrefl 0)
    · rw [sub32_of_le (Nat.pos_of_ne_zero hnone) hnum, if_neg (by omega)]
      simpa using Nat.pos_of_ne_zero hnone
  | file tf mem =>
    have hexact := L.exact_of_mem mem
    rw [if_neg]
    · exact iff_of_true rfl trivial
    · rintro ⟨hne, hlast⟩
      by_cases hsize : 0 < tf.size
      · have := L.lastChunk_lt mem hsize
        change tf.lastChunk = _ at hlast
        omega
      · refine hne ?_
        show tf.firstChunk = tf.lastChunk
        rw [hexact.firstChunk, hexact.lastChunk, if_neg hsize]

theorem update_of_hasChunk (h : f.HasChunk) (s : FileStream) : s.update f = some (s.updated f) := by
  have hsome := (update_isSome_iff f s).mpr h
  rw [update] at hsome ⊢
  split at hsome
  · cases hsome
  · rw [if_neg ‹_›]

/-- No event of a stream over a torrent without a chunk returns. -/
theorem call_eq_none (h : ¬ f.HasChunk) (D : StreamDisk L) (s : FileStream) (e : Event) :
    s.call D f e = none := by
  have hnone : ∀ s : FileStream, s.update f = none := fun s =>
    Option.not_isSome_iff_eq_none.mp ((update_isSome_iff f s).not.mpr h)
  cases e with
  | seek pos => rw [call, hnone, Option.map_none]
  | read maxlen =>
    rw [call, readData, hnone]
    rfl
  | chunkDownloaded chunk => rw [call, hnone]
  | reset => rw [call, FileStream.reset, hnone]

/-- `update` changes how much can be read, and the bits. -/
theorem updated_eq (f : Streamed L) (s : FileStream) : ∃ bits n, s.updated f =
    { s with bitset := bits, bytesReadable := n } ∧ bits.numBits = s.bitset.numBits := by
  rw [updated]
  split
  · split
    · exact ⟨_, _, rfl, BitSet.numBits_set ..⟩
    · exact ⟨_, _, rfl, BitSet.numBits_set ..⟩
  · dsimp only
    split
    · exact ⟨_, _, rfl, numBits_refreshed ..⟩
    · exact ⟨_, _, rfl, numBits_refreshed ..⟩

theorem Placed.withBits (h : Placed D f s) {bits : BitSet} {n : ℕ}
    (hbits : bits.numBits = s.bitset.numBits) :
    Placed D f { s with bitset := bits, bytesReadable := n } :=
  ⟨(congrArg _ hbits).trans h.bits, h.le_size, h.chunk, h.offset, h.atEnd, h.cached⟩

/-! ## Past the end -/

/-- The place of a stream whose position is past the end: where `seek` put it, or behind the last
chunk, when `seek` put it at the end of that chunk. -/
inductive Beyond (f : Streamed L) (s : FileStream) : Prop where
  | sought (chunk : s.currentChunk = f.chunkAt s.currentByteOffset)
      (offset : s.currentChunkOffset = f.offsetAt s.currentByteOffset)
      (data : s.currentChunkData = none)
  | past (chunk : s.currentChunk = f.lastChunk + 1) (data : s.currentChunkData = none)
      (last : f.chunkAt s.currentByteOffset = f.lastChunk)
      (atEnd : f.offsetAt s.currentByteOffset = L.getSize f.lastChunk)

theorem Beyond.withBits (h : Beyond f s) (bits : BitSet) (n : ℕ) :
    Beyond f { s with bitset := bits, bytesReadable := n } := by
  cases h with
  | sought chunk offset data => exact .sought chunk offset data
  | past chunk data last atEnd => exact .past chunk data last atEnd

/-- **The invariant** of a stream. -/
structure Inv (D : StreamDisk L) (f : Streamed L) (s : FileStream) : Prop where
  bits : s.bitset.numBits.toNat = f.numBits
  bound : s.currentByteOffset ≤ f.size ∨ s.currentByteOffset < 2 ^ 63
  inside : 0 < f.size → s.currentByteOffset ≤ f.size → Placed D f s
  beyond : 0 < f.size → f.size < s.currentByteOffset → Beyond f s

theorem Inv.withBits (h : Inv D f s) {bits : BitSet} {n : ℕ} (hbits : bits.numBits = s.bitset.numBits) :
    Inv D f { s with bitset := bits, bytesReadable := n } where
  bits := (congrArg _ hbits).trans h.bits
  bound := h.bound
  inside hsize hle := (h.inside hsize hle).withBits hbits
  beyond hsize hlt := (h.beyond hsize hlt).withBits bits n

theorem Inv.updated (h : Inv D f s) : Inv D f (s.updated f) := by
  obtain ⟨bits, n, heq, hbits⟩ := updated_eq f s
  rw [heq]
  exact h.withBits hbits

/-- A file without data overruns nowhere. -/
theorem not_overruns_of_empty (hempty : f.size = 0) (chunks : ℕ → Bool) (pos : ℕ) :
    ¬ Overruns f chunks pos := by
  intro h
  cases f with
  | single =>
    have htotal : L.total = 0 := hempty
    have hnone : L.numChunks = 0 := by
      rw [Layout.numChunks, htotal, Nat.zero_div, Nat.zero_mod]
      rfl
    have hhas := h.downloaded
    rw [Layout.hasChunk, Bool.and_eq_true, decide_eq_true_eq] at hhas
    omega
  | file tf mem =>
    have hsize : tf.size = 0 := hempty
    have hexact := L.exact_of_mem mem
    refine h.several ?_
    show tf.firstChunk = tf.lastChunk
    rw [hexact.firstChunk, hexact.lastChunk, if_neg (by omega)]

/-! ## Reads of nothing -/

theorem asLimit_sub64 {size pos : ℕ} (hlt : size < pos) (hpos : pos < 2 ^ 63) :
    asLimit (sub64 size pos) = 0 := by
  rw [asLimit, if_neg]
  rw [sub64, subw]
  omega

/-- When nothing is asked for, or nothing can be read, nothing is. -/
theorem readData_nothing (hchunk : f.HasChunk) {maxlen : ℕ} (h : maxlen = 0 ∨ asLimit (s.updated f).bytesReadable = 0) :
    ∃ n, s.readData D f maxlen = some ([], { s.updated f with bytesReadable := n }) := by
  rw [readData, update_of_hasChunk hchunk, Option.bind_eq_bind, Option.bind_some]
  dsimp only
  split
  · exact ⟨_, rfl⟩
  · have hloop : readLoop D (asLimit (s.updated f).bytesReadable) maxlen maxlen 0 (s.updated f) =
        some ([], s.updated f) := by
      cases maxlen with
      | zero => rfl
      | succ m =>
        rw [readLoop, if_neg]
        omega
    rw [hloop]
    exact ⟨_, rfl⟩

/-- A read that returns nothing and moves nothing. -/
theorem lawful_nothing {s' : FileStream} {maxlen : ℕ} (hread : s.readData D f maxlen = some ([], s'))
    (hzero : min maxlen (f.contiguous s.chunks s.currentByteOffset) = 0)
    (hpos : s'.currentByteOffset = s.currentByteOffset) (h : Inv D f s') :
    Lawful D f s (.read maxlen) ∧ Inv D f (s.step D f (.read maxlen)) := by
  rw [Lawful, step, call, hread, hzero]
  exact ⟨⟨s', rfl, hpos⟩, h⟩

theorem Inv.nothing (h : Inv D f s) (hchunk : f.HasChunk) {maxlen : ℕ}
    (hnone : maxlen = 0 ∨ asLimit (s.updated f).bytesReadable = 0)
    (hzero : min maxlen (f.contiguous s.chunks s.currentByteOffset) = 0) :
    Lawful D f s (.read maxlen) ∧ Inv D f (s.step D f (.read maxlen)) := by
  obtain ⟨n, hread⟩ := readData_nothing (D := D) hchunk hnone
  obtain ⟨bits, m, heq, hbits⟩ := updated_eq f s
  rw [heq] at hread
  exact lawful_nothing hread hzero rfl (h.withBits hbits)

theorem contiguous_beyond {chunks : ℕ → Bool} {pos : ℕ} (h : f.size ≤ pos) :
    f.contiguous chunks pos = 0 := by
  rw [contiguous, Nat.sub_eq_zero_of_le h]
  rfl

/-- A file without data: nothing can be read. -/
theorem asLimit_updated_empty (h : Inv D f s) (hempty : f.size = 0) :
    asLimit (s.updated f).bytesReadable = 0 := by
  have hbound : s.currentByteOffset = 0 ∨ f.size < s.currentByteOffset ∧ s.currentByteOffset < 2 ^ 63 := by
    have := h.bound
    omega
  rw [FileStream.updated]
  split
  · split
    · show asLimit (sub64 f.size s.currentByteOffset) = 0
      rcases hbound with hzero | ⟨hlt, hpos⟩
      · rw [hzero, hempty]
        rfl
      · exact asLimit_sub64 hlt hpos
    · rfl
  · rename_i hseveral
    have hbits : f.numBits = 0 := by
      cases f with
      | single =>
        have htotal : L.total = 0 := hempty
        rw [numBits, Layout.numChunks, htotal, Nat.zero_div, Nat.zero_mod]
        rfl
      | file tf mem =>
        have hsize : tf.size = 0 := hempty
        have hexact := L.exact_of_mem mem
        refine absurd ?_ hseveral
        show tf.firstChunk = tf.lastChunk
        rw [hexact.firstChunk, hexact.lastChunk, if_neg (by omega)]
    dsimp only
    rw [BitSet.get_outside _ (by rw [numBits_refreshed, h.bits, hbits]; exact Nat.zero_le _),
      if_neg Bool.false_ne_true]
    rfl

theorem readData_bind (hchunk : f.HasChunk) {maxlen : ℕ} (h : (s.updated f).bytesReadable ≠ 0) :
    s.readData D f maxlen =
      (readLoop D (asLimit (s.updated f).bytesReadable) maxlen maxlen 0 (s.updated f)).bind fun r =>
        some (r.1, { r.2 with bytesReadable := sub64 r.2.bytesReadable r.1.length }) := by
  rw [readData, update_of_hasChunk hchunk, Option.bind_eq_bind, Option.bind_some]
  dsimp only
  rw [if_neg h]
  rfl

/-! ## Reads in the file -/

/-- **A read at a position in the file.** -/
theorem Inv.read_inside (h : Inv D f s) (hchunk : f.HasChunk) (hcs : L.chunkSize < 2 ^ 32) (hsize : 0 < f.size)
    (hle : s.currentByteOffset ≤ f.size) {maxlen : ℕ}
    (hlimit : f.contiguous s.chunks s.currentByteOffset < 2 ^ 63) :
    Lawful D f s (.read maxlen) ∧ Inv D f (s.step D f (.read maxlen)) := by
  have hgeo := f.geometry hcs hsize
  have hplaced := h.inside hsize hle
  have hreadable := hplaced.bytesReadable_updated hcs hgeo
  obtain ⟨bits, n, heq, hbits⟩ := updated_eq f s
  by_cases hzero : f.contiguous s.chunks s.currentByteOffset = 0
  · exact h.nothing hchunk (.inr (by rw [hreadable, hzero]; rfl)) (by omega)
  · have hn : n = f.contiguous s.chunks s.currentByteOffset := by
      rw [← hreadable, heq]
    have hasn : asLimit n = n := if_pos (hn ▸ hlimit)
    have hle' := contiguous_le f s.chunks s.currentByteOffset
    have hthere : ∀ p, s.currentByteOffset ≤ p → p < s.currentByteOffset + n →
        L.hasChunk s.chunks ((f.start + p) / L.chunkSize) = true :=
      fun p hp hp' => hasChunk_of_contiguous hp (hn ▸ hp')
    obtain ⟨s', hloop, hplaced', -, hpos'⟩ := readLoop_slice n maxlen hcs hgeo
      maxlen 0 { s with bitset := bits, bytesReadable := n } (hplaced.withBits hbits) (Nat.sub_le ..)
      (by dsimp only; omega) hthere
    dsimp only at hloop hpos'
    rw [Nat.sub_zero, Nat.sub_zero] at hloop hpos'
    have hslice : (D.data.drop (f.start + s.currentByteOffset)).take (min n maxlen) =
        ((fileBytes D f).drop s.currentByteOffset).take
          (min maxlen (f.contiguous s.chunks s.currentByteOffset)) := by
      rw [fileBytes, List.drop_take, List.drop_drop, List.take_take, ← hn]
      congr 1
      omega
    rw [hslice] at hloop
    obtain ⟨got, hgot⟩ : ∃ got, got = (((fileBytes D f).drop s.currentByteOffset).take
      (min maxlen (f.contiguous s.chunks s.currentByteOffset))).map some := ⟨_, rfl⟩
    have hread : s.readData D f maxlen =
        some (got, { s' with bytesReadable := sub64 s'.bytesReadable got.length }) := by
      rw [readData_bind hchunk (by rw [hreadable]; exact hzero), heq]
      dsimp only
      rw [hasn, hloop, hgot]
      rfl
    have hplaced'' : Placed D f { s' with bytesReadable := sub64 s'.bytesReadable got.length } :=
      hplaced'.withBits rfl
    rw [Lawful, step, call, hread]
    refine ⟨⟨_, by rw [hgot], ?_⟩, hplaced''.bits, .inl hplaced''.le_size, fun _ _ => hplaced'',
      fun _ hlt => absurd hplaced''.le_size (not_le.mpr hlt)⟩
    dsimp only
    rw [hpos', hn, Nat.min_comm]

/-! ## Reads past the end -/

/-- The stream reads on: where `seek` put it there is a chunk of the file. -/
structure InChunk (f : Streamed L) (s : FileStream) : Prop where
  chunk : s.currentChunk = f.chunkAt s.currentByteOffset
  offset : s.currentChunkOffset = f.offsetAt s.currentByteOffset
  data : s.currentChunkData = none
  first_le : f.firstChunk ≤ s.currentChunk
  le_last : s.currentChunk ≤ f.lastChunk
  downloaded : L.hasChunk s.chunks s.currentChunk = true

theorem InChunk.withBits (h : InChunk f s) (bits : BitSet) (n : ℕ) :
    InChunk f { s with bitset := bits, bytesReadable := n } :=
  ⟨h.chunk, h.offset, h.data, h.first_le, h.le_last, h.downloaded⟩

/-- Past the end nothing can be read, or the stream reads on. -/
theorem Inv.inChunk (h : Inv D f s) (hgeo : Geometry f) (hsize : 0 < f.size)
    (hlt : f.size < s.currentByteOffset) :
    asLimit (s.updated f).bytesReadable = 0 ∨ f.firstChunk ≠ f.lastChunk ∧ InChunk f s := by
  have hpos : s.currentByteOffset < 2 ^ 63 := h.bound.resolve_left (not_le.mpr hlt)
  by_cases hone : f.firstChunk = f.lastChunk
  · left
    rw [FileStream.updated, if_pos hone]
    split
    · exact asLimit_sub64 hlt hpos
    · rfl
  by_cases hbit : (s.refreshed f).get (sub32 s.currentChunk f.firstChunk) = true
  · right
    have hnum := L.numChunks_lt
    have hlast := hgeo.last_lt
    have hin : s.currentChunk < 2 ^ 32 → f.firstChunk ≤ s.currentChunk ∧
        s.currentChunk ≤ f.lastChunk ∧ L.hasChunk s.chunks s.currentChunk = true := by
      intro hcur
      have hrange : ¬ (s.currentChunk < f.firstChunk ∨ f.lastChunk < s.currentChunk) := by
        intro hout
        rw [get_refreshed_outside hgeo h.bits hcur hout] at hbit
        exact Bool.false_ne_true hbit
      rw [not_or, not_lt, not_lt] at hrange
      rw [get_refreshed hgeo h.bits hrange.1 hrange.2] at hbit
      exact ⟨hrange.1, hrange.2, hbit⟩
    cases h.beyond hsize hlt with
    | sought chunk offset data =>
      obtain ⟨hfirst, hle, hhas⟩ := hin (chunk ▸ u32_lt _)
      exact ⟨hone, chunk, offset, data, hfirst, hle, hhas⟩
    | past chunk data last atEnd =>
      have := (hin (by omega)).2.1
      omega
  · left
    rw [FileStream.updated, if_neg hone]
    dsimp only
    rw [if_neg hbit]
    rfl

/-- What `update` computes when the stream reads on in the last chunk. -/
theorem InChunk.bytesReadable_last (h : InChunk f s) (hgeo : Geometry f)
    (hseveral : f.firstChunk ≠ f.lastChunk) (hbits : s.bitset.numBits.toNat = f.numBits)
    (hlast : s.currentChunk = f.lastChunk) :
    (s.updated f).bytesReadable = sub32 f.lastChunkSize s.currentChunkOffset := by
  have hlt : sub32 f.lastChunkSize s.currentChunkOffset < 2 ^ 32 := Nat.mod_lt _ (by decide)
  rw [FileStream.updated, if_neg hseveral]
  dsimp only
  rw [get_refreshed hgeo hbits h.first_le h.le_last, if_pos h.downloaded, if_pos hlast, hlast,
    Nat.sub_self]
  show u64 (0 + sub32 f.lastChunkSize s.currentChunkOffset) = _
  rw [Nat.zero_add, u64_of_lt (by omega)]

/-- What it computes in another chunk. -/
theorem InChunk.bytesReadable_before (h : InChunk f s) (hcs : L.chunkSize < 2 ^ 32) (hgeo : Geometry f)
    (hseveral : f.firstChunk ≠ f.lastChunk) (hbits : s.bitset.numBits.toNat = f.numBits)
    (hlast : s.currentChunk < f.lastChunk) :
    0 < (s.updated f).bytesReadable ∧ (s.updated f).bytesReadable ≤ L.total := by
  have hoff : s.currentChunkOffset < L.chunkSize := by
    rw [h.offset]
    exact Nat.mod_lt _ L.chunkSize_pos
  have hnext : s.currentChunk * L.chunkSize + L.chunkSize ≤ f.lastChunk * L.chunkSize := by
    rw [← Nat.succ_mul]
    exact Nat.mul_le_mul_right _ hlast
  have hstart := hgeo.last_start
  have htotal := f.stop_le_total
  obtain ⟨e, hce, hel, -, -, hsum⟩ := addChunks_spec hcs hgeo
    (fun c hc hc' => get_refreshed hgeo hbits hc hc') (f.lastChunk - s.currentChunk)
    (s.currentChunk + 1) 0 (by have := h.first_le; omega) (by omega) (Nat.zero_le _)
  have hends := endIn_le hgeo e
  have hvalue := readable_value hcs hgeo rfl hoff h.le_last
    (show s.currentChunk * L.chunkSize + s.currentChunkOffset < f.stop by omega) hce hel
  have hend : s.currentChunk * L.chunkSize + L.chunkSize ≤ endIn f e := by
    rw [endIn]
    split
    · rw [← Nat.succ_mul]
      exact Nat.mul_le_mul_right _ hce
    · omega
  rw [FileStream.updated, if_neg hseveral]
  dsimp only
  rw [get_refreshed hgeo hbits h.first_le h.le_last, if_pos h.downloaded, hsum]
  dsimp only
  rw [hvalue]
  omega

/-- The first turn of the loop, where the stream reads on. -/
theorem InChunk.readCurrentChunk (h : InChunk f s) (hcs : L.chunkSize < 2 ^ 32) (a : ℕ) :
    ∃ piece s', s.readCurrentChunk D a =
      some (readPiece piece (min (sub32 (L.sizeOfChunk s.currentChunk) s.currentChunkOffset) a)
        s.currentChunkOffset, s') := by
  have hhas := h.downloaded
  rw [Layout.hasChunk, Bool.and_eq_true, decide_eq_true_eq] at hhas
  rw [FileStream.readCurrentChunk, if_neg (not_le.mpr hhas.1), h.data, Option.none_or,
    D.getPiece_downloaded _ _ hhas.1 hhas.2]
  dsimp only
  rw [getSize_eq hcs]
  exact ⟨_, _, rfl⟩

theorem length_readPiece (piece : List UInt8) (toRead off : ℕ) :
    (readPiece piece toRead off).length = toRead := by
  rw [readPiece]
  split
  · exact List.length_replicate ..
  · rw [List.length_map, List.length_range']

/-- At the end of the last chunk nothing is read, and the stream goes to the next chunk. -/
theorem InChunk.readCurrentChunk_end (h : InChunk f s) (hlast : s.currentChunk = f.lastChunk)
    (hend : s.currentChunkOffset = L.getSize f.lastChunk) (hpos : s.currentByteOffset < 2 ^ 63) (a : ℕ) :
    s.readCurrentChunk D a =
      some ([], { s with
        currentChunk := f.lastChunk + 1
        currentChunkData := none
        currentChunkOffset := 0 }) := by
  have hhas := h.downloaded
  rw [Layout.hasChunk, Bool.and_eq_true, decide_eq_true_eq] at hhas
  have hnum := L.numChunks_lt
  have hsize : L.getSize f.lastChunk < 2 ^ 32 := u32_lt _
  rw [FileStream.readCurrentChunk, if_neg (not_le.mpr hhas.1), h.data, Option.none_or,
    D.getPiece_downloaded _ _ hhas.1 hhas.2]
  dsimp only
  rw [hlast, hend, sub32_of_le le_rfl hsize, Nat.sub_self, Nat.zero_min, Nat.add_zero, Nat.add_zero,
    u32_of_lt hsize, u64_of_lt (by omega), u32_of_lt (by omega), if_pos rfl]
  have hnil : ∀ piece, readPiece piece 0 (L.getSize f.lastChunk) = [] :=
    fun piece => List.length_eq_zero_iff.mp (length_readPiece ..)
  rw [hnil]

/-- **A read past the end** at a position from which the stream does not read on. -/
theorem Inv.read_beyond (h : Inv D f s) (hchunk : f.HasChunk) (hcs : L.chunkSize < 2 ^ 32) (hsize : 0 < f.size)
    (hlt : f.size < s.currentByteOffset) (hok : ¬ Overruns f s.chunks s.currentByteOffset)
    {maxlen : ℕ} : Lawful D f s (.read maxlen) ∧ Inv D f (s.step D f (.read maxlen)) := by
  have hgeo := f.geometry hcs hsize
  have hnone : min maxlen (f.contiguous s.chunks s.currentByteOffset) = 0 := by
    rw [contiguous_beyond hlt.le, Nat.min_zero]
  have hpos : s.currentByteOffset < 2 ^ 63 := h.bound.resolve_left (not_le.mpr hlt)
  rcases h.inChunk hgeo hsize hlt with hzero | ⟨hseveral, hin⟩
  · exact h.nothing hchunk (.inr hzero) hnone
  have hlast : s.currentChunk = f.lastChunk ∧
      (s.currentChunkOffset = f.lastChunkSize ∨ s.currentChunkOffset = L.getSize f.lastChunk) := by
    by_contra hnot
    refine hok ⟨hseveral, hin.chunk ▸ hin.first_le, hin.chunk ▸ hin.le_last, hin.chunk ▸ hin.downloaded,
      fun hat => ?_⟩
    rw [← hin.chunk] at hat
    rw [← hin.offset]
    exact not_or.mp fun hor => hnot ⟨hat, hor⟩
  have hreadable := hin.bytesReadable_last hgeo hseveral h.bits hlast.1
  by_cases hzero : maxlen = 0 ∨ asLimit (s.updated f).bytesReadable = 0
  · exact h.nothing hchunk hzero hnone
  rw [not_or] at hzero
  have hend : s.currentChunkOffset = L.getSize f.lastChunk := by
    refine hlast.2.resolve_left fun heq => hzero.2 ?_
    have hlt : f.lastChunkSize < 2 ^ 32 := by
      rw [hgeo.lastSize]
      have hstop := hgeo.stop_le
      have hchunk := L.sizeOfChunk_le f.lastChunk
      omega
    rw [hreadable, heq, sub32_of_le le_rfl hlt, Nat.sub_self]
    rfl
  obtain ⟨bits, n, heq, hbits⟩ := updated_eq f s
  obtain ⟨m, rfl⟩ : ∃ m, maxlen = m + 1 := ⟨maxlen - 1, by omega⟩
  have hne : (s.updated f).bytesReadable ≠ 0 := fun hbytes => hzero.2 (by rw [hbytes]; rfl)
  have hread : s.readData D f (m + 1) = some ([], { s with
      bitset := bits
      bytesReadable := sub64 n 0
      currentChunk := f.lastChunk + 1
      currentChunkData := none
      currentChunkOffset := 0 }) := by
    rw [readData_bind hchunk hne, readLoop, if_pos ⟨Nat.succ_pos m, Nat.pos_of_ne_zero hzero.2⟩, heq,
      (hin.withBits bits n).readCurrentChunk_end hlast.1 hend hpos]
    rfl
  refine lawful_nothing hread hnone rfl ⟨(congrArg _ hbits).trans h.bits, .inr hpos, fun _ hle => ?_,
    fun _ _ => ?_⟩
  · exact absurd hle (not_le.mpr hlt)
  · exact .past rfl rfl (hin.chunk ▸ hlast.1) (hin.offset ▸ hend)

theorem eq_of_sub32_eq_zero {a b : ℕ} (ha : a < 2 ^ 32) (hb : b < 2 ^ 32) (h : sub32 a b = 0) :
    a = b := by
  rw [sub32, subw] at h
  omega

/-- **A read past the end** at a position from which the stream reads on. -/
theorem Inv.read_overruns (h : Inv D f s) (hhas : f.HasChunk) (hcs : L.chunkSize < 2 ^ 32) (hsize : 0 < f.size)
    (hlt : f.size < s.currentByteOffset) (hover : Overruns f s.chunks s.currentByteOffset)
    (htotal : L.total < 2 ^ 63) {maxlen : ℕ} (hmax : maxlen ≠ 0) : ¬ Lawful D f s (.read maxlen) := by
  have hgeo := f.geometry hcs hsize
  have hin : InChunk f s := by
    cases h.beyond hsize hlt with
    | sought chunk offset data =>
      exact ⟨chunk, offset, data, chunk ▸ hover.first_le, chunk ▸ hover.le_last,
        chunk ▸ hover.downloaded⟩
    | past chunk data last atEnd => exact absurd atEnd (hover.offset last).2
  have hoff : s.currentChunkOffset < L.chunkSize := by
    rw [hin.offset]
    exact Nat.mod_lt _ L.chunkSize_pos
  have hchunk := L.sizeOfChunk_le f.lastChunk
  have hlastSize : f.lastChunkSize < 2 ^ 32 := by
    rw [hgeo.lastSize]
    have hstop := hgeo.stop_le
    omega
  -- something can be read, and something is left of the chunk
  have hboth : (0 < (s.updated f).bytesReadable ∧ (s.updated f).bytesReadable < 2 ^ 63) ∧
      sub32 (L.sizeOfChunk s.currentChunk) s.currentChunkOffset ≠ 0 := by
    by_cases hlast : s.currentChunk = f.lastChunk
    · have hoffset := hover.offset (hin.chunk ▸ hlast)
      rw [← hin.offset] at hoffset
      have hbound : sub32 f.lastChunkSize s.currentChunkOffset < 2 ^ 32 := Nat.mod_lt _ (by decide)
      rw [hin.bytesReadable_last hgeo hover.several h.bits hlast]
      refine ⟨⟨Nat.pos_of_ne_zero fun hz => hoffset.1 ?_, by omega⟩, fun hz => hoffset.2 ?_⟩
      · exact (eq_of_sub32_eq_zero hlastSize (hoff.trans hcs) hz).symm
      · rw [getSize_eq hcs, ← hlast]
        exact (eq_of_sub32_eq_zero (by rw [hlast]; omega) (hoff.trans hcs) hz).symm
    · have hbefore : s.currentChunk < f.lastChunk := by
        have := hin.le_last
        omega
      obtain ⟨hpos, hle⟩ := hin.bytesReadable_before hcs hgeo hover.several h.bits hbefore
      refine ⟨⟨hpos, by omega⟩, ?_⟩
      rw [← getSize_eq hcs, hgeo.getSize_of_lt hcs hbefore, sub32_of_le hoff.le hcs]
      omega
  obtain ⟨⟨hpos, hbound⟩, hleft⟩ := hboth
  obtain ⟨bits, n, heq, hbits⟩ := updated_eq f s
  rw [heq] at hpos hbound
  dsimp only at hpos hbound
  obtain ⟨m, rfl⟩ : ∃ m, maxlen = m + 1 := ⟨maxlen - 1, by omega⟩
  have hlimit : asLimit n = n := if_pos hbound
  obtain ⟨piece, s₁, hfirst⟩ := (hin.withBits bits n).readCurrentChunk (D := D) hcs (min (n - 0) (m + 1 - 0))
  rintro ⟨s', hread, -⟩
  rw [contiguous_beyond hlt.le, Nat.min_zero, readData_bind hhas (by rw [heq]; exact hpos.ne'), heq] at hread
  dsimp only at hread hfirst
  rw [hlimit, readLoop, if_pos ⟨Nat.succ_pos m, hpos⟩, hfirst, Option.bind_eq_bind, Option.bind_some] at hread
  dsimp only at hread
  rw [length_readPiece, if_neg (by omega)] at hread
  -- the bytes of the first turn are returned, unless a later turn has no chunk
  cases hrest : readLoop D n (m + 1) m
      (0 + min (sub32 (L.sizeOfChunk s.currentChunk) s.currentChunkOffset) (min (n - 0) (m + 1 - 0))) s₁ with
  | none =>
    rw [hrest] at hread
    cases hread
  | some r =>
    rw [hrest, Option.bind_some, Option.pure_def, Option.bind_some] at hread
    have hnil := congrArg (fun r => r.1.length) (Option.some.inj hread)
    dsimp only at hnil
    rw [List.length_append, length_readPiece, List.take_zero, List.map_nil, List.length_nil] at hnil
    omega

/-! ## Seeks -/

/-- A stream at the place that `seek` computes. -/
def at_ (f : Streamed L) (s : FileStream) (pos : ℕ) : FileStream :=
  { s with
    currentByteOffset := pos
    currentChunk := f.chunkAt pos
    currentChunkOffset := f.offsetAt pos
    currentChunkData := none }

theorem u32_offsetAt (hcs : L.chunkSize < 2 ^ 32) (f : Streamed L) (pos : ℕ) :
    u32 (f.offsetAt pos) = f.offsetAt pos :=
  u32_of_lt ((Nat.mod_lt _ L.chunkSize_pos).trans hcs)

theorem seek_eq (hcs : L.chunkSize < 2 ^ 32) (f : Streamed L) (s : FileStream) {pos : ℕ}
    (hpos : pos < 2 ^ 63) : s.seek f pos = s.at_ f pos := by
  have hoffset := u32_offsetAt hcs f pos
  have hfirst := f.firstChunk_mul
  rw [← f.firstChunkOffset_eq hcs] at hfirst
  rw [at_, chunkAt, ← hoffset, offsetAt]
  cases f with
  | single =>
    have htor : u64 ((single : Streamed L).start + pos) = pos := by
      rw [start, Nat.zero_add]
      exact u64_of_lt (by omega)
    rw [htor]
    rfl
  | file tf mem =>
    rw [← hfirst, Nat.add_assoc, u64, Nat.add_mod]
    rfl

/-- The place that `seek` computes for a position in the file. -/
theorem placed_at (hgeo : Geometry f) (hbits : s.bitset.numBits.toNat = f.numBits) {pos : ℕ}
    (hle : pos ≤ f.size) : Placed D f (s.at_ f pos) := by
  have htotal := f.stop_le_total
  have hlt64 : L.total < 2 ^ 64 := L.total_lt
  have hstop : f.stop = f.start + f.size := rfl
  have hchunks := L.chunks_lt
  have htor : u64 (f.start + pos) = f.start + pos := u64_of_lt (by omega)
  have hdiv : (f.start + pos) / L.chunkSize ≤ L.total / L.chunkSize := Nat.div_le_div_right (by omega)
  have hchunk : f.chunkAt pos = (f.start + pos) / L.chunkSize := by
    rw [chunkAt, htor]
    exact u32_of_lt (by rw [Layout.total] at hdiv; omega)
  have hoffset : f.offsetAt pos = (f.start + pos) % L.chunkSize := by rw [offsetAt, htor]
  refine ⟨hbits, hle, fun _ => hchunk, fun _ => hoffset, fun hat => ?_, fun _ hd => by cases hd⟩
  obtain rfl : pos = f.size := hat
  show f.chunkAt f.size = f.lastChunk ∧ f.offsetAt f.size = f.lastChunkSize ∨
    f.chunkAt f.size = f.lastChunk + 1 ∧ f.offsetAt f.size = 0
  rw [hchunk, hoffset, ← hstop, hgeo.lastSize]
  have hstart := hgeo.last_start
  have hend := hgeo.stop_le
  have hsize := L.sizeOfChunk_le f.lastChunk
  by_cases hfull : f.stop = f.lastChunk * L.chunkSize + L.chunkSize
  · right
    have hplace : f.lastChunk + 1 = f.stop / L.chunkSize ∧ 0 = f.stop % L.chunkSize :=
      place_unique (by rw [Nat.succ_mul]; omega) L.chunkSize_pos
    exact ⟨hplace.1.symm, hplace.2.symm⟩
  · left
    have hplace : f.lastChunk = f.stop / L.chunkSize ∧
        f.stop - f.lastChunk * L.chunkSize = f.stop % L.chunkSize :=
      place_unique (by omega) (by omega)
    exact ⟨hplace.1.symm, hplace.2.symm⟩

/-- A stream keeps its invariant wherever it is sent. -/
theorem inv_at (hcs : L.chunkSize < 2 ^ 32) (hbits : s.bitset.numBits.toNat = f.numBits) {pos : ℕ}
    (hpos : pos < 2 ^ 63) : Inv D f (s.at_ f pos) where
  bits := hbits
  bound := .inr hpos
  inside hsize hle := placed_at (f.geometry hcs hsize) hbits hle
  beyond _ _ := .sought rfl rfl rfl

/-- The start of the file is where `seek` goes for position 0. -/
theorem start_eq (hcs : L.chunkSize < 2 ^ 32) (f : Streamed L) :
    f.firstChunk = f.chunkAt 0 ∧ f.firstChunkOffset = f.offsetAt 0 := by
  have htotal := f.stop_le_total
  have hlt64 : L.total < 2 ^ 64 := L.total_lt
  have hstop : f.stop = f.start + f.size := rfl
  have hchunks := L.chunks_lt
  have hdiv : f.start / L.chunkSize ≤ L.total / L.chunkSize := Nat.div_le_div_right (by omega)
  rw [chunkAt, offsetAt, Nat.add_zero, u64_of_lt (by omega), f.firstChunk_eq,
    f.firstChunkOffset_eq hcs, u32_of_lt (by rw [Layout.total] at hdiv; omega)]
  exact ⟨rfl, rfl⟩

theorem inv_new (hcs : L.chunkSize < 2 ^ 32) (f : Streamed L) (chunks : ℕ → Bool) :
    Inv D f (FileStream.new f chunks) := by
  have hbits : (FileStream.new f chunks).bitset.numBits.toNat = f.numBits := by
    show (UInt32.ofNat f.numBits).toNat = f.numBits
    rw [UInt32.toNat_ofNat']
    refine Nat.mod_eq_of_lt ?_
    cases f with
    | single => exact L.numChunks_lt
    | file tf mem => exact u32_lt _
  have hnew : FileStream.new f chunks = (FileStream.new f chunks).at_ f 0 := by
    rw [at_, ← (start_eq hcs f).1, ← (start_eq hcs f).2]
    rfl
  rw [hnew]
  exact inv_at hcs hbits (by decide)

theorem Inv.reset (h : Inv D f s) (hchunk : f.HasChunk) (hcs : L.chunkSize < 2 ^ 32) :
    ∃ s', s.reset f = some s' ∧ s'.currentByteOffset = 0 ∧ Inv D f s' := by
  have hat : Inv D f { s.at_ f 0 with bytesReadable := 0 } :=
    (inv_at hcs h.bits (by decide)).withBits rfl
  obtain ⟨bits, n, heq, -⟩ := updated_eq f { s.at_ f 0 with bytesReadable := 0 }
  refine ⟨_, ?_, congrArg FileStream.currentByteOffset heq, hat.updated⟩
  rw [FileStream.reset, (start_eq hcs f).1, (start_eq hcs f).2]
  exact update_of_hasChunk hchunk _

theorem Inv.chunkDownloaded (h : Inv D f s) (chunk : ℕ) :
    Inv D f { s with chunks := Function.update s.chunks chunk true } where
  bits := h.bits
  bound := h.bound
  inside hsize hle := by
    obtain ⟨hbits, hle, hchunk, hoffset, hend, hcached⟩ := h.inside hsize hle
    refine ⟨hbits, hle, hchunk, hoffset, hend, fun piece hpiece => ⟨?_, (hcached piece hpiece).2⟩⟩
    have hhas := (hcached piece hpiece).1
    rw [Layout.hasChunk, Bool.and_eq_true] at hhas ⊢
    refine ⟨hhas.1, ?_⟩
    show Function.update s.chunks chunk true s.currentChunk = true
    rw [Function.update_apply]
    split
    · rfl
    · exact hhas.2
  beyond hsize hlt := by
    cases h.beyond hsize hlt with
    | sought chunk offset data => exact .sought chunk offset data
    | past chunk data last atEnd => exact .past chunk data last atEnd

/-! ## Runs -/

/-- **The step lemma**: a good step is lawful and keeps the invariant. -/
theorem Inv.step (h : Inv D f s) (hcs : L.chunkSize < 2 ^ 32) (e : Event) (hgood : Good f s e) :
    Lawful D f s e ∧ Inv D f (s.step D f e) := by
  obtain ⟨hchunk, hread⟩ := hgood
  cases e with
  | seek pos =>
    have hcall : s.call D f (.seek pos) = some ((s.updated f).at_ f pos) := by
      rw [call, update_of_hasChunk hchunk, Option.map_some, seek_eq hcs f _ pos.2]
    rw [Lawful, FileStream.step, hcall]
    exact ⟨⟨_, rfl, rfl⟩, inv_at hcs h.updated.bits pos.2⟩
  | read maxlen =>
    by_cases hempty : f.size = 0
    · refine h.nothing hchunk (.inr (asLimit_updated_empty h hempty)) ?_
      rw [contiguous_beyond (by omega), Nat.min_zero]
    have hsize : 0 < f.size := Nat.pos_of_ne_zero hempty
    rcases hread with rfl | ⟨hle, hlimit⟩ | ⟨hlt, hok⟩
    · exact h.nothing hchunk (.inl rfl) (Nat.zero_min _)
    · exact h.read_inside hchunk hcs hsize hle hlimit
    · exact h.read_beyond hchunk hcs hsize hlt hok
  | chunkDownloaded chunk =>
    obtain ⟨bits, n, heq, -⟩ := updated_eq f { s with chunks := Function.update s.chunks chunk true }
    have hcall : s.call D f (.chunkDownloaded chunk) =
        some (FileStream.updated f { s with chunks := Function.update s.chunks chunk true }) :=
      update_of_hasChunk hchunk _
    have hinv := (h.chunkDownloaded chunk).updated
    rw [Lawful, FileStream.step, hcall]
    exact ⟨⟨_, rfl, by rw [heq]⟩, hinv⟩
  | reset =>
    obtain ⟨s', hcall, hpos, hinv⟩ := h.reset hchunk hcs
    rw [Lawful, FileStream.step, show s.call D f .reset = some s' from hcall]
    exact ⟨⟨s', rfl, hpos⟩, hinv⟩

/-- Of a lawful event, its call returns. -/
theorem call_isSome_of_lawful {e : Event} (hlaw : Lawful D f s e) : (s.call D f e).isSome := by
  cases e with
  | seek pos =>
    obtain ⟨s', hcall, -⟩ := hlaw
    rw [hcall]
    rfl
  | read maxlen =>
    obtain ⟨s', hread, -⟩ := hlaw
    rw [call, hread]
    rfl
  | chunkDownloaded chunk =>
    obtain ⟨s', hcall, -⟩ := hlaw
    rw [hcall]
    rfl
  | reset =>
    obtain ⟨s', hcall, -⟩ := hlaw
    rw [hcall]
    rfl

/-- A lawful step is good, when the torrent has less than `2 ^ 63` bytes. -/
theorem Inv.good_of_lawful (h : Inv D f s) (hcs : L.chunkSize < 2 ^ 32) (htotal : L.total < 2 ^ 63)
    (e : Event) (hlaw : Lawful D f s e) : Good f s e := by
  have hchunk : f.HasChunk := by
    by_contra hnone
    have hsome := call_isSome_of_lawful hlaw
    rw [call_eq_none hnone] at hsome
    cases hsome
  refine ⟨hchunk, ?_⟩
  cases e with
  | seek pos => trivial
  | chunkDownloaded chunk => trivial
  | reset => trivial
  | read maxlen =>
    by_cases hmax : maxlen = 0
    · exact .inl hmax
    by_cases hle : s.currentByteOffset ≤ f.size
    · have hstop := f.stop_le_total
      have hcont := contiguous_le f s.chunks s.currentByteOffset
      have hsum : f.stop = f.start + f.size := rfl
      exact .inr (.inl ⟨hle, by omega⟩)
    · refine .inr (.inr ⟨not_le.mp hle, fun hover => ?_⟩)
      have hsize : 0 < f.size := by
        by_contra hzero
        exact not_overruns_of_empty (Nat.eq_zero_of_not_pos hzero) _ _ hover
      exact h.read_overruns hchunk hcs hsize (not_le.mp hle) hover htotal hmax hlaw

/-- **The reads of a stream.**  For every torrent and file, every set of chunks that is there at
first, and every run of seeks, reads and downloaded chunks: when every event is good, every event
returns, and every read returns the bytes of the file that are there without a gap from the position
on; and when the torrent has less than `2 ^ 63` bytes, only then. -/
theorem reads_lawful (hcs : L.chunkSize < 2 ^ 32) (D : StreamDisk L) (f : Streamed L)
    (chunks : ℕ → Bool) (events : List Event) :
    (AllSteps (step D f) (Good f) (FileStream.new f chunks) events →
        AllSteps (step D f) (Lawful D f) (FileStream.new f chunks) events) ∧
      (L.total < 2 ^ 63 → AllSteps (step D f) (Lawful D f) (FileStream.new f chunks) events →
        AllSteps (step D f) (Good f) (FileStream.new f chunks) events) := by
  refine ⟨allSteps_of_invariant (fun s e h hgood => (h.step hcs e hgood).2)
    (fun s e h hgood => (h.step hcs e hgood).1) events _ (inv_new hcs f chunks), fun htotal => ?_⟩
  have hiff : ∀ s e, Inv D f s → (Lawful D f s e ↔ Good f s e) := fun s e h =>
    ⟨h.good_of_lawful hcs htotal e, fun hgood => (h.step hcs e hgood).1⟩
  exact (allSteps_iff_of_invariant (fun s e h hgood => (h.step hcs e hgood).2) hiff events _
    (inv_new hcs f chunks)).mp

/-- Two files that share the second of four chunks. -/
def sharedSecond : Layout where
  chunkSize := 4
  sizes := [6, 10]
  chunkSize_pos := Layout.small_pos
  chunkSize_lt := Layout.small_lt
  total_lt := by decide
  count_lt := by decide
  chunks_lt := by decide

/-- The first of them. -/
def firstShared : Streamed sharedSecond := .file (TorrentFile.new 0 0 6 4) (by decide)

/-- Every byte is its offset in the torrent. -/
def offsetDisk : StreamDisk sharedSecond where
  data := [0, 1, 2, 3, 4, 5, 6, 7, 8, 9, 10, 11, 12, 13, 14, 15]
  length_data := by decide
  getPiece := fun _ c => some
    (([0, 1, 2, 3, 4, 5, 6, 7, 8, 9, 10, 11, 12, 13, 14, 15].drop (c * 4)).take (sharedSecond.sizeOfChunk c))
  getPiece_downloaded := fun _ _ _ _ => rfl

/-- A read in the file goes to its end. -/
theorem reads_lawful_toEnd :
    AllSteps (step offsetDisk firstShared) (Lawful offsetDisk firstShared)
        (FileStream.new firstShared fun _ => true) [.seek 2, .read 10] ∧
      (((FileStream.new firstShared fun _ => true).step offsetDisk firstShared (.seek 2)).readData
        offsetDisk firstShared 10).map Prod.fst = some [some 2, some 3, some 4, some 5] := by
  refine ⟨(reads_lawful (by decide) offsetDisk firstShared _ _).1 ⟨⟨trivial, trivial⟩,
    ⟨trivial, .inr (.inl ⟨by decide, ?_⟩)⟩, trivial⟩, by decide +kernel⟩
  have hle := contiguous_le firstShared
    (((FileStream.new firstShared fun _ => true).step offsetDisk firstShared (.seek 2)).chunks) 2
  exact hle.trans_lt (by decide)

/-- **A read past the end of a file** in a chunk that it shares returns a byte of the next file. -/
theorem nextFile_read :
    (((FileStream.new firstShared fun _ => true).step offsetDisk firstShared (.seek 7)).readData
        offsetDisk firstShared 1).map Prod.fst = some [some 7] ∧
      ¬ AllSteps (step offsetDisk firstShared) (Lawful offsetDisk firstShared)
        (FileStream.new firstShared fun _ => true) [.seek 7, .read 1] := by
  have hread : (((FileStream.new firstShared fun _ => true).step offsetDisk firstShared
      (.seek 7)).readData offsetDisk firstShared 1).map Prod.fst = some [some 7] := by decide +kernel
  refine ⟨hread, ?_⟩
  rintro ⟨-, ⟨s', hlaw, -⟩, -⟩
  rw [hlaw, Option.map_some] at hread
  dsimp only at hread
  exact absurd hread (by decide +kernel)

end FileStream
end KTorrent
