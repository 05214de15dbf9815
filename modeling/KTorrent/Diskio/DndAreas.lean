import KTorrent.Diskio.MultiFileCache
import KTorrent.Torrent.PieceVisits

/-!
# The areas of a DND file

When a file is no longer downloaded its data file is deleted, and a DND file
keeps what the chunks shared with other files need of it.  Saving and recreating
choose between the two areas of the DND file by asking whether the first chunk of
the file is its last one; loading and storing a piece by asking whether the file
is the first one of the chunk.

* `dndPos`, `Mirrors` — where the bytes of the shared chunks are kept.
* `mirrors_exclude` — excluding the file fills the areas.
* `SharedVisit.areaPos` — loading and storing go to the right area, unless the
  file starts with a chunk that it does not fill.
* `Mirrors.read`, `Mirrors.write`, `Mirrors.recreate` — so a piece is read and
  stored there, and recreating the file reads the bytes back.
-/

namespace KTorrent

open ByteFile

/-- The file is downloaded: it has no DND file. -/
structure FileSlot.Downloaded (slot : FileSlot) : Prop where
  fd : slot.fd = true
  dfd : slot.dfd = false
  dnd : slot.dnd = none
  oldDnd : slot.oldDnd = none

/-- The bytes on disk for a file, by their position in the torrent. -/
def storedBytes (tf : TorrentFile) (slot : FileSlot) (x : ℕ) : Option UInt8 :=
  if tf.cacheOffset ≤ x then (slot.data.getD [])[x - tf.cacheOffset]? else none

/-! ## Where the bytes are kept -/

/-- Where a byte of a shared chunk lies in the DND file. -/
def dndPos (L : Layout) (tf : TorrentFile) (p : ℕ) : ℕ :=
  if tf.firstChunk ≠ tf.lastChunk ∧ tf.lastChunk * L.chunkSize ≤ tf.cacheOffset + p then
    DndFile.hdrSize + (DndFile.new tf L.chunkSize).firstSize +
      (tf.cacheOffset + p - tf.lastChunk * L.chunkSize)
  else DndFile.hdrSize + p

/-- The byte at `p` lies in a chunk that other files have bytes in, too. -/
def SharedByte (L : Layout) (tf : TorrentFile) (p : ℕ) : Prop :=
  p < tf.size ∧ ∃ g ∈ L.overlapping ((tf.cacheOffset + p) / L.chunkSize), g ≠ tf

/-- The DND file has the bytes of the shared chunks. -/
def Mirrors (L : Layout) (tf : TorrentFile) (stored : ℕ → Option UInt8) (dnd : List UInt8) : Prop :=
  ∀ p, SharedByte L tf p → ∀ b, stored (tf.cacheOffset + p) = some b →
    dnd[dndPos L tf p]? = some b

section Geometry

variable {L : DataLayout} {tf : TorrentFile}

/-- The numbers of a file that the cache works with, none of them truncated. -/
structure Sizes (L : Layout) (tf : TorrentFile) : Prop where
  firstSize : (DndFile.new tf L.chunkSize).firstSize = (tf.firstChunk + 1) * L.chunkSize - tf.cacheOffset
  firstBytes : firstChunkBytes L tf = L.chunkStop tf.firstChunk - tf.cacheOffset
  first_le : tf.firstChunk * L.chunkSize ≤ tf.cacheOffset
  lt_first : tf.cacheOffset < (tf.firstChunk + 1) * L.chunkSize
  lastBytes : u32 tf.lastChunkSize = tf.stop - tf.lastChunk * L.chunkSize
  last_lt : tf.lastChunk * L.chunkSize < tf.stop
  stop_le : tf.stop ≤ (tf.lastChunk + 1) * L.chunkSize

theorem sizes_of_mem (hcs : L.chunkSize < 2 ^ 32) (htf : tf ∈ L.files) : Sizes L.toLayout tf := by
  have hex := L.exact_of_mem htf
  have hpos := L.size_pos htf
  have hcs0 := L.chunkSize_pos
  have hdiv := Nat.div_add_mod' tf.cacheOffset L.chunkSize
  have hmod := Nat.mod_lt tf.cacheOffset hcs0
  have hsucc : (tf.firstChunk + 1) * L.chunkSize = tf.firstChunk * L.chunkSize + L.chunkSize :=
    Nat.succ_mul ..
  rw [← hex.firstChunk, ← hex.firstChunkOff] at hdiv
  rw [← hex.firstChunkOff] at hmod
  have hlast : tf.lastChunk = (tf.stop - 1) / L.chunkSize := by rw [hex.lastChunk, if_pos hpos]
  have hldiv := Nat.div_add_mod' (tf.stop - 1) L.chunkSize
  have hlmod := Nat.mod_lt (tf.stop - 1) hcs0
  have hlsucc : (tf.lastChunk + 1) * L.chunkSize = tf.lastChunk * L.chunkSize + L.chunkSize :=
    Nat.succ_mul ..
  rw [← hlast] at hldiv
  have hstop : 0 < tf.stop := by simp only [TorrentFile.stop]; omega
  have hfc : tf.firstChunk < L.numChunks :=
    hex.first_le_last.trans_lt (L.lastChunk_lt htf hpos)
  have hbound := (L.chunk_bounds hfc).2
  have hsz := L.sizeOfChunk_le tf.firstChunk
  have htotal := L.stop_le_total htf
  have hroom : tf.cacheOffset < L.chunkStop tf.firstChunk := by
    simp only [Layout.chunkStop, TorrentFile.stop] at htotal ⊢
    omega
  refine ⟨?_, ?_, by omega, by omega, ?_, by omega, by omega⟩
  · simp only [DndFile.new]
    rw [u32_of_lt hcs, sub64_of_le hmod.le (by omega), u32_of_lt (by omega)]
    omega
  · simp only [firstChunkBytes, ← Layout.sizeOfChunk.eq_def]
    rw [u32_of_lt (n := L.sizeOfChunk tf.firstChunk) (by omega),
      sub64_of_le (by omega) (by omega), u32_of_lt (by omega)]
    omega
  · rw [hex.lastChunkSize, u32_of_lt (by omega)]

/-- The chunk of a byte of the file. -/
theorem chunk_of_byte (htf : tf ∈ L.files) {p : ℕ} (hp : p < tf.size) :
    (tf.cacheOffset + p) / L.chunkSize < L.numChunks ∧
      tf ∈ L.overlapping ((tf.cacheOffset + p) / L.chunkSize) ∧
      (tf.cacheOffset + p) / L.chunkSize * L.chunkSize ≤ tf.cacheOffset + p ∧
      tf.cacheOffset + p < L.chunkStop ((tf.cacheOffset + p) / L.chunkSize) := by
  have htotal := L.stop_le_total htf
  have hle := L.total_le
  have hmul := Nat.div_mul_le_self (tf.cacheOffset + p) L.chunkSize
  have hlt := Nat.lt_div_mul_add L.chunkSize_pos (a := tf.cacheOffset + p)
  have hsucc : ((tf.cacheOffset + p) / L.chunkSize + 1) * L.chunkSize =
    (tf.cacheOffset + p) / L.chunkSize * L.chunkSize + L.chunkSize := Nat.succ_mul ..
  simp only [TorrentFile.stop] at htotal
  have hstop : tf.cacheOffset + p < L.chunkStop ((tf.cacheOffset + p) / L.chunkSize) := by
    rw [Layout.chunkStop]
    omega
  refine ⟨?_, Layout.mem_overlapping.2 ⟨htf, by omega, by omega, ?_⟩, hmul, hstop⟩
  · rw [Nat.div_lt_iff_lt_mul L.chunkSize_pos]
    omega
  · simp only [TorrentFile.stop]
    omega

/-- A shared byte is in the area of the first chunk or in that of the last one. -/
theorem SharedByte.cases (hns : ¬ StartsChunk L.toLayout tf) (htf : tf ∈ L.files) {p : ℕ} (h : SharedByte L.toLayout tf p) :
    (tf.firstChunk * L.chunkSize < tf.cacheOffset ∧
      tf.cacheOffset + p < L.chunkStop tf.firstChunk ∧
      (tf.firstChunk ≠ tf.lastChunk → tf.cacheOffset + p < tf.lastChunk * L.chunkSize) ∧
      dndPos L.toLayout tf p = DndFile.hdrSize + p) ∨
    (tf.firstChunk ≠ tf.lastChunk ∧ tf.cacheOffset ≤ tf.lastChunk * L.chunkSize ∧
      tf.lastChunk * L.chunkSize ≤ tf.cacheOffset + p ∧
      dndPos L.toLayout tf p = DndFile.hdrSize + (DndFile.new tf L.chunkSize).firstSize +
        (tf.cacheOffset + p - tf.lastChunk * L.chunkSize)) := by
  obtain ⟨hp, g, hg, hne⟩ := h
  obtain ⟨hc, hmem, hge, hlt⟩ := chunk_of_byte htf hp
  rcases shared_cases hns hc hmem hg hne with ⟨hoff, hcf⟩ | ⟨hoff, hcl, hfl, -⟩
  · rw [hcf] at hoff hlt
    have hstop := L.chunkStop_le tf.firstChunk
    have hfl : tf.firstChunk ≠ tf.lastChunk →
        tf.cacheOffset + p < tf.lastChunk * L.chunkSize := by
      intro hne
      have hle : (tf.firstChunk + 1) * L.chunkSize ≤ tf.lastChunk * L.chunkSize :=
        Nat.mul_le_mul_right _
          (Nat.lt_of_le_of_ne (L.exact_of_mem htf).first_le_last hne)
      omega
    refine .inl ⟨hoff, hlt, hfl, if_neg ?_⟩
    rintro ⟨hne, hle⟩
    exact absurd (hfl hne) (by omega)
  · rw [hcl] at hoff hge
    exact .inr ⟨hfl, hoff, hge, if_pos ⟨hfl, hge⟩⟩

end Geometry

/-! ## Saving the file -/

/-- Reading into a buffer and writing the buffer out copies what could be read. -/
theorem getElem?_copy {data buf : List UInt8} {off n q : ℕ} {b : UInt8} (hq : q < n)
    (h : data[off + q]? = some b) :
    (readAt (writeAt 0 buf 0 (readAt data off n)) 0 n)[q]? = some b := by
  have hlt : off + q < data.length := (List.getElem?_eq_some_iff.1 h).1
  have hlen := length_readAt data off n
  rw [getElem?_readAt, if_pos hq, Nat.zero_add, getElem?_writeAt_inside (Nat.zero_le q) (by omega),
    Nat.sub_zero, getElem?_readAt, if_pos hq, h]

/-- A byte of a buffer written at `pos`. -/
theorem getElem?_writeAt_add {f buf : List UInt8} {pos q : ℕ} {b : UInt8} (h : buf[q]? = some b) :
    (writeAt 0 f pos buf)[pos + q]? = some b := by
  have hlt : q < buf.length := (List.getElem?_eq_some_iff.1 h).1
  rw [getElem?_writeAt_inside (by omega) (by omega), Nat.add_sub_cancel_left, h]

section Save

variable {L : DataLayout} {tf : TorrentFile}

/-- Saving the first and the last chunk keeps the bytes of the file. -/
theorem mirrors_saveFirstAndLastChunk (hns : ¬ StartsChunk L.toLayout tf) (htf : tf ∈ L.files)
    (sz : Sizes L.toLayout tf) (mem : ℕ → UInt8) (data : List UInt8) {slot : FileSlot}
    (hdata : slot.data = some data) :
    Mirrors L.toLayout tf (storedBytes tf slot) (saveFirstAndLastChunk L.toLayout tf mem data none) := by
  intro p hp b hb
  have hex := L.exact_of_mem htf
  have hbyte : data[p]? = some b := by
    simpa [storedBytes, hdata] using hb
  have hsize := hp.1
  have hfs := sz.firstSize
  have hstop := L.chunkStop_le tf.firstChunk
  simp only [saveFirstAndLastChunk, DndFile.writeFirstChunk, DndFile.writeLastChunk, Nat.add_zero,
    Option.getD_some]
  rcases hp.cases hns htf with ⟨hoff, hlt, hfl, hpos⟩ | ⟨hfl, hoff, hge, hpos⟩
  · -- the area of the first chunk
    have hq : p < firstChunkBytes L.toLayout tf := by rw [sz.firstBytes]; omega
    have hcopy : (readAt (writeAt 0 (uninit mem L.chunkSize) 0
        (readAt data 0 (firstChunkBytes L.toLayout tf))) 0
          (firstChunkBytes L.toLayout tf))[p]? = some b :=
      getElem?_copy hq (by rwa [Nat.zero_add])
    have hfirst : (writeAt 0 (Option.getD none (DndFile.new tf L.chunkSize).create) DndFile.hdrSize
        _)[DndFile.hdrSize + p]? = some b := getElem?_writeAt_add hcopy
    rw [hpos]
    by_cases hfl : tf.firstChunk ≠ tf.lastChunk
    · rw [if_pos hfl, getElem?_writeAt_outside _ (.inl (by omega))]
      · exact hfirst
      · exact (List.getElem?_eq_some_iff.1 hfirst).1
    · rw [if_neg hfl]
      exact hfirst
  · -- the area of the last chunk
    have hfo := hex.fileOffset_eq L.chunkSize_pos hoff sz.last_lt.le hex.chunks_lt
    have hlast := sz.last_lt
    rw [if_pos hfl, hpos]
    refine getElem?_writeAt_add (getElem?_copy ?_ ?_)
    · rw [sz.lastBytes]
      simp only [TorrentFile.stop]
      omega
    · rw [hfo, ← hbyte]
      congr 1
      omega

theorem hasHeader_saveFirstAndLastChunk (mem : ℕ → UInt8) (data : List UInt8) :
    DndFile.HasHeader (saveFirstAndLastChunk L.toLayout tf mem data none) := by
  have hfirst := (DndFile.hasHeader_create (DndFile.new tf L.chunkSize)).writeAt
    (le_refl DndFile.hdrSize) (readAt (writeAt 0 (uninit mem L.chunkSize) 0
      (readAt data 0 (firstChunkBytes L.toLayout tf))) 0 (firstChunkBytes L.toLayout tf))
  simp only [saveFirstAndLastChunk, DndFile.writeFirstChunk, DndFile.writeLastChunk, Nat.add_zero,
    Option.getD_some, Option.getD_none]
  by_cases hfl : tf.firstChunk ≠ tf.lastChunk
  · rw [if_pos hfl]
    exact hfirst.writeAt (Nat.le_add_right _ _) _
  · rw [if_neg hfl]
    exact hfirst

/-- The slot of an excluded file, with the DND file it has. -/
structure FileSlot.Excluded (slot : FileSlot) (dnd : List UInt8) : Prop where
  fd : slot.fd = false
  dfd : slot.dfd = true
  dnd : slot.dnd = some dnd
  data : slot.data = none

/-- **Excluding a file** leaves a DND file with the bytes of the shared chunks. -/
theorem mirrors_exclude (hns : ¬ StartsChunk L.toLayout tf) (htf : tf ∈ L.files)
    (sz : Sizes L.toLayout tf) (mem : ℕ → UInt8) {slot : FileSlot} (h : slot.Downloaded) :
    ∃ dnd, (slot.exclude L.toLayout tf mem).Excluded dnd ∧
      Mirrors L.toLayout tf (storedBytes tf slot) dnd := by
  rw [FileSlot.exclude, h.dnd, h.oldDnd]
  simp only [Option.isSome_none, Bool.false_eq_true, if_false]
  cases hdata : slot.data with
  | none =>
    refine ⟨_, ⟨rfl, rfl, rfl, rfl⟩, ?_⟩
    intro p _ b hb
    simp [storedBytes, hdata] at hb
  | some data =>
    refine ⟨_, ⟨rfl, rfl, rfl, rfl⟩, ?_⟩
    rw [(hasHeader_saveFirstAndLastChunk mem data).checkIntegrity]
    exact mirrors_saveFirstAndLastChunk hns htf sz mem data hdata

end Save

/-! ## Reading and writing pieces -/

/-- Where a visit to an excluded file reads or writes in its DND file. -/
def PieceVisit.areaPos (cs c : ℕ) (v : PieceVisit) : ℕ :=
  if v.part.pos = 0 then
    DndFile.hdrSize + (DndFile.new v.part.file cs).firstSize +
      u32 (sub64 v.off (v.part.fileOff c cs))
  else DndFile.hdrSize + u32 v.off

theorem FileSlot.Excluded.read {slot : FileSlot} {dnd : List UInt8} (h : slot.Excluded dnd)
    (cs c : ℕ) (v : PieceVisit) :
    slot.read cs c v = (.ok (readAt dnd (v.areaPos cs c) v.len), slot) := by
  obtain ⟨data, dnd', oldDnd, fd, dfd⟩ := slot
  obtain ⟨rfl, rfl, rfl, rfl⟩ := h
  by_cases hpos : v.part.pos = 0
  · simp [FileSlot.read, DndFile.readLastChunk, DndFile.readArea, PieceVisit.areaPos, hpos]
  · simp [FileSlot.read, DndFile.readFirstChunk, DndFile.readArea, PieceVisit.areaPos, hpos]

theorem FileSlot.Excluded.write {slot : FileSlot} {dnd : List UInt8} (h : slot.Excluded dnd)
    (cs c : ℕ) (v : PieceVisit) (piece : List UInt8) :
    (slot.write cs c v piece).2.Excluded (writeAt 0 dnd (v.areaPos cs c) piece) := by
  obtain ⟨data, dnd', oldDnd, fd, dfd⟩ := slot
  obtain ⟨rfl, rfl, rfl, rfl⟩ := h
  refine ⟨rfl, rfl, ?_, rfl⟩
  by_cases hpos : v.part.pos = 0
  · simp [FileSlot.write, DndFile.writeLastChunk, PieceVisit.areaPos, hpos]
  · simp [FileSlot.write, DndFile.writeFirstChunk, PieceVisit.areaPos, hpos]

section Visits

variable {L : DataLayout} {tf : TorrentFile} {c off len : ℕ} {v : PieceVisit}

/-- A visit of a piece to the excluded file, in a chunk it shares. -/
structure SharedVisit (L : Layout) (tf : TorrentFile) (c off len : ℕ) (v : PieceVisit) : Prop where
  chunk_lt : c < L.numChunks
  in_chunk : off + len ≤ L.sizeOfChunk c
  file : v.part.file = tf
  mem : v.part ∈ L.partsOf c
  exact_ : VisitExact (c * L.chunkSize + off) (c * L.chunkSize + off + len) v
  other : ∃ g ∈ L.overlapping c, g ≠ tf

/-- The visit goes to the area in which the bytes are kept. -/
theorem SharedVisit.areaPos (hns : ¬ StartsChunk L.toLayout tf) (hcs : L.chunkSize < 2 ^ 32)
    (htf : tf ∈ L.files) (h : SharedVisit L.toLayout tf c off len v) :
    (c * L.chunkSize < tf.cacheOffset ∧ c = tf.firstChunk ∧
      v.areaPos L.chunkSize c = DndFile.hdrSize + v.off) ∨
    (tf.cacheOffset ≤ c * L.chunkSize ∧ c = tf.lastChunk ∧ tf.firstChunk ≠ tf.lastChunk ∧
      v.off = c * L.chunkSize + off - tf.cacheOffset ∧
      v.areaPos L.chunkSize c =
        DndFile.hdrSize + (DndFile.new tf L.chunkSize).firstSize + off) := by
  obtain ⟨hc, hin, rfl, hmem, hexact, g, hg, hne⟩ := h
  have hbound := (L.chunk_bounds hc).2
  have hsz := L.sizeOfChunk_le c
  have hpart := (overlapping_parts L.toLayout hc le_rfl (by omega : L.sizeOfChunk c < 2 ^ 32)).2 _ hmem
  have hzero := L.toLayout.pos_eq_zero_iff hc hmem
  have hover := L.toLayout.file_mem_of_mem_partsOf hmem
  have hle := hexact.le_b
  have hsize := hexact.le_size
  have hstart := hexact.start_eq
  have hstop := (L.exact_of_mem htf).stop_lt
  rcases shared_cases hns hc hover hg hne with ⟨hlt, hcf⟩ | ⟨hge, hcl, hfl, -⟩
  · refine .inl ⟨hlt, hcf, ?_⟩
    have hpos : ¬ v.part.pos = 0 := fun h0 => Nat.not_le_of_lt hlt (hzero.1 h0)
    clear hstart
    rw [PieceVisit.areaPos, if_neg hpos, u32_of_lt (by omega)]
  · have hfo := hpart.fileOff
    rw [max_eq_left hge] at hfo
    rw [max_eq_left (hge.trans (Nat.le_add_right ..))] at hstart
    simp only [TorrentFile.stop] at hstop
    refine .inr ⟨hge, hcl, hfl, by omega, ?_⟩
    rw [PieceVisit.areaPos, if_pos (hzero.2 hge), sub64_of_le (by omega) (by omega),
      u32_of_lt (by omega)]
    omega

/-- A byte of a visit is shared, and its place in the DND file is that of the
visit. -/
theorem SharedVisit.dndPos_eq (hns : ¬ StartsChunk L.toLayout tf) (hcs : L.chunkSize < 2 ^ 32)
    (htf : tf ∈ L.files) (h : SharedVisit L.toLayout tf c off len v) {p : ℕ} (hp : v.off ≤ p)
    (hlt : p < v.off + v.len) :
    SharedByte L.toLayout tf p ∧ dndPos L.toLayout tf p = v.areaPos L.chunkSize c + (p - v.off) := by
  have harea := h.areaPos hns hcs htf
  obtain ⟨hc, hin, rfl, hmem, hexact, hother⟩ := h
  have hbound := (L.chunk_bounds hc).2
  have hstop := L.chunkStop_le c
  have hstart := hexact.ge
  have hle := hexact.le_b
  have hdiv : (v.part.file.cacheOffset + p) / L.chunkSize = c :=
    Nat.div_eq_of_lt_le (by omega) (by omega)
  have hsize : p < v.part.file.size := hlt.trans_le hexact.le_size
  have hshared : SharedByte L.toLayout v.part.file p := ⟨hsize, by rwa [hdiv]⟩
  refine ⟨hshared, ?_⟩
  have hge : c * L.chunkSize ≤ v.part.file.cacheOffset + p := by omega
  have hlt' : v.part.file.cacheOffset + p < (c + 1) * L.chunkSize := by omega
  rcases harea with ⟨hco, hcf, hpos⟩ | ⟨hco, hcl, hfl, hvo, hpos⟩
  · rw [hpos, dndPos, if_neg]
    · omega
    · rintro ⟨hfl, hle⟩
      have : (c + 1) * L.chunkSize ≤ v.part.file.lastChunk * L.chunkSize := by
        refine Nat.mul_le_mul_right _ ?_
        rw [hcf]
        exact Nat.lt_of_le_of_ne (L.exact_of_mem htf).first_le_last hfl
      omega
  · rw [hpos, dndPos, if_pos ⟨hfl, hcl ▸ hge⟩, ← hcl]
    omega

/-- A shared byte that is not visited lies elsewhere in the DND file. -/
theorem SharedVisit.dndPos_outside (hns : ¬ StartsChunk L.toLayout tf) (hcs : L.chunkSize < 2 ^ 32)
    (htf : tf ∈ L.files) (h : SharedVisit L.toLayout tf c off len v) {p : ℕ}
    (hp : SharedByte L.toLayout tf p) (hout : p < v.off ∨ v.off + v.len ≤ p) :
    dndPos L.toLayout tf p < v.areaPos L.chunkSize c ∨
      v.areaPos L.chunkSize c + v.len ≤ dndPos L.toLayout tf p := by
  have harea := h.areaPos hns hcs htf
  have sz := sizes_of_mem hcs htf
  have hfs := sz.firstSize
  have hlt := sz.lt_first
  obtain ⟨hc, hin, rfl, hmem, hexact, -⟩ := h
  have hbound := (L.chunk_bounds hc).2
  have hstop := L.chunkStop_le c
  have hfstop := L.chunkStop_le v.part.file.firstChunk
  have hle := hexact.le_b
  rcases harea with ⟨hco, rfl, hpos⟩ | ⟨hco, rfl, hfl, hvo, hpos⟩
  · rw [hpos]
    rcases hp.cases hns htf with ⟨-, -, -, hdp⟩ | ⟨-, -, -, hdp⟩
    · rw [hdp]
      omega
    · -- the visit ends in front of the area of the last chunk
      rw [hdp, hfs]
      omega
  · rw [hpos]
    rcases hp.cases hns htf with ⟨-, hlt', -, hdp⟩ | ⟨-, -, hge, hdp⟩
    · rw [hdp, hfs]
      omega
    · rw [hdp]
      omega

/-- A visit reads from the DND file what it read from the data file. -/
theorem Mirrors.read (hns : ¬ StartsChunk L.toLayout tf) (hcs : L.chunkSize < 2 ^ 32)
    (htf : tf ∈ L.files) {slot slot' : FileSlot} {dnd bytes : List UInt8}
    (hm : Mirrors L.toLayout tf (storedBytes tf slot) dnd) (h : SharedVisit L.toLayout tf c off len v)
    (hfd : slot.fd = true) (hread : slot.read L.chunkSize c v = (.ok bytes, slot')) :
    slot' = slot ∧ bytes = readAt dnd (v.areaPos L.chunkSize c) v.len := by
  simp only [FileSlot.read, hfd, if_true, Prod.mk.injEq] at hread
  obtain ⟨hok, rfl⟩ := hread
  obtain ⟨hsame, data, hdata, rfl, hlen⟩ := CacheFile.read_ok (Prod.ext hok rfl)
  refine ⟨by simp only [hsame, ← hfd], readAt_eq_of_forall fun i hi => ?_⟩
  obtain ⟨b, hb⟩ := exists_getElem?_of_length_readAt hlen hi
  obtain ⟨hshared, hpos⟩ := h.dndPos_eq hns hcs htf (Nat.le_add_right v.off i) (by omega)
  have hstored : storedBytes tf slot (tf.cacheOffset + (v.off + i)) = some b := by
    simpa [storedBytes, hdata] using hb
  have := hm _ hshared b hstored
  rw [hpos, Nat.add_sub_cancel_left] at this
  rw [hb, this]

/-- The bytes last stored, after a further piece at position `a`. -/
def storePiece (a : ℕ) (data : List UInt8) (stored : ℕ → Option UInt8) (x : ℕ) : Option UInt8 :=
  if a ≤ x ∧ x < a + data.length then data[x - a]? else stored x

/-- A visit writes its bytes of the piece to the DND file. -/
theorem Mirrors.write (hns : ¬ StartsChunk L.toLayout tf) (hcs : L.chunkSize < 2 ^ 32)
    (htf : tf ∈ L.files) {stored : ℕ → Option UInt8} {dnd data : List UInt8}
    (hm : Mirrors L.toLayout tf stored dnd)
    (h : SharedVisit L.toLayout tf c off data.length v) :
    Mirrors L.toLayout tf (storePiece (c * L.chunkSize + off) data stored)
      (writeAt 0 dnd (v.areaPos L.chunkSize c) (readAt data v.pieceOff v.len)) := by
  intro p hp b hb
  have hexact := h.exact_
  have hfile := h.file
  have hle := hexact.le_b
  have hge := hexact.ge
  have hpo := hexact.pieceOff_eq
  have hmem := fun ha hb => hexact.mem_of_lt (p := p) ha hb (hfile ▸ hp.1)
  rw [hfile] at hle hge hpo hmem
  have hlen : (readAt data v.pieceOff v.len).length = v.len := by
    rw [length_readAt]
    omega
  apply getElem?_writeAt
  rw [hlen]
  rw [storePiece] at hb
  by_cases hin : v.off ≤ p ∧ p < v.off + v.len
  · -- a byte of the visit
    obtain ⟨-, hpos⟩ := h.dndPos_eq hns hcs htf hin.1 hin.2
    rw [if_pos (by omega)] at hb
    rw [if_pos (by omega), getElem?_readAt, if_pos (by omega), ← hb]
    congr 1
    omega
  · have hout := h.dndPos_outside hns hcs htf hp (by omega)
    rw [if_neg fun hpiece => hin (hmem hpiece.1 (by omega))] at hb
    rw [if_neg (by omega)]
    exact hm p hp b hb

/-- **Recreating the file** reads the bytes of the shared chunks back. -/
theorem Mirrors.recreate (hns : ¬ StartsChunk L.toLayout tf) (hcs : L.chunkSize < 2 ^ 32)
    (htf : tf ∈ L.files) {stored : ℕ → Option UInt8} {dnd : List UInt8}
    (hm : Mirrors L.toLayout tf stored dnd) {p : ℕ} (hp : SharedByte L.toLayout tf p) {b : UInt8}
    (hb : stored (tf.cacheOffset + p) = some b) :
    (recreateFile L.toLayout tf (some dnd))[p]? = some b := by
  have sz := sizes_of_mem hcs htf
  have hex := L.exact_of_mem htf
  have hkept := hm p hp b hb
  have hsize := hp.1
  have hstop : tf.stop = tf.cacheOffset + tf.size := rfl
  have hbytes := sz.firstBytes
  simp only [recreateFile, DndFile.readFirstChunk, DndFile.readLastChunk, DndFile.readArea,
    Nat.add_zero]
  set toRead := (if firstChunkBytes L.toLayout tf > tf.size then u32 tf.size
    else firstChunkBytes L.toLayout tf) with htoRead
  rcases hp.cases hns htf with ⟨hoff, hlt, hfl, hpos⟩ | ⟨hfl, hoff, hge, hpos⟩
  · -- the file is written from the area of the first chunk
    have hlt' : p < toRead := by
      have hroom := L.chunkStop_le tf.firstChunk
      have hsucc : (tf.firstChunk + 1) * L.chunkSize = tf.firstChunk * L.chunkSize + L.chunkSize :=
        Nat.succ_mul ..
      rw [htoRead]
      split
      · rw [u32_of_lt (by omega)]
        exact hsize
      · omega
    have hfirst : (writeAt 0 [] 0 (readAt dnd DndFile.hdrSize toRead))[p]? = some b := by
      have hread : (readAt dnd DndFile.hdrSize toRead)[p]? = some b := by
        rw [getElem?_readAt, if_pos hlt', ← hpos, hkept]
      rw [← Nat.zero_add p]
      exact getElem?_writeAt_add hread
    by_cases hne : tf.firstChunk ≠ tf.lastChunk
    · have hbefore := hfl hne
      rw [if_pos hne, getElem?_writeAt_outside (List.getElem?_eq_some_iff.1 hfirst).1 (.inl ?_)]
      · exact hfirst
      · rw [hex.fileOffset_eq L.chunkSize_pos (by omega) sz.last_lt.le hex.chunks_lt]
        omega
    · rw [if_neg hne]
      exact hfirst
  · have hlast := sz.last_lt
    have hplace : p = tf.fileOffset tf.lastChunk L.chunkSize +
        (tf.cacheOffset + p - tf.lastChunk * L.chunkSize) := by
      rw [hex.fileOffset_eq L.chunkSize_pos hoff sz.last_lt.le hex.chunks_lt]
      omega
    rw [if_pos hfl]
    conv_lhs => rw [hplace]
    apply getElem?_writeAt_add
    rw [getElem?_readAt, if_pos (by rw [sz.lastBytes]; omega), ← hpos, hkept]

end Visits

end KTorrent
