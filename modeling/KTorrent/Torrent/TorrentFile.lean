import KTorrent.Util.Constants

/-!
# Files of a torrent

The model of `torrent/torrentfile.cpp`: where a file lies in the sequence of
chunks.  A `Layout` is what a loaded torrent provides to the rest of the
program: a chunk size and a list of file sizes whose sum a `Uint64` can hold and
whose chunks a `Uint32` can count.

* `TorrentFile.new`, `fileOffset` — as the source computes them, in machine
  integers.
* `Exact` — the four fields of a file describe its byte range.
* `Layout.exact_of_mem`, `Layout.chained` — in a layout every file is exact, and
  the files lie one behind the other.
* `Exact.overlaps_iff` — a file overlaps a chunk exactly when the chunk lies
  between its first and its last chunk.
-/

namespace KTorrent

/-- The place of a file in the torrent. -/
structure TorrentFile where
  /-- Position in the list of files. -/
  index : ℕ
  /-- Size of the file in bytes. -/
  size : ℕ
  /-- Number of bytes of the torrent in front of the file. -/
  cacheOffset : ℕ
  /-- First chunk the file has a byte in. -/
  firstChunk : ℕ
  /-- Where the file starts in that chunk. -/
  firstChunkOff : ℕ
  /-- Last chunk the file has a byte in. -/
  lastChunk : ℕ
  /-- Where the file ends in that chunk. -/
  lastChunkSize : ℕ
  deriving DecidableEq, Repr

namespace TorrentFile

/-- The constructor `TorrentFile(tor, index, path, off, size, chunk_size)`. -/
def new (index off size chunkSize : ℕ) : TorrentFile :=
  let firstChunk := u32 (off / chunkSize)
  let lastChunk := if size > 0 then u32 (sub64 (u64 (off + size)) 1 / chunkSize) else firstChunk
  { index := index
    size := size
    cacheOffset := off
    firstChunk := firstChunk
    firstChunkOff := off % chunkSize
    lastChunk := lastChunk
    lastChunkSize := sub64 (u64 (off + size)) (u64 (lastChunk * chunkSize)) }

/-- The end of the file in the torrent. -/
def stop (f : TorrentFile) : ℕ := f.cacheOffset + f.size

/-- `TorrentFile::fileOffset`: where chunk `cindex` starts in the file. -/
def fileOffset (f : TorrentFile) (cindex chunkSize : ℕ) : ℕ :=
  if f.firstChunkOff = 0 then u64 (sub32 cindex f.firstChunk * chunkSize)
  else
    let off := if sub32 cindex f.firstChunk > 0 then
      u64 (sub32 (sub32 cindex f.firstChunk) 1 * chunkSize) else 0
    if cindex > 0 then u64 (off + sub64 chunkSize f.firstChunkOff) else off

/-- The chunk lies between the first and the last chunk of a file that has data. -/
def inChunk (c : ℕ) (f : TorrentFile) : Bool :=
  decide (f.firstChunk ≤ c) && decide (c ≤ f.lastChunk) && decide (f.size ≠ 0)

/-- The fields of a file describe its byte range. -/
structure Exact (cs : ℕ) (f : TorrentFile) : Prop where
  stop_lt : f.stop < 2 ^ 64
  firstChunk : f.firstChunk = f.cacheOffset / cs
  firstChunkOff : f.firstChunkOff = f.cacheOffset % cs
  lastChunk : f.lastChunk = if f.size > 0 then (f.stop - 1) / cs else f.cacheOffset / cs
  lastChunkSize : f.lastChunkSize = f.stop - f.lastChunk * cs
  chunks_lt : f.lastChunk < 2 ^ 32

theorem exact_new {cs : ℕ} (index off size : ℕ) (hstop : off + size < 2 ^ 64)
    (hchunks : (off + size) / cs < 2 ^ 32) : Exact cs (new index off size cs) := by
  have hfirst : off / cs < 2 ^ 32 := (Nat.div_le_div_right (by omega)).trans_lt hchunks
  have hlast : (off + size - 1) / cs < 2 ^ 32 :=
    (Nat.div_le_div_right (by omega)).trans_lt hchunks
  have hlc : (new index off size cs).lastChunk =
      if size > 0 then (off + size - 1) / cs else off / cs := by
    simp only [new]
    split
    · rw [u64_of_lt hstop, sub64_of_le (by omega) hstop, u32_of_lt hlast]
    · exact u32_of_lt hfirst
  have hmul : (new index off size cs).lastChunk * cs ≤ off + size := by
    rw [hlc]
    split
    · exact (Nat.div_mul_le_self _ _).trans (by omega)
    · exact (Nat.div_mul_le_self _ _).trans (by omega)
  refine ⟨hstop, u32_of_lt hfirst, rfl, hlc, ?_, ?_⟩
  · show sub64 (u64 (off + size)) (u64 ((new index off size cs).lastChunk * cs)) = _
    rw [u64_of_lt hstop, u64_of_lt (hmul.trans_lt hstop), sub64_of_le hmul hstop]
    rfl
  · rw [hlc]
    split
    · exact hlast
    · exact hfirst

variable {cs : ℕ} {f : TorrentFile}

/-- A file with data overlaps chunk `c` exactly when `c` lies between its first
and its last chunk. -/
theorem Exact.overlaps_iff (h : Exact cs f) (hcs : 0 < cs) (hsize : 0 < f.size) (c : ℕ) :
    (f.firstChunk ≤ c ∧ c ≤ f.lastChunk) ↔ f.cacheOffset < (c + 1) * cs ∧ c * cs < f.stop := by
  rw [h.firstChunk, h.lastChunk, if_pos hsize, Nat.le_div_iff_mul_le hcs]
  have hle : f.cacheOffset / cs ≤ c ↔ f.cacheOffset < (c + 1) * cs := by
    rw [← Nat.lt_succ_iff, Nat.div_lt_iff_lt_mul hcs]
  have hstop : 0 < f.stop := by simp only [stop]; omega
  rw [hle]
  omega

theorem Exact.inChunk_iff (h : Exact cs f) (hcs : 0 < cs) (c : ℕ) :
    f.inChunk c = true ↔ 0 < f.size ∧ f.cacheOffset < (c + 1) * cs ∧ c * cs < f.stop := by
  simp only [inChunk, Bool.and_eq_true, decide_eq_true_eq, Nat.pos_iff_ne_zero]
  constructor
  · rintro ⟨hc, hs⟩
    exact ⟨hs, (h.overlaps_iff hcs (Nat.pos_of_ne_zero hs) c).1 hc⟩
  · rintro ⟨hs, hc⟩
    exact ⟨(h.overlaps_iff hcs (Nat.pos_of_ne_zero hs) c).2 hc, hs⟩

/-- In a chunk that starts inside the file, `fileOffset` is where it starts. -/
theorem Exact.fileOffset_eq (h : Exact cs f) (hcs : 0 < cs) {c : ℕ} (hle : f.cacheOffset ≤ c * cs)
    (hlt : c * cs ≤ f.stop) (hc : c < 2 ^ 32) : f.fileOffset c cs = c * cs - f.cacheOffset := by
  have hstop := h.stop_lt
  have hoff : f.firstChunk * cs + f.firstChunkOff = f.cacheOffset := by
    rw [h.firstChunk, h.firstChunkOff, Nat.div_add_mod']
  have hmod : f.firstChunkOff < cs := by
    rw [h.firstChunkOff]
    exact Nat.mod_lt _ hcs
  have hfc : f.firstChunk ≤ c := by
    rw [h.firstChunk]
    exact Nat.div_le_of_le_mul (by rwa [Nat.mul_comm])
  have hdist : (c - f.firstChunk) * cs = c * cs - f.firstChunk * cs := Nat.sub_mul ..
  rw [fileOffset, sub32_of_le hfc hc]
  by_cases hzero : f.firstChunkOff = 0
  · rw [if_pos hzero, u64_of_lt (by omega)]
    omega
  · -- the chunk is not the first one of the file, so it comes one chunk later
    have hne : f.firstChunk ≠ c := by
      rintro rfl
      omega
    have hpos : c - f.firstChunk > 0 := by omega
    have hpred : (c - f.firstChunk - 1) * cs = (c - f.firstChunk) * cs - cs := by
      rw [Nat.sub_mul, Nat.one_mul]
    have hge : cs ≤ (c - f.firstChunk) * cs := Nat.le_mul_of_pos_left cs hpos
    have hone : 1 ≤ c - f.firstChunk := hpos
    rw [if_neg hzero, if_pos hpos, if_pos (by omega), sub32_of_le hone (by omega), hpred,
      sub64_of_le hmod.le (by omega), u64_of_lt (n := (c - f.firstChunk) * cs - cs) (by omega),
      u64_of_lt (by omega)]
    omega

end TorrentFile

/-! ## Layouts -/

/-- The list of files `loadFiles` builds: each file starts where the previous
ones end. -/
def mkFiles (cs : ℕ) : ℕ → ℕ → List ℕ → List TorrentFile
  | _, _, [] => []
  | idx, off, s :: ss => TorrentFile.new idx off s cs :: mkFiles cs (idx + 1) (u64 (off + s)) ss

/-- The files carry consecutive indices and lie one behind the other. -/
def Chained : ℕ → ℕ → List TorrentFile → Prop
  | _, _, [] => True
  | idx, off, f :: fs => f.index = idx ∧ f.cacheOffset = off ∧ Chained (idx + 1) (off + f.size) fs

/-- A chunk size and the sizes of the files, within the limits of the types the
program keeps them in. -/
structure Layout where
  /-- Size of a chunk. -/
  chunkSize : ℕ
  /-- Sizes of the files, in order. -/
  sizes : List ℕ
  chunkSize_pos : 0 < chunkSize
  chunkSize_lt : chunkSize < 2 ^ 64
  total_lt : sizes.sum < 2 ^ 64
  count_lt : sizes.length < 2 ^ 31
  chunks_lt : sizes.sum / chunkSize + 1 < 2 ^ 32

namespace Layout

/-- A small chunk size. -/
theorem small_pos : 0 < 4 := by decide

theorem small_lt : 4 < 2 ^ 64 := by decide

variable (L : Layout)

/-- `total_size`. -/
def total : ℕ := L.sizes.sum

/-- The files of the torrent. -/
def files : List TorrentFile := mkFiles L.chunkSize 0 0 L.sizes

/-- `num_chunks`, as `loadInfo` computes it. -/
def numChunks : ℕ := L.total / L.chunkSize + if L.total % L.chunkSize > 0 then 1 else 0

/-- `last_chunk_size`, as `loadInfo` computes it. -/
def lastChunkSize : ℕ :=
  if L.total % L.chunkSize > 0 then L.total % L.chunkSize else L.chunkSize

/-- The number of bytes of chunk `c`. -/
def sizeOfChunk (c : ℕ) : ℕ := if c = L.numChunks - 1 then L.lastChunkSize else L.chunkSize

/-- The end of chunk `c` in the torrent. -/
def chunkStop (c : ℕ) : ℕ := min ((c + 1) * L.chunkSize) L.total

theorem chained_mkFiles (cs : ℕ) : ∀ (ss : List ℕ) (idx off : ℕ), off + ss.sum < 2 ^ 64 →
    Chained idx off (mkFiles cs idx off ss) := by
  intro ss
  induction ss with
  | nil => intros; trivial
  | cons s ss ih =>
    intro idx off h
    simp only [List.sum_cons] at h
    rw [mkFiles, u64_of_lt (by omega)]
    exact ⟨rfl, rfl, ih (idx + 1) (off + s) (by omega)⟩

theorem exact_mkFiles {cs : ℕ} : ∀ (ss : List ℕ) (idx off : ℕ),
    off + ss.sum < 2 ^ 64 → (off + ss.sum) / cs < 2 ^ 32 →
    ∀ f ∈ mkFiles cs idx off ss, TorrentFile.Exact cs f ∧ f.stop ≤ off + ss.sum := by
  intro ss
  induction ss with
  | nil => intro idx off _ _ f hf; simp [mkFiles] at hf
  | cons s ss ih =>
    intro idx off h hchunks f hf
    simp only [List.sum_cons] at h hchunks
    rw [mkFiles, u64_of_lt (by omega)] at hf
    rcases List.mem_cons.1 hf with rfl | hf
    · refine ⟨TorrentFile.exact_new idx off s (by omega) ?_, ?_⟩
      · exact (Nat.div_le_div_right (by omega)).trans_lt hchunks
      · simp only [TorrentFile.stop, TorrentFile.new, List.sum_cons]
        omega
    · have := ih (idx + 1) (off + s) (by omega) (by rwa [Nat.add_assoc]) f hf
      rwa [List.sum_cons, ← Nat.add_assoc]

theorem sizes_mkFiles (cs : ℕ) (ss : List ℕ) (idx off : ℕ) :
    (mkFiles cs idx off ss).map TorrentFile.size = ss := by
  induction ss generalizing idx off with
  | nil => rfl
  | cons s ss ih => rw [mkFiles, List.map_cons, ih]; rfl

theorem length_files : L.files.length = L.sizes.length := by
  rw [← List.length_map (f := TorrentFile.size), files, sizes_mkFiles]

theorem chained : Chained 0 0 L.files :=
  chained_mkFiles L.chunkSize L.sizes 0 0 (by simpa using L.total_lt)

theorem exact_of_mem {f : TorrentFile} (hf : f ∈ L.files) : f.Exact L.chunkSize := by
  have hlt := L.chunks_lt
  refine (exact_mkFiles L.sizes 0 0 (by simpa using L.total_lt) ?_ f hf).1
  rw [Nat.zero_add]
  omega

theorem stop_le_total {f : TorrentFile} (hf : f ∈ L.files) : f.stop ≤ L.total := by
  have hlt := L.chunks_lt
  have := (exact_mkFiles L.sizes 0 0 (by simpa using L.total_lt) (by
    rw [Nat.zero_add]; omega) f hf).2
  simpa [total] using this

/-! ## Chunks -/

theorem numChunks_lt : L.numChunks < 2 ^ 32 := by
  have hlt := L.chunks_lt
  have hle : (if L.total % L.chunkSize > 0 then 1 else 0) ≤ 1 := by
    by_cases h : L.total % L.chunkSize > 0
    · rw [if_pos h]
    · rw [if_neg h]
      omega
  simp only [numChunks, total] at hle ⊢
  omega

/-- The chunks tile the torrent. -/
theorem chunk_bounds {c : ℕ} (hc : c < L.numChunks) :
    c * L.chunkSize < L.total ∧ c * L.chunkSize + L.sizeOfChunk c = L.chunkStop c := by
  have hpos := L.chunkSize_pos
  have hdiv := Nat.div_add_mod' L.total L.chunkSize
  have hmod := Nat.mod_lt L.total hpos
  have hsucc : (c + 1) * L.chunkSize = c * L.chunkSize + L.chunkSize := Nat.succ_mul ..
  simp only [sizeOfChunk, chunkStop, lastChunkSize, numChunks] at hc ⊢
  by_cases hrem : L.total % L.chunkSize > 0
  · simp only [if_pos hrem, Nat.add_sub_cancel] at hc ⊢
    have hle : c * L.chunkSize ≤ L.total / L.chunkSize * L.chunkSize :=
      Nat.mul_le_mul_right _ (by omega)
    by_cases hlast : c = L.total / L.chunkSize
    · rw [if_pos hlast]
      subst hlast
      omega
    · have hlt : (c + 1) * L.chunkSize ≤ L.total / L.chunkSize * L.chunkSize :=
        Nat.mul_le_mul_right _ (by omega)
      rw [if_neg hlast]
      omega
  · simp only [if_neg hrem, Nat.add_zero, ite_self] at hc ⊢
    have hlt : (c + 1) * L.chunkSize ≤ L.total / L.chunkSize * L.chunkSize :=
      Nat.mul_le_mul_right _ (by omega)
    omega

theorem sizeOfChunk_pos (c : ℕ) : 0 < L.sizeOfChunk c := by
  have hpos := L.chunkSize_pos
  simp only [sizeOfChunk, lastChunkSize]
  split
  · split <;> omega
  · omega

theorem sizeOfChunk_le (c : ℕ) : L.sizeOfChunk c ≤ L.chunkSize := by
  have hmod := Nat.mod_lt L.total L.chunkSize_pos
  simp only [sizeOfChunk, lastChunkSize]
  split
  · split <;> omega
  · omega

theorem total_le : L.total ≤ L.numChunks * L.chunkSize := by
  have hdiv := Nat.div_add_mod' L.total L.chunkSize
  have hmod := Nat.mod_lt L.total L.chunkSize_pos
  rw [numChunks]
  split
  · rw [Nat.add_mul]
    omega
  · rw [Nat.add_zero]
    omega

/-- The last chunk of a file with data is a chunk of the torrent. -/
theorem lastChunk_lt {f : TorrentFile} (hf : f ∈ L.files) (hsize : 0 < f.size) :
    f.lastChunk < L.numChunks := by
  have hstop := L.stop_le_total hf
  have htotal := L.total_le
  rw [(L.exact_of_mem hf).lastChunk, if_pos hsize, Nat.div_lt_iff_lt_mul L.chunkSize_pos]
  simp only [TorrentFile.stop] at hstop ⊢
  omega

theorem chunkStop_le (c : ℕ) : L.chunkStop c ≤ (c + 1) * L.chunkSize := min_le_left _ _

theorem chunkStop_le_total (c : ℕ) : L.chunkStop c ≤ L.total := min_le_right _ _

/-- In a chunk of the torrent the overlapping files are those with a byte in it. -/
theorem inChunk_iff {f : TorrentFile} (hf : f ∈ L.files) {c : ℕ} :
    f.inChunk c = true ↔
      0 < f.size ∧ f.cacheOffset < L.chunkStop c ∧ c * L.chunkSize < f.stop := by
  have htotal := L.stop_le_total hf
  rw [(L.exact_of_mem hf).inChunk_iff L.chunkSize_pos, chunkStop]
  simp only [TorrentFile.stop] at htotal ⊢
  omega

end Layout

/-- A layout in which every file has data. -/
structure DataLayout extends Layout where
  sizes_pos : ∀ s ∈ sizes, 0 < s

theorem DataLayout.size_pos (L : DataLayout) {f : TorrentFile} (hf : f ∈ L.files) : 0 < f.size := by
  refine L.sizes_pos f.size ?_
  rw [← Layout.sizes_mkFiles L.chunkSize L.sizes 0 0]
  exact List.mem_map_of_mem hf

end KTorrent
