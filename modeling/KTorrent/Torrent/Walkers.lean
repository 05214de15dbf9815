import KTorrent.Torrent.ChunkParts

/-!
# The walkers over the files of a chunk

Five loops of the program go over the files of a chunk: `loadPiece` and
`savePiece` of the multi-file cache, `loadChunk` of the data checker,
`calcHashMulti` of the torrent creator and `fillRangeList` of a web seed.  Each
is modelled here as the list of reads or writes it makes, in order.

* `walkers_agree_iff` — all of them cut the chunk along the file boundaries as
  `Extents.extents` does, exactly when the size of the chunk fits a `Uint32`, the
  type `Chunk` and most of the loops keep it in.
* `walkers_disagree` — a torrent whose chunks are `2 ^ 32` bytes long.
-/

namespace KTorrent

open Extents

/-- Where a part starts in its file: only the first file of a chunk may have
started in an earlier chunk. -/
def ChunkPart.fileOff (p : ChunkPart) (c cs : ℕ) : ℕ :=
  if p.pos = 0 then p.file.fileOffset c cs else 0

/-- `Chunk::getSize`: the constructor of `Chunk` takes a `Uint32`. -/
def Layout.getSize (L : Layout) (c : ℕ) : ℕ := u32 (L.sizeOfChunk c)

/-! ## The cache -/

/-- `MultiFileCache::calculateOffsetAndLength`. -/
def calculateOffsetAndLength (pieceOff pieceLen fileOff chunkOff chunkLen : ℕ) : ℕ × ℕ :=
  if chunkOff ≤ pieceOff ∧ u32 (pieceOff + pieceLen) ≤ u32 (chunkOff + chunkLen) then
    (u64 (fileOff + sub32 pieceOff chunkOff), pieceLen)
  else if chunkOff ≤ pieceOff ∧ pieceOff < u32 (chunkOff + chunkLen) then
    (u64 (fileOff + sub32 pieceOff chunkOff), sub32 chunkLen (sub32 pieceOff chunkOff))
  else if pieceOff < chunkOff ∧ chunkOff < u32 (pieceOff + pieceLen) ∧
      u32 (pieceOff + pieceLen) ≤ u32 (chunkOff + chunkLen) then
    (fileOff, sub32 pieceLen (sub32 chunkOff pieceOff))
  else if pieceOff ≤ chunkOff ∧ u32 (chunkOff + chunkLen) < u32 (pieceOff + pieceLen) then
    (fileOff, chunkLen)
  else (0, 0)

/-- A transfer between a piece and a file. -/
structure PieceVisit where
  /-- The part of the chunk the file holds. -/
  part : ChunkPart
  /-- Position in the file. -/
  off : ℕ
  /-- Number of bytes. -/
  len : ℕ
  /-- Position in the piece. -/
  pieceOff : ℕ
  deriving DecidableEq, Repr

/-- The place of a transfer in its file. -/
def PieceVisit.extent (v : PieceVisit) : Extent := ⟨v.part.file.index, v.off, v.len⟩

/-- The loop of `loadPiece` and `savePiece`: parts outside the piece are passed
over. -/
def pieceWalk (c cs off length : ℕ) : ℕ → List ChunkPart → List PieceVisit
  | _, [] => []
  | pieceOff, p :: ps =>
    if u32 (off + length) ≤ p.passed ∨ u32 (p.passed + p.len) ≤ off then
      pieceWalk c cs off length pieceOff ps
    else
      let (o, l) := calculateOffsetAndLength off length (p.fileOff c cs) p.passed p.len
      ⟨p, o, l, pieceOff⟩ :: pieceWalk c cs off length (u32 (pieceOff + l)) ps

/-- The writes of `MultiFileCache::savePiece`. -/
def savePieceVisits (L : Layout) (cache : PosCache L) (c off length : ℕ) : List PieceVisit :=
  let tflist := chunkFiles L cache c
  pieceWalk c L.chunkSize off length 0
    (chunkParts 32 32 tflist.length (L.getSize c) 0 0 tflist)

/-- The reads of `MultiFileCache::loadPiece`; a chunk in one file is read directly. -/
def loadPieceVisits (L : Layout) (cache : PosCache L) (c off length : ℕ) : List PieceVisit :=
  match chunkFiles L cache c with
  | [f] => [⟨⟨0, f, 0, L.getSize c⟩, u64 (f.fileOffset c L.chunkSize + off), length, 0⟩]
  | tflist =>
    pieceWalk c L.chunkSize off length 0
      (chunkParts 32 32 tflist.length (L.getSize c) 0 0 tflist)

/-! ## The data checker -/

/-- The size `MultiDataChecker::check` passes to `loadChunk`. -/
def checkSize (L : Layout) (c : ℕ) : ℕ :=
  let cs := u32 (if c = L.numChunks - 1 then L.lastChunkSize else L.chunkSize)
  if cs = 0 then u32 L.chunkSize else cs

/-- The parts `MultiDataChecker::loadChunk` reads.  A chunk in one file is read
directly. -/
def loadChunkParts (L : Layout) (cache : PosCache L) (c : ℕ) : List ChunkPart :=
  match chunkFiles L cache c with
  | [f] => [⟨0, f, 0, checkSize L c⟩]
  | tflist => chunkParts 32 64 tflist.length (checkSize L c) 0 0 tflist

/-- The place of a part in its file. -/
def ChunkPart.extent (p : ChunkPart) (c cs : ℕ) : Extent := ⟨p.file.index, p.fileOff c cs, p.len⟩

/-! ## The torrent creator -/

/-- The parts `TorrentCreator::calcHashMulti` reads.  Empty files are not left
out of its list, and files are known by their position: they are opened by path. -/
def calcHashMultiParts (L : Layout) (c : ℕ) : List ChunkPart :=
  let s := u32 (if c ≠ L.numChunks - 1 then L.chunkSize else L.lastChunkSize)
  let fileList := L.files.filter (·.inRange c)
  chunkParts 32 32 fileList.length s 0 0 fileList

/-! ## The web seed -/

/-- The ranges `WebSeed::fillRangeList` computes for a chunk. -/
def fillRangeParts (L : Layout) (cache : PosCache L) (c : ℕ) : List ChunkPart :=
  let tflist := chunkFiles L cache c
  chunkParts 64 64 tflist.length (L.getSize c) 0 0 tflist

/-- How a range is added to the queue: a range in the same file as the last one
extends it. -/
def addRange : List Extent → Extent → List Extent
  | [], r => [r]
  | [l], r => if l.file ≠ r.file then [l, r] else [{ l with len := u64 (l.len + r.len) }]
  | l :: l' :: ls, r => l :: addRange (l' :: ls) r

/-- `WebSeed::fillRangeList`. -/
def fillRangeList (L : Layout) (cache : PosCache L) (rangeQueue : List Extent) (c : ℕ) :
    List Extent :=
  ((fillRangeParts L cache c).map (·.extent c L.chunkSize)).foldl addRange rangeQueue

/-! ## What the walkers visit -/

/-- The visits that touch a byte. -/
def visited (es : List Extent) : List Extent := es.filter fun e => decide (0 < e.len)

theorem visited_cons_pos {e : Extent} (es : List Extent) (h : 0 < e.len) :
    visited (e :: es) = e :: visited es := by
  rw [visited, List.filter_cons_of_pos (by simpa using h), visited]

theorem visited_cons_zero {e : Extent} (es : List Extent) (h : ¬ 0 < e.len) :
    visited (e :: es) = visited es := by
  rw [visited, List.filter_cons_of_neg (by simpa using h), visited]

/-- All walkers cut chunk `c` as `extents` does.  The creator's chunk size is an
`int`. -/
structure WalkersAgree (L : Layout) (c : ℕ) : Prop where
  loadPiece : ∀ (cache : PosCache L) (off len : ℕ), off < 2 ^ 32 → len < 2 ^ 32 →
    off + len ≤ L.sizeOfChunk c →
    visited ((loadPieceVisits L cache c off len).map (·.extent)) =
      extents 0 0 L.sizes (c * L.chunkSize + off) (c * L.chunkSize + off + len)
  savePiece : ∀ (cache : PosCache L) (off len : ℕ), off < 2 ^ 32 → len < 2 ^ 32 →
    off + len ≤ L.sizeOfChunk c →
    visited ((savePieceVisits L cache c off len).map (·.extent)) =
      extents 0 0 L.sizes (c * L.chunkSize + off) (c * L.chunkSize + off + len)
  loadChunk : ∀ cache : PosCache L,
    visited ((loadChunkParts L cache c).map (·.extent c L.chunkSize)) =
      extents 0 0 L.sizes (c * L.chunkSize) (c * L.chunkSize + L.sizeOfChunk c)
  calcHashMulti : L.chunkSize < 2 ^ 31 →
    visited ((calcHashMultiParts L c).map (·.extent c L.chunkSize)) =
      extents 0 0 L.sizes (c * L.chunkSize) (c * L.chunkSize + L.sizeOfChunk c)
  fillRangeList : ∀ cache : PosCache L,
    visited ((fillRangeParts L cache c).map (·.extent c L.chunkSize)) =
      extents 0 0 L.sizes (c * L.chunkSize) (c * L.chunkSize + L.sizeOfChunk c)

/-! ## Parts and extents -/

/-- The part of a range that lies in a file. -/
def TorrentFile.extent (a b : ℕ) (f : TorrentFile) : Option Extent :=
  Extents.extent f.index f.cacheOffset f.size a b

theorem TorrentFile.extent_eq (a b : ℕ) (f : TorrentFile) :
    f.extent a b = if max a f.cacheOffset < min b f.stop then
      some ⟨f.index, max a f.cacheOffset - f.cacheOffset,
        min b f.stop - max a f.cacheOffset⟩ else none := rfl

theorem filterMap_extent (a b : ℕ) : ∀ (fs : List TorrentFile) (idx off : ℕ), Chained idx off fs →
    fs.filterMap (·.extent a b) = extents idx off (fs.map TorrentFile.size) a b := by
  intro fs
  induction fs with
  | nil => intros; rfl
  | cons f fs ih =>
    intro idx off h
    rw [List.map_cons, extents, ← ih (idx + 1) (off + f.size) h.2.2, ← h.1, ← h.2.1]
    show List.filterMap _ (f :: fs) = (f.extent a b).toList ++ _
    cases hf : f.extent a b with
    | none => rw [List.filterMap_cons_none hf]; rfl
    | some e => rw [List.filterMap_cons_some hf]; rfl

/-- A selection that leaves out only files without a byte of the range. -/
theorem Layout.extents_eq_filterMap (L : Layout) {a b : ℕ} {p : TorrentFile → Bool}
    (hp : ∀ f ∈ L.files, p f = false → f.extent a b = none) :
    (L.files.filter p).filterMap (·.extent a b) = extents 0 0 L.sizes a b := by
  have hsizes : L.files.map TorrentFile.size = L.sizes := Layout.sizes_mkFiles ..
  rw [← hsizes, ← filterMap_extent a b L.files 0 0 L.chained, List.filterMap_filter]
  refine List.filterMap_congr fun f hf => ?_
  cases h : p f with
  | true => simp
  | false => simp [hp f hf h]

theorem extent_eq_none {a b : ℕ} {f : TorrentFile}
    (h : f.size = 0 ∨ b ≤ f.cacheOffset ∨ f.stop ≤ a) : f.extent a b = none := by
  rw [TorrentFile.extent_eq, if_neg]
  simp only [TorrentFile.stop] at h ⊢
  omega

/-- The numbers of a part are those of the intersection of its file with `[a₀, b)`. -/
structure PartExact (c cs b : ℕ) (p : ChunkPart) : Prop where
  le : max (c * cs) p.file.cacheOffset ≤ min b p.file.stop
  passed : p.passed = max (c * cs) p.file.cacheOffset - c * cs
  len : p.len = min b p.file.stop - max (c * cs) p.file.cacheOffset
  fileOff : p.fileOff c cs = max (c * cs) p.file.cacheOffset - p.file.cacheOffset
  stop_lt : p.file.stop < 2 ^ 64

theorem exactParts_files (a₀ b : ℕ) : ∀ (fs : List TorrentFile) (i a : ℕ),
    (exactParts a₀ b i a fs).map ChunkPart.file = fs := by
  intro fs
  induction fs with
  | nil => intros; rfl
  | cons f fs ih => intro i a; rw [exactParts, List.map_cons, ih]

theorem exactParts_rest_exact {c cs b : ℕ} : ∀ (fs : List TorrentFile) (i a : ℕ),
    CoversFrom b a fs → c * cs ≤ a → 0 < i → (∀ f ∈ fs, f.Exact cs) →
    ∀ p ∈ exactParts (c * cs) b i a fs, PartExact c cs b p := by
  intro fs
  induction fs with
  | nil => intro i a _ _ _ _ p hp; simp [exactParts] at hp
  | cons f fs ih =>
    intro i a hcov ha hi hex p hp
    obtain ⟨hoff, hab, hlast, hrest⟩ := hcov
    have hstop : a ≤ f.stop := by rw [TorrentFile.stop, hoff]; omega
    rw [exactParts, List.mem_cons] at hp
    rcases hp with rfl | hp
    · have hmax : max (c * cs) f.cacheOffset = a := by omega
      exact ⟨by simp only; omega, by simp only [hmax], by simp only [hmax], by
        simp only [ChunkPart.fileOff, hmax]
        rw [if_neg (by omega)]
        omega, (hex f (by simp)).stop_lt⟩
    · exact ih (i + 1) f.stop hrest (by omega) (by omega) (fun g hg => hex g (by simp [hg])) p hp

/-- The parts of a chunk are exact. -/
theorem exactParts_exact {c cs b : ℕ} (hcs : 0 < cs) (hc : c < 2 ^ 32) (hab : c * cs < b)
    {fs : List TorrentFile} (hcov : Covers (c * cs) b fs) (hex : ∀ f ∈ fs, f.Exact cs) :
    ∀ p ∈ exactParts (c * cs) b 0 (c * cs) fs, PartExact c cs b p := by
  obtain ⟨f, rest, rfl, hoff, hreach, hlast, hrest⟩ := hcov
  have hstop : c * cs ≤ f.stop := by
    simp only [TorrentFile.stop] at hreach ⊢
    omega
  intro p hp
  rw [exactParts, List.mem_cons] at hp
  rcases hp with rfl | hp
  · have hmax : max (c * cs) f.cacheOffset = c * cs := max_eq_left hoff
    refine ⟨by simp only; omega, by simp only [hmax], by simp only [hmax], ?_,
      (hex f (by simp)).stop_lt⟩
    simp only [ChunkPart.fileOff, if_true, hmax]
    exact (hex f (by simp)).fileOffset_eq hcs hoff hstop hc
  · exact exactParts_rest_exact rest 1 f.stop hrest hstop Nat.one_pos
      (fun g hg => hex g (by simp [hg])) p hp

/-- A walk over whole parts visits the intersections of the files with the chunk. -/
theorem visited_parts {c cs b : ℕ} {ps : List ChunkPart} (h : ∀ p ∈ ps, PartExact c cs b p) :
    visited (ps.map (·.extent c cs)) = (ps.map ChunkPart.file).filterMap (·.extent (c * cs) b) := by
  induction ps with
  | nil => rfl
  | cons p ps ih =>
    have hp := h p (by simp)
    have hrest := ih fun q hq => h q (by simp [hq])
    have hfile : p.file.extent (c * cs) b =
        if 0 < p.len then some (p.extent c cs) else none := by
      have hle := hp.le
      simp only [TorrentFile.extent_eq, ChunkPart.extent, hp.fileOff, hp.len,
        Nat.sub_pos_iff_lt]
    rw [List.map_cons, List.map_cons]
    by_cases hlen : 0 < p.len
    · rw [if_pos hlen] at hfile
      rw [List.filterMap_cons_some hfile, ← hrest, visited_cons_pos _ hlen]
    · rw [if_neg hlen] at hfile
      rw [List.filterMap_cons_none hfile, ← hrest, visited_cons_zero _ hlen]

section PartExact

variable {c cs b : ℕ} {p : ChunkPart}

/-- An exact part starts where its file and the chunk do. -/
theorem PartExact.start_eq (hp : PartExact c cs b p) :
    max (c * cs) p.file.cacheOffset = c * cs + p.passed := by
  rw [hp.passed, Nat.add_sub_cancel' (le_max_left ..)]

/-- And it ends where one of the two does. -/
theorem PartExact.stop_eq (hp : PartExact c cs b p) :
    min b p.file.stop = c * cs + p.passed + p.len := by
  rw [← hp.start_eq, hp.len, Nat.add_sub_cancel' hp.le]

/-- A piece starts in a part where it starts in the file. -/
theorem PartExact.max_off (hp : PartExact c cs b p) (off : ℕ) :
    max (c * cs + off) p.file.cacheOffset = c * cs + max off p.passed := by
  rw [← max_eq_left (Nat.le_add_right (c * cs) off), max_assoc, hp.start_eq,
    Nat.add_max_add_left]

/-- And it ends in the part where it ends in the file. -/
theorem PartExact.min_off (hp : PartExact c cs b p) {stop : ℕ} (hstop : c * cs + stop ≤ b) :
    min (c * cs + stop) p.file.stop = c * cs + min stop (p.passed + p.len) := by
  rw [← min_eq_left hstop, min_assoc, hp.stop_eq, Nat.add_assoc,
    Nat.add_min_add_left]

theorem PartExact.cacheOffset_le (hp : PartExact c cs b p) :
    p.file.cacheOffset ≤ c * cs + p.passed :=
  hp.start_eq ▸ le_max_right ..

theorem PartExact.le_b (hp : PartExact c cs b p) : c * cs + p.passed + p.len ≤ b :=
  hp.stop_eq ▸ min_le_left ..

theorem PartExact.end_lt (hp : PartExact c cs b p) : c * cs + p.passed + p.len < 2 ^ 64 :=
  lt_of_le_of_lt (hp.stop_eq ▸ min_le_right ..) hp.stop_lt

end PartExact

/-- On an exact part, `calculateOffsetAndLength` is the intersection of the piece
with the file. -/
theorem calculateOffsetAndLength_eq {c cs b off len : ℕ} {p : ChunkPart}
    (hp : PartExact c cs b p) (hsize : b - c * cs < 2 ^ 32) (hin : off + len ≤ b - c * cs)
    (hmeet : ¬ (off + len ≤ p.passed ∨ p.passed + p.len ≤ off)) :
    calculateOffsetAndLength off len (p.fileOff c cs) p.passed p.len =
      (max (c * cs + off) p.file.cacheOffset - p.file.cacheOffset,
        min (c * cs + off + len) p.file.stop - max (c * cs + off) p.file.cacheOffset) := by
  obtain ⟨hleft, hright⟩ := not_or.mp hmeet
  have hfile := hp.cacheOffset_le
  have hle := hp.le_b
  have hend := hp.end_lt
  have hreach : c * cs + (off + len) ≤ b := by omega
  have hpart : p.passed + p.len < 2 ^ 32 := by omega
  rw [Nat.add_assoc, hp.max_off, hp.min_off hreach, calculateOffsetAndLength, hp.fileOff,
    hp.start_eq, u32_of_lt (hin.trans_lt hsize), u32_of_lt hpart]
  clear hmeet
  by_cases hfirst : p.passed ≤ off
  · rw [max_eq_left hfirst]
    by_cases hinside : off + len ≤ p.passed + p.len
    · -- the piece is inside the file
      rw [if_pos ⟨hfirst, hinside⟩, min_eq_left hinside, sub32_of_le hfirst (by omega),
        u64_of_lt (by omega)]
      exact Prod.ext (by simp only; omega) (by simp only; omega)
    · -- it starts in the file
      rw [if_neg (fun h => hinside h.2), if_pos ⟨hfirst, Nat.lt_of_not_le hright⟩,
        min_eq_right (Nat.le_of_not_le hinside), sub32_of_le hfirst (by omega),
        u64_of_lt (by omega), sub32_of_le (by omega) (by omega)]
      exact Prod.ext (by simp only; omega) (by simp only; omega)
  · have hlater := Nat.lt_of_not_le hfirst
    rw [max_eq_right hlater.le, if_neg (fun h => hfirst h.1), if_neg (fun h => hfirst h.1)]
    by_cases hinside : off + len ≤ p.passed + p.len
    · -- it ends in the file
      rw [if_pos ⟨hlater, Nat.lt_of_not_le hleft, hinside⟩, min_eq_left hinside,
        sub32_of_le hlater.le (by omega), sub32_of_le (by omega) (by omega)]
      exact Prod.ext rfl (by simp only; omega)
    · -- the whole file is inside the piece
      rw [if_neg (fun h => hinside h.2.2), if_pos ⟨hlater.le, Nat.lt_of_not_le hinside⟩,
        min_eq_right (Nat.le_of_not_le hinside)]
      exact Prod.ext rfl (by simp only; omega)

/-- A walk over the parts of a piece visits the intersections of the files with
the piece. -/
theorem visited_pieceWalk {c cs b off len : ℕ} (hsize : b - c * cs < 2 ^ 32)
    (hin : off + len ≤ b - c * cs) : ∀ (ps : List ChunkPart) (pieceOff : ℕ),
    (∀ p ∈ ps, PartExact c cs b p) →
      visited ((pieceWalk c cs off len pieceOff ps).map (·.extent)) =
        (ps.map ChunkPart.file).filterMap (·.extent (c * cs + off) (c * cs + off + len)) := by
  intro ps
  induction ps with
  | nil => intros; rfl
  | cons p ps ih =>
    intro pieceOff h
    have hp := h p (by simp)
    have hle := hp.le_b
    have hreach : c * cs + (off + len) ≤ b := by omega
    have hrest := fun pieceOff => ih pieceOff fun q hq => h q (by simp [hq])
    rw [pieceWalk, u32_of_lt (hin.trans_lt hsize),
      u32_of_lt (n := p.passed + p.len) (by omega), List.map_cons]
    by_cases hmeet : off + len ≤ p.passed ∨ p.passed + p.len ≤ off
    · have hnone : p.file.extent (c * cs + off) (c * cs + off + len) = none := by
        rw [TorrentFile.extent_eq, Nat.add_assoc, hp.max_off, hp.min_off hreach, if_neg]
        refine Nat.not_lt_of_le (Nat.add_le_add_left ?_ _)
        rcases hmeet with hbefore | hbehind
        · exact (min_le_left ..).trans (hbefore.trans (le_max_right ..))
        · exact (min_le_right ..).trans (hbehind.trans (le_max_left ..))
      rw [if_pos hmeet, List.filterMap_cons_none hnone, hrest]
    · rw [if_neg hmeet, calculateOffsetAndLength_eq hp hsize hin hmeet]
      simp only [List.map_cons]
      by_cases hpos : max (c * cs + off) p.file.cacheOffset < min (c * cs + off + len) p.file.stop
      · have hsome := TorrentFile.extent_eq (c * cs + off) (c * cs + off + len) p.file
        rw [if_pos hpos] at hsome
        rw [List.filterMap_cons_some hsome, visited_cons_pos _ (Nat.sub_pos_of_lt hpos), hrest]
        rfl
      · have hnone := TorrentFile.extent_eq (c * cs + off) (c * cs + off + len) p.file
        rw [if_neg hpos] at hnone
        rw [List.filterMap_cons_none hnone, visited_cons_zero, hrest]
        simp only [PieceVisit.extent]
        omega

/-! ## The walkers agree -/

section Agree

variable (L : Layout) {c : ℕ}

/-- Files that do not overlap a chunk have no byte of a range inside it. -/
theorem extent_none_of_not_overlapping {f : TorrentFile} (hf : f ∈ L.files)
    (hp : f.inChunk c = false) {a b : ℕ} (ha : c * L.chunkSize ≤ a) (hb : b ≤ L.chunkStop c) :
    f.extent a b = none := by
  have hnot : ¬ (0 < f.size ∧ f.cacheOffset < L.chunkStop c ∧ c * L.chunkSize < f.stop) := by
    rw [← L.inChunk_iff hf, hp]
    simp
  exact extent_eq_none (by omega)

theorem overlapping_exact : ∀ f ∈ L.overlapping c, f.Exact L.chunkSize :=
  fun _ hf => L.exact_of_mem (List.mem_of_mem_filter hf)

/-- What a walk over the files of a chunk, in `w` bits, sees of it. -/
theorem overlapping_parts {w v : ℕ} (hc : c < L.numChunks) (hwv : w ≤ v)
    (hsize : L.sizeOfChunk c < 2 ^ w) :
    chunkParts w v (L.overlapping c).length (L.sizeOfChunk c) 0 0 (L.overlapping c) =
      exactParts (c * L.chunkSize) (L.chunkStop c) 0 (c * L.chunkSize) (L.overlapping c) ∧
    ∀ p ∈ exactParts (c * L.chunkSize) (L.chunkStop c) 0 (c * L.chunkSize) (L.overlapping c),
      PartExact c L.chunkSize (L.chunkStop c) p := by
  obtain ⟨hlt, hbound⟩ := L.chunk_bounds hc
  have hpos := L.sizeOfChunk_pos c
  have hstop : L.sizeOfChunk c = L.chunkStop c - c * L.chunkSize := by omega
  have hcov := L.overlapping_covers hc
  constructor
  · rw [hstop] at hsize ⊢
    exact chunkParts_eq hwv (by omega) (L.chunkStop_le c) hsize hcov (overlapping_exact L)
  · exact exactParts_exact L.chunkSize_pos (hc.trans L.numChunks_lt) (by omega) hcov
      (overlapping_exact L)

theorem overlapping_extents {a b : ℕ} (ha : c * L.chunkSize ≤ a) (hb : b ≤ L.chunkStop c) :
    (L.overlapping c).filterMap (·.extent a b) = extents 0 0 L.sizes a b :=
  L.extents_eq_filterMap fun _ hf hp => extent_none_of_not_overlapping L hf hp ha hb

/-- A walk over whole parts sees the whole chunk. -/
theorem visited_overlapping {w v : ℕ} (hc : c < L.numChunks) (hwv : w ≤ v)
    (hsize : L.sizeOfChunk c < 2 ^ w) :
    visited ((chunkParts w v (L.overlapping c).length (L.sizeOfChunk c) 0 0
      (L.overlapping c)).map (·.extent c L.chunkSize)) =
      extents 0 0 L.sizes (c * L.chunkSize) (c * L.chunkSize + L.sizeOfChunk c) := by
  obtain ⟨hparts, hexact⟩ := overlapping_parts L hc hwv hsize
  rw [hparts, visited_parts hexact, exactParts_files, (L.chunk_bounds hc).2]
  exact overlapping_extents L le_rfl le_rfl

/-- A walk over a piece sees the piece. -/
theorem visited_piece (hc : c < L.numChunks) (hsize : L.sizeOfChunk c < 2 ^ 32) {off len : ℕ}
    (hin : off + len ≤ L.sizeOfChunk c) :
    visited ((pieceWalk c L.chunkSize off len 0 (chunkParts 32 32 (L.overlapping c).length
      (L.sizeOfChunk c) 0 0 (L.overlapping c))).map (·.extent)) =
      extents 0 0 L.sizes (c * L.chunkSize + off) (c * L.chunkSize + off + len) := by
  have hbound := (L.chunk_bounds hc).2
  obtain ⟨hparts, hexact⟩ := overlapping_parts L hc le_rfl hsize
  rw [hparts, visited_pieceWalk (by omega) (by omega) _ _ hexact, exactParts_files]
  exact overlapping_extents L (by omega) (by omega)

/-- A chunk in one file is a single extent. -/
theorem extents_single {f : TorrentFile} (hc : c < L.numChunks) (hl : L.overlapping c = [f])
    {off len : ℕ} (hin : off + len ≤ L.sizeOfChunk c) :
    f.fileOffset c L.chunkSize + off < 2 ^ 64 ∧
    visited [⟨f.index, f.fileOffset c L.chunkSize + off, len⟩] =
      extents 0 0 L.sizes (c * L.chunkSize + off) (c * L.chunkSize + off + len) := by
  have hbound := (L.chunk_bounds hc).2
  obtain ⟨g, rest, heq, hoff, hreach, -, hrest⟩ := L.overlapping_covers hc
  obtain ⟨rfl, rfl⟩ : f = g ∧ rest = [] := by
    rw [hl] at heq
    simpa using heq
  have hstop : L.chunkStop c ≤ f.stop := hrest
  have hex : f.Exact L.chunkSize := overlapping_exact L f (by rw [hl]; simp)
  have hlt := hex.stop_lt
  rw [hex.fileOffset_eq L.chunkSize_pos hoff (by omega) (hc.trans L.numChunks_lt),
    ← overlapping_extents L (c := c) (a := c * L.chunkSize + off)
      (b := c * L.chunkSize + off + len) (by omega) (by omega), hl]
  refine ⟨by omega, ?_⟩
  have hmax : max (c * L.chunkSize + off) f.cacheOffset = c * L.chunkSize + off := by omega
  have hmin : min (c * L.chunkSize + off + len) (f.cacheOffset + f.size) =
      c * L.chunkSize + off + len := by
    simp only [TorrentFile.stop] at hstop
    omega
  by_cases hpos : 0 < len
  · rw [List.filterMap_cons_some (b := ⟨f.index, c * L.chunkSize - f.cacheOffset + off, len⟩)]
    · simp [visited, hpos]
    · rw [TorrentFile.extent, Extents.extent, hmax, hmin, if_pos (by omega)]
      congr 2 <;> omega
  · rw [List.filterMap_cons_none (by
      rw [TorrentFile.extent, Extents.extent, hmax, hmin, if_neg (by omega)])]
    simp [visited, hpos]

theorem checkSize_eq (hsize : L.sizeOfChunk c < 2 ^ 32) : checkSize L c = L.sizeOfChunk c := by
  have hpos := L.sizeOfChunk_pos c
  rw [checkSize]
  simp only [← Layout.sizeOfChunk.eq_def, u32_of_lt hsize]
  rw [if_neg (by omega)]

/-- The walk of the creator over a chunk whose size fits. -/
theorem visited_calcHashMulti (hc : c < L.numChunks) (hsize : L.sizeOfChunk c < 2 ^ 32) :
    visited ((calcHashMultiParts L c).map (·.extent c L.chunkSize)) =
      extents 0 0 L.sizes (c * L.chunkSize) (c * L.chunkSize + L.sizeOfChunk c) := by
  obtain ⟨hlt, hbound⟩ := L.chunk_bounds hc
  have hpos := L.sizeOfChunk_pos c
  have hs : (if c ≠ L.numChunks - 1 then L.chunkSize else L.lastChunkSize) = L.sizeOfChunk c := by
    rw [Layout.sizeOfChunk, ite_not]
  have hstop : L.sizeOfChunk c = L.chunkStop c - c * L.chunkSize := by omega
  have hex : ∀ f ∈ L.files.filter (·.inRange c), f.Exact L.chunkSize :=
    fun _ hf => L.exact_of_mem (List.mem_of_mem_filter hf)
  have hcov := L.inRange_covers hc
  rw [calcHashMultiParts]
  simp only [hs, u32_of_lt hsize]
  rw [hstop, chunkParts_eq le_rfl (by omega) (L.chunkStop_le c) (by omega) hcov hex,
    visited_parts (exactParts_exact L.chunkSize_pos (hc.trans L.numChunks_lt) (by omega) hcov hex),
    exactParts_files, ← hstop, hbound]
  refine L.extents_eq_filterMap fun f hf hp => ?_
  refine extent_none_of_not_overlapping L hf (c := c) ?_ le_rfl le_rfl
  simp only [TorrentFile.inRange] at hp
  simp [TorrentFile.inChunk, hp]

/-- **All walkers agree exactly when the size of the chunk fits a `Uint32`.** -/
theorem walkers_agree_iff (hc : c < L.numChunks) :
    WalkersAgree L c ↔ L.sizeOfChunk c < 2 ^ 32 := by
  obtain ⟨hlt, hbound⟩ := L.chunk_bounds hc
  constructor
  · -- the ranges of a web seed add up to the truncated size
    intro h
    have hvis := congrArg (fun es => (es.map Extent.len).sum) (h.fillRangeList (PosCache.new L))
    have hne := L.overlapping_ne_nil hc
    have htot : c * L.chunkSize + L.sizeOfChunk c ≤ L.sizes.sum := by
      rw [hbound]
      exact L.chunkStop_le_total c
    simp only [fillRangeParts, chunkFiles_eq L _ hc] at hvis
    rw [extents_sum L.sizes (Nat.le_add_right _ _) htot, Nat.add_sub_cancel_left] at hvis
    have hdrop : ∀ es : List Extent, ((visited es).map Extent.len).sum = (es.map Extent.len).sum := by
      intro es
      induction es with
      | nil => rfl
      | cons e es ih =>
        by_cases hpos : 0 < e.len
        · rw [visited, List.filter_cons_of_pos (by simpa using hpos)]
          simpa [visited] using ih
        · rw [visited, List.filter_cons_of_neg (by simpa using hpos)]
          have hz : e.len = 0 := by omega
          simpa [visited, hz] using ih
    have hsum := chunkParts_sum 64 (L.getSize c) (L.overlapping c) 0 0 hne (fun _ => rfl)
    rw [hdrop, List.map_map] at hvis
    have hlen : (Extent.len ∘ fun x : ChunkPart => x.extent c L.chunkSize) = ChunkPart.len := rfl
    rw [Nat.zero_add, Nat.zero_add, ← hlen, hvis] at hsum
    have hlt64 := (L.sizeOfChunk_le c).trans_lt L.chunkSize_lt
    have hu32 := u32_lt (L.sizeOfChunk c)
    rw [Nat.mod_eq_of_lt hlt64, Layout.getSize, Nat.mod_eq_of_lt (by omega)] at hsum
    omega
  · intro hsize
    refine ⟨?_, ?_, ?_, ?_, ?_⟩
    · intro cache off len _ _ hin
      simp only [loadPieceVisits, chunkFiles_eq L cache hc, Layout.getSize, u32_of_lt hsize]
      split
      · rename_i f hl
        obtain ⟨hoff, hvis⟩ := extents_single L hc hl hin
        simp only [List.map_cons, List.map_nil, PieceVisit.extent, u64_of_lt hoff]
        exact hvis
      · exact visited_piece L hc hsize hin
    · intro cache off len _ _ hin
      simp only [savePieceVisits, chunkFiles_eq L cache hc, Layout.getSize, u32_of_lt hsize]
      exact visited_piece L hc hsize hin
    · intro cache
      simp only [loadChunkParts, chunkFiles_eq L cache hc, checkSize_eq L hsize]
      split
      · rename_i f hl
        have := (extents_single L hc hl (Nat.zero_add _).le).2
        simpa [ChunkPart.extent, ChunkPart.fileOff] using this
      · exact visited_overlapping L hc (by decide) hsize
    · intro _
      exact visited_calcHashMulti L hc hsize
    · intro cache
      simp only [fillRangeParts, chunkFiles_eq L cache hc, Layout.getSize, u32_of_lt hsize]
      exact visited_overlapping L hc le_rfl (hsize.trans (by decide))

end Agree

/-- Three files, the second one empty, in chunks of four bytes. -/
def smallChunks : Layout where
  chunkSize := 4
  sizes := [3, 0, 6]
  chunkSize_pos := Layout.small_pos
  chunkSize_lt := Layout.small_lt
  total_lt := by decide
  count_lt := by decide
  chunks_lt := by decide

/-- All walkers agree on the chunk shared by the files of `smallChunks`. -/
theorem walkers_agree_smallChunks : 0 < smallChunks.numChunks ∧ WalkersAgree smallChunks 0 :=
  ⟨by decide, (walkers_agree_iff smallChunks (by decide)).2 (by decide)⟩

/-- One file in one chunk of `2 ^ 32` bytes. -/
def hugeChunk : Layout where
  chunkSize := 2 ^ 32
  sizes := [2 ^ 32]
  chunkSize_pos := by decide
  chunkSize_lt := by decide
  total_lt := by decide
  count_lt := by decide
  chunks_lt := by decide

/-- **The size of a chunk is truncated.**  A web seed is asked for no byte of a
chunk of `2 ^ 32` bytes. -/
theorem walkers_disagree : ¬ WalkersAgree hugeChunk 0 := by
  intro h
  have := h.fillRangeList (PosCache.new hugeChunk)
  revert this
  decide

end KTorrent
