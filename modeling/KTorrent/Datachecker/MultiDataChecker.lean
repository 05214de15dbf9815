import KTorrent.Datachecker.DataChecker
import KTorrent.Torrent.PieceVisits
import KTorrent.Diskio.DataFiles

/-!
# The data checker for several files

`MultiDataChecker::loadChunk` gives up on a chunk when a file that is downloaded
is missing or too short.  When the DND file of an excluded file is missing or too
short it goes on: the buffer keeps what the chunk before left there.

* `gather` — the bytes the disk has of a chunk, part by part.
* `loadParts_provided`, `loadParts_fst` — when the loop over the parts succeeds,
  and what it leaves in the buffer.
* `checkMulti_sound` — the check is sound exactly when no chunk is hashed with a
  part of an excluded file missing.
-/

namespace KTorrent

open ByteFile

/-- What there is on disk for a file of the torrent. -/
structure CheckedFile where
  /-- `doNotDownload()`. -/
  doNotDownload : Bool
  /-- The file at `getPathOnDisk()`. -/
  data : Option DiskFile
  /-- The DND file `file<index>.dnd`. -/
  dnd : Option (List UInt8)
  /-- The DND file under the name older versions gave it. -/
  oldDnd : Option (List UInt8)

/-- The DND file that is used: one with the old name only if there is none with
the new one. -/
def CheckedFile.dndFile (f : CheckedFile) : Option (List UInt8) :=
  if f.dnd.isSome then f.dnd else f.oldDnd

/-- Where the area of a DND file starts that `loadChunk` reads. -/
def ChunkPart.area (cs : ℕ) (p : ChunkPart) : ℕ :=
  if p.pos = 0 then DndFile.hdrSize + (DndFile.new p.file cs).firstSize else DndFile.hdrSize

/-- One turn of the loop of `loadChunk`: whether to go on, and the buffer. -/
def readPart (cs ci : ℕ) (f : CheckedFile) (p : ChunkPart) (buf : List UInt8) : Bool × List UInt8 :=
  if f.doNotDownload then
    match f.dndFile with
    | none => (true, buf)
    | some dnd =>
      let dfd := DndFile.new p.file cs
      let ret :=
        if p.pos = 0 then (dfd.readLastChunk (some dnd) 0 p.len).1
        else (dfd.readFirstChunk (some dnd) 0 p.len).1
      (true, writeAt 0 buf p.passed ret)
  else
    let off := p.fileOff ci cs
    match f.data with
    | none => (false, buf)
    | some file =>
      if file.bytes.length < off ∨ 2 ^ 63 ≤ off then (false, buf)
      else
        let ret := readAt file.bytes off p.len
        (decide (ret.length = p.len), writeAt 0 buf p.passed ret)

/-- The loop of `loadChunk` over the parts of a chunk. -/
def loadParts (cs ci : ℕ) (disk : ℕ → CheckedFile) : List ChunkPart → List UInt8 →
    Bool × List UInt8
  | [], buf => (true, buf)
  | p :: ps, buf =>
    match readPart cs ci (disk p.file.index) p buf with
    | (true, buf') => loadParts cs ci disk ps buf'
    | (false, buf') => (false, buf')

/-- `MultiDataChecker::loadChunk`. -/
def loadChunk (L : Layout) (cache : PosCache L) (disk : ℕ → CheckedFile) (ci : ℕ)
    (buf : List UInt8) : Except CheckError (Bool × List UInt8) :=
  match chunkFiles L cache ci with
  | [] => .error .noFiles
  | [f] =>
    if (disk f.index).doNotDownload then .ok (false, buf)
    else
      match (disk f.index).data with
      | none => .error .cannotOpen
      | some file =>
        let off := f.fileOffset ci L.chunkSize
        if 2 ^ 63 ≤ off then .ok (false, buf)
        else
          let read := readAt file.bytes off (checkSize L ci)
          .ok (decide (read.length = checkSize L ci), writeAt 0 buf 0 read)
  | _ => .ok (loadParts L.chunkSize ci disk (loadChunkParts L cache ci) buf)

/-- One turn of the loop of `MultiDataChecker::check`, up to the hash. -/
def loadMulti (L : Layout) (cache : ℕ → PosCache L) (disk : ℕ → CheckedFile) (ci : ℕ)
    (buf : List UInt8) : Except CheckError (Option (List UInt8) × List UInt8) :=
  match loadChunk L (cache ci) disk ci buf with
  | .error e => .error e
  | .ok (true, buf') => .ok (some (readAt buf' 0 (checkSize L ci)), buf')
  | .ok (false, buf') => .ok (none, buf')

/-- `MultiDataChecker::check`.  A chunk that cannot be loaded keeps its bit. -/
def checkMulti {H : Type} [DecidableEq H] (L : Layout) (cache : ℕ → PosCache L)
    (disk : ℕ → CheckedFile) (mem : ℕ → UInt8) (input : CheckInput H) (from_ to_ : ℕ)
    (stop : ℕ → Bool) : Except CheckError CheckResult :=
  checkChunks input (loadMulti L cache disk) (checkedChunks L.numChunks from_ to_ stop)
    (uninit mem L.chunkSize) .new

/-! ## What is on disk -/

/-- The bytes a read returned, if they are as many as were asked for. -/
def whole (bytes : List UInt8) (n : ℕ) : Option (List UInt8) :=
  if bytes.length = n then some bytes else none

/-- The bytes the disk has of a part of chunk `ci`, if they are all there. -/
def partOnDisk (cs ci : ℕ) (disk : ℕ → CheckedFile) (p : ChunkPart) : Option (List UInt8) :=
  let f := disk p.file.index
  if f.doNotDownload then
    f.dndFile.bind fun dnd => whole (readAt dnd (p.area cs) p.len) p.len
  else
    f.data.bind fun file =>
      whole (readAt file.bytes (max (ci * cs) p.file.cacheOffset - p.file.cacheOffset) p.len) p.len

/-- The parts one after the other, if they are all there. -/
def gather (get : ChunkPart → Option (List UInt8)) : List ChunkPart → Option (List UInt8)
  | [] => some []
  | p :: ps => (get p).bind fun bytes => (gather get ps).map (bytes ++ ·)

/-- The chunk lies in one file, which is not downloaded: a DND file has nothing of
it. -/
def inExcludedFile (L : Layout) (disk : ℕ → CheckedFile) (ci : ℕ) : Bool :=
  match L.overlapping ci with
  | [f] => (disk f.index).doNotDownload
  | _ => false

/-- The bytes the disk has of a chunk, if they are all there. -/
def multiOnDisk (L : Layout) (disk : ℕ → CheckedFile) (ci : ℕ) : Option (List UInt8) :=
  if inExcludedFile L disk ci then none
  else gather (partOnDisk L.chunkSize ci disk) (L.partsOf ci)

/-- The chunk lies in one file, which is downloaded but not there: `check` throws. -/
def MissingFile (L : Layout) (disk : ℕ → CheckedFile) (ci : ℕ) : Prop :=
  ∃ f, L.overlapping ci = [f] ∧ (disk f.index).doNotDownload = false ∧ (disk f.index).data = none

/-- The chunk is shared, the files that are downloaded have their parts, and an
excluded file does not: its DND file is missing or too short. -/
structure MissingDndPart (L : Layout) (disk : ℕ → CheckedFile) (ci : ℕ) : Prop where
  shared : 2 ≤ (L.overlapping ci).length
  downloaded : ∀ p ∈ L.partsOf ci, (disk p.file.index).doNotDownload = false →
    partOnDisk L.chunkSize ci disk p ≠ none
  excluded : ∃ p ∈ L.partsOf ci, partOnDisk L.chunkSize ci disk p = none

theorem gather_eq_none {get : ChunkPart → Option (List UInt8)} {ps : List ChunkPart} :
    gather get ps = none ↔ ∃ p ∈ ps, get p = none := by
  induction ps with
  | nil => simp [gather]
  | cons p ps ih =>
    rw [gather]
    cases h : get p with
    | none => simp [h]
    | some bytes => simp [h, ih]

theorem length_gather {get : ChunkPart → Option (List UInt8)} {ps : List ChunkPart} :
    (∀ p ∈ ps, ∀ bytes, get p = some bytes → bytes.length = p.len) →
    ∀ bytes, gather get ps = some bytes → bytes.length = (ps.map ChunkPart.len).sum := by
  induction ps with
  | nil =>
    intro _ bytes h
    obtain rfl : [] = bytes := by simpa [gather] using h
    rfl
  | cons p ps ih =>
    intro hlen bytes h
    rw [gather, Option.bind_eq_some_iff] at h
    obtain ⟨b, hb, h⟩ := h
    obtain ⟨bs, hbs, rfl⟩ := Option.map_eq_some_iff.1 h
    rw [List.length_append, List.map_cons, List.sum_cons, hlen p (by simp) b hb,
      ih (fun q hq => hlen q (by simp [hq])) bs hbs]

theorem whole_eq_some {bytes bytes' : List UInt8} {n : ℕ} (h : whole bytes n = some bytes') :
    bytes' = bytes ∧ bytes.length = n := by
  rw [whole] at h
  by_cases hlen : bytes.length = n
  · rw [if_pos hlen, Option.some.injEq] at h
    exact ⟨h.symm, hlen⟩
  · rw [if_neg hlen] at h
    simp at h

theorem length_partOnDisk {cs ci : ℕ} {disk : ℕ → CheckedFile} {p : ChunkPart} {bytes : List UInt8}
    (h : partOnDisk cs ci disk p = some bytes) : bytes.length = p.len := by
  simp only [partOnDisk] at h
  split at h
  · obtain ⟨dnd, -, hw⟩ := Option.bind_eq_some_iff.1 h
    obtain ⟨rfl, hlen⟩ := whole_eq_some hw
    exact hlen
  · obtain ⟨file, -, hw⟩ := Option.bind_eq_some_iff.1 h
    obtain ⟨rfl, hlen⟩ := whole_eq_some hw
    exact hlen

/-! ## The loop over the parts -/

/-- The parts lie one behind the other, from `x` on. -/
def Consecutive : ℕ → List ChunkPart → Prop
  | _, [] => True
  | x, p :: ps => p.passed = x ∧ Consecutive (x + p.len) ps

theorem consecutive_exactParts {a₀ b : ℕ} : ∀ (fs : List TorrentFile) (i a : ℕ),
    CoversFrom b a fs → a₀ ≤ a → Consecutive (a - a₀) (exactParts a₀ b i a fs) ∧
      (fs ≠ [] → ((exactParts a₀ b i a fs).map ChunkPart.len).sum = b - a) := by
  intro fs
  induction fs with
  | nil => intro i a _ _; exact ⟨trivial, fun h => absurd rfl h⟩
  | cons f fs ih =>
    intro i a hcov ha
    obtain ⟨hoff, hab, hlast, hrest⟩ := hcov
    have hstop : a ≤ f.stop := by rw [TorrentFile.stop, hoff]; omega
    obtain ⟨hcons, hsum⟩ := ih (i + 1) f.stop hrest (by omega)
    rw [exactParts, Consecutive, List.map_cons, List.sum_cons]
    cases fs with
    | nil =>
      have hb : b ≤ f.stop := hrest
      refine ⟨⟨rfl, trivial⟩, fun _ => ?_⟩
      simp only [exactParts, List.map_nil, List.sum_nil]
      omega
    | cons g gs =>
      have hb : f.stop ≤ b := hlast (by simp)
      have heq : a - a₀ + (min b f.stop - a) = f.stop - a₀ := by omega
      refine ⟨⟨rfl, by rw [heq]; exact hcons⟩, fun _ => ?_⟩
      rw [hsum (by simp)]
      show min b f.stop - a + (b - f.stop) = b - a
      omega

section Parts

variable {L : Layout} {disk : ℕ → CheckedFile} {ci : ℕ}

/-- The parts of a chunk lie one behind the other and fill it. -/
theorem consecutive_partsOf (hc : ci < L.numChunks) :
    Consecutive 0 (L.partsOf ci) ∧
      ((L.partsOf ci).map ChunkPart.len).sum = L.sizeOfChunk ci := by
  obtain ⟨f, rest, hl, hoff, hreach, hlast, hcov⟩ := L.overlapping_covers hc
  have hf : f ∈ L.overlapping ci := by rw [hl]; simp
  obtain ⟨-, -, hlt, hstop⟩ := Layout.mem_overlapping.1 hf
  have hbound := (L.chunk_bounds hc).2
  obtain ⟨hcons, hsum⟩ := consecutive_exactParts rest 1 f.stop hcov hstop.le
  rw [Layout.partsOf, hl, exactParts, Consecutive, List.map_cons, List.sum_cons, Nat.zero_add]
  cases rest with
  | nil =>
    have hb : L.chunkStop ci ≤ f.stop := hcov
    refine ⟨⟨Nat.sub_self _, trivial⟩, ?_⟩
    simp only [exactParts, List.map_nil, List.sum_nil]
    omega
  | cons g gs =>
    have hb : f.stop ≤ L.chunkStop ci := hlast (by simp)
    have heq : min (L.chunkStop ci) f.stop - ci * L.chunkSize = f.stop - ci * L.chunkSize := by omega
    refine ⟨⟨Nat.sub_self _, by rw [Nat.zero_add, heq]; exact hcons⟩, ?_⟩
    rw [hsum (by simp)]
    show min (L.chunkStop ci) f.stop - ci * L.chunkSize + (L.chunkStop ci - f.stop) = _
    omega

/-- Every part of a chunk has a byte. -/
theorem len_pos_of_mem_partsOf (hc : ci < L.numChunks) {p : ChunkPart} (hp : p ∈ L.partsOf ci)
    (hsize : L.sizeOfChunk ci < 2 ^ 32) : 0 < p.len := by
  have hexact := (overlapping_parts L hc le_rfl hsize).2 p hp
  obtain ⟨-, hpos, hlt, hstop⟩ := Layout.mem_overlapping.1 (L.file_mem_of_mem_partsOf hp)
  have hbound := (L.chunk_bounds hc).2
  have hspos := L.sizeOfChunk_pos ci
  have hlen := hexact.len
  have : p.file.stop = p.file.cacheOffset + p.file.size := rfl
  omega

/-- A part of the chunk, as the loop sees it. -/
structure RealPart (L : Layout) (ci : ℕ) (p : ChunkPart) : Prop where
  len_pos : 0 < p.len
  fileOff : p.fileOff ci L.chunkSize = max (ci * L.chunkSize) p.file.cacheOffset - p.file.cacheOffset

theorem realPart_of_mem (hc : ci < L.numChunks) (hsize : L.sizeOfChunk ci < 2 ^ 32) {p : ChunkPart}
    (hp : p ∈ L.partsOf ci) : RealPart L ci p :=
  ⟨len_pos_of_mem_partsOf hc hp hsize, ((overlapping_parts L hc le_rfl hsize).2 p hp).fileOff⟩

/-- A part that is on disk ends up in the buffer. -/
theorem readPart_provided {p : ChunkPart} (hp : RealPart L ci p) {bytes : List UInt8}
    (h : partOnDisk L.chunkSize ci disk p = some bytes) (buf : List UInt8) :
    readPart L.chunkSize ci (disk p.file.index) p buf = (true, writeAt 0 buf p.passed bytes) := by
  have hlen := hp.len_pos
  simp only [partOnDisk] at h
  rw [readPart]
  by_cases hdnd : (disk p.file.index).doNotDownload = true
  · rw [if_pos hdnd] at h ⊢
    obtain ⟨dnd, hdnd', hw⟩ := Option.bind_eq_some_iff.1 h
    obtain ⟨rfl, -⟩ := whole_eq_some hw
    simp only [hdnd', DndFile.readLastChunk, DndFile.readFirstChunk, DndFile.readArea, ChunkPart.area,
      Nat.add_zero]
    by_cases hpos : p.pos = 0
    · rw [if_pos hpos, if_pos hpos]
    · rw [if_neg hpos, if_neg hpos]
  · rw [if_neg hdnd] at h ⊢
    obtain ⟨file, hfile, hw⟩ := Option.bind_eq_some_iff.1 h
    obtain ⟨rfl, hread⟩ := whole_eq_some hw
    have hflt := file.length_lt
    have hrl := length_readAt file.bytes
      (max (ci * L.chunkSize) p.file.cacheOffset - p.file.cacheOffset) p.len
    simp only [hfile, hp.fileOff]
    rw [if_neg (by omega), hread, decide_eq_true rfl]

/-- The loop goes on behind an excluded file, and behind a file that has its part. -/
theorem readPart_fst {p : ChunkPart} (hp : RealPart L ci p) (buf : List UInt8) :
    (readPart L.chunkSize ci (disk p.file.index) p buf).1 = true ↔
      ((disk p.file.index).doNotDownload = false → partOnDisk L.chunkSize ci disk p ≠ none) := by
  constructor
  · intro h hdnd hnone
    have hlen := hp.len_pos
    rw [readPart, hdnd] at h
    simp only [partOnDisk, hdnd, Bool.false_eq_true, if_false, hp.fileOff] at h hnone
    cases hfile : (disk p.file.index).data with
    | none => simp [hfile] at h
    | some file =>
      simp only [hfile, Option.bind_some] at h hnone
      split at h
      · simp at h
      · rw [whole, if_pos (by simpa using h)] at hnone
        simp at hnone
  · intro h
    cases hdnd : (disk p.file.index).doNotDownload with
    | true =>
      rw [readPart, if_pos hdnd]
      cases (disk p.file.index).dndFile with
      | none => rfl
      | some dnd => rfl
    | false =>
      obtain ⟨bytes, hbytes⟩ := Option.ne_none_iff_exists'.1 (h hdnd)
      rw [readPart_provided hp hbytes]

theorem loadParts_fst {ps : List ChunkPart} : (∀ p ∈ ps, RealPart L ci p) → ∀ buf : List UInt8,
    ((loadParts L.chunkSize ci disk ps buf).1 = true ↔
      ∀ p ∈ ps, (disk p.file.index).doNotDownload = false →
        partOnDisk L.chunkSize ci disk p ≠ none) := by
  induction ps with
  | nil => intro _ buf; simp [loadParts]
  | cons p ps ih =>
    intro hps buf
    have hfst : (readPart L.chunkSize ci (disk p.file.index) p buf).1 = true ↔ _ :=
      readPart_fst (hps p (by simp)) buf
    have hrest := ih fun q hq => hps q (by simp [hq])
    rw [loadParts, List.forall_mem_cons, ← hfst]
    cases hread : readPart L.chunkSize ci (disk p.file.index) p buf with
    | mk ok buf' =>
      cases ok with
      | true => simp [hrest]
      | false => simp

/-- When all parts are on disk the buffer has them one after the other. -/
theorem loadParts_provided {ps : List ChunkPart} : (∀ p ∈ ps, RealPart L ci p) →
    ∀ (x : ℕ) (buf bytes : List UInt8), Consecutive x ps → x ≤ buf.length →
    gather (partOnDisk L.chunkSize ci disk) ps = some bytes →
    ∃ buf', loadParts L.chunkSize ci disk ps buf = (true, buf') ∧
      buf'.take (x + bytes.length) = buf.take x ++ bytes := by
  induction ps with
  | nil =>
    intro _ x buf bytes _ _ h
    obtain rfl : [] = bytes := by simpa [gather] using h
    exact ⟨buf, rfl, by simp⟩
  | cons p ps ih =>
    intro hps x buf bytes hcons hx h
    rw [gather, Option.bind_eq_some_iff] at h
    obtain ⟨b, hb, h⟩ := h
    obtain ⟨bs, hbs, rfl⟩ := Option.map_eq_some_iff.1 h
    obtain ⟨hpassed, hcons⟩ := hcons
    have hp := hps p (by simp)
    have hblen := length_partOnDisk hb
    have hne : b ≠ [] := by
      rintro rfl
      have := hp.len_pos
      simp only [List.length_nil] at hblen
      omega
    have hlen : x + p.len ≤ (writeAt 0 buf x b).length := by
      rw [length_writeAt 0 buf x hne]
      omega
    obtain ⟨buf', hload, htake⟩ := ih (fun q hq => hps q (by simp [hq])) (x + p.len)
      (writeAt 0 buf x b) bs hcons hlen hbs
    refine ⟨buf', ?_, ?_⟩
    · rw [loadParts, readPart_provided hp hb, hpassed]
      exact hload
    · rw [List.length_append, ← Nat.add_assoc, hblen, htake, ← hblen, take_writeAt 0 b hx,
        List.append_assoc]

end Parts

/-! ## Loading a chunk -/

section Load

variable {L : Layout} {disk : ℕ → CheckedFile} {ci : ℕ}

/-- A chunk in a single file. -/
theorem loadMulti_single (hcs : L.chunkSize < 2 ^ 32) (hc : ci < L.numChunks)
    (cache : ℕ → PosCache L) {f : TorrentFile} (hl : L.overlapping ci = [f])
    (hfile : ¬ MissingFile L disk ci) (buf : List UInt8) :
    ∃ buf', loadMulti L cache disk ci buf = .ok (multiOnDisk L disk ci, buf') := by
  have hsize := (L.sizeOfChunk_le ci).trans_lt hcs
  have hpos := L.sizeOfChunk_pos ci
  obtain ⟨g, rest, heq, hoff, -, -, hcov⟩ := L.overlapping_covers hc
  obtain ⟨rfl, rfl⟩ : f = g ∧ rest = [] := by
    rw [hl] at heq
    simpa using heq
  have hbound := (L.chunk_bounds hc).2
  have hstop : L.chunkStop ci ≤ f.stop := hcov
  have hex : f.Exact L.chunkSize := overlapping_exact L f (by rw [hl]; simp)
  have hfo := hex.fileOffset_eq L.chunkSize_pos hoff (by omega) (hc.trans L.numChunks_lt)
  rw [loadMulti, loadChunk, chunkFiles_eq L (cache ci) hc, hl]
  simp only [checkSize_eq L hsize, multiOnDisk, inExcludedFile, hl]
  cases hdnd : (disk f.index).doNotDownload with
  | true => exact ⟨buf, rfl⟩
  | false =>
    cases hdata : (disk f.index).data with
    | none => exact absurd ⟨f, hl, hdnd, hdata⟩ hfile
    | some file =>
      have hflt := file.length_lt
      have hrl := length_readAt file.bytes (ci * L.chunkSize - f.cacheOffset) (L.sizeOfChunk ci)
      have hparts : L.partsOf ci = [⟨0, f, 0, L.sizeOfChunk ci⟩] := by
        rw [Layout.partsOf, hl, exactParts, exactParts, Nat.sub_self, min_eq_left hstop]
        congr 2
        omega
      have hdisk : gather (partOnDisk L.chunkSize ci disk) (L.partsOf ci) =
          whole (readAt file.bytes (ci * L.chunkSize - f.cacheOffset) (L.sizeOfChunk ci))
            (L.sizeOfChunk ci) := by
        simp only [hparts, gather, partOnDisk, hdnd, hdata, Bool.false_eq_true, if_false,
          Option.bind_some, Option.map_some, max_eq_left hoff]
        cases whole _ _ <;> simp
      simp only [Bool.false_eq_true, if_false, hdisk, hfo, whole]
      by_cases hseek : 2 ^ 63 ≤ ci * L.chunkSize - f.cacheOffset
      · rw [if_pos hseek, if_neg (by omega)]
        exact ⟨buf, rfl⟩
      · rw [if_neg hseek]
        by_cases hread : (readAt file.bytes (ci * L.chunkSize - f.cacheOffset)
            (L.sizeOfChunk ci)).length = L.sizeOfChunk ci
        · have hback := readAt_writeAt 0 buf 0 (readAt file.bytes
            (ci * L.chunkSize - f.cacheOffset) (L.sizeOfChunk ci))
          rw [hread] at hback
          simp only [hread, decide_true, if_true, hback]
          exact ⟨_, rfl⟩
        · simp only [hread, decide_false, if_false]
          exact ⟨_, rfl⟩

/-- A chunk shared by several files: the loop over its parts. -/
theorem loadMulti_shared (hcs : L.chunkSize < 2 ^ 32) (hc : ci < L.numChunks)
    (cache : ℕ → PosCache L) (hl : ∀ f, L.overlapping ci ≠ [f]) (buf : List UInt8) :
    loadMulti L cache disk ci buf =
      match loadParts L.chunkSize ci disk (L.partsOf ci) buf with
      | (true, buf') => .ok (some (readAt buf' 0 (L.sizeOfChunk ci)), buf')
      | (false, buf') => .ok (none, buf') := by
  have hsize := (L.sizeOfChunk_le ci).trans_lt hcs
  have hne := L.overlapping_ne_nil hc
  have hparts : loadChunkParts L (cache ci) ci = L.partsOf ci := by
    rw [loadChunkParts, chunkFiles_eq L (cache ci) hc, checkSize_eq L hsize]
    split
    · exact absurd ‹_› (hl _)
    · rw [(overlapping_parts L hc (by decide) hsize).1, Layout.partsOf]
  have hload : loadChunk L (cache ci) disk ci buf =
      .ok (loadParts L.chunkSize ci disk (L.partsOf ci) buf) := by
    rw [loadChunk, chunkFiles_eq L (cache ci) hc, hparts]
    split
    · exact absurd ‹_› hne
    · exact absurd ‹_› (hl _)
    · rfl
  rw [loadMulti, hload, checkSize_eq L hsize]
  rcases loadParts L.chunkSize ci disk (L.partsOf ci) buf with ⟨ok, buf'⟩
  cases ok <;> rfl

/-- **What is hashed of a chunk**: the bytes on disk, unless an excluded file does
not have its part. -/
theorem loadMulti_eq (hcs : L.chunkSize < 2 ^ 32) (hc : ci < L.numChunks) (cache : ℕ → PosCache L)
    (hfile : ¬ MissingFile L disk ci) (hdnd : ¬ MissingDndPart L disk ci) (buf : List UInt8) :
    ∃ buf', loadMulti L cache disk ci buf = .ok (multiOnDisk L disk ci, buf') := by
  have hsize := (L.sizeOfChunk_le ci).trans_lt hcs
  by_cases hone : ∃ f, L.overlapping ci = [f]
  · obtain ⟨f, hl⟩ := hone
    exact loadMulti_single hcs hc cache hl hfile buf
  have hl : ∀ f, L.overlapping ci ≠ [f] := fun f hf => hone ⟨f, hf⟩
  have hreal : ∀ p ∈ L.partsOf ci, RealPart L ci p := fun p hp => realPart_of_mem hc hsize hp
  have hdisk : multiOnDisk L disk ci = gather (partOnDisk L.chunkSize ci disk) (L.partsOf ci) := by
    rw [multiOnDisk, if_neg]
    rw [inExcludedFile]
    split
    · exact absurd ‹_› (hl _)
    · simp
  rw [loadMulti_shared hcs hc cache hl, hdisk]
  cases hgather : gather (partOnDisk L.chunkSize ci disk) (L.partsOf ci) with
  | some bytes =>
    obtain ⟨hcons, hsum⟩ := consecutive_partsOf hc
    have hlen := length_gather (fun p _ b hb => length_partOnDisk hb) bytes hgather
    obtain ⟨buf', hload, htake⟩ := loadParts_provided hreal 0 buf bytes hcons (Nat.zero_le _)
      hgather
    rw [hlen, hsum, Nat.zero_add, List.take_zero, List.nil_append] at htake
    rw [hload]
    refine ⟨buf', ?_⟩
    show Except.ok (some (readAt buf' 0 (L.sizeOfChunk ci)), buf') = _
    rw [readAt, List.drop_zero, htake]
  | none =>
    -- some part is missing, and it is not one of an excluded file
    have hfail : (loadParts L.chunkSize ci disk (L.partsOf ci) buf).1 = false := by
      by_contra hok
      rw [Bool.not_eq_false, loadParts_fst hreal] at hok
      refine hdnd ⟨?_, hok, gather_eq_none.1 hgather⟩
      have hne := L.overlapping_ne_nil hc
      rcases hov : L.overlapping ci with _ | ⟨f, _ | ⟨f', fs⟩⟩
      · exact absurd hov hne
      · exact absurd hov (hl f)
      · simp
    rcases hload : loadParts L.chunkSize ci disk (L.partsOf ci) buf with ⟨ok, buf'⟩
    rw [hload] at hfail
    obtain rfl : ok = false := hfail
    exact ⟨buf', rfl⟩

/-- A chunk of which an excluded file does not have its part is hashed all the
same. -/
theorem loadMulti_missingDndPart (hcs : L.chunkSize < 2 ^ 32) (hc : ci < L.numChunks)
    (cache : ℕ → PosCache L) (h : MissingDndPart L disk ci) (buf : List UInt8) :
    multiOnDisk L disk ci = none ∧
      ∃ bytes buf', loadMulti L cache disk ci buf = .ok (some bytes, buf') := by
  have hsize := (L.sizeOfChunk_le ci).trans_lt hcs
  have hl : ∀ f, L.overlapping ci ≠ [f] := by
    intro f hf
    have := h.shared
    rw [hf] at this
    simp at this
  have hreal : ∀ p ∈ L.partsOf ci, RealPart L ci p := fun p hp => realPart_of_mem hc hsize hp
  have hok := (loadParts_fst hreal buf).2 h.downloaded
  refine ⟨?_, ?_⟩
  · rw [multiOnDisk, gather_eq_none.2 h.excluded, ite_self]
  · rw [loadMulti_shared hcs hc cache hl]
    rcases hload : loadParts L.chunkSize ci disk (L.partsOf ci) buf with ⟨ok, buf'⟩
    rw [hload] at hok
    obtain rfl : ok = true := hok
    exact ⟨_, buf', rfl⟩

/-- A chunk in a single file that is not there makes the check throw. -/
theorem loadMulti_missingFile (hc : ci < L.numChunks) (cache : ℕ → PosCache L)
    (h : MissingFile L disk ci) (buf : List UInt8) :
    loadMulti L cache disk ci buf = .error .cannotOpen := by
  obtain ⟨f, hl, hdnd, hdata⟩ := h
  rw [loadMulti, loadChunk, chunkFiles_eq L (cache ci) hc, hl]
  simp [hdnd, hdata]

/-- Without a missing file every chunk of the range is loaded. -/
theorem loadedChunks_multi_iff {H : Type} (sha1 : List UInt8 → H) (hcs : L.chunkSize < 2 ^ 32)
    (cache : ℕ → PosCache L) : ∀ (is : List ℕ) (buf : List UInt8), (∀ i ∈ is, i < L.numChunks) →
    (∀ i ∈ is, ¬ MissingFile L disk i) →
    ∃ ls, loadedChunks (loadMulti L cache disk) is buf = .ok ls ∧
      ((∀ l ∈ ls, l.2.map sha1 = (multiOnDisk L disk l.1).map sha1) ↔
        ∀ i ∈ is, ¬ MissingDndPart L disk i) := by
  intro is
  induction is with
  | nil => intros; exact ⟨[], rfl, by simp⟩
  | cons i is ih =>
    intro buf hlt hfile
    have hi := hlt i (by simp)
    have hrest := fun buf' => ih buf' (fun j hj => hlt j (by simp [hj]))
      fun j hj => hfile j (by simp [hj])
    rw [loadedChunks]
    by_cases hdnd : MissingDndPart L disk i
    · obtain ⟨hnone, bytes, buf', hload⟩ := loadMulti_missingDndPart hcs hi cache hdnd buf
      obtain ⟨ls, hls, -⟩ := hrest buf'
      refine ⟨(i, some bytes) :: ls, by simp only [hload, hls]; rfl, ?_⟩
      refine iff_of_false (fun hall => ?_) fun hall => hall i (by simp) hdnd
      have := hall (i, some bytes) (by simp)
      simp [hnone] at this
    · obtain ⟨buf', hload⟩ := loadMulti_eq hcs hi cache (hfile i (by simp)) hdnd buf
      obtain ⟨ls, hls, hiff⟩ := hrest buf'
      refine ⟨(i, multiOnDisk L disk i) :: ls, by simp only [hload, hls]; rfl, ?_⟩
      rw [List.forall_mem_cons, List.forall_mem_cons, hiff]
      exact and_congr_left fun _ => iff_of_true rfl hdnd

/-- A missing file in the range stops the check. -/
theorem loadedChunks_multi_error (hcs : L.chunkSize < 2 ^ 32) (cache : ℕ → PosCache L) :
    ∀ (is : List ℕ) (buf : List UInt8), (∀ i ∈ is, i < L.numChunks) →
    (∃ i ∈ is, MissingFile L disk i) →
    ∃ e, loadedChunks (loadMulti L cache disk) is buf = .error e := by
  intro is
  induction is with
  | nil => intro buf _ h; simp at h
  | cons i is ih =>
    intro buf hlt h
    have hi := hlt i (by simp)
    rw [loadedChunks]
    by_cases hfile : MissingFile L disk i
    · rw [loadMulti_missingFile hi cache hfile]
      exact ⟨_, rfl⟩
    · -- the missing file comes later
      have hlater : ∃ j ∈ is, MissingFile L disk j := by
        obtain ⟨j, hj, hmiss⟩ := h
        rcases List.mem_cons.1 hj with rfl | hj
        · exact absurd hmiss hfile
        · exact ⟨j, hj, hmiss⟩
      have hload : ∃ o buf', loadMulti L cache disk i buf = .ok (o, buf') := by
        by_cases hdnd : MissingDndPart L disk i
        · obtain ⟨-, bytes, buf', hload⟩ := loadMulti_missingDndPart hcs hi cache hdnd buf
          exact ⟨_, buf', hload⟩
        · obtain ⟨buf', hload⟩ := loadMulti_eq hcs hi cache hfile hdnd buf
          exact ⟨_, buf', hload⟩
      obtain ⟨o, buf', hload⟩ := hload
      obtain ⟨e, he⟩ := ih buf' (fun j hj => hlt j (by simp [hj])) hlater
      exact ⟨e, by simp only [hload, he]; rfl⟩

/-- **The check of several files is sound** for all hashes exactly when it throws,
or no checked chunk lacks the part of an excluded file only. -/
theorem checkMulti_sound {H : Type} [DecidableEq H] (sha1 : List UInt8 → H) (current : ℕ → Bool)
    (hcs : L.chunkSize < 2 ^ 32) (cache : ℕ → PosCache L) (mem : ℕ → UInt8) (from_ to_ : ℕ)
    (stop : ℕ → Bool) :
    (∀ hash : ℕ → H, CheckSound ⟨sha1, hash, current, false⟩ (multiOnDisk L disk)
      (checkedChunks L.numChunks from_ to_ stop)
      (checkMulti L cache disk mem ⟨sha1, hash, current, false⟩ from_ to_ stop)) ↔
    L.numChunks = 0 ∨ (∃ i ∈ checkedChunks L.numChunks from_ to_ stop, MissingFile L disk i) ∨
      ∀ i ∈ checkedChunks L.numChunks from_ to_ stop, ¬ MissingDndPart L disk i := by
  simp only [checkMulti]
  rw [checkSound_forall_iff sha1 current false (loadMulti L cache disk) _
    (nodup_checkedChunks L.numChunks from_ to_ stop)]
  rcases Nat.eq_zero_or_pos L.numChunks with hzero | hpos
  · -- no chunk has files
    refine iff_of_true (fun ls hls l hl => ?_) (.inl hzero)
    cases hchecked : checkedChunks L.numChunks from_ to_ stop with
    | nil =>
      obtain rfl : [] = ls := by simpa [hchecked, loadedChunks] using hls
      simp at hl
    | cons i is =>
      rw [hchecked, loadedChunks] at hls
      simp [loadMulti, loadChunk, chunkFiles, calcChunkPos, calcChunkPosAt, hzero] at hls
  · have hlt : ∀ i ∈ checkedChunks L.numChunks from_ to_ stop, i < L.numChunks := fun i hi =>
      lt_of_mem_checkedChunks hpos L.numChunks_lt hi
    by_cases hfile : ∃ i ∈ checkedChunks L.numChunks from_ to_ stop, MissingFile L disk i
    · obtain ⟨e, he⟩ := loadedChunks_multi_error hcs cache _ (uninit mem L.chunkSize) hlt hfile
      refine iff_of_true (fun ls hls => ?_) (.inr (.inl hfile))
      rw [he] at hls
      simp at hls
    · obtain ⟨ls, hls, hiff⟩ := loadedChunks_multi_iff sha1 hcs cache _ (uninit mem L.chunkSize) hlt
        fun i hi hm => hfile ⟨i, hi, hm⟩
      constructor
      · intro hall
        exact .inr (.inr (hiff.1 (hall ls hls)))
      · rintro (hzero | hmiss | hall) ls' hls'
        · omega
        · exact absurd hmiss hfile
        · obtain rfl : ls = ls' := by simpa [hls] using hls'
          exact hiff.2 hall

end Load

end KTorrent
