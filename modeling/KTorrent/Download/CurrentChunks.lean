import KTorrent.Diskio.ChunkManager
import KTorrent.Download.Downloader
import KTorrent.Torrent.Walkers
import KTorrent.Util.Endian

/-!
# The file of the current chunks

When a torrent is stopped, `Downloader::saveDownloads` writes the chunks that are
being downloaded to a file, from which `loadDownloads` restores them.

* `CurrentChunksHeader`, `ChunkDownloadHeader`, `PieceHeader` — the structures in the
  file, as they are in memory.
* `PieceTable.save`, `PieceTable.load` — a chunk: the pieces that arrived, and the
  data of those that are not mapped.
* `Downloader.saveDownloads`, `Downloader.loadDownloads` — all of them.

The hash is not in the file; it is computed again from the pieces.  The reads of the
headers are not checked in the source; here a header that is cut off ends the loading.
-/

namespace KTorrent

/-! ## Structures -/

/-- A `Uint32`, as it is in memory: the least significant byte comes first. -/
def putUint32 (n : ℕ) : List UInt8 := (writeUint32 (UInt32.ofNat n)).reverse

/-- A `Uint32` at the start of a file, and what follows it. -/
def takeUint32 : List UInt8 → Option (ℕ × List UInt8)
  | a :: b :: c :: d :: file =>
    some (a.toNat + b.toNat * 2 ^ 8 + c.toNat * 2 ^ 16 + d.toNat * 2 ^ 24, file)
  | _ => none

/-- A `Uint32` is read back. -/
theorem takeUint32_put {n : ℕ} (h : n < 2 ^ 32) (file : List UInt8) :
    takeUint32 (putUint32 n ++ file) = some (n, file) := by
  simp only [putUint32, writeUint32, List.reverse_cons, List.reverse_nil, List.nil_append,
    List.cons_append, takeUint32, UInt8.toNat_ofNat', UInt32.toNat_ofNat', Option.some.injEq,
    Prod.mk.injEq, and_true]
  omega

/-- `CURRENT_CHUNK_MAGIC`. -/
def currentChunkMagic : ℕ := 0xABCDEF00

/-- `CurrentChunksHeader`. -/
structure CurrentChunksHeader where
  magic : ℕ
  major : ℕ
  minor : ℕ
  numChunks : ℕ

/-- `ChunkDownloadHeader`. -/
structure ChunkDownloadHeader where
  index : ℕ
  numBits : ℕ
  buffered : ℕ

/-- `PieceHeader`. -/
structure PieceHeader where
  piece : ℕ
  size : ℕ
  mapped : ℕ

def CurrentChunksHeader.write (h : CurrentChunksHeader) : List UInt8 :=
  putUint32 h.magic ++ putUint32 h.major ++ putUint32 h.minor ++ putUint32 h.numChunks

def CurrentChunksHeader.read (file : List UInt8) : Option (CurrentChunksHeader × List UInt8) := do
  let (magic, file) ← takeUint32 file
  let (major, file) ← takeUint32 file
  let (minor, file) ← takeUint32 file
  let (numChunks, file) ← takeUint32 file
  some (⟨magic, major, minor, numChunks⟩, file)

def ChunkDownloadHeader.write (h : ChunkDownloadHeader) : List UInt8 :=
  putUint32 h.index ++ putUint32 h.numBits ++ putUint32 h.buffered

def ChunkDownloadHeader.read (file : List UInt8) : Option (ChunkDownloadHeader × List UInt8) := do
  let (index, file) ← takeUint32 file
  let (numBits, file) ← takeUint32 file
  let (buffered, file) ← takeUint32 file
  some (⟨index, numBits, buffered⟩, file)

def PieceHeader.write (h : PieceHeader) : List UInt8 :=
  putUint32 h.piece ++ putUint32 h.size ++ putUint32 h.mapped

def PieceHeader.read (file : List UInt8) : Option (PieceHeader × List UInt8) := do
  let (piece, file) ← takeUint32 file
  let (size, file) ← takeUint32 file
  let (mapped, file) ← takeUint32 file
  some (⟨piece, size, mapped⟩, file)

theorem CurrentChunksHeader.read_write {magic major minor numChunks : ℕ} (h₁ : magic < 2 ^ 32)
    (h₂ : major < 2 ^ 32) (h₃ : minor < 2 ^ 32) (h₄ : numChunks < 2 ^ 32) (file : List UInt8) :
    read ((mk magic major minor numChunks).write ++ file)
      = some (⟨magic, major, minor, numChunks⟩, file) := by
  simp only [read, write, List.append_assoc, takeUint32_put h₁, takeUint32_put h₂,
    takeUint32_put h₃, takeUint32_put h₄, Option.bind_eq_bind, Option.bind_some]

theorem ChunkDownloadHeader.read_write {index numBits buffered : ℕ} (h₁ : index < 2 ^ 32)
    (h₂ : numBits < 2 ^ 32) (h₃ : buffered < 2 ^ 32) (file : List UInt8) :
    read ((mk index numBits buffered).write ++ file) = some (⟨index, numBits, buffered⟩, file) := by
  simp only [read, write, List.append_assoc, takeUint32_put h₁, takeUint32_put h₂,
    takeUint32_put h₃, Option.bind_eq_bind, Option.bind_some]

theorem PieceHeader.read_write {piece size mapped : ℕ} (h₁ : piece < 2 ^ 32) (h₂ : size < 2 ^ 32)
    (h₃ : mapped < 2 ^ 32) (file : List UInt8) :
    read ((mk piece size mapped).write ++ file) = some (⟨piece, size, mapped⟩, file) := by
  simp only [read, write, List.append_assoc, takeUint32_put h₁, takeUint32_put h₂,
    takeUint32_put h₃, Option.bind_eq_bind, Option.bind_some]

/-! ## A chunk -/

namespace PieceTable

variable {M : Type} (cache : PieceCache M)

/-- The bit set `pieces`. -/
def pieceBits (t : PieceTable) : BitSet :=
  (List.range t.num).foldl (fun bits i => bits.set i (t.pieces i)) (.new (UInt32.ofNat t.num))

/-- A piece that is saved. -/
structure Saved where
  piece : ℕ
  ref : PieceRef
  data : List UInt8

/-- What is written for it: the data of a mapped piece is not. -/
def Saved.write (s : Saved) : List UInt8 :=
  (PieceHeader.mk s.piece s.ref.len (if s.ref.mapped then 1 else 0)).write ++
    if s.ref.mapped then [] else s.data

/-- The pieces that have data and are `ok()`. -/
def saved (t : PieceTable) (m : M) : List Saved :=
  (List.range t.num).filterMap fun i =>
    (t.pieceData i).bind fun r => (cache.bytes m r).map fun data => ⟨i, r, data⟩

/-- `ChunkDownload::save`. -/
def save (t : PieceTable) (m : M) : List UInt8 :=
  (ChunkDownloadHeader.mk t.index t.num 1).write ++ t.pieceBits.data ++
    putUint32 (t.saved cache m).length ++ (t.saved cache m).flatMap Saved.write

/-- The loop of `load`, over the pieces that follow: whether it succeeds, what is left of the
file, and the table. -/
def loadPieces : ℕ → List UInt8 → PieceTable → M → Bool × List UInt8 × PieceTable × M
  | 0, file, t, m => (true, file, t, m)
  | n + 1, file, t, m =>
    match PieceHeader.read file with
    | none => (false, [], t, m)
    | some (phdr, file) =>
      if phdr.piece ≥ t.num then (false, file, t, m)
      else
        match cache.getPiece m (u32 (phdr.piece * maxPieceLen)) phdr.size false with
        | (none, m) => (false, file, t, m)
        | (some r, m) =>
          let t' := { t with pieceData := Function.update t.pieceData phdr.piece (some r) }
          if phdr.mapped = 0 then
            -- `readFromFile` reads as much as there is
            match cache.write m r (file.take r.len) with
            | (false, m) => (false, file, t, m)
            | (true, m) =>
              if file.length < r.len then (false, [], t, m)
              else loadPieces n (file.drop r.len) t' m
          else loadPieces n file t' m

/-- The bit set that is read; what the file does not have is off. -/
def loadBits (numBits : ℕ) (file : List UInt8) : BitSet :=
  let n := numBytesFromNumBits (UInt32.ofNat numBits).toNat
  BitSet.recount (UInt32.ofNat numBits) (file.take n ++ List.replicate (n - file.length) 0) (by
    rw [List.length_append, List.length_take, List.length_replicate]
    omega)

/-- The bit set was read. -/
def withBits (t : PieceTable) (bits : BitSet) : PieceTable :=
  { t with pieces := bits.get, numDownloaded := bits.numOn.toNat }

/-- `ChunkDownload::load`, after the header. -/
def load (t : PieceTable) (numBits : ℕ) (file : List UInt8) (m : M) :
    Bool × List UInt8 × PieceTable × M :=
  if numBits ≠ t.num then (false, file, t, m)
  else
    let bits := loadBits numBits file
    let t := t.withBits bits
    match takeUint32 (file.drop bits.data.length) with
    | none => (false, [], t, m)
    | some (numPiecesToFollow, file) =>
      if numPiecesToFollow > t.num then (false, file, t, m)
      else
        match loadPieces cache numPiecesToFollow file t m with
        | (false, r) => (false, r)
        | (true, file, t, m) =>
          (true, file, { t with numPiecesInHash := 0 }.updateHash cache m)

end PieceTable

/-! ## All chunks -/

namespace Downloader

variable {PD M : Type} [DecidableEq PD] (cache : ℕ → PieceCache M)

/-- `Downloader::saveDownloads`; `major` and `minor` are the version of the library. -/
def saveDownloads (major minor : UInt32) (d : Downloader PD M) : List UInt8 :=
  (CurrentChunksHeader.mk currentChunkMagic major.toNat minor.toNat d.currentChunks.length).write ++
    d.currentChunks.flatMap fun cd => cd.toPieceTable.save (cache cd.index) d.mem

/-- The piece downloaders of a chunk that was loaded: nobody can be banned for what an earlier
session received. -/
def loadedPeers (t : PieceTable) : PeerTable PD :=
  if t.numDownloaded ≠ 0 then PeerTable.new.addProvider none else PeerTable.new

/-- The loop of `loadDownloads`. -/
def loadChunks (L : Layout) (cman : ChunkManager) :
    ℕ → List UInt8 → Downloader PD M → Downloader PD M
  | 0, _, d => d
  | n + 1, file, d =>
    match ChunkDownloadHeader.read file with
    | none => d
    | some (hdr, file) =>
      if hdr.index ≥ L.numChunks then d
      else if (d.find hdr.index).isSome then d
      else
        match (PieceTable.new hdr.index (L.getSize hdr.index)).load (cache hdr.index) hdr.numBits
          file d.mem with
        | (ok, file, t, m) =>
          let d := { d with mem := m }
          if ok = false ∨ cman.onDisk hdr.index ∨ cman.chunkPriority hdr.index = .excluded then
            loadChunks L cman n file d
          else
            loadChunks L cman n file
              (d.insert { toPieceTable := t, toPeerTable := loadedPeers t })

/-- `Downloader::loadDownloads`. -/
def loadDownloads (L : Layout) (cman : ChunkManager) (file : List UInt8) (d : Downloader PD M) :
    Downloader PD M :=
  -- don't load stuff if download is finished
  if cman.completed L then d
  else
    match CurrentChunksHeader.read file with
    | none => d
    | some (chdr, file) =>
      if chdr.magic ≠ currentChunkMagic then d else loadChunks cache L cman chdr.numChunks file d

end Downloader

end KTorrent
