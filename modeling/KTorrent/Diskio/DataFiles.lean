import KTorrent.Lib.ByteFile
import KTorrent.Torrent.Walkers

/-!
# Files on disk

The two kinds of files a multi-file torrent keeps its data in.  `CacheFile` is a
file of the torrent at its place in the output directory.  `DNDFile` stands in
for a file that is not downloaded: behind a header it has one area for the bytes
of the file's first chunk and one for those of its last chunk, the two chunks
that other files may need.

A file is an `Option (List UInt8)`: `none` when there is no file at the path.
Every operation returns the file it leaves behind.
-/

namespace KTorrent

open ByteFile

/-- A buffer from `new Uint8[n]`: the program has not set its contents. -/
def uninit (mem : ℕ → UInt8) (n : ℕ) : List UInt8 := (List.range n).map mem

@[simp] theorem length_uninit (mem : ℕ → UInt8) (n : ℕ) : (uninit mem n).length = n := by
  rw [uninit, List.length_map, List.length_range]

/-- The errors `CacheFile` throws. -/
inductive DiskError where
  /-- "Reading past the end of the file". -/
  | pastEnd
  /-- "Error reading from". -/
  | shortRead
  /-- "Attempting to write beyond the maximum size of". -/
  | beyondMax
  deriving DecidableEq, Repr

/-! ## `CacheFile` -/

namespace CacheFile

/-- `CacheFile::openFile`: opening for reading and writing creates the file. -/
def openFile (file : Option (List UInt8)) : List UInt8 := file.getD []

/-- `CacheFile::read`. -/
def read (file : Option (List UInt8)) (maxSize size off : ℕ) :
    Except DiskError (List UInt8) × Option (List UInt8) :=
  let data := openFile file
  if data.length ≤ off ∨ maxSize ≤ off then (.error .pastEnd, some data)
  else
    let buf := readAt data off size
    if buf.length ≠ size then (.error .shortRead, some data) else (.ok buf, some data)

/-- `CacheFile::growFile`. -/
def growFile (data : List UInt8) (toWrite : ℕ) : List UInt8 := data ++ List.replicate toWrite 0

/-- `CacheFile::write`. -/
def write (file : Option (List UInt8)) (maxSize : ℕ) (buf : List UInt8) (off : ℕ) :
    Except DiskError Unit × Option (List UInt8) :=
  let data := openFile file
  if u64 (off + buf.length) > maxSize then (.error .beyondMax, some data)
  else
    let data := if data.length < off then growFile data (off - data.length) else data
    (.ok (), some (writeAt 0 data off buf))

/-- A read that succeeds returns the bytes of the file and leaves it alone. -/
theorem read_ok {file file' : Option (List UInt8)} {maxSize size off : ℕ} {buf : List UInt8}
    (h : read file maxSize size off = (.ok buf, file')) :
    file' = file ∧ ∃ data, file = some data ∧ buf = readAt data off size ∧ buf.length = size := by
  cases file with
  | none => simp [read, openFile] at h
  | some data =>
    have hopen : openFile (some data) = data := rfl
    rw [read, hopen] at h
    by_cases hend : data.length ≤ off ∨ maxSize ≤ off
    · rw [if_pos hend] at h
      simp at h
    · rw [if_neg hend] at h
      by_cases hlen : (readAt data off size).length = size
      · rw [if_neg (not_not.2 hlen), Prod.mk.injEq, Except.ok.injEq] at h
        exact ⟨h.2.symm, data, rfl, h.1.symm, h.1 ▸ hlen⟩
      · rw [if_pos hlen] at h
        simp at h

end CacheFile

/-! ## `DNDFile` -/

/-- `DNDFile`, apart from its path. -/
structure DndFile where
  /-- Size of the area for the first chunk. -/
  firstSize : ℕ
  /-- Size of the area for the last chunk. -/
  lastSize : ℕ
  deriving DecidableEq, Repr

namespace DndFile

/-- The constructor `DNDFile(path, tf, chunk_size)`. -/
def new (tf : TorrentFile) (chunkSize : ℕ) : DndFile where
  firstSize := u32 (sub64 (u32 chunkSize) tf.firstChunkOff)
  lastSize := u32 tf.lastChunkSize

/-- `DND_FILE_HDR_MAGIC`. -/
def hdrMagic : ℕ := 0xD1234567

/-- `sizeof(DNDFileHeader)`. -/
def hdrSize : ℕ := 32

/-- A `Uint32` in memory, least significant byte first. -/
def wordBytes (n : ℕ) : List UInt8 :=
  [UInt8.ofNat n, UInt8.ofNat (n / 2 ^ 8), UInt8.ofNat (n / 2 ^ 16), UInt8.ofNat (n / 2 ^ 24)]

/-- `DNDFile::create`: a file with nothing but the header. -/
def create (d : DndFile) : List UInt8 :=
  wordBytes hdrMagic ++ wordBytes d.firstSize ++ wordBytes d.lastSize ++ List.replicate 20 0

@[simp] theorem length_create (d : DndFile) : d.create.length = hdrSize := rfl

/-- `DNDFile::checkIntegrity`. -/
def checkIntegrity (d : DndFile) (file : Option (List UInt8)) : List UInt8 :=
  match file with
  | none => d.create
  | some f =>
    if (readAt f 0 hdrSize).length ≠ hdrSize then d.create
    else if readAt f 0 4 ≠ wordBytes hdrMagic then d.create
    else f

/-- Reading from a DND file that is not there creates it. -/
def readArea (d : DndFile) (file : Option (List UInt8)) (readPos size : ℕ) :
    List UInt8 × Option (List UInt8) :=
  match file with
  | none => ([], some d.create)
  | some f => (readAt f readPos size, some f)

/-- `DNDFile::readFirstChunk`. -/
def readFirstChunk (d : DndFile) (file : Option (List UInt8)) (off size : ℕ) :
    List UInt8 × Option (List UInt8) :=
  d.readArea file (hdrSize + off) size

/-- `DNDFile::readLastChunk`. -/
def readLastChunk (d : DndFile) (file : Option (List UInt8)) (off size : ℕ) :
    List UInt8 × Option (List UInt8) :=
  d.readArea file (hdrSize + d.firstSize + off) size

/-- `DNDFile::writeFirstChunk`. -/
def writeFirstChunk (d : DndFile) (file : Option (List UInt8)) (buf : List UInt8) (off : ℕ) :
    List UInt8 :=
  writeAt 0 (file.getD d.create) (hdrSize + off) buf

/-- `DNDFile::writeLastChunk`. -/
def writeLastChunk (d : DndFile) (file : Option (List UInt8)) (buf : List UInt8) (off : ℕ) :
    List UInt8 :=
  writeAt 0 (file.getD d.create) (hdrSize + d.firstSize + off) buf

/-- The file starts with a header. -/
def HasHeader (f : List UInt8) : Prop :=
  hdrSize ≤ f.length ∧ readAt f 0 4 = wordBytes hdrMagic

theorem hasHeader_create (d : DndFile) : HasHeader d.create := by
  refine ⟨(length_create d).ge, ?_⟩
  rfl

/-- A write to one of the areas keeps the header. -/
theorem HasHeader.writeAt {f : List UInt8} (h : HasHeader f) {pos : ℕ} (hpos : hdrSize ≤ pos)
    (buf : List UInt8) : HasHeader (writeAt 0 f pos buf) := by
  obtain ⟨hlen, hmagic⟩ := h
  constructor
  · by_cases hbuf : buf = []
    · rw [hbuf, writeAt_nil]
      exact hlen
    · rw [length_writeAt _ _ _ hbuf]
      omega
  · rw [← hmagic]
    refine readAt_eq_of_forall fun i hi => ?_
    have : hdrSize = 32 := rfl
    exact getElem?_writeAt_outside (by omega) (.inl (by omega))

theorem HasHeader.checkIntegrity {f : List UInt8} (h : HasHeader f) (d : DndFile) :
    d.checkIntegrity (some f) = f := by
  have hlen : (readAt f 0 hdrSize).length = hdrSize := by
    rw [length_readAt]
    have := h.1
    omega
  rw [DndFile.checkIntegrity]
  simp only [hlen, h.2, ne_eq, not_true, if_false]

end DndFile

end KTorrent
