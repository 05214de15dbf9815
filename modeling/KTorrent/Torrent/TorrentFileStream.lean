import KTorrent.Torrent.Walkers
import KTorrent.Util.BitSet

/-!
# TorrentFileStream

The model of `torrent/torrentfilestream.cpp`: a file of a torrent is read while
its chunks are downloaded.  The position is kept as an offset in the file, as a
chunk and as an offset in that chunk.

* `Streamed` — what is read, and which chunks it lies in.
* `FileStream.update` — how many bytes can be read from the position on.
* `FileStream.seek`, `readCurrentChunk`, `readData` — as the source has them.
* `StreamDisk` — the data, and what the chunk manager returns of it.

The chunk selector of a stream, its timer and the unloading of chunks are left out.
-/

namespace KTorrent

/-- What is streamed: a torrent of one file, or a file of a torrent of several. -/
inductive Streamed (L : Layout) where
  | single
  | file (tf : TorrentFile) (mem : tf ∈ L.files)

namespace Streamed

variable {L : Layout}

/-- `TorrentFileStream::size`. -/
def size : Streamed L → ℕ
  | single => L.total
  | file tf _ => tf.size

/-- `Private::firstChunk`. -/
def firstChunk : Streamed L → ℕ
  | single => 0
  | file tf _ => tf.firstChunk

/-- `Private::firstChunkOffset`. -/
def firstChunkOffset : Streamed L → ℕ
  | single => 0
  | file tf _ => u32 tf.firstChunkOff

/-- `Private::lastChunk`. -/
def lastChunk : Streamed L → ℕ
  | single => sub32 L.numChunks 1
  | file tf _ => tf.lastChunk

/-- `Private::lastChunkSize`. -/
def lastChunkSize (f : Streamed L) : ℕ :=
  match f with
  | single => L.getSize f.lastChunk
  | file tf _ => u32 tf.lastChunkSize

/-- The number of bits of the stream's `bitset`, as the constructors have it. -/
def numBits : Streamed L → ℕ
  | single => L.numChunks
  | f@(file ..) => u32 (sub32 f.lastChunk f.firstChunk + 1)

end Streamed

/-- The chunks of a torrent: their data, and what `Chunk::getPiece` returns of a whole chunk, given
the set of downloaded chunks. -/
structure StreamDisk (L : Layout) where
  data : List UInt8
  length_data : data.length = L.total
  getPiece : (ℕ → Bool) → ℕ → Option (List UInt8)
  getPiece_downloaded : ∀ (chunks : ℕ → Bool) (c : ℕ), c < L.numChunks → chunks c = true →
    getPiece chunks c = some ((data.drop (c * L.chunkSize)).take (L.sizeOfChunk c))

/-- `TorrentFileStream::Private`, and the bit set of the chunk manager. -/
structure FileStream where
  currentByteOffset : ℕ
  bytesReadable : ℕ
  currentChunkData : Option (List UInt8)
  currentChunk : ℕ
  currentChunkOffset : ℕ
  bitset : BitSet
  /-- The downloaded chunks. -/
  chunks : ℕ → Bool

/-- `BitSet::get` on the bit set of the chunk manager. -/
def Layout.hasChunk (L : Layout) (chunks : ℕ → Bool) (c : ℕ) : Bool := decide (c < L.numChunks) && chunks c

/-- `PieceData::read`: the bytes that are copied; `none` for one that is not copied from the
piece. -/
def readPiece (piece : List UInt8) (toRead off : ℕ) : List (Option UInt8) :=
  if u32 (off + toRead) > piece.length then List.replicate toRead none
  else (List.range' off toRead).map fun i => piece[i]?

namespace FileStream

variable {L : Layout}

/-- The constructors, for a torrent with these chunks downloaded. -/
def new (f : Streamed L) (chunks : ℕ → Bool) : FileStream where
  currentByteOffset := 0
  bytesReadable := 0
  currentChunkData := none
  currentChunk := f.firstChunk
  currentChunkOffset := f.firstChunkOffset
  bitset := BitSet.new (UInt32.ofNat f.numBits)
  chunks := chunks

/-! ## How much can be read -/

/-- The bits of the stream, as `update` sets them. -/
def refreshed (f : Streamed L) (s : FileStream) : BitSet :=
  (List.range' f.firstChunk (f.lastChunk + 1 - f.firstChunk)).foldl
    (fun bits c => bits.set (sub32 c f.firstChunk) (L.hasChunk s.chunks c)) s.bitset

/-- The loop that adds the chunks past the current one, until one is missing. -/
def addChunks (f : Streamed L) (bits : BitSet) : List ℕ → ℕ → ℕ
  | [], n => n
  | c :: cs, n =>
    if bits.get (sub32 c f.firstChunk) then
      addChunks f bits cs (u64 (n + if c ≠ f.lastChunk then L.getSize c else f.lastChunkSize))
    else n

/-- What `update` leaves, when it returns. -/
def updated (f : Streamed L) (s : FileStream) : FileStream :=
  if f.firstChunk = f.lastChunk then
    -- special case
    if L.hasChunk s.chunks f.firstChunk then
      { s with bitset := s.bitset.set 0 true, bytesReadable := sub64 f.size s.currentByteOffset }
    else { s with bitset := s.bitset.set 0 false, bytesReadable := 0 }
  else
    let bits := s.refreshed f
    if bits.get (sub32 s.currentChunk f.firstChunk) then
      let n := addChunks f bits (List.range' (s.currentChunk + 1) (f.lastChunk - s.currentChunk)) 0
      let n := if s.currentChunk = f.lastChunk then u64 (n + sub32 f.lastChunkSize s.currentChunkOffset)
        else u64 (n + sub32 (L.getSize s.currentChunk) s.currentChunkOffset)
      { s with bitset := bits, bytesReadable := n }
    else { s with bitset := bits, bytesReadable := 0 }

/-- `Private::update`.  Its loop over `i <= last` never ends when `last` is the largest `Uint32`,
and then there is no result: so it is for a torrent of one file that has no chunk. -/
def update (f : Streamed L) (s : FileStream) : Option FileStream :=
  if f.firstChunk ≠ f.lastChunk ∧ f.lastChunk = 0xFFFFFFFF then none else some (s.updated f)

/-! ## Positions -/

/-- `Private::seek`. -/
def seek (f : Streamed L) (s : FileStream) (pos : ℕ) : FileStream :=
  let s := { s with currentByteOffset := pos, currentChunkOffset := 0, currentChunkData := none }
  let torByteOffset := match f with
    | .single => pos
    | .file .. => u64 (u64 (f.firstChunk * L.chunkSize) + u64 (f.firstChunkOffset + pos))
  { s with
    currentChunk := u32 (torByteOffset / L.chunkSize)
    currentChunkOffset := u32 (torByteOffset % L.chunkSize) }

/-- `Private::reset`. -/
def reset (f : Streamed L) (s : FileStream) : Option FileStream :=
  update f { s with
    currentByteOffset := 0
    bytesReadable := 0
    currentChunk := f.firstChunk
    currentChunkOffset := f.firstChunkOffset
    currentChunkData := none }

/-! ## Reading -/

/-- `Private::readCurrentChunk`; `none` when there is no such chunk. -/
def readCurrentChunk (D : StreamDisk L) (s : FileStream) (maxlen : ℕ) :
    Option (List (Option UInt8) × FileStream) :=
  if s.currentChunk ≥ L.numChunks then none
  else
    match s.currentChunkData.or (D.getPiece s.chunks s.currentChunk) with
    | none => some ([], s)
    | some piece =>
      let size := L.getSize s.currentChunk
      let allowed := min (sub32 size s.currentChunkOffset) maxlen
      let s' := { s with
        currentChunkData := some piece
        currentByteOffset := u64 (s.currentByteOffset + allowed)
        currentChunkOffset := u32 (s.currentChunkOffset + allowed) }
      some (readPiece piece allowed s.currentChunkOffset,
        if s'.currentChunkOffset = size then
          -- the whole chunk was read, so go to the next chunk
          { s' with
            currentChunk := u32 (s.currentChunk + 1)
            currentChunkData := none
            currentChunkOffset := 0 }
        else s')

/-- The loop of `readData`.  Every turn reads a byte at least, so that `maxlen` turns are enough. -/
def readLoop (D : StreamDisk L) (readable maxlen : ℕ) :
    ℕ → ℕ → FileStream → Option (List (Option UInt8) × FileStream)
  | 0, _, s => some ([], s)
  | fuel + 1, bytesRead, s =>
    if bytesRead < maxlen ∧ bytesRead < readable then do
      let (bytes, s) ← readCurrentChunk D s (min (readable - bytesRead) (maxlen - bytesRead))
      if bytes.length = 0 then return ([], s)
      else
        let (rest, s) ← readLoop D readable maxlen fuel (bytesRead + bytes.length) s
        return (bytes ++ rest, s)
    else some ([], s)

/-- A `Uint64` as a `qint64` that other numbers are compared with: nothing is below a negative
one. -/
def asLimit (n : ℕ) : ℕ := if n < 2 ^ 63 then n else 0

/-- `Private::readData`. -/
def readData (D : StreamDisk L) (f : Streamed L) (s : FileStream) (maxlen : ℕ) :
    Option (List (Option UInt8) × FileStream) := do
  let s ← s.update f
  if s.bytesReadable = 0 then return ([], s)
  else
    let (bytes, s) ← readLoop D (asLimit s.bytesReadable) maxlen maxlen 0 s
    return (bytes, { s with bytesReadable := sub64 s.bytesReadable bytes.length })

/-! ## Events -/

/-- What happens to a stream.  A position is a `qint64` that is not negative. -/
inductive Event where
  | seek (pos : Fin (2 ^ 63))
  | read (maxlen : ℕ)
  | chunkDownloaded (chunk : ℕ)
  | reset

/-- The call that an event is; `none` when it does not return. -/
def call (D : StreamDisk L) (f : Streamed L) (s : FileStream) : Event → Option FileStream
  | .seek pos => (s.update f).map fun s => s.seek f pos
  | .read maxlen => (s.readData D f maxlen).map Prod.snd
  | .chunkDownloaded chunk => update f { s with chunks := Function.update s.chunks chunk true }
  | .reset => s.reset f

/-- One event.  A call that does not return leaves nothing to look at. -/
def step (D : StreamDisk L) (f : Streamed L) (s : FileStream) (e : Event) : FileStream :=
  (s.call D f e).getD s

end FileStream
end KTorrent
