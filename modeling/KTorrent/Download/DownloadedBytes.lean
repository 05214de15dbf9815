import KTorrent.Download.CurrentChunks

/-!
# How much has been downloaded

The model of the counters of `download/downloader.cpp`, on top of the downloader and of
the chunk manager: `bytes_downloaded` and `curr_chunks_downloaded`, whose sum is reported
to trackers.

* `ChunkManager.bytesLeft` — how many bytes are missing.
* `construct`, `loadDownloads` — the counters at the start.
* `pieceReceived`, `onChunkReady`, `exclude` — what happens to them later.
* `DownloadEvent`, `DownloadState.step` — a run.

The counters are numbers without a limit: a torrent has less than `2 ^ 64` bytes.
Whether a hash is right comes with the event.  A file that is set to `ONLY_SEED` is no
event of its own: it emits `excluded` without a reset, which is to the counters an
exclusion of those chunks of the range that are not complete.
-/

namespace KTorrent

/-- `ChunkManager::bytesLeft`. -/
def ChunkManager.bytesLeft (L : Layout) (s : ChunkManager) : ℕ :=
  let numLeft := L.numChunks - (List.range L.numChunks).countP s.bitset
  if L.numChunks ≠ 0 ∧ s.bitset (L.numChunks - 1) = false then
    (numLeft - 1) * L.chunkSize + L.getSize (L.numChunks - 1)
  else numLeft * L.chunkSize

/-- A downloader, with its counters and the chunk manager it works for. -/
structure DownloadState (PD M : Type) where
  downloader : Downloader PD M
  cman : ChunkManager
  /-- `bytes_downloaded`. -/
  bytes : ℕ
  /-- `curr_chunks_downloaded`. -/
  currChunks : ℕ
  /-- A chunk that was complete has been excluded.  Nothing reads it. -/
  lost : Bool

/-- The events of piece downloaders other than the arrival of a piece. -/
def DownloaderEvent.ofPeers {PD : Type} : DownloaderEvent PD → Bool
  | .peerAdded _ | .downloadFrom _ _ _ | .timedout _ _ _ | .rejected _ _ _ | .updateChunk _ _ _
  | .removePieceDownloader _ => true
  | _ => false

/-- A chunk selector only chooses chunks that are missing and not excluded. -/
def DownloaderEvent.select {PD : Type} (wanted : ℕ → Bool) : DownloaderEvent PD → DownloaderEvent PD
  | .downloadFrom pd v selected => .downloadFrom pd v (selected.filter wanted)
  | e => e

/-- What can happen to the counters, and what happens in between. -/
inductive DownloadEvent (PD : Type) where
  /-- Something with the piece downloaders. -/
  | peers (e : DownloaderEvent PD) (h : e.ofPeers = true)
  /-- A piece arrives.  If it is the last one, `hashOk` is what `verifyHash` returns, and
  `webSeeding` says whether a web seed downloads the chunk too. -/
  | pieceReceived (p : Piece PD) (room : PD → ℕ) (hashOk webSeeding : Bool)
  /-- A web seed has all of a chunk. -/
  | chunkReady (i : ℕ) (hashOk : Bool)
  | excluded (from_ to_ : ℕ)
  | included (from_ to_ : ℕ)

namespace DownloadState

variable {PD M : Type} [DecidableEq PD]

/-- `Downloader::bytesDownloaded`. -/
def bytesDownloaded (s : DownloadState PD M) : ℕ := s.bytes + s.currChunks

/-! ## The start -/

section

variable (cache : ℕ → PieceCache M) (L : Layout)

/-- The constructor. -/
def construct (cman : ChunkManager) (m : M) : DownloadState PD M where
  downloader := .new m
  cman := cman
  bytes := L.total - cman.bytesLeft L
  currChunks := 0
  lost := false

/-- The loop of `loadDownloads`, up to its end. -/
def loadChunks : ℕ → List UInt8 → DownloadState PD M → DownloadState PD M
  | 0, _, s => { s with currChunks := 0 }
  | n + 1, file, s =>
    match ChunkDownloadHeader.read file with
    | none => s
    | some (hdr, file) =>
      if hdr.index ≥ L.numChunks then s
      else if (s.downloader.find hdr.index).isSome then s
      else
        match (PieceTable.new hdr.index (L.getSize hdr.index)).load (cache hdr.index) hdr.numBits
          file s.downloader.mem with
        | (ok, file, t, m) =>
          let s := { s with downloader := { s.downloader with mem := m } }
          if ok = false ∨ s.cman.onDisk hdr.index ∨ s.cman.chunkPriority hdr.index = .excluded then
            loadChunks n file s
          else
            loadChunks n file
              { s with
                downloader := s.downloader.insert
                  { toPieceTable := t, toPeerTable := Downloader.loadedPeers t }
                bytes := s.bytes + t.bytesDownloaded }

/-- `Downloader::loadDownloads`; `none` is a file that cannot be opened. -/
def loadDownloads (file : Option (List UInt8)) (s : DownloadState PD M) : DownloadState PD M :=
  -- don't load stuff if download is finished
  if s.cman.completed L then s
  else
    match file with
    | none => s
    | some file =>
      -- recalculate downloaded bytes
      let s := { s with bytes := L.total - s.cman.bytesLeft L }
      match CurrentChunksHeader.read file with
      | none => s
      | some (chdr, file) =>
        if chdr.magic ≠ currentChunkMagic then s else s.loadChunks cache L chdr.numChunks file

/-- A downloader that was constructed and has loaded the file; `counted` is what
`getDownloadedBytesOfCurrentChunksFile` left in `curr_chunks_downloaded`, if it was called. -/
def start (cman : ChunkManager) (m : M) (counted : ℕ) (file : Option (List UInt8)) :
    DownloadState PD M :=
  { construct L cman m with currChunks := counted }.loadDownloads cache L file

/-! ## Pieces, chunks and exclusions -/

/-- `Downloader::pieceReceived`. -/
def pieceReceived (s : DownloadState PD M) (p : Piece PD) (room : PD → ℕ)
    (hashOk webSeeding : Bool) : DownloadState PD M :=
  if s.cman.completed L then s
  else
    match s.downloader.find p.index with
    | none => s
    | some cd =>
      let r := cd.piece (cache p.index) p room s.downloader.mem
      let s := { s with
        downloader := s.downloader.pieceReceived cache p room false
        bytes := if r.1.ok then s.bytes + p.data.length else s.bytes }
      if r.1.complete = false then s
      else if hashOk then { s with cman := s.cman.chunkDownloaded L p.index }
      else
        -- if the chunk fails don't count the bytes downloaded
        { s with
          bytes := if L.getSize p.index > s.bytes then 0 else s.bytes - L.getSize p.index
          cman := if webSeeding then s.cman else s.cman.resetChunk L p.index }

/-- `Downloader::onChunkReady`. -/
def onChunkReady (s : DownloadState PD M) (i : ℕ) (hashOk : Bool) : DownloadState PD M :=
  if hashOk then
    { s with
      bytes := s.bytes + L.getSize i
      downloader := s.downloader.onChunkReady i true
      cman := s.cman.chunkDownloaded L i }
  else
    -- reset chunk but only when no other peer is downloading it
    { s with cman := if (s.downloader.find i).isSome then s.cman else s.cman.resetChunk L i }

/-- `Downloader::onExcluded`. -/
def onExcluded (s : DownloadState PD M) (from_ to_ : ℕ) : DownloadState PD M :=
  let current := (List.range' from_ (to_ + 1 - from_)).filter fun i => (s.downloader.find i).isSome
  { s with
    downloader := s.downloader.onExcluded from_ to_
    cman := current.foldl (ChunkManager.resetChunk L) s.cman }

/-- A file is excluded: the chunks that only it needs are reset, then `ChunkManager::exclude` is
called for them, which emits `excluded`. -/
def exclude (s : DownloadState PD M) (from_ to_ : ℕ) : DownloadState PD M :=
  let chunks := List.range' (min from_ to_) (max from_ to_ + 1 - min from_ to_)
  { s with
    cman := (chunks.foldl (ChunkManager.resetChunk L) s.cman).exclude L from_ to_
    lost := s.lost || chunks.any fun i => decide (i < L.numChunks) && s.cman.bitset i
    }.onExcluded L (min from_ to_) (max from_ to_)

/-- The chunk is missing and not excluded. -/
def wanted (s : DownloadState PD M) (i : ℕ) : Bool :=
  decide (i < L.numChunks) && !s.cman.bitset i && s.cman.chunkPriority i != .excluded

/-- It happens.  A web seed is ready with a chunk of the torrent that is not on disk. -/
def step (s : DownloadState PD M) : DownloadEvent PD → DownloadState PD M
  | .peers e _ =>
    { s with downloader := s.downloader.step cache L.getSize (e.select (s.wanted L)) }
  | .pieceReceived p room hashOk webSeeding => s.pieceReceived cache L p room hashOk webSeeding
  | .chunkReady i hashOk =>
    if i < L.numChunks ∧ s.cman.onDisk i = false then s.onChunkReady L i hashOk else s
  | .excluded from_ to_ => s.exclude L from_ to_
  | .included from_ to_ => { s with cman := s.cman.include_ L from_ to_ }

end

/-! ## The downloader underneath -/

variable {cache : ℕ → PieceCache M} {L : Layout}

end DownloadState

end KTorrent
