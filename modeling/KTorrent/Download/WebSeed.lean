import KTorrent.Torrent.Walkers
import KTorrent.Lib.Run

/-!
# The transfer of a web seed

A web seed gets a range of chunks from a server, one file range after the other
over one connection, and writes what arrives into the chunks in order.  A closed
connection is opened again for the rest of the range.

* `HttpGet` — the request of a connection; a connection has one at a time.
* `WebSeed` — the state, with the writes made so far.
* `download`, `continueCurChunk` — a range is started, or taken up where it was
  left.
* `handleData`, `readData` — what arrives is written.
* `update`, `step` — one call of the downloader.
-/

namespace KTorrent

open Extents

/-- What a web seed knows of its torrent and its server. -/
structure WebSeedSource where
  /-- The torrent. -/
  layout : Layout
  /-- The position `calcChunkPos` starts from. -/
  cache : PosCache layout
  /-- `Torrent::isMultiFile`. -/
  isMultiFile : Bool
  /-- The path of the URL. -/
  urlPath : List Char
  /-- `Torrent::getNameSuggestion`. -/
  nameSuggestion : List Char
  /-- `TorrentFile::getPath` of a file. -/
  getPath : ℕ → List Char
  /-- `isUserCreated`. -/
  isUserCreated : Bool

namespace WebSeedSource

variable (w : WebSeedSource)

/-- The path `download` and `update` start from. -/
def path : List Char :=
  if w.urlPath.getLast? = some '/' then w.urlPath ++ w.nameSuggestion else w.urlPath

/-- The path `continueCurChunk` starts from. -/
def resumePath : List Char :=
  if w.urlPath.getLast? = some '/' ∧ w.isUserCreated = false then w.urlPath ++ w.nameSuggestion
  else w.urlPath

/-- The path of a file below a base. -/
def filePath (base : List Char) (file : ℕ) : List Char :=
  if w.isMultiFile then base ++ '/' :: w.getPath file else base

/-- The sizes of the files; a torrent without a file list is one file. -/
def fileSizes : List ℕ := if w.isMultiFile then w.layout.sizes else [w.layout.total]

/-- Where a file starts in the torrent. -/
def fileStart (file : ℕ) : ℕ := (w.fileSizes.take file).sum

end WebSeedSource

/-- A request: a range of a file, asked for under a base path. -/
structure HttpGet where
  base : List Char
  range : Extent
  dataReceived : ℕ := 0
  deriving DecidableEq, Repr

/-- A call of `PieceData::write`. -/
structure ChunkWrite where
  chunk : ℕ
  off : ℕ
  data : List UInt8
  deriving DecidableEq, Repr

/-- The state of a web seed. -/
structure WebSeed where
  enabled : Bool
  firstChunk : ℕ
  lastChunk : ℕ
  curChunk : ℕ
  bytesOfCurChunk : ℕ
  rangeQueue : List Extent
  /-- The request of the connection. -/
  request : Option HttpGet
  /-- The writes into chunks, the latest one last. -/
  written : List ChunkWrite
  deriving DecidableEq, Repr

namespace WebSeed

/-- A new web seed; `bytes_of_cur_chunk` is not initialised. -/
def new (L : Layout) (bytes : ℕ) : WebSeed where
  enabled := true
  firstChunk := L.numChunks + 1
  lastChunk := L.numChunks + 1
  curChunk := 2 ^ 32 - 1
  bytesOfCurChunk := bytes
  rangeQueue := []
  request := none
  written := []

/-- `WebSeed::busy`. -/
def Busy (L : Layout) (s : WebSeed) : Prop := s.firstChunk < L.numChunks

instance (L : Layout) (s : WebSeed) : Decidable (s.Busy L) :=
  inferInstanceAs (Decidable (s.firstChunk < L.numChunks))

/-- `WebSeed::reset`: the connection is given up. -/
def reset (L : Layout) (s : WebSeed) : WebSeed :=
  { s with firstChunk := L.numChunks + 1, lastChunk := L.numChunks + 1, request := none }

/-- `WebSeed::setEnabled`. -/
def setEnabled (L : Layout) (s : WebSeed) (on : Bool) : WebSeed :=
  if on then { s with enabled := true } else reset L { s with enabled := false }

/-! ## Requests -/

/-- `HttpConnection::get`: refused while a request is under way. -/
def get (s : WebSeed) (base : List Char) (range : Extent) : WebSeed :=
  match s.request with
  | some _ => s
  | none => { s with request := some { base, range } }

/-- Sends the request for the first range of a queue. -/
def sendFirst (base : List Char) (s : WebSeed) : List Extent → WebSeed
  | [] => { s with rangeQueue := [] }
  | r :: rs => get { s with rangeQueue := rs } base r

/-- The ranges of the chunks from `first` to `last`. -/
def fillRanges (w : WebSeedSource) (first last : ℕ) : List Extent :=
  (List.range' first (last + 1 - first)).foldl (fillRangeList w.layout w.cache) []

/-- The length of a range of chunks; the last chunk can have a different size. -/
def rangeLength (L : Layout) (first last : ℕ) : ℕ :=
  (last - first) * L.chunkSize +
    if last = L.numChunks - 1 then L.lastChunkSize else L.chunkSize

/-- The loop of `continueCurChunk`: ranges are passed over until they add up to
the bytes there are already.  `length` is a `Uint32`. -/
def skipRanges (bytes : ℕ) : ℕ → List Extent → List Extent
  | _, [] => []
  | length, r :: rs =>
    if bytes ≤ length then r :: rs else skipRanges bytes (u32 (length + r.len)) rs

/-- `WebSeed::continueCurChunk`. -/
def continueCurChunk (w : WebSeedSource) (s : WebSeed) : WebSeed :=
  let s := { s with firstChunk := s.curChunk }
  if w.isMultiFile then
    sendFirst w.resumePath s
      (skipRanges s.bytesOfCurChunk 0 (fillRanges w s.firstChunk s.lastChunk))
  else
    s.get w.resumePath ⟨0, s.firstChunk * w.layout.chunkSize + s.bytesOfCurChunk,
      rangeLength w.layout s.firstChunk s.lastChunk - s.bytesOfCurChunk⟩

/-- `WebSeed::download`. -/
def download (w : WebSeedSource) (first last : ℕ) (s : WebSeed) : WebSeed :=
  if s.enabled = false then s
  else if first = s.curChunk ∧ last = s.lastChunk ∧ 0 < s.bytesOfCurChunk then
    -- some of the data is there already
    continueCurChunk w s
  else
    let s := { s with firstChunk := first, lastChunk := last, curChunk := first,
                      bytesOfCurChunk := 0 }
    if w.isMultiFile then sendFirst w.path s (fillRanges w first last)
    else s.get w.path ⟨0, first * w.layout.chunkSize, rangeLength w.layout first last⟩

/-! ## What arrives -/

/-- What the downloader and the chunk manager say about the chunks during a call. -/
structure ChunkView where
  /-- The status of a chunk is `ON_DISK`. -/
  onDisk : ℕ → Bool
  /-- The data of a finished chunk matches its hash. -/
  accepted : ℕ → Bool

/-- A chunk is full.  The downloader disables a web seed whose chunk does not match,
and `handleData` throws then: the callers stop when `enabled` is gone. -/
def chunkFull (L : Layout) (v : ChunkView) (s : WebSeed) : WebSeed :=
  let c := s.curChunk
  let s := { s with bytesOfCurChunk := 0, curChunk := u32 (c + 1) }
  if v.onDisk c = false ∧ v.accepted c = false then s.setEnabled L false else s

/-- One round of `handleData`: `bl` bytes go into the current chunk. -/
def putBytes (v : ChunkView) (s : WebSeed) (data : List UInt8) : WebSeed :=
  { s with
    bytesOfCurChunk := u32 (s.bytesOfCurChunk + data.length)
    written := if v.onDisk s.curChunk then s.written
      else s.written ++ [⟨s.curChunk, s.bytesOfCurChunk, data⟩] }

/-- The loop of `handleData`. -/
def handleLoop (L : Layout) (v : ChunkView) : ℕ → List UInt8 → WebSeed → WebSeed
  | 0, _, s => s
  | fuel + 1, tmp, s =>
    if tmp = [] ∨ s.lastChunk < s.curChunk then s
    else
      let size := L.getSize s.curChunk
      let bl := min (sub32 size s.bytesOfCurChunk) tmp.length
      let s := putBytes v s (tmp.take bl)
      let s := if s.bytesOfCurChunk = size then chunkFull L v s else s
      if s.enabled then handleLoop L v fuel (tmp.drop bl) s else s

/-- `WebSeed::handleData`; the size of the data is cut to a `Uint32`. -/
def handleData (L : Layout) (v : ChunkView) (tmp : List UInt8) (s : WebSeed) : WebSeed :=
  handleLoop L v tmp.length (tmp.take (u32 tmp.length)) s

/-- `HttpConnection::getData`, when at most `size` bytes have come in since the last
call.  The server's files are known by path and offset.  A request whose bytes are
all there is removed. -/
def getData (w : WebSeedSource) (server : List Char → ℕ → UInt8) (size : ℕ) (s : WebSeed) :
    Option (List UInt8 × WebSeed) :=
  match s.request with
  | none => none
  | some g =>
    let n := min size (g.range.len - g.dataReceived)
    if n = 0 then none
    else
      some ((List.range' (g.range.off + g.dataReceived) n).map
          (server (w.filePath g.base g.range.file)),
        { s with request := if g.range.len ≤ g.dataReceived + n then none
                            else some { g with dataReceived := g.dataReceived + n } })

/-- The loop of `readData`, over the sizes of what `getData` finds. -/
def readLoop (w : WebSeedSource) (server : List Char → ℕ → UInt8) (v : ChunkView) :
    List ℕ → WebSeed → WebSeed
  | [], s => s
  | size :: sizes, s =>
    match getData w server size s with
    | none => s
    | some (tmp, s) =>
      if s.lastChunk < s.curChunk then s
      else
        let s := handleData w.layout v tmp s
        if s.enabled then readLoop w server v sizes s else s

/-- `WebSeed::readData`. -/
def readData (w : WebSeedSource) (server : List Char → ℕ → UInt8) (v : ChunkView)
    (sizes : List ℕ) (s : WebSeed) : WebSeed :=
  let s := readLoop w server v sizes s
  if s.enabled ∧ s.lastChunk < s.curChunk then
    { s with firstChunk := w.layout.numChunks + 1, lastChunk := w.layout.numChunks + 1 }
  else s

/-! ## Steps -/

/-- The state a connection is found in. -/
inductive ConnState
  | ok
  | closed
  | error
  deriving DecidableEq, Repr

/-- The second half of `update`: what follows from the state of the connection. -/
def lookAt (w : WebSeedSource) (conn : ConnState) (s : WebSeed) : WebSeed :=
  if s.enabled = false then s
  else match conn with
    | .error =>
      { s with request := none, firstChunk := w.layout.numChunks + 1,
               lastChunk := w.layout.numChunks + 1, curChunk := w.layout.numChunks + 1 }
    | .closed =>
      let s := { s with request := none }
      if s.lastChunk < w.layout.numChunks then download w s.curChunk s.lastChunk s else s
    | .ok =>
      match s.rangeQueue, s.request with
      | r :: rs, none => get { s with rangeQueue := rs } w.path r
      | _, _ => s

/-- `WebSeed::update`: what has come in is read, then the connection is looked at. -/
def update (w : WebSeedSource) (server : List Char → ℕ → UInt8) (v : ChunkView)
    (sizes : List ℕ) (conn : ConnState) (s : WebSeed) : WebSeed :=
  if s.Busy w.layout then lookAt w conn (readData w server v sizes s) else s

/-- What happens to a web seed. -/
inductive Event
  /-- The downloader wants a range of chunks; it asks a web seed that is not busy. -/
  | download (first last : ℕ)
  /-- The downloader's turn. -/
  | update (v : ChunkView) (sizes : List ℕ) (conn : ConnState)
  /-- Cancelled, or a chunk of the range excluded or already there, or the retry timer. -/
  | reset
  | setEnabled (on : Bool)

/-- One event. -/
def step (w : WebSeedSource) (server : List Char → ℕ → UInt8) (s : WebSeed) : Event → WebSeed
  | .download first last =>
    if s.Busy w.layout ∨ last < first ∨ w.layout.numChunks ≤ last then s
    else download w first last s
  | .update v sizes conn => update w server v sizes conn s
  | .reset => s.reset w.layout
  | .setEnabled on => s.setEnabled w.layout on

end WebSeed

end KTorrent
