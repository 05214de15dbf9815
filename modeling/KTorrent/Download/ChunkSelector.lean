import KTorrent.Diskio.ChunkManager
import KTorrent.Download.Downloader
import KTorrent.Peer.ChunkCounter
import Mathlib.Data.List.Sort

/-!
# The chunk selectors

The model of `download/chunkselector.cpp` and `download/streamingchunkselector.cpp`:
which chunk is downloaded next.

* `ChunkSelector` — the list of the chunks that are not downloaded, with `select`,
  `selectRange`, `dataChecked`, `reincluded` and `reinsert`.
* `StreamingChunkSelector` — it downloads the chunks after a cursor first, and the
  preview chunks before all others.

The two seconds between sorts and the order of a shuffle come with the calls; the
speed and the choices of the piece downloaders are those of a `PdView`.
-/

namespace KTorrent

variable {PD M : Type}

/-- `ChunkManager::chunksLeft`. -/
def ChunkManager.chunksLeft (L : Layout) (s : ChunkManager) : ℕ :=
  (List.range L.numChunks).countP s.todo

/-- `Chunk::isPreview`. -/
def ChunkManager.isPreview (s : ChunkManager) (i : ℕ) : Bool :=
  s.chunkPriority i == .firstPreview || s.chunkPriority i == .normalPreview ||
    s.chunkPriority i == .lastPreview

/-- The chunks that a web seed is downloading. -/
structure WebSeedRange where
  firstChunk : ℕ
  lastChunk : ℕ

/-- `WebSeed::busy`. -/
def WebSeedRange.busy (L : Layout) (ws : WebSeedRange) : Bool := ws.firstChunk < L.numChunks

namespace Downloader

variable (d : Downloader PD M) (v : PdView PD)

/-- `Downloader::downloading`. -/
def downloading (chunk : ℕ) : Bool := (d.find chunk).isSome

/-- `Downloader::numDownloadersForChunk`. -/
def numDownloadersForChunk (chunk : ℕ) : ℕ :=
  match d.find chunk with
  | none => 0
  | some cd => cd.pdown.length

/-- `Downloader::endgameMode`. -/
def endgameMode (L : Layout) (cman : ChunkManager) : Bool :=
  cman.chunksLeft L ≤ d.currentChunks.length

/-- The chunk is being downloaded very slowly. -/
def slow (chunk : ℕ) : Bool :=
  match d.find chunk with
  | none => false
  | some cd => cd.getDownloadSpeed v < 100

end Downloader

/-! ## The default selector -/

/-- `ChunkSelector`, with the chunks that are not downloaded. -/
structure ChunkSelector where
  chunks : List ℕ

namespace ChunkSelector

variable (L : Layout) (cman : ChunkManager)

/-- `RareCmp`. -/
def rareCmp (cc : ChunkCounter) (warmup : Bool) (a b : ℕ) : Bool :=
  if a ≥ L.numChunks || b ≥ L.numChunks then false
  else if cman.chunkPriority a = cman.chunkPriority b then
    -- during warmup mode choose most common chunks
    if !warmup then cc.get a < cc.get b else cc.get a > cc.get b
  else (cman.chunkPriority a).value > (cman.chunkPriority b).value

/-- The sort of `select`, when the last one is more than two seconds ago. -/
def sorted (cc : ChunkCounter) (elapsed : ℕ) (chunks : List ℕ) : List ℕ :=
  if elapsed > 2000 then
    let warmup : Bool := L.numChunks - cman.chunksLeft L ≤ 4
    chunks.mergeSort fun a b => !rareCmp L cman cc warmup b a
  else chunks

/-- The chunk that `select` remembers. -/
structure Selection where
  sel : Option ℕ
  selDl : ℕ
  selPrio : Priority

/-- The loop of `select`: what is left of the list, and the chunk that is selected. -/
def selectLoop (d : Downloader PD M) (v : PdView PD) (pd : PD) :
    List ℕ → Selection → List ℕ × Option ℕ
  | [], s => ([], s.sel)
  | i :: chunks, s =>
    let prio := cman.chunkPriority i
    if prio = .onlySeed || prio = .excluded || cman.bitset i then
      selectLoop d v pd chunks s
    else if prio.value < s.selPrio.value then
      -- there is a suitable chunk at a higher priority
      (i :: chunks, s.sel)
    else if v.hasChunk pd i then
      let dl := d.numDownloadersForChunk i
      if dl = 0 then (i :: chunks, some i)
      else
        let maxPeersPerChunk := if cman.isPreview i then 3 else 2
        let s :=
          if dl < s.selDl && (dl < maxPeersPerChunk || d.endgameMode L cman || d.slow v i) then
            ⟨some i, dl, prio⟩
          else s
        let r := selectLoop d v pd chunks s
        (i :: r.1, r.2)
    else
      let r := selectLoop d v pd chunks s
      (i :: r.1, r.2)

/-- `ChunkSelector::select`. -/
def select (d : Downloader PD M) (v : PdView PD) (cc : ChunkCounter) (elapsed : ℕ) (pd : PD)
    (s : ChunkSelector) : ChunkSelector × Option ℕ :=
  let r := selectLoop L cman d v pd (sorted L cman cc elapsed s.chunks)
    ⟨none, 0xFFFFFFFF, .excluded⟩
  (⟨r.1⟩, r.2.filter fun sel => sel < L.numChunks)

/-- A round of the loop of `dataChecked`. -/
def checkedChunk (okChunks : ℕ → Bool) (s : ChunkSelector) (i : ℕ) : ChunkSelector :=
  if s.chunks.contains i && okChunks i then ⟨s.chunks.filter (· ≠ i)⟩
  else if !s.chunks.contains i && !okChunks i then ⟨s.chunks ++ [i]⟩
  else s

/-- `ChunkSelector::dataChecked`, for the result of a check of all chunks. -/
def dataChecked (okChunks : ℕ → Bool) (from_ to_ : ℕ) (s : ChunkSelector) : ChunkSelector :=
  (List.range' from_ (min L.numChunks (to_ + 1) - from_)).foldl (checkedChunk okChunks) s

/-- A round of the loop of `reincluded`. -/
def reincludedChunk (s : ChunkSelector) (i : ℕ) : ChunkSelector :=
  if !s.chunks.contains i && !cman.onDisk i then ⟨s.chunks ++ [i]⟩ else s

/-- `ChunkSelector::reincluded`. -/
def reincluded (from_ to_ : ℕ) (s : ChunkSelector) : ChunkSelector :=
  if from_ ≥ L.numChunks || to_ ≥ L.numChunks then s
  else (List.range' from_ (to_ + 1 - from_)).foldl (reincludedChunk cman) s

/-- `ChunkSelector::reinsert`. -/
def reinsert (chunk : ℕ) (s : ChunkSelector) : ChunkSelector :=
  if s.chunks.contains chunk then s else ⟨s.chunks ++ [chunk]⟩

/-! ### Ranges for web seeds -/

/-- `ChunkRange`. -/
structure ChunkRange where
  start : ℕ
  len : ℕ

/-- The loop of `selectRange`. -/
def selectRangeLoop (available : ℕ → Bool) (maxLen : ℕ) :
    List ℕ → ChunkRange → ChunkRange → Option (ℕ × ℕ)
  | [], _, best => if best.len ≠ 0 then some (best.start, best.start + best.len - 1) else none
  | i :: is, curr, best =>
    if !cman.bitset i && available i then
      let curr := if curr.start = 0 ∧ curr.len = 0 then ⟨i, 1⟩ else { curr with len := curr.len + 1 }
      if curr.len ≥ maxLen then some (curr.start, curr.start + curr.len - 1)
      else
        let best :=
          if i = L.numChunks - 1 ∧ curr.start > 0 ∧ curr.len > best.len then curr else best
        selectRangeLoop available maxLen is curr best
    else
      let best := if curr.start > 0 ∧ curr.len > best.len then curr else best
      selectRangeLoop available maxLen is ⟨0, 0⟩ best

/-- `ChunkSelector::selectRange`; `available` is `canDownloadFromWebSeed`. -/
def selectRange (available : ℕ → Bool) (maxLen : ℕ) : Option (ℕ × ℕ) :=
  selectRangeLoop L cman available maxLen (List.range L.numChunks) ⟨0, 0⟩ ⟨0, 0⟩

/-- `ChunkSelector::leastPeers`, without an alternative. -/
def leastPeers (d : Downloader PD M) (v : PdView PD) (lp : List ℕ) (maxPeersPerChunk : ℕ) :
    Option ℕ :=
  match lp with
  | [] => none
  | front :: _ =>
    let sel := lp.foldl (fun sel i =>
      if d.numDownloadersForChunk i < d.numDownloadersForChunk sel then i else sel) front
    if !d.endgameMode L cman && d.numDownloadersForChunk sel ≥ maxPeersPerChunk then
      -- a chunk that is downloaded very slowly is used all the same
      if d.slow v sel then some sel else none
    else some sel

end ChunkSelector

/-! ## The streaming selector -/

/-- `StreamingChunkSelector`. -/
structure StreamingChunkSelector extends ChunkSelector where
  rangeStart : ℕ
  rangeEnd : ℕ
  range : List ℕ
  cursor : ℕ
  criticalWindowSize : ℕ
  /-- `preview_chunks`, in increasing order. -/
  previewChunks : List ℕ

namespace StreamingChunkSelector

open ChunkSelector

variable (L : Layout) (cman : ChunkManager) (d : Downloader PD M) (v : PdView PD) (pd : PD)

/-- `StreamingChunkSelector::selectFromPreview`. -/
def selectFromPreview (s : StreamingChunkSelector) : StreamingChunkSelector × Option ℕ :=
  let previewChunks := s.previewChunks.filter fun i => !cman.bitset i
  let candidates := previewChunks.filter fun i =>
    v.hasChunk pd i && s.rangeStart ≤ i && i ≤ s.rangeEnd
  ({ s with previewChunks }, leastPeers L cman d v candidates 3)

/-- The chunks that the loop of `select` over the range finds. -/
structure RangeSelection where
  critical : Option ℕ
  criticalDownloaders : ℕ
  nonCritical : Option ℕ

/-- The loop of `select` over the range. -/
def rangeLoop (limit : ℕ) : List ℕ → RangeSelection → List ℕ × RangeSelection
  | [], r => ([], r)
  | i :: range, r =>
    if cman.bitset i then rangeLoop limit range r
    else if v.hasChunk pd i && cman.chunkPriority i ≠ .excluded &&
        cman.chunkPriority i ≠ .onlySeed then
      if i < limit then
        -- the critical chunk with the least downloaders
        let nd := d.numDownloadersForChunk i
        let r :=
          if r.critical.isNone || nd < r.criticalDownloaders then
            { r with critical := some i, criticalDownloaders := nd }
          else r
        let rest := rangeLoop limit range r
        (i :: rest.1, rest.2)
      else if !d.downloading i then (i :: range, { r with nonCritical := some i })
      else
        let rest := rangeLoop limit range r
        (i :: rest.1, rest.2)
    else
      let rest := rangeLoop limit range r
      (i :: rest.1, rest.2)

/-- `StreamingChunkSelector::select`. -/
def select (cc : ChunkCounter) (elapsed : ℕ) (s : StreamingChunkSelector) :
    StreamingChunkSelector × Option ℕ :=
  -- always give precedence to preview chunks
  let p := selectFromPreview L cman d v pd s
  match p.2 with
  | some chunk => (p.1, some chunk)
  | none =>
    let r := rangeLoop cman d v pd (u32 (s.cursor + s.criticalWindowSize)) s.range
      ⟨none, 0xFFFFFFFF, none⟩
    let s := { p.1 with range := r.1 }
    match r.2.critical, r.2.nonCritical with
    | some chunk, _ => (s, some chunk)
    | none, some chunk => (s, some chunk)
    | none, none =>
      let r := ChunkSelector.select L cman d v cc elapsed pd s.toChunkSelector
      ({ s with toChunkSelector := r.1 }, r.2)

end StreamingChunkSelector

end KTorrent
