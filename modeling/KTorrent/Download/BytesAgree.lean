import KTorrent.Diskio.IndexFile
import KTorrent.Download.BytesLaw

/-!
# When the counters are right

`bytesDownloaded()` should be the bytes of the complete chunks and of the pieces of the
chunks that are being downloaded.

* `BytesAgree` — the law, for as long as no chunk that was complete has been excluded.
* `Counts` — the events that keep it: no web seed delivers a chunk that is partly
  downloaded or excluded, no partly downloaded chunk is excluded, and the piece that
  completes a chunk finds the other pieces there.
* `shape_step` — what every event keeps: the chunks that are being downloaded are
  missing, wanted and different, and complete chunks are on disk.
* `bytesAgree_step_iff` — one event; `allStates_bytesAgree_iff` — every run.
-/

namespace KTorrent

open Runs MarkedSum

namespace DownloadState

variable {PD M : Type} [DecidableEq PD]

section

variable (cache : ℕ → PieceCache M) (L : Layout)

/-- A chunk of the range is complete. -/
def CompleteIn (s : DownloadState PD M) (from_ to_ : ℕ) : Prop :=
  ∃ i, min from_ to_ ≤ i ∧ i ≤ max from_ to_ ∧ i < L.numChunks ∧ s.cman.bitset i = true

/-- The event keeps the law, unless it no longer matters. -/
def Counts (s : DownloadState PD M) : DownloadEvent PD → Prop
  | .pieceReceived p _ hashOk _ => s.lost = true ∨ (s.cman.completed L = false →
      ∀ cd, s.downloader.find p.index = some cd →
        cd.Completes (cache p.index) p s.downloader.mem →
          cd.OthersThere p ∨ (hashOk = false ∧ s.bytes = cd.bytesDownloaded))
  | .chunkReady i hashOk => s.lost = true ∨ (i < L.numChunks → s.cman.onDisk i = false →
      hashOk = true → s.cman.chunkPriority i ≠ .excluded ∧
        ∀ cd, s.downloader.find i = some cd → cd.bytesDownloaded = 0)
  | .excluded from_ to_ => s.lost = true ∨ s.CompleteIn L from_ to_ ∨
      ∀ cd ∈ s.downloader.currentChunks, min from_ to_ ≤ cd.index → cd.index ≤ max from_ to_ →
        cd.bytesDownloaded = 0
  | _ => True

/-- What every event keeps. -/
structure Shape (s : DownloadState PD M) : Prop where
  distinct : s.downloader.TablesDistinct
  wanted : ∀ t ∈ s.downloader.tables, s.wanted L t.index = true
  numbers : ∀ t ∈ s.downloader.tables, t.Numbers (L.getSize t.index)
  onDisk : ∀ i, s.cman.bitset i = true → s.cman.onDisk i = true

end

variable {cache : ℕ → PieceCache M} {L : Layout} {s : DownloadState PD M} {i : ℕ}

omit [DecidableEq PD] in
theorem wanted_iff : s.wanted L i = true ↔
    i < L.numChunks ∧ s.cman.bitset i = false ∧ s.cman.chunkPriority i ≠ .excluded := by
  simp [wanted, and_assoc]

/-! ## The shape -/

omit [DecidableEq PD] in
/-- Chunks are taken away, and the manager forgets about no other one. -/
theorem Shape.clears {s' : DownloadState PD M} {S : ℕ → Prop} {q : PieceTable → Bool}
    (h : s.Shape L) (htables : s'.downloader.tables = s.downloader.tables.filter q)
    (hq : ∀ t ∈ s.downloader.tables, q t = true → ¬ S t.index)
    (hclears : ChunkManager.Clears S s.cman s'.cman) : s'.Shape L := by
  refine ⟨h.distinct.filter htables, fun t ht => ?_, fun t ht => ?_, hclears.onDisk h.onDisk⟩
  · rw [htables, List.mem_filter] at ht
    obtain ⟨hlt, hbit, hprio⟩ := wanted_iff.mp (h.wanted t ht.1)
    obtain ⟨hbit', hprio'⟩ := hclears.kept t.index (hq t ht.1 ht.2)
    exact wanted_iff.mpr ⟨hlt, hbit'.trans hbit, hprio'.symm ▸ hprio⟩
  · rw [htables, List.mem_filter] at ht
    exact h.numbers t ht.1

omit [DecidableEq PD] in
/-- A chunk is taken away because it is complete. -/
theorem Shape.downloaded {s' : DownloadState PD M} (h : s.Shape L)
    (htables : s'.downloader.tables = s.downloader.tables.filter fun t => t.index ≠ i)
    (hcman : s'.cman = s.cman.chunkDownloaded L i) : s'.Shape L := by
  by_cases hdo : i < L.numChunks ∧ s.cman.chunkPriority i ≠ .excluded
  · rw [ChunkManager.chunkDownloaded_eq hdo.1 hdo.2] at hcman
    refine ⟨h.distinct.filter htables, fun t ht => ?_, fun t ht => ?_, fun j hj => ?_⟩
    · rw [htables, List.mem_filter] at ht
      have hne : t.index ≠ i := by simpa using ht.2
      have hold := wanted_iff.mp (h.wanted t ht.1)
      rw [wanted_iff, hcman]
      simpa [Function.update_of_ne hne] using hold
    · rw [htables, List.mem_filter] at ht
      exact h.numbers t ht.1
    · rw [hcman] at hj ⊢
      by_cases hji : j = i
      · simp [hji]
      · simp only [Function.update_of_ne hji] at hj ⊢
        exact h.onDisk j hj
  · have hsame : s.cman.chunkDownloaded L i = s.cman := by
      rw [ChunkManager.chunkDownloaded]
      split
      · rfl
      · rw [if_neg fun hc => hdo ⟨by omega, hc⟩]
    rw [hsame] at hcman
    exact h.clears (S := fun _ => False) htables (fun _ _ _ h => h) (hcman ▸ .refl _ _)

/-! ## Pieces -/

/-- Piece `pp` of a chunk arrived. -/
def withPiece (cd : ChunkDownload PD) (pp : ℕ) (pieceData : ℕ → Option PieceRef)
    (hashed : List UInt8) (k : ℕ) : PieceTable :=
  { cd.toPieceTable with
    pieces := Function.update cd.pieces pp true
    numDownloaded := cd.numDownloaded + 1
    pieceData := pieceData
    hashed := hashed
    numPiecesInHash := k }

/-- What a piece leads to. -/
inductive PieceEffect (cache : ℕ → PieceCache M) (L : Layout) (p : Piece PD) (hashOk : Bool)
    (s s' : DownloadState PD M) : Prop
  /-- Nothing happens. -/
  | refused (tables : s'.downloader.tables = s.downloader.tables) (bytes : s'.bytes = s.bytes)
    (cman : s'.cman = s.cman)
    (idle : s.cman.completed L = false → ∀ cd, s.downloader.find p.index = some cd →
      ¬ (cd.accepts p = true ∧ (cache p.index).stores p s.downloader.mem = true))
  /-- The chunk has a piece more. -/
  | added (cd : ChunkDownload PD) (pieceData : ℕ → Option PieceRef) (hashed : List UInt8) (k : ℕ)
    (find : s.downloader.find p.index = some cd) (accepts : cd.accepts p = true)
    (more : ¬ cd.num ≤ cd.numDownloaded + 1)
    (tables : s'.downloader.tables = s.downloader.tables.map fun t =>
      if t.index = cd.index then withPiece cd (p.offset / maxPieceLen) pieceData hashed k else t)
    (bytes : s'.bytes = s.bytes + p.data.length) (cman : s'.cman = s.cman)
  /-- The chunk is complete, with the right hash. -/
  | verified (cd : ChunkDownload PD) (find : s.downloader.find p.index = some cd)
    (completed : s.cman.completed L = false)
    (completes : cd.Completes (cache p.index) p s.downloader.mem)
    (tables : s'.downloader.tables = s.downloader.tables.filter fun t => t.index ≠ p.index)
    (hashOk : hashOk = true) (bytes : s'.bytes = s.bytes + p.data.length)
    (cman : s'.cman = s.cman.chunkDownloaded L p.index)
  /-- The chunk has the wrong hash. -/
  | failed (cd : ChunkDownload PD) (find : s.downloader.find p.index = some cd)
    (completed : s.cman.completed L = false)
    (completes : cd.Completes (cache p.index) p s.downloader.mem)
    (tables : s'.downloader.tables = s.downloader.tables.filter fun t => t.index ≠ p.index)
    (hashOk : hashOk = false) (bytes : s'.bytes = s.bytes + p.data.length - L.getSize p.index)
    (cman : ChunkManager.Clears (· = p.index) s.cman s'.cman)

omit [DecidableEq PD] in
theorem Shape.piece {p : Piece PD} {hashOk : Bool} {s' : DownloadState PD M} (h : s.Shape L)
    (he : PieceEffect cache L p hashOk s s') : s'.Shape L := by
  cases he with
  | refused htables _ hcman _ =>
    exact h.clears (S := fun _ => False) (q := fun _ => true) (by simp [htables])
      (fun _ _ _ h => h) (hcman ▸ .refl _ _)
  | added cd pieceData hashed k hfind _ _ htables _ hcman =>
    have hcd := (Downloader.find_table hfind).1
    refine ⟨?_, fun t ht => ?_, fun t ht => ?_, hcman ▸ h.onDisk⟩
    · rw [Downloader.TablesDistinct, htables, List.map_map]
      refine (List.map_congr_left fun t _ => ?_) ▸ h.distinct
      dsimp only [Function.comp]
      split
      next hindex => exact hindex
      next => rfl
    · have hsame : s'.wanted L = s.wanted L := funext fun i => by
        rw [DownloadState.wanted, DownloadState.wanted, hcman]
      rw [htables] at ht
      obtain ⟨t', ht', rfl⟩ := List.mem_map.mp ht
      rw [hsame]
      split
      · exact h.wanted cd.toPieceTable hcd
      · exact h.wanted t' ht'
    · rw [htables] at ht
      obtain ⟨t', ht', rfl⟩ := List.mem_map.mp ht
      split
      · exact ⟨(h.numbers _ hcd).num, (h.numbers _ hcd).lastSize⟩
      · exact h.numbers t' ht'
  | verified cd _ _ _ htables _ _ hcman => exact h.downloaded htables hcman
  | failed cd _ _ _ htables _ _ hcman =>
    exact h.clears htables (fun t _ ht => by simpa using ht) hcman

omit [DecidableEq PD] in
/-- The current chunks are as long as they should be. -/
theorem Shape.size (hsize : ∀ c < L.numChunks, L.sizeOfChunk c < 2 ^ 32) (h : s.Shape L)
    {cd : ChunkDownload PD} (hcd : cd.toPieceTable ∈ s.downloader.tables) :
    cd.Numbers (L.sizeOfChunk cd.index) ∧ 0 < L.sizeOfChunk cd.index ∧
      L.sizeOfChunk cd.index < 2 ^ 32 ∧ L.getSize cd.index = L.sizeOfChunk cd.index := by
  have hlt := (wanted_iff.mp (h.wanted _ hcd)).1
  have hget := getSize_eq hsize hlt
  exact ⟨hget ▸ h.numbers _ hcd, L.sizeOfChunk_pos _, hsize _ hlt, hget⟩

theorem onChunkReady_tables (h : s.Shape L) (i : ℕ) :
    (s.onChunkReady L i true).downloader.tables
      = s.downloader.tables.filter fun t => t.index ≠ i :=
  Downloader.tables_onChunkReady h.distinct i

/-- No other chunk is forgotten when the hash is wrong, and this one only if nobody downloads it. -/
theorem onChunkReady_clears (s : DownloadState PD M) (i : ℕ) :
    ChunkManager.Clears (fun j => j = i ∧ ∀ t ∈ s.downloader.tables, t.index ≠ i) s.cman
      (s.onChunkReady L i false).cman := by
  rw [onChunkReady, if_neg Bool.false_ne_true]
  dsimp only
  split
  · exact .refl _ _
  next hfind =>
    have hnone : s.downloader.find i = none := by simpa using hfind
    exact ChunkManager.clears_resetChunk _ ⟨rfl, Downloader.find_eq_none.mp hnone⟩

theorem Shape.chunkReady (h : s.Shape L) (i : ℕ) (hashOk : Bool) :
    (s.onChunkReady L i hashOk).Shape L := by
  cases hashOk with
  | true => exact h.downloaded (onChunkReady_tables h i) rfl
  | false =>
    refine h.clears (q := fun _ => true) ?_ (fun t ht _ hi => hi.2 t ht hi.1)
      (onChunkReady_clears s i)
    rw [onChunkReady, if_neg Bool.false_ne_true, List.filter_true]

/-- The chunks of a range. -/
def InRange (from_ to_ i : ℕ) : Prop := min from_ to_ ≤ i ∧ i ≤ max from_ to_

theorem mem_range_iff {from_ to_ i : ℕ} :
    i ∈ List.range' (min from_ to_) (max from_ to_ + 1 - min from_ to_) ↔ InRange from_ to_ i := by
  rw [List.mem_range'_1, InRange]
  omega

theorem exclude_tables (h : s.Shape L) (from_ to_ : ℕ) :
    (s.exclude L from_ to_).downloader.tables = s.downloader.tables.filter fun t =>
      t.index ∉ List.range' (min from_ to_) (max from_ to_ + 1 - min from_ to_) :=
  Downloader.tables_foldl_excludeChunk _ _ h.distinct

theorem exclude_clears (s : DownloadState PD M) (from_ to_ : ℕ) :
    ChunkManager.Clears (InRange from_ to_) s.cman (s.exclude L from_ to_).cman := by
  have hreset := ChunkManager.clears_foldl_resetChunk (L := L)
    (List.range' (min from_ to_) (max from_ to_ + 1 - min from_ to_)) s.cman
    fun i hi => mem_range_iff.mp hi
  have hexclude : ∀ cman : ChunkManager,
      ChunkManager.Clears (InRange from_ to_) cman (cman.exclude L from_ to_) := fun cman =>
    ChunkManager.clears_exclude cman fun i hmin hmax => ⟨hmin, hmax⟩
  refine (hreset.trans (hexclude _)).trans ?_
  exact ChunkManager.clears_foldl_resetChunk _ _ fun i hi =>
    mem_range_iff.mp (List.mem_of_mem_filter hi)

theorem Shape.exclude (h : s.Shape L) (from_ to_ : ℕ) : (s.exclude L from_ to_).Shape L :=
  h.clears (exclude_tables h from_ to_)
    (fun _ _ ht hin => of_decide_eq_true ht (mem_range_iff.mpr hin)) (exclude_clears s from_ to_)

omit [DecidableEq PD] in
/-- A chunk is inserted. -/
theorem Shape.insert (h : s.Shape L) {cd : ChunkDownload PD}
    (hnew : s.downloader.find cd.index = none) (hwanted : s.wanted L cd.index = true)
    (hnum : cd.Numbers (L.getSize cd.index)) {b : ℕ} :
    ({ s with downloader := s.downloader.insert cd, bytes := b } : DownloadState PD M).Shape L ∧
      (s.downloader.insert cd).currentBytes = s.downloader.currentBytes + cd.bytesDownloaded := by
  have hperm := Downloader.tables_insert s.downloader cd
  refine ⟨⟨?_, fun t ht => ?_, fun t ht => ?_, h.onDisk⟩, ?_⟩
  · refine (hperm.map PieceTable.index).nodup_iff.mpr
      (List.nodup_cons.mpr ⟨fun hmem => ?_, h.distinct⟩)
    obtain ⟨t, ht, hindex⟩ := List.mem_map.mp hmem
    exact Downloader.find_eq_none.mp hnew t ht hindex
  · rcases List.mem_cons.mp (hperm.mem_iff.mp ht) with rfl | ht
    · exact hwanted
    · exact h.wanted t ht
  · rcases List.mem_cons.mp (hperm.mem_iff.mp ht) with rfl | ht
    · exact hnum
    · exact h.numbers t ht
  · rw [Downloader.currentBytes, (hperm.map _).sum_eq, List.map_cons, List.sum_cons, Nat.add_comm]
    rfl

end DownloadState

end KTorrent
