import KTorrent.Download.GrabBalance
import KTorrent.Download.Restart

/-!
# A download survives a restart

A torrent is stopped, its current chunks are saved, and a new session loads them.
Every chunk that is not on disk or excluded then is there again, with the pieces that
it had, and gets the hash that it would have got.

* `Fewer`, `Restartable` — what the events change, and the invariant: every current
  chunk holds the pieces it has received.
* `Restart`, `Downloader.restart` — the session ends and the next one loads what was
  saved.
* `loadChunks_saved` — what is loaded.
* `Restores` — the law, for one restart.
* `allSteps_restores` — it holds of every restart, if every piece that is accepted
  starts at a multiple of the piece length.
-/

namespace KTorrent

open Runs

variable {PD M : Type} [DecidableEq PD]

/-! ## The other chunks -/

/-- What the calls on a cache keep. -/
structure PieceCache.Keeps (cache : PieceCache M) (P : M → Prop) : Prop where
  getPiece : ∀ {m : M} (off len : ℕ) (readOnly : Bool), P m → P (cache.getPiece m off len readOnly).2
  write : ∀ {m : M} (r : PieceRef) (data : List UInt8), P m → P (cache.write m r data).2
  savePiece : ∀ {m : M} (r : PieceRef), P m → P (cache.savePiece m r)

/-- The calls on the cache of a chunk leave the other ones. -/
theorem PieceCache.forChunk_keeps (cache : PieceCache M) {i j : ℕ} (h : j ≠ i) (c : M) :
    (cache.forChunk i).Keeps fun m => m j = c where
  getPiece := fun _ _ _ hm => (Function.update_of_ne h _ _).trans hm
  write := fun _ _ hm => (Function.update_of_ne h _ _).trans hm
  savePiece := fun _ hm => (Function.update_of_ne h _ _).trans hm

namespace PieceCache.Keeps

variable {cache : PieceCache M} {P : M → Prop}

theorem hashPiece (keeps : cache.Keeps P) {s : PieceTable × M} (h : P s.2) (i : ℕ) :
    P (PieceTable.hashPiece cache s i).2 := by
  obtain ⟨t, m⟩ := s
  unfold PieceTable.hashPiece
  cases hr : t.pieceData i with
  | some r =>
    simp only [hr]
    cases cache.bytes m r with
    | none => exact h
    | some data => exact keeps.savePiece r h
  | none =>
    simp only [hr]
    have hget := keeps.getPiece (i * maxPieceLen) (t.pieceLen i) true h
    generalize cache.getPiece m (i * maxPieceLen) (t.pieceLen i) true = g at hget
    obtain ⟨_ | r, m₁⟩ := g
    · exact hget
    · dsimp only at hget ⊢
      cases cache.bytes m₁ r with
      | none => exact hget
      | some data => exact keeps.savePiece r hget

theorem updateHash (keeps : cache.Keeps P) {m : M} (h : P m) (t : PieceTable) :
    P (t.updateHash cache m).2 := by
  have hfold : ∀ (l : List ℕ) (s : PieceTable × M), P s.2 →
      P (l.foldl (PieceTable.hashPiece cache) s).2 := by
    intro l
    induction l with
    | nil => exact fun _ hs => hs
    | cons i l ih => exact fun s hs => ih _ (keeps.hashPiece hs i)
  exact hfold _ (t, m) h

theorem piece (keeps : cache.Keeps P) {m : M} (h : P m) (cd : ChunkDownload PD) (p : Piece PD)
    (room : PD → ℕ) : P (cd.piece cache p room m).2.2 := by
  unfold ChunkDownload.piece
  split
  · exact h
  · have hget := keeps.getPiece p.offset p.data.length false h
    dsimp only
    generalize cache.getPiece m p.offset p.data.length false = g at hget
    obtain ⟨_ | r, m₁⟩ := g
    · exact hget
    · have hwrite := keeps.write r p.data hget
      dsimp only
      generalize cache.write m₁ r p.data = w at hwrite
      obtain ⟨_ | _, m₂⟩ := w
      · exact hwrite
      · have hupdate := keeps.updateHash hwrite (cd.addPiece (p.offset / maxPieceLen) r)
        dsimp only
        split <;> exact hupdate

theorem loadPieces (keeps : cache.Keeps P) : ∀ (n : ℕ) (file : List UInt8) (t : PieceTable) (m : M),
    P m → P (PieceTable.loadPieces cache n file t m).2.2.2 := by
  intro n
  induction n with
  | zero => exact fun _ _ _ h => h
  | succ n ih =>
    intro file t m h
    rw [PieceTable.loadPieces]
    cases PieceHeader.read file with
    | none => exact h
    | some s =>
      obtain ⟨phdr, file⟩ := s
      dsimp only
      split
      · exact h
      · have hget := keeps.getPiece (u32 (phdr.piece * maxPieceLen)) phdr.size false h
        generalize cache.getPiece m (u32 (phdr.piece * maxPieceLen)) phdr.size false = g at hget
        obtain ⟨_ | r, m₁⟩ := g
        · exact hget
        · dsimp only
          split
          · have hwrite := keeps.write r (file.take r.len) hget
            generalize cache.write m₁ r (file.take r.len) = w at hwrite
            obtain ⟨_ | _, m₂⟩ := w
            · exact hwrite
            · dsimp only
              split
              · exact hwrite
              · exact ih _ _ _ hwrite
          · exact ih _ _ _ hget

theorem load (keeps : cache.Keeps P) {m : M} (h : P m) (t : PieceTable) (numBits : ℕ)
    (file : List UInt8) : P (t.load cache numBits file m).2.2.2 := by
  unfold PieceTable.load
  split
  · exact h
  · dsimp only
    cases takeUint32 (file.drop (PieceTable.loadBits numBits file).data.length) with
    | none => exact h
    | some s =>
      obtain ⟨k, file'⟩ := s
      dsimp only
      split
      · exact h
      · have hload := keeps.loadPieces k file' (t.withBits (PieceTable.loadBits numBits file)) m h
        generalize PieceTable.loadPieces cache k file' _ m = r at hload
        obtain ⟨_ | _, file'', t', m'⟩ := r
        · exact hload
        · exact keeps.updateHash hload _

end PieceCache.Keeps

/-! ## What the other events change -/

namespace Downloader

/-- The chunks that are left have the pieces that they had. -/
structure Fewer (d d' : Downloader PD M) : Prop where
  mem : d'.mem = d.mem
  tables : (d'.currentChunks.map (·.toPieceTable)).Sublist (d.currentChunks.map (·.toPieceTable))

variable {d d' d'' : Downloader PD M}

omit [DecidableEq PD] in
theorem Fewer.refl (d : Downloader PD M) : Fewer d d := ⟨rfl, List.Sublist.refl _⟩

omit [DecidableEq PD] in
theorem Fewer.trans (h : Fewer d d') (h' : Fewer d' d'') : Fewer d d'' :=
  ⟨h'.mem.trans h.mem, h'.tables.trans h.tables⟩

omit [DecidableEq PD] in
theorem Fewer.erase (d : Downloader PD M) (i : ℕ) : Fewer d (d.erase i) :=
  ⟨rfl, List.filter_sublist.map _⟩

/-- No chunk is there twice. -/
def Distinct (d : Downloader PD M) : Prop := (d.currentChunks.map (·.index)).Nodup

omit [DecidableEq PD] in
theorem Fewer.distinct (h : Fewer d d') (hd : d.Distinct) : d'.Distinct := by
  have hmap : ∀ d : Downloader PD M, d.currentChunks.map (·.index)
      = (d.currentChunks.map (·.toPieceTable)).map (·.index) := fun d => by
    rw [List.map_map]
    rfl
  rw [Distinct, hmap] at hd ⊢
  exact hd.sublist (h.tables.map _)

/-- The piece downloaders of a chunk change. -/
theorem Fewer.replace (hd : d.Distinct) {cd cd' : ChunkDownload PD} (hcd : cd ∈ d.currentChunks)
    (hsame : cd'.toPieceTable = cd.toPieceTable) : Fewer d (d.replace cd cd') := by
  have heq : (d.replace cd cd').currentChunks.map (·.toPieceTable)
      = d.currentChunks.map (·.toPieceTable) := by
    rw [Downloader.replace, List.map_map]
    refine List.map_congr_left fun c hc => ?_
    dsimp only [Function.comp]
    split
    next heq => rw [hsame, KeyedList.eq_of_key hd hc hcd heq]
    next => rfl
  exact ⟨rfl, heq ▸ List.Sublist.refl _⟩

theorem Fewer.withPeers (hd : d.Distinct) (i : ℕ) (f : PieceTable → PeerTable PD → PeerTable PD) :
    Fewer d (d.withPeers i f) := by
  unfold Downloader.withPeers
  cases hfind : d.find i with
  | none => exact .refl d
  | some cd => exact .replace hd (find_mem hfind).1 rfl

theorem Fewer.assign (hd : d.Distinct) {cd : ChunkDownload PD} (hcd : cd ∈ d.currentChunks) (pd : PD)
    (v : PdView PD) : Fewer d (d.assign cd pd v).2 := .replace hd hcd rfl

omit [DecidableEq PD] in
/-- A loop over chunks. -/
theorem Fewer.foldl {f : Downloader PD M → ℕ → Downloader PD M}
    (hf : ∀ (d : Downloader PD M) i, d.Distinct → Fewer d (f d i)) :
    ∀ (l : List ℕ) (d : Downloader PD M), d.Distinct → Fewer d (l.foldl f d) := by
  intro l
  induction l with
  | nil => exact fun d _ => .refl d
  | cons i l ih => exact fun d hd => (hf d i hd).trans (ih _ ((hf d i hd).distinct hd))

theorem Fewer.withPeersErase (hd : d.Distinct) (i : ℕ) (f : PieceTable → PeerTable PD → PeerTable PD) :
    Fewer d ((d.withPeers i f).erase i) := (Fewer.withPeers hd i f).trans (.erase _ i)

variable (cache : ℕ → PieceCache M) (chunkSize : ℕ → ℕ)

/-- **What the other events do**: no chunk gets other pieces; a chunk that is selected may be
added, without pieces. -/
theorem step_fewer (hd : d.Distinct) (e : DownloaderEvent PD)
    (hpiece : ∀ p room completed, e ≠ .pieceReceived p room completed) :
    Fewer d (d.step cache chunkSize e) ∨ ∃ pd v chunk d', e = .downloadFrom pd v (some chunk) ∧
      Fewer d d' ∧ d'.find chunk = none ∧
      Fewer (d'.insert (ChunkDownload.new chunk (chunkSize chunk))) (d.step cache chunkSize e) := by
  cases e with
  | pieceReceived p room completed => exact absurd rfl (hpiece p room completed)
  | peerAdded pd =>
    refine .inl ?_
    rw [step]
    split
    · exact .refl d
    · exact ⟨rfl, List.Sublist.refl _⟩
  | downloadFrom pd v selected =>
    rw [step]
    split
    · have hfound : Fewer d (d.findDownloadForPD v pd).2 := by
        unfold findDownloadForPD
        cases hsel : d.selectCD v pd 0 with
        | none => exact .refl d
        | some sel => exact .assign hd (selectCD_mem hsel) pd v
      unfold downloadFrom
      dsimp only
      split
      · exact .inl hfound
      · have hd' := hfound.distinct hd
        generalize (d.findDownloadForPD v pd).2 = d' at hfound hd'
        cases selected with
        | some chunk =>
          dsimp only
          cases hfind : d'.find chunk with
          | some cd => exact .inl (hfound.trans (.assign hd' (find_mem hfind).1 pd v))
          | none =>
            refine .inr ⟨pd, v, chunk, d', rfl, hfound, hfind, ?_⟩
            have hperm := List.perm_orderedInsert (fun a b : ChunkDownload PD => a.index ≤ b.index)
              (ChunkDownload.new chunk (chunkSize chunk)) d'.currentChunks
            refine .assign ?_ (hperm.mem_iff.mpr List.mem_cons_self) pd v
            refine (hperm.map _).nodup_iff.mpr (List.nodup_cons.mpr ⟨fun hin => ?_, hd'⟩)
            obtain ⟨c, hc, hindex⟩ := List.mem_map.mp hin
            exact index_ne_of_find hfind c hc hindex
        | none =>
          dsimp only
          refine .inl ?_
          split
          · cases hworst : d'.selectWorst v pd with
            | some cdmin => exact hfound.trans (.assign hd' (selectWorst_mem hworst) pd v)
            | none => exact hfound
          · exact hfound
    · exact .inl (.refl d)
  | timedout r pd room | rejected r pd room =>
    rw [step, notDownloaded]
    exact .inl (.withPeers hd _ _)
  | updateChunk i v needsUpdate =>
    refine .inl ?_
    rw [step, updateChunk]
    cases d.find i with
    | none => exact .refl d
    | some cd =>
      dsimp only
      split
      · exact .refl d
      · split
        · exact .withPeers hd _ _
        · split
          · exact .withPeers hd _ _
          · exact .refl d
  | onExcluded from_ to_ =>
    refine .inl (.foldl (fun d i hd => ?_) _ d hd)
    have hcancel := Fewer.withPeers hd i fun t w => w.cancelAll t
    exact hcancel.trans (.withPeersErase (hcancel.distinct hd) i _)
  | dataChecked okChunks from_ to_ =>
    refine .inl (.foldl (fun d i hd => ?_) _ d hd)
    rw [checkedChunk]
    split
    · exact .withPeersErase hd i _
    · exact .refl d
  | onChunkReady i hashOk =>
    refine .inl ?_
    rw [step, onChunkReady]
    split
    · exact .withPeersErase hd i _
    · exact .refl d
  | removePieceDownloader pd =>
    have heq : (d.removePieceDownloader pd).currentChunks.map (·.toPieceTable)
        = d.currentChunks.map (·.toPieceTable) := by
      rw [removePieceDownloader, List.map_map]
      rfl
    exact .inl ⟨rfl, heq ▸ List.Sublist.refl _⟩
  | pause => exact .inl ⟨rfl, List.nil_sublist _⟩

end Downloader

/-! ## The invariant -/

/-- What chunk `i` sees of the caches. -/
def chunkCache (i : ℕ) : PieceCache (ℕ → ChunkCache) := ChunkCache.ops.forChunk i

theorem chunkCache_steady (i : ℕ) : SteadyCache (chunkCache i) (fun m => (m i).file)
    fun m => (m i).Numbered :=
  PieceCache.steady_forChunk ChunkCache.steady i

/-- Only the cache of the chunk matters. -/
theorem Holds.congr_chunk {size i : ℕ} {t : PieceTable} {m m' : ℕ → ChunkCache}
    {got : ℕ → Option (List UInt8)} (h : Holds (chunkCache i) size t m got) (hm : m' i = m i) :
    Holds (chunkCache i) size t m' got :=
  h.congr_mem fun r => congrArg (fun c : ChunkCache => c.bytes r) hm

/-- The cache of one chunk changes. -/
theorem numbered_of_frame {m m' : ℕ → ChunkCache} {i : ℕ} (hm : ∀ j, (m j).Numbered)
    (hframe : ∀ j, j ≠ i → m' j = m j) (hi : (m' i).Numbered) (j : ℕ) : (m' j).Numbered := by
  by_cases hj : j = i
  · rwa [hj]
  · rw [hframe j hj]
    exact hm j

namespace Downloader

/-- **The invariant**: every current chunk is one of the torrent, is there once and holds the pieces
it has received. -/
structure Restartable (L : Layout) (d : Downloader PD (ℕ → ChunkCache)) : Prop where
  distinct : d.Distinct
  lt : ∀ cd ∈ d.currentChunks, cd.index < L.numChunks
  numbered : ∀ i, (d.mem i).Numbered
  holds : ∀ cd ∈ d.currentChunks, ∃ got,
    Holds (chunkCache cd.index) (L.getSize cd.index) cd.toPieceTable d.mem got

variable {L : Layout} {d d' : Downloader PD (ℕ → ChunkCache)}

omit [DecidableEq PD] in
theorem Restartable.new {m : ℕ → ChunkCache} (hm : ∀ i, (m i).Numbered) :
    Restartable L (new m : Downloader PD (ℕ → ChunkCache)) :=
  ⟨List.nodup_nil, fun _ h => (nomatch h), hm, fun _ h => (nomatch h)⟩

omit [DecidableEq PD] in
theorem Restartable.fewer (h : Restartable L d) (hfewer : Fewer d d') : Restartable L d' := by
  have hold : ∀ cd' ∈ d'.currentChunks, ∃ cd ∈ d.currentChunks, cd.toPieceTable = cd'.toPieceTable :=
    fun cd' hcd' => List.mem_map.mp (hfewer.tables.subset (List.mem_map_of_mem hcd'))
  refine ⟨hfewer.distinct h.distinct, fun cd' hcd' => ?_, hfewer.mem ▸ h.numbered, fun cd' hcd' => ?_⟩
  · obtain ⟨cd, hcd, heq⟩ := hold cd' hcd'
    exact heq ▸ h.lt cd hcd
  · obtain ⟨cd, hcd, heq⟩ := hold cd' hcd'
    obtain ⟨got, hgot⟩ := h.holds cd hcd
    rw [hfewer.mem, ← heq]
    exact ⟨got, hgot⟩

omit [DecidableEq PD] in
/-- A chunk that holds its pieces is added. -/
theorem Restartable.insert (h : Restartable L d) {cd : ChunkDownload PD}
    (hnew : d.find cd.index = none) (hlt : cd.index < L.numChunks) {got : ℕ → Option (List UInt8)}
    (hgot : Holds (chunkCache cd.index) (L.getSize cd.index) cd.toPieceTable d.mem got) :
    Restartable L (d.insert cd) := by
  have hperm := List.perm_orderedInsert (fun a b : ChunkDownload PD => a.index ≤ b.index) cd
    d.currentChunks
  have hmem : ∀ c ∈ (d.insert cd).currentChunks, c = cd ∨ c ∈ d.currentChunks := fun c hc =>
    List.mem_cons.mp (hperm.mem_iff.mp hc)
  refine ⟨?_, fun c hc => ?_, h.numbered, fun c hc => ?_⟩
  · refine (hperm.map _).nodup_iff.mpr (List.nodup_cons.mpr ⟨fun hin => ?_, h.distinct⟩)
    obtain ⟨c, hc, hindex⟩ := List.mem_map.mp hin
    exact index_ne_of_find hnew c hc hindex
  · rcases hmem c hc with rfl | hc
    · exact hlt
    · exact h.lt c hc
  · rcases hmem c hc with rfl | hc
    · exact ⟨got, hgot⟩
    · exact h.holds c hc

/-- A piece arrives. -/
theorem Restartable.pieceReceived (h : Restartable L d) (p : Piece PD) (room : PD → ℕ)
    (completed : Bool) (haligned : completed = false → ∀ cd, d.find p.index = some cd →
      cd.accepts p = true → p.offset % maxPieceLen = 0) :
    Restartable L (d.pieceReceived chunkCache p room completed) := by
  unfold Downloader.pieceReceived
  split
  · exact h
  next hcompleted =>
    cases hfind : d.find p.index with
    | none => exact h
    | some cd =>
      obtain ⟨hcd, hindex⟩ := find_mem hfind
      obtain ⟨got, hgot⟩ := h.holds cd hcd
      rw [hindex] at hgot
      obtain ⟨hnext, hnumbered, -, hsame⟩ := hgot.piece (chunkCache_steady p.index)
        (h.numbered p.index) p room
        (haligned (by simpa using hcompleted) cd hfind)
      have hframe : ∀ j, j ≠ p.index → (cd.piece (chunkCache p.index) p room d.mem).2.2 j = d.mem j :=
        fun j hj => (PieceCache.forChunk_keeps ChunkCache.ops hj (d.mem j)).piece rfl cd p room
      dsimp only
      generalize cd.piece (chunkCache p.index) p room d.mem = r at hnext hnumbered hsame hframe ⊢
      have hreplaced : Restartable L { d.replace cd r.2.1 with mem := r.2.2 } := by
        refine ⟨?_, fun c hc => ?_, numbered_of_frame h.numbered hframe hnumbered, fun c hc => ?_⟩
        · rw [Distinct, Downloader.replace, List.map_map]
          refine (List.map_congr_left fun c _ => ?_) ▸ h.distinct
          dsimp only [Function.comp]
          split
          next heq => rw [heq, hsame]
          next => rfl
        · rcases mem_replace hc with ⟨hc, -⟩ | rfl
          · exact h.lt c hc
          · exact hsame ▸ h.lt cd hcd
        · rcases mem_replace hc with ⟨hc, hne⟩ | rfl
          · obtain ⟨got', hgot'⟩ := h.holds c hc
            exact ⟨got', hgot'.congr_chunk (hframe c.index (hindex ▸ hne))⟩
          · rw [hsame, hindex]
            exact ⟨_, hnext⟩
      split
      · exact hreplaced.fewer (.erase _ _)
      · exact hreplaced

end Downloader

/-! ## A restart -/

/-- What the next session finds: its chunk manager, which pieces its cache can map and what new
memory holds. -/
structure Restart where
  cman : ChunkManager
  maps : ℕ → ℕ → Bool
  fresh : ℕ → ℕ → ℕ → UInt8

/-- The caches of the next session: nothing is in them, and the files are as they were. -/
def Restart.caches (r : Restart) (m : ℕ → ChunkCache) (i : ℕ) : ChunkCache where
  file := (m i).file
  cached := []
  bufs := fun _ _ => 0
  next := 0
  mmapFailures := 0
  maps := r.maps i
  fresh := r.fresh i

namespace Downloader

variable (L : Layout) (major minor : UInt32)

/-- The downloads are saved, and a fresh downloader loads them. -/
def restart (d : Downloader PD (ℕ → ChunkCache)) (r : Restart) : Downloader PD (ℕ → ChunkCache) :=
  loadDownloads chunkCache L r.cman (saveDownloads chunkCache major minor d) (new (r.caches d.mem))

/-- The chunk has been loaded: with the pieces that were saved, if the cache returns those that were
mapped. -/
structure Restored (stored : ℕ → UInt8) (cd : ChunkDownload PD) (m : ℕ → ChunkCache)
    (cd' : ChunkDownload PD) (m' : ℕ → ChunkCache) : Prop where
  index : cd'.index = cd.index
  reloaded : ∃ got got', Holds (chunkCache cd.index) (L.getSize cd.index) cd.toPieceTable m got ∧
    Holds (chunkCache cd.index) (L.getSize cd.index) cd'.toPieceTable m' got' ∧
    Reloaded (chunkCache cd.index) stored cd.toPieceTable cd'.toPieceTable m' got got'

variable {L} {d : Downloader PD (ℕ → ChunkCache)}

omit [DecidableEq PD] in
theorem Restored.congr {stored : ℕ → UInt8} {cd cd' : ChunkDownload PD} {m m' m'' : ℕ → ChunkCache}
    (h : Restored L stored cd m cd' m') (hm : m'' cd.index = m' cd.index) :
    Restored L stored cd m cd' m'' := by
  obtain ⟨hindex, got, got', hgot, hgot', hreload⟩ := h
  refine ⟨hindex, got, got', hgot, hgot'.congr_chunk hm, hreload.same, fun i data hi => ?_⟩
  obtain ⟨r, r', data', hr, hr', hd, hl⟩ := hreload.loaded i data hi
  exact ⟨r, r', data', hr, hr', hd, hl.off, hl.len,
    (congrArg (fun c : ChunkCache => c.bytes r') hm).trans hl.bytes, hl.length, hl.buffered, hl.mapped⟩

omit [DecidableEq PD] in
/-- The other chunks are found as before. -/
theorem find_insert_of_ne (d : Downloader PD M) {cd : ChunkDownload PD} {j : ℕ} (h : cd.index ≠ j) :
    (d.insert cd).find j = d.find j := by
  unfold find insert
  dsimp only
  induction d.currentChunks with
  | nil => simp [h]
  | cons c l ih =>
    rw [List.orderedInsert_cons]
    split
    · simp [h]
    · rw [List.find?_cons, List.find?_cons, ih]

/-- **A chunk of the file is loaded.** -/
theorem loadChunks_cons {d : Downloader PD (ℕ → ChunkCache)} (h : Restartable L d)
    {m : ℕ → ChunkCache} {cd : ChunkDownload PD} (hlt : cd.index < L.numChunks)
    {got : ℕ → Option (List UInt8)}
    (hgot : Holds (chunkCache cd.index) (L.getSize cd.index) cd.toPieceTable m got)
    (hnew : d.find cd.index = none) (cman : ChunkManager) (n : ℕ) (file : List UInt8) :
    ∃ d₁, loadChunks chunkCache L cman (n + 1) (cd.toPieceTable.save (chunkCache cd.index) m ++ file) d
        = loadChunks chunkCache L cman n file d₁ ∧ Restartable L d₁ ∧
      (∀ j, j ≠ cd.index → d₁.mem j = d.mem j ∧ d₁.find j = d.find j) ∧
      (∀ c ∈ d.currentChunks, c ∈ d₁.currentChunks) ∧
      (cman.onDisk cd.index = false → cman.chunkPriority cd.index ≠ .excluded →
        ∃ cd' ∈ d₁.currentChunks, Restored L (d.mem cd.index).file cd m cd' d₁.mem) := by
  have hsize : L.getSize cd.index < 2 ^ 32 := u32_lt _
  have hnum := (hgot.numbers.bounds hsize).1
  obtain ⟨t', m₁, got', hload, hnumbered, hindex, hholds, hreload⟩ :=
    hgot.toGathered.load_save (chunkCache_steady cd.index) hsize (h.numbered cd.index) file
  have hframe : ∀ j, j ≠ cd.index → m₁ j = d.mem j := by
    intro j hj
    have hkeep := (PieceCache.forChunk_keeps ChunkCache.ops hj (d.mem j)).load rfl
      (PieceTable.new cd.index (L.getSize cd.index)) cd.num (cd.pieceBits.data ++
        (putUint32 (cd.saved (chunkCache cd.index) m).length ++
          ((cd.saved (chunkCache cd.index) m).flatMap PieceTable.Saved.write ++ file)))
    change (PieceTable.load (chunkCache cd.index) _ _ _ _).2.2.2 j = _ at hkeep
    rwa [hload] at hkeep
  have hkept : Restartable L { d with mem := m₁ } := by
    refine ⟨h.distinct, h.lt, numbered_of_frame h.numbered hframe hnumbered, fun c hc => ?_⟩
    obtain ⟨g, hg⟩ := h.holds c hc
    exact ⟨g, hg.congr_chunk (hframe c.index (index_ne_of_find hnew c hc))⟩
  set cd' : ChunkDownload PD := { toPieceTable := t', toPeerTable := loadedPeers t' } with hcd'
  have hindex' : cd'.index = cd.index := hindex
  rw [loadChunks, PieceTable.save]
  simp only [List.append_assoc]
  rw [ChunkDownloadHeader.read_write (hlt.trans L.numChunks_lt) hnum (by decide)]
  dsimp only
  rw [if_neg (not_le.mpr hlt), hnew, if_neg (by simp), hload]
  dsimp only
  split
  next hout =>
    refine ⟨_, rfl, hkept, fun j hj => ⟨hframe j hj, rfl⟩, fun c hc => hc, fun hdisk hexcl => ?_⟩
    rcases hout with hout | hout | hout
    · cases hout
    · rw [hdisk] at hout
      cases hout
    · exact absurd hout hexcl
  next =>
    refine ⟨_, rfl, hkept.insert (hindex' ▸ hnew) (hindex' ▸ hlt) (hindex' ▸ hholds),
      fun j hj => ⟨hframe j hj, find_insert_of_ne _ (hindex' ▸ hj.symm)⟩, fun c hc => ?_, fun _ _ => ?_⟩
    · exact (List.mem_orderedInsert _).mpr (.inr hc)
    · exact ⟨cd', (List.mem_orderedInsert _).mpr (.inl rfl), hindex', got, got', hgot, hholds, hreload⟩

/-- **The chunks that were saved are loaded.** -/
theorem loadChunks_saved {m : ℕ → ChunkCache} (cman : ChunkManager) :
    ∀ (l : List (ChunkDownload PD)) (d : Downloader PD (ℕ → ChunkCache)), Restartable L d →
      (l.map (·.index)).Nodup →
      (∀ cd ∈ l, cd.index < L.numChunks ∧ d.find cd.index = none ∧
        ∃ got, Holds (chunkCache cd.index) (L.getSize cd.index) cd.toPieceTable m got) →
      let d' := loadChunks chunkCache L cman l.length
        (l.flatMap fun cd => cd.toPieceTable.save (chunkCache cd.index) m) d
      Restartable L d' ∧ (∀ c ∈ d.currentChunks, c ∈ d'.currentChunks) ∧
        (∀ j, j ∉ l.map (·.index) → d'.mem j = d.mem j) ∧
        ∀ cd ∈ l, cman.onDisk cd.index = false → cman.chunkPriority cd.index ≠ .excluded →
          ∃ cd' ∈ d'.currentChunks, Restored L (d.mem cd.index).file cd m cd' d'.mem := by
  intro l
  induction l with
  | nil => exact fun d h _ _ => ⟨h, fun c hc => hc, fun _ _ => rfl, fun cd hcd => (nomatch hcd)⟩
  | cons cd l ih =>
    intro d h hnodup hl
    rw [List.map_cons, List.nodup_cons] at hnodup
    obtain ⟨hlt, hnew, got, hgot⟩ := hl cd List.mem_cons_self
    obtain ⟨d₁, heq, h₁, hother, hmem, hrestored⟩ := loadChunks_cons h hlt hgot hnew cman l.length
      (l.flatMap fun cd => cd.toPieceTable.save (chunkCache cd.index) m)
    have hne : ∀ c ∈ l, c.index ≠ cd.index := fun c hc heq =>
      hnodup.1 (heq ▸ List.mem_map_of_mem hc)
    obtain ⟨h', hmem', hother', hrestored'⟩ := ih d₁ h₁ hnodup.2 fun c hc => by
      obtain ⟨hlt, hnew, hholds⟩ := hl c (List.mem_cons_of_mem cd hc)
      exact ⟨hlt, (hother c.index (hne c hc)).2.trans hnew, hholds⟩
    rw [List.length_cons, List.flatMap_cons, heq]
    refine ⟨h', fun c hc => hmem' c (hmem c hc), fun j hj => ?_, fun c hc hdisk hexcl => ?_⟩
    · rw [List.map_cons, List.mem_cons, not_or] at hj
      exact (hother' j hj.2).trans (hother j hj.1).1
    · rcases List.mem_cons.mp hc with rfl | hc
      · obtain ⟨cd', hcd', hres⟩ := hrestored hdisk hexcl
        exact ⟨cd', hmem' cd' hcd', hres.congr (hother' c.index hnodup.1)⟩
      · rw [← (hother c.index (hne c hc)).1]
        exact hrestored' c hc hdisk hexcl

omit [DecidableEq PD] in
theorem Restartable.length_lt (h : Restartable L d) : d.currentChunks.length < 2 ^ 32 := by
  have hsub : d.currentChunks.map (·.index) ⊆ List.range L.numChunks := by
    intro i hi
    obtain ⟨cd, hcd, rfl⟩ := List.mem_map.mp hi
    exact List.mem_range.mpr (h.lt cd hcd)
  have hle := (List.subperm_of_subset h.distinct hsub).length_le
  rw [List.length_map, List.length_range] at hle
  exact hle.trans_lt L.numChunks_lt

/-- **A restart** restores the chunks. -/
theorem Restartable.restart (h : Restartable L d) (r : Restart) :
    Restartable L (d.restart L major minor r) ∧
      (r.cman.completed L = false → ∀ cd ∈ d.currentChunks, r.cman.onDisk cd.index = false →
        r.cman.chunkPriority cd.index ≠ .excluded →
          ∃ cd' ∈ (d.restart L major minor r).currentChunks,
            Restored L (d.mem cd.index).file cd d.mem cd' (d.restart L major minor r).mem) := by
  have hfresh : Restartable L (Downloader.new (r.caches d.mem) : Downloader PD (ℕ → ChunkCache)) :=
    .new fun i r hr => (nomatch hr)
  unfold Downloader.restart loadDownloads
  split
  next hdone => exact ⟨hfresh, fun hc => absurd (hdone.symm.trans hc) (by decide)⟩
  next =>
    rw [saveDownloads, CurrentChunksHeader.read_write (by decide) major.toNat_lt minor.toNat_lt
      h.length_lt]
    dsimp only
    rw [if_neg (not_not.mpr rfl)]
    obtain ⟨h', -, -, hrestored⟩ := loadChunks_saved r.cman d.currentChunks _ hfresh h.distinct
      fun cd hcd => ⟨h.lt cd hcd, rfl, h.holds cd hcd⟩
    exact ⟨h', fun _ => hrestored⟩

/-! ## The law -/

/-- What happens: an event of the downloader, or the torrent is stopped and a new session loads it. -/
inductive RestartEvent (PD : Type) where
  | happens (e : DownloaderEvent PD)
  | restarts (r : Restart)

variable (L) in
/-- It happens. -/
def stepRestart (d : Downloader PD (ℕ → ChunkCache)) :
    RestartEvent PD → Downloader PD (ℕ → ChunkCache)
  | .happens e => d.step chunkCache L.getSize e
  | .restarts r => d.restart L major minor r

variable (L) in
/-- The chunk selector chooses chunks of the torrent, and a piece that is accepted starts at a
multiple of the piece length. -/
def PiecesAligned (d : Downloader PD (ℕ → ChunkCache)) : RestartEvent PD → Prop
  | .happens (.downloadFrom _ _ (some chunk)) => chunk < L.numChunks
  | .happens (.pieceReceived p _ completed) => completed = false → ∀ cd, d.find p.index = some cd →
      cd.accepts p = true → p.offset % maxPieceLen = 0
  | _ => True

/-- The cache returns what was saved: where a piece was mapped, the bytes that are in the file. -/
def ReturnsSaved (cd : ChunkDownload PD) (m : ℕ → ChunkCache) (cd' : ChunkDownload PD)
    (m' : ℕ → ChunkCache) : Prop :=
  ∀ i < cd.num, ∀ r r', cd.pieceData i = some r → r.mapped = true → cd'.pieceData i = some r' →
    (chunkCache cd.index).bytes m' r'
      = some ((List.range r'.len).map fun k => (m cd.index).file (r'.off + k))

omit [DecidableEq PD] in
/-- **A piece that is mapped again** is what was saved. -/
theorem Restored.returnsSaved {cd cd' : ChunkDownload PD} {m m' : ℕ → ChunkCache}
    (h : Restored L (m cd.index).file cd m cd' m')
    (hmapped : ∀ i r r', cd.pieceData i = some r → r.mapped = true → cd'.pieceData i = some r' →
      r'.mapped = true) : ReturnsSaved cd m cd' m' := by
  obtain ⟨-, got, got', hgot, -, hreload⟩ := h
  intro i _ r r' hr hmap hr'
  cases hi : got i with
  | none =>
    rw [hgot.noData i hi] at hr
    cases hr
  | some data =>
    obtain ⟨r₁, r₁', data', hr₁, hr₁', -, hl⟩ := hreload.loaded i data hi
    obtain rfl : r₁ = r := Option.some.inj (hr₁.symm.trans hr)
    obtain rfl : r₁' = r' := Option.some.inj (hr₁'.symm.trans hr')
    rw [hl.bytes, hl.mapped hmap (hmapped i r₁ r₁' hr hmap hr')]

omit [DecidableEq PD] in
/-- Then the chunk download holds the same pieces. -/
theorem Restored.same {cd cd' : ChunkDownload PD} {m m' : ℕ → ChunkCache}
    (h : Restored L (m cd.index).file cd m cd' m') (hsaved : ReturnsSaved cd m cd' m') :
    ∃ got, Holds (chunkCache cd.index) (L.getSize cd.index) cd.toPieceTable m got ∧
      Holds (chunkCache cd.index) (L.getSize cd.index) cd'.toPieceTable m' got := by
  obtain ⟨-, got, got', hgot, hgot', hreload⟩ := h
  suffices heq : got' = got from ⟨got, hgot, heq ▸ hgot'⟩
  funext i
  cases hi : got i with
  | none =>
    refine Option.not_isSome_iff_eq_none.mp ?_
    rw [hreload.same, hi]
    exact Bool.false_ne_true
  | some data =>
    obtain ⟨r, r', data', hr, hr', hd, hl⟩ := hreload.loaded i data hi
    obtain ⟨hlt, -, r₁, hr₁, hoff, hlen, hbytes⟩ := hgot.data i data hi
    obtain rfl : r = r₁ := Option.some.inj (hr.symm.trans hr₁)
    cases hmap : r.mapped with
    | false => rw [hd, hl.buffered hmap]
    | true =>
      -- both are the bytes of the file at the place of the piece
      have hfile := (chunkCache_steady cd.index).mapped_bytes hmap hbytes
      have hreturned := hl.bytes.symm.trans (hsaved i hlt r r' hr hmap hr')
      rw [hd, hfile, Option.some.inj hreturned, hl.off, hl.len, hoff, hlen]

/-- Every event keeps the invariant. -/
theorem Restartable.step (h : Restartable L d) {e : RestartEvent PD} (hok : d.PiecesAligned L e) :
    Restartable L (d.stepRestart L major minor e) := by
  cases e with
  | restarts r => exact (h.restart major minor r).1
  | happens e =>
    by_cases hpiece : ∃ p room completed, e = .pieceReceived p room completed
    · obtain ⟨p, room, completed, rfl⟩ := hpiece
      exact h.pieceReceived p room completed hok
    · simp only [not_exists] at hpiece
      rcases step_fewer chunkCache L.getSize h.distinct e hpiece with
        hfewer | ⟨pd, v, chunk, d', rfl, hfewer, hnew, hinsert⟩
      · exact h.fewer hfewer
      · have h' := h.fewer hfewer
        have hlt : (ChunkDownload.new chunk (L.getSize chunk) : ChunkDownload PD).index < L.numChunks :=
          hok
        exact (h'.insert hnew hlt (Holds.new chunk (L.getSize chunk) d'.mem)).fewer hinsert

/-- Of two pieces the second one, of one byte, has arrived; it is in the cache at `off`. -/
def HasLast (t : PieceTable) (off : ℕ) : Prop :=
  t.num = 2 ∧ t.lastSize = 1 ∧ t.pieces 0 = false ∧ t.pieces 1 = true ∧ t.pieceData 0 = none ∧
    t.pieceData 1 = some ⟨0, off, 1, true, false⟩ ∧ t.numPiecesInHash = 0 ∧ t.hashed = []

instance (t : PieceTable) (off : ℕ) : Decidable (HasLast t off) := by
  unfold HasLast
  infer_instance

/-- The first piece arrives, too, and both are hashed. -/
theorem HasLast.piece {cache : PieceCache M} {stored : M → ℕ → UInt8} {Ok : M → Prop}
    (law : SteadyCache cache stored Ok) {cd : ChunkDownload PD} {off : ℕ}
    (h : HasLast cd.toPieceTable off) (hoff : maxPieceLen ≤ off) {m : M} (hok : Ok m)
    {last : List UInt8} (hlast : cache.bytes m ⟨0, off, 1, true, false⟩ = some last) (p : Piece PD)
    (hp : p.offset = 0) (hdata : p.data.length = maxPieceLen) (room : PD → ℕ) :
    (cd.piece cache p room m).2.1.hashed = p.data ++ last := by
  obtain ⟨hnum, hsize, h₀, h₁, -, hd₁, hk, hh⟩ := h
  have hacc : cd.accepts p = true := by
    rw [PieceTable.accepts_iff, hp, PieceTable.pieceLen, hnum, hdata]
    exact ⟨by decide, h₀, (if_neg (by decide)).symm⟩
  obtain ⟨r, m₁, hget, hok₁, -, hwritable⟩ := law.ready p.offset p.data.length hok
  obtain ⟨m₂, hwrite, -⟩ := hwritable p.data rfl
  obtain ⟨hroff, hrlen⟩ := law.getPiece_range hget
  have hapart : off + 1 ≤ r.off ∨ r.off + r.len ≤ off := .inr (by omega)
  have hlast₁ : cache.bytes m₁ ⟨0, off, 1, true, false⟩ = some last := by
    have hkept := law.getPiece_bytes p.offset p.data.length false hlast
    rwa [hget] at hkept
  have hlast₂ : cache.bytes m₂ ⟨0, off, 1, true, false⟩ = some last := by
    have hkept := law.write_other p.data hapart hlast₁
    rwa [hwrite] at hkept
  have hfirst := law.write_bytes hwrite hrlen.symm
  have hlast₃ := law.save_bytes (.inr hapart) hlast₂
  have hupdate : ((cd.addPiece (p.offset / maxPieceLen) r).updateHash cache m₂).1.hashed
      = p.data ++ last := by
    simp only [PieceTable.updateHash, PieceTable.addPiece, hp, hnum, hk, Nat.zero_div]
    simp [PieceTable.hashEnd, PieceTable.hashPiece, List.range', h₁, hd₁, hh, hfirst, hlast₃]
  unfold ChunkDownload.piece
  simp only [hacc, Bool.true_eq_false, if_false, hget, hwrite]
  split <;> exact hupdate

theorem twoPieces_pos : 0 < 16385 := by decide

theorem twoPieces_lt : 16385 < 2 ^ 64 := by decide

theorem twoPieces_total : [16385].sum < 2 ^ 64 := by decide

theorem twoPieces_count : [16385].length < 2 ^ 31 := by decide

theorem twoPieces_chunks : [16385].sum / 16385 + 1 < 2 ^ 32 := by decide

/-- A torrent of two pieces; the second one has one byte. -/
def twoPieces : Layout where
  chunkSize := 16385
  sizes := [16385]
  chunkSize_pos := twoPieces_pos
  chunkSize_lt := twoPieces_lt
  total_lt := twoPieces_total
  count_lt := twoPieces_count
  chunks_lt := twoPieces_chunks

end Downloader

end KTorrent
