import KTorrent.Lib.Run
import KTorrent.Torrent.TorrentFile

/-!
# In which files does a chunk lie?

The model of `Torrent::calcChunkPos`: a binary search for a file of the chunk,
which starts from the position of the previous call when the chunk does not come
before the previous one, followed by a scan that collects the files.

* `PosCache` — the position left by the previous call, with the fact that makes
  it a lower bound for later chunks.
* `searchPos_spec` — no file in front of the position the search ends at has data
  of the chunk.
* `calcChunkPos_eq` — the result is that of a plain scan over all files, whatever
  the earlier calls were, and the list is never empty for a chunk of the torrent.
* `calcAfter_eq_scan` — the same for a torrent that has seen any calls.
-/

namespace KTorrent

/-- The chunk lies between the first and the last chunk of the file. -/
def TorrentFile.inRange (c : ℕ) (f : TorrentFile) : Bool :=
  decide (f.firstChunk ≤ c) && decide (c ≤ f.lastChunk)

/-- The inner loop: back to the first file of the chunk. -/
def backTo (files : List TorrentFile) (chunk : ℕ) : ℕ → ℕ
  | 0 => 0
  | i + 1 =>
    match files[i]? with
    | none => i + 1
    | some f => if f.inRange chunk then backTo files chunk i else i + 1

/-- The binary search.  Each round shrinks the interval, whose length bounds the
number of rounds. -/
def searchPos (files : List TorrentFile) (chunk : ℕ) : ℕ → ℕ → ℕ → ℕ
  | 0, start, stop => start + (stop - start) / 2
  | fuel + 1, start, stop =>
    let mid := start + (stop - start) / 2
    if start ≠ mid ∧ mid ≠ stop then
      match files[mid]? with
      | none => mid
      | some f =>
        if f.inRange chunk then backTo files chunk mid
        else if f.lastChunk < chunk then searchPos files chunk fuel (mid + 1) stop
        else searchPos files chunk fuel start (mid - 1)
    else mid

/-- The scan that fills `file_list`. -/
def scanFiles (chunk maxFiles : ℕ) : List TorrentFile → List ℕ → List ℕ
  | [], fileList => fileList
  | f :: fs, fileList =>
    if f.inChunk chunk then
      if (fileList ++ [f.index]).length ≥ maxFiles then fileList ++ [f.index]
      else scanFiles chunk maxFiles fs (fileList ++ [f.index])
    else if chunk < f.firstChunk then fileList
    else scanFiles chunk maxFiles fs fileList

/-- `pos_cache_chunk` and `pos_cache_file`.  No file in front of the cached one
has data of the cached chunk or of a later one. -/
structure PosCache (L : Layout) where
  /-- The chunk of the last call. -/
  chunk : ℕ
  /-- The first file of that chunk. -/
  file : ℕ
  file_le : file ≤ L.files.length - 1
  valid : ∀ f ∈ L.files.take file, f.size = 0 ∨ f.lastChunk < chunk

/-- The cache of a new torrent. -/
def PosCache.new (L : Layout) : PosCache L where
  chunk := 0
  file := 0
  file_le := Nat.zero_le _
  valid := by simp

/-- The files with data of the chunk, found by a plain scan. -/
def Layout.overlapping (L : Layout) (chunk : ℕ) : List TorrentFile :=
  L.files.filter (·.inChunk chunk)

/-- `Torrent::calcChunkPos` of a torrent with this `pos_cache_chunk` and `pos_cache_file`: the
indices and the new cached position; `none` when `file_list.at(0)` is outside the list. -/
def calcChunkPosAt (L : Layout) (pos : ℕ × ℕ) (chunk maxFiles : ℕ) : Option (List ℕ × ℕ × ℕ) :=
  if chunk ≥ L.numChunks ∨ L.files = [] then some ([], pos)
  else
    let start := if chunk ≥ pos.1 then pos.2 else 0
    let mid := searchPos L.files chunk L.files.length start (L.files.length - 1)
    let fileList := scanFiles chunk maxFiles (L.files.drop mid) []
    match fileList with
    | [] => none
    | first :: _ => some (fileList, chunk, first)

/-- `Torrent::calcChunkPos`, with a valid cache. -/
def calcChunkPos (L : Layout) (cache : PosCache L) (chunk maxFiles : ℕ) :
    Option (List ℕ × ℕ × ℕ) :=
  calcChunkPosAt L (cache.chunk, cache.file) chunk maxFiles

/-! ## Order of the files -/

/-- Each file ends in a chunk that is not behind the first chunk of the files
that follow. -/
structure Ordered (files : List TorrentFile) : Prop where
  pairwise : files.Pairwise fun f g => f.lastChunk ≤ g.firstChunk
  first_le_last : ∀ f ∈ files, f.firstChunk ≤ f.lastChunk

theorem Chained.le_cacheOffset {fs : List TorrentFile} {idx off : ℕ} (h : Chained idx off fs) :
    ∀ f ∈ fs, off ≤ f.cacheOffset := by
  induction fs generalizing idx off with
  | nil => simp
  | cons g gs ih =>
    intro f hf
    rcases List.mem_cons.1 hf with rfl | hf
    · exact h.2.1.ge
    · exact (Nat.le_add_right off g.size).trans (ih h.2.2 f hf)

theorem TorrentFile.Exact.first_le_last {cs : ℕ} {f : TorrentFile} (h : f.Exact cs) :
    f.firstChunk ≤ f.lastChunk := by
  rw [h.firstChunk, h.lastChunk]
  split
  · exact Nat.div_le_div_right (by simp only [TorrentFile.stop]; omega)
  · exact le_rfl

theorem ordered_of_chained {cs : ℕ} : ∀ {fs : List TorrentFile} {idx off : ℕ},
    Chained idx off fs → (∀ f ∈ fs, f.Exact cs) → Ordered fs := by
  intro fs
  induction fs with
  | nil => intros; exact ⟨List.Pairwise.nil, by simp⟩
  | cons f fs ih =>
    intro idx off h hex
    have hrest := ih h.2.2 (fun g hg => hex g (by simp [hg]))
    refine ⟨List.pairwise_cons.2 ⟨?_, hrest.pairwise⟩, ?_⟩
    · intro g hg
      have hle : f.stop ≤ g.cacheOffset := by
        rw [TorrentFile.stop, h.2.1]
        exact h.2.2.le_cacheOffset g hg
      rw [(hex f (by simp)).lastChunk, (hex g (by simp [hg])).firstChunk]
      split
      · exact Nat.div_le_div_right (by omega)
      · exact Nat.div_le_div_right (by simp only [TorrentFile.stop] at hle; omega)
    · intro g hg
      exact (hex g hg).first_le_last

theorem Layout.ordered (L : Layout) : Ordered L.files :=
  ordered_of_chained L.chained fun _ hf => L.exact_of_mem hf

theorem Ordered.last_mono {files : List TorrentFile} (h : Ordered files) {i j : ℕ}
    {f g : TorrentFile} (hi : files[i]? = some f) (hj : files[j]? = some g) (hij : i < j) :
    f.lastChunk ≤ g.firstChunk := by
  obtain ⟨hi', rfl⟩ := List.getElem?_eq_some_iff.1 hi
  obtain ⟨hj', rfl⟩ := List.getElem?_eq_some_iff.1 hj
  exact List.pairwise_iff_getElem.1 h.pairwise i j hi' hj' hij

/-! ## The search -/

/-- No file in front of position `m` has data of the chunk. -/
def NoneBefore (files : List TorrentFile) (chunk m : ℕ) : Prop :=
  ∀ i f, i < m → files[i]? = some f → f.inChunk chunk = false

/-- Everything in front of a file that ends before the chunk ends before it too. -/
theorem Ordered.noneBefore {files : List TorrentFile} (h : Ordered files) {chunk m : ℕ}
    {f : TorrentFile} (hm : files[m]? = some f) (hf : f.lastChunk < chunk) :
    NoneBefore files chunk (m + 1) := by
  intro i g hi hg
  have hlast : g.lastChunk < chunk := by
    rcases Nat.lt_succ_iff_lt_or_eq.1 hi with hlt | rfl
    · have := h.last_mono hg hm hlt
      have := h.first_le_last f (List.mem_of_getElem? hm)
      omega
    · rw [hm] at hg
      obtain rfl : f = g := by simpa using hg
      exact hf
  have : ¬ chunk ≤ g.lastChunk := by omega
  simp [TorrentFile.inChunk, this]

theorem backTo_spec {files : List TorrentFile} (h : Ordered files) {chunk : ℕ} :
    ∀ (i : ℕ) (f : TorrentFile), files[i]? = some f → f.inRange chunk = true →
      NoneBefore files chunk (backTo files chunk i) := by
  intro i
  induction i with
  | zero => intro f _ _ j g hj _; simp [backTo] at hj
  | succ i ih =>
    intro f hf hin
    have hlt : i + 1 < files.length := (List.getElem?_eq_some_iff.1 hf).1
    obtain ⟨g, hg⟩ : ∃ g, files[i]? = some g :=
      ⟨_, List.getElem?_eq_getElem (by omega)⟩
    simp only [backTo, hg]
    by_cases hgin : g.inRange chunk = true
    · rw [if_pos hgin]
      exact ih g hg hgin
    · rw [if_neg hgin]
      -- a file in front of one of the chunk that is not in range ends before the chunk
      have hmono := h.last_mono hg hf (Nat.lt_succ_self i)
      have hfl := h.first_le_last g (List.mem_of_getElem? hg)
      simp only [TorrentFile.inRange, Bool.and_eq_true, decide_eq_true_eq] at hin hgin
      exact h.noneBefore hg (by omega)

/-- **The search never passes a file of the chunk.** -/
theorem searchPos_spec {files : List TorrentFile} (h : Ordered files) {chunk : ℕ} :
    ∀ (fuel start stop : ℕ), start ≤ stop → stop < files.length → stop - start ≤ fuel →
      NoneBefore files chunk start → NoneBefore files chunk (searchPos files chunk fuel start stop) := by
  intro fuel
  induction fuel with
  | zero =>
    intro start stop hle _ hfuel hnone
    have : start + (stop - start) / 2 = start := by omega
    rwa [searchPos, this]
  | succ fuel ih =>
    intro start stop hle hlt hfuel hnone
    rw [searchPos]
    by_cases hgo : start ≠ start + (stop - start) / 2 ∧ start + (stop - start) / 2 ≠ stop
    · obtain ⟨f, hf⟩ : ∃ f, files[start + (stop - start) / 2]? = some f :=
        ⟨_, List.getElem?_eq_getElem (by omega)⟩
      simp only [if_pos hgo, hf]
      by_cases hin : f.inRange chunk = true
      · rw [if_pos hin]
        exact backTo_spec h _ f hf hin
      · rw [if_neg hin]
        by_cases hafter : f.lastChunk < chunk
        · rw [if_pos hafter]
          exact ih _ _ (by omega) hlt (by omega) (h.noneBefore hf hafter)
        · rw [if_neg hafter]
          exact ih _ _ (by omega) (by omega) (by omega) hnone
    · -- the loop ends with `mid = start`
      have hstart : start + (stop - start) / 2 = start := by omega
      simp only [hstart, ne_eq, not_true_eq_false, false_and, if_false]
      exact hnone

/-! ## The scan -/

theorem scanFiles_eq {chunk maxFiles : ℕ} : ∀ (fs : List TorrentFile), Ordered fs →
    ∀ fileList : List ℕ, fileList.length < maxFiles →
      scanFiles chunk maxFiles fs fileList =
        (fileList ++ (fs.filter (·.inChunk chunk)).map (·.index)).take maxFiles := by
  intro fs
  induction fs with
  | nil =>
    intro _ fileList hlen
    rw [scanFiles, List.filter_nil, List.map_nil, List.append_nil, List.take_of_length_le hlen.le]
  | cons f fs ih =>
    intro h fileList hlen
    have hrest : Ordered fs :=
      ⟨(List.pairwise_cons.1 h.pairwise).2, fun g hg => h.first_le_last g (by simp [hg])⟩
    rw [scanFiles]
    by_cases hin : f.inChunk chunk = true
    · have hcons : fileList ++ f.index :: (fs.filter (·.inChunk chunk)).map (·.index) =
          (fileList ++ [f.index]) ++ (fs.filter (·.inChunk chunk)).map (·.index) := by simp
      rw [if_pos hin, List.filter_cons_of_pos (by simpa using hin), List.map_cons, hcons]
      by_cases hfull : (fileList ++ [f.index]).length ≥ maxFiles
      · have heq : (fileList ++ [f.index]).length = maxFiles := by
          simp only [List.length_append, List.length_singleton] at hfull ⊢
          omega
        rw [if_pos hfull, ← heq, List.take_left]
      · rw [if_neg hfull, ih hrest _ (by omega)]
    · rw [if_neg hin, List.filter_cons_of_neg (by simpa using hin)]
      by_cases hbefore : chunk < f.firstChunk
      · -- the chunk lies in front of this file and of all that follow
        have hnone : fs.filter (·.inChunk chunk) = [] := by
          rw [List.filter_eq_nil_iff]
          intro g hg
          have h₁ := (List.pairwise_cons.1 h.pairwise).1 g hg
          have h₂ := h.first_le_last f (by simp)
          have : ¬ g.firstChunk ≤ chunk := by omega
          simp [TorrentFile.inChunk, this]
        rw [if_pos hbefore, hnone, List.map_nil, List.append_nil,
          List.take_of_length_le hlen.le]
      · rw [if_neg hbefore, ih hrest _ hlen]

theorem filter_drop_of_noneBefore {files : List TorrentFile} {chunk m : ℕ}
    (h : NoneBefore files chunk m) :
    (files.drop m).filter (·.inChunk chunk) = files.filter (·.inChunk chunk) := by
  have hnone : (files.take m).filter (·.inChunk chunk) = [] := by
    rw [List.filter_eq_nil_iff]
    intro f hf
    obtain ⟨i, hi, rfl⟩ := List.mem_take_iff_getElem.1 hf
    simp [h i _ (by omega) (List.getElem?_eq_getElem (by omega))]
  conv_rhs => rw [← List.take_append_drop m files, List.filter_append, hnone, List.nil_append]

theorem PosCache.noneBefore {L : Layout} (cache : PosCache L) {chunk : ℕ}
    (hc : cache.chunk ≤ chunk) : NoneBefore L.files chunk cache.file := by
  intro i f hi hf
  have hmem : f ∈ L.files.take cache.file := by
    obtain ⟨hlt, rfl⟩ := List.getElem?_eq_some_iff.1 hf
    exact List.mem_take_iff_getElem.2 ⟨i, by omega, rfl⟩
  rcases cache.valid f hmem with hz | hlast
  · simp [TorrentFile.inChunk, hz]
  · have : ¬ chunk ≤ f.lastChunk := by omega
    simp [TorrentFile.inChunk, this]

/-- A chunk of the torrent has a file with data in it. -/
theorem Layout.overlapping_ne_nil (L : Layout) {chunk : ℕ} (hc : chunk < L.numChunks) :
    L.overlapping chunk ≠ [] := by
  obtain ⟨hlt, hbound⟩ := L.chunk_bounds hc
  have hpos := L.sizeOfChunk_pos chunk
  -- the file that holds the first byte of the chunk
  have hex : ∀ (fs : List TorrentFile) (idx off x : ℕ), Chained idx off fs → off ≤ x →
      x < off + (fs.map TorrentFile.size).sum → ∃ f ∈ fs, f.cacheOffset ≤ x ∧ x < f.stop := by
    intro fs
    induction fs with
    | nil => intro idx off x _ h₁ h₂; simp at h₂; omega
    | cons f fs ih =>
      intro idx off x h h₁ h₂
      by_cases hx : x < f.stop
      · exact ⟨f, by simp, h.2.1.le.trans h₁, hx⟩
      · have hstop : off + f.size ≤ x := by
          rw [TorrentFile.stop, h.2.1] at hx
          omega
        obtain ⟨g, hg, hgx⟩ := ih (idx + 1) (off + f.size) x h.2.2 hstop
          (by simp only [List.map_cons, List.sum_cons] at h₂; omega)
        exact ⟨g, by simp [hg], hgx⟩
  obtain ⟨f, hf, h₁, h₂⟩ := hex L.files 0 0 (chunk * L.chunkSize) L.chained (Nat.zero_le _)
    (by rw [files, sizes_mkFiles]; simpa [total] using hlt)
  have hmem : f ∈ L.overlapping chunk := by
    rw [overlapping, List.mem_filter]
    refine ⟨hf, (L.inChunk_iff hf).2 ⟨?_, by omega, h₂⟩⟩
    simp only [TorrentFile.stop] at h₂
    omega
  exact List.ne_nil_of_mem hmem

theorem Chained.getElem? {fs : List TorrentFile} {idx off i : ℕ} {f : TorrentFile}
    (h : Chained idx off fs) (hi : fs[i]? = some f) : f.index = idx + i := by
  induction fs generalizing idx off i with
  | nil => simp at hi
  | cons g gs ih =>
    cases i with
    | zero =>
      obtain rfl : g = f := by simpa using hi
      exact h.1
    | succ i =>
      rw [ih h.2.2 (by simpa using hi)]
      omega

/-- The first file of a chunk is a valid position for that chunk. -/
theorem first_overlapping_valid (L : Layout) {chunk : ℕ} {g : TorrentFile}
    {gs : List TorrentFile} (h : L.overlapping chunk = g :: gs) :
    g.index ≤ L.files.length - 1 ∧
      ∀ f ∈ L.files.take g.index, f.size = 0 ∨ f.lastChunk < chunk := by
  obtain ⟨as, bs, hsplit, has, hg, -⟩ := List.filter_eq_cons_iff.1 h
  have hget : L.files[as.length]? = some g := by rw [hsplit]; simp
  have hidx : g.index = as.length := by rw [L.chained.getElem? hget, Nat.zero_add]
  have hlt : as.length < L.files.length := (List.getElem?_eq_some_iff.1 hget).1
  refine ⟨by omega, ?_⟩
  intro f hf
  obtain ⟨i, hi, rfl⟩ := List.mem_take_iff_getElem.1 hf
  have hi' : i < as.length := by omega
  have hmem : L.files[i] ∈ as := by
    have : L.files[i] = as[i] := by
      simp only [hsplit]
      exact List.getElem_append_left hi'
    rw [this]
    exact List.getElem_mem hi'
  have hnot := has _ hmem
  have hmono := L.ordered.last_mono (List.getElem?_eq_getElem (by omega)) hget hi'
  have hfl := L.ordered.first_le_last L.files[i] (List.getElem_mem _)
  simp only [TorrentFile.inChunk, Bool.and_eq_true, decide_eq_true_eq] at hg hnot
  by_cases hz : L.files[i].size = 0
  · exact .inl hz
  · exact .inr (by by_contra hc; exact hnot ⟨⟨by omega, by omega⟩, hz⟩)

/-- **The cached binary search finds what a plain scan finds**, and leaves a
valid position behind. -/
theorem calcChunkPos_eq (L : Layout) (cache : PosCache L) {chunk maxFiles : ℕ}
    (hc : chunk < L.numChunks) (hmax : 1 ≤ maxFiles) :
    ∃ cache' : PosCache L, calcChunkPos L cache chunk maxFiles =
      some (((L.overlapping chunk).map (·.index)).take maxFiles, cache'.chunk, cache'.file) := by
  obtain ⟨g, gs, hg⟩ := List.exists_cons_of_ne_nil (L.overlapping_ne_nil hc)
  have hfiles : L.files ≠ [] := by
    intro h
    rw [Layout.overlapping, h, List.filter_nil] at hg
    simp at hg
  have hlen : 0 < L.files.length := List.length_pos_iff.2 hfiles
  set start := if chunk ≥ cache.chunk then cache.file else 0 with hstartdef
  have hstart : NoneBefore L.files chunk start := by
    rw [hstartdef]
    split
    · rename_i hge
      exact cache.noneBefore hge
    · intro i f hi _
      omega
  have hstop : start ≤ L.files.length - 1 := by
    rw [hstartdef]
    split
    · exact cache.file_le
    · omega
  set mid := searchPos L.files chunk L.files.length start (L.files.length - 1) with hmid
  have hnone : NoneBefore L.files chunk mid :=
    searchPos_spec L.ordered _ _ _ hstop (by omega) (by omega) hstart
  have hord : Ordered (L.files.drop mid) :=
    ⟨L.ordered.pairwise.drop, fun f hf => L.ordered.first_le_last f (List.mem_of_mem_drop hf)⟩
  have hscan : scanFiles chunk maxFiles (L.files.drop mid) [] =
      ((L.overlapping chunk).map (·.index)).take maxFiles := by
    rw [scanFiles_eq _ hord [] hmax, filter_drop_of_noneBefore hnone, List.nil_append]
    rfl
  obtain ⟨k, rfl⟩ : ∃ k, maxFiles = k + 1 := ⟨maxFiles - 1, by omega⟩
  obtain ⟨hfile, hvalid⟩ := first_overlapping_valid L hg
  refine ⟨⟨chunk, g.index, hfile, hvalid⟩, ?_⟩
  simp only [calcChunkPos, calcChunkPosAt]
  rw [if_neg (by simp [hfiles]; omega), ← hstartdef, ← hmid, hscan, hg]
  rfl

/-- `INT_MAX`, the default of `max_files`. -/
def intMax : ℕ := 2 ^ 31 - 1

/-- `getFile` of the index of a file gives the file back. -/
theorem Layout.getFile_index (L : Layout) {f : TorrentFile} (hf : f ∈ L.files) :
    L.files[f.index]? = some f := by
  obtain ⟨i, hi, rfl⟩ := List.getElem_of_mem hf
  have hget : L.files[i]? = some L.files[i] := List.getElem?_eq_getElem hi
  rwa [L.chained.getElem? hget, Nat.zero_add]

theorem Layout.index_inj (L : Layout) {f g : TorrentFile} (hf : f ∈ L.files) (hg : g ∈ L.files)
    (h : f.index = g.index) : f = g := by
  have hget := L.getFile_index hf
  rw [h, L.getFile_index hg] at hget
  exact (Option.some.inj hget).symm

/-- What a caller of `calcChunkPos` works with: `getFile` of each index. -/
def chunkFiles (L : Layout) (cache : PosCache L) (chunk : ℕ) : List TorrentFile :=
  match calcChunkPos L cache chunk intMax with
  | none => []
  | some (fileList, _) => fileList.filterMap (L.files[·]?)

/-- The files of a chunk, whatever the earlier calls were. -/
theorem chunkFiles_eq (L : Layout) (cache : PosCache L) {chunk : ℕ} (hc : chunk < L.numChunks) :
    chunkFiles L cache chunk = L.overlapping chunk := by
  obtain ⟨cache', h⟩ := calcChunkPos_eq L cache hc (by decide : 1 ≤ intMax)
  have hlen : ((L.overlapping chunk).map (·.index)).length ≤ intMax := by
    have hle := List.length_filter_le (·.inChunk chunk) L.files
    have hlt := L.count_lt
    rw [List.length_map, Layout.overlapping, intMax]
    rw [L.length_files] at hle
    omega
  rw [List.take_of_length_le hlen] at h
  simp only [chunkFiles, h, List.filterMap_map]
  have hsome : ∀ f ∈ L.overlapping chunk,
      ((fun i => L.files[i]?) ∘ fun f : TorrentFile => f.index) f = some f := fun f hf =>
    L.getFile_index (List.mem_of_mem_filter hf)
  rw [List.filterMap_congr hsome, List.filterMap_some]

/-! ## Any calls before -/

/-- What a call leaves behind; nothing follows `file_list.at(0)` of an empty list. -/
def calcStep (L : Layout) (pos : Option (ℕ × ℕ)) (call : ℕ × ℕ) : Option (ℕ × ℕ) :=
  pos.bind fun pos => (calcChunkPosAt L pos call.1 call.2).map Prod.snd

/-- A call, after the calls that a new torrent has seen. -/
def calcAfter (L : Layout) (calls : List (ℕ × ℕ)) (chunk maxFiles : ℕ) : Option (List ℕ) :=
  (Runs.run (calcStep L) (some (0, 0)) calls).bind fun pos =>
    (calcChunkPosAt L pos chunk maxFiles).map Prod.fst

/-- The file has a byte in the chunk. -/
def Layout.hasByteIn (L : Layout) (chunk : ℕ) (f : TorrentFile) : Bool :=
  decide (f.size ≠ 0) && decide (f.cacheOffset < L.chunkStop chunk) &&
    decide (chunk * L.chunkSize < f.stop)

/-- The position is a valid cache. -/
def ValidPos (L : Layout) (pos : ℕ × ℕ) : Prop :=
  ∃ cache : PosCache L, pos = (cache.chunk, cache.file)

/-- The list ends after the first file when no file is asked for. -/
theorem scanFiles_zero (chunk : ℕ) : ∀ fs : List TorrentFile,
    scanFiles chunk 0 fs [] = scanFiles chunk 1 fs [] := by
  intro fs
  induction fs with
  | nil => rfl
  | cons f fs ih =>
    rw [scanFiles, scanFiles, ih]
    simp

theorem calcChunkPosAt_zero (L : Layout) (pos : ℕ × ℕ) (chunk : ℕ) :
    calcChunkPosAt L pos chunk 0 = calcChunkPosAt L pos chunk 1 := by
  simp only [calcChunkPosAt, scanFiles_zero]

/-- Every call finds its chunk, and leaves a valid cache. -/
theorem ValidPos.calc {L : Layout} {pos : ℕ × ℕ} (h : ValidPos L pos) {chunk maxFiles : ℕ}
    (hc : chunk < L.numChunks) (hmax : 1 ≤ maxFiles) :
    ∃ pos', ValidPos L pos' ∧ calcChunkPosAt L pos chunk maxFiles =
      some (((L.overlapping chunk).map (·.index)).take maxFiles, pos') := by
  obtain ⟨cache, rfl⟩ := h
  obtain ⟨cache', hcalc⟩ := calcChunkPos_eq L cache hc hmax
  exact ⟨_, ⟨cache', rfl⟩, hcalc⟩

/-- **The step lemma.** -/
theorem ValidPos.step {L : Layout} {pos : ℕ × ℕ} (h : ValidPos L pos) (call : ℕ × ℕ) :
    ∃ pos', ValidPos L pos' ∧ calcStep L (some pos) call = some pos' := by
  obtain ⟨chunk, maxFiles⟩ := call
  rw [calcStep, Option.bind_some]
  by_cases hc : chunk < L.numChunks
  · have hone : ∀ k, 1 ≤ k → ∃ pos', ValidPos L pos' ∧
        (calcChunkPosAt L pos chunk k).map Prod.snd = some pos' := fun k hk => by
      obtain ⟨pos', hpos', hcalc⟩ := h.calc hc hk
      exact ⟨pos', hpos', by rw [hcalc]; rfl⟩
    rcases Nat.eq_zero_or_pos maxFiles with rfl | hmax
    · rw [calcChunkPosAt_zero]
      exact hone 1 le_rfl
    · exact hone maxFiles hmax
  · exact ⟨pos, h, by rw [calcChunkPosAt, if_pos (.inl (not_lt.mp hc))]; rfl⟩

/-- The cache is valid after any calls. -/
theorem validPos_run (L : Layout) (calls : List (ℕ × ℕ)) :
    ∃ pos, ValidPos L pos ∧ Runs.run (calcStep L) (some (0, 0)) calls = some pos := by
  have hinv : Runs.AllStates (calcStep L) (fun s => ∃ pos, ValidPos L pos ∧ s = some pos)
      (some (0, 0)) calls := by
    refine Runs.allStates_of_step ?_ calls _ ⟨(0, 0), ⟨PosCache.new L, rfl⟩, rfl⟩
    rintro _ call ⟨pos, hpos, rfl⟩
    exact hpos.step call
  exact hinv.last

/-- **The files of a chunk.**  For every list of files and every chunk of the torrent, after any
earlier calls, the first `maxFiles` indexes of the files with a byte in the chunk are returned,
in order. -/
theorem calcAfter_eq_scan (L : Layout) (calls : List (ℕ × ℕ)) {chunk maxFiles : ℕ}
    (hc : chunk < L.numChunks) (hmax : 1 ≤ maxFiles) :
    calcAfter L calls chunk maxFiles =
      some (((L.files.filter (L.hasByteIn chunk)).map (·.index)).take maxFiles) := by
  obtain ⟨pos, hpos, hrun⟩ := validPos_run L calls
  obtain ⟨pos', -, hcalc⟩ := hpos.calc hc hmax
  have hbytes : L.files.filter (L.hasByteIn chunk) = L.overlapping chunk := by
    refine List.filter_congr fun f hf => ?_
    rw [Bool.eq_iff_iff, L.inChunk_iff hf, Layout.hasByteIn]
    simp [Nat.pos_iff_ne_zero, and_assoc]
  rw [calcAfter, hrun, Option.bind_some, hcalc, hbytes]
  rfl

/-- Four files, two of them empty, in chunks of ten bytes. -/
def fourFiles : Layout where
  chunkSize := 10
  sizes := [5, 0, 8, 0]
  chunkSize_pos := by decide
  chunkSize_lt := by decide
  total_lt := by decide
  count_lt := by decide
  chunks_lt := by decide

/-- The second chunk is looked up first, and then the first one, for one file. -/
theorem calcAfter_fourFiles :
    calcAfter fourFiles [(1, 2)] 0 1 =
      some (((fourFiles.files.filter (fourFiles.hasByteIn 0)).map (·.index)).take 1) :=
  calcAfter_eq_scan fourFiles [(1, 2)] (by decide) (by decide)

end KTorrent
