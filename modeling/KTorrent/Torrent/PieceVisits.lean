import KTorrent.Torrent.Walkers

/-!
# The visits of a piece

What `loadPiece` and `savePiece` do with one file of a chunk, and where a file
can lie in a chunk it shares with others.

* `VisitExact`, `savePieceVisits_exact` — a visit moves the bytes that the piece
  and the file have in common, to and from their place in the piece.
* `savePieceVisits_complete` — every byte of a piece is visited.
* `shared_cases` — a file shares its first chunk, in which it does not start at
  the beginning, or its last chunk, which is another one; unless it starts with
  a chunk that it does not fill.
-/

namespace KTorrent

namespace Layout

variable (L : Layout)

/-- Two files of a torrent lie one behind the other. -/
theorem disjoint {f g : TorrentFile} (hf : f ∈ L.files) (hg : g ∈ L.files) (hne : f ≠ g) :
    f.stop ≤ g.cacheOffset ∨ g.stop ≤ f.cacheOffset := by
  have key : ∀ (fs : List TorrentFile) (idx off : ℕ), Chained idx off fs → f ∈ fs → g ∈ fs →
      f.stop ≤ g.cacheOffset ∨ g.stop ≤ f.cacheOffset := by
    intro fs
    induction fs with
    | nil => intro _ _ _ hf; simp at hf
    | cons h hs ih =>
      intro idx off hch hf' hg'
      have hstop : h.stop = off + h.size := by rw [TorrentFile.stop, hch.2.1]
      rcases List.mem_cons.1 hf' with rfl | hfs
      · rcases List.mem_cons.1 hg' with rfl | hgs
        · exact absurd rfl hne
        · exact .inl (hstop ▸ hch.2.2.le_cacheOffset g hgs)
      · rcases List.mem_cons.1 hg' with rfl | hgs
        · exact .inr (hstop ▸ hch.2.2.le_cacheOffset f hfs)
        · exact ih (idx + 1) _ hch.2.2 hfs hgs
  exact key L.files 0 0 L.chained hf hg

variable {L} {c : ℕ}

theorem mem_overlapping {f : TorrentFile} :
    f ∈ L.overlapping c ↔
      f ∈ L.files ∧ 0 < f.size ∧ f.cacheOffset < L.chunkStop c ∧ c * L.chunkSize < f.stop := by
  rw [overlapping, List.mem_filter]
  exact and_congr_right fun hf => L.inChunk_iff hf

end Layout

/-! ## Visits -/

/-- A visit moves the bytes that its file has in common with `[a, b)`. -/
structure VisitExact (a b : ℕ) (v : PieceVisit) : Prop where
  le : max a v.part.file.cacheOffset ≤ min b v.part.file.stop
  off : v.off = max a v.part.file.cacheOffset - v.part.file.cacheOffset
  len : v.len = min b v.part.file.stop - max a v.part.file.cacheOffset
  pieceOff : v.pieceOff = max a v.part.file.cacheOffset - a

section VisitExact

variable {a b : ℕ} {v : PieceVisit}

/-- A visit starts where the piece and the file both have. -/
theorem VisitExact.start_eq (h : VisitExact a b v) :
    max a v.part.file.cacheOffset = v.part.file.cacheOffset + v.off := by
  rw [h.off, Nat.add_sub_cancel' (le_max_right ..)]

/-- And it stops where one of them does. -/
theorem VisitExact.stop_eq (h : VisitExact a b v) :
    min b v.part.file.stop = v.part.file.cacheOffset + v.off + v.len := by
  rw [← h.start_eq, h.len, Nat.add_sub_cancel' h.le]

theorem VisitExact.ge (h : VisitExact a b v) : a ≤ v.part.file.cacheOffset + v.off :=
  h.start_eq ▸ le_max_left ..

theorem VisitExact.le_b (h : VisitExact a b v) :
    v.part.file.cacheOffset + v.off + v.len ≤ b :=
  h.stop_eq ▸ min_le_left ..

theorem VisitExact.le_size (h : VisitExact a b v) : v.off + v.len ≤ v.part.file.size := by
  have hle : v.part.file.cacheOffset + v.off + v.len ≤ v.part.file.stop :=
    h.stop_eq ▸ min_le_right ..
  rwa [TorrentFile.stop, Nat.add_assoc, Nat.add_le_add_iff_left] at hle

theorem VisitExact.pieceOff_eq (h : VisitExact a b v) :
    v.pieceOff = v.part.file.cacheOffset + v.off - a := by
  rw [h.pieceOff, h.start_eq]

/-- A byte that the piece and the file have is one of the visit. -/
theorem VisitExact.mem_of_lt (h : VisitExact a b v) {p : ℕ} (ha : a ≤ v.part.file.cacheOffset + p)
    (hb : v.part.file.cacheOffset + p < b) (hp : p < v.part.file.size) :
    v.off ≤ p ∧ p < v.off + v.len := by
  have hstart : v.part.file.cacheOffset + v.off ≤ v.part.file.cacheOffset + p :=
    h.start_eq ▸ max_le ha (Nat.le_add_right ..)
  have hstop : v.part.file.cacheOffset + p < v.part.file.cacheOffset + v.off + v.len :=
    h.stop_eq ▸ lt_min hb (Nat.add_lt_add_left hp _)
  exact ⟨Nat.le_of_add_le_add_left hstart, by omega⟩

end VisitExact

/-- A file behind or in front of a piece adds nothing to the position in it. -/
theorem clamp_skip {a b x s : ℕ} (hxs : x ≤ s) (h : b ≤ x ∨ s ≤ a ∨ b ≤ a) :
    min (max x a) b - a = min (max s a) b - a := by
  rcases h with h | h | h
  · rw [min_eq_right (h.trans (le_max_left ..)),
      min_eq_right ((h.trans hxs).trans (le_max_left ..))]
  · rw [max_eq_right (hxs.trans h), max_eq_right h]
  · rw [min_eq_right (h.trans (le_max_right ..)), min_eq_right (h.trans (le_max_right ..))]

/-- A file that a piece has a byte in adds the bytes they have in common. -/
theorem clamp_visit {a b x s : ℕ} (hxs : x ≤ s) (hxb : x < b) (has : a < s) (hab : a ≤ b) :
    min (max x a) b - a + (min b s - max a x) = min (max s a) b - a := by
  have hle : max x a ≤ min b s := max_le (le_min hxb.le hxs) (le_min hab has.le)
  rw [max_eq_left has.le, min_eq_left (hle.trans (min_le_left ..)), max_comm a x, min_comm s b]
  have hge : a ≤ max x a := le_max_right ..
  omega

/-- The walk over a piece from position `x` of the torrent on.  The position in
the piece counts the bytes of the piece in front of `x`. -/
theorem mem_pieceWalk {c cs B off len : ℕ} (hsize : B - c * cs < 2 ^ 32)
    (hin : off + len ≤ B - c * cs) : ∀ (fs : List TorrentFile) (i x pieceOff : ℕ),
    (∀ p ∈ exactParts (c * cs) B i x fs, PartExact c cs B p) → c * cs ≤ x →
    pieceOff = min (max x (c * cs + off)) (c * cs + off + len) - (c * cs + off) →
    ∀ v ∈ pieceWalk c cs off len pieceOff (exactParts (c * cs) B i x fs),
      v.part ∈ exactParts (c * cs) B i x fs ∧
        VisitExact (c * cs + off) (c * cs + off + len) v := by
  intro fs
  induction fs with
  | nil => intro i x pieceOff _ _ _ v hv; simp [exactParts, pieceWalk] at hv
  | cons f fs ih =>
    intro i x pieceOff hex hx hpo v hv
    rw [exactParts] at hv hex ⊢
    have hp := hex ⟨i, f, x - c * cs, min B f.stop - x⟩ (by simp)
    have hstart : max (c * cs) f.cacheOffset = x :=
      hp.start_eq.trans (Nat.add_sub_cancel' hx)
    have hmax : max (c * cs + off) f.cacheOffset = max (c * cs + off) x := by
      rw [← hstart, ← max_assoc, max_eq_left (Nat.le_add_right ..)]
    have hxs : x ≤ f.stop := hstart ▸ hp.le.trans (min_le_right ..)
    have hxb : x ≤ B := hstart ▸ hp.le.trans (min_le_left ..)
    have hpart : x - c * cs + (min B f.stop - x) < 2 ^ 32 := by
      have hle : c * cs + (x - c * cs) + (min B f.stop - x) ≤ B := hp.le_b
      clear hpo hmax hstart
      omega
    have hrest := ih (i + 1) f.stop
    have hcs : c * cs ≤ f.stop := hx.trans hxs
    have hlen : c * cs + off ≤ c * cs + off + len := Nat.le_add_right ..
    rw [pieceWalk, u32_of_lt (hin.trans_lt hsize), u32_of_lt hpart] at hv
    by_cases hmeet : off + len ≤ x - c * cs ∨ x - c * cs + (min B f.stop - x) ≤ off
    · -- the piece has no byte in this file
      have hskip : c * cs + off + len ≤ x ∨ f.stop ≤ c * cs + off ∨
          c * cs + off + len ≤ c * cs + off := by
        clear hpo hmax hstart
        omega
      rw [if_pos hmeet] at hv
      obtain ⟨hmem, hv⟩ := hrest pieceOff (fun p hp => hex p (by simp [hp])) hcs
        (hpo.trans (clamp_skip hxs hskip)) v hv
      exact ⟨List.mem_cons_of_mem _ hmem, hv⟩
    · rw [if_neg hmeet, calculateOffsetAndLength_eq hp hsize hin hmeet] at hv
      obtain ⟨hleft, hright⟩ := not_or.mp hmeet
      have hbefore : x < c * cs + off + len := by
        clear hpo hmax hstart
        omega
      have hbehind : c * cs + off < f.stop := by
        clear hpo hmax hstart
        omega
      have hsum := clamp_visit hxs hbefore hbehind hlen
      have hinside : max x (c * cs + off) ≤ c * cs + off + len := max_le hbefore.le hlen
      rw [← hpo] at hsum
      simp only [List.mem_cons] at hv
      rcases hv with rfl | hv
      · refine ⟨by simp, ⟨?_, rfl, rfl, ?_⟩⟩
        · show max (c * cs + off) f.cacheOffset ≤ min (c * cs + off + len) f.stop
          rw [hmax]
          exact max_le (le_min hlen hbehind.le) (le_min hbefore.le hxs)
        · show pieceOff = max (c * cs + off) f.cacheOffset - (c * cs + off)
          rw [hpo, hmax, min_eq_left hinside, max_comm]
      · have hfits : min (max f.stop (c * cs + off)) (c * cs + off + len) - (c * cs + off) <
            2 ^ 32 := (Nat.sub_le_sub_right (min_le_right ..) _).trans_lt (by omega)
        rw [hmax, hsum, u32_of_lt hfits] at hv
        obtain ⟨hmem, hv⟩ := hrest _ (fun p hp => hex p (by simp [hp])) hcs rfl v hv
        exact ⟨List.mem_cons_of_mem _ hmem, hv⟩

/-- The walk visits every part that the piece has a byte in. -/
theorem exists_mem_pieceWalk {c cs off len : ℕ} {p : ChunkPart}
    (hmeet : ¬ (u32 (off + len) ≤ p.passed ∨ u32 (p.passed + p.len) ≤ off)) :
    ∀ (ps : List ChunkPart) (pieceOff : ℕ), p ∈ ps →
      ∃ v ∈ pieceWalk c cs off len pieceOff ps, v.part = p := by
  intro ps
  induction ps with
  | nil => intro _ hp; simp at hp
  | cons q ps ih =>
    intro pieceOff hp
    rw [pieceWalk]
    rcases List.mem_cons.1 hp with rfl | hp
    · rw [if_neg hmeet]
      exact ⟨_, List.mem_cons_self .., rfl⟩
    · by_cases hq : u32 (off + len) ≤ q.passed ∨ u32 (q.passed + q.len) ≤ off
      · rw [if_pos hq]
        exact ih pieceOff hp
      · rw [if_neg hq]
        obtain ⟨v, hv, hpart⟩ := ih (u32 (pieceOff + (calculateOffsetAndLength off len
          (q.fileOff c cs) q.passed q.len).2)) hp
        exact ⟨v, List.mem_cons_of_mem _ hv, hpart⟩

section Chunk

variable (L : Layout) {c : ℕ}

/-- The parts behind the first one belong to files that come later. -/
theorem exactParts_behind {a₀ b : ℕ} : ∀ (fs : List TorrentFile) (i a : ℕ), CoversFrom b a fs →
    0 < i → ∀ p ∈ exactParts a₀ b i a fs, 0 < p.pos ∧ a ≤ p.file.cacheOffset := by
  intro fs
  induction fs with
  | nil => intro i a _ _ p hp; simp [exactParts] at hp
  | cons f fs ih =>
    intro i a hcov hi p hp
    obtain ⟨hoff, -, -, hcov⟩ := hcov
    rw [exactParts, List.mem_cons] at hp
    rcases hp with rfl | hp
    · exact ⟨hi, hoff.ge⟩
    · obtain ⟨hpos, hle⟩ := ih (i + 1) f.stop hcov (by omega) p hp
      simp only [TorrentFile.stop] at hle
      exact ⟨hpos, by omega⟩

/-- The parts of a chunk, from the first file that has a byte in it. -/
def Layout.partsOf (L : Layout) (c : ℕ) : List ChunkPart :=
  exactParts (c * L.chunkSize) (L.chunkStop c) 0 (c * L.chunkSize) (L.overlapping c)

/-- Only the first file of a chunk has bytes in front of it. -/
theorem Layout.pos_eq_zero_iff (hc : c < L.numChunks) {p : ChunkPart} (hp : p ∈ L.partsOf c) :
    p.pos = 0 ↔ p.file.cacheOffset ≤ c * L.chunkSize := by
  obtain ⟨f, rest, hl, hoff, -, -, hcov⟩ := L.overlapping_covers hc
  have hf : f ∈ L.overlapping c := by rw [hl]; simp
  obtain ⟨-, -, -, hstop⟩ := Layout.mem_overlapping.1 hf
  rw [partsOf, hl, exactParts, List.mem_cons] at hp
  rcases hp with rfl | hp
  · exact iff_of_true rfl hoff
  · obtain ⟨hpos, hle⟩ := exactParts_behind rest 1 f.stop hcov Nat.one_pos p hp
    exact iff_of_false (by omega) (by omega)

theorem Layout.file_mem_of_mem_partsOf {p : ChunkPart} (hp : p ∈ L.partsOf c) :
    p.file ∈ L.overlapping c := by
  have := List.mem_map_of_mem (f := ChunkPart.file) hp
  rwa [partsOf, exactParts_files] at this

variable {off len : ℕ}

/-- The writes of `savePiece` are those of a walk over the parts. -/
theorem savePieceVisits_eq (cache : PosCache L) (hc : c < L.numChunks)
    (hsize : L.sizeOfChunk c < 2 ^ 32) :
    savePieceVisits L cache c off len = pieceWalk c L.chunkSize off len 0 (L.partsOf c) := by
  simp only [savePieceVisits, chunkFiles_eq L cache hc, Layout.getSize, u32_of_lt hsize]
  rw [(overlapping_parts L hc le_rfl hsize).1, Layout.partsOf]

/-- So are the reads of `loadPiece` in a chunk of several files. -/
theorem loadPieceVisits_eq (cache : PosCache L) (hc : c < L.numChunks)
    (hsize : L.sizeOfChunk c < 2 ^ 32) (hshared : ∀ f, L.overlapping c ≠ [f]) :
    loadPieceVisits L cache c off len = pieceWalk c L.chunkSize off len 0 (L.partsOf c) := by
  rw [← savePieceVisits_eq L cache hc hsize, loadPieceVisits, savePieceVisits]
  rw [chunkFiles_eq L cache hc]
  split
  · exact absurd ‹_› (hshared _)
  · rfl

/-- **What a visit of a piece moves.** -/
theorem pieceWalk_exact (hc : c < L.numChunks) (hsize : L.sizeOfChunk c < 2 ^ 32)
    (hin : off + len ≤ L.sizeOfChunk c) {v : PieceVisit}
    (hv : v ∈ pieceWalk c L.chunkSize off len 0 (L.partsOf c)) :
    v.part ∈ L.partsOf c ∧
      VisitExact (c * L.chunkSize + off) (c * L.chunkSize + off + len) v := by
  have hbound := (L.chunk_bounds hc).2
  exact mem_pieceWalk (by omega) (by omega) (L.overlapping c) 0 (c * L.chunkSize) 0
    (overlapping_parts L hc le_rfl hsize).2 le_rfl (by omega) v hv

/-- A byte of a piece is in the visit of its file. -/
theorem pieceWalk_complete (hc : c < L.numChunks) (hsize : L.sizeOfChunk c < 2 ^ 32)
    (hin : off + len ≤ L.sizeOfChunk c) {f : TorrentFile} (hf : f ∈ L.files) {x : ℕ}
    (hx : f.cacheOffset ≤ x ∧ x < f.stop)
    (hp : c * L.chunkSize + off ≤ x ∧ x < c * L.chunkSize + off + len) :
    ∃ v ∈ pieceWalk c L.chunkSize off len 0 (L.partsOf c), v.part.file = f := by
  have hbound := (L.chunk_bounds hc).2
  have hmem : f ∈ L.overlapping c := by
    refine Layout.mem_overlapping.2 ⟨hf, ?_, by omega, by omega⟩
    simp only [TorrentFile.stop] at hx
    omega
  have hparts : f ∈ (L.partsOf c).map ChunkPart.file := by
    rwa [Layout.partsOf, exactParts_files]
  obtain ⟨p, hpm, rfl⟩ := List.mem_map.1 hparts
  have hexact := (overlapping_parts L hc le_rfl hsize).2 p hpm
  have hle := hexact.le_b
  have hstart : c * L.chunkSize + p.passed ≤ x := hexact.start_eq ▸ max_le (by omega) hx.1
  have hstop : x < c * L.chunkSize + p.passed + p.len := hexact.stop_eq ▸ lt_min (by omega) hx.2
  have hmeet : ¬ (u32 (off + len) ≤ p.passed ∨ u32 (p.passed + p.len) ≤ off) := by
    rw [u32_of_lt (n := off + len) (by omega), u32_of_lt (n := p.passed + p.len) (by omega)]
    omega
  have hvisit : ∃ v ∈ pieceWalk c L.chunkSize off len 0 (L.partsOf c), v.part = p :=
    exists_mem_pieceWalk hmeet (L.partsOf c) 0 hpm
  obtain ⟨v, hv, rfl⟩ := hvisit
  exact ⟨v, hv, rfl⟩

end Chunk

/-! ## Where a file lies in a chunk it shares -/

/-- The file starts with a chunk that it does not fill: the chunk goes on with
the next file. -/
def StartsChunk (L : Layout) (tf : TorrentFile) : Prop :=
  tf.firstChunkOff = 0 ∧ tf.size < L.sizeOfChunk tf.firstChunk

instance (L : Layout) (tf : TorrentFile) : Decidable (StartsChunk L tf) :=
  inferInstanceAs (Decidable (_ ∧ _))

section Shared

variable {L : Layout} {c : ℕ} {tf : TorrentFile}

/-- A file shares a chunk in which it starts behind the beginning, or the last of
several chunks. -/
theorem shared_cases (hns : ¬ StartsChunk L tf) (hc : c < L.numChunks)
    (htf : tf ∈ L.overlapping c) {g : TorrentFile} (hg : g ∈ L.overlapping c) (hne : g ≠ tf) :
    (c * L.chunkSize < tf.cacheOffset ∧ c = tf.firstChunk) ∨
      (tf.cacheOffset ≤ c * L.chunkSize ∧ c = tf.lastChunk ∧ tf.firstChunk ≠ tf.lastChunk ∧
        tf.stop < L.chunkStop c) := by
  obtain ⟨hmem, hpos, hlt, hstop⟩ := Layout.mem_overlapping.1 htf
  obtain ⟨hmemg, hposg, hltg, hstopg⟩ := Layout.mem_overlapping.1 hg
  have hex := L.exact_of_mem hmem
  have hbound := (L.chunk_bounds hc).2
  have hcs := L.chunkStop_le c
  by_cases hle : tf.cacheOffset ≤ c * L.chunkSize
  · -- the other file comes behind this one, which thus ends in the chunk
    have hend : tf.stop < L.chunkStop c := by
      rcases L.disjoint hmem hmemg (Ne.symm hne) with h | h
      · simp only [TorrentFile.stop] at h ⊢
        omega
      · omega
    have hlast : tf.lastChunk = c := by
      rw [hex.lastChunk, if_pos hpos]
      exact Nat.div_eq_of_lt_le (by omega) (by omega)
    refine .inr ⟨hle, hlast.symm, fun heq => hns ?_, hend⟩
    have hfirst : tf.firstChunk = c := heq.trans hlast
    have hge : c * L.chunkSize ≤ tf.cacheOffset := by
      rw [← hfirst, hex.firstChunk]
      exact Nat.div_mul_le_self _ _
    have hcache : tf.cacheOffset = c * L.chunkSize := le_antisymm hle hge
    refine ⟨by rw [hex.firstChunkOff, hcache, Nat.mul_mod_left], ?_⟩
    rw [hfirst]
    simp only [TorrentFile.stop] at hend
    omega
  · refine .inl ⟨by omega, ?_⟩
    rw [hex.firstChunk]
    exact (Nat.div_eq_of_lt_le (by omega) (by omega)).symm

/-- A file that starts with a chunk it does not fill shares it, as the first of
its files. -/
theorem StartsChunk.overlapping (h : StartsChunk L tf) (hmem : tf ∈ L.files) (hpos : 0 < tf.size) :
    tf.firstChunk < L.numChunks ∧ tf.cacheOffset = tf.firstChunk * L.chunkSize ∧
      ∃ g gs, L.overlapping tf.firstChunk = tf :: g :: gs ∧
        CoversFrom (L.chunkStop tf.firstChunk) tf.stop (g :: gs) := by
  obtain ⟨hoff, hsize⟩ := h
  have hex := L.exact_of_mem hmem
  have hc : tf.firstChunk < L.numChunks := hex.first_le_last.trans_lt (L.lastChunk_lt hmem hpos)
  have hcache : tf.cacheOffset = tf.firstChunk * L.chunkSize := by
    have := Nat.div_add_mod' tf.cacheOffset L.chunkSize
    rw [← hex.firstChunk, ← hex.firstChunkOff, hoff] at this
    omega
  have hbound := (L.chunk_bounds hc).2
  have hstop : tf.stop < L.chunkStop tf.firstChunk := by
    simp only [TorrentFile.stop]
    omega
  refine ⟨hc, hcache, ?_⟩
  obtain ⟨f, rest, hl, hfoff, -, -, hcov⟩ := L.overlapping_covers hc
  have hf : f ∈ L.overlapping tf.firstChunk := by rw [hl]; simp
  obtain ⟨hfmem, -, -, hfstop⟩ := Layout.mem_overlapping.1 hf
  have hfirst : f = tf := by
    by_contra hne
    rcases L.disjoint hfmem hmem hne with h | h
    · omega
    · simp only [TorrentFile.stop] at h
      omega
  subst hfirst
  cases rest with
  | nil =>
    have hb : L.chunkStop f.firstChunk ≤ f.stop := hcov
    omega
  | cons g gs => exact ⟨g, gs, hl, hcov⟩

end Shared

end KTorrent
