import KTorrent.Lib.Extents
import KTorrent.Torrent.ChunkPos

/-!
# The parts of a chunk

Every loop of the program that goes over the files of a chunk computes, for each
file, how much of the chunk lies in it: the whole chunk if it is the only file,
`last_chunk_size` of the first file, what is left of the chunk for the last file
and the file's size for those in between.  `chunkParts` is this loop, with the
widths of the two variables it uses.

* `Covers` — the files of a list lie one behind the other and together cover a
  chunk.
* `overlapping_covers`, `inRange_covers` — the lists the program walks over do.
* `chunkParts_eq` — in a chunk whose size fits the variables, the parts are the
  intersections of the files with the chunk.
* `chunkParts_sum` — in any case they add up to the size of the chunk modulo the
  width.
-/

namespace KTorrent

open Extents

/-- A part of a chunk. -/
structure ChunkPart where
  /-- Position of the file in the list of the chunk's files. -/
  pos : ℕ
  /-- The file. -/
  file : TorrentFile
  /-- Number of bytes of the chunk in front of the part. -/
  passed : ℕ
  /-- Number of bytes of the part. -/
  len : ℕ
  deriving DecidableEq, Repr

/-- The loop over the `count` files of a chunk of `size` bytes.  Lengths are kept
in `w` bits and the number of bytes passed in `v` bits. -/
def chunkParts (w v count size : ℕ) : ℕ → ℕ → List TorrentFile → List ChunkPart
  | _, _, [] => []
  | i, passed, f :: fs =>
    let len :=
      if count = 1 then size % 2 ^ w
      else if i = 0 then f.lastChunkSize % 2 ^ w
      else if i = count - 1 then subw w size passed
      else f.size % 2 ^ w
    ⟨i, f, passed, len⟩ :: chunkParts w v count size (i + 1) ((passed + len) % 2 ^ v) fs

/-! ## Files that cover a chunk -/

/-- The files lie one behind the other, start at `a` and reach `b`, which only the
last one may pass. -/
def CoversFrom (b : ℕ) : ℕ → List TorrentFile → Prop
  | a, [] => b ≤ a
  | a, f :: fs => f.cacheOffset = a ∧ a ≤ b ∧ (fs ≠ [] → f.stop ≤ b) ∧ CoversFrom b f.stop fs

/-- The files lie one behind the other and cover `[a, b)`; the first one may start
before `a`. -/
def Covers (a b : ℕ) (fs : List TorrentFile) : Prop :=
  ∃ f rest, fs = f :: rest ∧ f.cacheOffset ≤ a ∧ (a < f.stop ∨ f.cacheOffset = a) ∧ (rest ≠ [] → f.stop ≤ b) ∧
    CoversFrom b f.stop rest

/-- Which files of a chunk a walker looks at: those with data in the chunk and,
when `keepEmpty` is set, the empty files that start in it. -/
def Selects (p : TorrentFile → Bool) (keepEmpty : Prop) (a b limit : ℕ) (f : TorrentFile) : Prop :=
  p f = true ↔ (0 < f.size ∧ f.cacheOffset < b ∧ a < f.stop) ∨
    (keepEmpty ∧ f.size = 0 ∧ a ≤ f.cacheOffset ∧ f.cacheOffset < limit)

section Selection

variable {p : TorrentFile → Bool} {keepEmpty : Prop} {a b limit : ℕ}

/-- No file is selected behind the end of the chunk. -/
theorem filter_selects_nil {fs : List TorrentFile} {idx off : ℕ} (h : Chained idx off fs)
    (hsel : ∀ f ∈ fs, Selects p keepEmpty a b limit f) (hb : b ≤ off)
    (hlimit : limit ≤ off ∨ b < off ∧ ∀ f ∈ fs, f.stop ≤ b) : fs.filter p = [] := by
  rw [List.filter_eq_nil_iff]
  intro f hf hp
  have hoff := h.le_cacheOffset f hf
  rcases (hsel f hf).1 hp with ⟨-, hlt, -⟩ | ⟨-, -, -, hlt⟩
  · omega
  · rcases hlimit with hl | ⟨hl, hstop⟩
    · omega
    · have := hstop f hf
      simp only [TorrentFile.stop] at this
      omega

/-- From a position inside the chunk on, the selected files cover the rest. -/
theorem coversFrom_filter (hlimit : b ≤ limit) : ∀ (fs : List TorrentFile) (idx off : ℕ),
    Chained idx off fs → (∀ f ∈ fs, Selects p keepEmpty a b limit f) →
    (b < limit → ∀ f ∈ fs, f.stop ≤ b) → a ≤ off → off ≤ b →
    b ≤ off + (fs.map TorrentFile.size).sum → CoversFrom b off (fs.filter p) := by
  intro fs
  induction fs with
  | nil =>
    intro idx off _ _ _ _ _ hsum
    simpa [CoversFrom] using hsum
  | cons f fs ih =>
    intro idx off h hsel hend ha hb hsum
    simp only [List.map_cons, List.sum_cons] at hsum
    have hoff : f.cacheOffset = off := h.2.1
    have hsel' : ∀ g ∈ fs, Selects p keepEmpty a b limit g := fun g hg => hsel g (by simp [hg])
    have hend' : b < limit → ∀ g ∈ fs, g.stop ≤ b := fun hlt g hg => hend hlt g (by simp [hg])
    have hstop : f.stop = off + f.size := by rw [TorrentFile.stop, hoff]
    have hchain : Chained (idx + 1) f.stop fs := by rw [hstop]; exact h.2.2
    by_cases hp : p f = true
    · rw [List.filter_cons_of_pos hp]
      by_cases hle : f.stop ≤ b
      · refine ⟨hoff, hb, fun _ => hle, ih (idx + 1) f.stop hchain hsel' hend' (by omega) hle ?_⟩
        omega
      · -- the file reaches over the end of the chunk: it is the last one
        have hnil : fs.filter p = [] :=
          filter_selects_nil hchain hsel' (by omega) (by
            rcases Nat.lt_or_ge b limit with hlt | hge
            · exact absurd (hend hlt f (by simp)) hle
            · exact .inl (by omega))
        rw [hnil]
        exact ⟨hoff, hb, fun hc => absurd rfl hc, by simp only [CoversFrom]; omega⟩
    · rw [List.filter_cons_of_neg hp]
      have hnot : ¬ (0 < f.size ∧ f.cacheOffset < b ∧ a < f.stop) := fun hc =>
        hp ((hsel f (by simp)).2 (.inl hc))
      by_cases hzero : f.size = 0
      · -- an empty file that is not looked at
        have heq : f.stop = off := by omega
        rw [← heq]
        exact ih (idx + 1) f.stop hchain hsel' hend' (by omega) (by omega) (by omega)
      · -- the end of the chunk
        have hbo : b = off := by omega
        have hlim : limit ≤ b := by
          by_contra hc
          have := hend (by omega) f (by simp)
          omega
        have hnil : fs.filter p = [] :=
          filter_selects_nil hchain hsel' (by omega) (.inl (by omega))
        rw [hnil]
        simp only [CoversFrom]
        omega

/-- The selected files cover the chunk. -/
theorem covers_filter (hlimit : b ≤ limit) (hab : a < b) : ∀ (fs : List TorrentFile) (idx off : ℕ),
    Chained idx off fs → (∀ f ∈ fs, Selects p keepEmpty a b limit f) →
    (b < limit → ∀ f ∈ fs, f.stop ≤ b) → off ≤ a →
    b ≤ off + (fs.map TorrentFile.size).sum → Covers a b (fs.filter p) := by
  intro fs
  induction fs with
  | nil =>
    intro idx off _ _ _ ha hsum
    simp at hsum
    omega
  | cons f fs ih =>
    intro idx off h hsel hend ha hsum
    have hoff : f.cacheOffset = off := h.2.1
    have hstop : f.stop = off + f.size := by rw [TorrentFile.stop, hoff]
    have hchain : Chained (idx + 1) f.stop fs := by rw [hstop]; exact h.2.2
    have hsel' : ∀ g ∈ fs, Selects p keepEmpty a b limit g := fun g hg => hsel g (by simp [hg])
    have hend' : b < limit → ∀ g ∈ fs, g.stop ≤ b := fun hlt g hg => hend hlt g (by simp [hg])
    rcases Nat.eq_or_lt_of_le ha with heq | hlt
    · -- the chunk starts with this file
      have hcov := coversFrom_filter hlimit (f :: fs) idx off h hsel hend heq.ge (by omega) hsum
      cases hl : (f :: fs).filter p with
      | nil =>
        rw [hl] at hcov
        simp only [CoversFrom] at hcov
        omega
      | cons g gs =>
        rw [hl] at hcov
        exact ⟨g, gs, rfl, by rw [hcov.1, heq], .inr (by rw [hcov.1, heq]), hcov.2.2.1,
          hcov.2.2.2⟩
    · simp only [List.map_cons, List.sum_cons] at hsum
      by_cases hreach : a < f.stop
      · -- the chunk starts inside this file
        have hp : p f = true := (hsel f (by simp)).2 (.inl ⟨by omega, by omega, hreach⟩)
        rw [List.filter_cons_of_pos hp]
        refine ⟨f, fs.filter p, rfl, by omega, .inl hreach, ?_⟩
        by_cases hle : f.stop ≤ b
        · exact ⟨fun _ => hle, coversFrom_filter hlimit fs (idx + 1) f.stop hchain hsel' hend'
            (by omega) hle (by omega)⟩
        · have hnil : fs.filter p = [] :=
            filter_selects_nil hchain hsel' (by omega) (by
              rcases Nat.lt_or_ge b limit with hbl | hge
              · exact absurd (hend hbl f (by simp)) hle
              · exact .inl (by omega))
          rw [hnil]
          exact ⟨fun hc => absurd rfl hc, by simp only [CoversFrom]; omega⟩
      · have hp : ¬ p f = true := by
          intro hc
          rcases (hsel f (by simp)).1 hc with ⟨-, -, hlt'⟩ | ⟨-, -, hge, -⟩
          · exact hreach hlt'
          · omega
        rw [List.filter_cons_of_neg hp]
        exact ih (idx + 1) f.stop hchain hsel' hend' (by omega) (by omega)

end Selection

namespace Layout

variable (L : Layout)

theorem sum_sizes_files : (L.files.map TorrentFile.size).sum = L.total := by
  rw [files, sizes_mkFiles, total]

/-- The files `calcChunkPos` finds cover the chunk. -/
theorem overlapping_covers {c : ℕ} (hc : c < L.numChunks) :
    Covers (c * L.chunkSize) (L.chunkStop c) (L.overlapping c) := by
  obtain ⟨hlt, hbound⟩ := L.chunk_bounds hc
  have hpos := L.sizeOfChunk_pos c
  have hsel : ∀ f ∈ L.files, Selects (·.inChunk c) False (c * L.chunkSize) (L.chunkStop c)
      ((c + 1) * L.chunkSize) f := by
    intro f hf
    rw [Selects, L.inChunk_iff hf]
    tauto
  refine covers_filter (L.chunkStop_le c) (by omega) L.files 0 0 L.chained hsel ?_ (Nat.zero_le _) ?_
  · intro hend f hf
    have := L.stop_le_total hf
    rw [chunkStop] at hend ⊢
    omega
  · rw [sum_sizes_files, chunkStop]
    omega

/-- So do the files that `calcHashMulti` collects, among them empty ones. -/
theorem inRange_covers {c : ℕ} (hc : c < L.numChunks) :
    Covers (c * L.chunkSize) (L.chunkStop c) (L.files.filter (·.inRange c)) := by
  obtain ⟨hlt, hbound⟩ := L.chunk_bounds hc
  have hpos := L.sizeOfChunk_pos c
  have hsel : ∀ f ∈ L.files, Selects (·.inRange c) True (c * L.chunkSize) (L.chunkStop c)
      ((c + 1) * L.chunkSize) f := by
    intro f hf
    have hex := L.exact_of_mem hf
    rw [Selects]
    rcases Nat.eq_zero_or_pos f.size with hz | hs
    · -- an empty file lies in the chunk it starts in
      simp only [TorrentFile.inRange, Bool.and_eq_true, decide_eq_true_eq, hex.firstChunk,
        hex.lastChunk, hz, gt_iff_lt, lt_irrefl, if_false, false_and, false_or, true_and]
      rw [Nat.le_div_iff_mul_le L.chunkSize_pos, ← Nat.lt_succ_iff,
        Nat.div_lt_iff_lt_mul L.chunkSize_pos]
      tauto
    · have hin := L.inChunk_iff hf (c := c)
      simp only [TorrentFile.inChunk, TorrentFile.inRange, Bool.and_eq_true,
        decide_eq_true_eq] at hin ⊢
      have hne : f.size ≠ 0 := by omega
      tauto
  refine covers_filter (L.chunkStop_le c) (by omega) L.files 0 0 L.chained hsel ?_ (Nat.zero_le _) ?_
  · intro hend f hf
    have := L.stop_le_total hf
    rw [chunkStop] at hend ⊢
    omega
  · rw [sum_sizes_files, chunkStop]
    omega

end Layout

/-! ## What the loop computes -/

/-- The intersections of the files with the chunk `[a₀, b)`, from position `a` on. -/
def exactParts (a₀ b : ℕ) : ℕ → ℕ → List TorrentFile → List ChunkPart
  | _, _, [] => []
  | i, a, f :: fs =>
    ⟨i, f, a - a₀, min b f.stop - a⟩ :: exactParts a₀ b (i + 1) f.stop fs

theorem chunkParts_rest {w v a₀ b : ℕ} (hwv : w ≤ v) (hsize : b - a₀ < 2 ^ w) :
    ∀ (fs : List TorrentFile) (i a : ℕ), CoversFrom b a fs → a₀ ≤ a → 0 < i →
      chunkParts w v (i + fs.length) (b - a₀) i (a - a₀) fs = exactParts a₀ b i a fs := by
  have hv : b - a₀ < 2 ^ v := hsize.trans_le (Nat.pow_le_pow_right (by decide) hwv)
  intro fs
  induction fs with
  | nil => intros; rfl
  | cons f fs ih =>
    intro i a hcov ha hi
    obtain ⟨hoff, hab, hlast, hrest⟩ := hcov
    have hne : ¬ i + (f :: fs).length = 1 := by simp only [List.length_cons]; omega
    have hstop : a ≤ f.stop := by rw [TorrentFile.stop, hoff]; omega
    simp only [chunkParts, exactParts, if_neg hne, if_neg (by omega : ¬ i = 0)]
    cases fs with
    | nil =>
      -- the last file gets what is left
      have hb : b ≤ f.stop := hrest
      simp only [List.length_cons, List.length_nil, Nat.zero_add, Nat.add_sub_cancel, if_true,
        chunkParts, exactParts]
      rw [subw_of_le (by omega) hsize, min_eq_left hb]
      congr 2
      omega
    | cons g gs =>
      have hb : f.stop ≤ b := hlast (by simp)
      have hsz : f.size = f.stop - a := by rw [TorrentFile.stop, hoff]; omega
      have hmid : ¬ i = i + (f :: g :: gs).length - 1 := by
        simp only [List.length_cons]
        omega
      rw [if_neg hmid, Nat.mod_eq_of_lt (by omega), min_eq_right hb, hsz]
      have hpassed : (a - a₀ + (f.stop - a)) % 2 ^ v = f.stop - a₀ := by
        rw [Nat.mod_eq_of_lt (by omega)]
        omega
      rw [hpassed]
      have := ih (i + 1) f.stop hrest (by omega) (by omega)
      rw [show i + 1 + (g :: gs).length = i + (f :: g :: gs).length by
        simp only [List.length_cons]; omega] at this
      rw [this]

/-- **The parts are the intersections** when the size of the chunk fits. -/
theorem chunkParts_eq {w v cs c b : ℕ} (hwv : w ≤ v) (hab : c * cs < b)
    (hb : b ≤ (c + 1) * cs) (hsize : b - c * cs < 2 ^ w) {fs : List TorrentFile}
    (hcov : Covers (c * cs) b fs) (hex : ∀ f ∈ fs, f.Exact cs) :
    chunkParts w v fs.length (b - c * cs) 0 0 fs = exactParts (c * cs) b 0 (c * cs) fs := by
  have hv : b - c * cs < 2 ^ v := hsize.trans_le (Nat.pow_le_pow_right (by decide) hwv)
  obtain ⟨f, rest, rfl, hoff, hreach, hlast, hrest⟩ := hcov
  have hstop : c * cs ≤ f.stop := by
    rcases hreach with h | h
    · exact h.le
    · exact h ▸ Nat.le_add_right _ _
  cases rest with
  | nil =>
    have hb' : b ≤ f.stop := hrest
    simp only [chunkParts, exactParts, List.length_cons, List.length_nil, Nat.zero_add, if_true,
      Nat.sub_self]
    rw [Nat.mod_eq_of_lt hsize, min_eq_left hb']
  | cons g gs =>
    have hle : f.stop ≤ b := hlast (by simp)
    -- the first file ends in this chunk
    have hlc : f.lastChunk = c := by
      rw [(hex f (by simp)).lastChunk]
      simp only [TorrentFile.stop] at hoff hstop hle hreach ⊢
      split
      · rw [Nat.div_eq_of_lt_le] <;> omega
      · rw [Nat.div_eq_of_lt_le] <;> omega
    have hlcs : f.lastChunkSize = f.stop - c * cs := by
      rw [(hex f (by simp)).lastChunkSize, hlc]
    have hne : ¬ (f :: g :: gs).length = 1 := by simp
    rw [chunkParts, exactParts]
    simp only [if_neg hne, if_true, Nat.sub_self, Nat.zero_add]
    rw [hlcs, Nat.mod_eq_of_lt (by omega), min_eq_right hle, Nat.mod_eq_of_lt (by omega)]
    have := chunkParts_rest hwv hsize (g :: gs) 1 f.stop hrest hstop Nat.one_pos
    rw [show 1 + (g :: gs).length = (f :: g :: gs).length by
      simp only [List.length_cons]; omega] at this
    rw [this]

/-- Whatever the size of the chunk, the parts add up to it modulo the width. -/
theorem chunkParts_sum (w size : ℕ) : ∀ (fs : List TorrentFile) (i passed : ℕ), fs ≠ [] →
    (i = 0 → passed = 0) →
      (passed + ((chunkParts w w (i + fs.length) size i passed fs).map ChunkPart.len).sum) % 2 ^ w =
        size % 2 ^ w := by
  intro fs
  induction fs with
  | nil => intro i passed hne; exact absurd rfl hne
  | cons f fs ih =>
    intro i passed _ hpassed
    cases fs with
    | nil =>
      simp only [chunkParts, List.length_cons, List.length_nil, Nat.zero_add, List.map_cons,
        List.map_nil, List.sum_cons, List.sum_nil, Nat.add_zero, Nat.add_sub_cancel]
      by_cases hone : i + 1 = 1
      · rw [if_pos hone, hpassed (by omega), Nat.zero_add, Nat.mod_mod]
      · rw [if_neg hone, if_neg (by omega), if_pos trivial, subw, Nat.add_mod_mod]
        have hlt : passed % 2 ^ w < 2 ^ w := Nat.mod_lt _ (by positivity)
        have hdiv := Nat.div_add_mod passed (2 ^ w)
        have hsum : passed + (size + (2 ^ w - passed % 2 ^ w)) =
            size + 2 ^ w * (passed / 2 ^ w + 1) := by
          rw [Nat.mul_add, Nat.mul_one]
          omega
        rw [hsum, Nat.add_mul_mod_self_left]
    | cons g gs =>
      rw [chunkParts]
      simp only [List.map_cons, List.sum_cons]
      set len := (if i + (f :: g :: gs).length = 1 then size % 2 ^ w
        else if i = 0 then f.lastChunkSize % 2 ^ w
        else if i = i + (f :: g :: gs).length - 1 then subw w size passed
        else f.size % 2 ^ w) with hlen
      have := ih (i + 1) ((passed + len) % 2 ^ w) (by simp) (by omega)
      rw [show i + 1 + (g :: gs).length = i + (f :: g :: gs).length by
        simp only [List.length_cons]; omega, Nat.mod_add_mod] at this
      rw [← this, Nat.add_assoc]

end KTorrent
