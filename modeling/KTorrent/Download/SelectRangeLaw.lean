import KTorrent.Download.SelectLaw

/-!
# The ranges that web seeds get

`ChunkSelector::selectRange` looks for a run of chunks that a web seed can download.
It remembers the current run by its first chunk and its length, and takes a run that
starts with chunk 0 for none when that run has ended.

* `Downloader.webseedRangeSize` — the length that is asked for.
* `SelectsRange` — the first run that is long enough, or else a longest one.
* `firstRun` — how many chunks from chunk 0 on can be downloaded.
* `selectRange_iff` — the run is selected exactly when the first run is empty, or long
  enough, or not longer than every other one.
-/

namespace KTorrent

/-- `webseed_range_size`, as the constructor of `Downloader` computes it. -/
def Downloader.webseedRangeSize (numChunks webseeds : ℕ) : ℕ :=
  if webseeds > 0 then
    let size := numChunks / webseeds
    let size := if size = 0 then 1 else size
    -- make sure the range is not to big
    if size > numChunks / 10 then numChunks / 10 else size
  else 1

namespace ChunkSelector

variable (L : Layout) (cman : ChunkManager) (available : ℕ → Bool)

/-- The chunk is missing, and a web seed can download it. -/
def Free (j : ℕ) : Prop := j < L.numChunks ∧ cman.bitset j = false ∧ available j = true

/-- **What is promised of a range**, for a length `m`: there is one when there is a free chunk; it
has free chunks only, and is the first one of length `m`, or a longest one when none has that
length. -/
def SelectsRange (m : ℕ) : Option (ℕ × ℕ) → Prop
  | none => ∀ i, ¬ Free L cman available i
  | some (from_, to_) =>
    from_ ≤ to_ ∧ Available L cman available ⟨from_, to_ + 1 - from_⟩ ∧
      (to_ + 1 - from_ = m ∧ (∀ a, Available L cman available ⟨a, m⟩ → from_ ≤ a) ∨
        (∀ a, ¬ Available L cman available ⟨a, m⟩) ∧
          ∀ a k, 0 < k → Available L cman available ⟨a, k⟩ → k ≤ to_ + 1 - from_)

/-- The number of free chunks from chunk 0 on. -/
def firstRun : ℕ :=
  (List.range L.numChunks).findIdx fun i => cman.bitset i || !available i

/-- The first run is empty, or of length `m` at least, or another run is as long. -/
def FirstRunCounts (m : ℕ) : Prop :=
  firstRun L cman available = 0 ∨ m ≤ firstRun L cman available ∨
    ∃ a, firstRun L cman available < a ∧ Available L cman available ⟨a, firstRun L cman available⟩

variable {L cman available}

/-! ## Runs -/

theorem Available.sub {a k b l : ℕ} (h : Available L cman available ⟨a, k⟩) (hb : a ≤ b)
    (hl : b + l ≤ a + k) : Available L cman available ⟨b, l⟩ := fun j hj hj' =>
  h j (hb.trans hj) (by dsimp only at hj' ⊢; omega)

theorem available_firstRun : Available L cman available ⟨0, firstRun L cman available⟩ := by
  intro j _ hj
  rw [Nat.zero_add] at hj
  have hle : firstRun L cman available ≤ L.numChunks := by
    have hlen : firstRun L cman available ≤ (List.range L.numChunks).length := List.findIdx_le_length
    rwa [List.length_range] at hlen
  have hnot := List.not_of_lt_findIdx hj
  simp at hnot
  exact ⟨hj.trans_le hle, hnot⟩

theorem not_free_firstRun : ¬ Free L cman available (firstRun L cman available) := by
  rintro ⟨hlt, hbit, hav⟩
  have hin : (List.range L.numChunks).findIdx (fun i => cman.bitset i || !available i) <
      (List.range L.numChunks).length := by
    rw [List.length_range]
    exact hlt
  have hfind := List.findIdx_getElem (p := fun i => cman.bitset i || !available i) (w := hin)
  rw [List.getElem_range] at hfind
  simp only [firstRun] at hbit hav
  rw [hbit, hav] at hfind
  cases hfind

/-! ## The loop -/

/-- No free chunk stands before `start`. -/
def StartsRun (L : Layout) (cman : ChunkManager) (available : ℕ → Bool) (start : ℕ) : Prop :=
  ∀ j, j + 1 = start → ¬ Free L cman available j

/-- What the loop knows before chunk `i`: no run is of length `m` so far, `curr` is the run that
ends here, if any, and every run behind the first one is in `curr` or not longer than `best`. -/
structure Scanned (L : Layout) (cman : ChunkManager) (available : ℕ → Bool) (m i : ℕ)
    (curr best : ChunkRange) : Prop where
  short : ∀ a, Available L cman available ⟨a, m⟩ → i < a + m
  current : curr = ⟨0, 0⟩ ∧ StartsRun L cman available i ∨
    0 < curr.len ∧ curr.start + curr.len = i ∧ Available L cman available curr ∧
      StartsRun L cman available curr.start
  chosen : best = ⟨0, 0⟩ ∨
    firstRun L cman available < best.start ∧ 0 < best.len ∧ Available L cman available best
  bound : ∀ a k, firstRun L cman available < a → 0 < k → Available L cman available ⟨a, k⟩ →
    a + k ≤ i → k ≤ best.len ∨ 0 < curr.len ∧ curr.start ≤ a
  last : i = L.numChunks → curr.len = 0 ∨ curr.start = 0 ∨ curr.len ≤ best.len

variable {m i : ℕ} {curr best : ChunkRange}

/-- A run that starts behind chunk 0 starts behind the first run. -/
theorem StartsRun.firstRun_lt {start : ℕ} (h : StartsRun L cman available start) (hpos : 0 < start) :
    firstRun L cman available < start := by
  by_contra hle
  exact h (start - 1) (by omega) (available_firstRun (start - 1) (Nat.zero_le _) (by dsimp only; omega))

/-- A run that goes behind the start of another one does not start before it. -/
theorem StartsRun.le_of_available {start a k : ℕ} (h : StartsRun L cman available start)
    (ha : Available L cman available ⟨a, k⟩) (hend : start ≤ a + k) : start ≤ a := by
  by_contra hlt
  exact h (start - 1) (by omega) (ha (start - 1) (by dsimp only; omega) (by dsimp only; omega))

/-- A run from chunk 0 on is not longer than the first run. -/
theorem le_firstRun {k : ℕ} (h : Available L cman available ⟨0, k⟩) : k ≤ firstRun L cman available := by
  by_contra hlt
  exact not_free_firstRun (h _ (Nat.zero_le _) (by dsimp only; omega))

/-- **The step lemma for a free chunk.** -/
theorem Scanned.free (h : Scanned L cman available m i curr best)
    (hi : Free L cman available i) {curr' : ChunkRange}
    (hcurr' : curr' = if curr.start = 0 ∧ curr.len = 0 then ⟨i, 1⟩
      else { curr with len := curr.len + 1 }) :
    curr'.len ≤ m ∧ 0 < curr'.len ∧ curr'.start + curr'.len = i + 1 ∧
      Available L cman available curr' ∧ StartsRun L cman available curr'.start ∧
      (curr'.len < m → Scanned L cman available m (i + 1) curr'
        (if i = L.numChunks - 1 ∧ curr'.start > 0 ∧ curr'.len > best.len then curr' else best)) := by
  -- the current run, with this chunk
  obtain ⟨hpos, hend, hav, hstart⟩ : 0 < curr'.len ∧ curr'.start + curr'.len = i + 1 ∧
      Available L cman available curr' ∧ StartsRun L cman available curr'.start := by
    rcases h.current with ⟨hnil, hstart⟩ | ⟨hlen, hend, hav, hstart⟩
    · have hempty : Available L cman available curr := fun j _ hj => by
        rw [hnil] at hj
        exact absurd hj (Nat.not_lt_zero j)
      obtain ⟨hav', hpos', hend'⟩ := hempty.expand hi (.inl hnil)
      rw [← hcurr'] at hav' hpos' hend'
      refine ⟨hpos', hend', hav', ?_⟩
      rw [hcurr', hnil]
      exact hstart
    · obtain ⟨hav', hpos', hend'⟩ := hav.expand hi (.inr ⟨hlen, hend⟩)
      rw [← hcurr'] at hav' hpos' hend'
      refine ⟨hpos', hend', hav', ?_⟩
      rw [hcurr', if_neg fun hc => hlen.ne' hc.2]
      exact hstart
  have hle : curr'.len ≤ m := by
    by_contra hlt
    have hrun : Available L cman available ⟨curr'.start, m⟩ :=
      Available.sub (a := curr'.start) (k := curr'.len) hav le_rfl (by omega)
    have := h.short _ hrun
    omega
  refine ⟨hle, hpos, hend, hav, hstart, fun hlt => ?_⟩
  obtain ⟨best', hbest'⟩ : ∃ best', best' =
      if i = L.numChunks - 1 ∧ curr'.start > 0 ∧ curr'.len > best.len then curr' else best := ⟨_, rfl⟩
  rw [← hbest']
  have hgrow : best.len ≤ best'.len := by
    rw [hbest']
    split
    · omega
    · exact le_rfl
  refine ⟨fun a ha => ?_, .inr ⟨hpos, hend, hav, hstart⟩, ?_, fun a k hza hk ha hak => ?_, fun hlast => ?_⟩
  · have hge := h.short a ha
    by_contra hnot
    have hfrom := hstart.le_of_available ha (by omega)
    omega
  · rw [hbest']
    split
    case isTrue hc => exact .inr ⟨hstart.firstRun_lt hc.2.1, hpos, hav⟩
    case isFalse => exact h.chosen
  · by_cases hends : a + k = i + 1
    · exact .inr ⟨hpos, hstart.le_of_available ha (by omega)⟩
    · rcases h.bound a k hza hk ha (by omega) with hb | ⟨hc, hca⟩
      · exact .inl (hb.trans hgrow)
      · refine .inr ⟨hpos, ?_⟩
        rw [hcurr', if_neg fun hc' => hc.ne' hc'.2]
        exact hca
  · rw [hbest']
    have hat : i = L.numChunks - 1 := by omega
    by_cases hc : curr'.start > 0 ∧ curr'.len > best.len
    · rw [if_pos ⟨hat, hc⟩]
      exact .inr (.inr le_rfl)
    · rw [if_neg fun hc' => hc hc'.2]
      omega

/-- **The step lemma for another chunk.** -/
theorem Scanned.notFree (h : Scanned L cman available m i curr best) (hm : 1 ≤ m)
    (hi : ¬ Free L cman available i) :
    Scanned L cman available m (i + 1) ⟨0, 0⟩
      (if curr.start > 0 ∧ curr.len > best.len then curr else best) := by
  obtain ⟨best', hbest'⟩ : ∃ best', best' =
      if curr.start > 0 ∧ curr.len > best.len then curr else best := ⟨_, rfl⟩
  rw [← hbest']
  have hgrow : best.len ≤ best'.len ∧ (curr.start > 0 → curr.len ≤ best'.len) := by
    rw [hbest']
    split <;> omega
  -- no run goes on behind this chunk
  have hend : ∀ a k, 0 < k → Available L cman available ⟨a, k⟩ → a + k ≤ i + 1 → a + k ≤ i := by
    intro a k hk ha hak
    by_contra hlt
    exact hi (ha i (by dsimp only; omega) (by dsimp only; omega))
  refine ⟨fun a ha => ?_, .inl ⟨rfl, fun j hj => ?_⟩, ?_, fun a k hza hk ha hak => ?_, fun _ => .inl rfl⟩
  · have hge := h.short a ha
    by_contra hnot
    have := hend a m hm ha (by omega)
    omega
  · obtain rfl : j = i := by omega
    exact hi
  · rw [hbest']
    split
    case isTrue hc =>
      rcases h.current with ⟨hnil, -⟩ | ⟨hlen, -, hav, hstart⟩
      · rw [hnil] at hc
        exact absurd hc.1 (lt_irrefl 0)
      · exact .inr ⟨hstart.firstRun_lt hc.1, hlen, hav⟩
    case isFalse => exact h.chosen
  · rcases h.bound a k hza hk ha (hend a k hk ha hak) with hb | ⟨hc, hca⟩
    · exact .inl (hb.trans hgrow.1)
    · rcases h.current with ⟨hnil, -⟩ | ⟨-, hcend, hav, -⟩
      · rw [hnil] at hc
        exact absurd hc (lt_irrefl 0)
      · have hak' := hend a k hk ha hak
        by_cases hzero : curr.start = 0
        · -- then it is the first run, and the other one does not start in it
          exfalso
          refine not_free_firstRun (hav _ ?_ ?_) <;> omega
        · have := hgrow.2 (Nat.pos_of_ne_zero hzero)
          exact .inl (by omega)

/-- What is known at the end of the list. -/
theorem Scanned.finish (h : Scanned L cman available m L.numChunks curr best) {a k : ℕ}
    (hza : firstRun L cman available < a) (hk : 0 < k) (ha : Available L cman available ⟨a, k⟩) :
    k ≤ best.len := by
  have hin : a + k ≤ L.numChunks := by
    have := (ha (a + k - 1) (by dsimp only; omega) (by dsimp only; omega)).1
    omega
  rcases h.bound a k hza hk ha hin with hb | ⟨hc, hca⟩
  · exact hb
  · rcases h.current with ⟨hnil, -⟩ | ⟨-, hcend, hav, -⟩
    · rw [hnil] at hc
      exact absurd hc (lt_irrefl 0)
    · rcases h.last rfl with hl | hl | hl
      · omega
      · exfalso
        refine not_free_firstRun (hav _ ?_ ?_) <;> omega
      · omega

/-- **What the loop returns**: the first run of length `m`, or else the best run behind the first
one. -/
theorem selectRangeLoop_cases {maxLen : ℕ} (hm : m = max 1 maxLen) : ∀ (n i : ℕ) (curr best : ChunkRange),
    i + n = L.numChunks → Scanned L cman available m i curr best →
    (∃ from_, selectRangeLoop L cman available maxLen (List.range' i n) curr best =
        some (from_, from_ + m - 1) ∧ Available L cman available ⟨from_, m⟩ ∧
        ∀ a, Available L cman available ⟨a, m⟩ → from_ ≤ a) ∨
      (∀ a, ¬ Available L cman available ⟨a, m⟩) ∧ ∃ chosen : ChunkRange,
        selectRangeLoop L cman available maxLen (List.range' i n) curr best =
          (if chosen.len ≠ 0 then some (chosen.start, chosen.start + chosen.len - 1) else none) ∧
        (chosen = ⟨0, 0⟩ ∨ firstRun L cman available < chosen.start ∧ 0 < chosen.len ∧
          Available L cman available chosen) ∧
        ∀ a k, firstRun L cman available < a → 0 < k → Available L cman available ⟨a, k⟩ →
          k ≤ chosen.len := by
  intro n
  induction n with
  | zero =>
    intro i curr best hi h
    rw [Nat.add_zero] at hi
    subst hi
    refine .inr ⟨fun a ha => ?_, best, rfl, h.chosen, fun a k hza hk ha => h.finish hza hk ha⟩
    have hshort := h.short a ha
    have := (ha (a + m - 1) (by dsimp only; omega) (by dsimp only; omega)).1
    omega
  | succ n ih =>
    intro i curr best hi h
    rw [List.range'_succ, selectRangeLoop]
    dsimp only
    by_cases hfree : Free L cman available i
    · obtain ⟨curr', hcurr'⟩ : ∃ curr' : ChunkRange, curr' =
          if curr.start = 0 ∧ curr.len = 0 then ⟨i, 1⟩ else { curr with len := curr.len + 1 } := ⟨_, rfl⟩
      obtain ⟨hle, hpos, hend, hav, hstart, hnext⟩ := h.free hfree hcurr'
      rw [if_pos (by simp [hfree.2.1, hfree.2.2]), ← hcurr']
      by_cases hfull : curr'.len ≥ maxLen
      · -- the run is long enough, and it is the first one
        have hlen : curr'.len = m := by omega
        rw [if_pos hfull]
        refine .inl ⟨curr'.start, by rw [hlen], hlen ▸ hav, fun a ha => ?_⟩
        have := h.short a ha
        omega
      · rw [if_neg hfull]
        exact ih _ _ _ (by omega) (hnext (by omega))
    · have hbool : (!cman.bitset i && available i) = false := by
        rw [Bool.eq_false_iff]
        intro htrue
        rw [Bool.and_eq_true, Bool.not_eq_true'] at htrue
        exact hfree ⟨by omega, htrue⟩
      rw [if_neg (by rw [hbool]; exact Bool.false_ne_true)]
      exact ih _ _ _ (by omega) (h.notFree (by omega) hfree)

variable (L cman available) in
theorem scanned_start (hm : 1 ≤ m) : Scanned L cman available m 0 ⟨0, 0⟩ ⟨0, 0⟩ where
  short a _ := by omega
  current := .inl ⟨rfl, fun j hj => absurd hj (Nat.succ_ne_zero j)⟩
  chosen := .inl rfl
  bound a k _ hk _ hak := by omega
  last _ := .inl rfl

/-- **The range of a web seed.**  For every number of chunks and of web seeds, every set of
downloaded chunks and every choice of chunks that a web seed may download: the range is the one
that is promised exactly when the first run is empty, or long enough, or not longer than every
other run. -/
theorem selectRange_iff (L : Layout) (cman : ChunkManager) (available : ℕ → Bool) (w : ℕ) :
    SelectsRange L cman available (max 1 (Downloader.webseedRangeSize L.numChunks w))
        (selectRange L cman available (Downloader.webseedRangeSize L.numChunks w)) ↔
      FirstRunCounts L cman available (max 1 (Downloader.webseedRangeSize L.numChunks w)) := by
  generalize Downloader.webseedRangeSize L.numChunks w = maxLen
  obtain ⟨m, hm⟩ : ∃ m, m = max 1 maxLen := ⟨_, rfl⟩
  obtain ⟨z, hz⟩ : ∃ z, z = firstRun L cman available := ⟨_, rfl⟩
  have hcases := selectRangeLoop_cases hm L.numChunks 0 ⟨0, 0⟩ ⟨0, 0⟩ (Nat.zero_add _)
    (scanned_start L cman available (by omega))
  rw [← List.range_eq_range', ← selectRange] at hcases
  rw [← hm, FirstRunCounts]
  obtain ⟨from_, hsel, hav, hfirst⟩ | ⟨hnone, best, hsel, hchosen, hbound⟩ := hcases
  · -- a run is long enough
    rw [hsel]
    have hsize : from_ + m - 1 + 1 - from_ = m := by omega
    refine iff_of_true ⟨by omega, hsize.symm ▸ hav, .inl ⟨hsize, hfirst⟩⟩ ?_
    by_cases hlong : m ≤ firstRun L cman available
    · exact .inr (.inl hlong)
    · refine .inr (.inr ⟨from_, ?_, hav.sub le_rfl (by omega)⟩)
      by_contra hle
      -- a run that starts in the first one ends in it
      have hin : from_ + m ≤ firstRun L cman available := by
        refine le_firstRun fun j _ hj => ?_
        by_cases hjz : j < firstRun L cman available
        · exact available_firstRun j (Nat.zero_le _) (by dsimp only; omega)
        · exact hav j (by dsimp only; omega) (by dsimp only at hj ⊢; omega)
      omega
  · rw [hsel]
    have hshort : firstRun L cman available < m := by
      by_contra hle
      exact hnone 0 (available_firstRun.sub le_rfl (by omega))
    -- every run is in the first one or behind it
    have hwhere : ∀ a k, 0 < k → Available L cman available ⟨a, k⟩ →
        a + k ≤ firstRun L cman available ∨ firstRun L cman available < a := by
      intro a k hk ha
      by_contra hcross
      rw [not_or] at hcross
      refine not_free_firstRun (ha _ ?_ ?_) <;> dsimp only <;> omega
    by_cases hzero : best.len = 0
    · -- nothing was found behind the first run
      rw [if_neg (not_not.mpr hzero)]
      have hbehind : ∀ i, Free L cman available i → i < firstRun L cman available := by
        intro i hi
        have hone : Available L cman available ⟨i, 1⟩ := fun j hj hj' => by
          obtain rfl : j = i := by dsimp only at hj hj'; omega
          exact hi
        rcases hwhere i 1 one_pos hone with hin | hbeh
        · omega
        · have := hbound i 1 hbeh one_pos hone
          omega
      constructor
      · intro hempty
        left
        by_contra hpos
        exact hempty 0 (available_firstRun 0 le_rfl (by dsimp only; omega))
      · rintro (hz | hz | ⟨a, ha, hav⟩) i hi
        · have := hbehind i hi
          omega
        · omega
        · by_cases hpos : firstRun L cman available = 0
          · have := hbehind i hi
            omega
          · have := hbound a _ ha (Nat.pos_of_ne_zero hpos) hav
            omega
    · rw [if_pos hzero]
      obtain ⟨hstart, hpos, hav⟩ := hchosen.resolve_left fun hnil => hzero (hnil ▸ rfl)
      have hsize : best.start + best.len - 1 + 1 - best.start = best.len := by omega
      constructor
      · rintro ⟨-, -, hprom⟩
        rw [hsize] at hprom
        rcases hprom with ⟨hlen, -⟩ | ⟨-, hlongest⟩
        · exact absurd (hlen ▸ hav) (hnone best.start)
        · by_cases hz : firstRun L cman available = 0
          · exact .inl hz
          · have hle := hlongest 0 _ (Nat.pos_of_ne_zero hz) available_firstRun
            exact .inr (.inr ⟨best.start, hstart, Available.sub (a := best.start) (k := best.len) hav
              le_rfl (by omega)⟩)
      · intro hcounts
        refine ⟨by omega, hsize.symm ▸ hav, .inr ⟨hnone, fun a k hk ha => ?_⟩⟩
        rw [hsize]
        rcases hwhere a k hk ha with hin | hbeh
        · -- a run in the first one is not longer than another one
          rcases hcounts with hz | hz | ⟨a', ha', hav'⟩
          · omega
          · omega
          · have := hbound a' _ ha' (by omega) hav'
            omega
        · exact hbound a k hbeh hk ha

/-- Twenty chunks of one byte. -/
def twentyChunks : Layout where
  chunkSize := 1
  sizes := [20]
  chunkSize_pos := by decide
  chunkSize_lt := by decide
  total_lt := by decide
  count_lt := by decide
  chunks_lt := by decide

/-- A chunk manager with every chunk but these. -/
def missing (chunks : List ℕ) : ChunkManager where
  chunkPriority := fun _ => .normal
  onDisk := fun i => !chunks.contains i
  bitset := fun i => !chunks.contains i
  excludedChunks := fun _ => false
  onlySeedChunks := fun _ => false
  todo := fun i => chunks.contains i
  duringLoad := false
  priority := fun _ => .normal
  oldPriority := fun _ => .normal
  indexFile := []
  fileInfoFile := none
  filePriorityFile := none

/-- **Only chunk 0 is missing**, and one web seed asks for a range: it gets none. -/
theorem firstChunk_notSelected :
    selectRange twentyChunks (missing [0]) (fun _ => true)
        (Downloader.webseedRangeSize twentyChunks.numChunks 1) = none ∧
      ¬ SelectsRange twentyChunks (missing [0]) (fun _ => true)
        (max 1 (Downloader.webseedRangeSize twentyChunks.numChunks 1))
        (selectRange twentyChunks (missing [0]) (fun _ => true)
          (Downloader.webseedRangeSize twentyChunks.numChunks 1)) := by
  have hnone : selectRange twentyChunks (missing [0]) (fun _ => true)
      (Downloader.webseedRangeSize twentyChunks.numChunks 1) = none := by
    decide +kernel
  refine ⟨hnone, fun h => ?_⟩
  rw [hnone] at h
  exact h 0 ⟨by decide, by decide, rfl⟩

end ChunkSelector
end KTorrent
