import KTorrent.Diskio.ChunkManager

/-!
# What a change of priority does to the chunks

The chunk manager is told of every change of a file's priority.  This file says
what the change does to the excluded and to the downloaded chunks.

* `isBorderChunk_of_two`, `alone` — where two files reach there is a border; elsewhere a
  file has a chunk to itself.
* `Resets s t R` — the manager `t` is `s` with the chunks of `R` reset; the
  operations that only touch priorities reset nothing (`SameChunks`).
* `excludeFile_spec` — what excluding a file takes out: the chunks of the file
  less the first and the last one where another file needs them (`TakenOut`).
* `downloadPriorityChanged_includes` — any other priority includes the chunks of
  a file that was excluded or only seeded.
* `changePriority_excluded`, `changePriority_included` — the same for the setters
  of the file.
-/

namespace KTorrent

/-! ## The files of a chunk -/

namespace Layout

variable {L : Layout}

theorem mem_overlapping_range {f : TorrentFile} {i : ℕ} :
    f ∈ L.overlapping i ↔ f ∈ L.files ∧ (f.firstChunk ≤ i ∧ i ≤ f.lastChunk) ∧ f.size ≠ 0 := by
  rw [overlapping, List.mem_filter]
  simp only [TorrentFile.inChunk, Bool.and_eq_true, decide_eq_true_eq]

/-- Where two files reach, empty ones included, there is a border. -/
theorem isBorderChunk_of_two {f g : TorrentFile} {i : ℕ} (hf : f ∈ L.files) (hg : g ∈ L.files)
    (hfi : f.firstChunk ≤ i ∧ i ≤ f.lastChunk) (hgi : g.firstChunk ≤ i ∧ i ≤ g.lastChunk)
    (hlt : f.index < g.index) : isBorderChunk L i = true := by
  have hget := L.getFile_index hf
  have hget' := L.getFile_index hg
  have hlen : g.index < L.files.length := (List.getElem?_eq_some_iff.1 hget').1
  -- the file right behind `f` starts in the chunk in which `f` ends
  obtain ⟨h, hh⟩ : ∃ h, L.files[f.index + 1]? = some h :=
    ⟨_, List.getElem?_eq_getElem (by omega)⟩
  have h₁ := L.ordered.last_mono hget hh (Nat.lt_succ_self _)
  have h₂ : h.firstChunk ≤ i := by
    rcases Nat.eq_or_lt_of_le (Nat.succ_le_of_lt hlt) with heq | hlt'
    · rw [Nat.succ_eq_add_one] at heq
      rw [heq, hget'] at hh
      rw [← Option.some.inj hh]
      exact hgi.1
    · have := L.ordered.last_mono hh hget' hlt'
      have := L.ordered.first_le_last h (List.mem_of_getElem? hh)
      omega
  rw [isBorderChunk, List.any_eq_true]
  refine ⟨(f, h), ?_, ?_⟩
  · have hzip : (L.files.zip L.files.tail)[f.index]? = some (f, h) := by
      rw [List.getElem?_zip_eq_some]
      exact ⟨hget, by rw [List.getElem?_tail]; exact hh⟩
    exact List.mem_of_getElem? hzip
  · simp only [Bool.and_eq_true, beq_iff_eq]
    omega

/-- In a chunk of a file that is no border, or lies in its middle, no other file has data. -/
theorem alone {tf : TorrentFile} (htf : tf ∈ L.files) {i : ℕ}
    (hi : tf.firstChunk ≤ i ∧ i ≤ tf.lastChunk)
    (hnot : ¬ (isBorderChunk L i = true ∧ (i = tf.firstChunk ∨ i = tf.lastChunk))) :
    ∀ f ∈ L.overlapping i, f.index = tf.index := by
  intro f hf
  obtain ⟨hmem, hrange, -⟩ := mem_overlapping_range.mp hf
  by_contra hne
  have hborder : isBorderChunk L i = true := by
    rcases Nat.lt_or_gt_of_ne hne with hlt | hlt
    · exact isBorderChunk_of_two hmem htf hrange hi hlt
    · exact isBorderChunk_of_two htf hmem hi hrange hlt
  have hends : i = tf.firstChunk ∨ i = tf.lastChunk := by
    have hget := L.getFile_index hmem
    have hget' := L.getFile_index htf
    rcases Nat.lt_or_gt_of_ne hne with hlt | hlt
    · have := L.ordered.last_mono hget hget' hlt
      omega
    · have := L.ordered.last_mono hget' hget hlt
      omega
  exact hnot ⟨hborder, hends⟩

end Layout

namespace ChunkManager

variable {L : Layout} {cfg : PreviewConfig}

/-! ## Resetting chunks -/

/-- The part of the state that the exclusion of files and the downloaded chunks
are about: `t` is `s` with the chunks of `R` reset. -/
structure Resets (s t : ChunkManager) (R : ℕ → Prop) : Prop where
  excluded : t.excludedChunks = s.excludedChunks
  priority : t.priority = s.priority
  index : t.indexFile = s.indexFile
  load : t.duringLoad = s.duringLoad
  cleared : ∀ i, R i → t.bitset i = false ∧ t.onDisk i = false
  kept : ∀ i, ¬ R i → t.bitset i = s.bitset i ∧ t.onDisk i = s.onDisk i

/-- Nothing but priorities and the chunks that are left to do has changed. -/
def SameChunks (s t : ChunkManager) : Prop := Resets s t fun _ => False

theorem SameChunks.refl (s : ChunkManager) : SameChunks s s :=
  ⟨rfl, rfl, rfl, rfl, fun _ h => h.elim, fun _ _ => ⟨rfl, rfl⟩⟩

theorem Resets.trans {s t u : ChunkManager} {R R' : ℕ → Prop} (h : Resets s t R)
    (h' : Resets t u R') : Resets s u fun i => R i ∨ R' i where
  excluded := h'.excluded.trans h.excluded
  priority := h'.priority.trans h.priority
  index := h'.index.trans h.index
  load := h'.load.trans h.load
  cleared := by
    intro i hi
    by_cases h₂ : R' i
    · exact h'.cleared i h₂
    · have hk := h'.kept i h₂
      have hc := h.cleared i (hi.resolve_right h₂)
      exact ⟨hk.1.trans hc.1, hk.2.trans hc.2⟩
  kept := by
    intro i hi
    have h₁ := h.kept i fun hc => hi (.inl hc)
    have h₂ := h'.kept i fun hc => hi (.inr hc)
    exact ⟨h₂.1.trans h₁.1, h₂.2.trans h₁.2⟩

theorem Resets.congr {s t : ChunkManager} {R R' : ℕ → Prop} (h : Resets s t R)
    (hR : ∀ i, R i ↔ R' i) : Resets s t R' where
  excluded := h.excluded
  priority := h.priority
  index := h.index
  load := h.load
  cleared := fun i hi => h.cleared i ((hR i).2 hi)
  kept := fun i hi => h.kept i fun hc => hi ((hR i).1 hc)

theorem SameChunks.trans {s t u : ChunkManager} (h : SameChunks s t) (h' : SameChunks t u) :
    SameChunks s u :=
  (Resets.trans h h').congr fun _ => or_self_iff

theorem prioritise_same (s : ChunkManager) (a b : ℕ) (p : Priority) :
    SameChunks s (s.prioritise L a b p) :=
  ⟨rfl, rfl, rfl, rfl, fun _ h => h.elim, fun _ _ => ⟨rfl, rfl⟩⟩

theorem prioritisePreview_same (s : ChunkManager) (a b : ℕ) :
    SameChunks s (s.prioritisePreview L a b) :=
  ⟨rfl, rfl, rfl, rfl, fun _ h => h.elim, fun _ _ => ⟨rfl, rfl⟩⟩

theorem setBorderChunkPriority_same (s : ChunkManager) (idx : ℕ) (p : Priority) :
    SameChunks s (s.setBorderChunkPriority L idx p) :=
  prioritise_same ..

theorem doPreviewPriority_same (s : ChunkManager) (f : TorrentFile) :
    SameChunks s (s.doPreviewPriority L cfg f) := by
  unfold doPreviewPriority
  split
  · exact .refl s
  · split
    · exact prioritisePreview_same ..
    · dsimp only
      split
      · exact .refl s
      · split
        · exact (prioritisePreview_same ..).trans (prioritisePreview_same ..)
        · exact prioritisePreview_same ..

theorem savePriorityInfo_same (s : ChunkManager) : SameChunks s (s.savePriorityInfo L) := by
  unfold savePriorityInfo
  split
  · exact .refl s
  · exact ⟨rfl, rfl, rfl, rfl, fun _ h => h.elim, fun _ _ => ⟨rfl, rfl⟩⟩

/-- `resetChunk` outside of loading. -/
theorem resetChunk_resets {s : ChunkManager} (hload : s.duringLoad = false) (i : ℕ) :
    Resets s (s.resetChunk L i) fun j => j = i ∧ j < L.numChunks := by
  by_cases hi : i < L.numChunks
  · rw [resetChunk, if_neg (by simp [hload]; omega)]
    refine ⟨rfl, rfl, rfl, rfl, ?_, ?_⟩
    · rintro j ⟨rfl, -⟩
      simp
    · intro j hj
      have hne : j ≠ i := fun hc => hj ⟨hc, hc ▸ hi⟩
      simp [Function.update_of_ne hne]
  · rw [resetChunk, if_pos (.inl (by omega))]
    exact (SameChunks.refl s).congr fun j => iff_of_false id (by omega)

theorem resetChunks_resets {l : List ℕ} : ∀ {s : ChunkManager}, s.duringLoad = false →
    Resets s (l.foldl (resetChunk L) s) fun j => j ∈ l ∧ j < L.numChunks := by
  induction l with
  | nil => intro s _; exact (SameChunks.refl s).congr (by simp)
  | cons i l ih =>
    intro s hload
    have h₁ := resetChunk_resets (L := L) hload i
    refine (h₁.trans (ih (h₁.load.trans hload))).congr fun j => ?_
    rw [List.mem_cons, or_and_right]

/-! ## Chunks that other files need -/

/-- Another file with data in the chunk is still wanted. -/
def neededByOther (L : Layout) (s : ChunkManager) (tf : TorrentFile) (idx : ℕ) : Bool :=
  (L.overlapping idx).any fun other =>
    other.index != tf.index && s.priority other.index != .excluded

/-- The manager keeps the chunk when the file is excluded. -/
def keepsChunk (L : Layout) (s : ChunkManager) (tf : TorrentFile) (idx : ℕ) : Bool :=
  isBorderChunk L idx && neededByOther L s tf idx

/-- Another file needs the chunk: it gets a new priority, beginning with that of such a file. -/
theorem resetBorderChunk_of_needed {s : ChunkManager} {idx : ℕ} {tf : TorrentFile}
    (h : neededByOther L s tf idx = true) :
    ∃ other ∈ L.overlapping idx, s.resetBorderChunk L idx tf =
      (false, s.setBorderChunkPriority L idx (s.priority other.index)) := by
  unfold resetBorderChunk
  cases hfind : (L.overlapping idx).find? fun other =>
      other.index != tf.index && s.priority other.index != .excluded with
  | none =>
    obtain ⟨other, hmem, hother⟩ := List.any_eq_true.mp h
    exact absurd hother (List.find?_eq_none.mp hfind other hmem)
  | some other => exact ⟨other, List.mem_of_find?_eq_some hfind, rfl⟩

theorem resetBorderChunk_of_not_needed {s : ChunkManager} {idx : ℕ} {tf : TorrentFile}
    (h : neededByOther L s tf idx = false) :
    s.resetBorderChunk L idx tf = (true, s.resetChunk L idx) := by
  have hfind : (L.overlapping idx).find? (fun other =>
      other.index != tf.index && s.priority other.index != .excluded) = none :=
    List.find?_eq_none.mpr (List.any_eq_false.mp h)
  rw [resetBorderChunk, hfind]

theorem resetBorderChunk_eq (s : ChunkManager) (idx : ℕ) (tf : TorrentFile) :
    ∃ p, s.resetBorderChunk L idx tf =
      if neededByOther L s tf idx then (false, s.setBorderChunkPriority L idx p)
      else (true, s.resetChunk L idx) := by
  cases h : neededByOther L s tf idx with
  | false => exact ⟨.normal, resetBorderChunk_of_not_needed h⟩
  | true =>
    obtain ⟨other, -, hother⟩ := resetBorderChunk_of_needed h
    exact ⟨s.priority other.index, hother⟩

/-- One end of the file: the chunk is kept or reset. -/
theorem resetEnd_spec {s : ChunkManager} (hload : s.duringLoad = false) (idx : ℕ)
    (tf : TorrentFile) :
    (s.resetEnd L idx tf).1 = !keepsChunk L s tf idx ∧
      Resets s (s.resetEnd L idx tf).2 fun i =>
        (i = idx ∧ i < L.numChunks) ∧ keepsChunk L s tf idx = false := by
  have hreset := resetChunk_resets (L := L) hload idx
  unfold resetEnd keepsChunk
  cases hb : isBorderChunk L idx with
  | false => exact ⟨rfl, hreset.congr (by simp)⟩
  | true =>
    obtain ⟨p, hp⟩ := resetBorderChunk_eq (L := L) s idx tf
    rw [if_pos rfl, hp]
    cases hn : neededByOther L s tf idx with
    | false => exact ⟨rfl, hreset.congr (by simp)⟩
    | true => exact ⟨rfl, (setBorderChunkPriority_same s idx p).congr (by simp)⟩

theorem neededByOther_congr {s t : ChunkManager} (h : t.priority = s.priority) (tf : TorrentFile)
    (idx : ℕ) : neededByOther L t tf idx = neededByOther L s tf idx := by
  rw [neededByOther, neededByOther, h]

theorem keepsChunk_congr {s t : ChunkManager} (h : t.priority = s.priority) (tf : TorrentFile)
    (idx : ℕ) : keepsChunk L t tf idx = keepsChunk L s tf idx := by
  rw [keepsChunk, keepsChunk, neededByOther_congr h]

/-! ## Excluding a file -/

/-- The first chunk of the range that is excluded with the file. -/
def newFirst (L : Layout) (s : ChunkManager) (tf : TorrentFile) : ℕ :=
  if keepsChunk L s tf tf.firstChunk then tf.firstChunk + 1 else tf.firstChunk

/-- The last chunk of the range; it is not looked at when giving up the first
chunk has left only this one. -/
def newLast (L : Layout) (s : ChunkManager) (tf : TorrentFile) : ℕ :=
  if tf.lastChunk ≠ newFirst L s tf ∧ keepsChunk L s tf tf.lastChunk then tf.lastChunk - 1
  else tf.lastChunk

/-- The chunks that are excluded with the file. -/
def TakenOut (L : Layout) (s : ChunkManager) (tf : TorrentFile) (i : ℕ) : Prop :=
  (if tf.firstChunk = tf.lastChunk then
      i = tf.firstChunk ∧ keepsChunk L s tf tf.firstChunk = false
    else newFirst L s tf ≤ i ∧ i ≤ newLast L s tf) ∧ i < L.numChunks

/-- What `excludeFile` does to the chunks: those taken out become excluded and not
downloaded, and nothing else is lost. -/
structure Excludes (s t : ChunkManager) (T : ℕ → Prop) : Prop where
  priority : t.priority = s.priority
  index : t.indexFile = s.indexFile
  load : t.duringLoad = s.duringLoad
  taken : ∀ i, T i → t.excludedChunks i = true ∧ t.bitset i = false
  taken_onDisk : ∀ i, T i → t.onDisk i = true → s.onDisk i = true
  kept : ∀ i, ¬ T i → t.excludedChunks i = s.excludedChunks i ∧ t.bitset i = s.bitset i ∧
    t.onDisk i = s.onDisk i

theorem exclude_excludes {s t : ChunkManager} {R : ℕ → Prop} {a b : ℕ} (h : Resets s t R)
    (hab : a ≤ b) (hR : ∀ i, R i → (a ≤ i ∧ i ≤ b) ∧ i < L.numChunks) :
    Excludes s (t.exclude L a b) fun i => (a ≤ i ∧ i ≤ b) ∧ i < L.numChunks := by
  have hin : ∀ i, (a ≤ i ∧ i ≤ b) ∧ i < L.numChunks →
      min a b ≤ i ∧ i ≤ max a b ∧ i < L.numChunks := by
    intro i hi
    omega
  refine ⟨h.priority, h.index, h.load, ?_, ?_, ?_⟩
  · intro i hi
    simp only [exclude, onRange, if_pos (hin i hi), and_self]
  · intro i _ hdisk
    by_cases hRi : R i
    · rw [show (t.exclude L a b).onDisk i = false from (h.cleared i hRi).2] at hdisk
      exact absurd hdisk (by simp)
    · rw [← (h.kept i hRi).2]
      exact hdisk
  · intro i hi
    have hout : ¬ (min a b ≤ i ∧ i ≤ max a b ∧ i < L.numChunks) := by omega
    have hRi : ¬ R i := fun hc => hi (hR i hc)
    simp only [exclude, onRange, if_neg hout]
    exact ⟨congrFun h.excluded i, (h.kept i hRi).1, (h.kept i hRi).2⟩

theorem SameChunks.excludes_nothing {s t : ChunkManager} (h : SameChunks s t) {T : ℕ → Prop}
    (hT : ∀ i, ¬ T i) : Excludes s t T where
  priority := h.priority
  index := h.index
  load := h.load
  taken := fun i hi => absurd hi (hT i)
  taken_onDisk := fun i hi => absurd hi (hT i)
  kept := fun i _ => ⟨congrFun h.excluded i, (h.kept i id).1, (h.kept i id).2⟩

theorem newFirst_bounds (s : ChunkManager) (tf : TorrentFile) :
    tf.firstChunk ≤ newFirst L s tf ∧ newFirst L s tf ≤ tf.firstChunk + 1 := by
  rw [newFirst]
  split <;> omega

theorem newLast_bounds (s : ChunkManager) (tf : TorrentFile) :
    tf.lastChunk - 1 ≤ newLast L s tf ∧ newLast L s tf ≤ tf.lastChunk := by
  rw [newLast]
  split <;> omega

/-- The chunks between the ends of a file are reset. -/
def resetInner (L : Layout) (s : ChunkManager) (tf : TorrentFile) : ChunkManager :=
  (List.range' (tf.firstChunk + 1) (tf.lastChunk - (tf.firstChunk + 1))).foldl (resetChunk L) s

/-- The ends are reset or given up; the last chunk is not looked at when only this one is left. -/
def resetEnds (L : Layout) (s : ChunkManager) (tf : TorrentFile) : ChunkManager :=
  let t := ((resetInner L s tf).resetEnd L tf.firstChunk tf).2
  if tf.lastChunk ≠ newFirst L s tf then (t.resetEnd L tf.lastChunk tf).2 else t

theorem resetInner_resets {s : ChunkManager} (hload : s.duringLoad = false) (tf : TorrentFile) :
    Resets s (resetInner L s tf) fun i =>
      (tf.firstChunk < i ∧ i < tf.lastChunk) ∧ i < L.numChunks := by
  refine (resetChunks_resets hload).congr fun i => ?_
  rw [List.mem_range'_1]
  omega

/-- The first chunk of a file. -/
theorem resetFirst_spec {s : ChunkManager} (hload : s.duringLoad = false) (tf : TorrentFile) :
    ((resetInner L s tf).resetEnd L tf.firstChunk tf).1 = !keepsChunk L s tf tf.firstChunk ∧
      Resets s ((resetInner L s tf).resetEnd L tf.firstChunk tf).2 fun i =>
        ((tf.firstChunk < i ∧ i < tf.lastChunk) ∧ i < L.numChunks) ∨
          (i = tf.firstChunk ∧ i < L.numChunks) ∧ keepsChunk L s tf tf.firstChunk = false := by
  have hinner := resetInner_resets (L := L) hload tf
  obtain ⟨hflag, hres⟩ := resetEnd_spec (L := L) (hinner.load.trans hload) tf.firstChunk tf
  rw [keepsChunk_congr hinner.priority] at hflag hres
  exact ⟨hflag, hinner.trans hres⟩

/-- A file of several chunks: its chunks are reset, and what is left of its range is excluded. -/
theorem excludeFile_of_ne {s : ChunkManager} (hload : s.duringLoad = false) {tf : TorrentFile}
    (hne : tf.firstChunk ≠ tf.lastChunk) :
    s.excludeFile L tf =
      if newFirst L s tf ≤ newLast L s tf then
        (resetEnds L s tf).exclude L (newFirst L s tf) (newLast L s tf)
      else resetEnds L s tf := by
  obtain ⟨hflag₁, hres₁⟩ := resetFirst_spec (L := L) hload tf
  obtain ⟨hflag₂, -⟩ := resetEnd_spec (L := L) (hres₁.load.trans hload) tf.lastChunk tf
  rw [keepsChunk_congr hres₁.priority] at hflag₂
  have hfirst : (if ((resetInner L s tf).resetEnd L tf.firstChunk tf).1 then tf.firstChunk
      else tf.firstChunk + 1) = newFirst L s tf := by
    rw [newFirst, hflag₁]
    cases keepsChunk L s tf tf.firstChunk <;> rfl
  have hinner : (List.range' (tf.firstChunk + 1) (tf.lastChunk - (tf.firstChunk + 1))).foldl
      (resetChunk L) s = resetInner L s tf := rfl
  unfold excludeFile
  simp only [if_neg hne, hinner, hfirst]
  by_cases hlast : tf.lastChunk ≠ newFirst L s tf
  · have hnew : (if (((resetInner L s tf).resetEnd L tf.firstChunk tf).2.resetEnd L tf.lastChunk
        tf).1 then tf.lastChunk else tf.lastChunk - 1) = newLast L s tf := by
      rw [newLast, hflag₂]
      cases keepsChunk L s tf tf.lastChunk <;> simp [hlast]
    have hends : resetEnds L s tf =
        (((resetInner L s tf).resetEnd L tf.firstChunk tf).2.resetEnd L tf.lastChunk tf).2 :=
      if_pos hlast
    rw [if_pos hlast, hnew, hends]
  · have hnew : newLast L s tf = tf.lastChunk := by simp [newLast, hlast]
    have hends : resetEnds L s tf = ((resetInner L s tf).resetEnd L tf.firstChunk tf).2 :=
      if_neg hlast
    rw [if_neg hlast, hnew, hends]
    rfl

/-- Only chunks of the range are reset. -/
theorem resetEnds_resets {s : ChunkManager} (hload : s.duringLoad = false) {tf : TorrentFile}
    (hlt : tf.firstChunk < tf.lastChunk) :
    ∃ R, Resets s (resetEnds L s tf) R ∧
      ∀ i, R i → (newFirst L s tf ≤ i ∧ i ≤ newLast L s tf) ∧ i < L.numChunks := by
  obtain ⟨hnf₁, hnf₂⟩ := newFirst_bounds (L := L) s tf
  obtain ⟨hnl₁, hnl₂⟩ := newLast_bounds (L := L) s tf
  obtain ⟨-, hres₁⟩ := resetFirst_spec (L := L) hload tf
  have hsub : ∀ i, (((tf.firstChunk < i ∧ i < tf.lastChunk) ∧ i < L.numChunks) ∨
      ((i = tf.firstChunk ∧ i < L.numChunks) ∧ keepsChunk L s tf tf.firstChunk = false)) →
      (newFirst L s tf ≤ i ∧ i ≤ newLast L s tf) ∧ i < L.numChunks := by
    rintro i (hi | ⟨⟨rfl, hi⟩, hk⟩)
    · omega
    · have hnew : newFirst L s tf = tf.firstChunk := by rw [newFirst, hk]; rfl
      omega
  unfold resetEnds
  dsimp only
  split
  · rename_i hlast
    obtain ⟨-, hres₂⟩ := resetEnd_spec (L := L) (hres₁.load.trans hload) tf.lastChunk tf
    rw [keepsChunk_congr hres₁.priority] at hres₂
    refine ⟨_, hres₁.trans hres₂, ?_⟩
    rintro i (hi | ⟨⟨rfl, hi⟩, hk⟩)
    · exact hsub i hi
    · have hnew : newLast L s tf = tf.lastChunk := by simp [newLast, hk]
      omega
  · exact ⟨_, hres₁, hsub⟩

/-- **What excluding a file takes out.** -/
theorem excludeFile_spec {s : ChunkManager} (hload : s.duringLoad = false) {tf : TorrentFile}
    (hle : tf.firstChunk ≤ tf.lastChunk) :
    Excludes s (s.excludeFile L tf) (TakenOut L s tf) := by
  by_cases hone : tf.firstChunk = tf.lastChunk
  · -- the file lies in one chunk
    obtain ⟨hflag, hres⟩ := resetEnd_spec (L := L) hload tf.firstChunk tf
    unfold excludeFile TakenOut
    simp only [if_pos hone, hflag]
    cases hk : keepsChunk L s tf tf.firstChunk with
    | true =>
      have hsame : SameChunks s (s.resetEnd L tf.firstChunk tf).2 := hres.congr (by simp [hk])
      exact hsame.excludes_nothing (by simp)
    | false =>
      have hT : (fun i => (i = tf.firstChunk ∧ false = false) ∧ i < L.numChunks) =
          fun i => (tf.firstChunk ≤ i ∧ i ≤ tf.lastChunk) ∧ i < L.numChunks := by
        funext i
        simp only [and_true, eq_iff_iff]
        omega
      rw [hT]
      exact exclude_excludes hres hle (by rintro i ⟨⟨rfl, hi⟩, -⟩; omega)
  · obtain ⟨R, hR, hsub⟩ := resetEnds_resets (L := L) hload (lt_of_le_of_ne hle hone)
    rw [excludeFile_of_ne hload hone]
    unfold TakenOut
    simp only [if_neg hone]
    by_cases hrange : newFirst L s tf ≤ newLast L s tf
    · rw [if_pos hrange]
      exact exclude_excludes hR hrange hsub
    · rw [if_neg hrange]
      have hnone : SameChunks s (resetEnds L s tf) := hR.congr fun i => iff_of_false
        (fun hc => hrange (by have := hsub i hc; omega)) id
      exact hnone.excludes_nothing fun i hi => hrange (by omega)

/-! ## Including a file -/

/-- The manager `t` is `s` with the chunks of `I` included again. -/
structure Reincludes (s t : ChunkManager) (I : ℕ → Prop) : Prop where
  priority : t.priority = s.priority
  index : t.indexFile = s.indexFile
  load : t.duringLoad = s.duringLoad
  bitset : t.bitset = s.bitset
  onDisk : t.onDisk = s.onDisk
  included : ∀ i, I i → t.excludedChunks i = false
  kept : ∀ i, ¬ I i → t.excludedChunks i = s.excludedChunks i

theorem SameChunks.reincludes {s t : ChunkManager} (h : SameChunks s t) :
    Reincludes s t fun _ => False where
  priority := h.priority
  index := h.index
  load := h.load
  bitset := funext fun i => (h.kept i id).1
  onDisk := funext fun i => (h.kept i id).2
  included := fun _ hi => hi.elim
  kept := fun i _ => congrFun h.excluded i

theorem Reincludes.trans {s t u : ChunkManager} {I I' : ℕ → Prop} (h : Reincludes s t I)
    (h' : Reincludes t u I') : Reincludes s u fun i => I i ∨ I' i where
  priority := h'.priority.trans h.priority
  index := h'.index.trans h.index
  load := h'.load.trans h.load
  bitset := h'.bitset.trans h.bitset
  onDisk := h'.onDisk.trans h.onDisk
  included := by
    intro i hi
    by_cases h₂ : I' i
    · exact h'.included i h₂
    · exact (h'.kept i h₂).trans (h.included i (hi.resolve_right h₂))
  kept := by
    intro i hi
    exact (h'.kept i fun hc => hi (.inr hc)).trans (h.kept i fun hc => hi (.inl hc))

theorem Reincludes.congr {s t : ChunkManager} {I I' : ℕ → Prop} (h : Reincludes s t I)
    (hI : ∀ i, I i ↔ I' i) : Reincludes s t I' :=
  { h with
    included := fun i hi => h.included i ((hI i).2 hi)
    kept := fun i hi => h.kept i fun hc => hi ((hI i).1 hc) }

theorem Reincludes.trans_same {s t u : ChunkManager} {I : ℕ → Prop} (h : Reincludes s t I)
    (h' : SameChunks t u) : Reincludes s u I :=
  (h.trans h'.reincludes).congr fun _ => or_iff_left id

theorem include_reincludes (s : ChunkManager) {a b : ℕ} (hab : a ≤ b) :
    Reincludes s (s.include_ L a b) fun i => (a ≤ i ∧ i ≤ b) ∧ i < L.numChunks := by
  refine ⟨rfl, rfl, rfl, rfl, rfl, ?_, ?_⟩
  · intro i hi
    simp only [include_, onRange, if_pos (by omega : min a b ≤ i ∧ i ≤ max a b ∧ i < L.numChunks)]
  · intro i hi
    simp only [include_, onRange,
      if_neg (by omega : ¬ (min a b ≤ i ∧ i ≤ max a b ∧ i < L.numChunks))]

theorem downloadStatusChanged_includes (s : ChunkManager) {tf : TorrentFile}
    (hle : tf.firstChunk ≤ tf.lastChunk) :
    Reincludes s (s.downloadStatusChanged L cfg tf true)
      fun i => (tf.firstChunk ≤ i ∧ i ≤ tf.lastChunk) ∧ i < L.numChunks := by
  have hinc := include_reincludes (L := L) s hle
  simp only [downloadStatusChanged, if_true]
  split
  · exact (hinc.trans_same (doPreviewPriority_same ..)).trans_same (savePriorityInfo_same ..)
  · exact hinc.trans_same (savePriorityInfo_same ..)

/-- The priorities of a file's chunks: at a border the highest one of its files. -/
theorem setFilePriority_same (s : ChunkManager) (first last : ℕ) (p : Priority) :
    SameChunks s
      (if first = last then
        if isBorderChunk L first then s.setBorderChunkPriority L first p
        else s.prioritise L first first p
      else
        let (first', s') :=
          if isBorderChunk L first then (first + 1, s.setBorderChunkPriority L first p)
          else (first, s)
        let (last', s'') :=
          if isBorderChunk L last then (last - 1, s'.setBorderChunkPriority L last p)
          else (last, s')
        if first' ≤ last' then s''.prioritise L first' last' p else s'') := by
  by_cases hone : first = last
  · rw [if_pos hone]
    split
    · exact setBorderChunkPriority_same ..
    · exact prioritise_same ..
  · rw [if_neg hone]
    have h₁ : SameChunks s (if isBorderChunk L first then
        (first + 1, s.setBorderChunkPriority L first p) else (first, s)).2 := by
      split
      · exact setBorderChunkPriority_same ..
      · exact .refl s
    generalize (if isBorderChunk L first then
      (first + 1, s.setBorderChunkPriority L first p) else (first, s)) = r₁ at h₁ ⊢
    obtain ⟨first', s'⟩ := r₁
    dsimp only at h₁ ⊢
    have h₂ : SameChunks s (if isBorderChunk L last then
        (last - 1, s'.setBorderChunkPriority L last p) else (last, s')).2 := by
      split
      · exact h₁.trans (setBorderChunkPriority_same ..)
      · exact h₁
    generalize (if isBorderChunk L last then
      (last - 1, s'.setBorderChunkPriority L last p) else (last, s')) = r₂ at h₂ ⊢
    obtain ⟨last', s''⟩ := r₂
    dsimp only at h₂ ⊢
    split
    · exact h₂.trans (prioritise_same ..)
    · exact h₂

/-- **What a priority other than `excluded` includes**: all chunks of the file, if
it was excluded or only seeded before. -/
theorem downloadPriorityChanged_includes (s : ChunkManager) {tf : TorrentFile}
    (hle : tf.firstChunk ≤ tf.lastChunk) {p : Priority} (hp : p ≠ .excluded) (old : Priority) :
    Reincludes s (s.downloadPriorityChanged L cfg tf p old) fun i =>
      (old = .excluded ∨ old = .onlySeed) ∧
        (tf.firstChunk ≤ i ∧ i ≤ tf.lastChunk) ∧ i < L.numChunks := by
  unfold downloadPriorityChanged
  rw [if_neg hp]
  dsimp only
  set s₁ := (if old = .excluded then s.downloadStatusChanged L cfg tf true else s) with hs₁
  have h₁ : Reincludes s s₁ fun i =>
      old = .excluded ∧ (tf.firstChunk ≤ i ∧ i ≤ tf.lastChunk) ∧ i < L.numChunks := by
    rw [hs₁]
    split
    · rename_i hold
      exact (downloadStatusChanged_includes s hle).congr (by simp [hold])
    · rename_i hold
      exact (SameChunks.refl s).reincludes.congr (by simp [hold])
  have h₂ := h₁.trans_same (savePriorityInfo_same (L := L) s₁)
  set s₂ := s₁.savePriorityInfo L
  set s₃ := (if old = .onlySeed then s₂.include_ L tf.firstChunk tf.lastChunk else s₂) with hs₃
  have h₃ : Reincludes s s₃ fun i => (old = .excluded ∨ old = .onlySeed) ∧
      (tf.firstChunk ≤ i ∧ i ≤ tf.lastChunk) ∧ i < L.numChunks := by
    rw [hs₃]
    split
    · rename_i hold
      exact (h₂.trans (include_reincludes s₂ hle)).congr (by simp [hold])
    · rename_i hold
      exact h₂.congr (by simp [hold])
  have h₄ := h₃.trans_same (setFilePriority_same (L := L) s₃ tf.firstChunk tf.lastChunk p)
  split
  · exact h₄.trans_same (doPreviewPriority_same ..)
  · exact h₄

/-! ## One change of a priority -/

/-- The state in which the manager is told of a changed priority. -/
def withPriority (s : ChunkManager) (tf : TorrentFile) (p : Priority) : ChunkManager :=
  { s with
    oldPriority := Function.update s.oldPriority tf.index (s.priority tf.index)
    priority := Function.update s.priority tf.index p }

@[simp] theorem withPriority_self (s : ChunkManager) (tf : TorrentFile) (p : Priority) :
    (s.withPriority tf p).priority tf.index = p := by
  simp [withPriority]

theorem withPriority_of_ne (s : ChunkManager) {tf : TorrentFile} (p : Priority) {i : ℕ}
    (h : i ≠ tf.index) : (s.withPriority tf p).priority i = s.priority i := by
  simp [withPriority, Function.update_of_ne h]

theorem changePriority_excluded (L : Layout) (cfg : PreviewConfig) {s : ChunkManager} (hload : s.duringLoad = false)
    {tf : TorrentFile} (hle : tf.firstChunk ≤ tf.lastChunk) :
    Excludes (s.withPriority tf .excluded) (s.changePriority L cfg tf .excluded)
      (TakenOut L (s.withPriority tf .excluded) tf) := by
  have h := excludeFile_spec (L := L) (s := s.withPriority tf .excluded) hload hle
  have hsave := savePriorityInfo_same (L := L) ((s.withPriority tf .excluded).excludeFile L tf)
  exact {
    priority := hsave.priority.trans h.priority
    index := hsave.index.trans h.index
    load := hsave.load.trans h.load
    taken := fun i hi => ⟨(congrFun hsave.excluded i).trans (h.taken i hi).1,
      (hsave.kept i id).1.trans (h.taken i hi).2⟩
    taken_onDisk := fun i hi hd => h.taken_onDisk i hi ((hsave.kept i id).2.symm.trans hd)
    kept := fun i hi => ⟨(congrFun hsave.excluded i).trans (h.kept i hi).1,
      (hsave.kept i id).1.trans (h.kept i hi).2.1, (hsave.kept i id).2.trans (h.kept i hi).2.2⟩ }

theorem changePriority_included (L : Layout) (cfg : PreviewConfig) (s : ChunkManager) {tf : TorrentFile}
    (hle : tf.firstChunk ≤ tf.lastChunk) {p : Priority} (hp : p ≠ .excluded) :
    Reincludes (s.withPriority tf p) (s.changePriority L cfg tf p) fun i =>
      (s.priority tf.index = .excluded ∨ s.priority tf.index = .onlySeed) ∧
        (tf.firstChunk ≤ i ∧ i ≤ tf.lastChunk) ∧ i < L.numChunks :=
  downloadPriorityChanged_includes (s.withPriority tf p) hle hp (s.priority tf.index)

/-! ## Calls of the setters -/

theorem PriorityCall.file_mem (call : PriorityCall L) : call.file ∈ L.files := by
  cases call with
  | setPriority i p => exact List.getElem_mem i.isLt
  | setDoNotDownload i dnd => exact List.getElem_mem i.isLt

theorem setDoNotDownload_true (s : ChunkManager) (tf : TorrentFile) :
    s.setDoNotDownload L cfg tf true =
      if s.priority tf.index = .excluded then s else s.changePriority L cfg tf .excluded := by
  by_cases h : s.priority tf.index = .excluded <;> simp [setDoNotDownload, h]

theorem setDoNotDownload_false (s : ChunkManager) (tf : TorrentFile) :
    s.setDoNotDownload L cfg tf false =
      if s.priority tf.index = .excluded then s.changePriority L cfg tf .normal else s := by
  by_cases h : s.priority tf.index = .excluded <;> simp [setDoNotDownload, h]

/-- A call that excludes a file is one change of its priority. -/
theorem applyCall_excludes {s : ChunkManager} {call : PriorityCall L} (h : call.excludes = true)
    (hp : s.priority call.file.index ≠ .excluded) :
    s.applyCall L cfg call = s.changePriority L cfg call.file .excluded := by
  cases call with
  | setPriority i p =>
    obtain rfl : p = .excluded := by simpa [PriorityCall.excludes] using h
    simp only [PriorityCall.file] at hp ⊢
    rw [applyCall, setPriority, if_pos hp, if_neg hp, if_pos rfl, setDoNotDownload_true, if_neg hp]
  | setDoNotDownload i dnd =>
    obtain rfl : dnd = true := h
    simp only [PriorityCall.file] at hp ⊢
    rw [applyCall, setDoNotDownload_true, if_neg hp]

/-- Any other call is a sequence of changes to priorities other than `excluded`:
what these keep, the call keeps. -/
theorem applyCall_induction {P : ChunkManager → Prop} {s : ChunkManager} {call : PriorityCall L}
    (h : ¬ (call.excludes = true ∧ s.priority call.file.index ≠ .excluded)) (hs : P s)
    (hP : ∀ t p, P t → p ≠ .excluded → P (t.changePriority L cfg call.file p)) :
    P (s.applyCall L cfg call) := by
  cases call with
  | setPriority i p =>
    simp only [PriorityCall.file, PriorityCall.excludes, beq_iff_eq] at h hP
    simp only [applyCall, setPriority]
    by_cases hsame : s.priority L.files[i].index = p
    · rw [if_neg (by simpa using hsame)]
      exact hs
    · rw [if_pos hsame]
      by_cases hex : s.priority L.files[i].index = .excluded
      · -- a file that is included first gets normal priority
        have hpne : p ≠ .excluded := fun hc => hsame (hex.trans hc.symm)
        rw [if_pos hex, if_neg hpne, setDoNotDownload_false, if_pos hex]
        exact hP _ _ (hP _ _ hs (by simp)) hpne
      · have hpne : p ≠ .excluded := fun hc => h ⟨hc, hex⟩
        rw [if_neg hex, if_neg hpne]
        exact hP _ _ hs hpne
  | setDoNotDownload i dnd =>
    simp only [PriorityCall.file, PriorityCall.excludes] at h hP
    simp only [applyCall]
    cases dnd with
    | true =>
      have hex : s.priority L.files[i].index = .excluded := by
        by_contra hc
        exact h ⟨rfl, hc⟩
      rw [setDoNotDownload_true, if_pos hex]
      exact hs
    | false =>
      rw [setDoNotDownload_false]
      split
      · exact hP _ _ hs (by simp)
      · exact hs

/-- A new manager has no excluded and no downloaded chunk. -/
theorem new_same (L : Layout) (cfg : PreviewConfig) (indexFile : List ℕ) (fileInfo filePriority : Option (List ℕ)) :
    (new L cfg indexFile fileInfo filePriority).excludedChunks = (fun _ => false) ∧
    (new L cfg indexFile fileInfo filePriority).priority = (fun _ => .normal) ∧
    (new L cfg indexFile fileInfo filePriority).bitset = (fun _ => false) ∧
    (new L cfg indexFile fileInfo filePriority).onDisk = (fun _ => false) ∧
    (new L cfg indexFile fileInfo filePriority).indexFile = indexFile ∧
    (new L cfg indexFile fileInfo filePriority).duringLoad = false := by
  have hfold : ∀ (fs : List TorrentFile) (s : ChunkManager), SameChunks s
      (fs.foldl (fun s f => if cfg.isMultimedia f.index then s.doPreviewPriority L cfg f else s)
        s) := by
    intro fs
    induction fs with
    | nil => exact SameChunks.refl
    | cons f fs ih =>
      intro s
      refine SameChunks.trans ?_ (ih _)
      dsimp only
      split
      · exact doPreviewPriority_same ..
      · exact .refl s
  have h := hfold L.files
    { chunkPriority := fun _ => .normal, onDisk := fun _ => false, bitset := fun _ => false,
      excludedChunks := fun _ => false, onlySeedChunks := fun _ => false,
      todo := fun i => decide (i < L.numChunks), duringLoad := false, priority := fun _ => .normal,
      oldPriority := fun _ => .normal, indexFile := indexFile, fileInfoFile := fileInfo,
      filePriorityFile := filePriority }
  exact ⟨h.excluded, h.priority, funext fun i => (h.kept i id).1,
    funext fun i => (h.kept i id).2, h.index, h.load⟩

end ChunkManager
end KTorrent
