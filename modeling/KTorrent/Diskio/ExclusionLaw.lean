import KTorrent.Lib.Run
import KTorrent.Diskio.Exclusion

/-!
# The exclusion law

A chunk should be excluded exactly when every file that has data in it is.

* `SkipsLastCheck` — a file of exactly two chunks, both needed by other files.
  When such a file is excluded its first chunk is kept, which leaves a range of
  one chunk, and for a range of one chunk the check of the last chunk is skipped:
  the chunk is excluded although another file needs it.
* `exclusionLaw_excluded_iff` — the law survives the exclusion of a file exactly
  when the file is not of this kind.
* `exclusionLaw_iff` — it holds along a run of priority changes exactly when no
  call excludes such a file.
-/

namespace KTorrent

open Runs

/-! ## Files of a chunk -/

namespace DataLayout

variable (L : DataLayout)

theorem mem_overlapping {f : TorrentFile} {i : ℕ} :
    f ∈ L.overlapping i ↔ f ∈ L.files ∧ f.firstChunk ≤ i ∧ i ≤ f.lastChunk := by
  rw [Layout.overlapping, List.mem_filter]
  refine and_congr_right fun hf => ?_
  have hsize := L.size_pos hf
  simp only [TorrentFile.inChunk, Bool.and_eq_true, decide_eq_true_eq]
  omega

theorem first_le_last {f : TorrentFile} (hf : f ∈ L.files) : f.firstChunk ≤ f.lastChunk :=
  L.ordered.first_le_last f hf

/-- Of two files the one in front ends no later than the other starts. -/
theorem last_le_first_or {f g : TorrentFile} (hf : f ∈ L.files) (hg : g ∈ L.files)
    (hne : f.index ≠ g.index) : f.lastChunk ≤ g.firstChunk ∨ g.lastChunk ≤ f.firstChunk := by
  rcases Nat.lt_or_gt_of_ne hne with hlt | hlt
  · exact .inl (L.ordered.last_mono (L.getFile_index hf) (L.getFile_index hg) hlt)
  · exact .inr (L.ordered.last_mono (L.getFile_index hg) (L.getFile_index hf) hlt)

/-- A chunk with data of two files is a border chunk. -/
theorem isBorderChunk_of_two {f g : TorrentFile} {i : ℕ} (hf : f ∈ L.overlapping i)
    (hg : g ∈ L.overlapping i) (hlt : f.index < g.index) : isBorderChunk L.toLayout i = true := by
  rw [mem_overlapping] at hf hg
  exact Layout.isBorderChunk_of_two hf.1 hg.1 hf.2 hg.2 hlt

end DataLayout

namespace ChunkManager

variable (L : DataLayout) (cfg : PreviewConfig)

theorem neededByOther_iff {s : ChunkManager} {tf : TorrentFile} {i : ℕ} :
    neededByOther L.toLayout s tf i = true ↔
      ∃ f ∈ L.overlapping i, f.index ≠ tf.index ∧ s.priority f.index ≠ .excluded := by
  simp [neededByOther, List.any_eq_true]

/-- At the ends of a file, the manager keeps a chunk that another file needs. -/
theorem keepsChunk_eq {s : ChunkManager} {tf : TorrentFile} {i : ℕ} (htf : tf ∈ L.overlapping i) :
    keepsChunk L.toLayout s tf i = neededByOther L.toLayout s tf i := by
  rw [keepsChunk]
  cases hn : neededByOther L.toLayout s tf i with
  | false => simp
  | true =>
    obtain ⟨f, hf, hne, -⟩ := (neededByOther_iff L).1 hn
    have hborder : isBorderChunk L.toLayout i = true := by
      rcases Nat.lt_or_gt_of_ne hne with hlt | hlt
      · exact L.isBorderChunk_of_two hf htf hlt
      · exact L.isBorderChunk_of_two htf hf hlt
    rw [hborder]
    rfl

/-- No other file has data in a chunk between the first and the last one. -/
theorem not_neededByOther_between {s : ChunkManager} {tf : TorrentFile} (htf : tf ∈ L.files)
    {i : ℕ} (h₁ : tf.firstChunk < i) (h₂ : i < tf.lastChunk) :
    neededByOther L.toLayout s tf i = false := by
  rw [Bool.eq_false_iff]
  intro hn
  obtain ⟨f, hf, hne, -⟩ := (neededByOther_iff L).1 hn
  rw [L.mem_overlapping] at hf
  rcases L.last_le_first_or hf.1 htf hne with h | h
  · omega
  · omega

/-! ## The law -/

/-- A chunk is excluded exactly when all files with data in it are. -/
def ExclusionLaw (s : ChunkManager) : Prop :=
  ∀ i < L.numChunks, s.excludedChunks i = true ↔
    ∀ f ∈ L.overlapping i, s.priority f.index = .excluded

/-- A file of exactly two chunks that other files need both. -/
def SkipsLastCheck (s : ChunkManager) (tf : TorrentFile) : Prop :=
  tf.lastChunk = tf.firstChunk + 1 ∧ neededByOther L.toLayout s tf tf.firstChunk = true ∧
    neededByOther L.toLayout s tf tf.lastChunk = true

/-- The range that is left between the two ends. -/
theorem newRange_iff {s : ChunkManager} {tf : TorrentFile} (hlt : tf.firstChunk < tf.lastChunk)
    (i : ℕ) :
    (newFirst L.toLayout s tf ≤ i ∧ i ≤ newLast L.toLayout s tf) ↔
      (tf.firstChunk < i ∧ i < tf.lastChunk) ∨
      (i = tf.firstChunk ∧ keepsChunk L.toLayout s tf tf.firstChunk = false) ∨
      (i = tf.lastChunk ∧ (keepsChunk L.toLayout s tf tf.lastChunk = false ∨
        (tf.lastChunk = tf.firstChunk + 1 ∧
          keepsChunk L.toLayout s tf tf.firstChunk = true))) := by
  unfold newLast newFirst
  cases keepsChunk L.toLayout s tf tf.firstChunk with
  | false =>
    simp only [Bool.false_eq_true, if_false, and_false, or_false, and_true]
    cases keepsChunk L.toLayout s tf tf.lastChunk with
    | false =>
      simp only [Bool.false_eq_true, and_false, if_false, and_true]
      omega
    | true =>
      rw [if_pos ⟨by omega, rfl⟩]
      simp only [Bool.true_eq_false, and_false, or_false]
      omega
  | true =>
    simp only [if_true, Bool.true_eq_false, and_false, false_or, and_true]
    cases keepsChunk L.toLayout s tf tf.lastChunk with
    | false =>
      simp only [Bool.false_eq_true, and_false, if_false, true_or, and_true]
      omega
    | true =>
      simp only [and_true, Bool.true_eq_false, false_or]
      -- the check is skipped when the first chunk was the only other one
      by_cases hskip : tf.lastChunk ≠ tf.firstChunk + 1
      · rw [if_pos hskip]
        omega
      · rw [if_neg hskip]
        omega

/-- What is taken out with a file are the chunks that nobody else needs, unless
the check of the last chunk is skipped. -/
theorem takenOut_iff {s : ChunkManager} {tf : TorrentFile} (htf : tf ∈ L.files) {i : ℕ} :
    TakenOut L.toLayout s tf i ↔ (tf.firstChunk ≤ i ∧ i ≤ tf.lastChunk ∧
      (neededByOther L.toLayout s tf i = false ∨
        (SkipsLastCheck L s tf ∧ i = tf.lastChunk))) ∧ i < L.numChunks := by
  have hle := L.first_le_last htf
  have hkf := keepsChunk_eq L (s := s) (L.mem_overlapping.2 ⟨htf, le_rfl, hle⟩)
  have hkl := keepsChunk_eq L (s := s) (L.mem_overlapping.2 ⟨htf, hle, le_rfl⟩)
  rw [TakenOut, SkipsLastCheck]
  refine and_congr_left fun _ => ?_
  by_cases hone : tf.firstChunk = tf.lastChunk
  · -- one chunk
    rw [if_pos hone, hkf]
    constructor
    · rintro ⟨rfl, hn⟩
      exact ⟨le_rfl, hle, .inl hn⟩
    · rintro ⟨h₁, h₂, hn | ⟨⟨hc, -⟩, -⟩⟩
      · obtain rfl : i = tf.firstChunk := by omega
        exact ⟨rfl, hn⟩
      · omega
  · rw [if_neg hone, newRange_iff L (by omega), hkf, hkl]
    constructor
    · rintro (⟨h₁, h₂⟩ | ⟨rfl, hn⟩ | ⟨rfl, hn⟩)
      · exact ⟨h₁.le, h₂.le, .inl (not_neededByOther_between L htf h₁ h₂)⟩
      · exact ⟨le_rfl, hle, .inl hn⟩
      · refine ⟨hle, le_rfl, ?_⟩
        cases hl : neededByOther L.toLayout s tf tf.lastChunk with
        | false => exact .inl rfl
        | true =>
          obtain ⟨htwo, hf⟩ := hn.resolve_left (by simp [hl])
          exact .inr ⟨⟨htwo, hf, rfl⟩, rfl⟩
    · rintro ⟨h₁, h₂, hn⟩
      rcases Nat.eq_or_lt_of_le h₁ with rfl | h₁
      · exact .inr (.inl ⟨rfl, hn.resolve_right fun hc => hone hc.2⟩)
      · rcases Nat.eq_or_lt_of_le h₂ with rfl | h₂
        · refine .inr (.inr ⟨rfl, ?_⟩)
          rcases hn with hn | ⟨⟨htwo, hf, -⟩, -⟩
          · exact .inl hn
          · exact .inr ⟨htwo, hf⟩
        · exact .inl ⟨h₁, h₂⟩

/-- Whether others need a chunk does not depend on the file's own priority. -/
theorem neededByOther_withPriority (s : ChunkManager) (tf : TorrentFile) (p : Priority) (i : ℕ) :
    neededByOther L.toLayout (s.withPriority tf p) tf i = neededByOther L.toLayout s tf i := by
  unfold neededByOther
  refine congrArg (fun g => (L.overlapping i).any g) (funext fun f => ?_)
  by_cases hf : f.index = tf.index
  · simp [hf]
  · rw [withPriority_of_ne s p hf]

theorem skipsLastCheck_withPriority (s : ChunkManager) (tf : TorrentFile) (p : Priority) :
    SkipsLastCheck L (s.withPriority tf p) tf ↔ SkipsLastCheck L s tf := by
  rw [SkipsLastCheck, SkipsLastCheck, neededByOther_withPriority, neededByOther_withPriority]

/-- All files of a chunk are excluded once `tf` is: nobody else needs it. -/
theorem all_excluded_withPriority {s : ChunkManager} {tf : TorrentFile} {i : ℕ} :
    (∀ f ∈ L.overlapping i, (s.withPriority tf .excluded).priority f.index = .excluded) ↔
      neededByOther L.toLayout s tf i = false := by
  rw [Bool.eq_false_iff, ne_eq, neededByOther_iff]
  constructor
  · rintro h ⟨f, hf, hne, hp⟩
    have := h f hf
    rw [withPriority_of_ne s _ hne] at this
    exact hp this
  · intro h f hf
    by_cases hne : f.index = tf.index
    · rw [hne, withPriority_self]
    · rw [withPriority_of_ne s _ hne]
      by_contra hc
      exact h ⟨f, hf, hne, hc⟩

/-- The files of a chunk in which `tf` has no data keep their priorities. -/
theorem all_excluded_outside {s : ChunkManager} {tf : TorrentFile} (htf : tf ∈ L.files)
    (p : Priority) {i : ℕ} (hi : ¬ (tf.firstChunk ≤ i ∧ i ≤ tf.lastChunk)) :
    (∀ f ∈ L.overlapping i, s.priority f.index = .excluded) ↔
      ∀ f ∈ L.overlapping i, (s.withPriority tf p).priority f.index = .excluded := by
  refine forall₂_congr fun f hf => ?_
  have hne : f.index ≠ tf.index := by
    intro hc
    rw [L.mem_overlapping] at hf
    rw [L.index_inj hf.1 htf hc] at hf
    exact hi hf.2
  rw [withPriority_of_ne s p hne]

variable {L cfg}

/-- **The law and the exclusion of a file.** -/
theorem exclusionLaw_excluded_iff {s : ChunkManager} (hload : s.duringLoad = false)
    (hlaw : ExclusionLaw L s) {tf : TorrentFile} (htf : tf ∈ L.files)
    (hp : s.priority tf.index ≠ .excluded) :
    ExclusionLaw L (s.changePriority L.toLayout cfg tf .excluded) ↔ ¬ SkipsLastCheck L s tf := by
  have hle := L.first_le_last htf
  have hlast := L.lastChunk_lt htf (L.size_pos htf)
  have h := changePriority_excluded L.toLayout cfg hload hle
  -- a chunk of the file is not excluded before the step
  have hbefore : ∀ i, tf.firstChunk ≤ i → i ≤ tf.lastChunk → s.excludedChunks i = false := by
    intro i h₁ h₂
    rw [Bool.eq_false_iff]
    intro hc
    exact hp ((hlaw i (by omega)).1 hc tf (L.mem_overlapping.2 ⟨htf, h₁, h₂⟩))
  constructor
  · rintro hafter ⟨htwo, hf, hl⟩
    have htaken : TakenOut L.toLayout (s.withPriority tf .excluded) tf tf.lastChunk :=
      (takenOut_iff L htf).2 ⟨⟨hle, le_rfl, .inr ⟨(skipsLastCheck_withPriority L s tf _).2
        ⟨htwo, hf, hl⟩, rfl⟩⟩, hlast⟩
    have hall := (hafter tf.lastChunk hlast).1 (h.taken _ htaken).1
    rw [h.priority, all_excluded_withPriority L, hl] at hall
    exact absurd hall (by simp)
  · intro hskip i hi
    rw [h.priority]
    by_cases hrange : tf.firstChunk ≤ i ∧ i ≤ tf.lastChunk
    · rw [all_excluded_withPriority L]
      have htaken : TakenOut L.toLayout (s.withPriority tf .excluded) tf i ↔
          neededByOther L.toLayout s tf i = false := by
        rw [takenOut_iff L htf, neededByOther_withPriority, skipsLastCheck_withPriority]
        tauto
      by_cases hn : neededByOther L.toLayout s tf i = false
      · exact iff_of_true (h.taken i (htaken.2 hn)).1 hn
      · have hkept := (h.kept i fun hc => hn (htaken.1 hc)).1
        rw [hkept]
        refine iff_of_false ?_ hn
        rw [show (s.withPriority tf .excluded).excludedChunks i = false from
          hbefore i hrange.1 hrange.2]
        simp
    · -- a chunk without data of the file
      have hnot : ¬ TakenOut L.toLayout (s.withPriority tf .excluded) tf i := by
        rw [takenOut_iff L htf]
        tauto
      rw [(h.kept i hnot).1]
      exact (hlaw i hi).trans (all_excluded_outside L htf _ hrange)

/-- Any other priority keeps the law. -/
theorem exclusionLaw_included {s : ChunkManager} (hlaw : ExclusionLaw L s) {tf : TorrentFile}
    (htf : tf ∈ L.files) {p : Priority} (hp : p ≠ .excluded) :
    ExclusionLaw L (s.changePriority L.toLayout cfg tf p) := by
  have hle := L.first_le_last htf
  have h := changePriority_included L.toLayout cfg s hle hp
  intro i hi
  rw [h.priority]
  by_cases hrange : tf.firstChunk ≤ i ∧ i ≤ tf.lastChunk
  · -- the file needs the chunk, which is included or was not excluded
    refine iff_of_false ?_ fun hall => ?_
    · by_cases hinc : s.priority tf.index = .excluded ∨ s.priority tf.index = .onlySeed
      · rw [h.included i ⟨hinc, hrange, hi⟩]
        simp
      · rw [h.kept i fun hc => hinc hc.1]
        intro hex
        have := (hlaw i hi).1 hex tf (L.mem_overlapping.2 ⟨htf, hrange⟩)
        exact hinc (.inl this)
    · have := hall tf (L.mem_overlapping.2 ⟨htf, hrange⟩)
      rw [withPriority_self] at this
      exact hp this
  · rw [h.kept i fun hc => hrange hc.2.1]
    exact (hlaw i hi).trans (all_excluded_outside L htf _ hrange)

/-! ## Runs of priority changes -/

/-- The call does not exclude a file whose last chunk goes unchecked. -/
def ChecksLast (L : DataLayout) (s : ChunkManager) (call : PriorityCall L.toLayout) : Prop :=
  ¬ (call.excludes = true ∧ s.priority call.file.index ≠ .excluded ∧
    SkipsLastCheck L s call.file)

/-- The law, outside of loading. -/
def ExclusionInv (L : DataLayout) (s : ChunkManager) : Prop :=
  s.duringLoad = false ∧ ExclusionLaw L s

theorem exclusionInv_included {s : ChunkManager} (h : ExclusionInv L s) {tf : TorrentFile}
    (htf : tf ∈ L.files) {p : Priority} (hp : p ≠ .excluded) :
    ExclusionInv L (s.changePriority L.toLayout cfg tf p) := by
  refine ⟨?_, exclusionLaw_included h.2 htf hp⟩
  exact (changePriority_included _ _ s (L.first_le_last htf) hp).load.trans h.1

theorem exclusionInv_applyCall {s : ChunkManager} (h : ExclusionInv L s)
    {call : PriorityCall L.toLayout} (hok : ChecksLast L s call) :
    ExclusionInv L (s.applyCall L.toLayout cfg call) := by
  have htf := call.file_mem
  by_cases hex : call.excludes = true ∧ s.priority call.file.index ≠ .excluded
  · rw [applyCall_excludes hex.1 hex.2]
    refine ⟨?_, (exclusionLaw_excluded_iff h.1 h.2 htf hex.2).2 fun hc => hok ⟨hex.1, hex.2, hc⟩⟩
    exact (changePriority_excluded _ _ h.1 (L.first_le_last htf)).load.trans h.1
  · exact applyCall_induction hex h fun t p ht hp => exclusionInv_included ht htf hp

theorem not_exclusionLaw_applyCall {s : ChunkManager} (h : ExclusionInv L s)
    {call : PriorityCall L.toLayout} (hbad : ¬ ChecksLast L s call) :
    ¬ ExclusionLaw L (s.applyCall L.toLayout cfg call) := by
  obtain ⟨hex, hp, hskip⟩ := not_not.1 hbad
  rw [applyCall_excludes hex hp]
  exact fun hc => (exclusionLaw_excluded_iff h.1 h.2 call.file_mem hp).1 hc hskip

theorem exclusionInv_new (L : DataLayout) (cfg : PreviewConfig) (indexFile : List ℕ)
    (fileInfo filePriority : Option (List ℕ)) :
    ExclusionInv L (new L.toLayout cfg indexFile fileInfo filePriority) := by
  obtain ⟨hexcl, hprio, -, -, -, hload⟩ :=
    new_same L.toLayout cfg indexFile fileInfo filePriority
  refine ⟨hload, fun i hi => ?_⟩
  rw [hexcl, hprio]
  obtain ⟨f, fs, hf⟩ := List.exists_cons_of_ne_nil (L.overlapping_ne_nil hi)
  refine iff_of_false (by simp) fun hall => ?_
  have := hall f (by rw [hf]; simp)
  simp at this

/-- **The exclusion law along a run.**  From a manager whose files all have normal
priority, the law holds after every call exactly when no call excludes a file of
two chunks that other files need both. -/
theorem exclusionLaw_iff (L : DataLayout) (cfg : PreviewConfig) (indexFile : List ℕ)
    (fileInfo filePriority : Option (List ℕ)) (calls : List (PriorityCall L.toLayout)) :
    AllStates (applyCall L.toLayout cfg) (ExclusionLaw L)
        (new L.toLayout cfg indexFile fileInfo filePriority) calls ↔
      AllSteps (applyCall L.toLayout cfg) (ChecksLast L)
        (new L.toLayout cfg indexFile fileInfo filePriority) calls :=
  allStates_iff_allSteps (fun _ h => h.2) (fun _ _ h hok => exclusionInv_applyCall h hok)
    (fun _ _ h hbad => not_exclusionLaw_applyCall h hbad) calls _
    (exclusionInv_new L cfg indexFile fileInfo filePriority)

/-- Three files in two chunks; the one in the middle has half of each. -/
def twoChunkFile : DataLayout where
  chunkSize := 4
  sizes := [2, 4, 2]
  chunkSize_pos := by decide
  chunkSize_lt := by decide
  total_lt := by decide
  count_lt := by decide
  chunks_lt := by decide
  sizes_pos := by decide

/-- No multimedia files. -/
def noPreview : PreviewConfig where
  isMultimedia := fun _ => false
  isVideo := fun _ => false
  previewSizeAudio := 0
  previewSizeVideo := 0

/-- **The check of the last chunk is skipped.**  Excluding the file in the middle
of `twoChunkFile` excludes chunk 1, which the last file needs. -/
theorem exclusionLaw_fails :
    ¬ AllStates (applyCall twoChunkFile.toLayout noPreview) (ExclusionLaw twoChunkFile)
      (new twoChunkFile.toLayout noPreview [] none none) [.setDoNotDownload ⟨1, by decide⟩ true] := by
  rintro ⟨-, h⟩
  have hlaw := (h 1 (by decide)).1 (by decide) (TorrentFile.new 2 6 2 4) (by decide)
  revert hlaw
  decide

end ChunkManager
end KTorrent
