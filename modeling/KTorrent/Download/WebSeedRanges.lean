import KTorrent.Download.WebSeed

/-!
# The ranges a web seed asks for

The ranges of several chunks are joined where they lie in one file, so that the
queue holds one range for each file.

* `merge_extents` — joining the ranges of two neighbouring stretches gives the
  ranges of both.
* `fillRanges_eq` — the queue of a range of chunks is the range, cut along the
  boundaries of the files.
* `skipRanges_append`, `skipRanges_suffix` — what is left after the bytes that
  are there are passed over.
-/

namespace KTorrent

open Extents

/-! ## Joining ranges -/

/-- A range of another file does not touch the front of the queue. -/
theorem foldl_addRange_cons {x : Extent} : ∀ {rs : List Extent} (q : List Extent),
    (∀ r ∈ rs, r.file ≠ x.file) → rs.foldl addRange (x :: q) = x :: rs.foldl addRange q := by
  intro rs
  induction rs with
  | nil => intros; rfl
  | cons r rs ih =>
    intro q h
    have hne : x.file ≠ r.file := (h r (by simp)).symm
    have hadd : addRange (x :: q) r = x :: addRange q r := by
      cases q with
      | nil => simp [addRange, hne]
      | cons y q => rfl
    rw [List.foldl_cons, List.foldl_cons, hadd]
    exact ih _ fun r' hr' => h r' (by simp [hr'])

theorem extents_file_ne {idx base a b : ℕ} {ss : List ℕ} :
    ∀ e ∈ extents (idx + 1) base ss a b, e.file ≠ idx := fun e he => by
  have := (extents_within ss (idx + 1) base a b e he).2.1
  omega

/-- Ranges of different files stay as they are. -/
theorem merge_nil : ∀ (ss : List ℕ) (idx base a b : ℕ),
    (extents idx base ss a b).foldl addRange [] = extents idx base ss a b := by
  intro ss
  induction ss with
  | nil => intros; rfl
  | cons s ss ih =>
    intro idx base a b
    rw [extents]
    cases hx : extent idx base s a b with
    | none => exact ih _ _ _ _
    | some x =>
      have hfile : x.file = idx := by
        rw [extent] at hx
        split at hx
        · rw [← Option.some.inj hx]
        · cases hx
      rw [Option.toList_some, List.singleton_append, List.foldl_cons, addRange,
        foldl_addRange_cons [] (by rw [hfile]; exact extents_file_ne), ih]

/-- Joining the ranges of two neighbouring stretches gives the ranges of both. -/
theorem merge_extents : ∀ (ss : List ℕ) (idx base a b c : ℕ), a ≤ b → b ≤ c →
    base + ss.sum < 2 ^ 64 →
      (extents idx base ss b c).foldl addRange (extents idx base ss a b) =
        extents idx base ss a c := by
  intro ss
  induction ss with
  | nil => intros; rfl
  | cons s ss ih =>
    intro idx base a b c hab hbc hsum
    rw [List.sum_cons] at hsum
    rcases Nat.lt_or_ge b (base + s) with hlt | hge
    · -- the first stretch ends before this file does: its later files have nothing
      have hrest : extents (idx + 1) (base + s) ss a b = [] := extents_eq_nil _ _ _ _ _ (by omega)
      have hsame : extents (idx + 1) (base + s) ss b c = extents (idx + 1) (base + s) ss a c :=
        extents_congr_left _ _ _ _ _ _ (by omega)
      rcases Nat.lt_or_ge (max a base) b with hin | hout
      · have hx : extent idx base s a b = some ⟨idx, max a base - base, b - max a base⟩ := by
          rw [extent, if_pos (by omega), show min b (base + s) = b by omega]
        rw [extents, extents, extents, hx, hrest, hsame]
        rcases Nat.lt_or_ge b c with hbc' | hbc'
        · have hy : extent idx base s b c = some ⟨idx, b - base, min c (base + s) - b⟩ := by
            rw [extent, if_pos (by omega), show max b base = b by omega]
          have hz : extent idx base s a c =
              some ⟨idx, max a base - base, min c (base + s) - max a base⟩ := by
            rw [extent, if_pos (by omega)]
          have hlen : u64 (b - max a base + (min c (base + s) - b)) =
              min c (base + s) - max a base := by
            rw [u64_of_lt (by omega)]
            omega
          rw [hy, hz, List.append_nil, Option.toList_some, Option.toList_some, Option.toList_some,
            List.singleton_append, List.foldl_cons, addRange, if_neg (by simp),
            foldl_addRange_cons [] extents_file_ne, merge_nil, List.singleton_append]
          simp only [hlen]
        · obtain rfl : b = c := by omega
          have hnone : extent idx base s b b = none := by rw [extent, if_neg (by omega)]
          rw [hnone, hx, hrest]
          rfl
      · have hfirst : extents idx base (s :: ss) a b = [] := extents_eq_nil _ _ _ _ _ hout
        rw [hfirst, merge_nil]
        exact extents_congr_left _ _ _ _ _ _ (by omega)
    · -- the file ends before the second stretch begins
      have hnone : extent idx base s b c = none := by rw [extent, if_neg (by omega)]
      have hsame : extent idx base s a c = extent idx base s a b := by
        rw [extent, extent, show min c (base + s) = min b (base + s) by omega]
      have hrest := ih (idx + 1) (base + s) a b c hab hbc (by omega)
      rw [extents, extents, extents, hnone, hsame, Option.toList_none, List.nil_append]
      cases hx : extent idx base s a b with
      | none => exact hrest
      | some x =>
        have hfile : x.file = idx := by
          rw [extent] at hx
          split at hx
          · rw [← Option.some.inj hx]
          · cases hx
        rw [Option.toList_some, List.singleton_append, List.singleton_append,
          foldl_addRange_cons _ (by rw [hfile]; exact extents_file_ne), hrest]

/-! ## The ranges of the chunks -/

namespace WebSeed

variable (L : Layout)

/-- The ranges of one chunk are its extents. -/
theorem fillRangeList_eq (cache : PosCache L) (queue : List Extent) {c : ℕ}
    (hc : c < L.numChunks) (hsize : L.sizeOfChunk c < 2 ^ 32) :
    fillRangeList L cache queue c =
      (extents 0 0 L.sizes (c * L.chunkSize) (L.chunkStop c)).foldl addRange queue := by
  have hbound := (L.chunk_bounds hc).2
  have hvis := ((walkers_agree_iff L hc).2 hsize).fillRangeList cache
  obtain ⟨hparts, hexact⟩ := overlapping_parts L (w := 64) (v := 64) hc le_rfl
    (hsize.trans (by decide))
  -- no part is empty: each file has a byte of the chunk
  have hall : visited ((fillRangeParts L cache c).map (·.extent c L.chunkSize)) =
      (fillRangeParts L cache c).map (·.extent c L.chunkSize) := by
    rw [visited, List.filter_eq_self]
    intro e he
    simp only [fillRangeParts, chunkFiles_eq L cache hc, Layout.getSize, u32_of_lt hsize,
      hparts] at he
    obtain ⟨p, hp, rfl⟩ := List.mem_map.1 he
    have hlen := (hexact p hp).len
    have hfile : p.file ∈ L.overlapping c := by
      rw [← exactParts_files (c * L.chunkSize) (L.chunkStop c) (L.overlapping c) 0
        (c * L.chunkSize)]
      exact List.mem_map_of_mem hp
    rw [Layout.overlapping, List.mem_filter] at hfile
    obtain ⟨hpos, hoff, hstop⟩ := (L.inChunk_iff hfile.1).1 hfile.2
    have hchunk := L.sizeOfChunk_pos c
    simp only [TorrentFile.stop] at hstop hlen
    simp only [ChunkPart.extent, hlen, decide_eq_true_eq]
    omega
  rw [fillRangeList, ← hall, hvis, hbound]

/-- A range of chunks ends with its last chunk. -/
theorem chunkStop_succ {c : ℕ} (hc : c + 1 < L.numChunks) : L.chunkStop c = (c + 1) * L.chunkSize := by
  have := (L.chunk_bounds hc).1
  exact min_eq_left this.le

/-- **The queue of a range of chunks** is the range, cut along the boundaries of the
files. -/
theorem fillRanges_eq (w : WebSeedSource)
    (hfit : ∀ c < w.layout.numChunks, w.layout.sizeOfChunk c < 2 ^ 32) (first : ℕ) :
    ∀ d : ℕ, first + d < w.layout.numChunks →
      fillRanges w first (first + d) =
        extents 0 0 w.layout.sizes (first * w.layout.chunkSize)
          (w.layout.chunkStop (first + d)) := by
  intro d
  induction d with
  | zero =>
    intro hd
    rw [fillRanges, show first + 0 + 1 - first = 1 by omega]
    simp only [List.range'_one, List.foldl_cons, List.foldl_nil]
    rw [fillRangeList_eq w.layout w.cache [] (by omega) (hfit first (by omega)), merge_nil,
      Nat.add_zero]
  | succ d ih =>
    intro hd
    have hprev := ih (by omega)
    rw [fillRanges, show first + d + 1 - first = d + 1 by omega] at hprev
    have hstart := chunkStop_succ w.layout (c := first + d) (by omega)
    have hbound := w.layout.chunk_bounds hd
    have hpos := w.layout.sizeOfChunk_pos (first + (d + 1))
    have htotal := w.layout.total_lt
    rw [fillRanges, show first + (d + 1) + 1 - first = (d + 1) + 1 by omega,
      List.range'_concat, List.foldl_append, hprev, Nat.one_mul]
    simp only [List.foldl_cons, List.foldl_nil]
    rw [fillRangeList_eq w.layout w.cache _ (by omega) (hfit _ (by omega)), hstart,
      Nat.add_assoc first d 1]
    refine merge_extents _ _ _ _ _ _ ?_ (by omega) (by omega)
    exact Nat.mul_le_mul_right _ (by omega)

/-! ## Passing over what is there -/

/-- What is left is a tail of the queue. -/
theorem skipRanges_suffix (bytes : ℕ) : ∀ (rs : List Extent) (length : ℕ),
    skipRanges bytes length rs <:+ rs := by
  intro rs
  induction rs with
  | nil => intros; exact List.suffix_refl _
  | cons r rs ih =>
    intro length
    rw [skipRanges]
    split
    · exact List.suffix_refl _
    · exact (ih _).trans (List.suffix_cons r rs)

/-- Ranges that add up to the bytes there are exactly are passed over. -/
theorem skipRanges_append {bytes : ℕ} (hbytes : bytes < 2 ^ 32) (ys : List Extent) :
    ∀ (xs : List Extent) (length : ℕ), (∀ x ∈ xs, 0 < x.len) →
      length + (xs.map Extent.len).sum = bytes → skipRanges bytes length (xs ++ ys) = ys := by
  intro xs
  induction xs with
  | nil =>
    intro length _ hsum
    obtain rfl : length = bytes := by simpa using hsum
    cases ys with
    | nil => rfl
    | cons y ys => rw [List.nil_append, skipRanges, if_pos le_rfl]
  | cons x xs ih =>
    intro length hpos hsum
    have hx := hpos x (by simp)
    rw [List.map_cons, List.sum_cons] at hsum
    rw [List.cons_append, skipRanges, if_neg (by omega), u32_of_lt (by omega)]
    exact ih _ (fun x' hx' => hpos x' (by simp [hx'])) (by omega)

end WebSeed

end KTorrent
