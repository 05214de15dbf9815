import Mathlib.Tactic

/-!
# Extents: a byte range cut along file boundaries

Files of given sizes lie one behind the other in one long sequence of bytes.
`extents` cuts a range of the sequence into pieces that each lie in one file.
This is the reference the walkers over a multi-file store are compared with.

* `extents_positions` — the pieces, read in order, are exactly the positions of
  the range, each of them once.
* `extents_within` — each piece is non-empty and lies inside its file.
* `extents_sum` — the lengths add up to the length of the range.
* `extents_append` — a range cut at a border between two files.
-/

namespace Extents

/-- A piece of a file. -/
structure Extent where
  /-- Index of the file. -/
  file : ℕ
  /-- First byte, counted from the start of the file. -/
  off : ℕ
  /-- Number of bytes. -/
  len : ℕ
  deriving DecidableEq, Repr

/-- The part of the range `[a, b)` in the file that starts at `base`. -/
def extent (idx base size a b : ℕ) : Option Extent :=
  if max a base < min b (base + size) then
    some ⟨idx, max a base - base, min b (base + size) - max a base⟩
  else none

/-- The range `[a, b)`, cut along the boundaries of files that start at `base`. -/
def extents (idx base : ℕ) : List ℕ → ℕ → ℕ → List Extent
  | [], _, _ => []
  | s :: ss, a, b => (extent idx base s a b).toList ++ extents (idx + 1) (base + s) ss a b

/-- The positions of an extent in the sequence, given where the files start. -/
def positions (start : ℕ → ℕ) (e : Extent) : List ℕ := List.range' (start e.file + e.off) e.len

theorem extents_positions (start : ℕ → ℕ) : ∀ (ss : List ℕ) (idx base a b : ℕ),
    (∀ i < ss.length, start (idx + i) = base + (ss.take i).sum) → a ≤ b → b ≤ base + ss.sum →
      (extents idx base ss a b).flatMap (positions start) =
        List.range' (max a base) (b - max a base) := by
  intro ss
  induction ss with
  | nil =>
    intro idx base a b _ _ hb
    have : b - max a base = 0 := by simp at hb; omega
    rw [this]
    rfl
  | cons s ss ih =>
    intro idx base a b hstart hab hb
    simp only [List.sum_cons] at hb
    have hrest := ih (idx + 1) (base + s) a b (by
      intro i hi
      rw [show idx + 1 + i = idx + (i + 1) by omega, hstart (i + 1) (by simpa using hi)]
      simp [Nat.add_assoc]) hab (by omega)
    have hfile : start idx = base := by simpa using hstart 0 (by simp)
    rw [extents, List.flatMap_append, hrest, extent]
    split
    · -- the file has bytes of the range: its positions come in front of the rest
      rename_i hlt
      simp only [Option.toList_some, List.flatMap_cons, List.flatMap_nil, List.append_nil,
        positions, hfile]
      rw [show base + (max a base - base) = max a base by omega, eq_comm,
        List.range'_eq_append_iff]
      exact ⟨_, by omega, rfl, by
        rcases Nat.lt_or_ge (base + s) b with hb' | hb'
        · congr 1 <;> omega
        · rw [show b - max a base - (min b (base + s) - max a base) = 0 by omega,
            show b - max a (base + s) = 0 by omega]
          rfl⟩
    · rename_i hge
      simp only [Option.toList_none, List.flatMap_nil, List.nil_append]
      rcases Nat.lt_or_ge (max a base) b with hlt | hge'
      · congr 1 <;> omega
      · rw [show b - max a base = 0 by omega, show b - max a (base + s) = 0 by omega]
        rfl

/-- The extents of a range, in order, are its positions, each of them once. -/
theorem extents_cover (sizes : List ℕ) {a b : ℕ} (hab : a ≤ b) (hb : b ≤ sizes.sum) :
    (extents 0 0 sizes a b).flatMap (positions fun i => (sizes.take i).sum) =
      List.range' a (b - a) := by
  have := extents_positions (fun i => (sizes.take i).sum) sizes 0 0 a b (by simp) hab (by simpa)
  simpa using this

/-- The lengths of the extents add up. -/
theorem extents_sum (sizes : List ℕ) {a b : ℕ} (hab : a ≤ b) (hb : b ≤ sizes.sum) :
    ((extents 0 0 sizes a b).map Extent.len).sum = b - a := by
  have := congrArg List.length (extents_cover sizes hab hb)
  rw [List.length_flatMap, List.length_range'] at this
  simpa [positions, Function.comp_def] using this

/-- Each extent is a non-empty part of its file. -/
theorem extents_within : ∀ (ss : List ℕ) (idx base a b : ℕ) (e : Extent),
    e ∈ extents idx base ss a b → 0 < e.len ∧ idx ≤ e.file ∧
      ∃ s, ss[e.file - idx]? = some s ∧ e.off + e.len ≤ s := by
  intro ss
  induction ss with
  | nil => intro idx base a b e he; simp [extents] at he
  | cons s ss ih =>
    intro idx base a b e he
    rw [extents, List.mem_append] at he
    rcases he with he | he
    · rw [extent] at he
      split at he
      · obtain rfl : e = _ := by simpa using he
        exact ⟨by simp only; omega, le_rfl, s, by simp, by simp only; omega⟩
      · simp at he
    · obtain ⟨hpos, hidx, t, ht, hle⟩ := ih (idx + 1) (base + s) a b e he
      refine ⟨hpos, by omega, t, ?_, hle⟩
      rw [show e.file - idx = e.file - (idx + 1) + 1 by omega, List.getElem?_cons_succ]
      exact ht

/-! ## Cutting a range in two -/

/-- No file has a byte of an empty range. -/
theorem extents_eq_nil : ∀ (ss : List ℕ) (idx base a b : ℕ), b ≤ max a base →
    extents idx base ss a b = [] := by
  intro ss
  induction ss with
  | nil => intros; rfl
  | cons s ss ih =>
    intro idx base a b h
    rw [extents, extent, if_neg (by omega), ih _ _ _ _ (by omega)]
    rfl

/-- What lies in front of the files does not count. -/
theorem extents_congr_left : ∀ (ss : List ℕ) (idx base a a' b : ℕ), max a base = max a' base →
    extents idx base ss a b = extents idx base ss a' b := by
  intro ss
  induction ss with
  | nil => intros; rfl
  | cons s ss ih =>
    intro idx base a a' b h
    rw [extents, extents, extent, extent, h, ih _ _ a a' b (by omega)]

/-- A range cut where a file starts or ends. -/
theorem extents_append : ∀ (ss : List ℕ) (idx base a p b : ℕ), a ≤ p → p ≤ b →
    (∃ i, base + (ss.take i).sum = p) →
      extents idx base ss a b = extents idx base ss a p ++ extents idx base ss p b := by
  intro ss
  induction ss with
  | nil => intros; rfl
  | cons s ss ih =>
    intro idx base a p b hap hpb hborder
    obtain ⟨i, hi⟩ := hborder
    cases i with
    | zero =>
      -- the border lies in front of all files
      obtain rfl : base = p := by simpa using hi
      rw [extents_eq_nil _ _ _ a base (le_max_right _ _), List.nil_append]
      exact extents_congr_left _ _ _ _ _ _ (by omega)
    | succ i =>
      simp only [List.take_succ_cons, List.sum_cons] at hi
      have hrest := ih (idx + 1) (base + s) a p b hap hpb ⟨i, by omega⟩
      have hnone : extent idx base s p b = none := by rw [extent, if_neg (by omega)]
      have hsame : extent idx base s a b = extent idx base s a p := by
        rw [extent, extent, show min b (base + s) = min p (base + s) by omega]
      rw [extents, extents, extents, hnone, hsame, hrest, Option.toList_none, List.nil_append,
        List.append_assoc]

/-- Only the first file of a range is entered behind its start. -/
theorem extents_start (start : ℕ → ℕ) : ∀ (ss : List ℕ) (idx base a b : ℕ),
    (∀ i < ss.length, start (idx + i) = base + (ss.take i).sum) →
      ∀ e ∈ extents idx base ss a b, start e.file + e.off = max a (start e.file) := by
  intro ss
  induction ss with
  | nil => intro idx base a b _ e he; simp [extents] at he
  | cons s ss ih =>
    intro idx base a b hstart e he
    rw [extents, List.mem_append] at he
    rcases he with he | he
    · have hfile : start idx = base := by simpa using hstart 0 (by simp)
      rw [extent] at he
      split at he
      · obtain rfl : e = _ := by simpa using he
        simp only [hfile]
        omega
      · simp at he
    · refine ih (idx + 1) (base + s) a b (fun i hi => ?_) e he
      rw [show idx + 1 + i = idx + (i + 1) by omega, hstart (i + 1) (by simpa using hi)]
      simp [Nat.add_assoc]

end Extents
