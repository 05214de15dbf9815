import Mathlib.Order.Defs.LinearOrder
import Mathlib.Tactic

/-!
# Sets ordered by a key

A set whose elements are ordered by a key is a list in increasing order.  Elements
with the same key are the same for the set: only the first one of them gets in.

* `insert`, `contains` — the operations.
* `sorted_insert` — the order is kept.
* `mem_insert` — what an insertion adds: the element, if its key is new.
* `map_insert` — the keys are inserted in the same way.
* `eq_of_key` — a key has one element.
-/

namespace OrderedSet

variable {α κ : Type*} [LinearOrder κ] {key : α → κ} {a b : α} {l : List α}

/-- The element with the same key is in the set. -/
def contains (key : α → κ) (a : α) (l : List α) : Bool := l.any fun b => key b = key a

/-- The element is put in its place, unless there is one with the same key. -/
def insert (key : α → κ) (a : α) : List α → List α
  | [] => [a]
  | b :: l =>
    if key b < key a then b :: insert key a l
    else if key a < key b then a :: b :: l
    else b :: l

/-- The keys increase. -/
def Sorted (key : α → κ) (l : List α) : Prop := l.Pairwise fun a b => key a < key b

theorem contains_iff : contains key a l ↔ ∃ b ∈ l, key b = key a := by
  rw [contains, List.any_eq_true]
  exact exists_congr fun b => and_congr_right fun _ => decide_eq_true_iff

/-- **What an insertion adds.** -/
theorem mem_insert (hl : Sorted key l) :
    b ∈ insert key a l ↔ b ∈ l ∨ b = a ∧ ¬ contains key a l := by
  induction l with
  | nil => simp [insert, contains]
  | cons c l ih =>
    obtain ⟨hc, hl⟩ := List.pairwise_cons.mp hl
    rw [insert]
    split
    case isTrue hlt =>
      have hsame : contains key a (c :: l) = contains key a l := by
        simp [contains, hlt.ne]
      rw [List.mem_cons, ih hl, List.mem_cons, hsame, or_assoc]
    case isFalse hge =>
      split
      case isTrue hlt =>
        have hnew : ¬ contains key a (c :: l) := by
          rw [contains_iff]
          rintro ⟨d, hd, hkey⟩
          rcases List.mem_cons.mp hd with rfl | hd
          · exact absurd hkey hlt.ne'
          · exact absurd hkey (hlt.trans (hc d hd)).ne'
        rw [List.mem_cons, or_comm, and_iff_left hnew]
      case isFalse hle =>
        have hsame : contains key a (c :: l) := by
          rw [contains_iff]
          exact ⟨c, List.mem_cons_self, le_antisymm (not_lt.mp hle) (not_lt.mp hge)⟩
        rw [iff_self_or]
        exact fun h => absurd hsame h.2

theorem sorted_insert (hl : Sorted key l) : Sorted key (insert key a l) := by
  induction l with
  | nil => exact List.pairwise_singleton _ a
  | cons c l ih =>
    obtain ⟨hc, hrest⟩ := List.pairwise_cons.mp hl
    rw [insert]
    split
    case isTrue hlt =>
      refine List.pairwise_cons.mpr ⟨fun b hb => ?_, ih hrest⟩
      rcases (mem_insert hrest).mp hb with hb | ⟨rfl, -⟩
      · exact hc b hb
      · exact hlt
    case isFalse =>
      split
      case isTrue hlt =>
        refine List.pairwise_cons.mpr ⟨fun b hb => ?_, hl⟩
        rcases List.mem_cons.mp hb with rfl | hb
        · exact hlt
        · exact hlt.trans (hc b hb)
      case isFalse => exact hl

/-- Only the keys matter for the place of an element. -/
theorem map_insert : (insert key a l).map key = insert id (key a) (l.map key) := by
  induction l with
  | nil => rfl
  | cons c l ih =>
    rw [insert, List.map_cons, insert]
    simp only [id_eq]
    split_ifs
    · rw [List.map_cons, ih]
    · rfl
    · rfl

/-- In a set of keys nothing but the key is added. -/
theorem mem_insert_id {x y : κ} {ks : List κ} (h : Sorted id ks) :
    y ∈ insert id x ks ↔ y ∈ ks ∨ y = x := by
  rw [mem_insert h, contains_iff]
  constructor
  · exact Or.imp_right And.left
  · rintro (hy | rfl)
    · exact .inl hy
    · by_cases hy : y ∈ ks
      · exact .inl hy
      · refine .inr ⟨rfl, ?_⟩
        rintro ⟨b, hb, rfl⟩
        exact hy hb

/-- A key has one element. -/
theorem eq_of_key (hl : Sorted key l) (ha : a ∈ l) (hb : b ∈ l) (h : key a = key b) : a = b := by
  induction l with
  | nil => cases ha
  | cons c l ih =>
    obtain ⟨hc, hrest⟩ := List.pairwise_cons.mp hl
    rcases List.mem_cons.mp ha with rfl | ha' <;> rcases List.mem_cons.mp hb with rfl | hb'
    · rfl
    · exact absurd h (hc b hb').ne
    · exact absurd h (hc a ha').ne'
    · exact ih hrest ha' hb'

end OrderedSet
