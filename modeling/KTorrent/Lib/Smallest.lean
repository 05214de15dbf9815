import KTorrent.Lib.OrderedSet
import Mathlib.Data.Finset.Sort

/-!
# The smallest elements of a set

A search keeps the `k` smallest of the elements that it is offered, one after the
other, in an ordered list: while there is room an element is put in its place, and
later one that is smaller than the last takes the place of that.

* `smallest` — the `k` smallest elements of a set, in increasing order.
* `eq_smallest_iff` — what makes a list these elements.
* `offer` — the list is offered an element.
* `offer_eq_smallest`, `offer_repeated` — the list has the smallest elements again, unless
  the element is there already, before the last place of a full list; then the last one
  is dropped for nothing.
-/

namespace Smallest

variable {κ : Type*} [LinearOrder κ] {s : Finset κ} {l : List κ} {k : ℕ} {a m : κ}

/-- The `k` smallest elements, in increasing order. -/
def smallest (k : ℕ) (s : Finset κ) : List κ := s.sort.take k

theorem length_smallest : (smallest k s).length = min k s.card := by
  rw [smallest, List.length_take, Finset.length_sort]

/-- An increasing list of elements is the beginning of the sorted set, if every other element
is larger. -/
theorem append_sort (hl : l.Pairwise (· < ·)) (hsub : ∀ x ∈ l, x ∈ s)
    (hlast : ∀ x ∈ s, x ∉ l → ∀ y ∈ l, y < x) : s.sort = l ++ (s \ l.toFinset).sort := by
  have hrest : ((s \ l.toFinset).sort).Pairwise (· < ·) := (Finset.sortedLT_sort _).pairwise
  have hpair : (l ++ (s \ l.toFinset).sort).Pairwise (· < ·) := by
    refine List.pairwise_append.mpr ⟨hl, hrest, fun y hy x hx => ?_⟩
    rw [Finset.mem_sort, Finset.mem_sdiff, List.mem_toFinset] at hx
    exact hlast x hx.1 hx.2 y hy
  have hsort : s.sort.Pairwise (· < ·) := (Finset.sortedLT_sort s).pairwise
  refine List.Perm.eq_of_pairwise (fun x y _ _ hxy hyx => absurd hxy hyx.asymm) hsort hpair ?_
  refine (List.perm_ext_iff_of_nodup hsort.nodup hpair.nodup).mpr fun x => ?_
  rw [Finset.mem_sort, List.mem_append, Finset.mem_sort, Finset.mem_sdiff, List.mem_toFinset]
  by_cases hx : x ∈ l
  · simp [hx, hsub x hx]
  · simp [hx]

/-- **What makes a list the smallest elements.** -/
theorem eq_smallest_iff : l = smallest k s ↔ l.Pairwise (· < ·) ∧ (∀ x ∈ l, x ∈ s) ∧
    l.length = min k s.card ∧ ∀ x ∈ s, x ∉ l → ∀ y ∈ l, y < x := by
  constructor
  · rintro rfl
    have hsort : s.sort.Pairwise (· < ·) := (Finset.sortedLT_sort s).pairwise
    refine ⟨hsort.sublist (List.take_sublist _ _), fun x hx => ?_, length_smallest, fun x hx hnot y hy => ?_⟩
    · exact Finset.mem_sort _ |>.mp (List.mem_of_mem_take hx)
    · rw [← List.take_append_drop k (s.sort fun a b => a ≤ b)] at hsort
      have hmem : x ∈ s.sort.take k ++ s.sort.drop k := by
        rw [List.take_append_drop]
        exact (Finset.mem_sort _).mpr hx
      exact (List.pairwise_append.mp hsort).2.2 y hy x ((List.mem_append.mp hmem).resolve_left hnot)
  · rintro ⟨hl, hsub, hlen, hlast⟩
    have hsort := append_sort hl hsub hlast
    rw [smallest, hsort]
    rcases le_total k s.card with hk | hk
    · rw [min_eq_left hk] at hlen
      rw [← hlen, List.take_left]
    · -- every element is in the list
      rw [min_eq_right hk] at hlen
      have hcard := congrArg List.length hsort
      rw [Finset.length_sort, List.length_append] at hcard
      have hnil : (s \ l.toFinset).sort = [] := List.length_eq_zero_iff.mp (by omega)
      rw [hnil, List.append_nil, List.take_of_length_le (by omega)]

/-! ## Offering an element -/

/-- The list is offered an element. -/
def offer (k : ℕ) (a : κ) (l : List κ) : List κ :=
  if l.length < k then OrderedSet.insert id a l
  else
    match l.getLast? with
    | none => l
    | some m => if a < m then (OrderedSet.insert id a l).filter (· ≠ m) else l

/-- The list is full, and has the element before its last place. -/
def Repeated (k : ℕ) (a : κ) (l : List κ) : Prop :=
  k ≤ l.length ∧ a ∈ l ∧ ∃ m, l.getLast? = some m ∧ a < m

theorem le_getLast (hl : l.Pairwise (· < ·)) (hm : l.getLast? = some m) : ∀ y ∈ l, y ≤ m := by
  obtain ⟨ys, rfl⟩ := List.getLast?_eq_some_iff.mp hm
  intro y hy
  rcases List.mem_append.mp hy with hy | hy
  · exact ((List.pairwise_append.mp hl).2.2 y hy m (List.mem_singleton_self m)).le
  · exact (List.mem_singleton.mp hy).le

theorem toFinset_insert (hl : l.Pairwise (· < ·)) :
    (OrderedSet.insert id a l).toFinset = insert a l.toFinset := by
  ext y
  rw [List.mem_toFinset, OrderedSet.mem_insert_id hl, Finset.mem_insert, List.mem_toFinset, or_comm]

theorem length_insert (hl : l.Pairwise (· < ·)) :
    (OrderedSet.insert id a l).length = (insert a l.toFinset).card := by
  have hsorted : (OrderedSet.insert id a l).Pairwise (· < ·) := OrderedSet.sorted_insert hl
  rw [← toFinset_insert hl, List.toFinset_card_of_nodup hsorted.nodup]

/-- The last element makes place. -/
theorem length_filter_insert (hl : l.Pairwise (· < ·)) (hm : l.getLast? = some m) :
    ((OrderedSet.insert id a l).filter (· ≠ m)).length + 1 = (insert a l.toFinset).card := by
  have hsorted : (OrderedSet.insert id a l).Pairwise (· < ·) := OrderedSet.sorted_insert hl
  have hmem : m ∈ insert a l.toFinset :=
    Finset.mem_insert_of_mem (List.mem_toFinset.mpr (List.mem_of_getLast? hm))
  have hset : ((OrderedSet.insert id a l).filter (· ≠ m)).toFinset = (insert a l.toFinset).erase m := by
    rw [← toFinset_insert hl]
    ext y
    simp [and_comm]
  rw [← List.toFinset_card_of_nodup (hsorted.nodup.filter _), hset, Finset.card_erase_add_one hmem]

/-- **The smallest elements are kept.** -/
theorem offer_eq_smallest {s' : Finset κ} (hk : 1 ≤ k) (h : ¬ Repeated k a l) (hl : l = smallest k s)
    (hs' : ∀ x, x ∈ s' ↔ x = a ∨ x ∈ s) : offer k a l = smallest k s' := by
  obtain rfl : s' = insert a s := Finset.ext fun x => (hs' x).trans Finset.mem_insert.symm
  obtain ⟨hpair, hsub, hlen, hlast⟩ := eq_smallest_iff.mp hl
  have hcard : l.toFinset.card = l.length := List.toFinset_card_of_nodup hpair.nodup
  have hgrow : s.card ≤ (insert a s).card := Finset.card_le_card (Finset.subset_insert a s)
  rw [offer, eq_smallest_iff]
  by_cases hroom : l.length < k
  · -- the list has all elements
    have hall : l.toFinset = s := by
      refine Finset.eq_of_subset_of_card_le (fun x hx => hsub x (List.mem_toFinset.mp hx)) ?_
      omega
    rw [if_pos hroom]
    refine ⟨OrderedSet.sorted_insert hpair, fun x hx => ?_, ?_, fun x hx hnot => ?_⟩
    · rw [← hall, ← toFinset_insert hpair, List.mem_toFinset]
      exact hx
    · rw [length_insert hpair, hall]
      have := Finset.card_insert_le a s
      omega
    · rw [← hall, ← toFinset_insert hpair, List.mem_toFinset] at hx
      exact absurd hx hnot
  · rw [if_neg hroom]
    have hfull : l.length = k := by omega
    obtain ⟨m, hm⟩ : ∃ m, l.getLast? = some m := by
      refine Option.isSome_iff_exists.mp (List.getLast?_isSome.mpr ?_)
      rintro rfl
      rw [List.length_nil] at hfull
      omega
    have hmax := le_getLast hpair hm
    rw [hm]
    dsimp only
    by_cases hlt : a < m
    · -- the element takes the place of the last one
      have hnew : a ∉ l := fun ha => h ⟨hfull.ge, ha, m, hm, hlt⟩
      have hpair' : (OrderedSet.insert id a l).Pairwise (· < ·) := OrderedSet.sorted_insert hpair
      have hcount := length_filter_insert (a := a) hpair hm
      rw [Finset.card_insert_of_notMem (by rwa [List.mem_toFinset]), hcard] at hcount
      have hmem : ∀ x, x ∈ (OrderedSet.insert id a l).filter (· ≠ m) ↔ (x ∈ l ∨ x = a) ∧ x ≠ m := by
        intro x
        rw [List.mem_filter, OrderedSet.mem_insert_id hpair, decide_eq_true_iff]
      rw [if_pos hlt]
      refine ⟨hpair'.filter _, fun x hx => ?_, by omega, fun x hx hnot y hy => ?_⟩
      · rw [Finset.mem_insert]
        exact ((hmem x).mp hx).1.symm.imp_right (hsub x)
      · rw [hmem] at hnot hy
        have hym : y < m := by
          rcases hy.1 with hyl | rfl
          · exact lt_of_le_of_ne (hmax y hyl) hy.2
          · exact hlt
        rcases Finset.mem_insert.mp hx with rfl | hx
        · exact absurd ⟨.inr rfl, hlt.ne⟩ hnot
        · by_cases hxl : x ∈ l
          · have hxm : x = m := by
              by_contra hne
              exact hnot ⟨.inl hxl, hne⟩
            exact hxm ▸ hym
          · exact hym.trans (hlast x hx hxl m (List.mem_of_getLast? hm))
    · rw [if_neg hlt]
      refine ⟨hpair, fun x hx => Finset.mem_insert_of_mem (hsub x hx), by omega, fun x hx hnot y hy => ?_⟩
      rcases Finset.mem_insert.mp hx with rfl | hx
      · have hne : m ≠ x := fun heq => hnot (heq ▸ List.mem_of_getLast? hm)
        exact (hmax y hy).trans_lt (lt_of_le_of_ne (not_lt.mp hlt) hne)
      · exact hlast x hx hnot y hy

/-- **A repeated element costs the last one its place.** -/
theorem offer_repeated {s' : Finset κ} (h : Repeated k a l) (hl : l = smallest k s)
    (hs' : ∀ x, x ∈ s' ↔ x = a ∨ x ∈ s) : offer k a l ≠ smallest k s' := by
  obtain rfl : s' = insert a s := Finset.ext fun x => (hs' x).trans Finset.mem_insert.symm
  obtain ⟨hpair, hsub, hlen, -⟩ := eq_smallest_iff.mp hl
  obtain ⟨hfull, hmem, m, hm, hlt⟩ := h
  have hgrow : s.card ≤ (insert a s).card := Finset.card_le_card (Finset.subset_insert a s)
  have hcount := length_filter_insert (a := a) hpair hm
  rw [Finset.insert_eq_of_mem (List.mem_toFinset.mpr hmem),
    List.toFinset_card_of_nodup hpair.nodup] at hcount
  intro heq
  have hlength := (eq_smallest_iff.mp heq).2.2.1
  rw [offer, if_neg hfull.not_gt, hm] at hlength
  dsimp only at hlength
  rw [if_pos hlt] at hlength
  omega

end Smallest
