import Mathlib.Data.List.AList
import Mathlib.Tactic
import Mathlib.Algebra.BigOperators.Group.List.Basic

/-!
# Totals over a finite map, and maps pruned

A finite map is an association list without repeated keys.  The total of a
function over its entries is what bookkeeping invariants are about: how many
entries have a property, or what their values add up to.

* `total` — the sum of a function over the entries.
* `total_erase`, `total_insert`, `total_insert_of_notMem` — what one change of the
  map does to it.
* `count` — the number of entries with a property, with the same three rules.
* `prune` — every value is changed or its entry taken out; `lookup_prune` says what a key
  has afterwards.
-/

namespace FiniteMap

variable {κ β : Type*} [DecidableEq κ]

/-- The sum of `f` over the entries. -/
def total (f : κ → β → ℕ) (m : AList fun _ : κ => β) : ℕ := (m.entries.map fun e => f e.1 e.2).sum

variable {f g : κ → β → ℕ} {m : AList fun _ : κ => β} {k : κ} {b : β}

omit [DecidableEq κ] in
@[simp] theorem total_empty : total f (∅ : AList fun _ : κ => β) = 0 := rfl

theorem sum_kerase : ∀ {l : List (Sigma fun _ : κ => β)}, l.dlookup k = some b →
    (l.map fun e => f e.1 e.2).sum = f k b + ((l.kerase k).map fun e => f e.1 e.2).sum
  | [], h => by cases h
  | ⟨k', c⟩ :: l, h => by
    by_cases hk : k = k'
    · subst hk
      rw [List.dlookup_cons_eq] at h
      obtain rfl := Option.some.inj h
      rw [List.kerase_cons_eq (β := fun _ => β) (s := ⟨k, c⟩) rfl, List.map_cons, List.sum_cons]
    · rw [List.dlookup_cons_ne _ _ hk] at h
      rw [List.kerase_cons_ne hk, List.map_cons, List.sum_cons, List.map_cons, List.sum_cons,
        sum_kerase h, Nat.add_left_comm]

/-- An entry is taken out. -/
theorem total_erase (h : m.lookup k = some b) : total f m = f k b + total f (m.erase k) :=
  sum_kerase h

theorem total_erase_of_notMem (h : k ∉ m) : total f (m.erase k) = total f m := by
  unfold total
  rw [show (m.erase k).entries = m.entries.kerase k from rfl,
    List.kerase_of_notMem_keys (fun hk => h (AList.mem_keys.mpr hk))]

theorem total_insert_eq : total f (m.insert k b) = f k b + total f (m.erase k) := by
  unfold total
  rw [AList.entries_insert, List.map_cons, List.sum_cons]
  rfl

/-- A new entry is put in. -/
theorem total_insert_of_notMem (h : k ∉ m) : total f (m.insert k b) = f k b + total f m := by
  rw [total_insert_eq, total_erase_of_notMem h]

/-- The value of an entry is replaced. -/
theorem total_insert (h : m.lookup k = some b) (b' : β) :
    total f (m.insert k b') + f k b = total f m + f k b' := by
  rw [total_insert_eq, total_erase h]
  omega

/-- No entry is larger than the total. -/
theorem le_total (h : m.lookup k = some b) : f k b ≤ total f m := by
  rw [total_erase h]
  exact Nat.le_add_right _ _

/-! ## Counting -/

/-- The number of entries with a property. -/
def count (p : κ → β → Prop) [∀ k b, Decidable (p k b)] (m : AList fun _ : κ => β) : ℕ :=
  total (fun k b => if p k b then 1 else 0) m

variable {p : κ → β → Prop} [∀ k b, Decidable (p k b)]

omit [DecidableEq κ] in
@[simp] theorem count_empty : count p (∅ : AList fun _ : κ => β) = 0 := rfl

theorem count_erase (h : m.lookup k = some b) :
    count p m = (if p k b then 1 else 0) + count p (m.erase k) := total_erase h

theorem count_insert_of_notMem (h : k ∉ m) :
    count p (m.insert k b) = (if p k b then 1 else 0) + count p m := total_insert_of_notMem h

theorem count_insert (h : m.lookup k = some b) (b' : β) :
    count p (m.insert k b') + (if p k b then 1 else 0) = count p m + if p k b' then 1 else 0 :=
  total_insert h b'

/-! ## Pruning -/

section
variable {γ : Type*} (h : κ → β → Option γ)

omit [DecidableEq κ] in
/-- The keys that are left are keys that were there. -/
theorem keys_filterMap_sublist (l : List (Sigma fun _ : κ => β)) :
    List.Sublist (l.filterMap fun e =>
      (h e.1 e.2).map (Sigma.mk (β := fun _ : κ => γ) e.1)).keys l.keys := by
  induction l with
  | nil => exact List.Sublist.refl _
  | cons e l ih =>
    cases he : h e.1 e.2 with
    | none => simpa [he, List.keys] using ih.cons e.1
    | some c => simpa [he, List.keys] using ih.cons_cons e.1

/-- Every value is changed, or its entry taken out. -/
def prune (m : AList fun _ : κ => β) : AList fun _ : κ => γ where
  entries := m.entries.filterMap fun e => (h e.1 e.2).map (Sigma.mk e.1)
  nodupKeys := List.Nodup.sublist (keys_filterMap_sublist h m.entries) m.nodupKeys

theorem dlookup_filterMap (k : κ) (l : List (Sigma fun _ : κ => β)) (hl : l.NodupKeys) :
    (l.filterMap fun e => (h e.1 e.2).map (Sigma.mk (β := fun _ : κ => γ) e.1)).dlookup k =
      (l.dlookup k : Option β).bind (h k) := by
  induction l with
  | nil => rfl
  | cons e l ih =>
    obtain ⟨k', b⟩ := e
    obtain ⟨hnotMem, hrest⟩ := List.nodupKeys_cons.mp hl
    by_cases hk : k = k'
    · subst hk
      rw [List.dlookup_cons_eq]
      cases hb : h k b with
      | some c => simp [hb]
      | none =>
        have hnone : l.dlookup k = none := List.dlookup_eq_none.mpr hnotMem
        simpa [hb, hnone] using ih hrest
    · rw [List.dlookup_cons_ne _ _ hk]
      cases hb : h k' b with
      | some c =>
        rw [List.filterMap_cons_some (b := ⟨k', c⟩) (by simp [hb]),
          List.dlookup_cons_ne _ (⟨k', c⟩ : Sigma fun _ : κ => γ) hk]
        exact ih hrest
      | none => simpa [hb] using ih hrest

/-- What a key has afterwards. -/
theorem lookup_prune (m : AList fun _ : κ => β) (k : κ) :
    (prune h m).lookup k = (m.lookup k : Option β).bind (h k) :=
  dlookup_filterMap h k m.entries m.nodupKeys

end

end FiniteMap
