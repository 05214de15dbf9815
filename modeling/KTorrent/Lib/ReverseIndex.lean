import Mathlib.Data.List.AList

/-!
# A map and its reverse index

A map from keys to values is often kept with a second table from values to keys,
in which a value may stand several times.  The two are kept in step by hand, so
that each change of one needs its counterpart in the other.

* `Inverse` — the table holds the pairs of the map, each once.
* `inverse_empty`, `Inverse.insert`, `Inverse.filter`, `Inverse.erase` — the
  changes of both that keep them inverse.
-/

namespace ReverseIndex

variable {κ ν : Type*} [DecidableEq κ]

/-- The table holds the pairs of the map, each of them once. -/
structure Inverse (m : AList fun _ : κ => ν) (l : List (ν × κ)) : Prop where
  lookup_iff : ∀ k v, m.lookup k = some v ↔ (v, k) ∈ l
  nodup : l.Nodup

variable {m : AList fun _ : κ => ν} {l : List (ν × κ)} {k : κ} {v v' : ν}

theorem inverse_empty : Inverse (∅ : AList fun _ : κ => ν) [] := by
  refine ⟨fun k v => ?_, List.nodup_nil⟩
  rw [AList.lookup_empty]
  simp

/-- A key stands in the table with one value at most. -/
theorem Inverse.eq_of_mem (h : Inverse m l) (hv : (v, k) ∈ l) (hv' : (v', k) ∈ l) : v = v' :=
  Option.some.inj (((h.lookup_iff k v).mpr hv).symm.trans ((h.lookup_iff k v').mpr hv'))

theorem Inverse.notMem (h : Inverse m l) (hk : m.lookup k = none) : (v, k) ∉ l := by
  intro hmem
  rw [(h.lookup_iff k v).mpr hmem] at hk
  cases hk

/-- A key that had no value gets one. -/
theorem Inverse.insert (h : Inverse m l) (hk : m.lookup k = none) (v : ν) :
    Inverse (m.insert k v) ((v, k) :: l) := by
  refine ⟨fun k' v' => ?_, List.nodup_cons.mpr ⟨h.notMem hk, h.nodup⟩⟩
  rw [List.mem_cons, Prod.mk.injEq]
  by_cases hk' : k' = k
  · subst hk'
    rw [AList.lookup_insert]
    constructor
    · intro hv
      exact .inl ⟨(Option.some.inj hv).symm, rfl⟩
    · rintro (⟨rfl, -⟩ | hmem)
      · rfl
      · exact absurd hmem (h.notMem hk)
  · rw [AList.lookup_insert_ne hk', h.lookup_iff]
    exact ⟨.inr, fun hor => hor.resolve_left fun heq => hk' heq.2⟩

theorem lookup_foldl_erase : ∀ (ks : List κ) (m : AList fun _ : κ => ν) (k : κ),
    (ks.foldl (fun m k => m.erase k) m).lookup k = if k ∈ ks then none else m.lookup k := by
  intro ks
  induction ks with
  | nil => intro m k; rfl
  | cons k' ks ih =>
    intro m k
    rw [List.foldl_cons, ih]
    by_cases hk : k = k'
    · subst hk
      rw [AList.lookup_erase, if_pos List.mem_cons_self, ite_self]
    · rw [AList.lookup_erase_ne hk]
      simp [hk]

/-- Some pairs are taken out of the table, and their keys out of the map. -/
theorem Inverse.filter (h : Inverse m l) (keep : ν × κ → Bool) (ks : List κ)
    (hks : ∀ k, k ∈ ks ↔ ∃ v, (v, k) ∈ l ∧ keep (v, k) = false) :
    Inverse (ks.foldl (fun m k => m.erase k) m) (l.filter keep) := by
  refine ⟨fun k v => ?_, h.nodup.filter _⟩
  rw [lookup_foldl_erase, List.mem_filter]
  by_cases hk : k ∈ ks
  · rw [if_pos hk]
    obtain ⟨v', hmem, hkeep⟩ := (hks k).mp hk
    constructor
    · intro hc
      cases hc
    · rintro ⟨hv, hkeep'⟩
      rw [h.eq_of_mem hv hmem, hkeep] at hkeep'
      cases hkeep'
  · rw [if_neg hk, h.lookup_iff]
    refine ⟨fun hv => ⟨hv, ?_⟩, fun hv => hv.1⟩
    by_contra hkeep
    exact hk ((hks k).mpr ⟨v, hv, Bool.eq_false_iff.mpr hkeep⟩)

/-- The pair of one key is taken out. -/
theorem Inverse.erase [DecidableEq ν] (h : Inverse m l) (hk : m.lookup k = some v) :
    Inverse (m.erase k) (l.filter fun e => e ≠ (v, k)) := by
  refine h.filter (fun e => e ≠ (v, k)) [k] fun k' => ?_
  rw [List.mem_singleton]
  constructor
  · rintro rfl
    exact ⟨v, (h.lookup_iff k' v).mp hk, by simp⟩
  · rintro ⟨v', -, hkeep⟩
    exact (Prod.mk.inj (by simpa using hkeep)).2

end ReverseIndex
