import KTorrent.Util.FairSharing

/-!
# Asking for a resource without waiting

`acquire` is for users that want the resource now or not at all: it succeeds when a slot is free
and nobody waits for it.  That nobody waits is tested on the map of the groups, from which nothing
is ever erased: the test asks whether anybody has ever waited, or been served.

* `AcquireRight` — what `acquire` promises; `FullOrUnused` — when it keeps the promise.
* `acquire_unused` — a manager that was not used before gives the resource at once.
* `allSteps_acquireRight_iff` — the promise is kept along a run exactly when every `acquire` meets
  a manager that is full or was never used.
-/

namespace KTorrent

open RoundRobin Runs

namespace ResourceManager

variable {R G : Type*} [DecidableEq R] [LinearOrder G]

/-! ## The law -/

/-- What `acquire` promises: a free slot, for which nobody waits, is taken, and nothing happens
when there is none. -/
def AcquireRight (noName : G) (groupName : R → G) : Option (ResourceManager R G) → Use R → Prop
  | some m, .acquire r => ∃ b m', m.acquire noName groupName r = some (b, m') ∧
      if m.active.card < m.max_active_resources then
        b = true ∧ r ∈ m'.active ∧ waiting m.pending = []
      else b = false ∧ m' = m
  | some _, .call _ => True
  | none, _ => False

/-- The condition: no slot is free, or this is the first resource that the manager sees. -/
def FullOrUnused : Option (ResourceManager R G) → Use R → Prop
  | some m, .acquire _ => m.active.card < m.max_active_resources → m.added = []
  | _, _ => True

/-! ## The map is never emptied -/

/-- The groups of the map are those of the resources that were added; a resource that is active
was added. -/
structure Filled (m : ResourceManager R G) : Prop where
  held : m.active.Nonempty → m.pending ≠ []
  pending_iff : m.pending = [] ↔ m.added = []

/-- What holds of every state of a run: the calls returned, and the map is never emptied. -/
def Serving : Option (ResourceManager R G) → Prop
  | some m => m.Filled
  | none => False

variable {groupName : R → G} {m : ResourceManager R G} {i : ℕ}

omit [LinearOrder G] in
/-- A turn of the loop takes no group out of the map, and adds nothing. -/
theorem keeps_filled {added : List R} {p : G × List R} (h : m.pending ≠ [] ∧ m.added = added)
    (hp : m.pending[i]? = some p) :
    (m.serve i p).pending ≠ [] ∧ (m.serve i p).added = added := by
  refine ⟨fun hnil => h.1 ?_, by rw [serve_added]; exact h.2⟩
  rw [← List.length_eq_zero_iff, ← serve_length hp, hnil, List.length_nil]

omit [LinearOrder G] in
/-- A turn of the loop takes nothing back. -/
theorem serve_active_subset (p : G × List R) : m.active ⊆ (m.serve i p).active := by
  obtain ⟨k, _ | ⟨r, rest⟩⟩ := p
  · exact Finset.Subset.refl _
  · exact Finset.subset_insert r m.active

/-- **Handing out what is free returns**, and empties no map. -/
theorem update_filled (hpending : m.pending ≠ []) :
    ∃ m', m.update = some m' ∧ m'.pending ≠ [] ∧ m'.added = m.added := by
  by_cases hfree : m.active.card < m.max_active_resources
  · obtain ⟨m', j, g, hm', hkeeps, -⟩ :=
      update_total (J := fun t _ => t.pending ≠ [] ∧ t.added = m.added)
        (fun m i p hJ _ hp => keeps_filled hJ hp) hfree hpending ⟨hpending, rfl⟩
    exact ⟨_, hm', hkeeps⟩
  · exact ⟨m, by rw [ResourceManager.update, if_pos (not_lt.mp hfree)], hpending, rfl⟩

theorem add_filled (noName : G) (groupName : R → G) (m : ResourceManager R G) (r : R) :
    ∃ m', m.add noName groupName r = some m' ∧ m'.pending ≠ [] ∧ m'.added = m.added :=
  update_filled (append_ne_nil _ _ _)

omit [DecidableEq R] [LinearOrder G] in
theorem Filled.of_ne_nil (hpending : m.pending ≠ []) (hadded : m.added ≠ []) : m.Filled :=
  ⟨fun _ => hpending, iff_of_false hpending hadded⟩

omit [LinearOrder G] in
/-- The history of what is not wanted any more plays no part. -/
theorem Filled.drop (h : m.Filled) (r : R) :
    ({ m with kept := m.kept.erase r } : ResourceManager R G).Filled := ⟨h.held, h.pending_iff⟩

theorem Filled.remove (h : m.Filled) (groupName : R → G) (r : R) :
    ∃ m', m.remove groupName r = some m' ∧ m'.Filled := by
  rw [ResourceManager.remove]
  by_cases hr : r ∈ m.active
  · rw [if_pos hr]
    have hpending : m.pending ≠ [] := h.held ⟨r, hr⟩
    obtain ⟨m', hm', hpending', hadded'⟩ :=
      update_filled (m := { m with active := m.active.erase r }) hpending
    refine ⟨m', hm', .of_ne_nil hpending' fun hnil => hpending (h.pending_iff.mpr ?_)⟩
    exact hadded'.symm.trans hnil
  · rw [if_neg hr]
    refine ⟨_, rfl, fun hact hnil => h.held hact (List.map_eq_nil_iff.mp hnil), ?_⟩
    rw [List.map_eq_nil_iff]
    exact h.pending_iff

theorem Filled.release (h : m.Filled) (groupName : R → G) (r : R) :
    ∃ m', m.release groupName r = some m' ∧ m'.Filled := by
  rw [ResourceManager.release]
  split
  · exact ⟨m, rfl, h⟩
  · obtain ⟨m', hm', hfilled⟩ := h.remove groupName r
    rw [hm', Option.map_some]
    exact ⟨_, rfl, hfilled.held, hfilled.pending_iff⟩

/-- `acquire` returns; the map stays as it is, or has a group and a resource more. -/
theorem Filled.acquire (h : m.Filled) (noName : G) (groupName : R → G) (r : R) :
    ∃ m', use noName groupName (some m) (.acquire r) = some m' ∧ m'.Filled := by
  rw [ResourceManager.use, Option.bind_some, ResourceManager.acquire]
  split
  · obtain ⟨m', hm', hpending, -⟩ := add_filled noName groupName m r
    refine ⟨m'.addedOne r, by rw [hm']; rfl, .of_ne_nil hpending ?_⟩
    exact List.append_ne_nil_of_right_ne_nil _ (List.cons_ne_nil r [])
  · exact ⟨m, rfl, h⟩

theorem Serving.use {s : Option (ResourceManager R G)} (h : Serving s) (noName : G)
    (groupName : R → G) (u : Use R) : Serving (use noName groupName s u) := by
  cases s with
  | none => exact h.elim
  | some m =>
    have hfilled : m.Filled := h
    rcases u with (r | r | r) | r
    · obtain ⟨m', hm', hpending, hadded⟩ := add_filled noName groupName (m.addedOne r) r
      rw [ResourceManager.use, call, Option.bind_some, record, handle, hm']
      refine Filled.of_ne_nil hpending ?_
      rw [hadded]
      exact List.append_ne_nil_of_right_ne_nil _ (List.cons_ne_nil r [])
    · obtain ⟨m', hm', h'⟩ := (hfilled.drop r).remove groupName r
      rw [ResourceManager.use, call, Option.bind_some, record, handle, hm']
      exact h'
    · have hrecord : (m.record (.release r)).Filled := by
        rw [record]
        split
        · exact hfilled
        · exact hfilled.drop r
      obtain ⟨m', hm', h'⟩ := hrecord.release groupName r
      rw [ResourceManager.use, call, Option.bind_some, handle, hm']
      exact h'
    · obtain ⟨m', hm', h'⟩ := hfilled.acquire noName groupName r
      rw [hm']
      exact h'

/-! ## What `acquire` does -/

/-- **A manager without groups gives the resource at once.** -/
theorem acquire_unused (noName : G) (groupName : R → G) (r : R)
    (hfree : m.active.card < m.max_active_resources) (hpending : m.pending = []) :
    ∃ m', m.acquire noName groupName r = some (true, m') ∧ r ∈ m'.active := by
  have happend : append (groupName r) r ([] : List (G × List R)) = [(groupName r, [r])] := by
    simp [append, OrderedSet.insert]
  obtain ⟨g, hg⟩ : ∃ g, g = if m.current = noName then groupName r else m.current := ⟨_, rfl⟩
  obtain ⟨m₁, hm₁⟩ : ∃ m₁ : ResourceManager R G, m₁ =
      { m with pending := [(groupName r, [r])], current := g } := ⟨_, rfl⟩
  have hadd : m.add noName groupName r = m₁.update := by
    rw [add, hpending, happend, hm₁, hg]
  have hfree₁ : m₁.active.card < m₁.max_active_resources := by rw [hm₁]; exact hfree
  have hpending₁ : m₁.pending = [(groupName r, [r])] := by rw [hm₁]
  -- the first turn of the scan serves `r`, and no later one takes it back
  have hturn : ∀ (m : ResourceManager R G) (i : ℕ) (p : G × List R), m = m₁ ∨ r ∈ m.active →
      m.active.card < m.max_active_resources → m.pending[i]? = some p →
      m.serve i p = m₁ ∨ r ∈ (m.serve i p).active := by
    rintro m i p (rfl | hr) _ hp
    · right
      have hmem := List.mem_of_getElem? hp
      rw [hpending₁] at hmem
      rw [List.mem_singleton.mp hmem]
      exact Finset.mem_insert_self r _
    · exact .inr (serve_active_subset p hr)
  obtain ⟨m', j, g', hm', hJ, hend⟩ := update_total (J := fun m _ => m = m₁ ∨ r ∈ m.active)
    hturn hfree₁ (by rw [hpending₁]; exact List.cons_ne_nil _ _) (.inl rfl)
  have hr : r ∈ m'.active := by
    rcases hJ with rfl | hr
    · rcases hend with hfull | hnobody
      · exact absurd hfree₁ (not_lt.mpr hfull)
      · rw [hpending₁] at hnobody
        exact absurd hnobody (List.cons_ne_nil r [])
    · exact hr
  have hacquire : m.acquire noName groupName r = (m₁.update).map fun m => (true, m) := by
    rw [acquire, if_pos ⟨hfree, by rw [hpending]; rfl⟩, hadd]
  rw [hm', Option.map_some] at hacquire
  exact ⟨_, hacquire, hr⟩

/-- A manager with groups refuses. -/
theorem acquire_of_pending (noName : G) (groupName : R → G) (r : R) (h : m.pending ≠ []) :
    m.acquire noName groupName r = some (false, m) := by
  rw [acquire, if_neg fun hcond => h (List.isEmpty_iff.mp hcond.2)]

theorem acquireRight_iff {s : Option (ResourceManager R G)} (h : Serving s) (noName : G)
    (groupName : R → G) (u : Use R) :
    AcquireRight noName groupName s u ↔ FullOrUnused s u := by
  cases s with
  | none => exact h.elim
  | some m =>
    cases u with
    | call c => exact Iff.rfl
    | acquire r =>
      have hfilled : m.Filled := h
      rw [AcquireRight, FullOrUnused]
      by_cases hfree : m.active.card < m.max_active_resources
      swap
      · refine iff_of_true ⟨false, m, ?_, ?_⟩ fun hfree' => absurd hfree' hfree
        · rw [acquire, if_neg fun hcond => hfree hcond.1]
        · rw [if_neg hfree]
          exact ⟨rfl, rfl⟩
      by_cases hpending : m.pending = []
      · refine iff_of_true ?_ fun _ => hfilled.pending_iff.mp hpending
        obtain ⟨m', hm', hr⟩ := acquire_unused noName groupName r hfree hpending
        refine ⟨true, m', hm', ?_⟩
        rw [if_pos hfree, hpending]
        exact ⟨rfl, hr, rfl⟩
      · refine iff_of_false ?_ fun hunused => hpending (hfilled.pending_iff.mpr (hunused hfree))
        rintro ⟨b, m', hm', hright⟩
        rw [acquire_of_pending noName groupName r hpending] at hm'
        rw [if_pos hfree] at hright
        cases hm'
        exact Bool.false_ne_true hright.1

/-! ## Runs -/

omit [DecidableEq R] [LinearOrder G] in
theorem serving_start (noName : G) (max : ℕ) :
    Serving (some (start noName max : ResourceManager R G)) :=
  ⟨fun hact => absurd hact Finset.not_nonempty_empty, iff_of_true rfl rfl⟩

/-- **When `acquire` gives a free slot.**  Along every sequence of calls, from a new manager,
`acquire` keeps its promise in every state exactly when each time it is called the slots are all
taken or no resource was ever added. -/
theorem allSteps_acquireRight_iff (noName : G) (groupName : R → G) (max : ℕ)
    (uses : List (Use R)) :
    AllSteps (use noName groupName) (AcquireRight noName groupName) (some (start noName max)) uses ↔
      AllSteps (use noName groupName) FullOrUnused (some (start noName max)) uses :=
  allSteps_iff_of_invariant (fun _ u hs _ => hs.use noName groupName u)
    (fun _ u hs => acquireRight_iff hs noName groupName u) uses _ (serving_start noName max)

/-- With two slots, the second resource is refused while one slot is free. -/
theorem secondAcquire_refused :
    ¬ AllSteps (use 0 Prod.fst) (AcquireRight 0 Prod.fst) (some (start 0 2))
      [.acquire ((1, 1) : ℕ × ℕ), .acquire (2, 1)] := by
  rintro ⟨-, h, -⟩
  have hrefused : ∀ m ∈ use 0 Prod.fst (some (start 0 2)) (.acquire ((1, 1) : ℕ × ℕ)),
      m.active.card < m.max_active_resources ∧
        m.acquire 0 Prod.fst (2, 1) = some (false, m) := by decide
  cases hs : use 0 Prod.fst (some (start 0 2)) (.acquire ((1, 1) : ℕ × ℕ)) with
  | none => rw [hs] at h; exact h.elim
  | some m =>
    obtain ⟨hfree, hno⟩ := hrefused m hs
    rw [hs] at h
    obtain ⟨b, m', hm', hright⟩ := h
    rw [if_pos hfree] at hright
    rw [hno] at hm'
    cases hm'
    exact Bool.false_ne_true hright.1

end ResourceManager

end KTorrent
