import KTorrent.Util.ResourceManager

/-!
# Fair sharing

What a resource manager owes to the groups, in every state of every sequence of calls: the calls
return, at most the allowed number of resources is active, nobody waits while there is room, who
was added and not removed waits or is active, a group's resources become active in the order in
which they were added, and a group is not served twice in a row while another one waits.

The last one does not always hold.  The scan restarts at the group after the one served last *as
the map was then*; a group that is created later between the two comes after the group that was
just served.

* `scan_total` — the rule for the loop: it ends, and what its turns keep holds at the end.
* `FairlyShared` — the law; `OtherFirst` — the condition on a call that frees a resource.
* `allStates_fairlyShared_iff` — the law holds along a run exactly when every call meets the
  condition.
-/

namespace KTorrent

open RoundRobin Runs

namespace ResourceManager

variable {R G : Type*} [LinearOrder G]

/-! ## The law -/

/-- `y` is not chosen right after `x` of the same group while another group waits. -/
def TakesTurns (groupName : R → G) (x y : Activation R) : Prop :=
  groupName x.resource = groupName y.resource →
    ∀ r ∈ y.waiting, groupName r = groupName y.resource

instance (groupName : R → G) : DecidableRel (TakesTurns groupName) := fun _ _ =>
  inferInstanceAs (Decidable (_ → _))

/-- Those of a group that became active, and after them those that wait, in their order. -/
def line (groupName : R → G) (m : ResourceManager R G) (g : G) : List R :=
  ((m.log.map Activation.resource).filter fun r => groupName r = g) ++
    (waiting m.pending).filter fun r => groupName r = g

/-- What a resource manager owes to the groups. -/
structure FairlyShared (groupName : R → G) (m : ResourceManager R G) : Prop where
  bounded : m.active.card ≤ m.max_active_resources
  waits_when_full : waiting m.pending ≠ [] → m.active.card = m.max_active_resources
  none_lost : ∀ r ∈ m.kept, r ∈ m.active ∨ r ∈ waiting m.pending
  in_order : ∀ g, (m.line groupName g).Sublist (m.added.filter fun r => groupName r = g)
  turns : m.log.IsChain (TakesTurns groupName)

/-- The call returned, and the resources are shared fairly. -/
def Shares (groupName : R → G) : Option (ResourceManager R G) → Prop
  | none => False
  | some m => m.FairlyShared groupName

/-- Handing out the next resource is fair: looked at from `current` on, the group served last is
not the first one with somebody waiting, or nobody else waits. -/
def NextIsFair (groupName : R → G) (m : ResourceManager R G) : Prop :=
  ∀ x ∈ m.log.getLast?, Fair (groupName x.resource) (m.pending.rotate m.cursor)

/-- The condition on a call: when it frees a resource, handing it out is fair. -/
def OtherFirst [DecidableEq R] (groupName : R → G) : Option (ResourceManager R G) → Call R → Prop
  | none, _ => True
  | some _, .add _ => True
  | some m, .remove r => r ∈ m.active → m.NextIsFair groupName
  | some m, .release r => r ∉ m.detached → r ∈ m.active → m.NextIsFair groupName

/-! ## The map of the groups -/

/-- The map is ordered and every resource is in the queue of its group. -/
structure Grouped (groupName : R → G) (pending : List (G × List R)) : Prop where
  sorted : OrderedSet.Sorted Prod.fst pending
  group : ∀ p ∈ pending, ∀ r ∈ p.2, groupName r = p.1

/-- What holds of the map in every state: its queues are right, and it is not empty when a resource
is active. -/
structure WellFormed (groupName : R → G) (m : ResourceManager R G) : Prop where
  grouped : Grouped groupName m.pending
  held : m.active.Nonempty → m.pending ≠ []

variable {groupName : R → G} {g : G} {r : R} {m : ResourceManager R G}
  {pending : List (G × List R)} {i : ℕ}

theorem Grouped.tail {p : G × List R} (h : Grouped groupName (p :: pending)) :
    Grouped groupName pending :=
  ⟨(List.pairwise_cons.mp h.sorted).2, fun q hq => h.group q (List.mem_cons_of_mem _ hq)⟩

theorem Grouped.keys_nodup (h : Grouped groupName pending) : (pending.map Prod.fst).Nodup :=
  List.pairwise_map.mpr (h.sorted.imp fun hlt => hlt.ne)

/-- A group without a queue has nobody waiting. -/
theorem Grouped.filter_eq_nil (h : Grouped groupName pending) (hkeys : ∀ p ∈ pending, p.1 ≠ g) :
    ((waiting pending).filter fun r => groupName r = g) = [] := by
  rw [List.filter_eq_nil_iff]
  intro r hr hg
  obtain ⟨p, hp, hrp⟩ := mem_waiting.mp hr
  exact hkeys p hp ((h.group p hp r hrp).symm.trans (of_decide_eq_true hg))

/-- Only the queue of `g` has resources of `g`. -/
theorem mem_append {p : G × List R} (h : Grouped groupName pending) (hp : p ∈ append g r pending) :
    p ∈ pending ∨ p.1 = g ∧ ∀ s ∈ p.2, s = r ∨ ∃ q ∈ pending, q.1 = g ∧ s ∈ q.2 := by
  obtain ⟨q, hq, rfl⟩ := List.mem_map.mp hp
  have hold := (OrderedSet.mem_insert h.sorted).mp hq
  by_cases hkey : q.1 = g
  · right
    rw [if_pos hkey]
    refine ⟨hkey, fun s hs => ?_⟩
    rcases List.mem_append.mp hs with hs | hs
    · rcases hold with hold | ⟨rfl, -⟩
      · exact .inr ⟨q, hold, hkey, hs⟩
      · exact absurd hs List.not_mem_nil
    · exact .inl (List.mem_singleton.mp hs)
  · left
    rw [if_neg hkey]
    rcases hold with hold | ⟨rfl, -⟩
    · exact hold
    · exact absurd rfl hkey

theorem append_ne_nil (g : G) (r : R) (pending : List (G × List R)) :
    append g r pending ≠ [] := by
  cases pending with
  | nil => simp [append, OrderedSet.insert]
  | cons p pending =>
    rw [append, OrderedSet.insert]
    split
    · simp
    · split <;> simp

theorem Grouped.append (h : Grouped groupName pending) (r : R) :
    Grouped groupName (append (groupName r) r pending) := by
  refine ⟨?_, fun p hp s hs => ?_⟩
  · refine List.pairwise_map.mpr ((OrderedSet.sorted_insert h.sorted).imp ?_)
    intro a b hlt
    have hfst : ∀ p : G × List R, (if p.1 = groupName r then (p.1, p.2 ++ [r]) else p).1 = p.1 := by
      intro p
      split <;> rfl
    rwa [hfst, hfst]
  · rcases mem_append h hp with hp | ⟨hkey, hall⟩
    · exact h.group p hp s hs
    · rw [hkey]
      rcases hall s hs with rfl | ⟨q, hq, hqkey, hsq⟩
      · rfl
      · rw [← hqkey]
        exact h.group q hq s hsq

/-- **A resource that is added is the last one of its group**, and the other groups are as they
were. -/
theorem Grouped.filter_append (h : Grouped groupName pending) (r : R) (g : G) :
    ((waiting (ResourceManager.append (groupName r) r pending)).filter fun s => groupName s = g)
      = ((waiting pending).filter fun s => groupName s = g) ++
        [r].filter fun s => groupName s = g := by
  have hid : ∀ l : List (G × List R), (∀ p ∈ l, p.1 ≠ groupName r) →
      (l.map fun p => if p.1 = groupName r then (p.1, p.2 ++ [r]) else p) = l := by
    intro l hl
    exact (List.map_congr_left fun p hp => if_neg (hl p hp)).trans (List.map_id l)
  -- behind a queue that is not before that of `r` there is nobody of the group of `r`
  have hrest : ∀ l : List (G × List R), Grouped groupName l → (∀ p ∈ l, p.1 ≠ groupName r) →
      ([r].filter fun s => groupName s = g) ++ (waiting l).filter (fun s => groupName s = g)
        = (waiting l).filter (fun s => groupName s = g) ++ [r].filter fun s => groupName s = g := by
    intro l hl hne
    by_cases hg : groupName r = g
    · rw [hl.filter_eq_nil (g := g) (hg ▸ hne), List.append_nil, List.nil_append]
    · simp [hg]
  induction pending with
  | nil => simp [ResourceManager.append, OrderedSet.insert, waiting]
  | cons p pending ih =>
    obtain ⟨k, q⟩ := p
    have hgt := (List.pairwise_cons.mp h.sorted).1
    rw [ResourceManager.append, OrderedSet.insert]
    split
    case isTrue hlt =>
      rw [List.map_cons, if_neg hlt.ne, waiting_cons, List.filter_append, waiting_cons,
        List.filter_append, List.append_assoc, ← ih h.tail, ResourceManager.append]
    case isFalse hnlt =>
      split
      case isTrue hlt =>
        have hne : ∀ p ∈ (k, q) :: pending, p.1 ≠ groupName r := by
          intro p hp
          rcases List.mem_cons.mp hp with rfl | hp
          · exact hlt.ne'
          · exact (hlt.trans (hgt p hp)).ne'
        rw [List.map_cons, if_pos rfl, hid _ hne, waiting_cons, List.nil_append, List.filter_append,
          hrest _ h hne]
      case isFalse hngt =>
        have hk : k = groupName r := le_antisymm (not_lt.mp hngt) (not_lt.mp hnlt)
        have hne : ∀ p ∈ pending, p.1 ≠ groupName r := fun p hp => hk ▸ (hgt p hp).ne'
        rw [List.map_cons, if_pos hk, hid _ hne, waiting_cons, List.filter_append,
          List.filter_append, List.append_assoc, hrest _ h.tail hne, waiting_cons,
          List.filter_append, List.append_assoc]

section

variable [DecidableEq R]

/-- Taking a resource out of the queues keeps the order of the others. -/
theorem waiting_erase_sublist (g : G) (r : R) (pending : List (G × List R)) :
    (waiting (pending.map fun p => if p.1 = g then (p.1, p.2.filter fun s => s ≠ r) else p)).Sublist
      (waiting pending) := by
  induction pending with
  | nil => exact List.Sublist.refl _
  | cons p pending ih =>
    rw [List.map_cons]
    split
    · rw [waiting_cons, waiting_cons]
      exact List.filter_sublist.append ih
    · rw [waiting_cons, waiting_cons]
      exact (List.Sublist.refl _).append ih

theorem Grouped.erase (h : Grouped groupName pending) (g : G) (r : R) :
    Grouped groupName
      (pending.map fun p => if p.1 = g then (p.1, p.2.filter fun s => s ≠ r) else p) := by
  refine ⟨List.pairwise_map.mpr (h.sorted.imp ?_), fun p hp s hs => ?_⟩
  · intro a b hlt
    have hfst : ∀ p : G × List R,
        (if p.1 = g then (p.1, p.2.filter fun s => s ≠ r) else p).1 = p.1 := by
      intro p
      split <;> rfl
    rwa [hfst, hfst]
  · obtain ⟨q, hq, rfl⟩ := List.mem_map.mp hp
    split at hs
    case isTrue hkey =>
      rw [if_pos hkey]
      exact h.group q hq s (List.mem_filter.mp hs).1
    case isFalse hkey =>
      rw [if_neg hkey]
      exact h.group q hq s hs

end

/-- Taking a resource out of the queues leaves the others there. -/
theorem mem_waiting_erase [DecidableEq R] {s : R} (hne : s ≠ r) (hs : s ∈ waiting pending) :
    s ∈ waiting (pending.map fun p => if p.1 = g then (p.1, p.2.filter fun t => t ≠ r) else p) := by
  obtain ⟨p, hp, hsp⟩ := mem_waiting.mp hs
  refine mem_waiting.mpr ⟨_, List.mem_map_of_mem hp, ?_⟩
  split
  · exact List.mem_filter.mpr ⟨hsp, decide_eq_true hne⟩
  · exact hsp

/-! ## A turn of the loop -/

section

variable [DecidableEq R]

omit [LinearOrder G] in
@[simp] theorem serve_added (p : G × List R) : (m.serve i p).added = m.added := by
  obtain ⟨k, _ | ⟨r, rest⟩⟩ := p <;> rfl

omit [LinearOrder G] in
@[simp] theorem serve_kept (p : G × List R) : (m.serve i p).kept = m.kept := by
  obtain ⟨k, _ | ⟨r, rest⟩⟩ := p <;> rfl

omit [LinearOrder G] in
theorem serve_pending {p : G × List R} (hp : m.pending[i]? = some p) :
    (m.serve i p).pending = m.pending.set i (p.1, p.2.tail) := by
  obtain ⟨k, _ | ⟨r, rest⟩⟩ := p
  · obtain ⟨hlt, hget⟩ := List.getElem?_eq_some_iff.mp hp
    rw [serve, List.tail_nil, ← hget, List.set_getElem_self]
  · rfl

omit [LinearOrder G] in
theorem serve_length {p : G × List R} (hp : m.pending[i]? = some p) :
    (m.serve i p).pending.length = m.pending.length := by
  rw [serve_pending hp, List.length_set]

omit [LinearOrder G] in
/-- The circle of the groups makes a turn. -/
theorem serve_rotate {p : G × List R} (hp : m.pending[i]? = some p) :
    (m.serve i p).pending.rotate (next m.pending.length i) = turn (m.pending.rotate i) := by
  rw [serve_pending hp]
  exact rotate_set hp

omit [LinearOrder G] in
/-- A turn takes one resource at most out of the queues. -/
theorem serve_waiting_length {p : G × List R} (hp : m.pending[i]? = some p) :
    (waiting (m.serve i p).pending).length + (if p.2.isEmpty then 0 else 1)
      = (waiting m.pending).length := by
  have hlen : ∀ (l : List (G × List R)) (n : ℕ), (waiting (l.rotate n)).length
      = (waiting l).length := by
    intro l n
    exact ((List.rotate_perm l n).flatMap_right Prod.snd).length_eq
  rw [← hlen _ (next m.pending.length i), serve_rotate hp, ← hlen m.pending i,
    rotate_eq_cons hp, waiting_turn, waiting_cons, List.length_append, List.length_append]
  obtain ⟨k, _ | ⟨r, rest⟩⟩ := p
  · simp
  · simp
    omega

omit [LinearOrder G] in
/-- Who waits becomes active, or still waits. -/
theorem waits_serve {p : G × List R} (hp : m.pending[i]? = some p)
    (hr : r ∈ m.active ∨ r ∈ waiting m.pending) :
    r ∈ (m.serve i p).active ∨ r ∈ waiting (m.serve i p).pending := by
  obtain ⟨k, _ | ⟨first, rest⟩⟩ := p
  · exact hr
  rcases hr with hr | hr
  · exact .inl (Finset.mem_insert_of_mem hr)
  obtain ⟨q, hq, hrq⟩ := mem_waiting.mp hr
  obtain ⟨j, hj⟩ := List.mem_iff_getElem?.mp hq
  have hset : (m.serve i (k, first :: rest)).pending = m.pending.set i (k, rest) := rfl
  rw [hset]
  by_cases hij : i = j
  · rw [← hij, hp] at hj
    rw [← Option.some.inj hj] at hrq
    rcases List.mem_cons.mp hrq with rfl | hrest
    · exact .inl (Finset.mem_insert_self _ _)
    · obtain ⟨hlt, -⟩ := List.getElem?_eq_some_iff.mp hp
      exact .inr (mem_waiting.mpr ⟨(k, rest), List.mem_set hlt _, hrest⟩)
  · refine .inr (mem_waiting.mpr ⟨q, List.mem_iff_getElem?.mpr ⟨j, ?_⟩, hrq⟩)
    rw [List.getElem?_set_ne hij, hj]

theorem Grouped.serve (h : Grouped groupName m.pending) {p : G × List R}
    (hp : m.pending[i]? = some p) : Grouped groupName (m.serve i p).pending := by
  obtain ⟨hlt, hget⟩ := List.getElem?_eq_some_iff.mp hp
  rw [serve_pending hp]
  constructor
  · have hkeys : (m.pending.set i (p.1, p.2.tail)).map Prod.fst = m.pending.map Prod.fst := by
      rw [List.map_set, ← hget, ← List.getElem_map Prod.fst (h := by simpa using hlt),
        List.set_getElem_self]
    have hsorted := List.pairwise_map.mpr h.sorted
    rw [← hkeys] at hsorted
    exact List.pairwise_map.mp hsorted
  · intro q hq r hr
    rcases List.mem_or_eq_of_mem_set hq with hq | rfl
    · exact h.group q hq r hr
    · exact h.group p (List.mem_of_getElem? hp) r (List.mem_of_mem_tail hr)

/-- **Serving a group keeps its line**: who was the first to wait is now the last to have become
active. -/
theorem line_serve (h : Grouped groupName m.pending) {p : G × List R}
    (hp : m.pending[i]? = some p) (g : G) :
    (m.serve i p).line groupName g = m.line groupName g := by
  obtain ⟨k, _ | ⟨r, rest⟩⟩ := p
  · rfl
  · obtain ⟨hlt, hget⟩ := List.getElem?_eq_some_iff.mp hp
    have hr : groupName r = k :=
      h.group (k, r :: rest) (List.mem_of_getElem? hp) r List.mem_cons_self
    have hsplit : m.pending = m.pending.take i ++ (k, r :: rest) :: m.pending.drop (i + 1) := by
      rw [← hget, ← List.drop_eq_getElem_cons hlt, List.take_append_drop]
    have hset : m.pending.set i (k, rest)
        = m.pending.take i ++ (k, rest) :: m.pending.drop (i + 1) := by
      rw [List.set_eq_take_append_cons_drop, if_pos hlt]
    have hbefore : ∀ p ∈ m.pending.take i, p.1 < k := by
      have hsorted := h.sorted
      rw [hsplit] at hsorted
      intro p hp
      exact (List.pairwise_append.mp hsorted).2.2 p hp _ List.mem_cons_self
    have hearlier : Grouped groupName (m.pending.take i) :=
      ⟨h.sorted.sublist (List.take_sublist _ _),
        fun q hq => h.group q ((List.take_sublist _ _).subset hq)⟩
    have hwaits : ∀ q : List R, waiting (m.pending.take i ++ (k, q) :: m.pending.drop (i + 1))
        = waiting (m.pending.take i) ++ (q ++ waiting (m.pending.drop (i + 1))) := by
      intro q
      rw [waiting, List.flatMap_append, List.flatMap_cons]
      rfl
    have hnow : waiting m.pending
        = waiting (m.pending.take i) ++ (r :: rest ++ waiting (m.pending.drop (i + 1))) := by
      rw [← hwaits, ← hsplit]
    rw [line, line, serve, hset, hwaits, hnow, List.map_append, List.map_singleton,
      List.filter_append, List.filter_append, List.filter_append, List.filter_append,
      List.append_assoc, List.cons_append]
    by_cases hg : k = g
    · rw [hearlier.filter_eq_nil (g := g) fun p hp => hg ▸ (hbefore p hp).ne]
      simp [hr, hg]
    · simp [hr, hg]

/-! ## The loop -/

omit [LinearOrder G] in
/-- A turn that finds nobody: if the groups behind the next `l + 1` ones were found empty, so are those
behind the next `l` ones now, for the group of the turn is the last of them. -/
theorem serve_empty {p : G × List R} (hp : m.pending[i]? = some p) (hnone : p.2 = []) {l : ℕ}
    (hempty : ∀ q ∈ (m.pending.rotate i).drop (l + 1), q.2 = []) :
    ∀ q ∈ ((m.serve i p).pending.rotate (next m.pending.length i)).drop l, q.2 = [] := by
  intro q hq
  rw [rotate_eq_cons hp, List.drop_succ_cons] at hempty
  rw [serve_rotate hp, rotate_eq_cons hp, turn, List.drop_append] at hq
  rcases List.mem_append.mp hq with hq | hq
  · exact hempty q hq
  · have hq := List.mem_singleton.mp (List.mem_of_mem_drop hq)
    rw [hq, hnone, List.tail_nil]

omit [LinearOrder G] in
/-- **The rule for the loop.**  It ends, at a group of the map, when nothing is free or nobody
waits; what holds before it and is kept by a turn taken while something is free holds then. -/
theorem scan_total {J : ResourceManager R G → ℕ → Prop} {start : ℕ}
    (hturn : ∀ m i p, J m i → m.active.card < m.max_active_resources → m.pending[i]? = some p →
      J (m.serve i p) (next m.pending.length i)) :
    ∀ (fuel : ℕ) (m : ResourceManager R G) (i activated left : ℕ), J m i →
      i < m.pending.length → start < m.pending.length →
      -- `left` turns are left of the cycle, and nothing was found in it so far
      1 ≤ left → left ≤ m.pending.length → (i + left = start ∨ i + left = start + m.pending.length) →
      (activated = 0 → ∀ p ∈ (m.pending.rotate i).drop left, p.2 = []) →
      left + m.pending.length * ((waiting m.pending).length + if activated = 0 then 0 else 1)
        < fuel →
      ∃ m' j g, scan start fuel m i activated = some { m' with current := g } ∧ J m' j ∧
        (m'.max_active_resources ≤ m'.active.card ∨ waiting m'.pending = []) := by
  have hleave : ∀ (m : ResourceManager R G) (i : ℕ), J m i → i < m.pending.length →
      (m.max_active_resources ≤ m.active.card ∨ waiting m.pending = []) →
      ∃ m' j g, m.leave i = some { m' with current := g } ∧ J m' j ∧
        (m'.max_active_resources ≤ m'.active.card ∨ waiting m'.pending = []) := by
    intro m i hJ hi hend
    exact ⟨m, i, (m.pending[i]).1, by rw [leave, List.getElem?_eq_getElem hi]; rfl, hJ, hend⟩
  intro fuel
  induction fuel with
  | zero => intro m i activated left _ _ _ _ _ _ _ hfuel; exact absurd hfuel (Nat.not_lt_zero _)
  | succ fuel ih =>
    intro m i activated left hJ hi hstart hleft hle hpos hempty hfuel
    rw [scan]
    by_cases hfree : m.active.card < m.max_active_resources
    swap
    · rw [if_neg hfree]
      exact hleave m i hJ hi (.inl (not_lt.mp hfree))
    obtain ⟨p, hp⟩ : ∃ p, m.pending[i]? = some p := ⟨_, List.getElem?_eq_getElem hi⟩
    have hJ' := hturn m i p hJ hfree hp
    have hlen := serve_length hp
    have hwait := serve_waiting_length hp
    have hi' : next m.pending.length i < m.pending.length := next_lt hi
    rw [if_pos hfree, hp]
    simp only [hlen]
    obtain ⟨m', hm'⟩ : ∃ m', m' = m.serve i p := ⟨_, rfl⟩
    obtain ⟨j, hj⟩ : ∃ j, j = next m.pending.length i := ⟨_, rfl⟩
    obtain ⟨n, hn⟩ : ∃ n, n = m.pending.length := ⟨_, rfl⟩
    -- what this cycle has found so far, with this turn
    obtain ⟨found, hfound⟩ :
      ∃ found, found = if p.2.isEmpty then activated else activated + 1 := ⟨_, rfl⟩
    have hvisited : found = 0 → ∀ q ∈ (m'.pending.rotate j).drop (left - 1), q.2 = [] := by
      intro hzero
      have hp2 : p.2.isEmpty := by
        by_contra hne
        rw [hfound, if_neg hne] at hzero
        exact Nat.succ_ne_zero _ hzero
      rw [hfound, if_pos hp2] at hzero
      rw [hm', hj]
      refine serve_empty hp (List.isEmpty_iff.mp hp2) ?_
      rw [Nat.sub_add_cancel hleft]
      exact hempty hzero
    have hmeasure : n * ((waiting m'.pending).length + if found = 0 then 0 else 1)
        ≤ n * ((waiting m.pending).length + if activated = 0 then 0 else 1) := by
      refine Nat.mul_le_mul_left n ?_
      rw [hm', hfound, ← hwait]
      split <;> split <;> omega
    rw [← hm', ← hj, ← hfound]
    rw [← hm', ← hj] at hJ'
    rw [← hm'] at hlen
    rw [← hn] at hle hpos hi' hi hstart hfuel hlen
    have hnext : j = if i + 1 = n then 0 else i + 1 := by rw [hj, hn, next]
    rw [hn, ← hj, ← hn] at hi'
    by_cases hround : j = start
    · -- the cycle is complete
      have hone : left = 1 := by
        split at hnext <;> omega
      rw [if_pos hround]
      by_cases hzero : found = 0
      · rw [if_pos hzero]
        refine hleave m' j hJ' (hlen ▸ hi') (.inr (waiting_eq_nil.mpr fun q hq => ?_))
        have hall := hvisited hzero q
        rw [hone] at hall
        exact hall (List.mem_rotate.mpr hq)
      · rw [if_neg hzero]
        rw [if_neg hzero, Nat.mul_add, Nat.mul_one] at hmeasure
        refine ih m' j 0 n hJ' (hlen ▸ hi') (hlen ▸ hstart) (by omega) hlen.ge ?_ ?_ ?_
        · right; rw [hlen, hround]
        · intro _ q hq
          rw [List.drop_of_length_le (by rw [List.length_rotate, hlen])] at hq
          exact absurd hq List.not_mem_nil
        · rw [if_pos rfl, hlen, Nat.add_zero]
          omega
    · rw [if_neg hround]
      have hmore : 2 ≤ left ∧ (j + (left - 1) = start ∨ j + (left - 1) = start + n) := by
        split at hnext <;> omega
      refine ih m' j found (left - 1) hJ' (hlen ▸ hi') (hlen ▸ hstart) (by omega) (by omega) ?_
        hvisited ?_
      · rw [hlen]; exact hmore.2
      · rw [hlen]; omega

omit [DecidableEq R] in
theorem cursor_lt (hne : m.pending ≠ []) : m.cursor < m.pending.length := by
  rw [cursor]
  cases hfind : m.pending.findIdx? fun p => decide (p.1 = m.current) with
  | none => exact List.length_pos_iff.mpr hne
  | some i => exact (List.findIdx?_eq_some_iff_findIdx_eq.mp hfind).1

/-- **`update` returns**, with everything handed out or nobody waiting. -/
theorem update_total {J : ResourceManager R G → ℕ → Prop}
    (hturn : ∀ m i p, J m i → m.active.card < m.max_active_resources → m.pending[i]? = some p →
      J (m.serve i p) (next m.pending.length i))
    (hfree : m.active.card < m.max_active_resources) (hne : m.pending ≠ []) (hJ : J m m.cursor) :
    ∃ m' j g, m.update = some { m' with current := g } ∧ J m' j ∧
      (m'.max_active_resources ≤ m'.active.card ∨ waiting m'.pending = []) := by
  have hlt := cursor_lt hne
  rw [update, if_neg (not_le.mpr hfree)]
  refine scan_total hturn _ m m.cursor 0 m.pending.length hJ hlt hlt (Nat.zero_lt_of_lt hlt)
    le_rfl (.inr rfl) ?_ ?_
  · intro _ q hq
    rw [List.drop_of_length_le (by rw [List.length_rotate])] at hq
    exact absurd hq List.not_mem_nil
  · rw [if_pos rfl, Nat.add_zero, Nat.mul_add, Nat.mul_one]
    omega

end

/-! ## Nobody is passed over -/

section

variable [DecidableEq R]

/-- What the loop keeps whoever is served: the map, the bound and the order in each group. -/
structure Handing (groupName : R → G) (m : ResourceManager R G) : Prop where
  grouped : Grouped groupName m.pending
  filled : m.pending ≠ []
  bounded : m.active.card ≤ m.max_active_resources
  none_lost : ∀ r ∈ m.kept, r ∈ m.active ∨ r ∈ waiting m.pending
  in_order : ∀ g, (m.line groupName g).Sublist (m.added.filter fun r => groupName r = g)

theorem Handing.serve (h : m.Handing groupName) (hfree : m.active.card < m.max_active_resources)
    {p : G × List R} (hp : m.pending[i]? = some p) : (m.serve i p).Handing groupName where
  grouped := h.grouped.serve hp
  filled := by
    rw [Ne, ← List.length_eq_zero_iff, serve_length hp, List.length_eq_zero_iff]
    exact h.filled
  bounded := by
    obtain ⟨k, _ | ⟨r, rest⟩⟩ := p
    · exact h.bounded
    · exact (Finset.card_insert_le r m.active).trans hfree
  none_lost := by
    intro r hr
    rw [serve_kept] at hr
    exact waits_serve hp (h.none_lost r hr)
  in_order := by
    intro g
    rw [line_serve h.grouped hp, serve_added]
    exact h.in_order g

omit [DecidableEq R] in
/-- The circle as it is seen from a queue: the keys behind it are others. -/
theorem Grouped.circle (h : Grouped groupName m.pending) {p : G × List R}
    (hp : m.pending[i]? = some p) :
    ∃ L, m.pending.rotate i = p :: L ∧ p.1 ∉ L.map Prod.fst := by
  refine ⟨_, rotate_eq_cons hp, ?_⟩
  have hnodup : ((m.pending.rotate i).map Prod.fst).Nodup := by
    rw [List.map_rotate]
    exact List.nodup_rotate.mpr h.keys_nodup
  rw [rotate_eq_cons hp, List.map_cons] at hnodup
  exact (List.nodup_cons.mp hnodup).1

omit [DecidableEq R] in
/-- Choosing the first of the queue in front is taking turns exactly when it is fair. -/
theorem takesTurns_iff (h : Grouped groupName m.pending) {rest : List R}
    (hp : m.pending[i]? = some (g, r :: rest)) (x : Activation R) :
    TakesTurns groupName x ⟨r, waiting m.pending⟩ ↔
      Fair (groupName x.resource) (m.pending.rotate i) := by
  obtain ⟨L, hL, hkeys⟩ := h.circle hp
  have hr : groupName r = g := h.group _ (List.mem_of_getElem? hp) r List.mem_cons_self
  have hmem : ∀ p, p ∈ m.pending ↔ p ∈ (g, r :: rest) :: L := by
    intro p
    rw [← hL, List.mem_rotate]
  rw [hL, TakesTurns]
  by_cases hx : groupName x.resource = g
  · rw [hx, fair_cons hkeys]
    dsimp only
    rw [hr]
    constructor
    · intro hall p hp
      rw [List.eq_nil_iff_forall_not_mem]
      intro s hs
      have hpm : p ∈ m.pending := (hmem p).mpr (List.mem_cons_of_mem _ hp)
      have hs' := hall rfl s (mem_waiting.mpr ⟨p, hpm, hs⟩)
      rw [h.group p hpm s hs] at hs'
      exact hkeys (List.mem_map.mpr ⟨p, hp, hs'⟩)
    · intro hempty _ s hs
      obtain ⟨p, hp, hsp⟩ := mem_waiting.mp hs
      rcases List.mem_cons.mp ((hmem p).mp hp) with rfl | hpL
      · exact h.group _ hp s hsp
      · rw [hempty p hpL] at hsp
        exact absurd hsp List.not_mem_nil
  · refine iff_of_true (fun heq => absurd (heq.trans hr) hx) (.inl ⟨(g, r :: rest), ?_, ?_⟩)
    · rw [List.takeWhile_cons_of_pos (by simpa using Ne.symm hx)]
      exact List.mem_cons_self
    · exact List.cons_ne_nil r rest

/-- What the loop keeps when it starts fairly: the turns taken so far, and that the next is fair. -/
structure Alternating (groupName : R → G) (m : ResourceManager R G) (i : ℕ) : Prop where
  handing : m.Handing groupName
  turns : m.log.IsChain (TakesTurns groupName)
  fair : ∀ x ∈ m.log.getLast?, Fair (groupName x.resource) (m.pending.rotate i)

theorem Alternating.serve (h : m.Alternating groupName i)
    (hfree : m.active.card < m.max_active_resources) {p : G × List R}
    (hp : m.pending[i]? = some p) :
    (m.serve i p).Alternating groupName (next m.pending.length i) := by
  refine ⟨h.handing.serve hfree hp, ?_, ?_⟩
  · obtain ⟨k, _ | ⟨r, rest⟩⟩ := p
    · exact h.turns
    · refine h.turns.append (List.isChain_singleton _) fun x hx y hy => ?_
      rw [List.head?_cons, Option.mem_some_iff] at hy
      rw [← hy]
      exact (takesTurns_iff h.handing.grouped hp x).mpr (h.fair x hx)
  · obtain ⟨L, hL, hkeys⟩ := h.handing.grouped.circle hp
    rw [serve_rotate hp, hL]
    obtain ⟨k, _ | ⟨r, rest⟩⟩ := p
    · intro x hx
      have hfair := h.fair x hx
      rwa [hL, ← fair_turn_iff hkeys] at hfair
    · intro x hx
      rw [ResourceManager.serve, List.getLast?_concat, Option.mem_some_iff] at hx
      have hr : groupName r = k :=
        h.handing.grouped.group _ (List.mem_of_getElem? hp) r List.mem_cons_self
      rw [← hx, hr]
      exact fair_serve hkeys

/-- What the loop keeps when it starts unfairly: the next activation will break the law, or one
has. -/
structure PassingOver (groupName : R → G) (m : ResourceManager R G) (i : ℕ) : Prop where
  handing : m.Handing groupName
  unfair : ¬ m.log.IsChain (TakesTurns groupName) ∨
    m.active.card < m.max_active_resources ∧
      ∃ x ∈ m.log.getLast?, ¬ Fair (groupName x.resource) (m.pending.rotate i)

theorem PassingOver.serve (h : m.PassingOver groupName i)
    (hfree : m.active.card < m.max_active_resources) {p : G × List R}
    (hp : m.pending[i]? = some p) :
    (m.serve i p).PassingOver groupName (next m.pending.length i) := by
  refine ⟨h.handing.serve hfree hp, ?_⟩
  obtain ⟨L, hL, hkeys⟩ := h.handing.grouped.circle hp
  have hcircle := serve_rotate hp
  obtain ⟨k, _ | ⟨r, rest⟩⟩ := p
  · refine h.unfair.imp_right fun ⟨_, x, hx, hunfair⟩ => ⟨hfree, x, hx, ?_⟩
    rw [hcircle, hL, fair_turn_iff hkeys, ← hL]
    exact hunfair
  · left
    intro hchain
    have hparts := List.isChain_append.mp hchain
    rcases h.unfair with hbroken | ⟨-, x, hx, hunfair⟩
    · exact hbroken hparts.1
    · exact hunfair ((takesTurns_iff h.handing.grouped hp x).mp (hparts.2.2 x hx _ rfl))

/-! ## The calls -/

theorem Handing.update (h : m.Handing groupName) (hfree : m.active.card < m.max_active_resources)
    (hchain : m.log.IsChain (TakesTurns groupName)) :
    ∃ m', m.update = some m' ∧ WellFormed groupName m' ∧
      (m'.FairlyShared groupName ↔ m.NextIsFair groupName) := by
  by_cases hfair : m.NextIsFair groupName
  · obtain ⟨m', j, g, hm', hJ, hend⟩ :=
      update_total (J := Alternating groupName) (fun m i p hJ hfree hp => hJ.serve hfree hp)
        hfree h.filled ⟨h, hchain, hfair⟩
    refine ⟨_, hm', ⟨hJ.handing.grouped, fun _ => hJ.handing.filled⟩, iff_of_true ?_ hfair⟩
    exact
      { bounded := hJ.handing.bounded
        waits_when_full := fun hwait =>
          le_antisymm hJ.handing.bounded (hend.resolve_right hwait)
        none_lost := hJ.handing.none_lost
        in_order := hJ.handing.in_order
        turns := hJ.turns }
  · obtain ⟨x, hx, hunfair⟩ :
        ∃ x ∈ m.log.getLast?, ¬ Fair (groupName x.resource) (m.pending.rotate m.cursor) := by
      rw [NextIsFair] at hfair
      push Not at hfair
      exact hfair
    obtain ⟨m', j, g, hm', hJ, hend⟩ :=
      update_total (J := PassingOver groupName) (fun m i p hJ hfree hp => hJ.serve hfree hp)
        hfree h.filled ⟨h, .inr ⟨hfree, x, hx, hunfair⟩⟩
    refine ⟨_, hm', ⟨hJ.handing.grouped, fun _ => hJ.handing.filled⟩, iff_of_false ?_ hfair⟩
    intro hshared
    rcases hJ.unfair with hbroken | ⟨hroom, x, hx, hunfair⟩
    · exact hbroken hshared.turns
    · refine hunfair (.inr (.inl fun p hp _ => ?_))
      have hnone := waiting_eq_nil.mp (hend.resolve_left (not_le.mpr hroom))
      exact hnone p (List.mem_rotate.mp hp)

omit [DecidableEq R] in
/-- When nobody else waits, whoever comes is served fairly. -/
theorem fair_of_onlyIn {h g : G} {L : List (G × List R)} (honly : OnlyIn h L) : Fair g L := by
  by_cases hg : g = h
  · exact .inr (.inr (hg ▸ honly))
  · exact .inr (.inl fun p hp hkey => honly p hp fun hph => hg (hkey.symm.trans hph))

omit [DecidableEq R] in
/-- Who waits after a resource was added. -/
theorem Grouped.mem_waiting_append (h : Grouped groupName pending) (r s : R) :
    s ∈ waiting (ResourceManager.append (groupName r) r pending) ↔ s ∈ waiting pending ∨ s = r := by
  have hmem : s ∈ (waiting (ResourceManager.append (groupName r) r pending)).filter
      (fun t => groupName t = groupName s) ↔ s ∈ ((waiting pending).filter
        fun t => groupName t = groupName s) ++ [r].filter fun t => groupName t = groupName s := by
    rw [h.filter_append]
  rw [List.mem_append, List.mem_filter, List.mem_filter, List.mem_filter] at hmem
  simpa using hmem

/-- **Adding a resource is always fair**: when it is served at once, nobody else waits. -/
theorem add_spec (noName : G) (hwf : WellFormed groupName m) (hshared : m.FairlyShared groupName)
    (r : R) :
    ∃ m', (m.addedOne r).add noName groupName r = some m' ∧ WellFormed groupName m' ∧
      m'.FairlyShared groupName := by
  obtain ⟨m₁, hm₁⟩ : ∃ m₁ : ResourceManager R G, m₁ =
      { m.addedOne r with
        pending := ResourceManager.append (groupName r) r m.pending
        current := if m.current = noName then groupName r else m.current } := ⟨_, rfl⟩
  have hhanding : m₁.Handing groupName := by
    rw [hm₁]
    refine ⟨hwf.grouped.append r, append_ne_nil _ _ _, hshared.bounded, fun s hs => ?_, fun g => ?_⟩
    · dsimp only
      rw [hwf.grouped.mem_waiting_append]
      rcases Finset.mem_insert.mp hs with rfl | hs
      · exact .inr (.inr rfl)
      · exact (hshared.none_lost s hs).imp_right .inl
    · rw [line, hwf.grouped.filter_append, ← List.append_assoc, addedOne, List.filter_append]
      exact (hshared.in_order g).append (List.Sublist.refl _)
  have hadd : (m.addedOne r).add noName groupName r = m₁.update := by rw [add, hm₁]; rfl
  have hactive : m₁.active.card = m.active.card := by rw [hm₁]; rfl
  have hmax : m₁.max_active_resources = m.max_active_resources := by rw [hm₁]; rfl
  rw [hadd]
  by_cases hfree : m₁.active.card < m₁.max_active_resources
  · have hnobody : waiting m.pending = [] := by
      by_contra hwait
      have hfull := hshared.waits_when_full hwait
      omega
    have honly : OnlyIn (groupName r) m₁.pending := by
      intro p hp hkey
      rw [hm₁] at hp
      rcases mem_append hwf.grouped hp with hp | ⟨hsame, -⟩
      · exact waiting_eq_nil.mp hnobody p hp
      · exact absurd hsame hkey
    have hchain : m₁.log.IsChain (TakesTurns groupName) := by rw [hm₁]; exact hshared.turns
    obtain ⟨m', hm', hwf', hiff⟩ := hhanding.update hfree hchain
    refine ⟨m', hm', hwf', hiff.mpr fun x _ => fair_of_onlyIn (h := groupName r) ?_⟩
    exact fun p hp => honly p (List.mem_rotate.mp hp)
  · refine ⟨m₁, by rw [update, if_pos (not_lt.mp hfree)],
      ⟨hhanding.grouped, fun _ => hhanding.filled⟩, ?_⟩
    exact
      { bounded := hhanding.bounded
        waits_when_full := fun _ => le_antisymm hhanding.bounded (not_lt.mp hfree)
        none_lost := hhanding.none_lost
        in_order := hhanding.in_order
        turns := by rw [hm₁]; exact hshared.turns }

/-- Removing a resource that is not kept returns, and breaks the law exactly when handing out the
one that it frees is unfair. -/
theorem remove_spec (hwf : WellFormed groupName m) (hshared : m.FairlyShared groupName)
    (hkept : r ∉ m.kept) :
    ∃ m', m.remove groupName r = some m' ∧ WellFormed groupName m' ∧
      (m'.FairlyShared groupName ↔ (r ∈ m.active → m.NextIsFair groupName)) := by
  rw [remove]
  by_cases hr : r ∈ m.active
  · obtain ⟨m₁, hm₁⟩ : ∃ m₁ : ResourceManager R G,
        m₁ = { m with active := m.active.erase r } := ⟨_, rfl⟩
    have hless : m.active.card = m₁.active.card + 1 := by
      rw [hm₁]
      exact (Finset.card_erase_add_one hr).symm
    have hmax : m₁.max_active_resources = m.max_active_resources := by rw [hm₁]
    have hbounded := hshared.bounded
    have hhanding : m₁.Handing groupName := by
      refine ⟨?_, ?_, by omega, ?_, ?_⟩
      · rw [hm₁]; exact hwf.grouped
      · rw [hm₁]; exact hwf.held ⟨r, hr⟩
      · rw [hm₁]
        intro s hs
        have hne : s ≠ r := fun heq => hkept (heq ▸ hs)
        exact (hshared.none_lost s hs).imp_left (Finset.mem_erase_of_ne_of_mem hne)
      · rw [hm₁]; exact hshared.in_order
    have hnext : m₁.NextIsFair groupName ↔ m.NextIsFair groupName := by rw [hm₁]; rfl
    have hchain : m₁.log.IsChain (TakesTurns groupName) := by rw [hm₁]; exact hshared.turns
    obtain ⟨m', hm', hwf', hiff⟩ := hhanding.update (by omega) hchain
    rw [if_pos hr, ← hm₁]
    refine ⟨m', hm', hwf', hiff.trans (hnext.trans ?_)⟩
    exact ⟨fun hfair _ => hfair, fun hall => hall hr⟩
  · rw [if_neg hr]
    refine ⟨_, rfl, ⟨hwf.grouped.erase _ r, fun hact hnil => ?_⟩,
      iff_of_true ?_ fun hact => absurd hact hr⟩
    · exact hwf.held hact (List.map_eq_nil_iff.mp hnil)
    · have hsub := waiting_erase_sublist (groupName r) r m.pending
      exact
        { bounded := hshared.bounded
          waits_when_full := fun hwait => hshared.waits_when_full fun hnil => hwait <| by
            rw [hnil] at hsub
            exact List.sublist_nil.mp hsub
          none_lost := fun s hs => (hshared.none_lost s hs).imp_right fun hwait =>
            mem_waiting_erase (fun heq => hkept (heq ▸ hs)) hwait
          in_order := fun g =>
            ((List.Sublist.refl _).append (hsub.filter _)).trans (hshared.in_order g)
          turns := hshared.turns }

/-! ## Runs -/

/-- What holds of every state of a run that meets the condition. -/
def Sound (groupName : R → G) : Option (ResourceManager R G) → Prop
  | none => False
  | some m => WellFormed groupName m ∧ m.FairlyShared groupName

omit [DecidableEq R] in
theorem Sound.shares {s : Option (ResourceManager R G)} (h : Sound groupName s) :
    Shares groupName s := by
  cases s with
  | none => exact h
  | some m => exact h.2

/-- The history goes on when a resource is not wanted any more. -/
theorem FairlyShared.drop (h : m.FairlyShared groupName) (r : R) :
    ({ m with kept := m.kept.erase r } : ResourceManager R G).FairlyShared groupName where
  bounded := h.bounded
  waits_when_full := h.waits_when_full
  none_lost := fun s hs => h.none_lost s (Finset.mem_of_mem_erase hs)
  in_order := h.in_order
  turns := h.turns

/-- **A call keeps the law exactly when it meets the condition.** -/
theorem call_spec {noName : G} {s : Option (ResourceManager R G)} (h : Sound groupName s) (c : Call R) :
    (OtherFirst groupName s c → Sound groupName (call noName groupName s c)) ∧
      (¬ OtherFirst groupName s c → ¬ Shares groupName (call noName groupName s c)) := by
  cases s with
  | none => exact h.elim
  | some m =>
    obtain ⟨hwf, hshared⟩ := h
    cases c with
    | add r =>
      obtain ⟨m', hm', hwf', hshared'⟩ := add_spec noName hwf hshared r
      have hcall : call noName groupName (some m) (.add r) = some m' := hm'
      rw [hcall]
      exact ⟨fun _ => ⟨hwf', hshared'⟩, fun hbad => absurd trivial hbad⟩
    | remove r =>
      obtain ⟨m', hm', hwf', hiff⟩ := remove_spec (m := { m with kept := m.kept.erase r })
        ⟨hwf.grouped, hwf.held⟩ (hshared.drop r) (Finset.notMem_erase r m.kept)
      have hcall : call noName groupName (some m) (.remove r) = some m' := hm'
      rw [hcall]
      exact ⟨fun hok => ⟨hwf', hiff.mpr hok⟩, fun hbad hshared' => hbad (hiff.mp hshared')⟩
    | release r =>
      by_cases hdet : r ∈ m.detached
      · have hcall : call noName groupName (some m) (.release r) = some m := by
          change (m.record (.release r)).release groupName r = some m
          rw [record, if_pos hdet, release, if_pos hdet]
        rw [hcall]
        exact ⟨fun _ => ⟨hwf, hshared⟩, fun hbad => absurd (fun hnot => absurd hdet hnot) hbad⟩
      · obtain ⟨m', hm', hwf', hiff⟩ := remove_spec (m := { m with kept := m.kept.erase r })
          ⟨hwf.grouped, hwf.held⟩ (hshared.drop r) (Finset.notMem_erase r m.kept)
        have hcall : call noName groupName (some m) (.release r)
            = some { m' with detached := insert r m'.detached } := by
          change (m.record (.release r)).release groupName r = _
          rw [record, if_neg hdet, release, if_neg hdet, hm', Option.map_some]
        rw [hcall]
        constructor
        · intro hok
          have hshared' := hiff.mpr (hok hdet)
          exact ⟨⟨hwf'.grouped, hwf'.held⟩, ⟨hshared'.bounded, hshared'.waits_when_full,
            hshared'.none_lost, hshared'.in_order, hshared'.turns⟩⟩
        · intro hbad hshared'
          exact hbad fun _ => hiff.mp ⟨hshared'.bounded, hshared'.waits_when_full,
            hshared'.none_lost, hshared'.in_order, hshared'.turns⟩

omit [DecidableEq R] in
theorem sound_start (noName : G) (max : ℕ) :
    Sound groupName (some (start noName max : ResourceManager R G)) := by
  refine ⟨⟨⟨List.Pairwise.nil, fun p hp => absurd hp List.not_mem_nil⟩, fun hact => ?_⟩, ?_⟩
  · exact absurd hact Finset.not_nonempty_empty
  · exact ⟨Nat.zero_le _, fun hwait => absurd rfl hwait,
      fun r hr => absurd hr (Finset.notMem_empty r), fun g => List.nil_sublist _, .nil⟩

/-- **When the resources are shared fairly.**  Along every sequence of calls, from a new manager,
the law holds in every state exactly when every call that frees a resource meets the condition:
looked at from `current` on, the group served last is not the first with somebody waiting, or it
is the only one. -/
theorem allStates_fairlyShared_iff (noName : G) (groupName : R → G) (max : ℕ)
    (calls : List (Call R)) :
    AllStates (call noName groupName) (Shares groupName) (some (start noName max)) calls ↔
      AllSteps (call noName groupName) (OtherFirst groupName) (some (start noName max)) calls := by
  refine allStates_iff_allSteps (fun _ => Sound.shares) ?_ ?_ calls _ (sound_start noName max)
  · exact fun s c hs hok => (call_spec hs c).1 hok
  · exact fun s c hs hbad => (call_spec hs c).2 hbad

/-- A group that is created while another one is active is passed over: of the groups 1 and 2, with
one resource at a time, the second resource of group 1 becomes active before that of group 2. -/
theorem newGroup_passedOver :
    ¬ AllStates (call 0 Prod.fst) (Shares Prod.fst) (some (start 0 1))
      [.add ((1, 1) : ℕ × ℕ), .add (1, 2), .add (2, 1), .release (1, 1)] := by
  rintro ⟨-, -, -, -, h⟩
  have hbroken : ¬ ∀ m ∈ run (call 0 Prod.fst) (some (start 0 1))
      [.add ((1, 1) : ℕ × ℕ), .add (1, 2), .add (2, 1), .release (1, 1)],
      m.log.IsChain (TakesTurns Prod.fst) := by decide +kernel
  refine hbroken fun m hm => ?_
  have hshares : Shares Prod.fst (some m) := hm ▸ h
  exact hshares.turns

end

end ResourceManager

end KTorrent
