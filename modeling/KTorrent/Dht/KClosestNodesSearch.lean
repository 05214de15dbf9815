import KTorrent.Dht.KBucket
import KTorrent.Lib.Run
import KTorrent.Lib.Smallest

/-!
# The closest nodes

The model of `dht/kclosestnodessearch.cpp`.  A search keeps the nodes that are
closest to a key in a map, by the XOR of their ids with the key.

* `Key.distance` — the XOR of two keys.
* `KClosestNodesSearch.tryInsert` — a node is offered to the search.
* `Offered` — a search, with the nodes that it was offered.
* `allStates_closest_iff` — the search has the closest ids, one node for each, until an id
  comes again while the map is full, and is not the farthest one in it.
-/

namespace KTorrent

open Runs Smallest

namespace Key

/-- `Key::distance`, byte by byte. -/
def distance (a b : Key) : Key :=
  ⟨List.zipWith (· ^^^ ·) a.1 b.1, by rw [List.length_zipWith, a.2, b.2, min_self]⟩

/-- Ids at the same distance from a key are the same. -/
theorem distance_injective (key : Key) : Function.Injective (distance key) := by
  intro a b h
  have hlist : List.zipWith (· ^^^ ·) key.1 a.1 = List.zipWith (· ^^^ ·) key.1 b.1 :=
    congrArg Subtype.val h
  refine Subtype.ext (List.ext_getElem (a.2.trans b.2.symm) fun i ha hb => ?_)
  have hi : i < key.1.length := by
    rw [key.2, ← a.2]
    exact ha
  have hget : ∀ c : Key, (hc : i < c.1.length) →
      (List.zipWith (· ^^^ ·) key.1 c.1)[i]? = some (key.1[i] ^^^ c.1[i]) := by
    intro c hc
    simp [hi, hc]
  have hxor : key.1[i] ^^^ a.1[i] = key.1[i] ^^^ b.1[i] :=
    Option.some.inj ((hget a ha).symm.trans ((congrArg (·[i]?) hlist).trans (hget b hb)))
  exact (UInt8.xor_right_inj key.1[i]).mp hxor

end Key

/-- `KClosestNodesSearch`. -/
structure KClosestNodesSearch where
  key : Key
  /-- The map, in the order of its keys. -/
  emap : List (Key × KBucketEntry)
  maxEntries : UInt32

namespace KClosestNodesSearch

/-- The constructor. -/
def new (key : Key) (maxEntries : UInt32) : KClosestNodesSearch := ⟨key, [], maxEntries⟩

/-- `tryInsert`.  A pair whose key is in the map is not inserted. -/
def tryInsert (s : KClosestNodesSearch) (e : KBucketEntry) : KClosestNodesSearch :=
  let d := Key.distance s.key e.nodeId
  if s.emap.length < s.maxEntries.toNat then
    -- room in the map so just insert
    { s with emap := OrderedSet.insert Prod.fst (d, e) s.emap }
  else
    match s.emap.getLast? with
    -- `rbegin` of an empty map
    | none => s
    | some (max, _) =>
      if d < max then
        -- erase the old max value
        { s with emap := (OrderedSet.insert Prod.fst (d, e) s.emap).filter fun p => p.1 ≠ max }
      else s

end KClosestNodesSearch

/-- A search, with the nodes that it was offered. -/
structure Offered where
  kns : KClosestNodesSearch
  nodes : List KBucketEntry

namespace Offered

variable {s : Offered} {e : KBucketEntry}

/-- A search that was not offered any node. -/
def new (key : Key) (maxEntries : UInt32) : Offered := ⟨.new key maxEntries, []⟩

/-- A call of `tryInsert`. -/
def step (s : Offered) (e : KBucketEntry) : Offered := ⟨s.kns.tryInsert e, s.nodes ++ [e]⟩

/-- The ids that were offered. -/
def ids (s : Offered) : Finset Key := (s.nodes.map KBucketEntry.nodeId).toFinset

/-- **The search holds the closest ids**, in increasing distance: one node for each of them,
which was offered. -/
structure Closest (s : Offered) : Prop where
  size : s.kns.emap.length = min s.kns.maxEntries.toNat s.ids.card
  distances : s.kns.emap.map Prod.fst =
    smallest s.kns.maxEntries.toNat (s.ids.image (Key.distance s.kns.key))
  nodes : ∀ p ∈ s.kns.emap, p.2 ∈ s.nodes ∧ p.1 = Key.distance s.kns.key p.2.nodeId

/-- The map is full, and the id is in it before the last place. -/
def Repeats (s : Offered) (e : KBucketEntry) : Prop :=
  s.kns.maxEntries.toNat ≤ s.kns.emap.length ∧ (∃ p ∈ s.kns.emap, p.2.nodeId = e.nodeId) ∧
    ∃ p, s.kns.emap.getLast? = some p ∧ Key.distance s.kns.key e.nodeId < p.1

/-! ## One call -/

theorem tryInsert_key (s : KClosestNodesSearch) (e : KBucketEntry) :
    (s.tryInsert e).key = s.key ∧ (s.tryInsert e).maxEntries = s.maxEntries := by
  unfold KClosestNodesSearch.tryInsert
  dsimp only
  split
  · exact ⟨rfl, rfl⟩
  · split
    · exact ⟨rfl, rfl⟩
    · split <;> exact ⟨rfl, rfl⟩

/-- The distances in the map are offered the one of the node. -/
theorem tryInsert_distances (s : KClosestNodesSearch) (e : KBucketEntry) :
    (s.tryInsert e).emap.map Prod.fst =
      offer s.maxEntries.toNat (Key.distance s.key e.nodeId) (s.emap.map Prod.fst) := by
  unfold KClosestNodesSearch.tryInsert offer
  rw [List.length_map, List.getLast?_map]
  dsimp only
  split
  · exact OrderedSet.map_insert
  · cases s.emap.getLast? with
    | none => rfl
    | some p =>
      dsimp only [Option.map_some]
      split
      · have hmap : ((OrderedSet.insert Prod.fst (Key.distance s.key e.nodeId, e) s.emap).map Prod.fst) =
            OrderedSet.insert id (Key.distance s.key e.nodeId) (s.emap.map Prod.fst) :=
          OrderedSet.map_insert
        rw [← hmap, List.filter_map]
        exact congrArg (List.map Prod.fst) (List.filter_congr fun x _ => by simp)
      · rfl

/-- A pair in the map was there before, or is the new one. -/
theorem mem_tryInsert (s : KClosestNodesSearch) (e : KBucketEntry) :
    ∀ p ∈ (s.tryInsert e).emap, p ∈ s.emap ∨ p = (Key.distance s.key e.nodeId, e) := by
  have hinsert : ∀ (l : List (Key × KBucketEntry)) (a p : Key × KBucketEntry),
      p ∈ OrderedSet.insert Prod.fst a l → p ∈ l ∨ p = a := by
    intro l a p
    induction l with
    | nil => exact fun hp => .inr (List.mem_singleton.mp hp)
    | cons c l ih =>
      rw [OrderedSet.insert]
      split_ifs
      · rw [List.mem_cons, List.mem_cons, or_assoc]
        exact Or.imp_right ih
      · rw [List.mem_cons, or_comm]
        exact id
      · exact .inl
  unfold KClosestNodesSearch.tryInsert
  dsimp only
  intro p hp
  split at hp
  · exact hinsert _ _ p hp
  · split at hp
    · exact .inl hp
    · split at hp
      · exact hinsert _ _ p (List.mem_of_mem_filter hp)
      · exact .inl hp

theorem ids_step (s : Offered) (e : KBucketEntry) : (s.step e).ids = insert e.nodeId s.ids := by
  ext x
  simp [ids, step]

/-- One distance comes with a call. -/
theorem mem_image_step (s : Offered) (e : KBucketEntry) (d : Key) :
    d ∈ (s.step e).ids.image (Key.distance s.kns.key) ↔
      d = Key.distance s.kns.key e.nodeId ∨ d ∈ s.ids.image (Key.distance s.kns.key) := by
  rw [ids_step, Finset.image_insert, Finset.mem_insert]

/-- The distance of an id is in the map exactly when the id is. -/
theorem Closest.mem_distances (h : s.Closest) :
    Key.distance s.kns.key e.nodeId ∈ s.kns.emap.map Prod.fst ↔ ∃ p ∈ s.kns.emap, p.2.nodeId = e.nodeId := by
  rw [List.mem_map]
  refine exists_congr fun p => and_congr_right fun hp => ?_
  rw [(h.nodes p hp).2]
  exact (Key.distance_injective s.kns.key).eq_iff

/-- The id is repeated exactly when its distance is. -/
theorem Closest.repeats_iff (h : s.Closest) : s.Repeats e ↔
    Repeated s.kns.maxEntries.toNat (Key.distance s.kns.key e.nodeId) (s.kns.emap.map Prod.fst) := by
  rw [Repeats, Repeated, List.length_map, h.mem_distances, List.getLast?_map]
  refine and_congr_right fun _ => and_congr_right fun _ => ?_
  cases s.kns.emap.getLast? with
  | none => simp
  | some p => simp

/-- **A call keeps the closest ids.** -/
theorem Closest.step (h : s.Closest) (hmax : 1 ≤ s.kns.maxEntries.toNat) (hnew : ¬ s.Repeats e) :
    (s.step e).Closest := by
  obtain ⟨hkey, hentries⟩ := tryInsert_key s.kns e
  have hdist : (s.step e).kns.emap.map Prod.fst = smallest s.kns.maxEntries.toNat
      ((s.step e).ids.image (Key.distance s.kns.key)) :=
    (tryInsert_distances s.kns e).trans (offer_eq_smallest hmax
      (fun hr => hnew (h.repeats_iff.mpr hr)) h.distances (mem_image_step s e))
  refine ⟨?_, ?_, fun p hp => ?_⟩
  · have hlen := congrArg List.length hdist
    rw [List.length_map, length_smallest,
      Finset.card_image_of_injective _ (Key.distance_injective _)] at hlen
    rw [hlen]
    change _ = min (s.kns.tryInsert e).maxEntries.toNat _
    rw [hentries]
  · rw [hdist]
    change _ = smallest (s.kns.tryInsert e).maxEntries.toNat
      ((s.step e).ids.image (Key.distance (s.kns.tryInsert e).key))
    rw [hentries, hkey]
  · change p.2 ∈ s.nodes ++ [e] ∧ p.1 = Key.distance (s.kns.tryInsert e).key p.2.nodeId
    rw [hkey]
    rcases mem_tryInsert s.kns e p hp with hp | rfl
    · exact ⟨List.mem_append_left _ (h.nodes p hp).1, (h.nodes p hp).2⟩
    · exact ⟨List.mem_append_right _ (List.mem_singleton_self e), rfl⟩

/-- **A repeated id costs the farthest one its place.** -/
theorem Closest.not_step (h : s.Closest) (hrepeat : s.Repeats e) : ¬ (s.step e).Closest := by
  intro hafter
  obtain ⟨hkey, hentries⟩ := tryInsert_key s.kns e
  have hdist := hafter.distances
  change _ = smallest (s.kns.tryInsert e).maxEntries.toNat
    ((s.step e).ids.image (Key.distance (s.kns.tryInsert e).key)) at hdist
  rw [hentries, hkey] at hdist
  exact offer_repeated (h.repeats_iff.mp hrepeat) h.distances (mem_image_step s e)
    ((tryInsert_distances s.kns e).symm.trans hdist)

/-! ## All calls -/

theorem closest_new (key : Key) (maxEntries : UInt32) : (new key maxEntries).Closest where
  size := by simp [new, KClosestNodesSearch.new, ids]
  distances := by
    have hnil : ∀ k, smallest k (∅ : Finset Key) = [] := fun k => by simp [smallest]
    exact (hnil _).symm
  nodes := fun _ hp => nomatch hp

/-- **The closest nodes.**  For every key and every number of entries, the search holds the
closest ids after each of a sequence of calls exactly when no call repeats an id of the full
map other than the farthest one. -/
theorem allStates_closest_iff (key : Key) (maxEntries : UInt32) (hmax : 1 ≤ maxEntries.toNat)
    (es : List KBucketEntry) :
    AllStates step Closest (new key maxEntries) es ↔
      AllSteps step (fun s e => ¬ s.Repeats e) (new key maxEntries) es := by
  have hlaw : ∀ s : Offered, s.Closest ∧ s.kns.maxEntries = maxEntries → s.Closest := fun s hs => hs.1
  refine allStates_iff_allSteps hlaw (fun s e hs hnew => ?_) (fun s e hs hrepeat => ?_) es _
    ⟨closest_new key maxEntries, rfl⟩
  · exact ⟨hs.1.step (hs.2 ▸ hmax) hnew, (tryInsert_key s.kns e).2.trans hs.2⟩
  · exact hs.1.not_step (not_not.mp hrepeat)

/-- The node with a small id at a host. -/
def nodeNear (id : UInt8) (host : ℕ) : KBucketEntry :=
  KBucketEntry.new 0 ⟨.ipv4 (UInt32.ofNat host), 6881⟩ (Key.min.addValue id)

/-- Three nodes for two places: the farthest one, which comes first, is dropped. -/
theorem allStates_closest_three :
    AllStates step Closest (new Key.min 2) [nodeNear 3 0, nodeNear 1 1, nodeNear 2 2] ↔
      AllSteps step (fun s e => ¬ s.Repeats e) (new Key.min 2) [nodeNear 3 0, nodeNear 1 1, nodeNear 2 2] :=
  allStates_closest_iff Key.min 2 (by decide) _

/-- **An id comes again, from another address**: the other node of the full map is dropped, and
one of the two closest ids is missing. -/
theorem repeatedId_dropped :
    ¬ (run step (new Key.min 2) [nodeNear 1 0, nodeNear 2 1, nodeNear 1 2]).Closest := by
  intro h
  have hsize := h.size
  have hcount : (run step (new Key.min 2) [nodeNear 1 0, nodeNear 2 1, nodeNear 1 2]).ids.card = 2 := by
    decide +kernel
  have hlen : (run step (new Key.min 2) [nodeNear 1 0, nodeNear 2 1, nodeNear 1 2]).kns.emap.length = 1 := by
    decide +kernel
  have hmax : (run step (new Key.min 2) [nodeNear 1 0, nodeNear 2 1, nodeNear 1 2]).kns.maxEntries = 2 := by
    decide +kernel
  rw [hcount, hlen, hmax] at hsize
  exact absurd hsize (by decide)

end Offered
end KTorrent
