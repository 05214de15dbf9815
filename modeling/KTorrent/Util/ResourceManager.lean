import Mathlib.Data.Finset.Card
import KTorrent.Lib.OrderedSet
import KTorrent.Lib.RoundRobin
import KTorrent.Lib.Run

/-!
# Shared resources: `ResourceManager`

A scarce resource is held by at most `max_active_resources` at a time; the others wait in the
queue of their group, and `update` hands out what is free, group after group
(`util/resourcemanager.cpp`).  The groups are in a map ordered by name: a queue is created when
its group is first met and is never erased.

* `ResourceManager` — `max_active_resources`, `active`, `pending` and `current`, and for the laws
  the activations, each with those who waited when it was made, and what a run asked for.
* `ResourceManager.update` — the scan that starts at `current`; no state when the loop does not
  end within its fuel or when the end of the map is dereferenced.
* `ResourceManager.add`, `remove`, `release` — the calls, and `call` the step of a run, which
  notes what is asked for.
* `ResourceManager.acquire` — the call that does not wait, and `use` the step of a run with it.
-/

namespace KTorrent

open RoundRobin

/-- A resource becoming active, and those waiting when it was chosen, itself included. -/
structure Activation (R : Type*) where
  resource : R
  waiting : List R
deriving DecidableEq

/-- A resource manager.  A resource in `detached` has let go of its manager: its `rman` is null. -/
structure ResourceManager (R G : Type*) where
  max_active_resources : ℕ
  active : Finset R
  pending : List (G × List R)
  current : G
  detached : Finset R
  log : List (Activation R)
  /-- History: the resources that were added. -/
  added : List R
  /-- History: those that were added and not removed or released since. -/
  kept : Finset R
deriving DecidableEq

namespace ResourceManager

variable {R G : Type*} [DecidableEq R] [LinearOrder G]

/-- A manager that has not been asked for anything yet; `noName` is the empty name. -/
def start (noName : G) (max : ℕ) : ResourceManager R G where
  max_active_resources := max
  active := ∅
  pending := []
  current := noName
  detached := ∅
  log := []
  added := []
  kept := ∅

/-! ## Handing out what is free -/

/-- The body of the loop at a queue that is not empty: its first resource becomes active. -/
def serve (m : ResourceManager R G) (i : ℕ) : G × List R → ResourceManager R G
  | (_, []) => m
  | (g, r :: rest) =>
    { m with
      active := insert r m.active
      pending := m.pending.set i (g, rest)
      log := m.log ++ [⟨r, waiting m.pending⟩] }

/-- The end of `update`: the group the iterator is at is remembered. -/
def leave (m : ResourceManager R G) (i : ℕ) : Option (ResourceManager R G) :=
  m.pending[i]?.map fun p => { m with current := p.1 }

/-- The loop of `update`; the iterators are positions in the map. -/
def scan (start : ℕ) : ℕ → ResourceManager R G → ℕ → ℕ → Option (ResourceManager R G)
  | 0, _, _, _ => none
  | fuel + 1, m, i, activated =>
    if m.active.card < m.max_active_resources then
      match m.pending[i]? with
      | none => none
      | some p =>
        let m := m.serve i p
        let activated := if p.2.isEmpty then activated else activated + 1
        let i := next m.pending.length i
        if i = start then
          -- a whole cycle: the loop ends when nothing was activated in it
          if activated = 0 then m.leave i else scan start fuel m i 0
        else scan start fuel m i activated
    else m.leave i

/-- Where the scan starts: at the remembered group, or at the first one. -/
def cursor (m : ResourceManager R G) : ℕ :=
  (m.pending.findIdx? fun p => p.1 = m.current).getD 0

/-- `ResourceManager::update`. -/
def update (m : ResourceManager R G) : Option (ResourceManager R G) :=
  if m.max_active_resources ≤ m.active.card then some m
  else
    let fuel := m.pending.length * ((waiting m.pending).length + 1) + 1
    scan m.cursor fuel m m.cursor 0

/-! ## The calls -/

variable (noName : G) (groupName : R → G)

/-- The queue of `g` after `r` is appended to it; it is created if the map does not have it. -/
def append (g : G) (r : R) (pending : List (G × List R)) : List (G × List R) :=
  (OrderedSet.insert Prod.fst (g, []) pending).map fun p =>
    if p.1 = g then (p.1, p.2 ++ [r]) else p

/-- `ResourceManager::add`. -/
def add (m : ResourceManager R G) (r : R) : Option (ResourceManager R G) :=
  update
    { m with
      pending := append (groupName r) r m.pending
      current := if m.current = noName then groupName r else m.current }

/-- `ResourceManager::remove`. -/
def remove (m : ResourceManager R G) (r : R) : Option (ResourceManager R G) :=
  if r ∈ m.active then update { m with active := m.active.erase r }
  else
    some { m with
      pending := m.pending.map fun p =>
        if p.1 = groupName r then (p.1, p.2.filter fun s => s ≠ r) else p }

/-- `Resource::release`: a resource without a manager does nothing. -/
def release (m : ResourceManager R G) (r : R) : Option (ResourceManager R G) :=
  if r ∈ m.detached then some m
  else (m.remove groupName r).map fun m => { m with detached := insert r m.detached }

/-- What the users of a manager do. -/
inductive Call (R : Type*) where
  | add (r : R)
  | remove (r : R)
  | release (r : R)
deriving DecidableEq

/-- The manager does what the call asks for. -/
def handle (m : ResourceManager R G) : Call R → Option (ResourceManager R G)
  | .add r => m.add noName groupName r
  | .remove r => m.remove groupName r
  | .release r => m.release groupName r

/-- The history of a resource that is added. -/
def addedOne (m : ResourceManager R G) (r : R) : ResourceManager R G :=
  { m with added := m.added ++ [r], kept := insert r m.kept }

/-- The history goes on; the release of a resource that has let go of its manager is none. -/
def record (m : ResourceManager R G) : Call R → ResourceManager R G
  | .add r => m.addedOne r
  | .remove r => { m with kept := m.kept.erase r }
  | .release r => if r ∈ m.detached then m else { m with kept := m.kept.erase r }

/-- A call; there is no state after a call that did not return. -/
def call (m : Option (ResourceManager R G)) (c : Call R) : Option (ResourceManager R G) :=
  m.bind fun m => (m.record c).handle noName groupName c

/-! ## Asking without waiting -/

/-- `ResourceManager::acquire`: the value that it returns, and the manager after it. -/
def acquire (m : ResourceManager R G) (r : R) : Option (Bool × ResourceManager R G) :=
  if m.active.card < m.max_active_resources ∧ m.pending.isEmpty then
    (m.add noName groupName r).map fun m => (true, m)
  else some (false, m)

/-- What the users of a manager do when some of them do not want to wait. -/
inductive Use (R : Type*) where
  | call (c : Call R)
  | acquire (r : R)
deriving DecidableEq

/-- The step of a run with `acquire` in it. -/
def use (m : Option (ResourceManager R G)) : Use R → Option (ResourceManager R G)
  | .call c => call noName groupName m c
  | .acquire r => m.bind fun m => (m.acquire noName groupName r).map fun
    | (acquired, m) => if acquired then m.addedOne r else m

end ResourceManager

end KTorrent
