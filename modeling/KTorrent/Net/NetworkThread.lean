import KTorrent.Net.SocketGroup

/-!
# `NetworkThread`

`net/networkthread.cpp`: the groups of a thread and its global limit.

* `assuredPass` — what is assured to a group is done first.
* `groupShare`, `doGroupsLimited` — one pass over the groups, each with its share.
* `limitedPasses` — passes until nobody is ready or the allowance is up.
* `NetworkThread.doGroups` — all of it; without a global limit, what `unlimitedPasses` does.
-/

namespace KTorrent

open SocketGroup

/-- `NetworkThread`; the groups in the order of their ids. -/
structure NetworkThread where
  groups : List SocketGroup
  prevRunTime : UInt64

/-- The groups, the allowance and the number of calls after a pass; in `doGroupsLimited` also
the number of sockets that are still ready. -/
structure Stage where
  groups : List SocketGroup
  allowance : UInt32
  calls : ℕ
  stillReady : UInt32

/-- One more group, before those of a stage. -/
def Stage.cons (g : SocketGroup) (ready : UInt32) (s : Stage) : Stage :=
  { s with groups := g :: s.groups, stillReady := ready + s.stillReady }

section
variable (b : Behaviour) (undefined : ℤ → UInt32) (fuel : ℕ) (now : UInt64)

/-- One group of `assuredPass`: what is assured, within the allowance. -/
def assureGroup (calls : ℕ) (allowance : UInt32) (g : SocketGroup) : Except Fault Processed :=
  if g.numSockets > 0 ∧ g.groupAssured > 0 then do
    let as := if g.groupAssured > allowance then allowance else g.groupAssured
    let r ← g.process b fuel calls as
    .ok { r with globalAllowance := allowance - (as - r.globalAllowance) }
  else .ok ⟨false, g, allowance, calls⟩

/-- The first loop of `doGroups` with a limit. -/
def assuredPass : ℕ → UInt32 → List SocketGroup → Except Fault Stage
  | calls, allowance, [] => .ok ⟨[], allowance, calls, 0⟩
  | calls, allowance, g :: groups => do
    let r ← assureGroup b fuel calls allowance (g.calcAllowance undefined now)
    let rest ← assuredPass r.calls r.globalAllowance groups
    .ok (rest.cons r.group 0)

/-- `(Uint32)ceil(((double)g->numSockets() / num_ready) * allowance)`. -/
def ceilShare (numSockets numReady allowance : UInt32) : UInt32 :=
  Binary64.toUint32 undefined
    ⌈Binary64.round (Binary64.round ((numSockets.toNat : ℚ) / numReady.toNat) * allowance.toNat)⌉

/-- `group_allowance`: not more than there is, and not 0, which is no limit. -/
def groupShare (numSockets numReady allowance : UInt32) : UInt32 :=
  let share := ceilShare undefined numSockets numReady allowance
  if share > allowance ∨ share = 0 then allowance else share

/-- One group of `doGroupsLimited`. -/
def shareGroup (numReady : UInt32) (calls : ℕ) (allowance : UInt32) (g : SocketGroup) :
    Except Fault Processed :=
  if g.numSockets > 0 then
    if numReady = 0 then .error .divisionByZero
    else do
      let groupAllowance := groupShare undefined g.numSockets numReady allowance
      let r ← g.process b fuel calls groupAllowance
      let done := groupAllowance - r.globalAllowance
      .ok { r with
        group := if r.again then r.group else r.group.clear
        globalAllowance := if allowance ≥ done then allowance - done else 0 }
  else .ok ⟨false, g, allowance, calls⟩

/-- `doGroupsLimited(num_ready, now, allowance)`. -/
def doGroupsLimited (numReady : UInt32) : ℕ → UInt32 → List SocketGroup → Except Fault Stage
  | calls, allowance, [] => .ok ⟨[], allowance, calls, 0⟩
  | calls, allowance, g :: groups =>
    if allowance > 0 then do
      let r ← shareGroup b undefined fuel numReady calls allowance g
      let rest ← doGroupsLimited numReady r.calls r.globalAllowance groups
      .ok (rest.cons r.group (if r.again then r.group.numSockets else 0))
    else .ok ⟨g :: groups, allowance, calls, 0⟩

/-- The second loop of `doGroups` with a limit; `doGroupsLimited` returns whether anybody is
still ready, which becomes `num_ready`. -/
def limitedPasses : ℕ → UInt32 → Stage → Except Fault Stage
  | 0, _, _ => .error .outOfFuel
  | passes + 1, numReady, s =>
    if s.allowance > 0 ∧ numReady > 0 then do
      let s ← doGroupsLimited b undefined fuel numReady s.calls s.allowance s.groups
      limitedPasses passes (if s.stillReady > 0 then 1 else 0) s
    else .ok s

/-- The first loop of `doGroups` without a limit. -/
def assuredUnlimited : ℕ → List SocketGroup → Except Fault Stage
  | calls, [] => .ok ⟨[], 0, calls, 0⟩
  | calls, g :: groups => do
    let g := g.calcAllowance undefined now
    let r ←
      if g.numSockets > 0 ∧ g.groupAssured > 0 then g.process b fuel calls g.groupAssured
      else .ok ⟨false, g, 0, calls⟩
    let rest ← assuredUnlimited r.calls groups
    .ok (rest.cons r.group 0)

/-- The second loop of `doGroups` without a limit. -/
def restUnlimited : ℕ → UInt32 → List SocketGroup → Except Fault Stage
  | calls, allowance, [] => .ok ⟨[], allowance, calls, 0⟩
  | calls, allowance, g :: groups => do
    let r ←
      if g.numSockets > 0 then do
        let r ← g.process b fuel calls allowance
        .ok { r with group := r.group.clear }
      else .ok ⟨false, g, allowance, calls⟩
    let rest ← restUnlimited r.calls r.globalAllowance groups
    .ok (rest.cons r.group 0)

/-- `doGroups(num_ready, now, limit)`: the groups afterwards. -/
def NetworkThread.doGroups (net : NetworkThread) (numReady limit : UInt32) :
    Except Fault (List SocketGroup) :=
  if limit = 0 then do
    let s ← assuredUnlimited b undefined fuel now 0 net.groups
    let s ← restUnlimited b fuel s.calls 0 s.groups
    .ok s.groups
  else do
    let s ← assuredPass b undefined fuel now 0 (allowanceFor undefined limit now net.prevRunTime)
      net.groups
    let s ← limitedPasses b undefined fuel fuel numReady s
    .ok (s.groups.map clear)

end

end KTorrent
