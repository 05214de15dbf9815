import KTorrent.Lib.Binary64

/-!
# `SocketGroup`

`net/socketgroup.cpp`: the sockets of a group that are ready, and what they may move.  What a
socket does is not ours: the n-th call of `read` or `write`, with a bound, moves some number of
bytes.

* `allowanceFor` — the bytes that a rate allows in a time, with the arithmetic of `double`.
* `processUnlimited` — every socket once, without a bound.
* `processLimited` — round and round until the allowance is used or nobody is ready; a loop
  that may not end, and so has fuel.
* `SocketGroup.process` — within the group's own allowance and the one that is handed in.
-/

namespace KTorrent

/-- A pointer to a socket. -/
abbrev TrafficShapedSocket := ℕ

/-- What the n-th call of `read` or `write` for a socket moves; the bound 0 is none. -/
abbrev Behaviour := ℕ → TrafficShapedSocket → UInt32 → UInt32

/-- A bound is kept. -/
def Behaviour.Bounded (b : Behaviour) : Prop := ∀ n s m, m ≠ 0 → b n s m ≤ m

/-- What a computation can end with instead of a result. -/
inductive Fault where
  | divisionByZero
  | outOfFuel
  deriving DecidableEq

/-- `(Uint32)ceil(1.0 * rate * (now - prev) * 0.001)`. -/
def allowanceFor (undefined : ℤ → UInt32) (rate : UInt32) (now prev : UInt64) : UInt32 :=
  Binary64.toUint32 undefined
    ⌈Binary64.round
      (Binary64.round (Binary64.round rate.toNat * Binary64.round (now - prev).toNat) *
        Binary64.round (1 / 1000))⌉

/-- `SocketGroup`; `moved` is an account of the bytes since the allowance was calculated. -/
structure SocketGroup where
  limit : UInt32
  assuredRate : UInt32
  sockets : List (Option TrafficShapedSocket)
  prevRunTime : UInt64
  groupAllowance : UInt32
  groupAssured : UInt32
  moved : ℕ
  deriving DecidableEq

/-! ## The loops over the sockets -/

section
variable (b : Behaviour)

/-- `processUnlimited(up, now)`, with the number of calls so far: the number afterwards and the
bytes. -/
def processUnlimited : ℕ → List (Option TrafficShapedSocket) → ℕ × ℕ
  | calls, [] => (calls, 0)
  | calls, none :: sockets => processUnlimited calls sockets
  | calls, some s :: sockets =>
    let rest := processUnlimited (calls + 1) sockets
    (rest.1, (b calls s 0).toNat + rest.2)

/-- The state of `processLimited`: the sockets before the iterator and those from it on. -/
structure Turn where
  before : List (Option TrafficShapedSocket)
  ahead : List (Option TrafficShapedSocket)
  allowance : UInt32
  calls : ℕ
  moved : ℕ

/-- `sockets`. -/
def Turn.sockets (t : Turn) : List (Option TrafficShapedSocket) := t.before ++ t.ahead

/-- One socket's turn; one that does not do all it may is erased. -/
def Turn.take (bslot : UInt32) (t : Turn) (sockets : List (Option TrafficShapedSocket)) :
    Option TrafficShapedSocket → Turn
  | none => { t with ahead := sockets }
  | some s =>
    let as := if bslot > t.allowance then t.allowance else bslot
    let ret := b t.calls s as
    { before := if ret ≠ as then t.before else t.before ++ [some s]
      ahead := sockets
      allowance := if ret > t.allowance then 0 else t.allowance - ret
      calls := t.calls + 1
      moved := t.moved + ret.toNat }

/-- The iterator wraps around. -/
def Turn.wrapAround (t : Turn) : Turn :=
  if t.ahead = [] then { t with before := [], ahead := t.before } else t

/-- The loop of `processLimited`. -/
def Turn.run (bslot : UInt32) : ℕ → Turn → Except Fault Turn
  | 0, _ => .error .outOfFuel
  | fuel + 1, t =>
    match t.ahead with
    | [] => .ok t
    | s :: sockets =>
      if t.allowance > 0 then Turn.run bslot fuel (t.take b bslot sockets s).wrapAround else .ok t

/-- `processLimited(up, now, allowance)`. -/
def processLimited (fuel calls : ℕ) (sockets : List (Option TrafficShapedSocket))
    (allowance : UInt32) : Except Fault Turn :=
  if sockets.length = 0 then .error .divisionByZero
  else
    Turn.run b (UInt32.ofNat (allowance.toNat / sockets.length + 1)) fuel
      ⟨[], sockets, allowance, calls, 0⟩

end

/-! ## The group -/

/-- What `process` gives: whether the group can go on, and `globalAllowance` afterwards. -/
structure Processed where
  again : Bool
  group : SocketGroup
  globalAllowance : UInt32
  calls : ℕ

namespace SocketGroup

/-- `clear()`. -/
def clear (g : SocketGroup) : SocketGroup := { g with sockets := [] }

/-- `numSockets()`. -/
def numSockets (g : SocketGroup) : UInt32 := UInt32.ofNat g.sockets.length

/-- `calcAllowance(now)`. -/
def calcAllowance (undefined : ℤ → UInt32) (now : UInt64) (g : SocketGroup) : SocketGroup :=
  { g with
    groupAllowance := if g.limit > 0 then allowanceFor undefined g.limit now g.prevRunTime else 0
    groupAssured :=
      if g.assuredRate > 0 then allowanceFor undefined g.assuredRate now g.prevRunTime else 0
    prevRunTime := now
    moved := 0 }

/-- After `processLimited`. -/
def after (g : SocketGroup) (t : Turn) : SocketGroup :=
  { g with sockets := t.sockets, moved := g.moved + t.moved }

/-- What is left when `done` is subtracted. -/
def leftOf (allowance done : UInt32) : UInt32 := if allowance < done then 0 else allowance - done

/-- The branches of `process` for a group with a limit: the smaller of the two allowances is
used, and subtracted from both. -/
def processOwn (b : Behaviour) (fuel calls : ℕ) (g : SocketGroup) (globalAllowance : UInt32) :
    Except Fault Processed :=
  if globalAllowance = 0 then do
    let t ← processLimited b fuel calls g.sockets g.groupAllowance
    .ok ⟨t.sockets.length > 0, { g.after t with groupAllowance := t.allowance },
      globalAllowance, t.calls⟩
  else if globalAllowance ≤ g.groupAllowance then do
    let t ← processLimited b fuel calls g.sockets globalAllowance
    let done := globalAllowance - t.allowance
    .ok ⟨t.sockets.length > 0, { g.after t with groupAllowance := leftOf g.groupAllowance done },
      t.allowance, t.calls⟩
  else do
    let t ← processLimited b fuel calls g.sockets g.groupAllowance
    let done := g.groupAllowance - t.allowance
    .ok ⟨t.sockets.length > 0, { g.after t with groupAllowance := t.allowance },
      leftOf globalAllowance done, t.calls⟩

/-- A group whose allowance is used up can do nothing more. -/
def Processed.checked (r : Processed) : Processed :=
  if r.group.groupAllowance = 0 then { r with again := false, group := r.group.clear } else r

/-- `process(up, now, globalAllowance)`. -/
def process (b : Behaviour) (fuel calls : ℕ) (g : SocketGroup) (globalAllowance : UInt32) :
    Except Fault Processed :=
  if g.limit > 0 then
    if g.groupAllowance = 0 then .ok ⟨false, g.clear, globalAllowance, calls⟩
    else do
      let r ← g.processOwn b fuel calls globalAllowance
      .ok (Processed.checked r)
  else if globalAllowance > 0 then do
    let t ← processLimited b fuel calls g.sockets globalAllowance
    .ok ⟨t.sockets.length > 0, g.after t, t.allowance, t.calls⟩
  else
    let (calls, moved) := processUnlimited b calls g.sockets
    .ok ⟨false, { g with moved := g.moved + moved }, globalAllowance, calls⟩

end SocketGroup

end KTorrent
