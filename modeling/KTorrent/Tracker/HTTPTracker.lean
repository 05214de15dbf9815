import KTorrent.Torrent.Load
import KTorrent.Tracker.UDPTracker

/-!
# The reply of a HTTP tracker

The model of `HTTPTracker::updateData` of `tracker/httptracker.cpp`.

* `HTTPTracker` — the fields of a tracker that the function sets.
* `Crash` — what no `catch` stops: a null pointer that is used, a slice outside the data, a counter
  that overflows.
* `readCompact` — the two loops over compact addresses.
* `updateDict` — what is done with the dictionary; `updateData` — the whole function.

The texts and addresses of Qt are parameters, and so is what a number that needs 64 bits leaves in
the 32-bit member of its `Value`, which the constructor does not set.
-/

namespace KTorrent

/-- What the library makes of texts, and what uninitialised members hold. -/
structure ReplyQt where
  /-- `QString::fromUtf8`. -/
  fromUtf8 : List UInt8 → List Char
  /-- `QHostAddress` of a text. -/
  host : List Char → HostAddress
  /-- `ival` of a `Value` with the given `big_ival`. -/
  ival : ℤ → ℤ

/-- `Value::toInt`. -/
def Value.toInt (qt : ReplyQt) : Value → ℤ
  | .string _ => 0
  | .int ival => ival
  | .int64 bigIval => qt.ival bigIval

/-- `Value::toString`. -/
def Value.toString (qt : ReplyQt) : Value → List Char
  | .string strval => qt.fromUtf8 strval
  | _ => qt.fromUtf8 []

/-- A tracker.  A peer comes with the flag that it is local. -/
structure HTTPTracker where
  failures : ℕ
  error : List Char
  warning : List Char
  status : TrackerStatus
  interval : ℕ
  leechers : ℤ
  seeders : ℤ
  peers : List (Address × Bool)
  /-- The texts with which `requestFailed` has been emitted. -/
  requestFailed : List (List Char)

/-- What stops the function without its returning. -/
inductive Crash where
  | nullDereference
  | slicedOutside
  | intOverflow
  | decoder (e : DecodeError)
  deriving DecidableEq, Repr

namespace HTTPTracker

/-- `failures++` and `failed`. -/
def failed (err : List Char) (t : HTTPTracker) : HTTPTracker :=
  { t with
    failures := u32 (t.failures + 1)
    error := err
    status := .error
    requestFailed := t.requestFailed ++ [err] }

/-- One round of a loop over compact addresses, `sliced(i, width)` included. -/
def compactPeer (v : IpVersion) (arr : List UInt8) (k : ℕ) : Except Crash Address :=
  if v.compactWidth * k + v.compactWidth ≤ arr.length then
    match v.fromCompact ((arr.drop (v.compactWidth * k)).take v.compactWidth) with
    | some addr => .ok addr
    | none => .error .slicedOutside
  else .error .slicedOutside

/-- The loop `for (int i = 0; i < arr.size(); i += width)`. -/
def readCompact (v : IpVersion) (arr : List UInt8) : Except Crash (List Address) :=
  (List.range ((arr.length + v.compactWidth - 1) / v.compactWidth)).mapM (compactPeer v arr)

variable (qt : ReplyQt)

/-- One round of the loop over a list of peers. -/
def listedPeer (child : BNode) : Option Address := do
  let dict ← child.asDict
  let ip ← dict.getValue (ascii "ip")
  let port ← dict.getValue (ascii "port")
  return ⟨qt.host (ip.toString qt), UInt16.ofInt (port.toInt qt)⟩

/-- The IPv4 peers, which may be a list or compact. -/
def peersOf (dict : BDictNode) : Except Crash (List Address) :=
  match dict.getList (ascii "peers") with
  | some children => .ok (children.filterMap (listedPeer qt))
  | none =>
    match dict.getValue (ascii "peers") with
    | some (.string arr) => readCompact .v4 arr
    | _ => .ok []

/-- The IPv6 peers. -/
def peers6Of (dict : BDictNode) : Except Crash (List Address) :=
  match dict.getValue (ascii "peers6") with
  | some (.string arr) => readCompact .v6 arr
  | _ => .ok []

/-- A text whose presence is tested with `getData`, and which is fetched with `getValue`. -/
def textOf (dict : BDictNode) (key : List UInt8) : Except Crash (Option (List Char)) :=
  if (dict.getData key).isSome then
    match dict.getValue key with
    | some vn => .ok (some (vn.toString qt))
    | none => .error .nullDereference
  else .ok none

/-- `updateData`, from the dictionary on. -/
def updateDict (dict : BDictNode) (t : HTTPTracker) : Except Crash (Bool × HTTPTracker) := do
  match ← textOf qt dict (ascii "failure reason") with
  | some reason => return (false, t.failed reason)
  | none =>
    let warning ← textOf qt dict (ascii "warning message")
    let t := { t with
      warning := warning.getD []
      interval := match dict.getValue (ascii "interval") with
        | some vn => u32 (toUint64 (vn.toInt qt))
        | none => 5 * 60
      leechers := match dict.getValue (ascii "incomplete") with
        | some vn => vn.toInt qt
        | none => t.leechers
      seeders := match dict.getValue (ascii "complete") with
        | some vn => vn.toInt qt
        | none => t.seeders }
    let peers ← peersOf qt dict
    let peers6 ← peers6Of dict
    return (true, { t with peers := t.peers ++ (peers ++ peers6).map fun addr => (addr, false) })

/-- Where the data have their first `d`, or where they end. -/
def firstDict (data : List UInt8) : ℕ := data.findIdx (· == 100)

/-- `HTTPTracker::updateData`; the counter of the first loop is an `int`. -/
def updateData (data : List UInt8) (fuel : ℕ) (t : HTTPTracker) :
    Except Crash (Bool × HTTPTracker) :=
  if 2 ^ 31 ≤ firstDict data then .error .intOverflow
  else if firstDict data = data.length then
    .ok (false, t.failed "Invalid response from tracker".toList)
  else
    match BDecoder.decodeDict (data.drop (firstDict data)) fuel with
    | .error e =>
      if e.thrown then .ok (false, t.failed "Invalid data from tracker".toList)
      else .error (.decoder e)
    | .ok none => .ok (false, t.failed "Invalid response from tracker".toList)
    | .ok (some dict) => updateDict qt dict t

end HTTPTracker

end KTorrent
