import KTorrent.Lib.OrderedSet
import KTorrent.Lib.Run

/-!
# `TrackerManager`

`tracker/trackermanager.cpp`: the trackers of a torrent, in the order of their urls, and the one
that a private torrent uses.  A tracker object has an identity, since another one may be made for
the same url later.  What the manager asks of its trackers is appended to `calls`; what it reads
from them (`failureCount`, `isStarted`) is an input.

`step` is `none` where `onTrackerError` dereferences the null pointer.
-/

namespace KTorrent

/-- What a manager asks of a tracker. -/
inductive TrackerCall where
  | start
  | stop
  | reset
  | completed
  | manualUpdate
  | handleFailure
  | scrape
  | timedDelete
  deriving DecidableEq, Repr

/-- The calls after which a tracker sends an announce that is no `stopped`. -/
def TrackerCall.announces : TrackerCall → Bool
  | .start | .completed | .manualUpdate => true
  | .stop | .reset | .handleFailure | .scrape | .timedDelete => false

/-- A tracker. -/
structure TrackerEntry (Url : Type) where
  id : ℕ
  url : Url
  tier : ℤ
  enabled : Bool
  deriving DecidableEq, Repr

/-- What the manager reads from the trackers. -/
structure TrackerFacts where
  failureCount : ℕ → ℕ
  isStarted : ℕ → Bool

/-- `TrackerManager`. -/
structure TrackerManager (Url : Type) where
  privTorrent : Bool
  trackers : List (TrackerEntry Url)
  curr : Option ℕ
  customTrackers : List Url
  started : Bool
  /-- The identity of the next tracker. -/
  nextId : ℕ
  calls : List (ℕ × TrackerCall)
  deriving DecidableEq, Repr

namespace TrackerManager

variable {Url : Type} [LinearOrder Url] (scheme : Url → String) (facts : TrackerFacts)

/-- A manager without trackers. -/
def empty (privTorrent : Bool) : TrackerManager Url :=
  { privTorrent := privTorrent, trackers := [], curr := none, customTrackers := [],
    started := false, nextId := 0, calls := [] }

/-! ## Trackers -/

/-- `trackers.find`. -/
def find (m : TrackerManager Url) (url : Url) : Option (TrackerEntry Url) :=
  m.trackers.find? fun t => t.url = url

/-- `trackers.erase`. -/
def erase (m : TrackerManager Url) (url : Url) : TrackerManager Url :=
  { m with trackers := m.trackers.filter fun t => t.url ≠ url }

/-- A call of one tracker. -/
def ask (m : TrackerManager Url) (id : ℕ) (call : TrackerCall) : TrackerManager Url :=
  { m with calls := m.calls ++ [(id, call)] }

/-- A call of the current tracker, if there is one. -/
def askCurr (m : TrackerManager Url) (call : TrackerCall) : TrackerManager Url :=
  match m.curr with
  | none => m
  | some id => m.ask id call

/-- The loops over the trackers. -/
def askAll (m : TrackerManager Url) (ts : List (TrackerEntry Url)) (cs : List TrackerCall) :
    TrackerManager Url :=
  { m with calls := m.calls ++ ts.flatMap fun t => cs.map fun c => (t.id, c) }

/-- The body of the loop of `selectTracker`. -/
def better (n : Option (TrackerEntry Url)) (t : TrackerEntry Url) : Option (TrackerEntry Url) :=
  if t.enabled then
    match n with
    | none => some t
    | some n =>
      if facts.failureCount t.id < facts.failureCount n.id then some t
      else if facts.failureCount t.id = facts.failureCount n.id then
        if t.tier < n.tier then some t else some n
      else some n
  else n

/-- `TrackerManager::selectTracker`. -/
def selectTracker (m : TrackerManager Url) : Option (TrackerEntry Url) :=
  m.trackers.foldl (better facts) none

/-- `TrackerManager::switchTracker`. -/
def switchTracker (m : TrackerManager Url) (trk : Option (TrackerEntry Url)) : TrackerManager Url :=
  { m with curr := trk.map TrackerEntry.id }

/-! ## The operations -/

/-- `TrackerManager::setCurrentTracker`. -/
def setCurrentTracker (m : TrackerManager Url) (url : Url) : TrackerManager Url :=
  match m.find url with
  | none => m
  | some trk =>
    if !m.privTorrent then m
    else if m.curr ≠ some trk.id then
      ((m.askCurr .stop).switchTracker (some trk)).ask trk.id .start
    else m

/-- `TrackerManager::addTracker`. -/
def addTracker (m : TrackerManager Url) (url : Url) (custom : Bool) (tier : ℤ) :
    TrackerManager Url :=
  if (m.find url).isSome then m
  else if scheme url = "udp" ∨ scheme url = "http" ∨ scheme url = "https" then
    { m with
      trackers := OrderedSet.insert TrackerEntry.url
        { id := m.nextId, url := url, tier := tier, enabled := true } m.trackers
      nextId := m.nextId + 1
      customTrackers := if custom then m.customTrackers ++ [url] else m.customTrackers }
  else m

/-- `TrackerManager::removeTracker`. -/
def removeTracker (m : TrackerManager Url) (url : Url) : TrackerManager Url :=
  if url ∉ m.customTrackers then m
  else
    let m := { m with customTrackers := m.customTrackers.filter fun u => u ≠ url }
    match m.find url with
    | none => m.erase url
    | some trk =>
      if m.curr = some trk.id ∧ m.privTorrent then
        let m := ((m.ask trk.id .stop).ask trk.id .timedDelete).erase url
        if m.trackers.length > 0 then (m.switchTracker (m.selectTracker facts)).askCurr .start
        else m
      else m.erase url

/-- The loop of `restoreDefault`. -/
def restoreOne (m : TrackerManager Url) (url : Url) : TrackerManager Url :=
  match m.find url with
  | none => m
  | some t =>
    let m := if facts.isStarted t.id then m.ask t.id .stop else m
    let m := if m.curr = some t.id ∧ m.privTorrent then { m with curr := none } else m
    m.erase url

/-- `TrackerManager::restoreDefault`. -/
def restoreDefault (m : TrackerManager Url) : TrackerManager Url :=
  let m := { m.customTrackers.foldl (restoreOne facts) m with customTrackers := [] }
  if m.privTorrent ∧ m.curr = none then m.switchTracker (m.selectTracker facts) else m

/-- `TrackerManager::start`. -/
def start (m : TrackerManager Url) : TrackerManager Url :=
  if m.started then m
  else
    let m :=
      if m.privTorrent then
        if m.curr = none then
          if m.trackers.length > 0 then (m.switchTracker (m.selectTracker facts)).askCurr .start
          else m
        else m.askCurr .start
      else m.askAll (m.trackers.filter TrackerEntry.enabled) [.start]
    { m with started := true }

/-- `TrackerManager::stop`. -/
def stop (m : TrackerManager Url) : TrackerManager Url :=
  if !m.started then m
  else
    let m := { m with started := false }
    if m.privTorrent then (m.askCurr .stop).askAll m.trackers [.reset]
    else m.askAll m.trackers [.stop, .reset]

/-- `TrackerManager::completed`. -/
def completed (m : TrackerManager Url) : TrackerManager Url :=
  if m.privTorrent then m.askCurr .completed else m.askAll m.trackers [.completed]

/-- `TrackerManager::manualUpdate`. -/
def manualUpdate (m : TrackerManager Url) : TrackerManager Url :=
  if m.privTorrent then m.askCurr .manualUpdate
  else m.askAll (m.trackers.filter TrackerEntry.enabled) [.manualUpdate]

/-- `Tracker::setEnabled`. -/
def setEnabled (m : TrackerManager Url) (url : Url) (enabled : Bool) : TrackerManager Url :=
  { m with
    trackers := m.trackers.map fun t => if t.url = url then { t with enabled := enabled } else t }

/-- `TrackerManager::setTrackerEnabled`. -/
def setTrackerEnabled (m : TrackerManager Url) (url : Url) (enabled : Bool) : TrackerManager Url :=
  match m.find url with
  | none => m
  | some trk =>
    let m := m.setEnabled url enabled
    if !enabled then
      let m := m.ask trk.id .stop
      if m.curr = some trk.id then (m.switchTracker (m.selectTracker facts)).askCurr .start else m
    else if !m.privTorrent ∧ m.started then m.ask trk.id .start
    else m

/-! ## The slots -/

/-- `TrackerManager::onTrackerError`, from the tracker `sender`. -/
def onTrackerError (m : TrackerManager Url) (sender : ℕ) : Option (TrackerManager Url) :=
  if !m.started then some m
  else if !m.privTorrent then some (m.ask sender .handleFailure)
  else if m.curr = some sender then
    let trk := m.selectTracker facts
    if trk.map TrackerEntry.id = m.curr then some (m.ask sender .handleFailure)
    else
      match trk with
      -- `curr` is null by now
      | none => none
      | some trk =>
        let m := (m.ask sender .stop).switchTracker (some trk)
        if facts.failureCount trk.id > 0 then some (m.ask trk.id .handleFailure)
        else some (m.ask trk.id .start)
  else some (m.ask sender .handleFailure)

/-- `TrackerManager::onTrackerOK`. -/
def onTrackerOK (m : TrackerManager Url) (sender : ℕ) : TrackerManager Url :=
  if facts.isStarted sender then m.ask sender .scrape else m

/-! ## Runs -/

/-- `TrackerManager::TrackerManager`: the urls of the torrent with their tiers, the custom urls, and
the urls of the trackers that are disabled. -/
def load (privTorrent : Bool) (standard : List (Url × ℤ)) (custom disabled : List Url) :
    TrackerManager Url :=
  let m := standard.foldl (fun m u => addTracker scheme m u.1 false u.2) (empty privTorrent)
  let m := custom.foldl (fun m url => addTracker scheme m url true 1) m
  let m := disabled.foldl (fun m url => m.setEnabled url false) m
  if m.privTorrent then m.switchTracker (m.selectTracker facts) else m

/-- What can happen to a manager. -/
inductive Event (Url : Type) where
  | addTracker (url : Url) (custom : Bool) (tier : ℤ)
  | removeTracker (url : Url)
  | restoreDefault
  | setCurrentTracker (url : Url)
  | setTrackerEnabled (url : Url) (enabled : Bool)
  | start
  | stop
  | completed
  | manualUpdate
  | trackerError (sender : ℕ)
  | trackerOK (sender : ℕ)

/-- One event, with what the trackers say then. -/
def step : Option (TrackerManager Url) → TrackerFacts × Event Url → Option (TrackerManager Url)
  | none, _ => none
  | some m, (_, .addTracker url custom tier) => some (addTracker scheme m url custom tier)
  | some m, (facts, .removeTracker url) => some (m.removeTracker facts url)
  | some m, (facts, .restoreDefault) => some (m.restoreDefault facts)
  | some m, (_, .setCurrentTracker url) => some (m.setCurrentTracker url)
  | some m, (facts, .setTrackerEnabled url enabled) => some (m.setTrackerEnabled facts url enabled)
  | some m, (facts, .start) => some (m.start facts)
  | some m, (_, .stop) => some m.stop
  | some m, (_, .completed) => some m.completed
  | some m, (_, .manualUpdate) => some m.manualUpdate
  | some m, (facts, .trackerError sender) => m.onTrackerError facts sender
  | some m, (facts, .trackerOK sender) => some (m.onTrackerOK facts sender)

end TrackerManager

end KTorrent
