import KTorrent.Lib.UpperBound

/-!
# The delay window

The model of `utp/delaywindow.cpp`, and of the part of `Connection::updateDelayMeasurement`
that works on time stamps: the answer to the time stamp of the peer, and how far the delay of a
packet is above the smallest one of two minutes.

* `DelayWindow.update` — one sample.
* `DelayMeasurement.update` — `reply_micro` and `our_delay_us`.
-/

namespace KTorrent.Utp

/-- `DELAY_WINDOW_SIZE`, in milliseconds. -/
def delayWindowSize : UInt64 := 2 * 60 * 1000

/-- The two time stamps of a header. -/
structure Timestamps where
  timestampMicroseconds : UInt32
  timestampDifferenceMicroseconds : UInt32
  deriving DecidableEq, Repr

/-- `DelayEntry`. -/
structure DelayEntry where
  timestampDifferenceMicroseconds : UInt32
  receiveTime : UInt64
  deriving DecidableEq, Repr

/-- `DelayWindow`: a circular buffer, with the oldest entry first. -/
structure DelayWindow where
  entries : List DelayEntry
  capacity : ℕ
  deriving DecidableEq, Repr

namespace DelayWindow

/-- A window without a sample. -/
def new : DelayWindow := { entries := [], capacity := 100 }

/-- `push_back` of a circular buffer: when it is full, the front makes room. -/
def pushBack (w : DelayWindow) (e : DelayEntry) : DelayWindow :=
  { w with
    entries :=
      if w.entries.length < w.capacity then w.entries ++ [e] else (w.entries ++ [e]).drop 1 }

/-- `front()`, of a window that is not empty. -/
def front (w : DelayWindow) : UInt32 :=
  match w.entries with
  | [] => 0
  | e :: _ => e.timestampDifferenceMicroseconds

/-- The loop over the front: everything older than two minutes goes. -/
def cleanup (w : DelayWindow) (receiveTime : UInt64) : DelayWindow :=
  { w with
    entries := w.entries.dropWhile fun e => receiveTime - e.receiveTime > delayWindowSize }

/-- The branch that clears the list. -/
def restart (w : DelayWindow) (e : DelayEntry) : DelayWindow :=
  let w := { w with entries := [] }
  (if w.entries.length = w.capacity then { w with capacity := w.capacity + 100 } else w).pushBack e

/-- `std::lower_bound`, as a position. -/
def lowerBound (w : DelayWindow) (diff : UInt32) : ℕ :=
  Search.upperBound
    (fun i => (w.entries[i]?).all fun e => !decide (e.timestampDifferenceMicroseconds < diff))
    0 w.entries.length

/-- The branch that keeps what is below the new sample. -/
def insert (w : DelayWindow) (e : DelayEntry) : DelayWindow :=
  { w with entries := w.entries.take (w.lowerBound e.timestampDifferenceMicroseconds) }.pushBack e

/-- `DelayWindow::update`: the base delay and the window. -/
def update (w : DelayWindow) (hdr : Timestamps) (receiveTime : UInt64) : UInt32 × DelayWindow :=
  let diff := hdr.timestampDifferenceMicroseconds
  let w := w.cleanup receiveTime
  match w.entries with
  | [] => (diff, w.restart ⟨diff, receiveTime⟩)
  | e :: _ =>
    if diff < e.timestampDifferenceMicroseconds then (diff, w.restart ⟨diff, receiveTime⟩)
    else
      let w := w.insert ⟨diff, receiveTime⟩
      (w.front, w)

end DelayWindow

/-- What a connection measures: the window, and `stats.reply_micro`. -/
structure DelayMeasurement where
  delayWindow : DelayWindow
  replyMicro : UInt32
  deriving DecidableEq, Repr

namespace DelayMeasurement

/-- Before the first packet. -/
def new : DelayMeasurement := { delayWindow := DelayWindow.new, replyMicro := 0 }

/-- The time stamps in `Connection::updateDelayMeasurement`, at `tms` microseconds and `now`
milliseconds; with the result comes `our_delay_us`. -/
def update (m : DelayMeasurement) (hdr : Timestamps) (tms : UInt32) (now : UInt64) :
    DelayMeasurement × UInt32 :=
  let replyMicro :=
    if tms > hdr.timestampMicroseconds then tms - hdr.timestampMicroseconds
    else hdr.timestampDifferenceMicroseconds - tms
  let (baseDelay, delayWindow) := m.delayWindow.update hdr now
  ({ delayWindow := delayWindow, replyMicro := replyMicro },
    hdr.timestampDifferenceMicroseconds - baseDelay)

end DelayMeasurement

end KTorrent.Utp
