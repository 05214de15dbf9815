import KTorrent.Download.Packet
import KTorrent.Lib.Run

/-!
# The stream socket

The model of `StreamSocket`, a buffer in front of a socket.  A write is cut by
the speed limit and then by the device, and it takes a write that the device
accepts in full for one that has emptied the buffer.

* `addData`, `bytesReadyToWrite`, `write` — as the source computes them.
* `Intact` — the bytes that were added are those the device has got and then those
  in the buffer.
* `allStates_intact_iff` — that is so along exactly the runs in which every write
  is `Whole`: it offers all of the buffer, or the device does not accept all that is
  offered.
* `limited_write_loses` — otherwise the rest of the buffer is lost.
-/

namespace KTorrent

/-- `StreamSocket`. -/
structure StreamSocket where
  /-- `sock->state() == CONNECTING`. -/
  connecting : Bool
  buffer : List UInt8
  /-- A view of negative size was made, which is not defined. -/
  broken : Bool
  /-- History: the bytes that were added, noted by `step`. -/
  added : List UInt8
  /-- History: the bytes the device accepted. -/
  wire : List UInt8

/-- What the listener is told. -/
inductive StreamNotification where
  | connectFinished (succeeded : Bool)
  | dataSent
  deriving DecidableEq

/-- What the socket and the listener do during a write. -/
structure WriteAnswer where
  /-- `sock->connectSuccessful()`. -/
  connected : Bool
  /-- What the listener adds when it is told about the connection. -/
  reply : List UInt8
  /-- The room the device has. -/
  room : ℕ

namespace StreamSocket

/-- The conversion to an `int`. -/
def toInt (n : ℕ) : ℤ := Int.bmod n (2 ^ 32)

/-- `to_send`, for a buffer of `size` bytes. -/
def toSend (size : ℕ) (max : UInt32) : ℤ :=
  if max = 0 then toInt size else min (toInt size) (toInt max.toNat)

/-- A stream socket, with a connection or without one yet. -/
def new (connecting : Bool) : StreamSocket :=
  { connecting := connecting, buffer := [], broken := false, added := [], wire := [] }

/-- `StreamSocket::addData`. -/
def addData (s : StreamSocket) (data : List UInt8) : StreamSocket :=
  { s with buffer := s.buffer ++ data }

/-- `StreamSocket::bytesReadyToWrite`. -/
def bytesReadyToWrite (s : StreamSocket) : Bool := !s.buffer.isEmpty || s.connecting

/-- `StreamSocket::write` with a connection: the new state, the result and the notifications. -/
def writeBuffer (s : StreamSocket) (max : UInt32) (room : ℕ) :
    StreamSocket × ℕ × List StreamNotification :=
  if s.buffer.isEmpty then (s, 0, [])
  else
    let offered := toSend s.buffer.length max
    if offered < 0 then ({ s with broken := true }, 0, [])
    else
      let ret := deviceAccepts room offered.toNat
      let s := { s with wire := s.wire ++ s.buffer.take ret }
      if ret = offered.toNat then ({ s with buffer := [] }, ret, [.dataSent])
      else if ret > 0 then ({ s with buffer := s.buffer.drop ret }, ret, [])
      else (s, 0, [])

/-- The connection is finished, as the socket says, and the listener is told. -/
def finishConnect (s : StreamSocket) (answer : WriteAnswer) : StreamSocket :=
  { s with connecting := !answer.connected }.addData answer.reply

/-- `StreamSocket::write`. -/
def write (s : StreamSocket) (max : UInt32) (answer : WriteAnswer) :
    StreamSocket × ℕ × List StreamNotification :=
  if s.connecting then
    let s := s.finishConnect answer
    if answer.connected then
      let (s, ret, notes) := s.writeBuffer max answer.room
      (s, ret, .connectFinished true :: notes)
    else (s, 0, [.connectFinished false])
  else s.writeBuffer max answer.room

/-! ## Runs -/

/-- What happens to a stream socket. -/
inductive Event where
  | addData (data : List UInt8)
  | write (max : UInt32) (answer : WriteAnswer)

/-- The socket does what the event asks for. -/
def handle (s : StreamSocket) : Event → StreamSocket
  | .addData data => s.addData data
  | .write max answer => (s.write max answer).1

/-- What is added with an event: the listener adds when it is told about the connection. -/
def Event.data (s : StreamSocket) : Event → List UInt8
  | .addData data => data
  | .write _ answer => if s.connecting then answer.reply else []

/-- The history goes on. -/
def record (s : StreamSocket) (data : List UInt8) : StreamSocket :=
  { s with added := s.added ++ data }

/-- One event. -/
def step (s : StreamSocket) (e : Event) : StreamSocket := (s.handle e).record (e.data s)

/-- Nothing is lost: the device has got a prefix of what was added, and the rest is in the
buffer. -/
structure Intact (s : StreamSocket) : Prop where
  defined : s.broken = false
  stream : s.wire ++ s.buffer = s.added
  ready : s.connecting = false → (s.bytesReadyToWrite = true ↔ s.wire ≠ s.added)

/-- A write that leads to `s'` hands over what it returns, within the limit, and tells the listener
that all is sent only when it is. -/
structure HandedOver (s s' : StreamSocket) (result : ℕ × List StreamNotification)
    (max : UInt32) : Prop where
  length : s'.wire.length = s.wire.length + result.1
  limit : max ≠ 0 → result.1 ≤ max.toNat
  dataSent : .dataSent ∈ result.2 → s'.wire = s'.added

/-- Every write does. -/
def Reported (s : StreamSocket) : Event → Prop
  | .addData _ => True
  | .write max answer =>
    HandedOver s (s.step (.write max answer)) (s.write max answer).2 max

/-- A write of `size` bytes that loses none: it offers all of them, or the device does not accept
all that is offered. -/
def WholeWrite (size : ℕ) (max : UInt32) (room : ℕ) : Prop :=
  size = 0 ∨ 0 ≤ toSend size max ∧ (toSend size max = size ∨ (room : ℤ) < toSend size max)

/-- An event that loses nothing. -/
def Whole (s : StreamSocket) : Event → Prop
  | .addData _ => True
  | .write max answer =>
    if s.connecting then
      answer.connected = true →
        WholeWrite (s.buffer.length + answer.reply.length) max answer.room
    else WholeWrite s.buffer.length max answer.room

/-! ## What is offered -/

variable {s : StreamSocket} {max : UInt32} {room n : ℕ}

theorem toInt_le (n : ℕ) : toInt n ≤ n ∧ toInt n < 2 ^ 31 := by
  unfold toInt Int.bmod
  dsimp only
  split
  · omega
  · omega

theorem toInt_of_lt (h : n < 2 ^ 31) : toInt n = n := by
  unfold toInt Int.bmod
  dsimp only
  split
  · omega
  · omega

theorem toSend_le (size : ℕ) (max : UInt32) : toSend size max ≤ size ∧ toSend size max < 2 ^ 31 := by
  have hsize := toInt_le size
  have hmax := toInt_le max.toNat
  unfold toSend
  split
  · exact hsize
  · exact ⟨(min_le_left _ _).trans hsize.1, lt_of_le_of_lt (min_le_left _ _) hsize.2⟩

/-- The limit is kept. -/
theorem toSend_le_max (size : ℕ) (h : max ≠ 0) : toSend size max ≤ max.toNat := by
  unfold toSend
  rw [if_neg h]
  exact (min_le_right _ _).trans (toInt_le _).1

/-- The device accepts all that is offered, or as much as it has room for. -/
theorem deviceAccepts_toSend (size : ℕ) (max : UInt32) (room : ℕ) :
    deviceAccepts room (toSend size max).toNat = min room (toSend size max).toNat := by
  have hlt := (toSend_le size max).2
  unfold deviceAccepts
  omega

/-- For buffers and limits that fit an `int`, a write loses nothing when there is no limit, when the
buffer is within the limit, or when the device does not accept as much as the limit. -/
theorem wholeWrite_iff {size : ℕ} (hsize : size < 2 ^ 31) (hmax : max.toNat < 2 ^ 31) :
    WholeWrite size max room ↔ size = 0 ∨ max = 0 ∨ size ≤ max.toNat ∨ room < max.toNat := by
  have hzero : max = 0 ↔ max.toNat = 0 := UInt32.toNat_inj.symm
  unfold WholeWrite toSend
  rw [toInt_of_lt hsize, toInt_of_lt hmax]
  simp only [hzero]
  split
  · omega
  · omega

/-! ## One write -/

@[simp] theorem record_nil (s : StreamSocket) : s.record [] = s := by
  rw [record, List.append_nil]

/-- A write does not look at the history. -/
theorem writeBuffer_record (s : StreamSocket) (data : List UInt8) (max : UInt32) (room : ℕ) :
    (s.record data).writeBuffer max room =
      ((s.writeBuffer max room).1.record data, (s.writeBuffer max room).2) := by
  by_cases hempty : s.buffer = []
  · simp [writeBuffer, record, hempty]
  by_cases hneg : toSend s.buffer.length max < 0
  · simp [writeBuffer, record, hempty, hneg]
  by_cases hall : deviceAccepts room (toSend s.buffer.length max).toNat =
      (toSend s.buffer.length max).toNat
  · simp [writeBuffer, record, hempty, hneg, hall]
  by_cases hpos : deviceAccepts room (toSend s.buffer.length max).toNat > 0
  · simp [writeBuffer, record, hempty, hneg, hall, hpos]
  · simp [writeBuffer, record, hempty, hneg, hall, hpos]

/-- The bytes that were added are those that were accepted and those in the buffer. -/
theorem intact_iff : s.Intact ↔ s.broken = false ∧ s.wire ++ s.buffer = s.added := by
  constructor
  · intro h
    exact ⟨h.defined, h.stream⟩
  · rintro ⟨hdefined, hstream⟩
    refine ⟨hdefined, hstream, fun hconn => ?_⟩
    unfold bytesReadyToWrite
    rw [hconn, Bool.or_false, ← hstream]
    simp

/-- **A write with a connection** keeps the stream exactly when it is whole. -/
theorem intact_writeBuffer (h : s.Intact) (max : UInt32) (room : ℕ) :
    (s.writeBuffer max room).1.Intact ↔ WholeWrite s.buffer.length max room := by
  have hle := (toSend_le s.buffer.length max).1
  unfold writeBuffer WholeWrite
  simp only [deviceAccepts_toSend, List.isEmpty_iff]
  by_cases hempty : s.buffer = []
  · rw [if_pos hempty, hempty]
    exact iff_of_true h (.inl rfl)
  have hlength : s.buffer.length ≠ 0 := by simpa using hempty
  rw [if_neg hempty]
  by_cases hneg : toSend s.buffer.length max < 0
  · rw [if_pos hneg]
    refine iff_of_false (fun hi => ?_) (by omega)
    exact Bool.noConfusion hi.defined
  rw [if_neg hneg]
  by_cases hall : min room (toSend s.buffer.length max).toNat = (toSend s.buffer.length max).toNat
  · -- the buffer is cleared, so it must have been offered as a whole
    rw [if_pos hall, intact_iff]
    dsimp only
    rw [List.append_nil, hall, ← h.stream, List.append_cancel_left_eq, List.take_eq_self_iff]
    simp only [h.defined, true_and]
    omega
  · rw [if_neg hall]
    have hwhole : s.buffer.length = 0 ∨ 0 ≤ toSend s.buffer.length max ∧
        (toSend s.buffer.length max = s.buffer.length ∨
          (room : ℤ) < toSend s.buffer.length max) := by omega
    refine iff_of_true ?_ hwhole
    split
    · rw [intact_iff]
      refine ⟨h.defined, ?_⟩
      dsimp only
      rw [List.append_assoc, List.take_append_drop, h.stream]
    · rename_i hpos
      rw [intact_iff]
      refine ⟨h.defined, ?_⟩
      dsimp only
      rw [Nat.eq_zero_of_not_pos hpos, List.take_zero, List.append_nil, h.stream]

/-- What a write with a connection hands over and reports. -/
theorem reported_writeBuffer (h : s.Intact) (hwhole : WholeWrite s.buffer.length max room) :
    HandedOver s (s.writeBuffer max room).1 (s.writeBuffer max room).2 max := by
  have hle := (toSend_le s.buffer.length max).1
  have hintact := (intact_writeBuffer h max room).mpr hwhole
  unfold writeBuffer at hintact ⊢
  simp only [deviceAccepts_toSend] at hintact ⊢
  split
  · exact ⟨rfl, fun _ => Nat.zero_le _, fun hmem => by simp at hmem⟩
  rename_i hempty
  rw [if_neg hempty] at hintact
  split
  · exact ⟨rfl, fun _ => Nat.zero_le _, fun hmem => by simp at hmem⟩
  rename_i hneg
  rw [if_neg hneg] at hintact
  have hlength : (s.wire ++ s.buffer.take (min room (toSend s.buffer.length max).toNat)).length =
      s.wire.length + min room (toSend s.buffer.length max).toNat := by
    rw [List.length_append, List.length_take]
    omega
  have hlimit : max ≠ 0 → min room (toSend s.buffer.length max).toNat ≤ max.toNat := by
    intro hmax
    have hbound := toSend_le_max s.buffer.length hmax
    omega
  split
  · rename_i hall
    rw [if_pos hall] at hintact
    have hstream := hintact.stream
    rw [List.append_nil] at hstream
    exact ⟨hlength, hlimit, fun _ => hstream⟩
  · split
    · exact ⟨hlength, hlimit, fun hmem => by simp at hmem⟩
    · rename_i hpos
      rw [Nat.eq_zero_of_not_pos hpos]
      refine ⟨?_, fun _ => Nat.zero_le _, fun hmem => by simp at hmem⟩
      rw [List.take_zero, List.append_nil, Nat.add_zero]

/-- The connection adds what the listener adds. -/
theorem intact_finishConnect (h : s.Intact) (answer : WriteAnswer) :
    ((s.finishConnect answer).record answer.reply).Intact := by
  rw [intact_iff]
  refine ⟨h.defined, ?_⟩
  change s.wire ++ (s.buffer ++ answer.reply) = s.added ++ answer.reply
  rw [← List.append_assoc, h.stream]

theorem intact_step (h : s.Intact) (e : Event) : (s.step e).Intact ↔ s.Whole e := by
  cases e with
  | addData data =>
    refine iff_of_true ?_ trivial
    rw [intact_iff]
    refine ⟨h.defined, ?_⟩
    change s.wire ++ (s.buffer ++ data) = s.added ++ data
    rw [← List.append_assoc, h.stream]
  | write max answer =>
    unfold step handle write Event.data Whole
    dsimp only
    split
    · have hconnect := intact_finishConnect h answer
      split
      · rename_i hconn
        have hwrite := intact_writeBuffer hconnect max answer.room
        rw [writeBuffer_record, show ((s.finishConnect answer).record answer.reply).buffer.length =
          s.buffer.length + answer.reply.length from List.length_append] at hwrite
        exact hwrite.trans ⟨fun hw _ => hw, fun hw => hw hconn⟩
      · rename_i hconn
        exact iff_of_true hconnect fun hc => absurd hc hconn
    · rw [record_nil]
      exact intact_writeBuffer h max answer.room

theorem reported_step (h : s.Intact) (e : Event) (hwhole : s.Whole e) : s.Reported e := by
  cases e with
  | addData data => trivial
  | write max answer =>
    unfold Whole at hwhole
    unfold Reported step handle write Event.data
    dsimp only at hwhole ⊢
    split
    · rename_i hconnecting
      rw [if_pos hconnecting] at hwhole
      have hconnect := intact_finishConnect h answer
      split
      · rename_i hconn
        have hwhole' := hwhole hconn
        rw [← show ((s.finishConnect answer).record answer.reply).buffer.length =
          s.buffer.length + answer.reply.length from List.length_append] at hwhole'
        have hwrite := reported_writeBuffer hconnect hwhole'
        rw [writeBuffer_record] at hwrite
        exact ⟨hwrite.length, hwrite.limit, fun hmem => hwrite.dataSent (by simpa using hmem)⟩
      · refine ⟨rfl, fun _ => Nat.zero_le _, fun hmem => ?_⟩
        simp at hmem
    · rename_i hconnecting
      rw [if_neg hconnecting] at hwhole
      rw [record_nil]
      exact reported_writeBuffer h hwhole

/-! ## Whole runs -/

open Runs

theorem intact_new (connecting : Bool) : (new connecting).Intact :=
  intact_iff.mpr ⟨rfl, rfl⟩

/-- **The stream of a stream socket.**  Along a run nothing is lost, every write keeps its limit and
`dataSent` is told only when all is sent, exactly when every write is whole. -/
theorem allStates_intact_iff (connecting : Bool) (events : List Event) :
    AllStates step Intact (new connecting) events ∧ AllSteps step Reported (new connecting) events ↔
      AllSteps step Whole (new connecting) events := by
  have hkeep : ∀ (s : StreamSocket) (e : Event), s.Intact → s.Whole e → (s.step e).Intact :=
    fun _ e h => (intact_step h e).mpr
  have hbreak : ∀ (s : StreamSocket) (e : Event), s.Intact → ¬ s.Whole e → ¬ (s.step e).Intact :=
    fun _ e h hw hi => hw ((intact_step h e).mp hi)
  have hiff := allStates_iff_allSteps (fun _ h => h) hkeep hbreak events _ (intact_new connecting)
  constructor
  · rintro ⟨hall, -⟩
    exact hiff.mp hall
  · intro hwhole
    exact ⟨hiff.mpr hwhole, allSteps_of_invariant hkeep (fun _ e h => reported_step h e) events _
      (intact_new connecting) hwhole⟩

/-- **Two bytes and a limit of one.**  The device accepts the first byte, and the second is gone,
while `dataSent` is told. -/
theorem limited_write_loses :
    let s := run step (new false) [.addData [1, 2]]
    let (s', ret, notes) := s.write 1 { connected := true, reply := [], room := 5 }
    ret = 1 ∧ s'.wire = [1] ∧ s'.buffer = [] ∧ s'.added = [1, 2] ∧
      s'.bytesReadyToWrite = false ∧ .dataSent ∈ notes := by
  decide

end StreamSocket

end KTorrent
