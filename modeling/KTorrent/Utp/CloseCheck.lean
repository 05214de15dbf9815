import KTorrent.Utp.ConnectionSteps

/-!
# When a finished connection closes

A connection that has received the `ST_FIN` and everything before it waits for
`checkIfClosed`.  The comment there asks for a receive window that "has been
fully read"; the code asks for an empty vector, and the vector keeps up to 20
packets that have been read.

* `AllReceived` — everything has arrived, been read and been acknowledged.
* `closes_iff` — when the next call closes the connection.
* `finTest_stays_open` — one packet that has been read keeps it open.
-/

namespace KTorrent
namespace Utp

/-- Everything before the `ST_FIN` with number `f` has been received and read, and no
packet of ours is in flight. -/
structure AllReceived (c : Connection) (f : UInt16) : Prop where
  state : c.state = .finished
  eof : c.eofSeqNr = some f
  last : c.localWnd.lastSeqNr = f - 1
  acked : c.remoteWnd.allPacketsAcked = true
  read : c.localWnd.bytesAvailable = 0

/-- A call of `recv` moves the connection to `CLOSED`. -/
def ClosesOnRecv (c : Connection) (maxLen : ℕ) : Prop :=
  ∃ r c', c.recv maxLen = some (r, c') ∧ c'.state = .closed

/-- A packet moves the connection to `CLOSED`. -/
def ClosesOnPacket (c : Connection) (k : Clock) (p : Packet) : Prop :=
  ∃ c', c.handlePacket k p = some c' ∧ c'.state = .closed

/-! ## The send window -/

namespace RemoteWindow

variable {w : RemoteWindow} {l : Link} {hdr : Header} {sack : Option SelectiveAck}

theorem allPacketsAcked_iff : w.allPacketsAcked = true ↔ w.unackedPackets = [] := List.isEmpty_iff

/-- A packet does not fill an empty window. -/
theorem packetReceived_nil (h : w.unackedPackets = []) :
    (w.packetReceived l hdr sack).1.unackedPackets = [] := by
  simp only [packetReceived, checkLostPackets, h, removeAcked]

end RemoteWindow

namespace Connection

variable {c : Connection} {k : Clock} {p : Packet}

theorem retransmit_remoteWnd (packets : List UnackedPacket) :
    ∀ c : Connection, (c.retransmit packets).remoteWnd = c.remoteWnd := by
  induction packets with
  | nil => exact fun c => rfl
  | cons p ps ih => exact fun c => ih _

theorem retransmit_outputBuffer (packets : List UnackedPacket) :
    ∀ c : Connection, (c.retransmit packets).outputBuffer = c.outputBuffer := by
  induction packets with
  | nil => exact fun c => rfl
  | cons p ps ih => exact fun c => ih _

theorem packetAcks_outputBuffer : (c.packetAcks k p).outputBuffer = c.outputBuffer :=
  retransmit_outputBuffer _ _

theorem packetAcks_nil (h : c.remoteWnd.unackedPackets = []) :
    (c.packetAcks k p).remoteWnd.unackedPackets = [] := by
  show (RemoteWindow.updateWindowSize _ _).unackedPackets = []
  rw [retransmit_remoteWnd]
  exact RemoteWindow.packetReceived_nil h

theorem packetAcks_packetSize_pos : 0 < (c.packetAcks k p).packetSize := by
  show 0 < ite _ _ _
  repeat' split
  all_goals decide

theorem extensionLength_le (w : LocalWindow) : extensionLength w ≤ 6 := by
  unfold extensionLength
  split
  · have := Nat.min_le_right (w.selectiveAckBits / 8) 4
    omega
  · exact Nat.zero_le 6

/-- As long as there are bytes and there is room, a packet takes some of them. -/
theorem toRead_pos (hbuf : 0 < c.outputBuffer.length) (hroom : 0 < c.remoteWnd.availableSpace)
    (hsize : 0 < c.packetSize) : 0 < c.toRead := by
  have hext := extensionLength_le c.localWnd
  have hrest : 0 < maxBufferSize - extensionLength c.localWnd - headerSize := by
    show 0 < 1500 - _ - 20
    omega
  unfold toRead
  exact lt_min (lt_min (lt_min hbuf hroom) hsize) hrest

theorem sendNext_unacked (now : ℕ) : (c.sendNext now).remoteWnd.unackedPackets ≠ [] := by
  show _ ++ [_] ≠ []
  simp

theorem sendLoop_unacked_ne (now fuel : ℕ) :
    ∀ c : Connection, c.remoteWnd.unackedPackets ≠ [] →
      (sendLoop now fuel c).remoteWnd.unackedPackets ≠ [] := by
  induction fuel with
  | zero => exact fun c h => h
  | succ fuel ih =>
    intro c h
    unfold sendLoop
    split
    · split
      · exact h
      · exact ih _ (sendNext_unacked now)
    · exact h

theorem finishSending_remoteWnd : c.finishSending.remoteWnd = c.remoteWnd := by
  unfold finishSending
  split <;> rfl

/-- **`sendPackets` and the send window.**  An empty window stays empty exactly when
there is nothing to send or no room to send it. -/
theorem sendPackets_acked_iff (now : ℕ) (hacked : c.remoteWnd.unackedPackets = [])
    (hsize : 0 < c.packetSize) :
    (c.sendPackets now).remoteWnd.unackedPackets = [] ↔
      c.outputBuffer = [] ∨ c.remoteWnd.availableSpace = 0 := by
  unfold sendPackets
  rw [finishSending_remoteWnd]
  cases hbuf : c.outputBuffer with
  | nil =>
    rw [List.length_nil]
    exact ⟨fun _ => .inl rfl, fun _ => hacked⟩
  | cons b bs =>
    have hlen : c.outputBuffer.length = bs.length + 1 := by rw [hbuf, List.length_cons]
    rw [List.length_cons, sendLoop]
    by_cases hroom : c.remoteWnd.availableSpace = 0
    · rw [if_neg (by omega)]
      exact ⟨fun _ => .inr hroom, fun _ => hacked⟩
    · have hpos := toRead_pos (by omega) (Nat.pos_of_ne_zero hroom) hsize
      rw [if_pos ⟨by omega, Nat.pos_of_ne_zero hroom⟩, if_neg (Nat.ne_of_gt hpos)]
      constructor
      · intro h
        exact absurd h (sendLoop_unacked_ne now _ _ (sendNext_unacked now))
      · rintro (h | h)
        · cases h
        · exact absurd h hroom

/-! ## The check -/

theorem checkIfClosed_closed_iff (h : c.state = .finished) :
    c.checkIfClosed.state = .closed ↔
      c.remoteWnd.unackedPackets = [] ∧ c.localWnd.incomingPackets = [] := by
  unfold checkIfClosed
  split
  · rename_i hc
    exact ⟨fun _ => ⟨RemoteWindow.allPacketsAcked_iff.mp hc.2.1, List.isEmpty_iff.mp hc.2.2⟩, fun _ => rfl⟩
  · rename_i hc
    constructor
    · intro hcl
      rw [h] at hcl
      cases hcl
    · intro hcl
      exact absurd ⟨h, RemoteWindow.allPacketsAcked_iff.mpr hcl.1, List.isEmpty_iff.mpr hcl.2⟩ hc

/-- `sendPackets` and the check after it. -/
theorem sendPackets_closes_iff (now : ℕ) (hstate : c.state = .finished)
    (hacked : c.remoteWnd.unackedPackets = []) (hsize : 0 < c.packetSize) :
    (c.sendPackets now).checkIfClosed.state = .closed ↔
      c.localWnd.incomingPackets = [] ∧
        (c.outputBuffer = [] ∨ c.remoteWnd.availableSpace = 0) := by
  have hs := sends_sendPackets c now
  rw [checkIfClosed_closed_iff (hs.state.trans hstate), hs.localWnd,
    sendPackets_acked_iff now hacked hsize, and_comm]

end Connection

section Received

variable {c : Connection} {f : UInt16}

theorem AllReceived.closesOnRecv_iff (h : AllReceived c f) (maxLen : ℕ) :
    ClosesOnRecv c maxLen ↔ c.localWnd.incomingPackets = [] := by
  unfold ClosesOnRecv Connection.recv
  simp only [h.state, if_true]
  by_cases hempty : c.localWnd.incomingPackets = []
  · have hclosed : c.checkIfClosed.state = .closed :=
      (Connection.checkIfClosed_closed_iff h.state).mpr
        ⟨RemoteWindow.allPacketsAcked_iff.mp h.acked, hempty⟩
    have hread : c.checkIfClosed.localWnd.bytesAvailable = 0 := by
      rw [Connection.checkIfClosed_localWnd]
      exact h.read
    rw [if_pos ⟨hread, hclosed⟩]
    exact ⟨fun _ => hempty, fun _ => ⟨none, _, rfl, hclosed⟩⟩
  · have hopen : ¬ (c.localWnd.bytesAvailable = 0 ∧ c.state = .closed) := by
      rw [h.state]
      rintro ⟨-, hc⟩
      cases hc
    rw [Connection.checkIfClosed_nonempty hempty, if_neg hopen]
    refine ⟨?_, fun he => absurd he hempty⟩
    rintro ⟨r, c', hrecv, hclosed⟩
    split at hrecv
    · cases hrecv
    · obtain ⟨-, rfl⟩ := Prod.mk.inj (Option.some.inj hrecv)
      rw [(Connection.sends_updateWindow _).state] at hclosed
      rw [show c.state = .closed from hclosed] at hopen
      exact absurd ⟨h.read, rfl⟩ hopen

/-- In `FINISHED`, a state or fin packet sends what can be sent and checks. -/
theorem handlePacket_finished {k : Clock} {p : Packet} (hstate : c.state = .finished)
    (htype : p.type = .stState ∨ p.type = .stFin) :
    ∃ eof, c.handlePacket k p =
      some ({ c.packetAcks k p with eofSeqNr := eof }.sendPackets k.now).checkIfClosed := by
  unfold Connection.handlePacket Connection.dispatch
  have hacks := (Connection.sends_packetAcks c k p).state.trans hstate
  rcases htype with htype | htype
  · refine ⟨(c.packetAcks k p).eofSeqNr, ?_⟩
    simp only [hacks, htype]
    rw [← hacks]
  · refine ⟨some p.seqNr, ?_⟩
    simp only [hacks, htype]

theorem AllReceived.closesOnPacket_iff (h : AllReceived c f) (k : Clock) {p : Packet}
    (htype : p.type = .stState ∨ p.type = .stFin) :
    ClosesOnPacket c k p ↔ c.localWnd.incomingPackets = [] ∧
      (c.outputBuffer = [] ∨ (c.packetAcks k p).remoteWnd.availableSpace = 0) := by
  have hs := Connection.sends_packetAcks c k p
  have hacked : (c.packetAcks k p).remoteWnd.unackedPackets = [] :=
    Connection.packetAcks_nil (RemoteWindow.allPacketsAcked_iff.mp h.acked)
  obtain ⟨eof, hhandle⟩ := handlePacket_finished (k := k) h.state htype
  have hiff := Connection.sendPackets_closes_iff (c := { c.packetAcks k p with eofSeqNr := eof }) k.now
    (hs.state.trans h.state) hacked Connection.packetAcks_packetSize_pos
  rw [show Connection.localWnd { c.packetAcks k p with eofSeqNr := eof } = c.localWnd from hs.localWnd,
    show Connection.outputBuffer { c.packetAcks k p with eofSeqNr := eof } = c.outputBuffer from
      Connection.packetAcks_outputBuffer] at hiff
  unfold ClosesOnPacket
  rw [hhandle, ← hiff]
  constructor
  · rintro ⟨c', hc', hclosed⟩
    rw [Option.some.inj hc']
    exact hclosed
  · intro hclosed
    exact ⟨_, rfl, hclosed⟩

end Received

/-- **When a call closes a connection whose peer has finished.**  `recv` does so exactly
when the vector is empty; a state or fin packet does so when, moreover, it does not
let waiting output go out. -/
theorem closes_iff (c : Connection) (f : UInt16) (h : AllReceived c f) :
    (∀ maxLen, ClosesOnRecv c maxLen ↔ c.localWnd.incomingPackets = []) ∧
      ∀ k p, p.type = .stState ∨ p.type = .stFin →
        (ClosesOnPacket c k p ↔ c.localWnd.incomingPackets = [] ∧
          (c.outputBuffer = [] ∨ (c.packetAcks k p).remoteWnd.availableSpace = 0)) :=
  ⟨h.closesOnRecv_iff, fun k _ htype => h.closesOnPacket_iff k htype⟩

/-- A clock that stands still. -/
def Clock.still : Clock := { now := 0, currentTimeout := 1000, gain := 0 }

/-- What happens in `testFin` of the source, to the connection that is accepted: the
handshake, one packet with a byte, a `recv` that returns it, and the `ST_FIN`. -/
def finTest : Option Connection := do
  let packet (type : PacketType) (number : ℕ) (data : List UInt8) : Packet :=
    { type := type, connectionId := 8, wndSize := receiveCapacity, number := number, ackNr := 4,
      sack := none, data := data }
  let c ← (Connection.incoming 9).handlePacket .still (packet .stSyn 1 [])
  let c ← c.handlePacket .still (packet .stData 2 [84])
  let (_, c) ← c.recv 100
  c.handlePacket .still (packet .stFin 3 [])

/-- The connection at the end of the test. -/
def finTestEnd : Connection := finTest.getD (Connection.incoming 9)

theorem finTest_eq : finTest = some finTestEnd := by
  decide +kernel

theorem finTest_allReceived : AllReceived finTestEnd 3 where
  state := by decide +kernel
  eof := by decide +kernel
  last := by decide +kernel
  acked := by decide +kernel
  read := by decide +kernel

theorem finTest_closes_iff :
    ClosesOnRecv finTestEnd 100 ↔ finTestEnd.localWnd.incomingPackets = [] :=
  (closes_iff finTestEnd 3 finTest_allReceived).1 100

/-- **The connection of the test stays open.**  Everything has been received and read,
and neither `recv` nor a state packet closes it. -/
theorem finTest_stays_open :
    finTest = some finTestEnd ∧ AllReceived finTestEnd 3 ∧ ¬ ClosesOnRecv finTestEnd 100 ∧
      ¬ ClosesOnPacket finTestEnd .still
        { type := .stState, connectionId := 8, wndSize := receiveCapacity, number := 3, ackNr := 4,
          sack := none, data := [] } := by
  have hslot : finTestEnd.localWnd.incomingPackets ≠ [] := by decide +kernel
  refine ⟨finTest_eq, finTest_allReceived, ?_, ?_⟩
  · rw [finTest_allReceived.closesOnRecv_iff]
    exact hslot
  · rw [finTest_allReceived.closesOnPacket_iff _ (.inl rfl)]
    exact fun h => hslot h.1

end Utp
end KTorrent
