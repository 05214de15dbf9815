import KTorrent.Utp.Server
import KTorrent.Utp.WindowNumbers

/-!
# Bytes that are never returned

The reader of a socket calls `recv` until it returns `0`, which it does as soon as
the connection is closed.  A connection closes in several ways, and only one of
them looks at the receive window.

* `Reader` — a connection, what its window has accepted and what the socket has
  returned; `Reader.inOrder` is what has been acknowledged.
* `Lossless` — the socket returns these bytes, and all of them before the end.
* `Patient` — nothing ends the connection while there are bytes to be read.
* `allStates_lossless` — then nothing is lost.
* `reset_loses_byte` — otherwise a byte that was acknowledged can be.
-/

namespace KTorrent
namespace Utp

open Runs

/-- A connection that is read through a socket, as an observer sees it. -/
structure Reader where
  conn : Connection
  /-- The number behind which the peer starts. -/
  lsn : ℕ
  /-- Numbers of the packets that the window has accepted, and their payloads. -/
  accepted : Finset ℕ
  payload : ℕ → List UInt8
  /-- Everything that `recv` has returned. -/
  output : List UInt8

namespace Reader

/-- A new connection. -/
def start (c : Connection) : Reader :=
  { conn := c, lsn := 0, accepted := ∅, payload := fun _ => [], output := [] }

/-- The receive window with its observer. -/
def receiver (r : Reader) : Receiver :=
  { window := r.conn.localWnd, accepted := r.accepted, output := r.output }

/-- The bytes that the window has accepted in order. -/
def inOrder (r : Reader) : List UInt8 := stream r.payload r.lsn (lastInOrder r.accepted r.lsn)

/-- What the observer writes down when a packet has made the connection `c`: where the
peer starts, and the packets that are taken. -/
def record (r : Reader) (p : Packet) (c : Connection) : Reader :=
  if (r.conn.state = .idle ∨ r.conn.state = .synSent) ∧ c.state = .connected then
    { r with conn := c, lsn := c.localWnd.lastSeqNr.toNat }
  else if r.conn.Takes p then
    let n := r.receiver.numberOf r.lsn p.seqNr
    { r with
      conn := c
      accepted := insert n r.accepted
      payload := if n ∈ r.accepted then r.payload else Function.update r.payload n p.data }
  else { r with conn := c }

end Reader

/-- What can happen to a connection. -/
inductive ReaderEvent where
  | packet (k : Clock) (p : Packet)
  | recv (maxLen : ℕ)
  | send (now : ℕ) (data : List UInt8)
  | close (now : ℕ)
  | reset
  | timeout (k : Clock) (maxReached keepAlive : Bool)

/-- One event; `none` when the window is accessed outside its vector. -/
def readerStep : Option Reader → ReaderEvent → Option Reader
  | none, _ => none
  | some r, .packet k p => (r.conn.arrival k p).map (r.record p)
  | some r, .recv maxLen =>
    match r.conn.socketRecv maxLen with
    | none => none
    | some (some (some data), c) => some { r with conn := c, output := r.output ++ data }
    | some (_, c) => some { r with conn := c }
  | some r, .send now data => some { r with conn := (r.conn.send now data).2 }
  | some r, .close now => some { r with conn := r.conn.close now }
  | some r, .reset => some { r with conn := r.conn.reset }
  | some r, .timeout k maxReached keepAlive =>
    some { r with conn := r.conn.handleTimeout k maxReached keepAlive }

/-- Nothing that was acknowledged is lost. -/
structure Lossless (r : Reader) : Prop where
  /-- The socket has returned a part of what was acknowledged, from its beginning on. -/
  before : r.output <+: r.inOrder
  /-- As long as it does not return `0`, it returns more of it, if there is more. -/
  next : r.conn.state ≠ .closed → r.output ≠ r.inOrder → ∀ maxLen, 0 < maxLen →
    ∃ data c, r.conn.socketRecv maxLen = some (some (some data), c) ∧ data ≠ [] ∧
      r.output ++ data <+: r.inOrder
  /-- When it returns `0`, it has returned all of it. -/
  complete : r.conn.state = .closed → r.output = r.inOrder

/-- The events that leave no bytes behind: a packet that gives the connection up, a
reset, or a timeout in `FINISHED` comes only when all bytes have been read.  Packets
are near enough to be told apart. -/
def Patient : Option Reader → ReaderEvent → Prop
  | none, _ => True
  | some r, .packet _ p =>
    (r.conn.Pushes p → Ahead (some r.receiver) (.packet p.seqNr [] p.data)) ∧
      (p.type ≠ .stSyn → r.conn.fatal p = true → r.conn.localWnd.bytesAvailable = 0)
  | some r, .reset => r.conn.state ≠ .closed → r.conn.localWnd.bytesAvailable = 0
  | some r, .timeout _ _ _ => r.conn.state = .finished → r.conn.localWnd.bytesAvailable = 0
  | some _, .recv _ => True
  | some _, .send _ _ => True
  | some _, .close _ => True

/-! ## The invariant -/

/-- A reader between two events. -/
structure Reading (r : Reader) : Prop where
  layout : ∃ L F pre mid post, Layout r.payload receiveCapacity r.lsn r.receiver L F pre mid post
  /-- Nothing has happened before the handshake. -/
  fresh : r.conn.state = .idle ∨ r.conn.state = .synSent → r.receiver = Receiver.start receiveCapacity 0
  /-- Everything has been read at the end. -/
  read : r.conn.state = .closed → r.conn.localWnd.bytesAvailable = 0

theorem reading_start {c : Connection} (hwnd : c.localWnd = LocalWindow.new receiveCapacity) :
    Reading (Reader.start c) := by
  have hstart : (Reader.start c).receiver = Receiver.start receiveCapacity 0 := by
    unfold Reader.receiver Reader.start Receiver.start
    rw [hwnd]
    rfl
  refine ⟨⟨0, 1, [], [], [], ?_⟩, fun _ => hstart, fun _ => ?_⟩
  · rw [hstart]
    exact layout_start _ _ 0
  · show c.localWnd.bytesAvailable = 0
    rw [hwnd]
    rfl

section Reading

variable {r : Reader} {c : Connection}

/-- What has been acknowledged is what was returned and what is in the window. -/
theorem Reading.inOrder_eq (h : Reading r) :
    ∃ rest, r.inOrder = r.output ++ rest ∧ rest.length = r.conn.localWnd.bytesAvailable := by
  obtain ⟨L, F, pre, mid, post, hlay⟩ := h.layout
  refine ⟨unreadAll mid, ?_, hlay.available.symm⟩
  rw [Reader.inOrder, show lastInOrder r.accepted r.lsn = L from hlay.last_inOrder.eq]
  exact hlay.bytes.symm

/-- A vector without slots has no bytes. -/
theorem Reading.bytesAvailable_nil (h : Reading r) (hempty : r.conn.localWnd.incomingPackets = []) :
    r.conn.localWnd.bytesAvailable = 0 := by
  obtain ⟨L, F, pre, mid, post, hlay⟩ := h.layout
  have hmid : mid = [] := by
    have hnil : pre ++ (mid ++ post) = [] := by
      rw [← hlay.packets]
      exact hempty
    simp only [List.append_eq_nil_iff] at hnil
    exact hnil.2.1
  rw [show r.conn.localWnd.bytesAvailable = (unreadAll mid).length from hlay.available, hmid]
  rfl

/-- Events that leave the window alone. -/
theorem Reading.keep (h : Reading r) (hwnd : c.localWnd = r.conn.localWnd)
    (hfresh : c.state = .idle ∨ c.state = .synSent → r.conn.state = .idle ∨ r.conn.state = .synSent)
    (hread : c.state = .closed → r.conn.localWnd.bytesAvailable = 0) :
    Reading { r with conn := c } := by
  have hsame : Reader.receiver { r with conn := c } = r.receiver := by
    unfold Reader.receiver
    rw [hwnd]
  refine ⟨?_, fun hs => ?_, fun hs => ?_⟩
  · obtain ⟨L, F, pre, mid, post, hlay⟩ := h.layout
    refine ⟨L, F, pre, mid, post, ?_⟩
    rw [hsame]
    exact hlay
  · rw [hsame]
    exact h.fresh (hfresh hs)
  · show c.localWnd.bytesAvailable = 0
    rw [hwnd]
    exact hread hs

theorem Reading.sends (h : Reading r) (hs : Sends r.conn c) : Reading { r with conn := c } := by
  apply h.keep hs.localWnd
  · rw [hs.state]
    exact id
  · rw [hs.state]
    exact h.read

/-- A connection that has only checked whether it is closed. -/
theorem Reading.settles (h : Reading r) (hs : Settles r.conn c) : Reading { r with conn := c } := by
  rcases hs with hs | ⟨b, hs, hclose⟩
  · exact h.sends hs
  · apply h.keep
    · rw [hclose.closed]
      exact hs.localWnd
    · rw [hclose.closed]
      rintro (hc | hc) <;> cases hc
    · intro _
      apply h.bytesAvailable_nil
      rw [← hs.localWnd]
      exact hclose.empty

/-! ## One event -/

theorem Reading.close (h : Reading r) (now : ℕ) : Reading { r with conn := r.conn.close now } := by
  rcases Connection.close_cases r.conn now with ⟨-, hs⟩ | hsame
  · apply h.keep hs.localWnd
    · rw [hs.state]
      rintro (hc | hc) <;> cases hc
    · rw [hs.state]
      intro hc
      cases hc
  · rw [hsame]
    exact h

/-- The connection is given up, with or without a reset. -/
theorem Reading.giveUp (h : Reading r) (hwnd : c.localWnd = r.conn.localWnd) (hstate : c.state = .closed)
    (hread : r.conn.localWnd.bytesAvailable = 0) : Reading { r with conn := c } := by
  apply h.keep hwnd
  · rw [hstate]
    rintro (hc | hc) <;> cases hc
  · exact fun _ => hread

theorem Reading.reset (h : Reading r) (hread : r.conn.state ≠ .closed → r.conn.localWnd.bytesAvailable = 0) :
    Reading { r with conn := r.conn.reset } := by
  by_cases hstate : r.conn.state = .closed
  · have hsame : r.conn.reset = r.conn := if_neg fun hc => hc hstate
    rw [hsame]
    exact h
  · rw [Connection.reset, if_pos hstate]
    exact h.giveUp rfl rfl (hread hstate)

theorem Reading.bytesAvailable_fresh (h : Reading r)
    (hstate : r.conn.state = .idle ∨ r.conn.state = .synSent) : r.conn.localWnd.bytesAvailable = 0 :=
  congrArg (fun q => q.window.bytesAvailable) (h.fresh hstate)

theorem Reading.timeout (h : Reading r) {k : Clock} {maxReached keepAlive : Bool}
    (hok : Patient (some r) (.timeout k maxReached keepAlive)) :
    Reading { r with conn := r.conn.handleTimeout k maxReached keepAlive } := by
  rcases Connection.handleTimeout_cases r.conn k maxReached keepAlive with
    ⟨hstate, heq⟩ | ⟨-, -, b, hs, heq⟩ | hs
  · rw [heq]
    refine h.giveUp rfl rfl ?_
    rcases hstate with hstate | hstate
    · exact h.bytesAvailable_fresh (.inr hstate)
    · exact hok hstate
  · rw [heq]
    refine h.keep hs.localWnd ?_ ?_
    · rintro (hc | hc) <;> cases hc
    · intro hc
      cases hc
  · exact h.sends hs

/-- **A read of the socket.**  If there are bytes, some of them are returned. -/
theorem Reading.socketRecv (h : Reading r) (hstate : r.conn.state ≠ .closed)
    (hbytes : r.conn.localWnd.bytesAvailable ≠ 0) (maxLen : ℕ) :
    ∃ data c, r.conn.socketRecv maxLen = some (some (some data), c) ∧
      Reading { r with conn := c, output := r.output ++ data } ∧ (0 < maxLen → data ≠ []) := by
  obtain ⟨L, F, pre, mid, post, hlay⟩ := h.layout
  have hne : r.conn.localWnd.incomingPackets ≠ [] := fun hnil => hbytes (h.bytesAvailable_nil hnil)
  obtain ⟨d, w', F', pre', mid', hread, hlay', -, hfull, -⟩ := hlay.read maxLen hne
  have hrecv : r.conn.recv maxLen = some (some d, { r.conn with localWnd := w' }.updateWindow) := by
    simp only [Connection.recv, Connection.checkIfClosed_nonempty hne, ite_self, hbytes, false_and,
      if_false, show r.conn.localWnd.read maxLen = some (d, w') from hread]
  have hs := Connection.sends_updateWindow { r.conn with localWnd := w' }
  refine ⟨d, { r.conn with localWnd := w' }.updateWindow, ?_, ⟨⟨L, F', pre', mid', post, ?_⟩, ?_, ?_⟩, ?_⟩
  · simp only [Connection.socketRecv, if_neg hstate, if_neg hbytes, hrecv]
  · have hsame : Reader.receiver { r with
        conn := { r.conn with localWnd := w' }.updateWindow, output := r.output ++ d } =
        { r.receiver with window := w', output := r.output ++ d } := by
      unfold Reader.receiver
      rw [hs.localWnd]
    rw [hsame]
    exact hlay'
  · intro hfresh
    rw [show Connection.state _ = r.conn.state from hs.state] at hfresh
    exact absurd (h.bytesAvailable_fresh hfresh) hbytes
  · intro hclosed
    rw [show Connection.state _ = r.conn.state from hs.state] at hclosed
    exact absurd hclosed hstate
  · rintro hpos rfl
    -- nothing was returned, so the loop has come to the end of the packets in order
    have hmid : mid' = [] := by
      rcases hfull with hfull | hfull
      · exact hfull
      · exact absurd hfull (by simpa using Nat.ne_of_gt hpos)
    have hold := hlay.bytes
    have hnew := hlay'.bytes
    rw [hmid, List.append_nil, ← hold] at hnew
    have hlen := congrArg List.length hnew
    have hav : r.conn.localWnd.bytesAvailable = (unreadAll mid).length := hlay.available
    simp only [List.length_append, unreadAll, List.map_nil, List.flatten_nil, List.length_nil] at hlen hav
    omega

/-! ## Packets -/

/-- Packets that the observer does not write down. -/
theorem Reader.record_keep {p : Packet}
    (hopen : ¬ (r.conn.state = .idle ∨ r.conn.state = .synSent) ∨ c.state ≠ .connected)
    (htakes : ¬ r.conn.Takes p) : r.record p c = { r with conn := c } := by
  rw [Reader.record, if_neg (not_and_or.mpr hopen), if_neg htakes]

/-- The handshake: the window starts behind the number of the peer. -/
theorem Reading.established (h : Reading r) {p : Packet} {last : UInt16}
    (hstate : r.conn.state = .idle ∨ r.conn.state = .synSent) (hconn : c.state = .connected)
    (hwnd : c.localWnd = r.conn.localWnd.setLastSeqNr last) : Reading (r.record p c) := by
  have hstart := h.fresh hstate
  have hwindow : r.conn.localWnd = (LocalWindow.new receiveCapacity).setLastSeqNr (UInt16.ofNat 0) :=
    congrArg Receiver.window hstart
  have haccepted : r.accepted = ∅ := congrArg Receiver.accepted hstart
  have houtput : r.output = [] := congrArg Receiver.output hstart
  rw [Reader.record, if_pos ⟨hstate, hconn⟩]
  have hrecv : Reader.receiver { r with conn := c, lsn := c.localWnd.lastSeqNr.toNat } =
      Receiver.start receiveCapacity c.localWnd.lastSeqNr.toNat := by
    unfold Reader.receiver Receiver.start
    rw [UInt16.ofNat_toNat, haccepted, houtput, hwnd, hwindow]
    rfl
  refine ⟨⟨c.localWnd.lastSeqNr.toNat, c.localWnd.lastSeqNr.toNat + 1, [], [], [], ?_⟩, ?_, ?_⟩
  · rw [hrecv]
    exact layout_start _ _ _
  · rw [hconn]
    rintro (hc | hc) <;> cases hc
  · rw [hconn]
    intro hc
    cases hc

/-- A packet that is pushed into the window. -/
theorem Reading.pushed (h : Reading r) {p : Packet} {w : LocalWindow} (hpush : r.conn.Pushes p)
    (hahead : Ahead (some r.receiver) (.packet p.seqNr [] p.data))
    (hfatal : r.conn.fatal p = false)
    (hrecv : r.conn.localWnd.packetReceived p.seqNr p.data 0 = some (true, w))
    (hs : Settles { r.conn with localWnd := w } c) : Reading (r.record p c) := by
  obtain ⟨hnew, hclosed⟩ := hpush.state
  have hroom := hpush.not_refuses hfatal
  cases hold : seqNrCmpSE p.seqNr r.conn.localWnd.lastSeqNr with
  | true =>
    have hsame : w = r.conn.localWnd := by
      simp only [LocalWindow.packetReceived, hold, if_true, Option.some.injEq, Prod.mk.injEq,
        true_and] at hrecv
      exact hrecv.symm
    rw [Reader.record_keep (.inl hnew) fun ht => by rw [ht.2.1] at hold; cases hold]
    rw [hsame] at hs
    exact h.settles hs
  | false =>
    obtain ⟨L, F, pre, mid, post, hlay⟩ := h.layout
    have hfits : p.data.length ≤ r.receiver.window.availableSpace :=
      Connection.room_of_not_refuses hroom hold
    obtain ⟨w', L', mid', post', hrecv', hlay'⟩ := hlay.push hahead hold hfits
    obtain rfl : w = w' := by
      rw [show r.conn.localWnd.packetReceived p.seqNr p.data 0 = some (true, w') from hrecv'] at hrecv
      exact (Prod.mk.inj (Option.some.inj hrecv)).2.symm
    rw [Reader.record, if_neg fun hc => hnew hc.1, if_pos ⟨hpush, hold, hroom⟩]
    -- first the window, then what is sent
    have hwindow : Reading { r with
        conn := { r.conn with localWnd := w }
        accepted := insert (r.receiver.numberOf r.lsn p.seqNr) r.accepted
        payload := if r.receiver.numberOf r.lsn p.seqNr ∈ r.accepted then r.payload
          else Function.update r.payload (r.receiver.numberOf r.lsn p.seqNr) p.data } := by
      exact ⟨⟨L', F, pre, mid', post', hlay'⟩, fun hc => absurd hc hnew, fun hc => absurd hc hclosed⟩
    exact hwindow.settles hs

theorem Reading.handlePacket (h : Reading r) {k : Clock} {p : Packet}
    (hahead : r.conn.Pushes p → Ahead (some r.receiver) (.packet p.seqNr [] p.data))
    (hread : r.conn.fatal p = true → r.conn.localWnd.bytesAvailable = 0) :
    ∃ c, r.conn.handlePacket k p = some c ∧ Reading (r.record p c) := by
  cases hfatal : r.conn.fatal p with
  | true =>
    have hs := Connection.sends_packetAcks r.conn k p
    refine ⟨_, Connection.handlePacket_fatal hfatal, ?_⟩
    rw [Reader.record_keep]
    · exact h.giveUp hs.localWnd rfl (hread hfatal)
    · right
      intro hc
      cases hc
    · intro htakes
      rw [htakes.not_fatal] at hfatal
      cases hfatal
  | false =>
    have hsome : r.conn.Pushes p →
        ∃ ok w, r.conn.localWnd.packetReceived p.seqNr p.data 0 = some (ok, w) := by
      intro hpush
      cases hold : seqNrCmpSE p.seqNr r.conn.localWnd.lastSeqNr with
      | true => exact ⟨true, r.conn.localWnd, by simp only [LocalWindow.packetReceived, hold, if_true]⟩
      | false =>
        cases hroom : r.conn.refuses p with
        | true => exact ⟨false, _, Connection.packetReceived_refuses hroom⟩
        | false =>
          obtain ⟨L, F, pre, mid, post, hlay⟩ := h.layout
          have hfits : p.data.length ≤ r.receiver.window.availableSpace :=
            Connection.room_of_not_refuses hroom hold
          obtain ⟨w, -, -, -, hrecv, -⟩ := hlay.push (hahead hpush) hold hfits
          exact ⟨true, w, hrecv⟩
    obtain ⟨c, hc⟩ := Connection.handlePacket_isSome (k := k) hsome
    refine ⟨c, hc, ?_⟩
    cases Connection.handlePacket_cases hfatal hc with
    | ignored state sends =>
      rw [Reader.record_keep]
      · exact h.sends sends
      · left
        rw [state]
        decide
      · exact fun ht => ht.1.state.2 state
    | opened state type sends => exact h.established (.inr state) sends.state sends.localWnd
    | accepted state type sends => exact h.established (.inl state) sends.state sends.localWnd
    | pushed w pushes push settles => exact h.pushed pushes (hahead pushes) hfatal push settles
    | dropped state type beyond settles =>
      rw [Reader.record_keep]
      · exact h.settles settles
      · left
        rw [state]
        decide
      · rintro ⟨⟨-, hc | hc⟩, -⟩
        · rw [state] at hc
          cases hc
        · rw [hc.2] at beyond
          cases beyond
    | acks state type settles =>
      rw [Reader.record_keep]
      · exact h.settles settles
      · left
        rcases state with state | state <;> rw [state] <;> decide
      · exact Connection.not_takes (by rw [type]; decide)
    | ended state type settles =>
      rw [Reader.record_keep]
      · have hfin : Reading { r with
            conn := { r.conn with eofSeqNr := some p.seqNr, state := .finished } } := by
          refine h.keep rfl ?_ ?_
          · rintro (hc | hc) <;> cases hc
          · intro hc
            cases hc
        exact hfin.settles settles
      · left
        rcases state with state | state <;> rw [state] <;> decide
      · exact Connection.not_takes (by rw [type]; decide)

theorem Reader.record_reset {p : Packet} (htype : p.type = .stReset) :
    r.record p r.conn.reset = { r with conn := r.conn.reset } := by
  apply Reader.record_keep _ (Connection.not_takes (by rw [htype]; decide))
  unfold Connection.reset
  split
  · exact .inr fun hc => by cases hc
  · rename_i hclosed
    left
    rw [not_not.mp hclosed]
    decide

theorem Reading.arrival (h : Reading r) {k : Clock} {p : Packet}
    (hok : Patient (some r) (.packet k p)) :
    ∃ c, r.conn.arrival k p = some c ∧ Reading (r.record p c) := by
  obtain ⟨hahead, hread⟩ := hok
  unfold Connection.arrival
  cases htype : p.type with
  | stData => exact h.handlePacket hahead (hread (by rw [htype]; decide))
  | stFin => exact h.handlePacket hahead (hread (by rw [htype]; decide))
  | stState => exact h.handlePacket hahead (hread (by rw [htype]; decide))
  | stReset =>
    refine ⟨r.conn.reset, rfl, ?_⟩
    rw [Reader.record_reset htype]
    apply h.reset
    intro hstate
    apply hread (by rw [htype]; decide)
    unfold Connection.fatal
    cases hs : r.conn.state with
    | closed => exact absurd hs hstate
    | idle => rw [htype]; rfl
    | synSent => rw [htype]; rfl
    | connected => simp only [htype]
    | finished => simp only [htype]
  | stSyn =>
    by_cases hidle : r.conn.state = .idle
    · simp only [hidle, if_true]
      apply h.handlePacket hahead
      intro hfatal
      exact h.bytesAvailable_fresh (.inl hidle)
    · simp only [if_neg hidle]
      refine ⟨r.conn, rfl, ?_⟩
      rw [Reader.record_keep _ (Connection.not_takes (by rw [htype]; decide))]
      · exact h
      · by_cases hconn : r.conn.state = .connected
        · left
          rw [hconn]
          decide
        · exact .inr hconn

end Reading

/-! ## Whole runs -/

/-- The invariant. -/
def ReadingState (s : Option Reader) : Prop := ∃ r, s = some r ∧ Reading r

theorem readingState_step (s : Option Reader) (e : ReaderEvent) (h : ReadingState s) (hok : Patient s e) :
    ReadingState (readerStep s e) := by
  obtain ⟨r, rfl, hr⟩ := h
  cases e with
  | packet k p =>
    obtain ⟨c, harrival, hread⟩ := hr.arrival hok
    refine ⟨_, ?_, hread⟩
    simp only [readerStep, harrival, Option.map_some]
  | recv maxLen =>
    by_cases hstate : r.conn.state = .closed
    · refine ⟨r, ?_, hr⟩
      simp only [readerStep, Connection.socketRecv, if_pos hstate]
    · by_cases hbytes : r.conn.localWnd.bytesAvailable = 0
      · refine ⟨r, ?_, hr⟩
        simp only [readerStep, Connection.socketRecv, if_neg hstate, if_pos hbytes]
      · obtain ⟨data, c, hrecv, hread, -⟩ := hr.socketRecv hstate hbytes maxLen
        refine ⟨_, ?_, hread⟩
        simp only [readerStep, hrecv]
  | send now data => exact ⟨_, rfl, hr.sends (Connection.sends_send r.conn now data)⟩
  | close now => exact ⟨_, rfl, hr.close now⟩
  | reset => exact ⟨_, rfl, hr.reset hok⟩
  | timeout k maxReached keepAlive => exact ⟨_, rfl, hr.timeout hok⟩

theorem Reading.lossless {r : Reader} (h : Reading r) : Lossless r := by
  obtain ⟨rest, hsplit, hlen⟩ := h.inOrder_eq
  refine ⟨⟨rest, hsplit.symm⟩, fun hstate hmore maxLen hpos => ?_, fun hstate => ?_⟩
  · have hbytes : r.conn.localWnd.bytesAvailable ≠ 0 := by
      intro hzero
      rw [hzero, List.length_eq_zero_iff] at hlen
      rw [hsplit, hlen, List.append_nil] at hmore
      exact hmore rfl
    obtain ⟨data, c, hrecv, hread, hne⟩ := h.socketRecv hstate hbytes maxLen
    obtain ⟨rest', hsplit', -⟩ := hread.inOrder_eq
    exact ⟨data, c, hrecv, hne hpos, rest', hsplit'.symm⟩
  · rw [h.read hstate, List.length_eq_zero_iff] at hlen
    rw [hsplit, hlen, List.append_nil]

/-- **No acknowledged byte is lost.**  From a new connection on, as long as nothing ends
it while there are bytes to be read, the socket returns every byte that the window has
accepted in order before it returns `0`. -/
theorem allStates_lossless (id : UInt16) (c : Connection) (events : List ReaderEvent)
    (hnew : c = .incoming id ∨ c = .connecting id)
    (h : AllSteps readerStep Patient (some (Reader.start c)) events) :
    AllStates readerStep (fun s => ∃ r, s = some r ∧ Lossless r) (some (Reader.start c)) events := by
  have hwnd : c.localWnd = LocalWindow.new receiveCapacity := by
    rcases hnew with rfl | rfl
    · rfl
    · rfl
  have hstart : ReadingState (some (Reader.start c)) := ⟨_, rfl, reading_start hwnd⟩
  refine (allStates_of_invariant readingState_step events _ hstart h).mono ?_
  rintro s ⟨r, rfl, hr⟩
  exact ⟨r, rfl, hr.lossless⟩

/-- A packet of the peer. -/
def peerPacket (type : PacketType) (number : ℕ) (data : List UInt8) : Packet :=
  { type := type, connectionId := 9, wndSize := receiveCapacity, number := number, ackNr := 4,
    sack := none, data := data }

/-- A packet arrives at time zero. -/
def arrives (p : Packet) : ReaderEvent := .packet { now := 0, currentTimeout := 1000, gain := 0 } p

/-- The handshake and one byte. -/
def byteArrives : List ReaderEvent :=
  [arrives (peerPacket .stSyn 1 []), arrives (peerPacket .stData 2 [84])]

theorem byteArrives_patient :
    AllSteps readerStep Patient (some (Reader.start (.incoming 10))) byteArrives := by
  refine ⟨⟨fun hpush => ?_, fun htype => absurd rfl htype⟩, ?_, trivial⟩
  · cases hpush.1
  · have hshake : (readerStep (some (Reader.start (.incoming 10))) (arrives (peerPacket .stSyn 1 []))).map
        (fun r => (r.conn.fatal (peerPacket .stData 2 [84]), r.conn.localWnd.incomingPackets)) =
        some (false, []) := by
      decide +kernel
    obtain ⟨r, hr, hconn⟩ := Option.map_eq_some_iff.mp hshake
    obtain ⟨hfatal, hempty⟩ := Prod.mk.inj hconn
    rw [hr]
    refine ⟨fun _ _ _ front hfront => ?_, fun _ hc => ?_⟩
    · rw [show r.receiver.window.incomingPackets = [] from hempty] at hfront
      cases hfront
    · rw [hfatal] at hc
      cases hc

/-- The byte is read before the peer resets the connection. -/
theorem allStates_lossless_readThenReset :
    AllStates readerStep (fun s => ∃ r, s = some r ∧ Lossless r)
      (some (Reader.start (.incoming 10)))
      (byteArrives ++ [.recv 10, arrives (peerPacket .stReset 3 [])]) := by
  apply allStates_lossless 10 _ _ (.inl rfl)
  rw [allSteps_append]
  refine ⟨byteArrives_patient, ?_⟩
  have hread : (run readerStep (some (Reader.start (.incoming 10))) (byteArrives ++ [.recv 10])).map
      (fun r => r.conn.localWnd.bytesAvailable) = some 0 := by
    decide +kernel
  rw [run_append, run_cons, run_nil] at hread
  obtain ⟨r, hr, hbytes⟩ := Option.map_eq_some_iff.mp hread
  refine ⟨?_, ?_, trivial⟩
  · cases run readerStep (some (Reader.start (.incoming 10))) byteArrives <;> trivial
  · rw [hr]
    refine ⟨fun hpush => ?_, fun _ _ => hbytes⟩
    cases hpush.1

/-- **A reset takes the byte away.**  It was accepted and acknowledged, and the socket
returns `0` without it. -/
theorem reset_loses_byte :
    ¬ AllStates readerStep (fun s => ∃ r, s = some r ∧ Lossless r)
      (some (Reader.start (.incoming 10))) (byteArrives ++ [arrives (peerPacket .stReset 3 [])]) := by
  rintro ⟨-, -, -, r, hr, hlossless⟩
  -- the byte is in the window before the reset
  have hstart : ReadingState (some (Reader.start (.incoming 10))) := ⟨_, rfl, reading_start rfl⟩
  obtain ⟨r₂, hr₂, hreading⟩ := run_of_invariant readingState_step _ _ hstart byteArrives_patient
  obtain ⟨rest, hsplit, hlen⟩ := hreading.inOrder_eq
  have hbyte : (run readerStep (some (Reader.start (.incoming 10))) byteArrives).map
      (fun r => (r.conn.localWnd.bytesAvailable, r.output, r.conn.reset.state)) =
      some (1, [], .closed) := by
    decide +kernel
  rw [hr₂] at hbyte
  simp only [Option.map_some, Option.some.injEq, Prod.mk.injEq] at hbyte
  obtain ⟨hone, houtput, hclosed⟩ := hbyte
  -- the reset leaves what the observer has written down
  have hlast : readerStep (some r₂) (arrives (peerPacket .stReset 3 [])) = some r := by
    rw [← hr₂]
    exact hr
  have hkeep : { r₂ with conn := r₂.conn.reset } = r := by
    rw [← Reader.record_reset (p := peerPacket .stReset 3 []) rfl]
    exact Option.some.inj hlast
  subst hkeep
  have hsame : r₂.output = r₂.inOrder := hlossless.complete hclosed
  rw [hsplit, houtput, List.nil_append] at hsame
  rw [← hsame, List.length_nil, hone] at hlen
  cases hlen

end Utp
end KTorrent
