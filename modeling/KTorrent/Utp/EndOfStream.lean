import KTorrent.Utp.SentStream
import KTorrent.Utp.Server
import KTorrent.Utp.WindowNumbers

/-!
# The end of the stream

Two connections and a network between them that delivers any packet that was sent,
at any time.  A connection that has received the `ST_FIN` of its peer closes by
itself when both of its windows are empty; it does not compare the number of the
`ST_FIN` with the last packet that it has received.

* `Party` — a connection, what its window has accepted, and what its application
  has written and read.
* `EndsWell` — a connection that closes by itself has received and returned
  everything that its peer has written.
* `InTime` — the `ST_FIN` meets an empty vector, and the vector becomes empty, only
  when everything has arrived.
* `allSteps_endsWell` — then every connection ends well.
* `overtaking_fin_closes` — an `ST_FIN` that overtakes the data closes the connection.
-/

namespace KTorrent
namespace Utp

open Runs

/-- One end of the connection, as an observer sees it. -/
structure Party where
  conn : Connection
  /-- Numbers of the packets that the receive window has accepted. -/
  accepted : Finset ℕ
  /-- Everything that `recv` has returned. -/
  output : List UInt8
  /-- Everything that `send` has taken. -/
  written : List UInt8

/-- The number behind which a side numbers its data: the SYN and, on the other side, the
first state packet are the packets before it. -/
def Side.base : Side → ℕ
  | .initiator => 1
  | .acceptor => 4

namespace Party

/-- A party with a new connection. -/
def start (c : Connection) : Party := { conn := c, accepted := ∅, output := [], written := [] }

/-- The receive window with its observer. -/
def receiver (y : Party) : Receiver :=
  { window := y.conn.localWnd, accepted := y.accepted, output := y.output }

/-- The last packet that has been received without a gap. -/
def last (y : Party) (base : ℕ) : ℕ := lastInOrder y.accepted base

/-- A packet has made the connection `c`. -/
def record (y : Party) (p : Packet) (c : Connection) : Party :=
  { y with conn := c, accepted := if y.conn.Takes p then insert p.number y.accepted else y.accepted }

end Party

/-- What happens at one end.  A delivery takes the `i`-th packet that the other end has
sent; the other events are calls of the application and the timer. -/
inductive PartyEvent where
  | deliver (i : ℕ) (k : Clock)
  | send (now : ℕ) (data : List UInt8)
  | recv (maxLen : ℕ)
  | close (now : ℕ)
  | timeout (k : Clock) (maxReached keepAlive : Bool)

/-- One event at one end; `none` when a window is accessed outside its vector. -/
def Party.step (y : Party) (network : List Packet) : PartyEvent → Option Party
  | .deliver i k =>
    match network[i]? with
    | none => some y
    | some p => (y.conn.arrival k p).map (y.record p)
  | .send now data =>
    let (taken, c) := y.conn.send now data
    some { y with conn := c, written := y.written ++ taken.getD [] }
  | .recv maxLen =>
    (y.conn.recv maxLen).map fun (data, c) =>
      { y with conn := c, output := y.output ++ data.getD [] }
  | .close now => some { y with conn := y.conn.close now }
  | .timeout k maxReached keepAlive =>
    some { y with conn := y.conn.handleTimeout k maxReached keepAlive }

/-- Two ends. -/
def partiesStep : Option (Side → Party) → Side × PartyEvent → Option (Side → Party)
  | none, _ => none
  | some s, (side, e) => ((s side).step (s side.other).conn.sent e).map (Function.update s side)

/-- One end has sent its SYN, the other one waits for it. -/
def partiesStart (recvConnId : UInt16) : Side → Party
  | .initiator => .start (.connecting recvConnId)
  | .acceptor => .start (.incoming (recvConnId + 1))

/-! ## What is promised -/

/-- The connection has closed without a reset. -/
structure ClosesByItself (c c' : Connection) : Prop where
  before : c.state ≠ .closed
  after : c'.state = .closed
  noReset : ∀ p ∈ c'.sent.drop c.sent.length, p.type ≠ .stReset

/-- Everything before the `ST_FIN` with number `f` of the party `x` has been received, and
everything that was written has been returned. -/
def Complete (base : ℕ) (x y : Party) (f : UInt16) : Prop :=
  ∃ q ∈ x.conn.sent, q.type = .stFin ∧ q.seqNr = f ∧
    (∀ n, base < n → n < q.number → n ∈ y.accepted) ∧ y.output = x.written

/-- A connection that has received an `ST_FIN` and closes without a reset or a timeout has
received and returned everything. -/
def EndsWell : Option (Side → Party) → Side × PartyEvent → Prop
  | none, _ => True
  | some s, (side, e) =>
    ∀ y, (s side).step (s side.other).conn.sent e = some y → (∀ k m a, e ≠ .timeout k m a) →
      ClosesByItself (s side).conn y.conn → ∀ f, y.conn.eofSeqNr = some f →
        Complete side.other.base (s side.other) y f

/-! ## When it is kept -/

/-- The packets that a party can be given.  A data packet is less than `2 ^ 15` numbers
away; an `ST_FIN` meets an empty vector only when nothing before it is missing; and the
state packet of the handshake was sent before any data. -/
def Party.Hears (base : ℕ) (y : Party) (p : Packet) : Prop :=
  (y.conn.Pushes p → (y.last base < p.number + 32768 ∧ p.number < y.last base + 32768) ∧
    Ahead (some y.receiver) (.packet p.seqNr [] p.data)) ∧
  (p.type = .stFin → y.conn.state = .connected ∨ y.conn.state = .finished →
    y.conn.localWnd.incomingPackets = [] → p.number ≤ y.last base + 1) ∧
  (p.type = .stState → y.conn.state = .synSent → p.number = base + 1)

/-- A packet before an `ST_FIN` that was sent is missing. -/
def Party.Missing (base : ℕ) (y : Party) (network : List Packet) : Prop :=
  ∃ q ∈ network, q.type = .stFin ∧ y.last base + 1 < q.number

/-- A call of `recv` cannot take the last slot out of the vector: there are not more than
20 slots, it does not ask for all bytes, or the last slot waits behind a missing packet. -/
def Party.KeepsSlots (y : Party) (maxLen : ℕ) : Prop :=
  y.conn.localWnd.incomingPackets.length ≤ 20 ∨ maxLen < y.conn.localWnd.bytesAvailable ∨
    ∃ back, y.conn.localWnd.incomingPackets.getLast? = some back ∧
      back.seqNr ≠ y.conn.localWnd.lastSeqNr

/-- The events after which nothing is missing when it matters. -/
def InTime : Option (Side → Party) → Side × PartyEvent → Prop
  | none, _ => True
  | some s, (side, e) =>
    (∀ i k p, e = .deliver i k → (s side.other).conn.sent[i]? = some p →
      (s side).Hears side.other.base p) ∧
    ∀ maxLen, e = .recv maxLen → (s side).conn.state ≠ .closed → (s side).conn.eofSeqNr ≠ none →
      (s side).Missing side.other.base (s side.other).conn.sent → (s side).KeepsSlots maxLen

/-! ## The receiving side -/

/-- What a party has received of the stream of the connection `x`. -/
structure Hearing (base : ℕ) (payload : ℕ → List UInt8) (x : Connection) (y : Party) : Prop where
  /-- Nothing has happened before the handshake. -/
  fresh : y.conn.state = .idle ∨ y.conn.state = .synSent →
    y.receiver = Receiver.start receiveCapacity 0 ∧ y.conn.eofSeqNr = none
  layout : y.conn.state = .connected ∨ y.conn.state = .finished →
    ∃ L F pre mid post, Layout payload receiveCapacity base y.receiver L F pre mid post
  known : ∀ n ∈ y.accepted, base < n ∧ n < x.seqNr
  /-- When the vector is empty, nothing before the `ST_FIN` is missing. -/
  eof : ∀ f, y.conn.eofSeqNr = some f → ∃ q ∈ x.sent, q.type = .stFin ∧ q.seqNr = f ∧
    (y.conn.state = .connected ∨ y.conn.state = .finished →
      y.conn.localWnd.incomingPackets = [] → q.number ≤ y.last base + 1)

section Hearing

variable {base : ℕ} {payload payload' : ℕ → List UInt8} {written : List UInt8} {x x' : Connection}
  {y : Party} {c : Connection}

/-- The other party goes on sending. -/
theorem Hearing.grow (h : Hearing base payload x y) (hnext : x.seqNr ≤ x'.seqNr)
    (hsent : x.sent <+: x'.sent) (hagree : ∀ n, n < x.seqNr → payload' n = payload n) :
    Hearing base payload' x' y where
  fresh := h.fresh
  layout := by
    intro hstate
    obtain ⟨L, F, pre, mid, post, hlay⟩ := h.layout hstate
    exact ⟨L, F, pre, mid, post, hlay.congr_payload fun n hn => hagree n (h.known n hn).2⟩
  known := fun n hn => ⟨(h.known n hn).1, (h.known n hn).2.trans_le hnext⟩
  eof := by
    intro f hf
    obtain ⟨q, hq, hrest⟩ := h.eof f hf
    exact ⟨q, hsent.subset hq, hrest⟩

/-- Events that leave the window alone. -/
theorem Hearing.keep (h : Hearing base payload x y) (hwnd : c.localWnd = y.conn.localWnd)
    (heof : c.eofSeqNr = y.conn.eofSeqNr)
    (hfresh : c.state = .idle ∨ c.state = .synSent → y.conn.state = .idle ∨ y.conn.state = .synSent)
    (hopen : c.state = .connected ∨ c.state = .finished →
      y.conn.state = .connected ∨ y.conn.state = .finished) :
    Hearing base payload x { y with conn := c } where
  fresh := by
    intro hs
    unfold Party.receiver
    rw [heof, hwnd]
    exact h.fresh (hfresh hs)
  layout := by
    intro hs
    unfold Party.receiver
    rw [hwnd]
    exact h.layout (hopen hs)
  known := h.known
  eof := by
    intro f hf
    obtain ⟨q, hq, htype, hseq, hle⟩ := h.eof f (heof ▸ hf)
    refine ⟨q, hq, htype, hseq, fun hs hempty => ?_⟩
    exact hle (hopen hs) (hwnd ▸ hempty)

theorem Hearing.sends (h : Hearing base payload x y) (hs : Sends y.conn c) :
    Hearing base payload x { y with conn := c } := by
  refine h.keep hs.localWnd hs.eofSeqNr ?_ ?_
  · rw [hs.state]
    exact id
  · rw [hs.state]
    exact id

/-- The connection is closed; what it has received no longer matters. -/
theorem Hearing.shut (h : Hearing base payload x y) (hstate : c.state = .closed)
    (heof : c.eofSeqNr = y.conn.eofSeqNr) : Hearing base payload x { y with conn := c } where
  fresh := by
    intro hs
    rw [show c.state = _ from hstate] at hs
    rcases hs with hs | hs <;> cases hs
  layout := by
    intro hs
    rw [show c.state = _ from hstate] at hs
    rcases hs with hs | hs <;> cases hs
  known := h.known
  eof := by
    intro f hf
    obtain ⟨q, hq, htype, hseq, -⟩ := h.eof f (heof ▸ hf)
    refine ⟨q, hq, htype, hseq, fun hs => ?_⟩
    rw [show c.state = _ from hstate] at hs
    rcases hs with hs | hs <;> cases hs

theorem Hearing.settles (h : Hearing base payload x y) (hs : Settles y.conn c) :
    Hearing base payload x { y with conn := c } := by
  rcases hs with hs | ⟨b, hs, hclose⟩
  · exact h.sends hs
  · rw [hclose.closed]
    exact h.shut rfl hs.eofSeqNr

/-! ## Packets -/

/-- The handshake: the window starts behind the first number. -/
theorem Hearing.established (h : Hearing base payload x y) {lsn : UInt16}
    (hstate : y.conn.state = .idle ∨ y.conn.state = .synSent) (hlsn : lsn = UInt16.ofNat base) :
    Hearing base payload x { y with
      conn := { y.conn with state := .connected, localWnd := y.conn.localWnd.setLastSeqNr lsn } } := by
  obtain ⟨hstart, heof⟩ := h.fresh hstate
  have hwindow : y.conn.localWnd = (LocalWindow.new receiveCapacity).setLastSeqNr (UInt16.ofNat 0) :=
    congrArg Receiver.window hstart
  have haccepted : y.accepted = ∅ := congrArg Receiver.accepted hstart
  have houtput : y.output = [] := congrArg Receiver.output hstart
  have hrecv : Party.receiver { y with conn := { y.conn with
      state := .connected, localWnd := y.conn.localWnd.setLastSeqNr lsn } } =
      Receiver.start receiveCapacity base := by
    unfold Party.receiver Receiver.start
    rw [hlsn, haccepted, houtput, hwindow]
    rfl
  refine ⟨?_, ?_, h.known, ?_⟩
  · rintro (hs | hs) <;> cases hs
  · intro _
    rw [hrecv]
    exact ⟨base, base + 1, [], [], [], layout_start payload receiveCapacity base⟩
  · intro f hf
    rw [show y.conn.eofSeqNr = some f from hf] at heof
    cases heof

/-- A data packet is stored under the number that it was sent with. -/
theorem Hearing.pushed (h : Hearing base payload x y) {p : Packet} {w : LocalWindow}
    (hpush : y.conn.Pushes p) (hear : y.Hears base p) (hfatal : y.conn.fatal p = false)
    (hdata : base < p.number ∧ p.number < x.seqNr ∧ p.data = payload p.number)
    (hrecv : y.conn.localWnd.packetReceived p.seqNr p.data 0 = some (true, w)) :
    Hearing base payload x (y.record p { y.conn with localWnd := w }) := by
  obtain ⟨⟨hold, hfar⟩, hahead⟩ := hear.1 hpush
  obtain ⟨hnew, hclosed⟩ := hpush.state
  have hopen : y.conn.state = .connected ∨ y.conn.state = .finished := by
    rcases hpush.2 with hs | ⟨hs, -⟩
    · exact .inl hs
    · exact .inr hs
  obtain ⟨L, F, pre, mid, post, hlay⟩ := h.layout hopen
  have hlast : y.last base = L := hlay.last_inOrder.eq
  rw [hlast] at hold hfar
  have hlastSeqNr : y.conn.localWnd.lastSeqNr = UInt16.ofNat L := hlay.last
  have hcmp : seqNrCmpSE p.seqNr y.conn.localWnd.lastSeqNr = decide (p.number ≤ L) := by
    rw [hlastSeqNr]
    exact seqNrCmpSE_ofNat hfar hold
  have hroom := hpush.not_refuses hfatal
  by_cases hle : p.number ≤ L
  · -- an old packet is dropped
    rw [decide_eq_true hle] at hcmp
    have hsame : w = y.conn.localWnd := by
      simp only [LocalWindow.packetReceived, hcmp, if_true, Option.some.injEq, Prod.mk.injEq,
        true_and] at hrecv
      exact hrecv.symm
    have hnot : ¬ y.conn.Takes p := fun ht => by rw [ht.2.1] at hcmp; cases hcmp
    rw [hsame, Party.record, if_neg hnot]
    exact h
  · rw [decide_eq_false hle] at hcmp
    have hfits := Connection.room_of_not_refuses hroom hcmp
    have hnumber : y.receiver.numberOf base p.seqNr = p.number := by
      obtain ⟨hs, hlt, hnear⟩ := hlay.numberOf_spec hcmp
      exact ofNat_inj_of_near (by omega) (by omega) hs
    have hnear : p.number < F + 32768 := by
      rw [← hnumber]
      exact hlay.near_of_ahead hahead hcmp hfits
    have htakes : y.conn.Takes p := ⟨hpush, hcmp, hroom⟩
    rw [Party.record, if_pos htakes]
    have hknown : ∀ n ∈ insert p.number y.accepted, base < n ∧ n < x.seqNr := by
      intro n hn
      rcases Finset.mem_insert.mp hn with rfl | hn
      · exact ⟨hdata.1, hdata.2.1⟩
      · exact h.known n hn
    rcases hlay.packetReceived (not_le.mp hle) hnear hcmp [] (fun _ => hdata.2.2.symm) with
      ⟨hsmall, -⟩ | ⟨-, hmem, hrecv'⟩ | ⟨-, -, w', L', mid', post', hrecv', hlay', hlen⟩
    · exact absurd hsmall (not_lt.mpr hfits)
    · -- the window has the packet already
      have hsame : w = y.conn.localWnd := by
        rw [show y.conn.localWnd.packetReceived p.seqNr p.data 0 = _ from hrecv'] at hrecv
        exact (Prod.mk.inj (Option.some.inj hrecv)).2.symm
      rw [hsame, Finset.insert_eq_of_mem (show p.number ∈ y.accepted from hmem)]
      exact h
    · obtain rfl : w = w' := by
        rw [show y.conn.localWnd.packetReceived p.seqNr p.data 0 = _ from hrecv'] at hrecv
        exact (Prod.mk.inj (Option.some.inj hrecv)).2.symm
      refine ⟨fun hs => absurd hs hnew, fun _ => ⟨L', F, pre, mid', post', hlay'⟩, hknown, ?_⟩
      intro f hf
      obtain ⟨q, hq, htype, hseq, -⟩ := h.eof f hf
      refine ⟨q, hq, htype, hseq, fun _ hempty => ?_⟩
      -- the packet that has been stored is in the vector
      have hnil := hlay'.packets.symm.trans hempty
      simp only [List.append_eq_nil_iff] at hnil
      obtain ⟨rfl, rfl, rfl⟩ := hnil
      have hpos := hlay.position
      have hpos' := hlay'.position
      have hge : p.number ≤ L' := by
        rw [List.length_nil, Nat.add_zero] at hlen
        rw [hlen]
        exact le_max_right _ _
      simp only [List.length_nil, Nat.add_zero] at hpos'
      omega

/-- **One packet.**  What `handlePacket` does is something that keeps the invariant, and
after that it sends and checks. -/
theorem Hearing.handled (h : Hearing base payload x y) (hx : Sending base payload written x)
    {p : Packet} (hp : p ∈ x.sent) (hear : y.Hears base p) (hfatal : y.conn.fatal p = false)
    (hhandled : Handled y.conn p c) :
    ∃ a, Hearing base payload x (y.record p a) ∧ Settles a c ∧
      (a.state = .closed → y.conn.state = .closed) := by
  have hkeep : p.type ≠ .stData → ∀ a, y.record p a = { y with conn := a } := by
    intro htype a
    rw [Party.record, if_neg (Connection.not_takes htype)]
  cases hhandled with
  | ignored state sends =>
    refine ⟨y.conn, ?_, .inl sends, id⟩
    rw [Party.record, if_neg fun ht => ht.1.state.2 state]
    exact h
  | opened state type sends =>
    refine ⟨_, ?_, .inl sends, fun hc => by cases hc⟩
    rw [hkeep (by rw [type]; decide)]
    apply h.established (.inr state)
    -- the state packet was sent before any data
    rw [Packet.seqNr, hear.2.2 type state, ← ofNat_succ, UInt16.add_sub_cancel]
  | accepted state type sends =>
    refine ⟨_, ?_, .inl sends, fun hc => by cases hc⟩
    rw [hkeep (by rw [type]; decide)]
    apply h.established (.inl state)
    rw [Packet.seqNr, hx.syn p hp type]
  | pushed w pushes push settles =>
    exact ⟨_, h.pushed pushes hear hfatal (hx.data p hp pushes.1) push, settles, id⟩
  | dropped state type beyond settles =>
    refine ⟨y.conn, ?_, settles, id⟩
    rw [Party.record, if_neg]
    · exact h
    · rintro ⟨⟨-, hc | hc⟩, -⟩
      · rw [state] at hc
        cases hc
      · rw [hc.2] at beyond
        cases beyond
  | acks state type settles =>
    refine ⟨y.conn, ?_, settles, id⟩
    rw [hkeep (by rw [type]; decide)]
    exact h
  | ended state type settles =>
    refine ⟨_, ?_, settles, fun hc => by cases hc⟩
    rw [hkeep (by rw [type]; decide)]
    refine ⟨?_, fun _ => h.layout state, h.known, ?_⟩
    · rintro (hs | hs) <;> cases hs
    · intro f hf
      obtain rfl : p.seqNr = f := Option.some.inj hf
      exact ⟨p, hp, type, rfl, fun _ hempty => hear.2.1 type state hempty⟩

/-! ## Reading -/

/-- A call of `recv` that keeps slots does not empty the vector. -/
theorem read_ne_nil {L F F' : ℕ} {pre mid post pre' mid' : List WindowPacket} {maxLen : ℕ}
    {data : List UInt8} {w : LocalWindow}
    (hlay : Layout payload receiveCapacity base y.receiver L F pre mid post)
    (hlay' : Layout payload receiveCapacity base
      { y.receiver with window := w, output := y.receiver.output ++ data } L F' pre' mid' post)
    (hread : y.conn.localWnd.read maxLen = some (data, w))
    (hdrop : 20 < y.conn.localWnd.incomingPackets.length ∨
      w.incomingPackets.length = y.conn.localWnd.incomingPackets.length)
    (hkeeps : y.KeepsSlots maxLen) (hne : y.conn.localWnd.incomingPackets ≠ []) :
    w.incomingPackets ≠ [] := by
  intro hempty
  have hnil := hlay'.packets.symm.trans hempty
  simp only [List.append_eq_nil_iff] at hnil
  obtain ⟨rfl, rfl, rfl⟩ := hnil
  rcases hkeeps with hfew | hshort | ⟨back, hback, hhole⟩
  · rcases hdrop with hmany | hsame
    · omega
    · rw [hempty, List.length_nil] at hsame
      exact hne (List.length_eq_zero_iff.mp hsame.symm)
  · -- all bytes have been handed over, which is more than there was room for
    have hold := congrArg List.length hlay.bytes
    have hnew := congrArg List.length hlay'.bytes
    have hav : y.conn.localWnd.bytesAvailable = (unreadAll mid).length := hlay.available
    have hle := read_length_le hread
    simp only [List.length_append, unreadAll_nil, List.length_nil] at hold hnew
    omega
  · -- nothing waits behind a missing packet
    apply hhole
    cases hpk : y.conn.localWnd.incomingPackets with
    | nil => exact absurd hpk hne
    | cons front rest =>
      have hcons : front :: rest = pre ++ (mid ++ []) := by
        rw [← hpk]
        exact hlay.packets
      rw [hpk, List.getLast?_eq_some_getLast (List.cons_ne_nil front rest), Option.some.injEq] at hback
      rw [← hback, hlay.back_seqNr hcons, List.length_nil, Nat.add_zero]
      exact hlay.last.symm

theorem Hearing.recv (h : Hearing base payload x y) {maxLen : ℕ} {data : List UInt8} {w : LocalWindow}
    (hkeeps : y.conn.state ≠ .closed → y.conn.eofSeqNr ≠ none → y.Missing base x.sent →
      y.KeepsSlots maxLen)
    (hread : y.conn.localWnd.read maxLen = some (data, w)) :
    Hearing base payload x
      { y with conn := { y.conn with localWnd := w }, output := y.output ++ data } := by
  have hne : y.conn.localWnd.incomingPackets ≠ [] := by
    intro hnil
    simp only [LocalWindow.read, hnil] at hread
    cases hread
  -- the layout, where there is one
  have hlayout : y.conn.state = .connected ∨ y.conn.state = .finished →
      ∃ L F pre mid F' pre' mid' post, Layout payload receiveCapacity base y.receiver L F pre mid post ∧
        Layout payload receiveCapacity base
          { y.receiver with window := w, output := y.receiver.output ++ data } L F' pre' mid' post ∧
        (20 < y.conn.localWnd.incomingPackets.length ∨
          w.incomingPackets.length = y.conn.localWnd.incomingPackets.length) := by
    intro hstate
    obtain ⟨L, F, pre, mid, post, hlay⟩ := h.layout hstate
    obtain ⟨d, w', F', pre', mid', hread', hlay', -, -, hdrop⟩ := hlay.read maxLen hne
    rw [show y.conn.localWnd.read maxLen = _ from hread'] at hread
    obtain ⟨rfl, rfl⟩ := Prod.mk.inj (Option.some.inj hread)
    exact ⟨L, F, pre, mid, F', pre', mid', post, hlay, hlay', hdrop⟩
  refine ⟨?_, ?_, h.known, ?_⟩
  · intro hs
    have hempty : y.conn.localWnd.incomingPackets = [] :=
      congrArg (fun r => r.window.incomingPackets) (h.fresh hs).1
    exact absurd hempty hne
  · intro hs
    obtain ⟨L, -, -, -, F', pre', mid', post, -, hlay', -⟩ := hlayout hs
    exact ⟨L, F', pre', mid', post, hlay'⟩
  · intro f hf
    obtain ⟨q, hq, htype, hseq, -⟩ := h.eof f hf
    refine ⟨q, hq, htype, hseq, fun hs hempty => ?_⟩
    by_contra hmissing
    obtain ⟨L, F, pre, mid, F', pre', mid', post, hlay, hlay', hdrop⟩ := hlayout hs
    have hopen : y.conn.state ≠ .closed := by
      rcases hs with hs | hs
      · rw [show y.conn.state = _ from hs]
        decide
      · rw [show y.conn.state = _ from hs]
        decide
    have hslots := hkeeps hopen (by rw [show y.conn.eofSeqNr = some f from hf]; simp)
      ⟨q, hq, htype, not_le.mp hmissing⟩
    exact read_ne_nil hlay hlay' hread hdrop hslots hne hempty

/-! ## The end -/

/-- **The end of the stream.**  When both windows are empty, everything has been received
and returned. -/
theorem Hearing.complete (h : Hearing base payload x y) (hx : Sending base payload written x)
    (hstate : y.conn.state = .finished) (hempty : y.conn.localWnd.incomingPackets = []) {f : UInt16}
    (hf : y.conn.eofSeqNr = some f) :
    ∃ q ∈ x.sent, q.type = .stFin ∧ q.seqNr = f ∧ (∀ n, base < n → n < q.number → n ∈ y.accepted) ∧
      y.output = written := by
  obtain ⟨q, hq, htype, hseq, hle⟩ := h.eof f hf
  have hnumber := hle (.inr hstate) hempty
  obtain ⟨hend, hfin⟩ := hx.fin q hq htype
  obtain ⟨hbuffer, -⟩ := hx.finished hfin
  obtain ⟨L, F, pre, mid, post, hlay⟩ := h.layout (.inr hstate)
  rw [show y.last base = L from hlay.last_inOrder.eq] at hnumber
  have hlt : L < x.seqNr := by
    rcases Nat.eq_or_lt_of_le hlay.last_inOrder.le with heq | hlt
    · rw [← heq]
      exact hx.next
    · exact (h.known L (hlay.last_inOrder.mem L hlt le_rfl)).2
  refine ⟨q, hq, htype, hseq, fun n h₁ h₂ => hlay.last_inOrder.mem n h₁ (by omega), ?_⟩
  have hnil := hlay.packets.symm.trans hempty
  simp only [List.append_eq_nil_iff] at hnil
  obtain ⟨rfl, rfl, rfl⟩ := hnil
  have hbytes := hlay.bytes
  rw [unreadAll_nil, List.append_nil] at hbytes
  have hall : written = stream payload base (x.seqNr - 1) := by
    rw [hx.bytes, hbuffer, List.append_nil]
  have hL : L = x.seqNr - 1 := by omega
  rw [hall, ← hL]
  exact hbytes

/-- The connection closes when it settles. -/
theorem Hearing.complete_settles (h : Hearing base payload x y) (hx : Sending base payload written x)
    (hs : Settles y.conn c) (hopen : y.conn.state ≠ .closed) (hclosed : c.state = .closed) {f : UInt16}
    (hf : c.eofSeqNr = some f) :
    ∃ q ∈ x.sent, q.type = .stFin ∧ q.seqNr = f ∧ (∀ n, base < n → n < q.number → n ∈ y.accepted) ∧
      y.output = written := by
  rcases hs with hs | ⟨b, hs, hclose⟩
  · rw [hs.state] at hclosed
    exact absurd hclosed hopen
  · have heof : b.eofSeqNr = some f := by
      rw [hclose.closed] at hf
      exact hf
    exact (h.sends hs).complete hx hclose.state hclose.empty heof

end Hearing

/-! ## One event -/

section Step

variable {base base' : ℕ} {payload payload' : ℕ → List UInt8} {x y y' : Party} {c : Connection}
  {k : Clock} {p : Packet} {network : List Packet} {e : PartyEvent}

/-- A reset is among the packets that were sent last. -/
def ResetSent (c c' : Connection) : Prop := ∃ r ∈ c'.sent.drop c.sent.length, r.type = .stReset

theorem resetSent_append {c c' : Connection} {new : List Packet} (hsent : c'.sent = c.sent ++ new)
    (hreset : ∃ r ∈ new, r.type = .stReset) : ResetSent c c' := by
  unfold ResetSent
  rw [hsent, List.drop_left]
  exact hreset

theorem resetSent_abort (c : Connection) (k : Clock) (p : Packet) :
    ResetSent c (c.packetAcks k p).abort := by
  obtain ⟨new, hnew, -⟩ := (Connection.sends_packetAcks c k p).sent
  have hsent : (c.packetAcks k p).abort.sent = (c.packetAcks k p).sent ++ _ := rfl
  rw [hnew, List.append_assoc] at hsent
  apply resetSent_append hsent
  exact ⟨_, List.mem_append_right _ (List.mem_singleton_self _), rfl⟩

/-- What a packet does: something that keeps the invariant, and then sending and checking;
or the connection is given up with a reset. -/
theorem Hearing.handlePacket (h : Hearing base payload x.conn y)
    (hx : Sending base payload x.written x.conn) (hp : p ∈ x.conn.sent) (hear : y.Hears base p)
    (hhandle : y.conn.handlePacket k p = some c) :
    (∃ a, Hearing base payload x.conn (y.record p a) ∧ Settles a c ∧
      (a.state = .closed → y.conn.state = .closed)) ∨
    Hearing base payload x.conn (y.record p c) ∧ ResetSent y.conn c := by
  cases hfatal : y.conn.fatal p with
  | true =>
    right
    rw [Connection.handlePacket_fatal hfatal, Option.some.injEq] at hhandle
    subst hhandle
    refine ⟨?_, resetSent_abort y.conn k p⟩
    rw [Party.record, if_neg fun ht => by rw [ht.not_fatal] at hfatal; cases hfatal]
    exact h.shut rfl (Connection.sends_packetAcks y.conn k p).eofSeqNr
  | false =>
    exact .inl (h.handled hx hp hear hfatal (Connection.handlePacket_cases hfatal hhandle))

theorem Hearing.arrival (h : Hearing base payload x.conn y)
    (hx : Sending base payload x.written x.conn) (hp : p ∈ x.conn.sent) (hear : y.Hears base p)
    (harrival : y.conn.arrival k p = some c) :
    (∃ a, Hearing base payload x.conn (y.record p a) ∧ Settles a c ∧
      (a.state = .closed → y.conn.state = .closed)) ∨
    Hearing base payload x.conn (y.record p c) ∧ ResetSent y.conn c := by
  unfold Connection.arrival at harrival
  -- the packets that the server does not pass on
  have hrest : p.type ≠ .stData → ∃ a, Hearing base payload x.conn (y.record p a) ∧ Settles a y.conn ∧
      (a.state = .closed → y.conn.state = .closed) := by
    intro htype
    refine ⟨y.conn, ?_, .inl (Sends.refl _), id⟩
    rw [Party.record, if_neg (Connection.not_takes htype)]
    exact h
  cases htype : p.type with
  | stData => simp only [htype] at harrival; exact h.handlePacket hx hp hear harrival
  | stFin => simp only [htype] at harrival; exact h.handlePacket hx hp hear harrival
  | stState => simp only [htype] at harrival; exact h.handlePacket hx hp hear harrival
  | stReset =>
    simp only [htype, Option.some.injEq] at harrival
    subst harrival
    by_cases hstate : y.conn.state = .closed
    · rw [show y.conn.reset = y.conn from if_neg fun hc => hc hstate]
      exact .inl (hrest (by rw [htype]; decide))
    · right
      rw [Party.record, if_neg (Connection.not_takes (by rw [htype]; decide)), Connection.reset,
        if_pos hstate]
      refine ⟨h.shut rfl rfl, ?_⟩
      exact resetSent_append rfl ⟨_, List.mem_singleton_self _, rfl⟩
  | stSyn =>
    simp only [htype] at harrival
    split at harrival
    · exact h.handlePacket hx hp hear harrival
    · obtain rfl := Option.some.inj harrival
      exact .inl (hrest (by rw [htype]; decide))

/-- **The receiving side** keeps its invariant. -/
theorem hearing_step (h : Hearing base payload x.conn y) (hx : Sending base payload x.written x.conn)
    (hears : ∀ i k p, e = .deliver i k → x.conn.sent[i]? = some p → y.Hears base p)
    (hkeeps : ∀ maxLen, e = .recv maxLen → y.conn.state ≠ .closed → y.conn.eofSeqNr ≠ none →
      y.Missing base x.conn.sent → y.KeepsSlots maxLen)
    (hstep : y.step x.conn.sent e = some y') : Hearing base payload x.conn y' := by
  cases e with
  | deliver i k =>
    simp only [Party.step] at hstep
    split at hstep
    · cases hstep
      exact h
    · rename_i p hp
      obtain ⟨c, hc, rfl⟩ := Option.map_eq_some_iff.mp hstep
      rcases h.arrival hx (List.mem_of_getElem? hp) (hears i k p rfl hp) hc with
        ⟨a, ha, hs, -⟩ | ⟨hc, -⟩
      · exact ha.settles hs
      · exact hc
  | send now data =>
    simp only [Party.step, Option.some.injEq] at hstep
    subst hstep
    obtain ⟨hfresh, hlayout, hknown, heof⟩ := h.sends (Connection.sends_send y.conn now data)
    exact ⟨hfresh, hlayout, hknown, heof⟩
  | recv maxLen =>
    obtain ⟨⟨r, c⟩, hrecv, rfl⟩ := Option.map_eq_some_iff.mp hstep
    rcases Connection.recv_cases hrecv with ⟨rfl, rfl, -, -⟩ | ⟨data, w, rfl, hread, hs⟩
    · have hcheck := h.settles (Connection.settles_checkIfClosed y.conn)
      show Hearing base payload x.conn { y with conn := _, output := y.output ++ [] }
      rw [List.append_nil]
      exact hcheck
    · have hne : y.conn.localWnd.incomingPackets ≠ [] := by
        intro hnil
        simp only [LocalWindow.read, hnil] at hread
        cases hread
      rw [Connection.checkIfClosed_nonempty hne] at hs
      exact (h.recv (hkeeps maxLen rfl) hread).sends hs
  | close now =>
    cases hstep
    rcases Connection.close_cases y.conn now with ⟨hstate, hs⟩ | hsame
    · apply h.keep hs.localWnd hs.eofSeqNr
      · rw [hs.state]
        rintro (hc | hc) <;> cases hc
      · exact fun _ => .inl hstate
    · rw [hsame]
      exact h
  | timeout k maxReached keepAlive =>
    obtain rfl := Option.some.inj hstep
    rcases Connection.handleTimeout_cases y.conn k maxReached keepAlive with
      ⟨-, heq⟩ | ⟨-, hstate, b, hs, heq⟩ | hs
    · rw [heq]
      exact h.shut rfl rfl
    · rw [heq]
      refine h.keep hs.localWnd hs.eofSeqNr ?_ fun _ => .inl hstate
      rintro (hc | hc) <;> cases hc
    · exact h.sends hs

/-- **The sending side** goes on with its stream. -/
theorem sending_step (h : Sending base payload y.written y.conn) (hstep : y.step network e = some y') :
    ∃ payload', (∀ n, n < y.conn.seqNr → payload' n = payload n) ∧ y.conn.seqNr ≤ y'.conn.seqNr ∧
      y.conn.sent <+: y'.conn.sent ∧ Sending base payload' y'.written y'.conn := by
  cases e with
  | deliver i k =>
    simp only [Party.step] at hstep
    split at hstep
    · cases hstep
      exact Grows.refl _ payload h
    · rename_i p hp
      obtain ⟨c, hc, rfl⟩ := Option.map_eq_some_iff.mp hstep
      suffices hgrows : Grows base y.written y.conn c from hgrows payload h
      unfold Connection.arrival at hc
      cases htype : p.type with
      | stData => simp only [htype] at hc; exact grows_handlePacket hc
      | stFin => simp only [htype] at hc; exact grows_handlePacket hc
      | stState => simp only [htype] at hc; exact grows_handlePacket hc
      | stReset =>
        simp only [htype, Option.some.injEq] at hc
        subst hc
        exact grows_reset
      | stSyn =>
        simp only [htype] at hc
        split at hc
        · exact grows_handlePacket hc
        · cases hc
          exact Grows.refl _
  | send now data =>
    simp only [Party.step, Option.some.injEq] at hstep
    subst hstep
    unfold Connection.send
    split
    · rename_i hstate
      exact grows_sendPackets now payload (h.write hstate _)
    · simp only [Option.getD_none, List.append_nil]
      exact Grows.refl _ payload h
  | recv maxLen =>
    obtain ⟨⟨r, c⟩, hrecv, rfl⟩ := Option.map_eq_some_iff.mp hstep
    exact grows_recv hrecv payload h
  | close now =>
    obtain rfl := Option.some.inj hstep
    exact grows_close now payload h
  | timeout k maxReached keepAlive =>
    obtain rfl := Option.some.inj hstep
    exact grows_handleTimeout k maxReached keepAlive payload h

/-- **A connection that closes by itself** has received and returned everything. -/
theorem complete_step (h : Hearing base payload x.conn y) (hx : Sending base payload x.written x.conn)
    (hears : ∀ i k p, e = .deliver i k → x.conn.sent[i]? = some p → y.Hears base p)
    (hstep : y.step x.conn.sent e = some y') (htimeout : ∀ k m a, e ≠ .timeout k m a)
    (hcloses : ClosesByItself y.conn y'.conn) {f : UInt16} (hf : y'.conn.eofSeqNr = some f) :
    Complete base x y' f := by
  obtain ⟨hbefore, hafter, hreset⟩ := hcloses
  cases e with
  | deliver i k =>
    simp only [Party.step] at hstep
    split at hstep
    · cases hstep
      exact absurd hafter hbefore
    · rename_i p hp
      obtain ⟨c, hc, rfl⟩ := Option.map_eq_some_iff.mp hstep
      rcases h.arrival hx (List.mem_of_getElem? hp) (hears i k p rfl hp) hc with
        ⟨a, ha, hs, hopen⟩ | ⟨-, r, hr, htype⟩
      · exact ha.complete_settles hx hs (fun hc => hbefore (hopen hc)) hafter hf
      · exact absurd htype (hreset r hr)
  | send now data =>
    simp only [Party.step, Option.some.injEq] at hstep
    subst hstep
    rw [(Connection.sends_send y.conn now data).state] at hafter
    exact absurd hafter hbefore
  | recv maxLen =>
    obtain ⟨⟨r, c⟩, hrecv, rfl⟩ := Option.map_eq_some_iff.mp hstep
    rcases Connection.recv_cases hrecv with ⟨rfl, rfl, -, -⟩ | ⟨data, w, rfl, hread, hs⟩
    · obtain ⟨q, hq, htype, hseq, hall, houtput⟩ :=
        h.complete_settles hx (Connection.settles_checkIfClosed y.conn) hbefore hafter hf
      refine ⟨q, hq, htype, hseq, hall, ?_⟩
      show y.output ++ [] = x.written
      rw [List.append_nil]
      exact houtput
    · have hne : y.conn.localWnd.incomingPackets ≠ [] := by
        intro hnil
        simp only [LocalWindow.read, hnil] at hread
        cases hread
      rw [Connection.checkIfClosed_nonempty hne] at hs
      rw [hs.state] at hafter
      exact absurd hafter hbefore
  | close now =>
    obtain rfl := Option.some.inj hstep
    rcases Connection.close_cases y.conn now with ⟨-, hs⟩ | hsame
    · rw [hs.state] at hafter
      cases hafter
    · rw [hsame] at hafter
      exact absurd hafter hbefore
  | timeout k maxReached keepAlive => exact absurd rfl (htimeout k maxReached keepAlive)

end Step

/-! ## Whole runs -/

/-- Both directions of the connection. -/
def Talking : Option (Side → Party) → Prop
  | none => True
  | some s => ∃ payload : Side → ℕ → List UInt8, ∀ side,
    Sending side.base (payload side) (s side).written (s side).conn ∧
      Hearing side.base (payload side) (s side).conn (s side.other)

theorem Side.other_other (side : Side) : side.other.other = side := by
  cases side <;> rfl

theorem Side.eq_other {side side' : Side} (h : side' ≠ side) : side' = side.other := by
  cases side <;> cases side'
  · exact absurd rfl h
  · rfl
  · rfl
  · exact absurd rfl h

theorem Side.other_ne (side : Side) : side.other ≠ side := by
  cases side <;> decide

theorem talking_step (s : Option (Side → Party)) (a : Side × PartyEvent) (h : Talking s)
    (hok : InTime s a) : Talking (partiesStep s a) := by
  cases s with
  | none => trivial
  | some s =>
    obtain ⟨side, e⟩ := a
    obtain ⟨payload, hall⟩ := h
    cases hstep : (s side).step (s side.other).conn.sent e with
    | none =>
      simp only [partiesStep, hstep, Option.map_none]
      trivial
    | some y =>
      simp only [partiesStep, hstep, Option.map_some]
      obtain ⟨hsending, hheard⟩ := hall side
      obtain ⟨hx, hhearing⟩ := hall side.other
      rw [Side.other_other] at hhearing
      obtain ⟨payload', hagree, hnext, hsent, hsending'⟩ := sending_step hsending hstep
      have hhearing' := hearing_step hhearing hx hok.1 hok.2 hstep
      refine ⟨Function.update payload side payload', fun side' => ?_⟩
      by_cases hside : side' = side
      · subst hside
        rw [Function.update_self, Function.update_self, Function.update_of_ne (Side.other_ne side')]
        exact ⟨hsending', hheard.grow hnext hsent hagree⟩
      · obtain rfl := Side.eq_other hside
        rw [Function.update_of_ne hside, Function.update_of_ne hside, Side.other_other,
          Function.update_self]
        exact ⟨hx, hhearing'⟩

theorem endsWell_of_talking (s : Option (Side → Party)) (a : Side × PartyEvent) (h : Talking s)
    (hok : InTime s a) : EndsWell s a := by
  cases s with
  | none => trivial
  | some s =>
    obtain ⟨side, e⟩ := a
    obtain ⟨payload, hall⟩ := h
    obtain ⟨hx, hhearing⟩ := hall side.other
    rw [Side.other_other] at hhearing
    intro y hstep htimeout hcloses f hf
    exact complete_step hhearing hx hok.1 hstep htimeout hcloses hf

theorem hearing_start {base : ℕ} {payload : ℕ → List UInt8} {x c : Connection}
    (hstate : c.state = .idle ∨ c.state = .synSent) (heof : c.eofSeqNr = none)
    (hwnd : c.localWnd = LocalWindow.new receiveCapacity) : Hearing base payload x (Party.start c) where
  fresh := by
    intro _
    refine ⟨?_, heof⟩
    unfold Party.receiver Party.start Receiver.start
    rw [hwnd]
    rfl
  layout := by
    intro hs
    have hs' : c.state = .connected ∨ c.state = .finished := hs
    rcases hstate with hc | hc <;> rcases hs' with hs' | hs' <;> cases hc.symm.trans hs'
  known := fun n hn => by cases hn
  eof := by
    intro f hf
    rw [show c.eofSeqNr = some f from hf] at heof
    cases heof

theorem sending_incoming (id : UInt16) : Sending 4 (fun _ => []) [] (.incoming id) where
  next := Nat.lt_succ_self 4
  bytes := rfl
  unacked := fun k hk => by cases hk
  data := fun p hp => by cases hp
  fin := fun p hp => by cases hp
  syn := fun p hp => by cases hp
  finished := fun hfin => by cases hfin

theorem sending_connecting (id : UInt16) : Sending 1 (fun _ => []) [] (.connecting id) where
  next := Nat.lt_succ_self 1
  bytes := rfl
  unacked := fun k hk => by cases hk
  data := by
    intro p hp htype
    rw [List.mem_singleton.mp hp] at htype
    cases htype
  fin := by
    intro p hp htype
    rw [List.mem_singleton.mp hp] at htype
    cases htype
  syn := by
    intro p hp _
    rw [List.mem_singleton.mp hp]
  finished := fun hfin => by cases hfin

theorem talking_start (recvConnId : UInt16) : Talking (some (partiesStart recvConnId)) := by
  refine ⟨fun _ _ => [], fun side => ?_⟩
  cases side with
  | initiator => exact ⟨sending_connecting recvConnId, hearing_start (.inl rfl) rfl rfl⟩
  | acceptor => exact ⟨sending_incoming _, hearing_start (.inr rfl) rfl rfl⟩

/-- **The end of the stream.**  From the handshake on, as long as every event is in time, a
connection that has received an `ST_FIN` and closes by itself has received everything
before it, and has returned everything that its peer has written. -/
theorem allSteps_endsWell (recvConnId : UInt16) (events : List (Side × PartyEvent))
    (h : AllSteps partiesStep InTime (some (partiesStart recvConnId)) events) :
    AllSteps partiesStep EndsWell (some (partiesStart recvConnId)) events :=
  allSteps_of_invariant talking_step endsWell_of_talking events _ (talking_start recvConnId) h

/-- A clock that stands still. -/
def Clock.zero : Clock := { now := 0, currentTimeout := 1000, gain := 0 }

/-- Everything in front of a data packet or an `ST_FIN` has arrived. -/
def Party.InTurn (base : ℕ) (y : Party) (p : Packet) : Prop :=
  (p.type = .stData ∨ p.type = .stFin → base < p.number ∧ p.number ∉ y.accepted ∧
    ∀ n ∈ List.range p.number, base < n → n ∈ y.accepted) ∧
  (∀ front ∈ y.conn.localWnd.incomingPackets.head?, (p.seqNr - front.seqNr).toNat < 32768) ∧
  (p.type = .stState → y.conn.state = .synSent → p.number = base + 1)

/-- What is delivered is delivered in turn, and nothing is read after the `ST_FIN`. -/
def Party.InOrder (base : ℕ) (y : Party) (network : List Packet) : PartyEvent → Prop
  | .deliver i _ => ∀ p ∈ network[i]?, y.InTurn base p
  | .recv _ => y.conn.eofSeqNr = none
  | _ => True

/-- Both ends receive everything in order. -/
def InOrder : Option (Side → Party) → Side × PartyEvent → Prop
  | none, _ => True
  | some s, (side, e) => (s side).InOrder side.other.base (s side.other).conn.sent e

instance (base : ℕ) (y : Party) (p : Packet) : Decidable (y.InTurn base p) :=
  inferInstanceAs (Decidable ((_ → _) ∧ (_ ∧ _)))

instance (base : ℕ) (y : Party) (network : List Packet) :
    ∀ e, Decidable (y.InOrder base network e)
  | .deliver i _ => inferInstanceAs (Decidable (∀ p ∈ network[i]?, y.InTurn base p))
  | .recv _ => inferInstanceAs (Decidable (y.conn.eofSeqNr = none))
  | .send .. | .close .. | .timeout .. => inferInstanceAs (Decidable True)

instance : ∀ s e, Decidable (InOrder s e)
  | none, _ => inferInstanceAs (Decidable True)
  | some s, (side, e) =>
    inferInstanceAs (Decidable ((s side).InOrder side.other.base (s side.other).conn.sent e))

/-- The last packet received without a gap is the one in front. -/
theorem Party.InTurn.last {base : ℕ} {y : Party} {p : Packet} (h : y.InTurn base p)
    (htype : p.type = .stData ∨ p.type = .stFin) : y.last base + 1 = p.number := by
  obtain ⟨hlt, hnew, hold⟩ := h.1 htype
  have hlast : y.last base = p.number - 1 := IsLastInOrder.eq
    { le := by omega
      mem := fun n hn hle => hold n (List.mem_range.mpr (by omega)) hn
      next := by rwa [Nat.sub_add_cancel (by omega)] }
  omega

/-- **A run without reordering** is in time. -/
theorem inTime_of_inOrder {s : Option (Side → Party)} {e : Side × PartyEvent} (h : InOrder s e) :
    InTime s e := by
  cases s with
  | none => trivial
  | some s =>
    obtain ⟨side, e⟩ := e
    refine ⟨fun i k p he hp => ?_, fun maxLen he _ hfin _ => ?_⟩
    · rw [he] at h
      have hturn : (s side).InTurn side.other.base p := h p hp
      refine ⟨fun hpush => ⟨?_, fun _ _ => hturn.2.1⟩, fun htype _ _ => ?_, hturn.2.2⟩
      · have hlast := hturn.last (.inl hpush.1)
        omega
      · exact (hturn.last (.inr htype)).ge
    · rw [he] at h
      exact absurd h hfin

/-- The handshake, then `n` packets of one byte, and the end of the stream from the initiator. -/
def sentThenFin (n : ℕ) : List (Side × PartyEvent) :=
  [(.acceptor, .deliver 0 .zero), (.initiator, .deliver 0 .zero)] ++
    List.replicate n (.initiator, .send 0 [84]) ++ [(.initiator, .close 0)]

/-- The data arrives, is read, and then the `ST_FIN` arrives. -/
def inOrderEvents (n : ℕ) : List (Side × PartyEvent) :=
  sentThenFin n ++ (List.range n).map (fun i => (.acceptor, .deliver (i + 1) .zero)) ++
    [(.acceptor, .recv 100), (.acceptor, .deliver (n + 1) .zero)]

/-- The state in which the acceptor is after a run, and what it has returned. -/
def acceptorOf (s : Option (Side → Party)) : Option (ConnectionState × List UInt8) :=
  s.map fun s => ((s .acceptor).conn.state, (s .acceptor).output)

/-- The slots of 21 packets are dropped when they have been read, and the `ST_FIN` finds an empty
vector; it closes the connection. -/
theorem allSteps_endsWell_inOrder :
    AllSteps partiesStep EndsWell (some (partiesStart 8)) (inOrderEvents 21) ∧
      acceptorOf (run partiesStep (some (partiesStart 8)) ((inOrderEvents 21).take 46)) =
        some (.connected, List.replicate 21 84) ∧
      acceptorOf (run partiesStep (some (partiesStart 8)) (inOrderEvents 21)) =
        some (.closed, List.replicate 21 84) := by
  have hinOrder : AllSteps partiesStep InOrder (some (partiesStart 8)) (inOrderEvents 21) := by
    decide +kernel
  exact ⟨allSteps_endsWell 8 _ (hinOrder.mono fun _ _ h => inTime_of_inOrder h), by decide +kernel,
    by decide +kernel⟩

/-- The `ST_FIN` arrives first. -/
def overtakingEvents : List (Side × PartyEvent) :=
  sentThenFin 1 ++ [(.acceptor, .deliver 2 .zero), (.acceptor, .deliver 1 .zero), (.initiator, .deliver 1 .zero)]

/-- **An `ST_FIN` that overtakes the data closes the connection.** -/
theorem overtaking_fin_closes :
    ¬ AllSteps partiesStep EndsWell (some (partiesStart 8)) overtakingEvents := by
  unfold overtakingEvents
  rw [allSteps_append]
  rintro ⟨-, hends, -⟩
  have hrun : (run partiesStep (some (partiesStart 8)) (sentThenFin 1)).map (fun s =>
      ((s .initiator).written, (s .acceptor).conn.state)) = some ([84], .connected) := by
    decide +kernel
  have hlast : (run partiesStep (some (partiesStart 8)) (sentThenFin 1)).bind (fun s =>
      ((s .acceptor).step (s .initiator).conn.sent (.deliver 2 .zero)).map fun y =>
        (y.output, y.conn.state, y.conn.eofSeqNr,
          (y.conn.sent.drop (s .acceptor).conn.sent.length).map Packet.type)) =
      some ([], .closed, some 3, [.stFin]) := by
    decide +kernel
  obtain ⟨s, hs, hwritten⟩ := Option.map_eq_some_iff.mp hrun
  obtain ⟨hwritten, hbefore⟩ := Prod.mk.inj hwritten
  rw [hs, Option.bind_some] at hlast
  obtain ⟨y, hstep, hy⟩ := Option.map_eq_some_iff.mp hlast
  simp only [Prod.mk.injEq] at hy
  obtain ⟨houtput, hclosed, heof, htypes⟩ := hy
  rw [hs] at hends
  have hcloses : ClosesByItself (s .acceptor).conn y.conn := by
    refine ⟨by rw [hbefore]; decide, hclosed, fun p hp => ?_⟩
    have hp' := List.mem_map_of_mem (f := Packet.type) hp
    rw [htypes, List.mem_singleton] at hp'
    rw [hp']
    decide
  obtain ⟨-, -, -, -, -, hall⟩ := hends y hstep (fun k m a h => by cases h) hcloses 3 heof
  rw [houtput, show (s Side.acceptor.other).written = [84] from hwritten] at hall
  cases hall

end Utp
end KTorrent
