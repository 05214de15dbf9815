import KTorrent.Utp.UnreadBytes

/-!
# Half-closed connections

After `close` the connection is in `FINISHED` and still takes what its peer sends.  A packet is
compared with the number of the peer's `ST_FIN`, also when there has been none: the comparison then
takes the `-1` that stands for it as the number 65535.

* `Connection.HandedOver` — a data packet is treated as in `CONNECTED`.
* `Connection.Upper` — it is in the upper half of the numbers, or the window would ignore it.
* `handedOver_iff` — one packet.
* `allSteps_handedOver_iff` — the packets of a run.
-/

namespace KTorrent.Utp

open Runs

namespace Connection

/-- The connection is closed on this side only. -/
def HalfClosed (c : Connection) : Prop := c.state = .finished ∧ c.eofSeqNr = none

instance (c : Connection) : Decidable c.HalfClosed := inferInstanceAs (Decidable (_ ∧ _))

/-- The same connection, not closed. -/
def reopened (c : Connection) : Connection := { c with state := .connected }

/-- What comes behind the packets of `b` ends this side. -/
def SentWithFin (b c : Connection) : Prop :=
  ∃ fins, (∀ q ∈ fins, q.type = .stFin) ∧ c.sent = b.sent ++ fins

/-- The same receive window, and the same packets up to the `ST_FIN` of this side. -/
def SameAnswer : Option Connection → Option Connection → Prop
  | some c, some d => c.localWnd = d.localWnd ∧ SentWithFin d c
  | none, none => True
  | _, _ => False

/-- **A packet is handled as in `CONNECTED`.** -/
def HandedOver (c : Connection) (k : Clock) (p : Packet) : Prop :=
  SameAnswer (c.handlePacket k p) (c.reopened.handlePacket k p)

/-- The window has no use for the packet: it is an old one, or it is there already. -/
def Ignores (c : Connection) (p : Packet) : Prop :=
  seqNrCmpSE p.seqNr c.localWnd.lastSeqNr = true ∨
    p.data.length ≤ c.localWnd.availableSpace ∧
      c.localWnd.insertPacket p.seqNr p.data 0 = some none

/-- The packet is in the upper half of the numbers, or the window has no use for it. -/
def Upper (c : Connection) (p : Packet) : Prop := 32768 ≤ p.seqNr.toNat ∨ c.Ignores p

end Connection

/-- The law for an event of a run. -/
def HandedOver : Option Reader → ReaderEvent → Prop
  | some r, .packet k p => r.conn.HalfClosed → p.type = .stData → r.conn.HandedOver k p
  | _, _ => True

/-- The condition for an event of a run. -/
def InUpperHalf : Option Reader → ReaderEvent → Prop
  | some r, .packet _ p => r.conn.HalfClosed → p.type = .stData → r.conn.Upper p
  | _, _ => True

/-! ## The state and what is sent -/

namespace Connection

variable {c : Connection} {k : Clock} {p : Packet}

theorem retransmit_reopened (packets : List UnackedPacket) :
    ∀ c : Connection, c.reopened.retransmit packets = (c.retransmit packets).reopened := by
  induction packets with
  | nil => exact fun c => rfl
  | cons p ps ih => exact fun c => ih (c.sendDataPacket p.packet p.number)

theorem packetAcks_reopened : c.reopened.packetAcks k p = (c.packetAcks k p).reopened :=
  congrArg (fun c => updateDelayMeasurement c k.gain) (retransmit_reopened _
    { c with remoteWnd := (c.remoteWnd.packetReceived k.link p.hdr p.sack).1 })

theorem sendLoop_reopened (now fuel : ℕ) :
    ∀ c : Connection, sendLoop now fuel c.reopened = (sendLoop now fuel c).reopened := by
  induction fuel with
  | zero => exact fun c => rfl
  | succ fuel ih =>
    intro c
    unfold sendLoop
    rw [apply_ite reopened, apply_ite reopened, ← ih (c.sendNext now)]
    rfl

theorem SentWithFin.trans {a b c : Connection} (hab : SentWithFin a b) (hbc : SentWithFin b c) :
    SentWithFin a c := by
  obtain ⟨xs, hx, hxs⟩ := hab
  obtain ⟨ys, hy, hys⟩ := hbc
  refine ⟨xs ++ ys, ?_, by rw [hys, hxs, List.append_assoc]⟩
  intro q hq
  rcases List.mem_append.mp hq with hq | hq
  · exact hx q hq
  · exact hy q hq

theorem sentWithFin_of_eq {b c : Connection} (h : c.sent = b.sent) : SentWithFin b c :=
  ⟨[], fun _ hq => (by cases hq), by rw [h, List.append_nil]⟩

theorem sentWithFin_finishSending (c : Connection) : SentWithFin c c.finishSending := by
  unfold finishSending
  split
  · refine ⟨[_], fun q hq => ?_, rfl⟩
    rw [List.mem_singleton.mp hq]
  · exact sentWithFin_of_eq rfl

theorem sentWithFin_checkIfClosed (c : Connection) : SentWithFin c c.checkIfClosed := by
  unfold checkIfClosed
  split <;> exact sentWithFin_of_eq rfl

/-- A connection that is not finished has nothing to finish. -/
theorem finishSending_reopened (c : Connection) : c.reopened.finishSending = c.reopened := by
  rw [finishSending, if_neg]
  exact fun h => by cases h.1

theorem sendStateOrData_reopened (c : Connection) (now : ℕ) :
    SentWithFin (c.reopened.sendStateOrData now) (c.sendStateOrData now) := by
  unfold sendStateOrData
  by_cases hdata : c.outputBuffer.length > 0 ∧ c.remoteWnd.availableSpace > 0
  · rw [if_pos (by exact hdata), if_pos hdata, sendPackets, sendPackets, sendLoop_reopened,
      finishSending_reopened]
    exact sentWithFin_finishSending (sendLoop now c.outputBuffer.length c)
  · rw [if_neg (by exact hdata), if_neg hdata]
    exact sentWithFin_of_eq rfl

/-! ## The receive window -/

theorem acknowledge_incomingPackets {w w' : LocalWindow} {seqNr : UInt16} {size : ℕ}
    (h : w.acknowledge seqNr size = some w') : w'.incomingPackets = w.incomingPackets := by
  have hadvance : ∀ (fuel : ℕ) (w w' : LocalWindow) (off next : UInt16),
      LocalWindow.advance fuel w off next = some w' → w'.incomingPackets = w.incomingPackets := by
    intro fuel
    induction fuel with
    | zero => exact fun w w' off next h => by cases h
    | succ fuel ih =>
      intro w w' off next h
      unfold LocalWindow.advance at h
      split at h
      · rw [← Option.some.inj h]
      · split at h
        · rw [← Option.some.inj h]
        · rename_i pkt _ _ buf _
          exact ih { w with
            bytesAvailable := w.bytesAvailable + (buf.length - pkt.bytesRead)
            lastSeqNr := next } _ _ _ h
  unfold LocalWindow.acknowledge at h
  split at h
  · split at h
    · cases h
    · exact hadvance _ { w with
        bytesAvailable := w.bytesAvailable + size, lastSeqNr := seqNr } _ _ _ h
  · rw [← Option.some.inj h]

theorem insertPacket_incomingPackets_ne {w w' : LocalWindow} {seqNr : UInt16}
    {packet : List UInt8} {off : ℕ} (h : w.insertPacket seqNr packet off = some (some w')) :
    w'.incomingPackets ≠ w.incomingPackets := by
  unfold LocalWindow.insertPacket at h
  dsimp only at h
  split at h
  · rename_i hempty
    rw [← Option.some.inj (Option.some.inj h), hempty]
    simp
  · rename_i front rest hpackets
    split at h
    · rw [← Option.some.inj (Option.some.inj h), hpackets]
      intro hsame
      have hlength := congrArg List.length hsame
      simp at hlength
    · split at h
      · cases h
      · rename_i old hold
        split at h
        · cases h
        · rename_i hfree
          rw [← Option.some.inj (Option.some.inj h), hpackets]
          intro hsame
          have hslot := congrArg (fun l => l[(seqNrDiff front.seqNr seqNr).toNat]?) hsame
          have hlt := (List.getElem?_eq_some_iff.mp hold).1
          simp only [List.getElem?_set_self hlt, hold, Option.some.injEq] at hslot
          rw [← hslot] at hfree
          exact hfree rfl

/-- **The window stays as it is** exactly when it has no use for the packet. -/
theorem packetReceived_same_iff :
    c.localWnd.packetReceived p.seqNr p.data 0 = some (true, c.localWnd) ↔ c.Ignores p := by
  unfold LocalWindow.packetReceived Ignores
  by_cases hold : seqNrCmpSE p.seqNr c.localWnd.lastSeqNr = true
  · simp [hold]
  · rw [if_neg hold]
    dsimp only
    by_cases hroom : c.localWnd.availableSpace < p.data.length - 0
    · rw [if_pos hroom]
      constructor
      · intro h
        cases h
      · rintro (h | h)
        · exact absurd h hold
        · omega
    · rw [if_neg hroom]
      cases hinsert : c.localWnd.insertPacket p.seqNr p.data 0 with
      | none => simp [hold]
      | some r =>
        cases r with
        | none =>
          have hle : p.data.length ≤ c.localWnd.availableSpace := by omega
          simp [hle]
        | some w =>
          constructor
          · intro h
            obtain ⟨w', hw', hsame⟩ := Option.map_eq_some_iff.mp h
            have hpackets := acknowledge_incomingPackets hw'
            have hkept := congrArg LocalWindow.incomingPackets (Prod.mk.inj hsame).2
            exact absurd (hpackets.symm.trans hkept) (insertPacket_incomingPackets_ne hinsert)
          · rintro (h | ⟨-, h⟩)
            · exact absurd h hold
            · cases h

/-! ## One packet -/

/-- What a connection does with the window's answer to a data packet. -/
def answered (c : Connection) (now : ℕ) (finish : Connection → Connection) :
    Option (Bool × LocalWindow) → Option Connection
  | none => none
  | some (false, w) => some { c with localWnd := w }.abort
  | some (true, w) => some (finish ({ c with localWnd := w }.sendStateOrData now))

theorem dispatch_halfClosed {now : ℕ} (hstate : c.state = .finished) (htype : p.type = .stData) :
    c.dispatch now p = c.answered now (fun c => c.finishSending.checkIfClosed)
      (if c.beforeEof p then c.localWnd.packetReceived p.seqNr p.data 0
        else some (true, c.localWnd)) := by
  simp only [dispatch, hstate, htype]
  generalize (if c.beforeEof p then c.localWnd.packetReceived p.seqNr p.data 0
    else some (true, c.localWnd)) = answer
  rcases answer with _ | ⟨_ | _, w⟩
  · rfl
  · simp only [answered, hstate]
  · simp only [answered, hstate]

theorem dispatch_reopened {now : ℕ} (htype : p.type = .stData) :
    c.reopened.dispatch now p =
      c.reopened.answered now id (c.localWnd.packetReceived p.seqNr p.data 0) := by
  simp only [dispatch, reopened, htype]
  rcases c.localWnd.packetReceived p.seqNr p.data 0 with _ | ⟨_ | _, w⟩ <;> rfl

/-- `-1` as a number of 16 bits is behind the upper half of the numbers. -/
theorem beforeEof_none (h : c.eofSeqNr = none) : c.beforeEof p = true ↔ 32768 ≤ p.seqNr.toNat := by
  have hlt := p.seqNr.toNat_lt
  have hmax : (65535 : UInt16).toNat = 65535 := rfl
  rw [beforeEof, h, Option.getD_none, seqNrCmpSE, seqNrAbs, hmax]
  split
  · rw [decide_eq_true_iff, UInt16.le_iff_toNat_le, hmax]
    omega
  · rw [decide_eq_true_iff, gt_iff_lt, UInt16.lt_iff_toNat_lt, hmax]
    omega

/-- The packet goes to the window in both states. -/
theorem sentWithFin_answer (c : Connection) (now : ℕ) :
    SentWithFin (c.reopened.sendStateOrData now)
      (c.sendStateOrData now).finishSending.checkIfClosed :=
  ((sendStateOrData_reopened c now).trans (sentWithFin_finishSending _)).trans
    (sentWithFin_checkIfClosed _)

theorem localWnd_answer (c : Connection) (now : ℕ) :
    (c.sendStateOrData now).finishSending.checkIfClosed.localWnd = c.localWnd := by
  have hsends := (sends_sendStateOrData c now).trans (sends_finishSending _)
  unfold checkIfClosed
  split <;> exact hsends.localWnd

/-- The same answer of the window leads to the same answer. -/
theorem sameAnswer_of_same (b : Connection) (now : ℕ) (r : Option (Bool × LocalWindow)) :
    SameAnswer (b.answered now (fun c => c.finishSending.checkIfClosed) r)
      (b.reopened.answered now id r) := by
  rcases r with _ | ⟨_ | _, w⟩
  · trivial
  · exact ⟨rfl, sentWithFin_of_eq rfl⟩
  · refine ⟨?_, sentWithFin_answer { b with localWnd := w } now⟩
    have hconnected := (sends_sendStateOrData (reopened { b with localWnd := w }) now).localWnd
    exact (localWnd_answer _ now).trans hconnected.symm

/-- Another answer of the window than "no use" does not look like it. -/
theorem eq_of_sameAnswer {b : Connection} {now : ℕ} {r : Option (Bool × LocalWindow)}
    (h : SameAnswer (b.answered now (fun c => c.finishSending.checkIfClosed)
      (some (true, b.localWnd))) (b.reopened.answered now id r)) : r = some (true, b.localWnd) := by
  rcases r with _ | ⟨_ | _, w⟩
  · exact absurd h id
  · -- in `CONNECTED` the packet is refused with a reset
    obtain ⟨-, fins, -, hsent⟩ := h
    have hsends := (sends_sendStateOrData { b with localWnd := b.localWnd } now).trans
      (sends_finishSending _)
    obtain ⟨new, hnew, htypes⟩ := hsends.sent
    have hreset : ∃ q : Packet, q.type = .stReset ∧
        (reopened { b with localWnd := w }).abort.sent = b.sent ++ [q] := ⟨_, rfl, rfl⟩
    obtain ⟨q, hq, habort⟩ := hreset
    have hclosing : ∀ c : Connection, c.checkIfClosed.sent = c.sent := by
      intro c
      unfold checkIfClosed
      split <;> rfl
    have hall : b.sent ++ new = b.sent ++ ([q] ++ fins) := by
      rw [← List.append_assoc, ← habort, ← hnew, ← hclosing]
      exact hsent
    have hmem : q ∈ new := by
      rw [List.append_cancel_left hall]
      exact List.mem_cons_self
    exact absurd hq (htypes q hmem).1
  · have hconnected := (sends_sendStateOrData (reopened { b with localWnd := w }) now).localWnd
    have hkept := localWnd_answer { b with localWnd := b.localWnd } now
    have hsame : b.localWnd = w := hkept.symm.trans (h.1.trans hconnected)
    rw [hsame]

/-- **One packet** is handled as in `CONNECTED` exactly when it has an upper number, or the window
has no use for it. -/
theorem handedOver_iff (hclosed : c.HalfClosed) (htype : p.type = .stData) :
    c.HandedOver k p ↔ c.Upper p := by
  obtain ⟨b, hb⟩ : ∃ b, b = c.packetAcks k p := ⟨_, rfl⟩
  have hsends := sends_packetAcks c k p
  rw [← hb] at hsends
  have hhandled : c.handlePacket k p = b.dispatch k.now p := by rw [handlePacket, hb]
  have hreopened : c.reopened.handlePacket k p = b.reopened.dispatch k.now p := by
    rw [handlePacket, packetAcks_reopened, hb]
  have heof := beforeEof_none (p := p) (hsends.eofSeqNr.trans hclosed.2)
  rw [HandedOver, hhandled, hreopened, dispatch_reopened htype,
    dispatch_halfClosed (hsends.state.trans hclosed.1) htype, Upper, ← packetReceived_same_iff,
    ← hsends.localWnd]
  by_cases hupper : 32768 ≤ p.seqNr.toNat
  · rw [if_pos (heof.mpr hupper)]
    exact ⟨fun _ => .inl hupper, fun _ => sameAnswer_of_same b k.now _⟩
  · rw [if_neg (fun h => hupper (heof.mp h))]
    constructor
    · exact fun h => .inr (eq_of_sameAnswer h)
    · rintro (h | h)
      · exact absurd h hupper
      · rw [h]
        exact sameAnswer_of_same b k.now _

end Connection

theorem handedOver_event_iff (s : Option Reader) (e : ReaderEvent) :
    HandedOver s e ↔ InUpperHalf s e := by
  cases s with
  | none => exact Iff.rfl
  | some r =>
    cases e with
    | packet k p =>
      constructor
      · exact fun h hclosed htype => (Connection.handedOver_iff hclosed htype).mp (h hclosed htype)
      · exact fun h hclosed htype => (Connection.handedOver_iff hclosed htype).mpr (h hclosed htype)
    | recv | send | close | reset | timeout => exact Iff.rfl

/-- **A run** hands over every packet exactly when none has a lower number that the window could
use. -/
theorem allSteps_handedOver_iff (s : Option Reader) (es : List ReaderEvent) :
    AllSteps readerStep HandedOver s es ↔ AllSteps readerStep InUpperHalf s es :=
  allSteps_congr handedOver_event_iff es s

/-- The handshake, and this side is closed. -/
def halfClosedReader : List ReaderEvent := [arrives (peerPacket .stSyn 1 []), .close 0]

/-- The byte in packet 2 is not handed to the window, whose next packet it is. -/
theorem lowNumber_dropped :
    ¬ AllSteps readerStep HandedOver (some (Reader.start (.incoming 10)))
      (halfClosedReader ++ [arrives (peerPacket .stData 2 [84])]) := by
  rw [allSteps_append]
  rintro ⟨-, h, -⟩
  have hrun : (run readerStep (some (Reader.start (.incoming 10))) halfClosedReader).map
      (fun r => (r.conn.state, r.conn.eofSeqNr, r.conn.localWnd.lastSeqNr,
        r.conn.localWnd.incomingPackets, r.conn.localWnd.windowSpace)) =
      some (.finished, none, 1, [], receiveCapacity) := by
    decide +kernel
  obtain ⟨r, hr, hfields⟩ := Option.map_eq_some_iff.mp hrun
  simp only [Prod.mk.injEq] at hfields
  obtain ⟨hstate, heof, hlast, hempty, hspace⟩ := hfields
  rw [hr] at h
  rcases (Connection.handedOver_iff ⟨hstate, heof⟩ rfl).mp (h ⟨hstate, heof⟩ rfl) with h | h | ⟨-, h⟩
  · exact absurd h (by decide)
  · rw [hlast] at h
    exact absurd h (by decide)
  · rw [LocalWindow.insertPacket, hempty] at h
    cases h

end KTorrent.Utp
