import KTorrent.Utp.CloseCheck
import KTorrent.Utp.InFlight
import KTorrent.Utp.SackComplete

/-!
# Flow control

Three counters bound what a connection sends: the bytes in flight, the congestion window and the
window that the peer has advertised.  The loop of `sendPackets` works out its bound from them
again for every packet.

* `Flow` — a connection, the window last advertised and the new bytes sent since.
* `Emission` — a new packet goes out with the bytes in flight below both windows.
* `FlowControl` — that for every new packet of a step; the advertised window loses exactly the new
  bytes; every packet fits its buffer.
* `Emits`, `Prepares` — what sending adds, and what comes before it in a step.
* `allSteps_flowControl` — flow control in every run.
-/

namespace KTorrent.Utp

open Runs

/-- The bytes of the extension behind a header. -/
def Packet.extensionLength (p : Packet) : ℕ :=
  match p.sack with
  | none => 0
  | some sack => 2 + sack.length

/-- Header, extension and payload. -/
def Packet.size (p : Packet) : ℕ := headerSize + p.extensionLength + p.data.length

/-- A connection, as an observer of its packets sees it. -/
structure Flow where
  conn : Connection
  /-- `wnd_size` of the last header that arrived. -/
  advertised : ℕ
  /-- The payload of all new packets since. -/
  since : ℕ

/-- What happens to a connection; `wnd_size` is a number of 32 bits. -/
inductive FlowEvent where
  | packet (k : Clock) (p : Packet) (wndSize_lt : p.wndSize < 2 ^ 32)
  | send (now : ℕ) (data : List UInt8)
  | recv (maxLen : ℕ)
  | timeout (k : Clock) (maxReached keepAlive : Bool)
  | close (now : ℕ)

/-- The bytes in flight in packets that are not older than `number`. -/
def Connection.newBytes (c : Connection) (number : ℕ) : ℕ :=
  packetSum (c.remoteWnd.unackedPackets.filter fun q => number ≤ q.number)

namespace Flow

/-- Before the first header. -/
def start (c : Connection) : Flow := { conn := c, advertised := 0, since := 0 }

/-- The connection is `c` after a call that saw no header. -/
def call (f : Flow) (c : Connection) : Flow :=
  { f with conn := c, since := f.since + c.newBytes f.conn.seqNr }

/-- The connection is `c` after a header. -/
def header (f : Flow) (p : Packet) (c : Connection) : Flow :=
  { conn := c, advertised := p.wndSize, since := c.newBytes f.conn.seqNr }

/-- One event; `none` when the receive window leaves its vector. -/
def step : Option Flow → FlowEvent → Option Flow
  | none, _ => none
  | some f, .packet k p _ => (f.conn.handlePacket k p).map (f.header p)
  | some f, .send now data => some (f.call (f.conn.send now data).2)
  | some f, .recv maxLen => (f.conn.recv maxLen).map fun r => f.call r.2
  | some f, .timeout k maxReached keepAlive =>
    some (f.call (f.conn.handleTimeout k maxReached keepAlive))
  | some f, .close now => some (f.call (f.conn.close now))

end Flow

/-- The packet `p` is in flight in `w`, and the bytes in flight up to it are in both windows. -/
def Emission (w : RemoteWindow) (advertised : ℕ) (p : Packet) : Prop :=
  ∃ before q after, w.unackedPackets = before ++ q :: after ∧ q.number = p.number ∧
    q.packet.payload = p.data ∧ packetSum (before ++ [q]) ≤ min advertised w.maxWindow

/-- **Flow control**, for a step from `f` to `f'`. -/
structure FlowControl (f f' : Flow) : Prop where
  /-- What is sent is behind what was sent before, and new data goes out in the windows. -/
  emission : ∃ ps, f'.conn.sent = f.conn.sent ++ ps ∧
    ∀ p ∈ ps, p.type = .stData → f.conn.seqNr ≤ p.number →
      Emission f'.conn.remoteWnd f'.advertised p
  /-- `wnd_size` is what is left of the advertised window. -/
  remaining : f'.conn.remoteWnd.wndSize + f'.since = f'.advertised
  fits : ∀ p ∈ f'.conn.sent, p.size ≤ maxBufferSize

/-- Flow control in a step of a run. -/
def FlowControlled : Option Flow → FlowEvent → Prop
  | none, _ => True
  | some f, e => ∀ f', Flow.step (some f) e = some f' → FlowControl f f'

namespace Connection

/-- The largest payload of a packet. -/
def maxPacketSize : ℕ := maxBufferSize - ipAndUdpOverhead - headerSize

/-- A connection between two steps. -/
structure Steady (c : Connection) : Prop where
  curWindow : c.remoteWnd.curWindow = packetSum c.remoteWnd.unackedPackets
  curWindow_lt : c.remoteWnd.curWindow < 2 ^ 32
  maxWindow_lt : c.remoteWnd.maxWindow < 2 ^ 32
  wndSize_lt : c.remoteWnd.wndSize < 2 ^ 32
  numbers : ∀ key ∈ c.remoteWnd.keys, key.2 < c.seqNr
  payloads : ∀ key ∈ c.remoteWnd.keys, key.1.payloadSize ≤ maxPacketSize
  packetSize : c.packetSize ≤ maxPacketSize
  fits : ∀ p ∈ c.sent, p.size ≤ maxBufferSize

/-- Sending adds the packets `qs` to those in flight. -/
structure Emits (c c' : Connection) (qs : List UnackedPacket) : Prop where
  unacked : c'.remoteWnd.unackedPackets = c.remoteWnd.unackedPackets ++ qs
  wndSize : c'.remoteWnd.wndSize + packetSum qs = c.remoteWnd.wndSize
  maxWindow : c'.remoteWnd.maxWindow = c.remoteWnd.maxWindow
  bound : qs ≠ [] → packetSum c'.remoteWnd.unackedPackets ≤ min c.remoteWnd.wndSize c.remoteWnd.maxWindow
  numbers : ∀ q ∈ qs, c.seqNr ≤ q.number
  seqNr : c.seqNr ≤ c'.seqNr
  wire : ∃ ps, c'.sent = c.sent ++ ps ∧ ∀ p ∈ ps, p.type = .stData →
    ∃ q ∈ qs, q.number = p.number ∧ q.packet.payload = p.data
  steady : c'.Steady

/-- What comes before the new packets of a step. -/
structure Prepares (c c' : Connection) : Prop where
  seqNr : c'.seqNr = c.seqNr
  wire : ∃ ps, c'.sent = c.sent ++ ps ∧ ∀ p ∈ ps, p.type = .stData → p.number < c.seqNr
  steady : c'.Steady

/-! ## Sending -/

variable {a b c : Connection}

theorem extensionLength_of_sackSent {p : Packet} {w : LocalWindow} (h : p.sack = sackSent w) :
    p.extensionLength = KTorrent.Utp.extensionLength w := by
  rw [Packet.extensionLength, h, sackSent]
  split
  · rename_i hnone
    split at hnone
    · cases hnone
    · omega
  · rename_i sack hsome
    split at hsome
    · rename_i hpos
      rw [← Option.some.inj hsome, fillSelectiveAck_length, SelectiveAck.length,
        List.length_replicate]
      unfold KTorrent.Utp.extensionLength at hpos ⊢
      split
      · omega
      · rename_i hzero
        rw [if_neg hzero] at hpos
        omega
    · cases hsome

/-- A packet without a payload fits. -/
theorem size_of_empty {p : Packet} {w : LocalWindow} (hsack : p.sack = sackSent w)
    (hdata : p.data = []) : p.size ≤ maxBufferSize := by
  have hext := extensionLength_le w
  rw [Packet.size, extensionLength_of_sackSent hsack, hdata, List.length_nil, headerSize,
    maxBufferSize]
  omega

/-- Nothing changes for the packets in flight. -/
theorem emits_nil (h : c.Steady) {c' : Connection} (hwnd : c'.remoteWnd = c.remoteWnd)
    (hseq : c'.seqNr = c.seqNr) (hsize : c'.packetSize = c.packetSize)
    (hsent : ∃ ps, c'.sent = c.sent ++ ps ∧
      ∀ p ∈ ps, p.type ≠ .stData ∧ p.size ≤ maxBufferSize) : Emits c c' [] := by
  obtain ⟨ps, hps, hall⟩ := hsent
  have hsteady : c'.Steady := by
    refine ⟨?_, ?_, ?_, ?_, ?_, ?_, ?_, ?_⟩
    · rw [hwnd]
      exact h.curWindow
    · rw [hwnd]
      exact h.curWindow_lt
    · rw [hwnd]
      exact h.maxWindow_lt
    · rw [hwnd]
      exact h.wndSize_lt
    · rw [hwnd, hseq]
      exact h.numbers
    · rw [hwnd]
      exact h.payloads
    · rw [hsize]
      exact h.packetSize
    · intro p hp
      rw [hps] at hp
      rcases List.mem_append.mp hp with hp | hp
      · exact h.fits p hp
      · exact (hall p hp).2
  refine ⟨?_, ?_, ?_, ?_, ?_, ?_, ?_, hsteady⟩
  · rw [hwnd, List.append_nil]
  · rw [hwnd, packetSum_nil, Nat.add_zero]
  · rw [hwnd]
  · exact fun hne => absurd rfl hne
  · exact fun q hq => by cases hq
  · exact hseq.ge
  · exact ⟨ps, hps, fun p hp htype => absurd htype (hall p hp).1⟩

/-- The state and the receive window do not matter. -/
theorem emits_update (h : c.Steady) (state : ConnectionState) (eof : Option UInt16)
    (w : LocalWindow) : Emits c { c with state := state, eofSeqNr := eof, localWnd := w } [] :=
  emits_nil h rfl rfl rfl ⟨[], (List.append_nil _).symm, fun _ hp => by cases hp⟩

theorem emits_buffer (h : c.Steady) (buf : List UInt8) :
    Emits c { c with outputBuffer := buf } [] :=
  emits_nil h rfl rfl rfl ⟨[], (List.append_nil _).symm, fun _ hp => by cases hp⟩

theorem packetSum_append (ps qs : List UnackedPacket) :
    packetSum (ps ++ qs) = packetSum ps + packetSum qs := by
  induction ps with
  | nil => simp
  | cons p ps ih => rw [List.cons_append, packetSum_cons, packetSum_cons, ih, Nat.add_assoc]

theorem Emits.trans {ps qs : List UnackedPacket} (hab : Emits a b ps) (hbc : Emits b c qs) :
    Emits a c (ps ++ qs) := by
  have hab_wnd := hab.wndSize
  have hbc_wnd := hbc.wndSize
  refine ⟨?_, ?_, ?_, ?_, ?_, ?_, ?_, hbc.steady⟩
  · rw [hbc.unacked, hab.unacked, List.append_assoc]
  · rw [packetSum_append]
    omega
  · rw [hbc.maxWindow, hab.maxWindow]
  · intro hne
    by_cases hqs : qs = []
    · subst hqs
      rw [hbc.unacked, List.append_nil]
      exact hab.bound (by simpa using hne)
    · have hbound := hbc.bound hqs
      rw [hab.maxWindow] at hbound
      omega
  · intro q hq
    rcases List.mem_append.mp hq with hq | hq
    · exact hab.numbers q hq
    · exact hab.seqNr.trans (hbc.numbers q hq)
  · exact hab.seqNr.trans hbc.seqNr
  · obtain ⟨xs, hxs, hx⟩ := hab.wire
    obtain ⟨ys, hys, hy⟩ := hbc.wire
    refine ⟨xs ++ ys, by rw [hys, hxs, List.append_assoc], ?_⟩
    intro p hp htype
    rcases List.mem_append.mp hp with hp | hp
    · obtain ⟨q, hq, hsame⟩ := hx p hp htype
      exact ⟨q, List.mem_append_left _ hq, hsame⟩
    · obtain ⟨q, hq, hsame⟩ := hy p hp htype
      exact ⟨q, List.mem_append_right _ hq, hsame⟩

theorem emits_sendPacket (h : c.Steady) {type : PacketType} (htype : type ≠ .stData)
    (ackNr : UInt16) : Emits c (c.sendPacket type ackNr) [] := by
  refine emits_nil h rfl rfl rfl ⟨[_], rfl, ?_⟩
  intro p hp
  rw [List.mem_singleton] at hp
  subst hp
  exact ⟨htype, size_of_empty (w := c.localWnd) rfl rfl⟩

theorem emits_sendState (h : c.Steady) : Emits c c.sendState [] :=
  emits_sendPacket h (by decide) _

theorem emits_sendReset (h : c.Steady) : Emits c c.sendReset [] :=
  emits_sendPacket h (by decide) _

theorem emits_sendFIN (h : c.Steady) : Emits c c.sendFIN [] :=
  emits_sendPacket h (by decide) _

theorem emits_checkIfClosed (h : c.Steady) : Emits c c.checkIfClosed [] := by
  unfold checkIfClosed
  split
  · exact emits_update h .closed c.eofSeqNr c.localWnd
  · exact emits_update h c.state c.eofSeqNr c.localWnd

theorem emits_abort (h : c.Steady) : Emits c c.abort [] :=
  (emits_sendReset h).trans (emits_update (emits_sendReset h).steady .closed _ _)

theorem emits_updateWindow (h : c.Steady) : Emits c c.updateWindow [] := by
  unfold updateWindow
  split
  · exact emits_sendState h
  · exact emits_update h c.state c.eofSeqNr c.localWnd

theorem emits_finishSending (h : c.Steady) : Emits c c.finishSending [] := by
  unfold finishSending
  split
  · have hfin := emits_sendFIN h
    exact hfin.trans (emits_nil hfin.steady rfl rfl rfl
      ⟨[], (List.append_nil _).symm, fun _ hp => by cases hp⟩)
  · exact emits_update h c.state c.eofSeqNr c.localWnd

/-! ## A new packet -/

/-- The bytes in flight and those of the next packet are in the window. -/
theorem toRead_room (hroom : 0 < c.remoteWnd.availableSpace) :
    c.remoteWnd.curWindow + c.toRead ≤ min c.remoteWnd.wndSize c.remoteWnd.maxWindow := by
  have hle : c.toRead ≤ c.remoteWnd.availableSpace := by
    unfold toRead
    omega
  unfold RemoteWindow.availableSpace at hroom hle
  split at hroom
  · omega
  · rw [if_neg (by assumption)] at hle
    omega

/-- The payload that `sendNext` takes is what it has worked out. -/
theorem fillData_payloadSize :
    (PacketBuffer.fillData c.outputBuffer c.toRead).1.payloadSize = c.toRead := by
  have hle : c.toRead ≤ c.outputBuffer.length ∧ c.toRead ≤ maxBufferSize - headerSize := by
    unfold toRead
    omega
  simp only [PacketBuffer.fillData, PacketBuffer.payloadSize, List.length_take]
  omega

theorem sendNext_remoteWnd (now : ℕ) : (c.sendNext now).remoteWnd =
    c.remoteWnd.addPacket (PacketBuffer.fillData c.outputBuffer c.toRead).1 c.seqNr now := rfl

theorem emits_sendNext (h : c.Steady) (now : ℕ) (hroom : 0 < c.remoteWnd.availableSpace) :
    ∃ qs, Emits c (c.sendNext now) qs := by
  have hwnd := sendNext_remoteWnd (c := c) now
  have hsent : ∃ p : Packet, (c.sendNext now).sent = c.sent ++ [p] ∧ p.number = c.seqNr ∧
      p.data = (PacketBuffer.fillData c.outputBuffer c.toRead).1.payload ∧
      p.sack = sackSent c.localWnd := ⟨_, rfl, rfl, rfl, rfl⟩
  have hsize := fillData_payloadSize (c := c)
  obtain ⟨packet, hpacket⟩ : ∃ b, b = (PacketBuffer.fillData c.outputBuffer c.toRead).1 := ⟨_, rfl⟩
  rw [← hpacket] at hwnd hsent hsize
  obtain ⟨p, hp, hnumber, hdata, hsack⟩ := hsent
  have hbound := toRead_room hroom
  have hcur := h.curWindow
  have hmax := h.maxWindow_lt
  have hadvertised := h.wndSize_lt
  have hlimits : c.toRead ≤ c.packetSize ∧
      c.toRead ≤ maxBufferSize - KTorrent.Utp.extensionLength c.localWnd - headerSize := by
    unfold toRead
    omega
  obtain ⟨q, hq⟩ : ∃ q : UnackedPacket, q = ⟨packet, c.seqNr, now, false⟩ := ⟨_, rfl⟩
  have hunacked : (c.sendNext now).remoteWnd.unackedPackets =
      c.remoteWnd.unackedPackets ++ [q] := by
    rw [hwnd, hq]
    rfl
  have hcur' : (c.sendNext now).remoteWnd.curWindow = c.remoteWnd.curWindow + c.toRead := by
    rw [hwnd, RemoteWindow.addPacket, hsize]
    exact u32_of_lt (by omega)
  have hwnd' : (c.sendNext now).remoteWnd.wndSize + c.toRead = c.remoteWnd.wndSize := by
    have hsub : sub32 c.remoteWnd.wndSize c.toRead = c.remoteWnd.wndSize - c.toRead :=
      sub32_of_le (by omega) hadvertised
    rw [hwnd, RemoteWindow.addPacket, hsize]
    show sub32 _ _ + _ = _
    omega
  have hsum : packetSum (c.remoteWnd.unackedPackets ++ [q]) =
      packetSum c.remoteWnd.unackedPackets + c.toRead := by
    rw [packetSum_append, packetSum_cons, packetSum_nil, hq, ← hsize]
    rfl
  have hkeys : (c.sendNext now).remoteWnd.keys = c.remoteWnd.keys ++ [(packet, c.seqNr)] := by
    rw [RemoteWindow.keys, hunacked, List.map_append, hq]
    rfl
  have hseq : (c.sendNext now).seqNr = c.seqNr + 1 := rfl
  refine ⟨[q], hunacked, ?_, by rw [hwnd]; rfl, fun _ => ?_, ?_, by omega, ⟨[p], hp, ?_⟩, ?_⟩
  · rw [packetSum_cons, packetSum_nil, Nat.add_zero, hq]
    show _ + packet.payloadSize = _
    rw [hsize, hwnd']
  · rw [hunacked, hsum, ← hcur]
    exact hbound
  · intro q' hq'
    rw [List.mem_singleton.mp hq', hq]
  · intro p' hp' _
    rw [List.mem_singleton.mp hp']
    refine ⟨q, List.mem_cons_self, ?_, ?_⟩
    · rw [hq, hnumber]
    · rw [hq, hdata]
  · refine ⟨?_, ?_, by rw [hwnd]; exact hmax, by omega, ?_, ?_, h.packetSize, ?_⟩
    · rw [hcur', hunacked, hsum, hcur]
    · rw [hcur']
      omega
    · intro key hkey
      rw [hkeys] at hkey
      rw [hseq]
      rcases List.mem_append.mp hkey with hkey | hkey
      · exact (h.numbers key hkey).trans (Nat.lt_succ_self _)
      · rw [List.mem_singleton.mp hkey]
        exact Nat.lt_succ_self _
    · intro key hkey
      rw [hkeys] at hkey
      rcases List.mem_append.mp hkey with hkey | hkey
      · exact h.payloads key hkey
      · rw [List.mem_singleton.mp hkey, hsize]
        exact hlimits.1.trans h.packetSize
    · intro p' hp'
      rw [hp] at hp'
      rcases List.mem_append.mp hp' with hp' | hp'
      · exact h.fits p' hp'
      · have hext := extensionLength_le c.localWnd
        have hlength : p.data.length = c.toRead := by rw [hdata, ← hsize]; rfl
        rw [List.mem_singleton.mp hp', Packet.size, extensionLength_of_sackSent hsack, hlength]
        have hlimit := hlimits.2
        simp only [headerSize, maxBufferSize] at hlimit ⊢
        omega

theorem emits_sendLoop (now fuel : ℕ) (h : c.Steady) : ∃ qs, Emits c (sendLoop now fuel c) qs := by
  induction fuel generalizing c with
  | zero => exact ⟨[], emits_update h c.state c.eofSeqNr c.localWnd⟩
  | succ fuel ih =>
    unfold sendLoop
    split
    · rename_i hroom
      split
      · exact ⟨[], emits_update h c.state c.eofSeqNr c.localWnd⟩
      · obtain ⟨ps, hnext⟩ := emits_sendNext h now hroom.2
        obtain ⟨qs, hrest⟩ := ih hnext.steady
        exact ⟨ps ++ qs, hnext.trans hrest⟩
    · exact ⟨[], emits_update h c.state c.eofSeqNr c.localWnd⟩

theorem emits_sendPackets (now : ℕ) (h : c.Steady) : ∃ qs, Emits c (c.sendPackets now) qs := by
  obtain ⟨qs, hloop⟩ := emits_sendLoop now c.outputBuffer.length h
  exact ⟨qs ++ [], hloop.trans (emits_finishSending hloop.steady)⟩

theorem emits_sendStateOrData (now : ℕ) (h : c.Steady) :
    ∃ qs, Emits c (c.sendStateOrData now) qs := by
  unfold sendStateOrData
  split
  · exact emits_sendPackets now h
  · exact ⟨[], emits_sendState h⟩

theorem emits_after_update (h : c.Steady) (state : ConnectionState) (eof : Option UInt16)
    (w : LocalWindow) {c' : Connection} {f : Connection → Connection}
    (hf : ∀ c : Connection, c.Steady → ∃ qs, Emits c (f c) qs)
    (hc : c' = f { c with state := state, eofSeqNr := eof, localWnd := w }) :
    ∃ qs, Emits c c' qs := by
  have hupdate := emits_update h state eof w
  obtain ⟨qs, hqs⟩ := hf _ hupdate.steady
  rw [hc]
  exact ⟨[] ++ qs, hupdate.trans hqs⟩

/-- What follows once the call that may send has been made. -/
theorem emits_then {f g : Connection → Connection}
    (hf : ∀ c : Connection, c.Steady → ∃ qs, Emits c (f c) qs)
    (hg : ∀ c : Connection, c.Steady → Emits c (g c) []) (c : Connection) (h : c.Steady) :
    ∃ qs, Emits c (g (f c)) qs := by
  obtain ⟨qs, hqs⟩ := hf c h
  exact ⟨qs ++ [], hqs.trans (hg _ hqs.steady)⟩

theorem emits_dispatch {c' : Connection} {now : ℕ} {p : Packet} (h : c.Steady)
    (hd : c.dispatch now p = some c') : ∃ qs, Emits c c' qs := by
  have hpackets : ∀ c : Connection, c.Steady → ∃ qs, Emits c (c.sendPackets now) qs :=
    fun _ => emits_sendPackets now
  have hclosing : ∀ c : Connection, c.Steady →
      ∃ qs, Emits c (c.sendPackets now).checkIfClosed qs :=
    emits_then hpackets fun _ => emits_checkIfClosed
  have habort : ∀ c : Connection, c.Steady → ∃ qs, Emits c c.abort qs :=
    fun _ hc => ⟨[], emits_abort hc⟩
  unfold dispatch at hd
  cases hstate : c.state with
  | synSent =>
    rw [hstate] at hd
    dsimp only at hd
    split at hd
    · exact ⟨[], Option.some.inj hd ▸ emits_update h .connected c.eofSeqNr _⟩
    · exact ⟨[], Option.some.inj hd ▸ emits_abort h⟩
  | idle =>
    rw [hstate] at hd
    dsimp only at hd
    split at hd
    · have hsyn := emits_update h c.state c.eofSeqNr (c.localWnd.setLastSeqNr p.seqNr)
      have hanswer := hsyn.trans (emits_sendState hsyn.steady)
      exact ⟨_, Option.some.inj hd ▸
        hanswer.trans (emits_update hanswer.steady .connected _ _)⟩
    · exact ⟨[], Option.some.inj hd ▸ emits_abort h⟩
  | connected =>
    rw [hstate] at hd
    cases htype : p.type with
    | stData =>
      simp only [htype] at hd
      split at hd
      · cases hd
      · exact emits_after_update h c.state c.eofSeqNr _ habort (Option.some.inj hd).symm
      · exact emits_after_update h .connected c.eofSeqNr _ (fun _ => emits_sendStateOrData now)
          (Option.some.inj hd).symm
    | stState =>
      simp only [htype] at hd
      exact Option.some.inj hd ▸ hpackets c h
    | stFin =>
      simp only [htype] at hd
      exact emits_after_update h .finished (some p.seqNr) c.localWnd hclosing
        (Option.some.inj hd).symm
    | stReset =>
      simp only [htype] at hd
      exact Option.some.inj hd ▸ habort c h
    | stSyn =>
      simp only [htype] at hd
      exact Option.some.inj hd ▸ habort c h
  | finished =>
    rw [hstate] at hd
    cases htype : p.type with
    | stData =>
      simp only [htype] at hd
      split at hd
      · cases hd
      · exact emits_after_update h c.state c.eofSeqNr _ habort (Option.some.inj hd).symm
      · exact emits_after_update h .finished c.eofSeqNr _
          (emits_then (emits_then (fun _ => emits_sendStateOrData now) fun _ => emits_finishSending)
            fun _ => emits_checkIfClosed) (Option.some.inj hd).symm
    | stState =>
      simp only [htype] at hd
      exact Option.some.inj hd ▸ hclosing c h
    | stFin =>
      simp only [htype] at hd
      exact emits_after_update h .finished (some p.seqNr) c.localWnd hclosing
        (Option.some.inj hd).symm
    | stReset =>
      simp only [htype] at hd
      exact Option.some.inj hd ▸ habort c h
    | stSyn =>
      simp only [htype] at hd
      exact Option.some.inj hd ▸ habort c h
  | closed =>
    rw [hstate] at hd
    exact ⟨[], Option.some.inj hd ▸ emits_update h c.state c.eofSeqNr c.localWnd⟩

/-! ## Before the new packets -/

theorem retransmit_seqNr (packets : List UnackedPacket) :
    ∀ c : Connection, (c.retransmit packets).seqNr = c.seqNr := by
  induction packets with
  | nil => exact fun c => rfl
  | cons p ps ih => exact fun c => ih _

theorem retransmit_packetSize (packets : List UnackedPacket) :
    ∀ c : Connection, (c.retransmit packets).packetSize = c.packetSize := by
  induction packets with
  | nil => exact fun c => rfl
  | cons p ps ih => exact fun c => ih _

/-- Packets that are sent again have their old numbers and fit, as they were small enough. -/
theorem retransmit_wire (packets : List UnackedPacket)
    (hsmall : ∀ q ∈ packets, q.packet.payloadSize ≤ maxPacketSize) :
    ∀ c : Connection, ∃ ps, (c.retransmit packets).sent = c.sent ++ ps ∧
      ∀ p ∈ ps, p.size ≤ maxBufferSize ∧ ∃ q ∈ packets, q.number = p.number := by
  induction packets with
  | nil => exact fun c => ⟨[], (List.append_nil _).symm, fun _ hp => by cases hp⟩
  | cons q packets ih =>
    intro c
    have hone : ∃ p : Packet, (c.sendDataPacket q.packet q.number).sent = c.sent ++ [p] ∧
        p.number = q.number ∧ p.data = q.packet.payload ∧ p.sack = sackSent c.localWnd :=
      ⟨_, rfl, rfl, rfl, rfl⟩
    obtain ⟨p, hp, hnumber, hdata, hsack⟩ := hone
    obtain ⟨ps, hps, hall⟩ := ih (fun q' hq' => hsmall q' (List.mem_cons_of_mem q hq'))
      (c.sendDataPacket q.packet q.number)
    refine ⟨p :: ps, ?_, ?_⟩
    · show ((c.sendDataPacket q.packet q.number).retransmit packets).sent = _
      rw [hps, hp, List.append_assoc, List.singleton_append]
    · intro p' hp'
      rcases List.mem_cons.mp hp' with rfl | hp'
      · have hext := extensionLength_le c.localWnd
        have hq : p'.data.length ≤ maxPacketSize := by
          rw [hdata]
          exact hsmall q List.mem_cons_self
        refine ⟨?_, q, List.mem_cons_self, hnumber.symm⟩
        rw [Packet.size, extensionLength_of_sackSent hsack]
        simp only [maxPacketSize, headerSize, maxBufferSize, ipAndUdpOverhead] at hq ⊢
        omega
      · obtain ⟨hsize, q', hq', hsame⟩ := hall p' hp'
        exact ⟨hsize, q', List.mem_cons_of_mem q hq', hsame⟩

/-- Some packets in flight are removed, and some are sent again. -/
theorem prepares_retransmit (h : c.Steady) {w : RemoteWindow} {resent : List UnackedPacket}
    (hkeys : w.keys.Sublist c.remoteWnd.keys) (hcur : w.curWindow = packetSum w.unackedPackets)
    (hmax : w.maxWindow < 2 ^ 32) (hwnd : w.wndSize < 2 ^ 32)
    (hresent : resent.map UnackedPacket.key ⊆ w.keys) :
    Prepares c ({ c with remoteWnd := w }.retransmit resent) := by
  have hold : ∀ q ∈ resent, q.key ∈ c.remoteWnd.keys := fun q hq =>
    hkeys.subset (hresent (List.mem_map_of_mem hq))
  have hle : packetSum w.unackedPackets ≤ packetSum c.remoteWnd.unackedPackets :=
    (hkeys.map fun key : PacketBuffer × ℕ => key.1.payloadSize).sum_le_sum
      fun _ _ => Nat.zero_le _
  obtain ⟨ps, hps, hall⟩ := retransmit_wire resent (fun q hq => h.payloads _ (hold q hq))
    { c with remoteWnd := w }
  have hremote := retransmit_remoteWnd resent { c with remoteWnd := w }
  have hseq := retransmit_seqNr resent { c with remoteWnd := w }
  have hbefore := h.curWindow
  have hbefore_lt := h.curWindow_lt
  refine ⟨hseq, ⟨ps, hps, fun p hp _ => ?_⟩, ?_⟩
  · obtain ⟨-, q, hq, hsame⟩ := hall p hp
    rw [← hsame]
    exact h.numbers _ (hold q hq)
  · refine ⟨?_, ?_, ?_, ?_, ?_, ?_, ?_, ?_⟩
    · rw [hremote]
      exact hcur
    · rw [hremote]
      show w.curWindow < _
      omega
    · rw [hremote]
      exact hmax
    · rw [hremote]
      exact hwnd
    · rw [hremote, hseq]
      exact fun key hkey => h.numbers key (hkeys.subset hkey)
    · rw [hremote]
      exact fun key hkey => h.payloads key (hkeys.subset hkey)
    · rw [retransmit_packetSize]
      exact h.packetSize
    · intro p hp
      rw [hps] at hp
      rcases List.mem_append.mp hp with hp | hp
      · exact h.fits p hp
      · exact (hall p hp).1

theorem Prepares.resize (h : Prepares a b) {maxWindow packetSize : ℕ} (hmax : maxWindow < 2 ^ 32)
    (hsize : packetSize ≤ maxPacketSize) :
    Prepares a { b with
      remoteWnd := { b.remoteWnd with maxWindow := maxWindow }, packetSize := packetSize } := by
  obtain ⟨hseq, hwire, hsteady⟩ := h
  exact ⟨hseq, hwire, hsteady.curWindow, hsteady.curWindow_lt, hmax, hsteady.wndSize_lt,
    hsteady.numbers, hsteady.payloads, hsize, hsteady.fits⟩

theorem prepares_updateDelayMeasurement (h : Prepares a b) (gain : ℤ) :
    Prepares a (b.updateDelayMeasurement gain) := by
  refine h.resize ?_ ?_
  · show (if _ then _ else _) < _
    split
    · decide
    · exact (Int.toNat_lt (Int.emod_nonneg _ (by decide))).mpr
        (Int.emod_lt_of_pos _ (by decide))
  · show (if _ then _ else _) ≤ _
    repeat' split
    all_goals decide

theorem packetReceived_maxWindow_lt (l : Link) {w : RemoteWindow} (hdr : Header)
    (sack : Option SelectiveAck) (h : w.maxWindow < 2 ^ 32) :
    (w.packetReceived l hdr sack).1.maxWindow < 2 ^ 32 := by
  have hite : ∀ lost : Bool,
      (if lost then u32 ((78 * w.maxWindow + 50) / 100) else w.maxWindow) < 2 ^ 32 := by
    intro lost
    split
    · exact u32_lt _
    · exact h
  exact hite _

theorem packetReceived_counts (l : Link) {w : RemoteWindow} (hdr : Header)
    (sack : Option SelectiveAck) (h : w.curWindow = packetSum w.unackedPackets)
    (hlt : w.curWindow < 2 ^ 32) :
    (w.packetReceived l hdr sack).1.curWindow =
      packetSum (w.packetReceived l hdr sack).1.unackedPackets := by
  have hsum := @removeAcked_curWindow hdr sack w.unackedPackets w.curWindow
    h.ge hlt
  have hkeys : packetSum (w.packetReceived l hdr sack).1.unackedPackets =
      packetSum (RemoteWindow.removeAcked hdr sack w.unackedPackets w.curWindow).1 :=
    congrArg payloadSum (packetReceived_keys l w hdr sack)
  rw [packetReceived_curWindow, hkeys]
  omega

theorem prepares_packetAcks (h : c.Steady) (k : Clock) {p : Packet} (hwnd : p.wndSize < 2 ^ 32) :
    Prepares c (c.packetAcks k p) := by
  have hkeys : (c.remoteWnd.packetReceived k.link p.hdr p.sack).1.keys.Sublist
      c.remoteWnd.keys := by
    rw [packetReceived_keys]
    exact (removeAcked_sublist _ _).map _
  exact prepares_updateDelayMeasurement (prepares_retransmit h hkeys
    (packetReceived_counts k.link p.hdr p.sack h.curWindow h.curWindow_lt)
    (packetReceived_maxWindow_lt k.link p.hdr p.sack h.maxWindow_lt) hwnd
    (packetReceived_resent _ _ _ _)) k.gain

/-- The connection after `RemoteWindow::timeout` in `handleTimeout`. -/
def afterTimeout (c : Connection) (l : Link) : Connection :=
  { { c with remoteWnd := (c.remoteWnd.timeout l).1 }.retransmit (c.remoteWnd.timeout l).2 with
    packetSize := minPacketSize }

theorem prepares_timeout (h : c.Steady) (l : Link) : Prepares c (c.afterTimeout l) := by
  have hkeys : (c.remoteWnd.timeout l).1.keys = c.remoteWnd.keys := resendAll_keys l _
  have hcur : (c.remoteWnd.timeout l).1.curWindow =
      packetSum (c.remoteWnd.timeout l).1.unackedPackets :=
    h.curWindow.trans (congrArg payloadSum hkeys.symm)
  have hprepared := prepares_retransmit h (w := (c.remoteWnd.timeout l).1)
    (by rw [hkeys]) hcur (by decide : minPacketSize < 2 ^ 32) h.wndSize_lt (timeout_resent l _)
  exact hprepared.resize hprepared.steady.maxWindow_lt (by decide)

theorem packetAcks_wndSize (k : Clock) (p : Packet) :
    (c.packetAcks k p).remoteWnd.wndSize = p.wndSize := by
  show (RemoteWindow.updateWindowSize _ _).wndSize = _
  rw [retransmit_remoteWnd]
  rfl

/-! ## One step -/

/-- A flow between two steps. -/
structure Flowing (f : Flow) : Prop where
  steady : f.conn.Steady
  remaining : f.conn.remoteWnd.wndSize + f.since = f.advertised

/-- The bytes in flight in new packets are those that sending has added. -/
theorem Emits.newBytes {qs : List UnackedPacket} (hprep : Prepares a b) (h : Emits b c qs) :
    c.newBytes a.seqNr = packetSum qs := by
  have hold : b.remoteWnd.unackedPackets.filter (fun q => a.seqNr ≤ q.number) = [] := by
    rw [List.filter_eq_nil_iff]
    intro q hq
    have hlt := hprep.steady.numbers q.key (List.mem_map_of_mem hq)
    have hseq := hprep.seqNr
    simp only [UnackedPacket.key] at hlt
    simp only [decide_eq_true_eq]
    omega
  have hnew : qs.filter (fun q => a.seqNr ≤ q.number) = qs := by
    rw [List.filter_eq_self]
    intro q hq
    have hle := h.numbers q hq
    have hseq := hprep.seqNr
    simp only [decide_eq_true_eq]
    omega
  rw [Connection.newBytes, h.unacked, List.filter_append, hold, hnew, List.nil_append]

/-- **A step** that prepares and then sends is under flow control. -/
theorem flowControl_of {f f' : Flow} {since : ℕ} {qs : List UnackedPacket}
    (hprep : Prepares f.conn b) (hemit : Emits b f'.conn qs)
    (hremaining : b.remoteWnd.wndSize + since = f'.advertised)
    (hsince : f'.since = since + f'.conn.newBytes f.conn.seqNr) :
    FlowControl f f' ∧ Flowing f' := by
  have hleft := hemit.wndSize
  rw [hemit.newBytes hprep] at hsince
  have hall : f'.conn.remoteWnd.wndSize + f'.since = f'.advertised := by omega
  refine ⟨⟨?_, hall, hemit.steady.fits⟩, hemit.steady, hall⟩
  obtain ⟨xs, hxs, hx⟩ := hprep.wire
  obtain ⟨ys, hys, hy⟩ := hemit.wire
  refine ⟨xs ++ ys, by rw [hys, hxs, List.append_assoc], ?_⟩
  intro p hp htype hnew
  rcases List.mem_append.mp hp with hp | hp
  · exact absurd (hx p hp htype) (not_lt.mpr hnew)
  · obtain ⟨q, hq, hnumber, hdata⟩ := hy p hp htype
    obtain ⟨before, after, rfl⟩ := List.append_of_mem hq
    have hbound := hemit.bound (by simp)
    refine ⟨b.remoteWnd.unackedPackets ++ before, q, after, ?_, hnumber, hdata, ?_⟩
    · rw [hemit.unacked, List.append_assoc]
    · rw [hemit.unacked, packetSum_append, packetSum_append, packetSum_cons] at hbound
      rw [packetSum_append, packetSum_append, packetSum_cons, packetSum_nil, hemit.maxWindow]
      omega

/-- Nothing comes before the new packets. -/
theorem Steady.prepares (h : c.Steady) : Prepares c c :=
  ⟨rfl, ⟨[], (List.append_nil _).symm, fun _ hp => by cases hp⟩, h⟩

theorem emits_recv (h : c.Steady) {maxLen : ℕ} {r : Option (List UInt8) × Connection}
    (hr : c.recv maxLen = some r) : Emits c r.2 [] := by
  have hchecked : Emits c (if c.state = .finished then c.checkIfClosed else c) [] := by
    split
    · exact emits_checkIfClosed h
    · exact emits_update h c.state c.eofSeqNr c.localWnd
  unfold recv at hr
  dsimp only at hr
  obtain ⟨b, hb⟩ : ∃ b, b = if c.state = .finished then c.checkIfClosed else c := ⟨_, rfl⟩
  rw [← hb] at hr hchecked
  split at hr
  · rw [← Option.some.inj hr]
    exact hchecked
  · split at hr
    · cases hr
    · rename_i w _
      have hread := emits_update hchecked.steady b.state b.eofSeqNr w
      rw [← Option.some.inj hr]
      exact hchecked.trans (hread.trans (emits_updateWindow hread.steady))

theorem emits_handleTimeout (h : c.Steady) (k : Clock) (maxReached keepAlive : Bool) :
    ∃ b qs, Prepares c b ∧ b.remoteWnd.wndSize = c.remoteWnd.wndSize ∧
      Emits b (c.handleTimeout k maxReached keepAlive) qs := by
  have hstays : ∀ state, Emits c { c with state := state } [] := fun state =>
    emits_update h state c.eofSeqNr c.localWnd
  unfold handleTimeout
  split
  · exact ⟨c, [], h.prepares, rfl, hstays .closed⟩
  · exact ⟨c, [], h.prepares, rfl, hstays .closed⟩
  · have hprep := prepares_timeout h k.link
    have hwnd : (c.afterTimeout k.link).remoteWnd.wndSize = c.remoteWnd.wndSize := by
      rw [afterTimeout]
      dsimp only
      rw [retransmit_remoteWnd]
      rfl
    refine ⟨c.afterTimeout k.link, ?_⟩
    dsimp only
    split
    · have hfinished := emits_update hprep.steady .finished (c.afterTimeout k.link).eofSeqNr
        (c.afterTimeout k.link).localWnd
      exact ⟨_, hprep, hwnd, hfinished.trans (emits_sendReset hfinished.steady)⟩
    · obtain ⟨qs, hqs⟩ := emits_sendPackets k.now hprep.steady
      split
      · exact ⟨_, hprep, hwnd, hqs.trans (emits_sendState hqs.steady)⟩
      · exact ⟨qs, hprep, hwnd, hqs⟩
  · exact ⟨c, [], h.prepares, rfl, hstays c.state⟩
  · exact ⟨c, [], h.prepares, rfl, hstays c.state⟩

end Connection

namespace Flow

open Connection

variable {f : Flow}

/-- A call without a header keeps flow control. -/
theorem flowControl_call (h : Flowing f) {b c : Connection} {qs : List UnackedPacket}
    (hprep : Prepares f.conn b) (hwnd : b.remoteWnd.wndSize = f.conn.remoteWnd.wndSize)
    (hemit : Emits b c qs) : FlowControl f (f.call c) ∧ Flowing (f.call c) :=
  flowControl_of hprep hemit (by rw [hwnd]; exact h.remaining) rfl

/-- **One event** under flow control. -/
theorem flowControl_step (h : Flowing f) (e : FlowEvent) {f' : Flow}
    (hstep : step (some f) e = some f') : FlowControl f f' ∧ Flowing f' := by
  have hsame := h.steady.prepares
  cases e with
  | packet k p hwnd =>
    obtain ⟨c, hc, rfl⟩ := Option.map_eq_some_iff.mp hstep
    have hprep := prepares_packetAcks h.steady k hwnd
    obtain ⟨qs, hemit⟩ := emits_dispatch hprep.steady hc
    refine flowControl_of hprep hemit ?_ (Nat.zero_add _).symm
    rw [packetAcks_wndSize]
    rfl
  | send now data =>
    cases hstep
    unfold Connection.send
    split
    · have hbuffered := emits_buffer h.steady
        (f.conn.outputBuffer ++ data.take (outputCapacity - f.conn.outputBuffer.length))
      obtain ⟨qs, hqs⟩ := emits_sendPackets now hbuffered.steady
      exact flowControl_call h hsame rfl (hbuffered.trans hqs)
    · exact flowControl_call h hsame rfl (emits_update h.steady f.conn.state _ _)
  | recv maxLen =>
    obtain ⟨r, hr, rfl⟩ := Option.map_eq_some_iff.mp hstep
    exact flowControl_call h hsame rfl (emits_recv h.steady hr)
  | timeout k maxReached keepAlive =>
    cases hstep
    obtain ⟨b, qs, hprep, hwnd, hemit⟩ := emits_handleTimeout h.steady k maxReached keepAlive
    exact flowControl_call h hprep hwnd hemit
  | close now =>
    cases hstep
    unfold Connection.close
    split
    · have hfinished := emits_update h.steady .finished f.conn.eofSeqNr f.conn.localWnd
      obtain ⟨qs, hqs⟩ := emits_sendPackets now hfinished.steady
      exact flowControl_call h hsame rfl (hfinished.trans hqs)
    · exact flowControl_call h hsame rfl (emits_update h.steady f.conn.state _ _)

/-- Flow control of every step that follows. -/
theorem allSteps_flowControlled {c : Connection} (h : Flowing (Flow.start c))
    (es : List FlowEvent) : AllSteps Flow.step FlowControlled (some (Flow.start c)) es := by
  refine @allSteps_of_step _ _ _ (fun s => ∀ f, s = some f → Flowing f) _ ?_ ?_ es _ ?_
  · intro s e hs f' hf'
    cases s with
    | none => cases hf'
    | some f => exact (Flow.flowControl_step (hs f rfl) e hf').2
  · intro s e hs
    cases s with
    | none => trivial
    | some f => exact fun f' hf' => (Flow.flowControl_step (hs f rfl) e hf').1
  · intro f hf
    rw [← Option.some.inj hf]
    exact h

theorem flowing_start {c : Connection} (hwnd : c.remoteWnd = .new)
    (hsize : c.packetSize = maxPacketSize) (hfits : ∀ p ∈ c.sent, p.size ≤ maxBufferSize) :
    Flowing (Flow.start c) := by
  refine ⟨⟨?_, ?_, ?_, ?_, ?_, ?_, hsize.le, hfits⟩, ?_⟩
  all_goals
    show _
    simp only [start, hwnd]
  · rfl
  · decide
  · decide
  · decide
  · exact fun key hkey => by cases hkey
  · exact fun key hkey => by cases hkey
  · rfl

/-- **Flow control** in every run of a connection, on both sides. -/
theorem allSteps_flowControl (recvConnectionId : UInt16) (es : List FlowEvent) :
    AllSteps Flow.step FlowControlled (some (start (.incoming recvConnectionId))) es ∧
      AllSteps Flow.step FlowControlled (some (start (.connecting recvConnectionId))) es := by
  refine ⟨allSteps_flowControlled (flowing_start rfl rfl fun _ hp => by cases hp) es,
    allSteps_flowControlled (flowing_start rfl rfl ?_) es⟩
  intro p hp
  rw [List.mem_singleton.mp hp]
  exact size_of_empty (w := LocalWindow.new receiveCapacity) rfl rfl

end Flow

end KTorrent.Utp
