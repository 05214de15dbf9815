import KTorrent.Utp.ConnectionSteps
import KTorrent.Utp.InFlight

/-!
# The stream that a connection sends

What the application writes goes through the output buffer into numbered packets,
and a packet that is sent again carries the same bytes as before.

* `Sending` — the packets that were sent, cut from the bytes that were written.
* `Grows c c'` — whatever has been sent stays as it is, and new packets continue
  the stream.
* `grows_handlePacket`, `grows_send` and so on — every call of a connection does
  no more than that.
-/

namespace KTorrent
namespace Utp

/-- The packets that a connection has sent.  Its data is numbered from `base + 1` on;
packet `n` carries `payload n`. -/
structure Sending (base : ℕ) (payload : ℕ → List UInt8) (written : List UInt8) (c : Connection) :
    Prop where
  next : base < c.seqNr
  bytes : written = stream payload base (c.seqNr - 1) ++ c.outputBuffer
  unacked : ∀ k ∈ c.remoteWnd.keys, base < k.2 ∧ k.2 < c.seqNr ∧ k.1.payload = payload k.2
  data : ∀ p ∈ c.sent, p.type = .stData → base < p.number ∧ p.number < c.seqNr ∧
    p.data = payload p.number
  fin : ∀ p ∈ c.sent, p.type = .stFin → p.number = c.seqNr ∧ c.finSent = true
  syn : ∀ p ∈ c.sent, p.type = .stSyn → p.number = base
  /-- The end is announced when everything has been sent. -/
  finished : c.finSent = true → c.outputBuffer = [] ∧ (c.state = .finished ∨ c.state = .closed)

/-- What has been sent stays as it is. -/
def Grows (base : ℕ) (written : List UInt8) (c c' : Connection) : Prop :=
  ∀ payload, Sending base payload written c → ∃ payload',
    (∀ n, n < c.seqNr → payload' n = payload n) ∧ c.seqNr ≤ c'.seqNr ∧ c.sent <+: c'.sent ∧
      Sending base payload' written c'

section Grows

variable {base : ℕ} {written : List UInt8} {a b c c' : Connection}

theorem Grows.refl (c : Connection) : Grows base written c c :=
  fun payload h => ⟨payload, fun _ _ => rfl, le_rfl, List.prefix_rfl, h⟩

theorem Grows.trans (hab : Grows base written a b) (hbc : Grows base written b c) :
    Grows base written a c := by
  intro payload h
  obtain ⟨payload₁, hagree₁, hle₁, hsent₁, h₁⟩ := hab payload h
  obtain ⟨payload₂, hagree₂, hle₂, hsent₂, h₂⟩ := hbc payload₁ h₁
  refine ⟨payload₂, fun n hn => ?_, hle₁.trans hle₂, hsent₁.trans hsent₂, h₂⟩
  rw [hagree₂ n (hn.trans_le hle₁), hagree₁ n hn]

/-- Calls that number no packet and announce no end. -/
theorem grows_same (hnext : c'.seqNr = c.seqNr) (hbuf : c'.outputBuffer = c.outputBuffer)
    (hfin : c'.finSent = c.finSent)
    (hstate : c.state = .finished ∨ c.state = .closed → c'.state = .finished ∨ c'.state = .closed)
    (hunacked : c'.remoteWnd.keys ⊆ c.remoteWnd.keys)
    (hsent : ∃ new, c'.sent = c.sent ++ new ∧ ∀ p ∈ new, p.type ≠ .stFin ∧ p.type ≠ .stSyn ∧
      (p.type = .stData → ∃ k ∈ c.remoteWnd.keys, p.number = k.2 ∧ p.data = k.1.payload)) :
    Grows base written c c' := by
  intro payload h
  obtain ⟨new, hnew, htypes⟩ := hsent
  refine ⟨payload, fun _ _ => rfl, hnext.ge, ⟨new, hnew.symm⟩, ?_, ?_, ?_, ?_, ?_, ?_, ?_⟩
  · rw [hnext]
    exact h.next
  · rw [hnext, hbuf]
    exact h.bytes
  · rw [hnext]
    exact fun k hk => h.unacked k (hunacked hk)
  · rw [hnew, hnext]
    intro p hp htype
    rcases List.mem_append.mp hp with hp | hp
    · exact h.data p hp htype
    · obtain ⟨k, hk, hnum, hdata⟩ := (htypes p hp).2.2 htype
      rw [hnum, hdata]
      exact h.unacked k hk
  · rw [hnew, hnext, hfin]
    intro p hp htype
    rcases List.mem_append.mp hp with hp | hp
    · exact h.fin p hp htype
    · exact absurd htype (htypes p hp).1
  · rw [hnew]
    intro p hp htype
    rcases List.mem_append.mp hp with hp | hp
    · exact h.syn p hp htype
    · exact absurd htype (htypes p hp).2.1
  · rw [hfin, hbuf]
    intro hf
    obtain ⟨hempty, hst⟩ := h.finished hf
    exact ⟨hempty, hstate hst⟩

/-- A change of the state or of the receive window. -/
theorem grows_update (hnext : c'.seqNr = c.seqNr) (hbuf : c'.outputBuffer = c.outputBuffer)
    (hfin : c'.finSent = c.finSent)
    (hstate : c.state = .finished ∨ c.state = .closed → c'.state = .finished ∨ c'.state = .closed)
    (hunacked : c'.remoteWnd.keys ⊆ c.remoteWnd.keys) (hsent : c'.sent = c.sent) :
    Grows base written c c' := by
  apply grows_same hnext hbuf hfin hstate hunacked
  refine ⟨[], by rw [hsent, List.append_nil], ?_⟩
  intro p hp
  cases hp

/-! ## Packets without data -/

theorem grows_sendPacket {type : PacketType} (hdata : type ≠ .stData) (hfin : type ≠ .stFin)
    (hsyn : type ≠ .stSyn) (ackNr : UInt16) : Grows base written c (c.sendPacket type ackNr) := by
  refine grows_same rfl rfl rfl id (List.Subset.refl _) ⟨_, rfl, ?_⟩
  intro p hp
  rw [List.mem_singleton.mp hp]
  exact ⟨hfin, hsyn, fun h => absurd h hdata⟩

theorem grows_sendState : Grows base written c c.sendState :=
  grows_sendPacket (by decide) (by decide) (by decide) _

theorem grows_sendReset : Grows base written c c.sendReset :=
  grows_sendPacket (by decide) (by decide) (by decide) _

/-- The end of the stream has the number behind its last packet. -/
theorem grows_finishSending : Grows base written c c.finishSending := by
  unfold Connection.finishSending
  split
  · rename_i hdone
    obtain ⟨hstate, -, hempty⟩ := hdone
    intro payload h
    refine ⟨payload, fun _ _ => rfl, le_rfl, ⟨_, rfl⟩, h.next, h.bytes, h.unacked, ?_, ?_, ?_, ?_⟩
    · intro p hp htype
      rcases List.mem_append.mp hp with hp | hp
      · exact h.data p hp htype
      · rw [List.mem_singleton.mp hp] at htype
        cases htype
    · intro p hp htype
      rcases List.mem_append.mp hp with hp | hp
      · exact ⟨(h.fin p hp htype).1, rfl⟩
      · rw [List.mem_singleton.mp hp]
        exact ⟨rfl, rfl⟩
    · intro p hp htype
      rcases List.mem_append.mp hp with hp | hp
      · exact h.syn p hp htype
      · rw [List.mem_singleton.mp hp] at htype
        cases htype
    · intro _
      exact ⟨List.length_eq_zero_iff.mp hempty, .inl hstate⟩
  · exact Grows.refl c

/-! ## Packets that are sent again -/

theorem grows_sendDataPacket {u : UnackedPacket} (hu : u.key ∈ c.remoteWnd.keys) :
    Grows base written c (c.sendDataPacket u.packet u.number) := by
  refine grows_same rfl rfl rfl id (List.Subset.refl _) ⟨_, rfl, ?_⟩
  intro p hp
  rw [List.mem_singleton.mp hp]
  exact ⟨by simp, by simp, fun _ => ⟨u.key, hu, rfl, rfl⟩⟩

theorem grows_retransmit (packets : List UnackedPacket) :
    ∀ c : Connection, packets.map UnackedPacket.key ⊆ c.remoteWnd.keys →
      Grows base written c (c.retransmit packets) := by
  induction packets with
  | nil => exact fun c _ => Grows.refl c
  | cons u us ih =>
    intro c hsub
    rw [List.map_cons, List.cons_subset] at hsub
    exact (grows_sendDataPacket hsub.1).trans (ih _ hsub.2)

theorem grows_packetAcks (k : Clock) (p : Packet) : Grows base written c (c.packetAcks k p) := by
  have hkeys : (c.remoteWnd.packetReceived k.link p.hdr p.sack).1.keys ⊆ c.remoteWnd.keys := by
    rw [packetReceived_keys]
    exact List.map_subset _ (removeAcked_sublist _ _).subset
  have hwindow : Grows base written c
      { c with remoteWnd := (c.remoteWnd.packetReceived k.link p.hdr p.sack).1 } :=
    grows_update rfl rfl rfl id hkeys rfl
  apply hwindow.trans
  apply (grows_retransmit _ _ (packetReceived_resent k.link c.remoteWnd p.hdr p.sack)).trans
  exact grows_update rfl rfl rfl id (List.Subset.refl _) rfl

/-! ## New packets -/

/-- **One packet of the loop** carries the first bytes of the buffer. -/
theorem grows_sendNext (now : ℕ) (hbuf : c.outputBuffer ≠ []) :
    Grows base written c (c.sendNext now) := by
  intro payload h
  have hopen : c.finSent = false := by
    by_contra hfin
    exact hbuf (h.finished (by simpa using hfin)).1
  have hbase := h.next
  set packet := (PacketBuffer.fillData c.outputBuffer c.toRead).1 with hpacket
  set rest := (PacketBuffer.fillData c.outputBuffer c.toRead).2 with hrest
  have hsplit : packet.payload ++ rest = c.outputBuffer := List.take_append_drop _ _
  set payload' := Function.update payload c.seqNr packet.payload with hpayload'
  have hold : ∀ n, n < c.seqNr → payload' n = payload n :=
    fun n hn => Function.update_of_ne (Nat.ne_of_lt hn) _ _
  have hnew : payload' c.seqNr = packet.payload := Function.update_self _ _ _
  refine ⟨payload', hold, Nat.le_succ _, ⟨_, rfl⟩, Nat.lt_succ_of_lt hbase, ?_, ?_, ?_, ?_, ?_, ?_⟩
  · -- the stream gets longer by the packet
    have hstream : stream payload' base c.seqNr = stream payload base (c.seqNr - 1) ++ packet.payload := by
      have happend := stream_append payload' (show base ≤ c.seqNr - 1 by omega) 1
      rw [show c.seqNr - 1 + 1 = c.seqNr by omega] at happend
      rw [happend, stream_congr fun n _ hn => hold n (by omega)]
      congr 1
      have hcons := stream_cons payload' (c.seqNr - 1) 0
      rw [show c.seqNr - 1 + (0 + 1) = c.seqNr by omega, stream_self, List.append_nil] at hcons
      rw [hcons, hnew]
    show written = stream payload' base c.seqNr ++ rest
    rw [hstream, List.append_assoc, hsplit]
    exact h.bytes
  · intro k hk
    have hk' : k ∈ c.remoteWnd.keys ++ [(packet, c.seqNr)] := by
      have hmap : (c.sendNext now).remoteWnd.keys = c.remoteWnd.keys ++ [(packet, c.seqNr)] :=
        List.map_append
      rw [← hmap]
      exact hk
    rcases List.mem_append.mp hk' with hk' | hk'
    · obtain ⟨h₁, h₂, h₃⟩ := h.unacked k hk'
      exact ⟨h₁, Nat.lt_succ_of_lt h₂, by rw [hold _ h₂, h₃]⟩
    · rw [List.mem_singleton.mp hk']
      exact ⟨hbase, Nat.lt_succ_self _, hnew.symm⟩
  · intro p hp htype
    rcases List.mem_append.mp hp with hp | hp
    · obtain ⟨h₁, h₂, h₃⟩ := h.data p hp htype
      exact ⟨h₁, Nat.lt_succ_of_lt h₂, by rw [hold _ h₂, h₃]⟩
    · rw [List.mem_singleton.mp hp]
      exact ⟨hbase, Nat.lt_succ_self _, hnew.symm⟩
  · intro p hp htype
    rcases List.mem_append.mp hp with hp | hp
    · -- no end has been announced while there are bytes to be sent
      rw [(h.fin p hp htype).2] at hopen
      cases hopen
    · rw [List.mem_singleton.mp hp] at htype
      cases htype
  · intro p hp htype
    rcases List.mem_append.mp hp with hp | hp
    · exact h.syn p hp htype
    · rw [List.mem_singleton.mp hp] at htype
      cases htype
  · intro hfin
    rw [show c.finSent = true from hfin] at hopen
    cases hopen

theorem grows_sendLoop (now fuel : ℕ) :
    ∀ c : Connection, Grows base written c (Connection.sendLoop now fuel c) := by
  induction fuel with
  | zero => exact fun c => Grows.refl c
  | succ fuel ih =>
    intro c
    unfold Connection.sendLoop
    split
    · rename_i hbuf
      split
      · exact Grows.refl c
      · exact (grows_sendNext now (List.length_pos_iff.mp hbuf.1)).trans (ih _)
    · exact Grows.refl c

theorem grows_sendPackets (now : ℕ) : Grows base written c (c.sendPackets now) :=
  (grows_sendLoop now _ c).trans grows_finishSending

theorem grows_sendStateOrData (now : ℕ) : Grows base written c (c.sendStateOrData now) := by
  unfold Connection.sendStateOrData
  split
  · exact grows_sendPackets now
  · exact grows_sendState

/-! ## The calls of a connection -/

theorem grows_checkIfClosed : Grows base written c c.checkIfClosed := by
  unfold Connection.checkIfClosed
  split
  · exact grows_update rfl rfl rfl (fun _ => .inr rfl) (List.Subset.refl _) rfl
  · exact Grows.refl c

theorem grows_abort : Grows base written c c.abort :=
  grows_sendReset.trans (grows_update rfl rfl rfl (fun _ => .inr rfl) (List.Subset.refl _) rfl)

/-- A new receive window, a new end and a new state. -/
theorem grows_receive (w : LocalWindow) (eof : Option UInt16) {state : ConnectionState}
    (hstate : c.state = .finished ∨ c.state = .closed → state = .finished ∨ state = .closed) :
    Grows base written c { c with localWnd := w, eofSeqNr := eof, state := state } :=
  grows_update rfl rfl rfl hstate (List.Subset.refl _) rfl

theorem grows_dispatch {now : ℕ} {p : Packet} (h : c.dispatch now p = some c') :
    Grows base written c c' := by
  unfold Connection.dispatch at h
  split at h
  · rename_i hstate
    split at h
    · cases h
      exact grows_receive _ _ (by rw [hstate]; simp)
    · cases h
      exact grows_abort
  · rename_i hstate
    split at h
    · cases h
      apply (grows_receive (c.localWnd.setLastSeqNr p.seqNr) c.eofSeqNr id).trans
      apply grows_sendState.trans
      refine grows_update rfl rfl rfl ?_ (List.Subset.refl _) rfl
      rintro (hc | hc)
      · cases hstate.symm.trans hc
      · cases hstate.symm.trans hc
    · cases h
      exact grows_abort
  · split at h
    · split at h
      · cases h
      · cases h
        exact (grows_receive _ _ id).trans grows_abort
      · cases h
        exact (grows_receive _ _ id).trans (grows_sendStateOrData now)
    · cases h
      exact grows_sendPackets now
    · cases h
      apply (grows_receive c.localWnd (some p.seqNr) fun _ => .inl rfl).trans
      exact (grows_sendPackets now).trans grows_checkIfClosed
    · cases h
      exact grows_abort
    · cases h
      exact grows_abort
  · rename_i hstate
    split at h
    · split at h
      · cases h
      · cases h
        exact (grows_receive _ _ id).trans grows_abort
      · cases h
        apply (grows_receive _ _ id).trans
        apply (grows_sendStateOrData now).trans
        exact grows_finishSending.trans grows_checkIfClosed
    · cases h
      exact (grows_sendPackets now).trans grows_checkIfClosed
    · cases h
      apply (grows_receive c.localWnd (some p.seqNr) id).trans
      exact (grows_sendPackets now).trans grows_checkIfClosed
    · cases h
      exact grows_abort
    · cases h
      exact grows_abort
  · cases h
    exact Grows.refl c

theorem grows_handlePacket {k : Clock} {p : Packet} (h : c.handlePacket k p = some c') :
    Grows base written c c' :=
  (grows_packetAcks k p).trans (grows_dispatch h)

theorem grows_reset : Grows base written c c.reset := by
  unfold Connection.reset
  split
  · apply grows_sendReset.trans
    refine grows_update rfl rfl rfl (fun _ => .inr rfl) ?_ rfl
    exact List.nil_subset _
  · exact Grows.refl c

theorem grows_close (now : ℕ) : Grows base written c (c.close now) := by
  unfold Connection.close
  split
  · exact (grows_receive c.localWnd c.eofSeqNr fun _ => .inl rfl).trans (grows_sendPackets now)
  · exact Grows.refl c

theorem grows_recv {maxLen : ℕ} {r : Option (List UInt8)} (h : c.recv maxLen = some (r, c')) :
    Grows base written c c' := by
  unfold Connection.recv at h
  simp only [Connection.checkIfClosed_guarded] at h
  split at h
  · cases h
    exact grows_checkIfClosed
  · split at h
    · cases h
    · cases h
      apply grows_checkIfClosed.trans
      apply (grows_receive _ _ id).trans
      unfold Connection.updateWindow
      split
      · exact grows_sendState
      · exact Grows.refl _

theorem grows_handleTimeout (k : Clock) (maxReached keepAlive : Bool) :
    Grows base written c (c.handleTimeout k maxReached keepAlive) := by
  unfold Connection.handleTimeout
  split
  · exact grows_receive c.localWnd c.eofSeqNr fun _ => .inr rfl
  · exact grows_receive c.localWnd c.eofSeqNr fun _ => .inr rfl
  · have hkeys : (c.remoteWnd.timeout k.link).1.keys = c.remoteWnd.keys :=
      resendAll_keys k.link c.remoteWnd.unackedPackets
    have hresent : Grows base written c
        { { c with remoteWnd := (c.remoteWnd.timeout k.link).1 }.retransmit
          (c.remoteWnd.timeout k.link).2 with packetSize := minPacketSize } := by
      have hwindow : Grows base written c { c with remoteWnd := (c.remoteWnd.timeout k.link).1 } :=
        grows_update rfl rfl rfl id (by rw [hkeys]; exact List.Subset.refl _) rfl
      apply hwindow.trans
      apply (grows_retransmit _ _ (timeout_resent k.link c.remoteWnd)).trans
      exact grows_update rfl rfl rfl id (List.Subset.refl _) rfl
    simp only
    split
    · apply hresent.trans
      exact (grows_receive _ _ fun _ => .inl rfl).trans grows_sendReset
    · have hsent := hresent.trans (grows_sendPackets k.now)
      split
      · exact hsent.trans grows_sendState
      · exact hsent
  · exact Grows.refl c
  · exact Grows.refl c

/-- Bytes that the application writes. -/
theorem Sending.write {payload : ℕ → List UInt8} (h : Sending base payload written c)
    (hstate : c.state = .connected) (data : List UInt8) :
    Sending base payload (written ++ data) { c with outputBuffer := c.outputBuffer ++ data } where
  next := h.next
  bytes := by
    show written ++ data = stream payload base (c.seqNr - 1) ++ (c.outputBuffer ++ data)
    rw [← List.append_assoc, ← h.bytes]
  unacked := h.unacked
  data := h.data
  fin := h.fin
  syn := h.syn
  finished := by
    intro hfin
    have hst := (h.finished hfin).2
    rw [hstate] at hst
    simp at hst

end Grows

end Utp
end KTorrent
