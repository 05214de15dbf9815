import KTorrent.Utp.Connection

/-!
# What a connection does in one step

Every call of a connection changes the window and the state in one place and
then sends; sending changes neither.

* `Sends c c'` — the connection has only sent packets, and none of them ends or
  opens a connection.
* `Settles c c'` — it has sent packets and then checked whether it is closed.
* `Connection.fatal` — the packets that make it give up.
* `handlePacket_cases` — everything that `handlePacket` can do.
-/

namespace KTorrent
namespace Utp

/-- What sending leaves alone, and what it sends. -/
structure Sends (c c' : Connection) : Prop where
  state : c'.state = c.state
  eofSeqNr : c'.eofSeqNr = c.eofSeqNr
  localWnd : c'.localWnd = c.localWnd
  recvConnectionId : c'.recvConnectionId = c.recvConnectionId
  sent : ∃ new, c'.sent = c.sent ++ new ∧ ∀ p ∈ new, p.type ≠ .stReset ∧ p.type ≠ .stSyn

/-- The connection closes because both windows are empty. -/
structure Closes (c c' : Connection) : Prop where
  state : c.state = .finished
  acked : c.remoteWnd.allPacketsAcked = true
  empty : c.localWnd.incomingPackets = []
  closed : c' = { c with state := .closed }

/-- The connection sends, and may then close because both windows are empty. -/
def Settles (c c' : Connection) : Prop := Sends c c' ∨ ∃ b, Sends c b ∧ Closes b c'

/-! ## Sending -/

theorem Sends.refl (c : Connection) : Sends c c :=
  ⟨rfl, rfl, rfl, rfl, [], (List.append_nil _).symm, fun _ hp => by cases hp⟩

theorem Sends.trans {a b c : Connection} (hab : Sends a b) (hbc : Sends b c) : Sends a c := by
  obtain ⟨n₁, hn₁, ht₁⟩ := hab.sent
  obtain ⟨n₂, hn₂, ht₂⟩ := hbc.sent
  refine ⟨hbc.state.trans hab.state, hbc.eofSeqNr.trans hab.eofSeqNr,
    hbc.localWnd.trans hab.localWnd, hbc.recvConnectionId.trans hab.recvConnectionId,
    n₁ ++ n₂, ?_, ?_⟩
  · rw [hn₂, hn₁, List.append_assoc]
  · intro p hp
    rcases List.mem_append.mp hp with hp | hp
    · exact ht₁ p hp
    · exact ht₂ p hp

theorem Sends.settles {a b c : Connection} (hab : Sends a b) (hbc : Settles b c) : Settles a c := by
  rcases hbc with hbc | ⟨b', hbb, hclose⟩
  · exact .inl (hab.trans hbc)
  · exact .inr ⟨b', hab.trans hbb, hclose⟩

/-- One packet, with whatever changes beside the window and the state. -/
theorem sends_one {c c' : Connection} {p : Packet} (hstate : c'.state = c.state)
    (heof : c'.eofSeqNr = c.eofSeqNr) (hwnd : c'.localWnd = c.localWnd)
    (hid : c'.recvConnectionId = c.recvConnectionId) (hsent : c'.sent = c.sent ++ [p])
    (htype : p.type ≠ .stReset ∧ p.type ≠ .stSyn) : Sends c c' := by
  refine ⟨hstate, heof, hwnd, hid, [p], hsent, ?_⟩
  intro q hq
  rw [List.mem_singleton.mp hq]
  exact htype

namespace Connection

theorem sends_sendState (c : Connection) : Sends c c.sendState :=
  sends_one rfl rfl rfl rfl rfl ⟨by simp, by simp⟩

theorem sends_sendDataPacket (c : Connection) (packet : PacketBuffer) (number : ℕ) :
    Sends c (c.sendDataPacket packet number) :=
  sends_one rfl rfl rfl rfl rfl ⟨by simp, by simp⟩

theorem sends_retransmit (packets : List UnackedPacket) :
    ∀ c : Connection, Sends c (c.retransmit packets) := by
  induction packets with
  | nil => exact fun c => Sends.refl c
  | cons p ps ih => exact fun c => (sends_sendDataPacket c p.packet p.number).trans (ih _)

theorem sends_sendNext (c : Connection) (now : ℕ) : Sends c (c.sendNext now) :=
  sends_one rfl rfl rfl rfl rfl ⟨by simp, by simp⟩

theorem sends_sendLoop (now fuel : ℕ) : ∀ c : Connection, Sends c (sendLoop now fuel c) := by
  induction fuel with
  | zero => exact fun c => Sends.refl c
  | succ fuel ih =>
    intro c
    unfold sendLoop
    split
    · split
      · exact Sends.refl c
      · exact (sends_sendNext c now).trans (ih _)
    · exact Sends.refl c

theorem sends_finishSending (c : Connection) : Sends c c.finishSending := by
  unfold finishSending
  split
  · exact sends_one rfl rfl rfl rfl rfl ⟨by simp, by simp⟩
  · exact Sends.refl c

theorem sends_sendPackets (c : Connection) (now : ℕ) : Sends c (c.sendPackets now) :=
  (sends_sendLoop now _ c).trans (sends_finishSending _)

theorem sends_sendStateOrData (c : Connection) (now : ℕ) : Sends c (c.sendStateOrData now) := by
  unfold sendStateOrData
  split
  · exact sends_sendPackets c now
  · exact sends_sendState c

theorem sends_updateWindow (c : Connection) : Sends c c.updateWindow := by
  unfold updateWindow
  split
  · exact sends_sendState c
  · exact Sends.refl c

theorem sends_packetAcks (c : Connection) (k : Clock) (p : Packet) : Sends c (c.packetAcks k p) := by
  obtain ⟨hstate, heof, hwnd, hid, hsent⟩ := sends_retransmit
    (c.remoteWnd.packetReceived k.link p.hdr p.sack).2
    { c with remoteWnd := (c.remoteWnd.packetReceived k.link p.hdr p.sack).1 }
  exact ⟨hstate, heof, hwnd, hid, hsent⟩

theorem settles_checkIfClosed (c : Connection) : Settles c c.checkIfClosed := by
  unfold checkIfClosed
  split
  · rename_i h
    exact .inr ⟨c, Sends.refl c, h.1, h.2.1, List.isEmpty_iff.mp h.2.2, rfl⟩
  · exact .inl (Sends.refl c)

end Connection

/-! ## Receiving -/

section Updates

variable {c c' : Connection}

/-- The window and the state may change before something is sent as well as after. -/
theorem Sends.update (h : Sends c c') (state : ConnectionState) (eof : Option UInt16) (w : LocalWindow) :
    Sends { c with state := state, eofSeqNr := eof, localWnd := w }
      { c' with state := state, eofSeqNr := eof, localWnd := w } :=
  ⟨rfl, rfl, rfl, h.recvConnectionId, h.sent⟩

end Updates

namespace Connection

/-- The receive window has no room for the packet, which is not an old one. -/
def refuses (c : Connection) (p : Packet) : Bool :=
  !seqNrCmpSE p.seqNr c.localWnd.lastSeqNr && decide (c.localWnd.availableSpace < p.data.length)

/-- The packet is pushed into the receive window. -/
def Pushes (c : Connection) (p : Packet) : Prop :=
  p.type = .stData ∧ (c.state = .connected ∨ c.state = .finished ∧ c.beforeEof p = true)

instance (c : Connection) (p : Packet) : Decidable (c.Pushes p) :=
  inferInstanceAs (Decidable (_ ∧ (_ ∨ _ ∧ _)))

/-- The packet is pushed into the receive window, which neither drops it as old nor
refuses it. -/
def Takes (c : Connection) (p : Packet) : Prop :=
  c.Pushes p ∧ seqNrCmpSE p.seqNr c.localWnd.lastSeqNr = false ∧ c.refuses p = false

instance (c : Connection) (p : Packet) : Decidable (c.Takes p) := inferInstanceAs (Decidable (_ ∧ _ ∧ _))

/-- The packets on which the connection gives up. -/
def fatal (c : Connection) (p : Packet) : Bool :=
  match c.state with
  | .idle => p.type != .stSyn
  | .synSent => p.type != .stState
  | .connected =>
    match p.type with
    | .stData => c.refuses p
    | .stState | .stFin => false
    | .stReset | .stSyn => true
  | .finished =>
    match p.type with
    | .stData => c.beforeEof p && c.refuses p
    | .stState | .stFin => false
    | .stReset | .stSyn => true
  | .closed => false

end Connection

/-- What `handlePacket` does with a packet that is not fatal. -/
inductive Handled (c : Connection) (p : Packet) (c' : Connection) : Prop where
  | ignored (state : c.state = .closed) (sends : Sends c c')
  | opened (state : c.state = .synSent) (type : p.type = .stState)
      (sends : Sends { c with
        state := .connected, localWnd := c.localWnd.setLastSeqNr (p.seqNr - 1) } c')
  | accepted (state : c.state = .idle) (type : p.type = .stSyn)
      (sends : Sends { c with
        state := .connected, localWnd := c.localWnd.setLastSeqNr p.seqNr } c')
  | pushed (w : LocalWindow) (pushes : c.Pushes p)
      (push : c.localWnd.packetReceived p.seqNr p.data 0 = some (true, w))
      (settles : Settles { c with localWnd := w } c')
  | dropped (state : c.state = .finished) (type : p.type = .stData)
      (beyond : c.beforeEof p = false) (settles : Settles c c')
  | acks (state : c.state = .connected ∨ c.state = .finished) (type : p.type = .stState)
      (settles : Settles c c')
  | ended (state : c.state = .connected ∨ c.state = .finished) (type : p.type = .stFin)
      (settles : Settles { c with eofSeqNr := some p.seqNr, state := .finished } c')

namespace Connection

variable {c c' : Connection} {k : Clock} {p : Packet}

theorem packetReceived_refuses (h : c.refuses p = true) :
    c.localWnd.packetReceived p.seqNr p.data 0 = some (false, c.localWnd) := by
  obtain ⟨hold, hroom⟩ : seqNrCmpSE p.seqNr c.localWnd.lastSeqNr = false ∧
      c.localWnd.availableSpace < p.data.length := by
    simpa [refuses] using h
  simp only [LocalWindow.packetReceived, hold, Bool.false_eq_true, if_false, Nat.sub_zero,
    if_pos hroom]

theorem room_of_not_refuses (h : c.refuses p = false)
    (hold : seqNrCmpSE p.seqNr c.localWnd.lastSeqNr = false) :
    p.data.length ≤ c.localWnd.availableSpace := by
  simpa [refuses, hold] using h

theorem packetReceived_true_of_not_refuses (h : c.refuses p = false) {ok : Bool} {w : LocalWindow}
    (hrecv : c.localWnd.packetReceived p.seqNr p.data 0 = some (ok, w)) : ok = true := by
  unfold LocalWindow.packetReceived at hrecv
  split at hrecv
  · cases hrecv
    rfl
  · rename_i hold
    simp only [Nat.sub_zero] at hrecv
    split at hrecv
    · rename_i hroom
      simp [refuses, hold, hroom] at h
    · split at hrecv
      · cases hrecv
      · cases hrecv
        rfl
      · obtain ⟨w₂, -, hw₂⟩ := Option.map_eq_some_iff.mp hrecv
        cases hw₂
        rfl

theorem not_takes (htype : p.type ≠ .stData) : ¬ c.Takes p := fun h => htype h.1.1

/-- Packets are pushed only between the handshake and the end. -/
theorem Pushes.state (h : c.Pushes p) :
    ¬ (c.state = .idle ∨ c.state = .synSent) ∧ c.state ≠ .closed := by
  rcases h.2 with hstate | ⟨hstate, -⟩
  · rw [hstate]
    decide
  · rw [hstate]
    decide

theorem Takes.not_fatal (h : c.Takes p) : c.fatal p = false := by
  obtain ⟨⟨htype, hstate⟩, -, hroom⟩ := h
  unfold fatal
  rcases hstate with hstate | ⟨hstate, heof⟩
  · simp only [hstate, htype, hroom]
  · simp only [hstate, htype, heof, hroom, Bool.and_false]

/-- A packet that is pushed and not fatal is not refused. -/
theorem Pushes.not_refuses (h : c.Pushes p) (hfatal : c.fatal p = false) : c.refuses p = false := by
  unfold fatal at hfatal
  obtain ⟨htype, hstate | ⟨hstate, heof⟩⟩ := h
  · simpa only [hstate, htype] using hfatal
  · simpa only [hstate, htype, heof, Bool.true_and] using hfatal

theorem dispatch_fatal (now : ℕ) (h : c.fatal p = true) : c.dispatch now p = some c.abort := by
  unfold fatal at h
  unfold dispatch
  cases hstate : c.state with
  | idle =>
    rw [hstate] at h
    simp only [if_neg (bne_iff_ne.mp h)]
  | synSent =>
    rw [hstate] at h
    simp only [if_neg (bne_iff_ne.mp h)]
  | connected =>
    rw [hstate] at h
    cases htype : p.type with
    | stData =>
      simp only [htype] at h
      simp only [packetReceived_refuses h, ← hstate]
    | stFin => simp [htype] at h
    | stState => simp [htype] at h
    | stReset => rfl
    | stSyn => rfl
  | finished =>
    rw [hstate] at h
    cases htype : p.type with
    | stData =>
      simp only [htype, Bool.and_eq_true] at h
      simp only [h.1, if_true, packetReceived_refuses h.2, ← hstate]
    | stFin => simp [htype] at h
    | stState => simp [htype] at h
    | stReset => rfl
    | stSyn => rfl
  | closed => simp [hstate] at h

theorem settles_sendPackets (now : ℕ) : Settles c (c.sendPackets now).checkIfClosed :=
  (sends_sendPackets c now).settles (settles_checkIfClosed _)

theorem dispatch_cases {now : ℕ} (hfatal : c.fatal p = false) (h : c.dispatch now p = some c') :
    Handled c p c' := by
  unfold fatal at hfatal
  unfold dispatch at h
  cases hstate : c.state with
  | idle =>
    rw [hstate] at h hfatal
    have htype : p.type = .stSyn := by simpa using hfatal
    simp only [htype, if_true, Option.some.injEq] at h
    subst h
    exact .accepted hstate htype (sends_one rfl rfl rfl rfl rfl ⟨by simp, by simp⟩)
  | synSent =>
    rw [hstate] at h hfatal
    have htype : p.type = .stState := by simpa using hfatal
    simp only [htype, if_true, Option.some.injEq] at h
    subst h
    exact .opened hstate htype (Sends.refl _)
  | connected =>
    rw [hstate] at h hfatal
    cases htype : p.type with
    | stData =>
      simp only [htype] at h hfatal
      split at h
      · cases h
      · rename_i w hrecv
        cases packetReceived_true_of_not_refuses hfatal hrecv
      · rename_i w hrecv
        cases h
        refine .pushed w ⟨htype, .inl hstate⟩ hrecv (.inl ?_)
        rw [← hstate]
        exact sends_sendStateOrData _ now
    | stFin =>
      simp only [htype, Option.some.injEq] at h
      subst h
      exact .ended (.inl hstate) htype (settles_sendPackets now)
    | stState =>
      simp only [htype, Option.some.injEq] at h
      subst h
      exact .acks (.inl hstate) htype (.inl (sends_sendPackets c now))
    | stReset => simp [htype] at hfatal
    | stSyn => simp [htype] at hfatal
  | finished =>
    rw [hstate] at h hfatal
    cases htype : p.type with
    | stData =>
      simp only [htype] at h hfatal
      have hend : ∀ w, Settles { c with localWnd := w }
          ({ c with localWnd := w }.sendStateOrData now).finishSending.checkIfClosed := by
        intro w
        apply (sends_sendStateOrData _ now).settles
        apply (sends_finishSending _).settles
        exact settles_checkIfClosed _
      cases heof : c.beforeEof p with
      | false =>
        simp only [heof, Bool.false_eq_true, if_false, Option.some.injEq] at h
        subst h
        refine .dropped hstate htype heof ?_
        rw [← hstate]
        exact hend c.localWnd
      | true =>
        simp only [heof, if_true, Bool.true_and] at h hfatal
        split at h
        · cases h
        · rename_i w hrecv
          cases packetReceived_true_of_not_refuses hfatal hrecv
        · rename_i w hrecv
          cases h
          refine .pushed w ⟨htype, .inr ⟨hstate, heof⟩⟩ hrecv ?_
          rw [← hstate]
          exact hend w
    | stFin =>
      simp only [htype, Option.some.injEq] at h
      subst h
      refine .ended (.inr hstate) htype ?_
      exact settles_sendPackets now
    | stState =>
      simp only [htype, Option.some.injEq] at h
      subst h
      exact .acks (.inr hstate) htype (settles_sendPackets now)
    | stReset => simp [htype] at hfatal
    | stSyn => simp [htype] at hfatal
  | closed =>
    simp only [hstate, Option.some.injEq] at h
    subst h
    exact .ignored hstate (Sends.refl c)

/-! ## The acks come first -/

section Sent

variable {c₁ : Connection} (hs : Sends c c₁)

include hs

theorem beforeEof_sends : c₁.beforeEof p = c.beforeEof p := by
  rw [beforeEof, beforeEof, hs.eofSeqNr]

theorem fatal_sends : c₁.fatal p = c.fatal p := by
  simp only [fatal, refuses, hs.state, hs.localWnd, beforeEof_sends hs]

theorem handled_sends (h : Handled c₁ p c') : Handled c p c' := by
  cases h with
  | ignored state sends => exact .ignored (hs.state ▸ state) (hs.trans sends)
  | opened state type sends =>
    refine .opened (hs.state ▸ state) type ?_
    rw [← hs.localWnd, ← hs.eofSeqNr]
    exact (hs.update _ _ _).trans sends
  | accepted state type sends =>
    refine .accepted (hs.state ▸ state) type ?_
    rw [← hs.localWnd, ← hs.eofSeqNr]
    exact (hs.update _ _ _).trans sends
  | pushed w pushes push settles =>
    unfold Pushes at pushes
    rw [hs.state, beforeEof_sends hs] at pushes
    rw [hs.localWnd] at push
    refine .pushed w pushes push ?_
    rw [← hs.state, ← hs.eofSeqNr]
    exact (hs.update _ _ _).settles settles
  | dropped state type beyond settles =>
    rw [beforeEof_sends hs] at beyond
    exact .dropped (hs.state ▸ state) type beyond (hs.settles settles)
  | acks state type settles => exact .acks (hs.state ▸ state) type (hs.settles settles)
  | ended state type settles =>
    refine .ended (hs.state ▸ state) type ?_
    rw [← hs.localWnd]
    exact (hs.update _ _ _).settles settles

end Sent

/-- **A fatal packet.**  The connection sends a reset and is closed. -/
theorem handlePacket_fatal (h : c.fatal p = true) :
    c.handlePacket k p = some (c.packetAcks k p).abort := by
  apply dispatch_fatal
  rw [fatal_sends (sends_packetAcks c k p)]
  exact h

/-- **Every other packet.** -/
theorem handlePacket_cases (hfatal : c.fatal p = false) (h : c.handlePacket k p = some c') :
    Handled c p c' := by
  have hs := sends_packetAcks c k p
  apply handled_sends hs
  apply dispatch_cases _ h
  rw [fatal_sends hs]
  exact hfatal

/-- A packet is handled unless the window cannot take it in. -/
theorem handlePacket_isSome
    (h : c.Pushes p → ∃ ok w, c.localWnd.packetReceived p.seqNr p.data 0 = some (ok, w)) :
    ∃ c', c.handlePacket k p = some c' := by
  have hs := sends_packetAcks c k p
  unfold Pushes at h
  rw [← hs.state, ← hs.localWnd, ← beforeEof_sends hs] at h
  unfold handlePacket dispatch
  split
  · split <;> exact ⟨_, rfl⟩
  · split <;> exact ⟨_, rfl⟩
  · rename_i hstate
    split
    · rename_i htype
      obtain ⟨ok, w, hrecv⟩ := h ⟨htype, .inl hstate⟩
      cases ok <;> simp only [hrecv] <;> exact ⟨_, rfl⟩
    all_goals exact ⟨_, rfl⟩
  · rename_i hstate
    split
    · rename_i htype
      cases heof : (c.packetAcks k p).beforeEof p with
      | false => exact ⟨_, rfl⟩
      | true =>
        obtain ⟨ok, w, hrecv⟩ := h ⟨htype, .inr ⟨hstate, heof⟩⟩
        cases ok <;> simp only [if_true, hrecv] <;> exact ⟨_, rfl⟩
    all_goals exact ⟨_, rfl⟩
  · exact ⟨_, rfl⟩

/-! ## `recv` -/

theorem checkIfClosed_localWnd (c : Connection) : c.checkIfClosed.localWnd = c.localWnd := by
  unfold checkIfClosed
  split <;> rfl

/-- The check does nothing in other states. -/
theorem checkIfClosed_guarded (c : Connection) :
    (if c.state = .finished then c.checkIfClosed else c) = c.checkIfClosed := by
  split
  · rfl
  · rename_i hstate
    unfold checkIfClosed
    rw [if_neg fun h => hstate h.1]

/-- Slots in the vector keep the connection open. -/
theorem checkIfClosed_nonempty (h : c.localWnd.incomingPackets ≠ []) : c.checkIfClosed = c := by
  unfold checkIfClosed
  rw [if_neg]
  rintro ⟨-, -, hempty⟩
  exact h (List.isEmpty_iff.mp hempty)

/-- **`recv`** checks whether the connection is closed and then reads. -/
theorem recv_cases {maxLen : ℕ} {r : Option (List UInt8)} (h : c.recv maxLen = some (r, c')) :
    (r = none ∧ c' = c.checkIfClosed ∧ c.localWnd.bytesAvailable = 0 ∧ c'.state = .closed) ∨
      ∃ data w, r = some data ∧ c.localWnd.read maxLen = some (data, w) ∧
        Sends { c.checkIfClosed with localWnd := w } c' := by
  unfold recv at h
  simp only [checkIfClosed_guarded, checkIfClosed_localWnd] at h
  split at h
  · rename_i hend
    obtain ⟨rfl, rfl⟩ := Prod.mk.inj (Option.some.inj h)
    exact .inl ⟨rfl, rfl, hend⟩
  · split at h
    · cases h
    · rename_i data w hread
      obtain ⟨rfl, rfl⟩ := Prod.mk.inj (Option.some.inj h)
      exact .inr ⟨data, w, rfl, hread, sends_updateWindow _⟩

/-! ## The other calls -/

theorem sends_send (c : Connection) (now : ℕ) (data : List UInt8) : Sends c (c.send now data).2 := by
  unfold send
  split
  · obtain ⟨hstate, heof, hwnd, hid, hsent⟩ := sends_sendPackets
      { c with outputBuffer := c.outputBuffer ++ List.take (outputCapacity - c.outputBuffer.length) data }
      now
    exact ⟨hstate, heof, hwnd, hid, hsent⟩
  · exact Sends.refl c

theorem close_cases (c : Connection) (now : ℕ) :
    c.state = .connected ∧ Sends { c with state := .finished } (c.close now) ∨ c.close now = c := by
  unfold close
  split
  · rename_i hstate
    exact .inl ⟨hstate, sends_sendPackets _ now⟩
  · exact .inr rfl

/-- The part of `handleTimeout` that sends the lost packets again. -/
theorem sends_timeout (c : Connection) (k : Clock) :
    Sends c { { c with remoteWnd := (c.remoteWnd.timeout k.link).1 }.retransmit
      (c.remoteWnd.timeout k.link).2 with packetSize := minPacketSize } := by
  obtain ⟨hstate, heof, hwnd, hid, hsent⟩ := sends_retransmit (c.remoteWnd.timeout k.link).2
    { c with remoteWnd := (c.remoteWnd.timeout k.link).1 }
  exact ⟨hstate, heof, hwnd, hid, hsent⟩

/-- **`handleTimeout`** closes the connection, ends it with a reset, or sends again. -/
theorem handleTimeout_cases (c : Connection) (k : Clock) (maxReached keepAlive : Bool) :
    (c.state = .synSent ∨ c.state = .finished) ∧
        c.handleTimeout k maxReached keepAlive = { c with state := .closed } ∨
      (maxReached = true ∧ c.state = .connected ∧ ∃ b, Sends c b ∧
        c.handleTimeout k maxReached keepAlive = { b with state := .finished }.sendReset) ∨
      Sends c (c.handleTimeout k maxReached keepAlive) := by
  unfold handleTimeout
  split
  · rename_i hstate
    exact .inl ⟨.inl hstate, rfl⟩
  · rename_i hstate
    exact .inl ⟨.inr hstate, rfl⟩
  · rename_i hstate
    right
    have hresent := sends_timeout c k
    simp only
    split
    · rename_i hmax
      exact .inl ⟨hmax, hstate, _, hresent, rfl⟩
    · right
      have hsent := hresent.trans (sends_sendPackets _ k.now)
      split
      · exact hsent.trans (sends_sendState _)
      · exact hsent
  · exact .inr (.inr (Sends.refl c))
  · exact .inr (.inr (Sends.refl c))

end Connection

end Utp
end KTorrent
