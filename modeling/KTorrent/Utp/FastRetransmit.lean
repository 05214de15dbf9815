import KTorrent.Utp.InFlight

/-!
# Fast retransmit

The third state packet with one acknowledgement says that the packet behind it is lost.  The
code looks for that packet with an `int`, in which the successor of 65535 is 65536.

* `Series` — two such packets, with whatever the sender does in between.
* `third_retransmits_iff` — the third one makes it send again, unless it acknowledges 65535.
* `Sender.shift`, `SenderEvent.shift` — all sequence and acknowledgement numbers are moved.
* `Unwrapped` — a header that does not meet the end of the numbers, nor a packet half of them
  away.
* `run_shift` — then a run that is moved sends the same packets again and removes the same.
* `fastRetransmit_exact` — both.
-/

namespace KTorrent.Utp

open Runs RemoteWindow

/-! ## The third duplicate -/

/-- A state packet without a selective ack that acknowledges `a`. -/
def IsAck (a : UInt16) (hdr : Header) : Prop := hdr.type = .stState ∧ hdr.ackNr = a

instance (a : UInt16) (hdr : Header) : Decidable (IsAck a hdr) :=
  inferInstanceAs (Decidable (_ ∧ _))

/-- Something other than a packet. -/
def SenderEvent.Quiet : SenderEvent → Prop
  | .packetReceived .. => False
  | _ => True

/-- From `s`, two packets that acknowledge `a` lead to `s'`, the first ones in a row, with other
events behind each. -/
structure Series (a : UInt16) (s s' : Sender) : Prop where
  fresh : s.window.lastAckNr = a → s.window.lastAckReceiveCount ≤ 1
  run : ∃ link₁ hdr₁ quiet₁ link₂ hdr₂ quiet₂, IsAck a hdr₁ ∧ IsAck a hdr₂ ∧
    (∀ e ∈ quiet₁, SenderEvent.Quiet e) ∧ (∀ e ∈ quiet₂, SenderEvent.Quiet e) ∧
    s' = Runs.run Sender.step s (.packetReceived link₁ hdr₁ none :: quiet₁ ++
      .packetReceived link₂ hdr₂ none :: quiet₂)

/-- Only packets change what is known of acknowledgements. -/
theorem quiet_run (es : List SenderEvent) (hquiet : ∀ e ∈ es, SenderEvent.Quiet e) (s : Sender) :
    (Runs.run Sender.step s es).window.lastAckNr = s.window.lastAckNr ∧
      (Runs.run Sender.step s es).window.lastAckReceiveCount = s.window.lastAckReceiveCount := by
  induction es generalizing s with
  | nil => exact ⟨rfl, rfl⟩
  | cons e es ih =>
    rw [run_cons]
    obtain ⟨hack, hcount⟩ := ih (fun e' he' => hquiet e' (List.mem_cons_of_mem _ he')) (s.step e)
    have he := hquiet e List.mem_cons_self
    rw [hack, hcount]
    cases e with
    | packetReceived => exact absurd he id
    | addPacket packet sendTime => exact ⟨rfl, rfl⟩
    | timeout link => exact ⟨rfl, rfl⟩
    | updateWindowSize d => exact ⟨rfl, rfl⟩

/-- A packet that acknowledges `a` counts. -/
theorem packetReceived_count {a : UInt16} {link : Link} {w : RemoteWindow} {hdr : Header}
    {sack : Option SelectiveAck} (hhdr : IsAck a hdr) :
    (w.packetReceived link hdr sack).1.lastAckNr = a ∧
      (w.packetReceived link hdr sack).1.lastAckReceiveCount =
        if w.lastAckNr = a then u32 (w.lastAckReceiveCount + 1) else 1 := by
  obtain ⟨htype, rfl⟩ := hhdr
  refine ⟨rfl, ?_⟩
  show u32 (if hdr.ackNr = w.lastAckNr then
    if hdr.type = .stState then w.lastAckReceiveCount + 1 else w.lastAckReceiveCount else 1) = _
  rw [if_pos htype]
  by_cases h : w.lastAckNr = hdr.ackNr
  · rw [if_pos h, if_pos h.symm]
  · rw [if_neg h, if_neg (Ne.symm h)]
    rfl

theorem Series.count {a : UInt16} {s s' : Sender} (h : Series a s s') :
    s'.window.lastAckNr = a ∧ 2 ≤ s'.window.lastAckReceiveCount ∧
      s'.window.lastAckReceiveCount ≤ 3 := by
  obtain ⟨hfresh, link₁, hdr₁, quiet₁, link₂, hdr₂, quiet₂, h₁, h₂, hq₁, hq₂, rfl⟩ := h
  rw [List.cons_append, run_cons, run_append, run_cons]
  obtain ⟨s₁, hs₁⟩ : ∃ s₁, s₁ = Runs.run Sender.step
    (s.step (.packetReceived link₁ hdr₁ none)) quiet₁ := ⟨_, rfl⟩
  rw [← hs₁]
  have hfirst := @packetReceived_count a link₁ s.window hdr₁ none h₁
  obtain ⟨hack₁, hcount₁⟩ := quiet_run quiet₁ hq₁ (s.step (.packetReceived link₁ hdr₁ none))
  rw [← hs₁] at hack₁ hcount₁
  replace hack₁ := hack₁.trans hfirst.1
  replace hcount₁ := hcount₁.trans hfirst.2
  have hsecond := @packetReceived_count a link₂ s₁.window hdr₂ none h₂
  obtain ⟨hack₂, hcount₂⟩ := quiet_run quiet₂ hq₂ (s₁.step (.packetReceived link₂ hdr₂ none))
  replace hack₂ := hack₂.trans hsecond.1
  replace hcount₂ := hcount₂.trans hsecond.2
  rw [if_pos hack₁] at hcount₂
  have hbetween : 1 ≤ s₁.window.lastAckReceiveCount ∧ s₁.window.lastAckReceiveCount ≤ 2 := by
    rw [hcount₁]
    split
    · rename_i hsame
      have hle := hfresh hsame
      rw [u32_of_lt (by omega)]
      omega
    · exact ⟨le_refl _, by norm_num⟩
  rw [u32_of_lt (by omega)] at hcount₂
  exact ⟨hack₂, by omega, by omega⟩

/-- Behind the acknowledgement nothing is removed. -/
theorem removeAcked_behind {hdr : Header} {p : UnackedPacket} {ps : List UnackedPacket} {cur : ℕ}
    (hnext : p.seqNr = hdr.ackNr + 1) :
    removeAcked hdr none (p :: ps) cur = (p :: ps, cur) := by
  have hbehind : seqNrCmpSE p.seqNr hdr.ackNr = false := by
    have hlt := hdr.ackNr.toNat_lt
    rw [hnext]
    simp only [seqNrCmpSE, seqNrAbs, UInt16.le_iff_toNat_le, UInt16.lt_iff_toNat_lt,
      UInt16.toNat_add, UInt16.toNat_one, gt_iff_lt]
    split <;> simp only [decide_eq_false_iff_not] <;> omega
  rw [removeAcked_cons, if_neg (by rw [hbehind]; decide)]

/-- **The third packet in a row** makes the sender send the first packet again, unless it
acknowledges the last of the numbers. -/
theorem third_resent_iff {a : UInt16} {s s' : Sender} (h : Series a s s') {link : Link}
    {hdr : Header} (hhdr : IsAck a hdr) {p : UnackedPacket}
    (hfirst : s'.window.unackedPackets.head? = some p) (hnext : p.seqNr = a + 1)
    (hnew : p.retransmitted = false) (htransmits : link.transmits p.seqNr = true) :
    p ∈ (s'.window.packetReceived link hdr none).2 ↔ a ≠ 65535 := by
  obtain ⟨hack, hlow, hhigh⟩ := h.count
  obtain ⟨htype, rfl⟩ := hhdr
  obtain ⟨rest, hpackets⟩ : ∃ rest, s'.window.unackedPackets = p :: rest := by
    cases hcases : s'.window.unackedPackets with
    | nil =>
      rw [hcases] at hfirst
      cases hfirst
    | cons q rest =>
      rw [hcases] at hfirst
      exact ⟨rest, by rw [Option.some.inj hfirst]⟩
  have hcount : u32 (if hdr.ackNr = s'.window.lastAckNr then
      if hdr.type = .stState then s'.window.lastAckReceiveCount + 1
      else s'.window.lastAckReceiveCount else 1) ≥ 3 := by
    rw [if_pos hack.symm, if_pos htype, u32_of_lt (by omega)]
    omega
  have hdue : link.due p = true := by
    rw [Link.due, hnew]
    rfl
  have hint : p.seqNr.toNat = hdr.ackNr.toNat + 1 ↔ hdr.ackNr ≠ 65535 := by
    have hlt := hdr.ackNr.toNat_lt
    rw [hnext, UInt16.toNat_add, UInt16.toNat_one, ne_eq, ← UInt16.toNat_inj]
    change _ ↔ ¬ hdr.ackNr.toNat = 65535
    omega
  unfold packetReceived checkLostPackets
  rw [hpackets, removeAcked_behind hnext]
  dsimp only
  by_cases hwrap : hdr.ackNr = 65535
  · rw [if_neg fun h => hint.mp h.2 hwrap]
    simp [Link.checkSack, hwrap]
  · rw [if_pos ⟨hcount, hint.mpr hwrap⟩, Link.checkPacket, hdue]
    simp [htransmits, hwrap]

/-! ## Numbers that are moved -/

section Shift

variable (k : ℕ)

/-- The number of a packet is moved. -/
def UnackedPacket.shift (p : UnackedPacket) : UnackedPacket := { p with number := p.number + k }

/-- The numbers of a window. -/
def RemoteWindow.shift (w : RemoteWindow) : RemoteWindow :=
  { w with
    lastAckNr := w.lastAckNr + UInt16.ofNat k
    unackedPackets := w.unackedPackets.map (UnackedPacket.shift k) }

/-- The numbers of a sender. -/
def Sender.shift (s : Sender) : Sender where
  window := s.window.shift k
  next := s.next + k
  sent := s.sent.map fun p => (p.1, p.2 + k)

/-- The numbers of a header. -/
def Header.shift (hdr : Header) : Header :=
  { hdr with seqNr := hdr.seqNr + UInt16.ofNat k, ackNr := hdr.ackNr + UInt16.ofNat k }

/-- The same packets can be sent again. -/
def Link.shift (l : Link) : Link :=
  { l with transmits := fun seqNr => l.transmits (seqNr - UInt16.ofNat k) }

/-- The numbers in an event. -/
def SenderEvent.shift : SenderEvent → SenderEvent
  | .addPacket packet sendTime => .addPacket packet sendTime
  | .packetReceived link hdr sack => .packetReceived (link.shift k) (hdr.shift k) sack
  | .timeout link => .timeout (link.shift k)
  | .updateWindowSize d => .updateWindowSize d

end Shift

/-- The packets that an event makes the sender send again. -/
def Sender.resent (s : Sender) : SenderEvent → List UnackedPacket
  | .packetReceived link hdr sack => (s.window.packetReceived link hdr sack).2
  | .timeout link => (s.window.timeout link).2
  | _ => []

/-- The header does not come where the comparisons of numbers depend on where the numbers are:
no packet is half of the numbers away, and the packet behind the acknowledgement is not behind
the last number, neither here nor where the numbers are moved to. -/
def Unwrapped (k : ℕ) (s : Sender) : SenderEvent → Prop
  | .packetReceived _ hdr _ =>
    (∀ p ∈ s.window.unackedPackets, p.seqNr - hdr.ackNr ≠ 32768) ∧
      ((∃ p ∈ s.window.unackedPackets, p.seqNr = hdr.ackNr + 1) →
        hdr.ackNr ≠ 65535 ∧ hdr.ackNr + UInt16.ofNat k ≠ 65535)
  | _ => True

section Commute

variable {k : ℕ} {l : Link} {hdr : Header} {sack : Option SelectiveAck} {p : UnackedPacket}

theorem seqNr_shift (p : UnackedPacket) : (p.shift k).seqNr = p.seqNr + UInt16.ofNat k :=
  UInt16.ofNat_add _ _

theorem sub_add_both (a b x : UInt16) : a + x - (b + x) = a - b := by
  have ha := a.toNat_lt
  have hb := b.toNat_lt
  have hx := x.toNat_lt
  rw [← UInt16.toNat_inj]
  simp only [UInt16.toNat_sub, UInt16.toNat_add]
  omega

theorem distance_shift (p : UnackedPacket) (hdr : Header) :
    (p.shift k).seqNr - (hdr.shift k).ackNr = p.seqNr - hdr.ackNr := by
  rw [seqNr_shift, Header.shift]
  exact sub_add_both _ _ _

theorem transmits_shift (l : Link) (p : UnackedPacket) :
    (l.shift k).transmits (p.shift k).seqNr = l.transmits p.seqNr := by
  rw [seqNr_shift, Link.shift]
  dsimp only
  rw [UInt16.add_sub_cancel]

/-- Off the half of the numbers, the comparison is about the distance. -/
theorem seqNrCmpSE_eq {a b : UInt16} (h : a - b ≠ 32768) :
    seqNrCmpSE a b = decide ((b - a).toNat < 32768) := by
  have ha := a.toNat_lt
  have hb := b.toNat_lt
  have hhalf : (a - b).toNat ≠ 32768 := fun h' => h (UInt16.toNat_inj.mp h')
  rw [UInt16.toNat_sub] at hhalf
  simp only [seqNrCmpSE, seqNrAbs, UInt16.le_iff_toNat_le, UInt16.lt_iff_toNat_lt, gt_iff_lt,
    UInt16.toNat_sub]
  split <;> simp only [decide_eq_decide] <;> omega

theorem seqNrCmpSE_shift (h : p.seqNr - hdr.ackNr ≠ 32768) :
    seqNrCmpSE (p.shift k).seqNr (hdr.shift k).ackNr = seqNrCmpSE p.seqNr hdr.ackNr := by
  have h' : (p.shift k).seqNr - (hdr.shift k).ackNr ≠ 32768 := by rwa [distance_shift]
  rw [seqNrCmpSE_eq h, seqNrCmpSE_eq h', seqNr_shift, Header.shift]
  dsimp only
  rw [sub_add_both]

theorem removeAcked_shift (ps : List UnackedPacket) (cur : ℕ)
    (hfar : ∀ p ∈ ps, p.seqNr - hdr.ackNr ≠ 32768) :
    removeAcked (hdr.shift k) sack (ps.map (UnackedPacket.shift k)) cur =
      ((removeAcked hdr sack ps cur).1.map (UnackedPacket.shift k),
        (removeAcked hdr sack ps cur).2) := by
  induction ps generalizing cur with
  | nil => rfl
  | cons p ps ih =>
    have hrest := fun cur => ih cur fun q hq => hfar q (List.mem_cons_of_mem _ hq)
    rw [List.map_cons, removeAcked_cons, removeAcked_cons,
      seqNrCmpSE_shift (hfar p List.mem_cons_self), distance_shift]
    split
    · exact hrest _
    · split
      · rfl
      · split
        · exact hrest _
        · rw [hrest]
          rfl

/-- What is sent again, moved. -/
def Resent.shift (k : ℕ) (r : Resent) : Resent where
  packets := r.packets.map (UnackedPacket.shift k)
  resent := r.resent.map (UnackedPacket.shift k)
  lost := r.lost

theorem due_shift (l : Link) (p : UnackedPacket) : (l.shift k).due (p.shift k) = l.due p := rfl

theorem retransmit_shift (l : Link) (p : UnackedPacket) :
    (l.shift k).retransmit (p.shift k) = (l.retransmit p).shift k := by
  rw [Link.retransmit, Link.retransmit, transmits_shift]
  split <;> rfl

theorem checkPacket_shift (lost : Bool) (rest : Resent) :
    (l.shift k).checkPacket lost (p.shift k) (rest.shift k) =
      (l.checkPacket lost p rest).shift k := by
  rw [Link.checkPacket, Link.checkPacket, due_shift, transmits_shift, retransmit_shift]
  split
  · split <;> rfl
  · rfl

theorem checkSack_shift (packets : List UnackedPacket) :
    (l.shift k).checkSack (hdr.shift k) sack (packets.map (UnackedPacket.shift k)) =
      (l.checkSack hdr sack packets).shift k := by
  cases sack with
  | none => rfl
  | some sack =>
    rw [Link.checkSack, Link.checkSack]
    split
    · induction packets with
      | nil => rfl
      | cons p packets ih =>
        rw [List.map_cons, List.foldr_cons, List.foldr_cons, ih, distance_shift, checkPacket_shift]
    · rfl

theorem resendAll_shift (ps : List UnackedPacket) :
    (l.shift k).resendAll (ps.map (UnackedPacket.shift k)) =
      ((l.resendAll ps).1.map (UnackedPacket.shift k),
        (l.resendAll ps).2.map (UnackedPacket.shift k)) := by
  induction ps with
  | nil => rfl
  | cons p ps ih =>
    rw [List.map_cons, Link.resendAll, Link.resendAll, due_shift, transmits_shift, ih,
      retransmit_shift]
    split
    · split <;> rfl
    · rfl

/-- The packet behind the acknowledgement is found at the same place. -/
theorem next_shift (h : p.seqNr = hdr.ackNr + 1 →
      hdr.ackNr ≠ 65535 ∧ hdr.ackNr + UInt16.ofNat k ≠ 65535) :
    (p.shift k).seqNr.toNat = (hdr.shift k).ackNr.toNat + 1 ↔
      p.seqNr.toNat = hdr.ackNr.toNat + 1 := by
  rw [seqNr_shift, Header.shift]
  dsimp only
  revert h
  generalize UInt16.ofNat k = x
  generalize p.seqNr = a
  generalize hdr.ackNr = b
  intro h
  have ha := a.toNat_lt
  have hb := b.toNat_lt
  have hx := x.toNat_lt
  rw [← UInt16.toNat_inj, UInt16.toNat_add, UInt16.toNat_one, ne_eq, ne_eq, ← UInt16.toNat_inj,
    ← UInt16.toNat_inj, UInt16.toNat_add] at h
  rw [UInt16.toNat_add, UInt16.toNat_add]
  change _ → ¬ b.toNat = 65535 ∧ ¬ (b.toNat + x.toNat) % 2 ^ 16 = 65535 at h
  omega

theorem checkLostPackets_shift {w : RemoteWindow}
    (hnext : (∃ p ∈ w.unackedPackets, p.seqNr = hdr.ackNr + 1) →
      hdr.ackNr ≠ 65535 ∧ hdr.ackNr + UInt16.ofNat k ≠ 65535) :
    checkLostPackets (l.shift k) (w.shift k) (hdr.shift k) sack =
      ((checkLostPackets l w hdr sack).1.shift k,
        (checkLostPackets l w hdr sack).2.map (UnackedPacket.shift k)) := by
  unfold checkLostPackets
  cases hpackets : w.unackedPackets with
  | nil =>
    rw [RemoteWindow.shift, hpackets]
    rfl
  | cons first rest =>
    have hfirst : (first.shift k).seqNr.toNat = (hdr.shift k).ackNr.toNat + 1 ↔
        first.seqNr.toNat = hdr.ackNr.toNat + 1 :=
      next_shift fun h => hnext ⟨first, by rw [hpackets]; exact List.mem_cons_self, h⟩
    have hshift : (w.shift k).unackedPackets =
        first.shift k :: rest.map (UnackedPacket.shift k) := by
      rw [RemoteWindow.shift, hpackets]
      rfl
    have hcount : (w.shift k).lastAckReceiveCount = w.lastAckReceiveCount := rfl
    have hchecked : (if w.lastAckReceiveCount ≥ 3 ∧
          (first.shift k).seqNr.toNat = (hdr.shift k).ackNr.toNat + 1 then
        (l.shift k).checkPacket true (first.shift k)
          ((l.shift k).checkSack (hdr.shift k) sack (rest.map (UnackedPacket.shift k)))
      else (l.shift k).checkSack (hdr.shift k) sack
        (first.shift k :: rest.map (UnackedPacket.shift k))) =
      (if w.lastAckReceiveCount ≥ 3 ∧ first.seqNr.toNat = hdr.ackNr.toNat + 1 then
        l.checkPacket true first (l.checkSack hdr sack rest)
      else l.checkSack hdr sack (first :: rest)).shift k := by
      by_cases hdup : w.lastAckReceiveCount ≥ 3 ∧ first.seqNr.toNat = hdr.ackNr.toNat + 1
      · rw [if_pos ⟨hdup.1, hfirst.mpr hdup.2⟩, if_pos hdup, checkSack_shift, checkPacket_shift]
      · rw [if_neg fun h => hdup ⟨h.1, hfirst.mp h.2⟩, if_neg hdup, ← List.map_cons,
          checkSack_shift]
    rw [hshift]
    dsimp only
    rw [hcount, hchecked]
    rfl

theorem packetReceived_shift {w : RemoteWindow}
    (hfar : ∀ p ∈ w.unackedPackets, p.seqNr - hdr.ackNr ≠ 32768)
    (hnext : (∃ p ∈ w.unackedPackets, p.seqNr = hdr.ackNr + 1) →
      hdr.ackNr ≠ 65535 ∧ hdr.ackNr + UInt16.ofNat k ≠ 65535) :
    (w.shift k).packetReceived (l.shift k) (hdr.shift k) sack =
      ((w.packetReceived l hdr sack).1.shift k,
        (w.packetReceived l hdr sack).2.map (UnackedPacket.shift k)) := by
  have hremove := @removeAcked_shift k hdr sack w.unackedPackets w.curWindow hfar
  have hsame : (hdr.shift k).ackNr = (w.shift k).lastAckNr ↔ hdr.ackNr = w.lastAckNr :=
    ⟨fun h => (UInt16.add_left_inj (UInt16.ofNat k)).mp h, fun h => congrArg (· + UInt16.ofNat k) h⟩
  have hcount : (if (hdr.shift k).ackNr = (w.shift k).lastAckNr then
        if (hdr.shift k).type = .stState then (w.shift k).lastAckReceiveCount + 1
        else (w.shift k).lastAckReceiveCount else 1) =
      if hdr.ackNr = w.lastAckNr then
        if hdr.type = .stState then w.lastAckReceiveCount + 1 else w.lastAckReceiveCount
      else 1 := by
    by_cases h : hdr.ackNr = w.lastAckNr
    · rw [if_pos h, if_pos (hsame.mpr h)]
      rfl
    · rw [if_neg h, if_neg fun h' => h (hsame.mp h')]
  unfold packetReceived
  rw [hcount]
  obtain ⟨kept, hkept⟩ : ∃ kept, kept = removeAcked hdr sack w.unackedPackets w.curWindow := ⟨_, rfl⟩
  have hsub := @removeAcked_sublist hdr sack w.unackedPackets w.curWindow
  rw [← hkept] at hremove hsub ⊢
  rw [show removeAcked (hdr.shift k) sack (w.shift k).unackedPackets (w.shift k).curWindow = _ from
    hremove]
  dsimp only
  refine checkLostPackets_shift (w := { w with
    lastAckNr := hdr.ackNr
    lastAckReceiveCount := u32 (if hdr.ackNr = w.lastAckNr then
      if hdr.type = .stState then w.lastAckReceiveCount + 1 else w.lastAckReceiveCount else 1)
    wndSize := hdr.wndSize
    unackedPackets := kept.1
    curWindow := kept.2 }) ?_
  rintro ⟨p, hp, h⟩
  exact hnext ⟨p, hsub.subset hp, h⟩

theorem step_shift {s : Sender} {e : SenderEvent} (h : Unwrapped k s e) :
    (s.shift k).step (e.shift k) = (s.step e).shift k ∧
      (s.shift k).resent (e.shift k) = (s.resent e).map (UnackedPacket.shift k) := by
  cases e with
  | packetReceived link hdr sack =>
    have hmoved : (s.shift k).window.packetReceived (link.shift k) (hdr.shift k) sack = _ :=
      packetReceived_shift h.1 h.2
    constructor
    · show { s.shift k with window :=
        ((s.shift k).window.packetReceived (link.shift k) (hdr.shift k) sack).1 } = _
      rw [hmoved]
      rfl
    · show ((s.shift k).window.packetReceived (link.shift k) (hdr.shift k) sack).2 = _
      rw [hmoved]
      rfl
  | addPacket packet sendTime =>
    refine ⟨?_, rfl⟩
    simp [Sender.step, Sender.shift, SenderEvent.shift, RemoteWindow.addPacket, RemoteWindow.shift,
      UnackedPacket.shift, Nat.add_right_comm]
  | timeout link =>
    have hmoved := resendAll_shift (k := k) (l := link) s.window.unackedPackets
    constructor
    · simp only [Sender.step, Sender.shift, SenderEvent.shift, RemoteWindow.timeout,
        RemoteWindow.shift, hmoved]
    · simp only [Sender.resent, Sender.shift, SenderEvent.shift, RemoteWindow.timeout,
        RemoteWindow.shift, hmoved]
  | updateWindowSize d => exact ⟨rfl, rfl⟩

end Commute

/-- The packets that are sent again along a run, event by event. -/
def Sender.resentAlong : Sender → List SenderEvent → List (List UnackedPacket)
  | _, [] => []
  | s, e :: es => s.resent e :: (s.step e).resentAlong es

/-- **A run that is moved** sends the same packets again and ends in the same state. -/
theorem run_shift (k : ℕ) (es : List SenderEvent) (s : Sender)
    (h : AllSteps Sender.step (Unwrapped k) s es) :
    run Sender.step (s.shift k) (es.map (SenderEvent.shift k)) = (run Sender.step s es).shift k ∧
      (s.shift k).resentAlong (es.map (SenderEvent.shift k)) =
        (s.resentAlong es).map (List.map (UnackedPacket.shift k)) := by
  induction es generalizing s with
  | nil => exact ⟨rfl, rfl⟩
  | cons e es ih =>
    obtain ⟨hstep, hresent⟩ := step_shift h.1
    obtain ⟨hrun, hrest⟩ := ih (s.step e) h.2
    rw [List.map_cons, run_cons, run_cons, hstep]
    refine ⟨hrun, ?_⟩
    rw [Sender.resentAlong, Sender.resentAlong, hstep, hresent, hrest, List.map_cons]

/-- **Fast retransmit** works, except for the packet behind the number 65535; and a run can be
moved, unless a header meets the end of the numbers. -/
theorem fastRetransmit_exact (a : UInt16) (k : ℕ) :
    (∀ {s s' : Sender} {link : Link} {hdr : Header} {p : UnackedPacket},
      Series a s s' → IsAck a hdr → s'.window.unackedPackets.head? = some p → p.seqNr = a + 1 →
      p.retransmitted = false → link.transmits p.seqNr = true →
      (p ∈ (s'.window.packetReceived link hdr none).2 ↔ a ≠ 65535)) ∧
    (∀ (es : List SenderEvent) (s : Sender), AllSteps Sender.step (Unwrapped k) s es →
      run Sender.step (s.shift k) (es.map (SenderEvent.shift k)) = (run Sender.step s es).shift k ∧
        (s.shift k).resentAlong (es.map (SenderEvent.shift k)) =
          (s.resentAlong es).map (List.map (UnackedPacket.shift k))) :=
  ⟨fun h hhdr hfirst hnext hnew htransmits =>
    third_resent_iff h hhdr hfirst hnext hnew htransmits, run_shift k⟩

/-- A sender that has sent one packet, with this number. -/
def senderOf (number : ℕ) : Sender :=
  (Sender.start number).step (.addPacket oneByte 0)

/-- Two state packets that acknowledge `a`. -/
def twoAcks (a : UInt16) : List SenderEvent :=
  [.packetReceived quietLink (stateHeader a) none, .packetReceived quietLink (stateHeader a) none]

theorem series_twoAcks (a : UInt16) (s : Sender)
    (hfresh : s.window.lastAckNr = a → s.window.lastAckReceiveCount ≤ 1) :
    Series a s (run Sender.step s (twoAcks a)) :=
  ⟨hfresh, quietLink, stateHeader a, [], quietLink, stateHeader a, [], ⟨rfl, rfl⟩, ⟨rfl, rfl⟩,
    by simp, by simp, rfl⟩

/-- The packet 8 is sent again with the third acknowledgement of 7; and so it is 100 numbers
later. -/
theorem fastRetransmit_eight :
    (⟨oneByte, 8, 0, false⟩ : UnackedPacket) ∈
        ((run Sender.step (senderOf 8) (twoAcks 7)).window.packetReceived quietLink
          (stateHeader 7) none).2 ∧
      run Sender.step ((senderOf 8).shift 100) ((twoAcks 7).map (SenderEvent.shift 100)) =
        (run Sender.step (senderOf 8) (twoAcks 7)).shift 100 := by
  refine ⟨?_, ?_⟩
  · refine ((fastRetransmit_exact 7 100).1 (series_twoAcks 7 (senderOf 8) ?_) ⟨rfl, rfl⟩ ?_ ?_ rfl rfl).mpr
      (by decide)
    · exact fun h => by cases h
    · decide +kernel
    · rfl
  · refine ((fastRetransmit_exact 7 100).2 (twoAcks 7) (senderOf 8) ⟨?_, ?_, trivial⟩).1
    · exact ⟨by decide, by decide⟩
    · exact ⟨by decide, by decide⟩

/-- The packet behind 65535 has the number 0 and is not sent again. -/
theorem fastRetransmit_wrap :
    Series 65535 (senderOf 65536) (run Sender.step (senderOf 65536) (twoAcks 65535)) ∧
      (run Sender.step (senderOf 65536) (twoAcks 65535)).window.unackedPackets.head? =
        some ⟨oneByte, 65536, 0, false⟩ ∧
      ((run Sender.step (senderOf 65536) (twoAcks 65535)).window.packetReceived quietLink
        (stateHeader 65535) none).2 = [] := by
  refine ⟨series_twoAcks _ _ (fun h => by cases h), ?_, ?_⟩
  · decide +kernel
  · decide +kernel

end KTorrent.Utp
