import KTorrent.Lib.Run
import KTorrent.Net.PacketSocket
import Mathlib.Data.List.DropRight

/-!
# The order of the packets

What a packet socket makes of its two queues.

* `Orderly` — what the device has got is the packets that were selected, one after
  the other; each queue is sent in its order; the pending bytes are those that are
  left; and three control packets go between two pieces.
* `Bounded` — nothing that was selected is taken back, and a write keeps its limit.
* `allStates_orderly` — both are so in every run, whatever the device accepts.
* `pending_wraps` — the pending bytes are counted by a `Uint32`.
-/

namespace KTorrent

namespace PacketSocket

open PeerMessageType

/-! ## What is always so -/

/-- A piece. -/
def IsData (p : Packet) : Bool := p.type == piece

/-- The bytes of the packets that were selected. -/
def selectedBytes (selected : List Selection) : List UInt8 := selected.flatMap (·.packet.data)

/-- The bytes of the packets in the queue of pieces. -/
def queuedBytes (s : PacketSocket) : ℕ := (s.dataPackets.map (·.data.length)).sum

/-- The bytes of pieces that are queued or current and not sent yet. -/
def unsentPieceBytes (s : PacketSocket) : ℕ :=
  s.queuedBytes +
    match s.currPacket with
    | some p => if p.type = piece then p.unsent else 0
    | none => 0

/-- What the device has got: the packets in the order of their selection, of the current one only
the beginning. -/
def WireOrderly (s : PacketSocket) : Prop :=
  match s.currPacket with
  | none => s.wire = selectedBytes s.selected
  | some p => ∃ earlier e, s.selected = earlier ++ [e] ∧ e.packet.data = p.data ∧
      e.packet.type = p.type ∧ s.wire = selectedBytes earlier ++ p.data.take p.written

/-- Between two pieces with fewer than three control packets there was none in the queue. -/
def Spaced (selected : List Selection) : Prop :=
  ∀ before x between y after, selected = before ++ x :: (between ++ y :: after) →
    IsData x.packet = true → IsData y.packet = true → (∀ e ∈ between, IsData e.packet = false) →
    between.length < 3 → y.controlsEmpty = true

/-- **What is always so** for a packet socket. -/
structure Orderly (s : PacketSocket) : Prop where
  wire : s.WireOrderly
  /-- Control packets are selected in the order they were added, and all of them. -/
  controls : (selectedPackets s.selected).filter (fun p => !IsData p) ++ s.controlPackets =
    s.added.filter fun p => !IsData p
  /-- Pieces are selected in the order they were added, but for those that were taken out of the
  queue. -/
  pieces : ((selectedPackets s.selected).filter IsData ++ s.dataPackets).Sublist (s.added.filter IsData)
  pending : s.numPendingPieceUploadBytes = UInt32.ofNat s.unsentPieceBytes
  spaced : Spaced s.selected

/-- What is so of every step: nothing that was selected or handed over is taken back, and a write
hands over what it says, and no more than it may. -/
def Bounded (s : PacketSocket) (e : Event) : Prop :=
  s.selected <+: (s.step e).selected ∧ s.wire <+: (s.step e).wire ∧
    match e with
    | .write connected max rooms =>
      (s.step e).wire.length = s.wire.length + (s.write connected max rooms).2 ∧
        (0 < max → (s.write connected max rooms).2 ≤ max)
    | _ => (s.step e).wire = s.wire

/-! ## Three control packets between two pieces -/

/-- The control packets that were selected since the last piece. -/
def trailing (selected : List Selection) : ℕ :=
  (selected.rtakeWhile fun e => !IsData e.packet).length

theorem trailing_concat (selected : List Selection) (e : Selection) :
    trailing (selected ++ [e]) = if IsData e.packet then 0 else trailing selected + 1 := by
  unfold trailing
  rw [List.rtakeWhile_concat]
  cases IsData e.packet with
  | true => rfl
  | false => simp

theorem trailing_eq {before between : List Selection} {x : Selection} (hx : IsData x.packet = true)
    (hbetween : ∀ e ∈ between, IsData e.packet = false) :
    trailing (before ++ x :: between) = between.length := by
  induction between using List.reverseRecOn with
  | nil => rw [trailing_concat, if_pos hx, List.length_nil]
  | append_singleton between e ih =>
    have he : IsData e.packet = false := hbetween e (by simp)
    rw [← List.cons_append, ← List.append_assoc, trailing_concat, he, if_neg Bool.false_ne_true,
      ih fun e' he' => hbetween e' (List.mem_append_left _ he'), List.length_append,
      List.length_singleton]

/-- One more selection: a piece needs three control packets since the last one, or an empty
queue. -/
theorem Spaced.concat {selected : List Selection} (h : Spaced selected) {e : Selection}
    (he : IsData e.packet = true → trailing selected < 3 → e.controlsEmpty = true) :
    Spaced (selected ++ [e]) := by
  intro before x between y after heq hx hy hbetween hlt
  rcases List.eq_nil_or_concat after with rfl | ⟨after, e', rfl⟩
  · have heq' : selected ++ [e] = (before ++ x :: between) ++ [y] := by simpa using heq
    obtain ⟨hsel, hey⟩ := List.append_inj' heq' rfl
    obtain rfl : e = y := List.singleton_inj.mp hey
    refine he hy ?_
    rw [hsel, trailing_eq hx hbetween]
    exact hlt
  · have heq' : selected ++ [e] = (before ++ x :: (between ++ y :: after)) ++ [e'] := by
      simpa using heq
    obtain ⟨hsel, -⟩ := List.append_inj' heq' rfl
    exact h before x between y after hsel hx hy hbetween hlt

theorem spaced_nil : Spaced [] := by
  intro before x between y after heq
  simp at heq

/-! ## The invariant -/

/-- What is in the queues. -/
structure Queued (s : PacketSocket) : Prop where
  control : ∀ p ∈ s.controlPackets, IsData p = false ∧ p.written = 0
  data : ∀ p ∈ s.dataPackets, IsData p = true ∧ p.written = 0

/-- The state in which the next packet is selected, whatever the current one is. -/
structure Ready (s : PacketSocket) : Prop extends Queued s where
  wire : s.wire = selectedBytes s.selected
  controls : (selectedPackets s.selected).filter (fun p => !IsData p) ++ s.controlPackets =
    s.added.filter fun p => !IsData p
  pieces : ((selectedPackets s.selected).filter IsData ++ s.dataPackets).Sublist (s.added.filter IsData)
  pending : s.numPendingPieceUploadBytes = UInt32.ofNat s.queuedBytes
  spaced : Spaced s.selected
  counter : s.ctrlPacketsSent.toNat ≤ trailing s.selected

/-- The control packets that are counted were selected after the last piece; the current one is
not counted yet. -/
def Counted (s : PacketSocket) : Prop :=
  match s.currPacket with
  | none => s.ctrlPacketsSent.toNat ≤ trailing s.selected
  | some p => IsData p = false → s.ctrlPacketsSent.toNat + 1 ≤ trailing s.selected

/-- What every event keeps. -/
structure Sound (s : PacketSocket) : Prop extends Orderly s, Queued s where
  counted : s.Counted

variable {s : PacketSocket} {p : Packet}

/-- Without a current packet the two are the same. -/
theorem Ready.sound (h : s.Ready) (hcurr : s.currPacket = none) : s.Sound := by
  refine ⟨⟨?_, h.controls, h.pieces, ?_, h.spaced⟩, h.toQueued, ?_⟩
  · unfold WireOrderly
    rw [hcurr]
    exact h.wire
  · rw [h.pending, unsentPieceBytes, hcurr]
    rfl
  · unfold Counted
    rw [hcurr]
    exact h.counter

theorem Sound.ready (h : s.Sound) (hcurr : s.currPacket = none) : s.Ready := by
  have hwire := h.wire
  have hpending := h.pending
  have hcounted := h.counted
  unfold WireOrderly at hwire
  unfold unsentPieceBytes at hpending
  unfold Counted at hcounted
  rw [hcurr] at hwire hpending hcounted
  exact ⟨h.toQueued, hwire, h.controls, h.pieces, hpending, h.spaced, hcounted⟩

/-! ## Selecting -/

theorem wireOrderly_select (hwire : s.wire = selectedBytes s.selected) (hp : p.written = 0)
    (b : Bool) : (s.select p b).WireOrderly :=
  ⟨s.selected, _, rfl, rfl, rfl, by rw [hp, List.take_zero, List.append_nil]; exact hwire⟩

/-- A control packet is selected. -/
theorem Ready.select_control (h : s.Ready) {packets : List Packet}
    (hqueue : s.controlPackets = p :: packets) :
    ({ s with controlPackets := packets }.select p false).Sound := by
  obtain ⟨htype, hwritten⟩ := h.control p (by rw [hqueue]; exact List.mem_cons_self)
  have hne : p.type ≠ piece := by simpa [IsData] using htype
  refine ⟨⟨wireOrderly_select h.wire hwritten _, ?_, ?_, ?_, ?_⟩, ⟨?_, h.data⟩, ?_⟩
  · have hcontrols := h.controls
    rw [hqueue] at hcontrols
    simpa [htype] using hcontrols
  · simpa [htype] using h.pieces
  · have hunsent : ({ s with controlPackets := packets }.select p false).unsentPieceBytes =
        s.queuedBytes := by
      simp only [unsentPieceBytes, select, if_neg hne, Nat.add_zero]
      rfl
    rw [hunsent]
    exact h.pending
  · refine h.spaced.concat fun hdata => ?_
    rw [htype] at hdata
    cases hdata
  · intro q hq
    exact h.control q (by rw [hqueue]; exact List.mem_cons_of_mem _ hq)
  · intro _
    have hcounter := h.counter
    change s.ctrlPacketsSent.toNat + 1 ≤ trailing (s.selected ++ [_])
    rw [trailing_concat, htype, if_neg Bool.false_ne_true]
    omega

/-- A piece is selected: after three control packets, or from an empty queue of them. -/
theorem Ready.select_data (h : s.Ready) {packets : List Packet} {b : Bool} (sent : UInt32)
    (hqueue : s.dataPackets = p :: packets) (hb : trailing s.selected < 3 → b = true) :
    ({ s with ctrlPacketsSent := sent, dataPackets := packets }.select p b).Sound := by
  obtain ⟨htype, hwritten⟩ := h.data p (by rw [hqueue]; exact List.mem_cons_self)
  have heq : p.type = piece := by simpa [IsData] using htype
  refine ⟨⟨wireOrderly_select h.wire hwritten _, ?_, ?_, ?_, ?_⟩, ⟨h.control, ?_⟩, ?_⟩
  · simpa [htype] using h.controls
  · have hpieces := h.pieces
    rw [hqueue] at hpieces
    simpa [htype] using hpieces
  · have hunsent : ({ s with ctrlPacketsSent := sent, dataPackets := packets }.select p
        b).unsentPieceBytes = s.queuedBytes := by
      simp only [unsentPieceBytes, queuedBytes, select, if_pos heq, Packet.unsent, hwritten, hqueue,
        List.map_cons, List.sum_cons, Nat.sub_zero]
      exact Nat.add_comm _ _
    rw [hunsent]
    exact h.pending
  · exact h.spaced.concat fun _ => hb
  · intro q hq
    exact h.data q (by rw [hqueue]; exact List.mem_cons_of_mem _ hq)
  · intro hfalse
    rw [htype] at hfalse
    cases hfalse

/-- **Selecting a packet.** -/
theorem Ready.selectPacket (h : s.Ready) : s.selectPacket.Sound := by
  have hready : ({ s with currPacket := none } : PacketSocket).Ready :=
    ⟨⟨h.control, h.data⟩, h.wire, h.controls, h.pieces, h.pending, h.spaced, h.counter⟩
  unfold PacketSocket.selectPacket
  dsimp only
  split
  · split
    · rename_i hqueue
      exact hready.select_control hqueue
    · rename_i hqueue
      exact hready.select_data _ hqueue fun _ => rfl
    · exact hready.sound rfl
  · rename_i hcount
    split
    · rename_i hqueue
      refine hready.select_data _ hqueue fun hlt => ?_
      -- the counter would not have reached three
      have hthree : ¬ s.ctrlPacketsSent.toNat < 3 := fun hlt' => hcount hlt'
      exact absurd (lt_of_le_of_lt h.counter hlt) hthree
    · rename_i hqueue
      exact hready.select_control hqueue
    · exact hready.sound rfl

/-! ## Sending -/

theorem ofNat_add_sub (a b : ℕ) : UInt32.ofNat (a + b) - UInt32.ofNat b = UInt32.ofNat a := by
  rw [UInt32.ofNat_add, UInt32.add_sub_cancel]

/-- **One send** of the current packet. -/
theorem Sound.sendCurrent (h : s.Sound) (hcurr : s.currPacket = some p) (room limit : ℕ) :
    (s.sendCurrent p room limit).Sound := by
  have hwire := h.wire
  have hpending := h.pending
  have hcounted := h.counted
  unfold WireOrderly at hwire
  unfold unsentPieceBytes at hpending
  unfold Counted at hcounted
  rw [hcurr] at hwire hpending hcounted
  obtain ⟨earlier, e, hsel, hdata, htype, hbytes⟩ := hwire
  refine ⟨⟨?_, by simpa using h.controls, by simpa using h.pieces, ?_, by simpa using h.spaced⟩,
    ⟨by simpa using h.control, by simpa using h.data⟩, ?_⟩
  · unfold WireOrderly
    rw [sendCurrent_currPacket]
    refine ⟨earlier, e, by simpa using hsel, hdata, htype, ?_⟩
    rw [sendCurrent_wire, hbytes, List.append_assoc, Packet.send_data, Packet.take_send]
  · unfold unsentPieceBytes queuedBytes
    rw [sendCurrent_pending, sendCurrent_currPacket, sendCurrent_dataPackets]
    dsimp only at hpending ⊢
    rw [Packet.send_type]
    split
    · rename_i hpiece
      rw [if_pos hpiece, ← Packet.unsent_send p room limit, ← Nat.add_assoc] at hpending
      rw [hpending, ofNat_add_sub]
      rfl
    · rename_i hpiece
      rw [if_neg hpiece] at hpending
      exact hpending
  · unfold Counted
    rw [sendCurrent_currPacket, sendCurrent_ctrlPacketsSent, sendCurrent_selected]
    exact hcounted

/-- The next packet, after the current one is sent. -/
theorem Sound.packetSent (h : s.Sound) {q : Packet} (hcurr : s.currPacket = some q)
    (htype : q.type = p.type) (hsent : q.isSent = true) : (s.packetSent p).Sound := by
  have hwire := h.wire
  have hpending := h.pending
  have hcounted := h.counted
  unfold WireOrderly at hwire
  unfold unsentPieceBytes at hpending
  unfold Counted at hcounted
  rw [hcurr] at hwire hpending hcounted
  obtain ⟨earlier, e, hsel, hdata, -, hbytes⟩ := hwire
  have hwritten : q.written = q.data.length := by simpa [Packet.isSent] using hsent
  apply Ready.selectPacket
  refine ⟨⟨h.control, h.data⟩, ?_, h.controls, h.pieces, ?_, h.spaced, ?_⟩
  · change s.wire = selectedBytes s.selected
    rw [hbytes, hsel, hwritten, List.take_length, selectedBytes, selectedBytes, List.flatMap_append,
      ← hdata]
    simp
  · refine hpending.trans (congrArg _ ?_)
    simp [Packet.unsent, hwritten, queuedBytes]
  · change (if p.type = piece then 0 else s.ctrlPacketsSent + 1).toNat ≤ trailing s.selected
    split
    · exact Nat.zero_le _
    · rename_i hne
      have hcontrol : IsData q = false := by simpa [IsData, htype] using hne
      refine le_trans ?_ (hcounted hcontrol)
      rw [UInt32.toNat_add]
      exact Nat.mod_le _ _

/-- **The loop of `write`** keeps the invariant. -/
theorem Sound.writeLoop (max : ℕ) : ∀ (rooms : List ℕ) (s : PacketSocket) (written : ℕ), s.Sound →
    (writeLoop max s written rooms).1.Sound := by
  intro rooms
  induction rooms with
  | nil => intro s written h; exact h
  | cons room rooms ih =>
    intro s written h
    unfold PacketSocket.writeLoop
    cases hcurr : s.currPacket with
    | none => exact h
    | some p =>
      dsimp only
      split
      · split
        · split
          · rename_i hsent
            refine ih _ _ ?_
            exact (h.sendCurrent hcurr room _).packetSent (sendCurrent_currPacket ..) rfl hsent
          · exact h.sendCurrent hcurr room _
        · exact h
      · exact h

theorem Sound.write (h : s.Sound) (connected : Bool) (max : ℕ) (rooms : List ℕ) :
    (s.write connected max rooms).1.Sound := by
  unfold PacketSocket.write
  split
  · exact h
  · apply Sound.writeLoop
    cases hcurr : s.currPacket with
    | none => exact (h.ready hcurr).selectPacket
    | some p => exact h

/-! ## Adding and dropping -/

@[simp] theorem record_nil (s : PacketSocket) : s.record [] = s := by
  rw [record, List.append_nil]

@[simp] theorem addPacket_added (s : PacketSocket) (p : Packet) :
    (s.addPacket p).added = s.added := by
  unfold PacketSocket.addPacket
  split <;> rfl

/-- Dropping packets leaves the history to `step`. -/
theorem dropPackets_added (s : PacketSocket) (drop : Packet → Bool) (reject : Bool) :
    (s.dropPackets drop reject).added = s.added := by
  refine List.foldlRecOn (motive := fun t : PacketSocket => t.added = s.added) _ _ rfl
    fun t ht p _ => ?_
  unfold dropPacket
  split
  · dsimp only
    split
    · split
      · rw [addPacket_added]
        exact ht
      · exact ht
    · exact ht
  · exact ht

theorem Sound.addPacket (h : s.Sound) (hp : p.written = 0) :
    ((s.addPacket p).record [p]).Sound := by
  unfold PacketSocket.addPacket
  split
  · rename_i hpiece
    have hdata : IsData p = true := by simpa [IsData] using hpiece
    refine ⟨⟨h.wire, ?_, ?_, ?_, h.spaced⟩, ⟨h.control, ?_⟩, h.counted⟩
    · simpa [record, hdata] using h.controls
    · simpa [record, hdata, ← List.append_assoc] using h.pieces.append (List.Sublist.refl [p])
    · have hunsent : (s.addPacket p).unsentPieceBytes = s.unsentPieceBytes + p.data.length := by
        simp only [PacketSocket.addPacket, if_pos hpiece, unsentPieceBytes, queuedBytes,
          List.map_append, List.sum_append, List.map_cons, List.map_nil, List.sum_singleton]
        exact Nat.add_right_comm _ _ _
      rw [PacketSocket.addPacket, if_pos hpiece] at hunsent
      refine Eq.trans ?_ (congrArg UInt32.ofNat hunsent.symm)
      rw [UInt32.ofNat_add, ← h.pending]
      rfl
    · intro q hq
      rcases List.mem_append.mp hq with hq | hq
      · exact h.data q hq
      · rw [List.mem_singleton.mp hq]
        exact ⟨hdata, hp⟩
  · rename_i hpiece
    have hdata : IsData p = false := by simpa [IsData] using hpiece
    refine ⟨⟨h.wire, ?_, ?_, h.pending, h.spaced⟩, ⟨?_, h.data⟩, h.counted⟩
    · simp [record, hdata, ← List.append_assoc, h.controls]
    · simpa [record, hdata] using h.pieces
    · intro q hq
      rcases List.mem_append.mp hq with hq | hq
      · exact h.control q hq
      · rw [List.mem_singleton.mp hq]
        exact ⟨hdata, hp⟩

/-- A packet is taken out of the queue of pieces. -/
theorem Sound.erase {front rest : List Packet}
    (h : ({ s with dataPackets := front ++ p :: rest } : PacketSocket).Sound) :
    ({ s with
      pendingUploadDataBytes := s.pendingUploadDataBytes - p.getDataLength
      dataPackets := front ++ rest } : PacketSocket).Sound := by
  have hsub : (front ++ rest).Sublist (front ++ p :: rest) :=
    (List.Sublist.refl front).append (List.sublist_cons_self p rest)
  have hpending := h.pending
  refine ⟨⟨h.wire, h.controls, ((List.Sublist.refl _).append hsub).trans h.pieces, ?_, h.spaced⟩,
    ⟨h.control, fun q hq => h.data q (hsub.subset hq)⟩, h.counted⟩
  have hunsent : ({ s with dataPackets := front ++ p :: rest } : PacketSocket).unsentPieceBytes =
      ({ s with dataPackets := front ++ rest } : PacketSocket).unsentPieceBytes +
        p.data.length := by
    simp only [unsentPieceBytes, queuedBytes, List.map_append, List.sum_append, List.map_cons,
      List.sum_cons]
    omega
  rw [hunsent] at hpending
  change s.pendingUploadDataBytes - UInt32.ofNat p.data.length = _
  rw [show s.pendingUploadDataBytes = _ from hpending, ofNat_add_sub]
  rfl

/-- The state in the middle of `dropPackets`: the packets still to be looked at count as queued,
and the rejects as added. -/
def Dropping (s : PacketSocket) (rest added : List Packet) : Prop :=
  ({ s with dataPackets := s.dataPackets ++ rest, added := added } : PacketSocket).Sound

theorem rejects_cons (drop : Packet → Bool) (reject : Bool) (rest : List Packet) :
    rejects drop reject (p :: rest) = rejects drop reject [p] ++ rejects drop reject rest := by
  unfold rejects
  split
  · rw [← List.singleton_append, List.filter_append, List.filterMap_append]
  · rfl

theorem rejects_singleton (drop : Packet → Bool) (reject : Bool) :
    rejects drop reject [p] =
      if drop p && reject then p.makeRejectOfPiece.toList else [] := by
  unfold rejects
  cases reject <;> cases hdrop : drop p <;> simp [hdrop, List.filterMap_cons]
  cases p.makeRejectOfPiece <;> rfl

/-- One packet of the queue is dropped or kept. -/
theorem Dropping.dropPacket {rest added : List Packet} (h : s.Dropping (p :: rest) added)
    (drop : Packet → Bool) (reject : Bool) :
    (dropPacket drop reject s p).Dropping rest (added ++ rejects drop reject [p]) := by
  unfold Dropping at h
  rw [rejects_singleton]
  unfold PacketSocket.dropPacket
  by_cases hdrop : drop p = true
  · have herase := Sound.erase (s := { s with added := added }) h
    by_cases hreject : reject = true
    · rw [if_pos hdrop, if_pos hreject, hdrop, hreject, Bool.and_self, if_pos rfl]
      cases hmake : p.makeRejectOfPiece with
      | none =>
        rw [Option.toList_none, List.append_nil]
        exact herase
      | some packet =>
        obtain ⟨htype, hwritten⟩ := makeReject_type hmake
        have hne : packet.type ≠ piece := by rw [htype]; decide
        have hadd := herase.addPacket hwritten
        rw [PacketSocket.addPacket, if_neg hne] at hadd
        dsimp only
        rw [PacketSocket.addPacket, if_neg hne]
        exact hadd
    · rw [if_pos hdrop, if_neg hreject, Bool.eq_false_iff.mpr hreject, Bool.and_false,
        if_neg Bool.false_ne_true, List.append_nil]
      exact herase
  · rw [if_neg hdrop, Bool.eq_false_iff.mpr hdrop, Bool.false_and, if_neg Bool.false_ne_true,
      List.append_nil]
    unfold Dropping
    dsimp only
    rw [List.append_assoc]
    exact h

theorem Sound.dropPackets (h : s.Sound) (drop : Packet → Bool) (reject : Bool) :
    ((s.dropPackets drop reject).record (rejects drop reject s.dataPackets)).Sound := by
  have hloop : ∀ (rest added : List Packet) (s : PacketSocket), s.Dropping rest added →
      (rest.foldl (dropPacket drop reject) s).Dropping [] (added ++ rejects drop reject rest) := by
    intro rest
    induction rest with
    | nil =>
      intro added s h
      have hnone : rejects drop reject [] = [] := ite_self _
      rw [hnone, List.append_nil]
      exact h
    | cons p rest ih =>
      intro added s h
      rw [rejects_cons, ← List.append_assoc]
      exact ih _ _ (h.dropPacket drop reject)
  have hnil := hloop s.dataPackets s.added { s with dataPackets := [] } h
  unfold Dropping at hnil
  rw [List.append_nil] at hnil
  rw [record, dropPackets_added]
  exact hnil

/-- **Every event** keeps the invariant. -/
theorem Sound.step (h : s.Sound) (e : Event) : (s.step e).Sound := by
  cases e with
  | addPacket packet => exact h.addPacket packet.2
  | write connected max rooms =>
    unfold PacketSocket.step
    rw [Event.packets, record_nil]
    exact h.write connected max rooms
  | clearPieces reject => exact h.dropPackets _ reject
  | doNotSendPiece req reject => exact h.dropPackets _ reject
  | dataBytesUploaded =>
    unfold PacketSocket.step
    rw [Event.packets, record_nil]
    exact ⟨⟨h.wire, h.controls, h.pieces, h.pending, h.spaced⟩, ⟨h.control, h.data⟩, h.counted⟩

/-! ## Single steps -/

/-- What a part of a write does to the history. -/
structure Extends (s s' : PacketSocket) (n : ℕ) : Prop where
  selected : s.selected <+: s'.selected
  wire : s.wire <+: s'.wire
  length : s'.wire.length = s.wire.length + n

theorem Extends.refl (s : PacketSocket) : Extends s s 0 :=
  ⟨List.prefix_rfl, List.prefix_rfl, rfl⟩

theorem Extends.trans {s s' s'' : PacketSocket} {m n : ℕ} (h : Extends s s' m)
    (h' : Extends s' s'' n) : Extends s s'' (m + n) :=
  ⟨h.selected.trans h'.selected, h.wire.trans h'.wire, by rw [h'.length, h.length, Nat.add_assoc]⟩

theorem extends_selectPacket (s : PacketSocket) : Extends s s.selectPacket 0 := by
  have hselect : ∀ (t : PacketSocket) (p : Packet) (b : Bool), t.selected = s.selected →
      t.wire = s.wire → Extends s (t.select p b) 0 := by
    intro t p b hsel hwire
    refine ⟨?_, ?_, congrArg _ hwire⟩
    · rw [← hsel]
      exact List.prefix_append _ _
    · exact hwire ▸ List.prefix_rfl
  unfold selectPacket
  dsimp only
  split
  · split
    · exact hselect _ _ _ rfl rfl
    · exact hselect _ _ _ rfl rfl
    · exact ⟨List.prefix_rfl, List.prefix_rfl, rfl⟩
  · split
    · exact hselect _ _ _ rfl rfl
    · exact hselect _ _ _ rfl rfl
    · exact ⟨List.prefix_rfl, List.prefix_rfl, rfl⟩

theorem extends_packetSent (s : PacketSocket) (p : Packet) : Extends s (s.packetSent p) 0 := by
  have h := extends_selectPacket
    { s with ctrlPacketsSent := if p.type = piece then 0 else s.ctrlPacketsSent + 1 }
  exact ⟨h.selected, h.wire, h.length⟩

theorem extends_sendCurrent (s : PacketSocket) (p : Packet) (room limit : ℕ) :
    Extends s (s.sendCurrent p room limit) (p.accepted room limit) := by
  refine ⟨?_, ?_, ?_⟩
  · rw [sendCurrent_selected]
  · rw [sendCurrent_wire]
    exact List.prefix_append _ _
  · rw [sendCurrent_wire, List.length_append, Packet.length_handed]

/-- **The loop of `write`** hands over what it says, within the limit. -/
theorem extends_writeLoop (max : ℕ) : ∀ (rooms : List ℕ) (s : PacketSocket) (written : ℕ),
    (max = 0 ∨ written ≤ max) → ∃ n, Extends s (writeLoop max s written rooms).1 n ∧
      (writeLoop max s written rooms).2 = written + n ∧ (max = 0 ∨ written + n ≤ max) := by
  intro rooms
  induction rooms with
  | nil => intro s written h; exact ⟨0, Extends.refl s, rfl, h⟩
  | cons room rooms ih =>
    intro s written h
    have hstop : ∃ n, Extends s (s, written).1 n ∧ (s, written).2 = written + n ∧
        (max = 0 ∨ written + n ≤ max) := ⟨0, Extends.refl s, rfl, h⟩
    unfold writeLoop
    cases hcurr : s.currPacket with
    | none => exact hstop
    | some p =>
      dsimp only
      split
      · rename_i hroom
        split
        · have hsend := extends_sendCurrent s p room (limit max written)
          have hle : max = 0 ∨ written + p.accepted room (limit max written) ≤ max := by
            rcases Nat.eq_zero_or_pos max with hmax | hmax
            · exact .inl hmax
            · have hlt : written < max := hroom.resolve_right hmax.ne'
              have hlimit : limit max written = max - written := if_neg hmax.ne'
              have hacc := p.accepted_le_limit room (limit max written) (by omega)
              exact .inr (by omega)
          split
          · obtain ⟨n, hext, hret, hbound⟩ := ih ((s.sendCurrent p room _).packetSent p) _ hle
            have hnext := extends_packetSent (s.sendCurrent p room (limit max written)) p
            refine ⟨_, (hsend.trans hnext).trans hext, ?_, ?_⟩
            · rw [hret]
              omega
            · rcases hbound with hbound | hbound
              · exact .inl hbound
              · exact .inr (by omega)
          · exact ⟨_, hsend, rfl, hle⟩
        · exact hstop
      · exact hstop

theorem extends_write (s : PacketSocket) (connected : Bool) (max : ℕ) (rooms : List ℕ) :
    Extends s (s.write connected max rooms).1 (s.write connected max rooms).2 ∧
      (0 < max → (s.write connected max rooms).2 ≤ max) := by
  unfold write
  split
  · exact ⟨Extends.refl s, fun _ => Nat.zero_le _⟩
  · have hselect : Extends s (if s.currPacket.isNone then s.selectPacket else s) 0 := by
      split
      · exact extends_selectPacket s
      · exact Extends.refl s
    obtain ⟨n, hext, hret, hbound⟩ := extends_writeLoop max rooms
      (if s.currPacket.isNone then s.selectPacket else s) 0 (.inr (Nat.zero_le _))
    rw [Nat.zero_add] at hret hbound
    rw [hret]
    refine ⟨?_, fun hmax => hbound.resolve_left hmax.ne'⟩
    have htrans := hselect.trans hext
    rwa [Nat.zero_add] at htrans

/-- Adding and dropping packets does not touch the history of the device. -/
theorem addPacket_history (s : PacketSocket) (p : Packet) :
    (s.addPacket p).selected = s.selected ∧ (s.addPacket p).wire = s.wire := by
  unfold addPacket
  split
  · exact ⟨rfl, rfl⟩
  · exact ⟨rfl, rfl⟩

theorem dropPackets_history (s : PacketSocket) (drop : Packet → Bool) (reject : Bool) :
    (s.dropPackets drop reject).selected = s.selected ∧
      (s.dropPackets drop reject).wire = s.wire := by
  refine List.foldlRecOn (motive := fun t : PacketSocket => t.selected = s.selected ∧
    t.wire = s.wire) _ _ ⟨rfl, rfl⟩ fun t ht p _ => ?_
  unfold dropPacket
  split
  · dsimp only
    split
    · split
      · exact ⟨(addPacket_history _ _).1.trans ht.1, (addPacket_history _ _).2.trans ht.2⟩
      · exact ht
    · exact ht
  · exact ht

/-- **Every step** keeps what was selected and handed over. -/
theorem bounded_step (s : PacketSocket) (e : Event) : s.Bounded e := by
  have hsame : ∀ s' : PacketSocket, s'.selected = s.selected ∧ s'.wire = s.wire →
      s.selected <+: s'.selected ∧ s.wire <+: s'.wire ∧ s'.wire = s.wire := by
    rintro s' ⟨hsel, hwire⟩
    rw [hsel, hwire]
    exact ⟨List.prefix_rfl, List.prefix_rfl, rfl⟩
  cases e with
  | addPacket packet => exact hsame _ (addPacket_history s packet)
  | write connected max rooms =>
    obtain ⟨hext, hmax⟩ := extends_write s connected max rooms
    exact ⟨hext.selected, hext.wire, hext.length, hmax⟩
  | clearPieces reject => exact hsame _ (dropPackets_history s _ reject)
  | doNotSendPiece req reject => exact hsame _ (dropPackets_history s _ reject)
  | dataBytesUploaded => exact hsame _ ⟨rfl, rfl⟩

/-! ## Whole runs -/

open Runs

theorem sound_new : new.Sound where
  wire := rfl
  controls := rfl
  pieces := List.Sublist.refl _
  pending := rfl
  spaced := spaced_nil
  control := fun _ hp => by cases hp
  data := fun _ hp => by cases hp
  counted := Nat.zero_le _

/-- **The packet socket is orderly** in every state of every run, whatever the device accepts, and
every write keeps its limit. -/
theorem allStates_orderly (events : List Event) :
    AllStates step Orderly new events ∧ AllSteps step Bounded new events := by
  constructor
  · exact AllStates.mono (fun _ h => h.toOrderly)
      (allStates_of_step (fun _ e h => h.step e) events new sound_new)
  · exact allSteps_of_step (fun _ e h => h.step e) (fun s e _ => bounded_step s e) events new
      sound_new

/-- Two pieces in the queue of a new socket. -/
theorem pending_two {p : Packet} (hp : p.type = piece) :
    ((new.addPacket p).addPacket p).numPendingPieceUploadBytes = p.getDataLength + p.getDataLength ∧
      ((new.addPacket p).addPacket p).unsentPieceBytes = p.data.length + p.data.length := by
  simp [addPacket, hp, new, numPendingPieceUploadBytes, unsentPieceBytes, queuedBytes]

/-- A piece of `2 ^ 31` bytes. -/
def largePiece : Packet where
  data := List.replicate (2 ^ 31) 0
  type := piece
  written := 0
  length_lt := by rw [List.length_replicate]; exact Nat.pow_lt_pow_right (by decide) (by decide)
  written_le := Nat.zero_le _

/-- **The pending bytes are a `Uint32`.**  With two pieces of `2 ^ 31` bytes in the queue the socket
says that none is pending. -/
theorem pending_wraps :
    ((new.addPacket largePiece).addPacket largePiece).numPendingPieceUploadBytes = 0 ∧
      ((new.addPacket largePiece).addPacket largePiece).unsentPieceBytes = 2 ^ 32 := by
  have hlen : largePiece.data.length = 2 ^ 31 := List.length_replicate
  obtain ⟨hpending, hunsent⟩ := pending_two (p := largePiece) rfl
  constructor
  · rw [hpending, Packet.getDataLength, hlen]
    decide
  · rw [hunsent, hlen]
    decide

end PacketSocket

end KTorrent
