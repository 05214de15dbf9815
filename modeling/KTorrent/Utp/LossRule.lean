import KTorrent.Utp.RemoteWindow

/-!
# Which packets a selective ack declares lost

"A packet is lost if 3 packets have been acked after it."  The mask of `L` bytes is about the
distances `2` to `8 L + 1`, and `lost` looks for the third one from the top from `8 L - 1` on.

* `SelectiveAck.ackedAbove` — how many packets behind a distance have been acknowledged.
* `LossRule` — the rule.
* `lost_iff` — what `lost` counts.
* `lossRule_iff` — the rule holds exactly when the last two bits are not needed.
-/

namespace KTorrent.Utp

open RemoteWindow

variable {l : Link} {w : RemoteWindow} {hdr : Header} {sack : SelectiveAck}

/-- The distances above `d` and below `top` that are acknowledged. -/
def SelectiveAck.ackedAbove (sack : SelectiveAck) (d top : ℕ) : ℕ :=
  (List.range top).countP fun bit => d < bit && acked sack (UInt16.ofNat bit)

/-- `itr->seq_nr - hdr->ack_nr`. -/
def UnackedPacket.distance (p : UnackedPacket) (hdr : Header) : ℕ := (p.seqNr - hdr.ackNr).toNat

/-- The packet that the branch for the third duplicate of an acknowledgement is about. -/
def RemoteWindow.Duplicated (w : RemoteWindow) (hdr : Header) (p : UnackedPacket) : Prop :=
  w.unackedPackets.head? = some p ∧ w.lastAckReceiveCount ≥ 3 ∧
    p.seqNr.toNat = hdr.ackNr.toNat + 1

/-- **The rule**: a packet is sent again, if that succeeds, when three packets behind it have
been acknowledged. -/
def LossRule (l : Link) (w : RemoteWindow) (hdr : Header) (sack : SelectiveAck) : Prop :=
  ∀ p ∈ w.unackedPackets, p.retransmitted = false → l.transmits p.seqNr = true →
    3 ≤ sack.ackedAbove (p.distance hdr) (8 * sack.length + 2) →
      p ∈ (checkLostPackets l w hdr (some sack)).2

/-- **The condition**: it is the duplicated one, or three of them are below the last two bits. -/
def EnoughBelow (l : Link) (w : RemoteWindow) (hdr : Header) (sack : SelectiveAck) : Prop :=
  ∀ p ∈ w.unackedPackets, p.retransmitted = false → l.transmits p.seqNr = true →
    3 ≤ sack.ackedAbove (p.distance hdr) (8 * sack.length + 2) →
      w.Duplicated hdr p ∨ 3 ≤ sack.ackedAbove (p.distance hdr) (8 * sack.length)

/-! ## `lost` -/

theorem ackedAbove_succ (d top : ℕ) :
    sack.ackedAbove d (top + 1) =
      sack.ackedAbove d top + if d < top ∧ acked sack (UInt16.ofNat top) = true then 1 else 0 := by
  rw [SelectiveAck.ackedAbove, List.range_succ, List.countP_append, List.countP_singleton]
  simp [SelectiveAck.ackedAbove]

theorem ackedAbove_eq_zero {d top : ℕ} (h : top ≤ d + 1) : sack.ackedAbove d top = 0 := by
  rw [SelectiveAck.ackedAbove, List.countP_eq_zero]
  intro bit hmem
  rw [List.mem_range] at hmem
  simp only [Bool.and_eq_true, decide_eq_true_eq, not_and]
  omega

/-- The loop stands at `top`, with `on` bits above that were on. -/
theorem lostFrom_iff (d : ℕ) : ∀ top on : ℕ, on < 3 →
    (d < lostFrom sack top on ↔ 3 ≤ sack.ackedAbove d top + on) := by
  intro top
  induction top with
  | zero =>
    intro on hon
    rw [lostFrom, ackedAbove_eq_zero (Nat.zero_le _)]
    omega
  | succ top ih =>
    intro on hon
    rw [lostFrom, ackedAbove_succ]
    by_cases hbit : acked sack (UInt16.ofNat top) = true
    swap
    · rw [if_neg hbit, if_neg fun h => hbit h.2, ih on hon, Nat.add_zero]
    rw [if_pos hbit]
    have hnew : (if d < top ∧ acked sack (UInt16.ofNat top) = true then 1 else 0)
        = if d < top then 1 else 0 := by simp [hbit]
    rw [hnew]
    by_cases hthird : on + 1 = 3
    · rw [if_pos hthird]
      by_cases hd : d < top
      · rw [if_pos hd]
        omega
      · rw [if_neg hd, ackedAbove_eq_zero (by omega)]
        omega
    · rw [if_neg hthird, ih (on + 1) (by omega)]
      by_cases hd : d < top
      · rw [if_pos hd]
        omega
      · rw [if_neg hd, ackedAbove_eq_zero (by omega)]
        omega

/-- **What `lost` counts**: the bits below `8 L`. -/
theorem lost_iff (d : ℕ) : d < lost sack ↔ 3 ≤ sack.ackedAbove d (8 * sack.length) := by
  rw [lost, lostFrom_iff d _ 0 (by norm_num), Nat.mul_comm, Nat.add_zero]

/-! ## The packets that are sent again -/

theorem due_of_first {p : UnackedPacket} (hfresh : p.retransmitted = false) : l.due p = true := by
  rw [Link.due, hfresh]
  rfl

theorem mem_checkPacket_resent {lost : Bool} {p q : UnackedPacket} {rest : Resent} :
    p ∈ (l.checkPacket lost q rest).resent ↔
      p = q ∧ lost = true ∧ l.due q = true ∧ l.transmits q.seqNr = true ∨ p ∈ rest.resent := by
  rw [Link.checkPacket]
  split
  · rename_i h
    rw [Bool.and_eq_true] at h
    dsimp only
    split
    · rename_i ht
      rw [List.mem_cons]
      tauto
    · rename_i ht
      tauto
  · rename_i h
    rw [Bool.and_eq_true] at h
    dsimp only
    tauto

/-- The loop over the packets. -/
theorem mem_checkSack_resent {packets : List UnackedPacket} {p : UnackedPacket}
    (hfresh : p.retransmitted = false) (htransmits : l.transmits p.seqNr = true) :
    p ∈ (l.checkSack hdr (some sack) packets).resent ↔
      p ∈ packets ∧ 3 ≤ sack.ackedAbove (p.distance hdr) (8 * sack.length) := by
  have hfold : ∀ packets : List UnackedPacket,
      p ∈ (packets.foldr (fun p => l.checkPacket ((p.seqNr - hdr.ackNr).toNat < lost sack) p)
        ⟨[], [], false⟩).resent ↔ p ∈ packets ∧ p.distance hdr < lost sack := by
    intro packets
    induction packets with
    | nil => simp
    | cons q packets ih =>
      rw [List.foldr_cons, mem_checkPacket_resent, ih, List.mem_cons, decide_eq_true_eq]
      constructor
      · rintro (⟨rfl, hlost, -, -⟩ | ⟨hmem, hlost⟩)
        · exact ⟨.inl rfl, hlost⟩
        · exact ⟨.inr hmem, hlost⟩
      · rintro ⟨rfl | hmem, hlost⟩
        · exact .inl ⟨rfl, hlost, due_of_first hfresh, htransmits⟩
        · exact .inr ⟨hmem, hlost⟩
  rw [← lost_iff, Link.checkSack]
  split
  · exact hfold packets
  · rename_i h
    constructor
    · exact fun hmem => by cases hmem
    · rintro ⟨-, hlost⟩
      omega

/-- **Which packets are sent again**: the duplicated one, and those with three bits behind them
that `lost` looks at. -/
theorem mem_checkLostPackets_resent {p : UnackedPacket} (hmem : p ∈ w.unackedPackets)
    (hfresh : p.retransmitted = false) (htransmits : l.transmits p.seqNr = true) :
    p ∈ (checkLostPackets l w hdr (some sack)).2 ↔
      w.Duplicated hdr p ∨ 3 ≤ sack.ackedAbove (p.distance hdr) (8 * sack.length) := by
  rw [checkLostPackets, RemoteWindow.Duplicated]
  cases hpackets : w.unackedPackets with
  | nil =>
    rw [hpackets] at hmem
    cases hmem
  | cons first rest =>
    rw [hpackets] at hmem
    dsimp only
    rw [List.head?_cons, Option.some.injEq]
    split
    · rename_i hdup
      rw [mem_checkPacket_resent, mem_checkSack_resent hfresh htransmits]
      constructor
      · rintro (⟨rfl, -, -, -⟩ | ⟨-, h⟩)
        · exact .inl ⟨rfl, hdup⟩
        · exact .inr h
      · rintro (⟨rfl, -⟩ | h)
        · exact .inl ⟨rfl, rfl, due_of_first hfresh, htransmits⟩
        · obtain rfl | hrest := List.mem_cons.mp hmem
          · exact .inl ⟨rfl, rfl, due_of_first hfresh, htransmits⟩
          · exact .inr ⟨hrest, h⟩
    · rename_i hdup
      rw [mem_checkSack_resent hfresh htransmits]
      constructor
      · rintro ⟨-, h⟩
        exact .inr h
      · rintro (⟨rfl, h⟩ | h)
        · exact absurd h hdup
        · exact ⟨hmem, h⟩

/-- **The rule holds** exactly when it does not need the last two bits. -/
theorem lossRule_iff (l : Link) (w : RemoteWindow) (hdr : Header) (sack : SelectiveAck) :
    LossRule l w hdr sack ↔ EnoughBelow l w hdr sack := by
  constructor
  · intro h p hmem hfresh htransmits habove
    exact (mem_checkLostPackets_resent hmem hfresh htransmits).mp
      (h p hmem hfresh htransmits habove)
  · intro h p hmem hfresh htransmits habove
    exact (mem_checkLostPackets_resent hmem hfresh htransmits).mpr
      (h p hmem hfresh htransmits habove)

theorem oneZero_fits : [(0 : UInt8)].length ≤ maxBufferSize := by decide

/-- One packet in flight, number 1, and a header that acknowledges the number 0. -/
def oneInFlight : RemoteWindow :=
  { RemoteWindow.new with
    curWindow := 1
    unackedPackets := [⟨⟨[0], oneZero_fits⟩, 1, 0, false⟩] }

def stateAckZero : Header :=
  { type := .stState, connectionId := 1, wndSize := 1000, seqNr := 5, ackNr := 0 }

/-- The packets 7, 8 and 9 have been received and 1 has not; the mask has one byte. -/
theorem lastBits_unseen : ¬ LossRule quietLink oneInFlight stateAckZero ⟨[0xE0]⟩ := by
  intro h
  have hresent := h ⟨⟨[0], by decide⟩, 1, 0, false⟩ (by decide) rfl rfl (by decide)
  revert hresent
  decide

end KTorrent.Utp
