import KTorrent.Lib.Run
import KTorrent.Utp.RemoteWindow

/-!
# What is in flight

A `Sender` is the window of packets in flight together with what an observer
records: the packets sent so far, with their numbers.  A run is any interleaving
of sending, of headers that arrive with any acknowledgements, of timeouts and of
changes of the window size.

* `Accounted` — what the window promises in every state.
* `RemovesAcked` — what a call promises about the packets that leave the window.
* `Spaced` — a packet is sent while the oldest one in flight is less than
  `2 ^ 15` numbers behind it.
* `allStates_accounted` — then both promises are kept.
* `old_packet_stays` — otherwise an acknowledged packet can stay for ever.
-/

namespace KTorrent
namespace Utp

open Runs

/-- A sender, as an observer sees it. -/
structure Sender where
  window : RemoteWindow
  /-- The number of the next packet. -/
  next : ℕ
  /-- Every packet sent so far, with its number. -/
  sent : List (PacketBuffer × ℕ)

/-- What happens to a sender. -/
inductive SenderEvent where
  | addPacket (packet : PacketBuffer) (sendTime : ℕ)
  | packetReceived (link : Link) (hdr : Header) (sack : Option SelectiveAck)
  | timeout (link : Link)
  | updateWindowSize (d : ℤ)

namespace Sender

/-- A sender whose first packet has number `first`. -/
def start (first : ℕ) : Sender := { window := .new, next := first, sent := [] }

/-- One event; packets are sent with consecutive numbers. -/
def step (s : Sender) : SenderEvent → Sender
  | .addPacket packet sendTime =>
    { window := s.window.addPacket packet s.next sendTime
      next := s.next + 1
      sent := s.sent ++ [(packet, s.next)] }
  | .packetReceived link hdr sack => { s with window := (s.window.packetReceived link hdr sack).1 }
  | .timeout link => { s with window := (s.window.timeout link).1 }
  | .updateWindowSize d => { s with window := s.window.updateWindowSize d }

end Sender

/-- A packet and its number, which is what stays the same when it is sent again. -/
def UnackedPacket.key (p : UnackedPacket) : PacketBuffer × ℕ := (p.packet, p.number)

/-- The packets in flight. -/
def RemoteWindow.keys (w : RemoteWindow) : List (PacketBuffer × ℕ) :=
  w.unackedPackets.map UnackedPacket.key

/-- The number of bytes in some packets. -/
def payloadSum (ks : List (PacketBuffer × ℕ)) : ℕ := (ks.map fun k => k.1.payloadSize).sum

/-- What the window promises in every state. -/
structure Accounted (s : Sender) : Prop where
  /-- `currentWindow` counts the bytes in flight. -/
  curWindow : s.window.curWindow = payloadSum s.window.keys
  /-- The packets in flight are some of those sent, in that order. -/
  subsequence : s.window.keys.Sublist s.sent

/-- Packet `number` is acknowledged by the number `m` or by its bit behind it. -/
def ackedUpTo (m : ℕ) (sack : Option SelectiveAck) (number : ℕ) : Bool :=
  number ≤ m ||
    (number < m + 65536 && sack.any fun s => acked s (UInt16.ofNat (number - m)))

/-- What the calls promise about the packets that leave the window.  A header removes
nothing that it does not acknowledge, and one with the number of a packet of the last
8192 removes everything that it does. -/
def RemovesAcked (s : Sender) : SenderEvent → Prop
  | .packetReceived link hdr sack =>
    ((s.window.unackedPackets.filter fun p => !acknowledged hdr sack p).map UnackedPacket.key).Sublist
        (s.step (.packetReceived link hdr sack)).window.keys ∧
      ∀ m, hdr.ackNr = UInt16.ofNat m → (∃ b, (b, m) ∈ s.sent) → s.next ≤ m + 8192 →
        (s.step (.packetReceived link hdr sack)).window.keys =
          s.window.keys.filter fun k => !ackedUpTo m sack k.2
  | e => s.window.keys.Sublist (s.step e).window.keys

/-- No more than 8192 packets are in flight. -/
def Few (s : Sender) : SenderEvent → Prop
  | .addPacket _ _ => s.window.unackedPackets.length < 8192
  | _ => True

/-- Few packets are in flight, and the oldest of them is near. -/
def Spaced (s : Sender) : SenderEvent → Prop
  | .addPacket packet sendTime => Few s (.addPacket packet sendTime) ∧
      ∀ p, s.window.unackedPackets.head? = some p → s.next < p.number + 32768
  | _ => True

/-! ## Sending again changes no packet -/

theorem retransmit_key (l : Link) (p : UnackedPacket) : (l.retransmit p).key = p.key := by
  unfold Link.retransmit
  split <;> rfl

theorem checkPacket_keys (l : Link) (lost : Bool) (p : UnackedPacket) (rest : Resent) :
    (l.checkPacket lost p rest).packets.map UnackedPacket.key =
      p.key :: rest.packets.map UnackedPacket.key := by
  unfold Link.checkPacket
  split
  · rw [List.map_cons, retransmit_key]
  · rfl

theorem checkSack_keys (l : Link) (hdr : Header) (sack : Option SelectiveAck)
    (ps : List UnackedPacket) :
    (l.checkSack hdr sack ps).packets.map UnackedPacket.key = ps.map UnackedPacket.key := by
  unfold Link.checkSack
  split
  · rfl
  · split
    · induction ps with
      | nil => rfl
      | cons p ps ih => rw [List.foldr_cons, checkPacket_keys, ih, List.map_cons]
    · rfl

theorem checkLostPackets_keys (l : Link) (w : RemoteWindow) (hdr : Header)
    (sack : Option SelectiveAck) : (w.checkLostPackets l hdr sack).1.keys = w.keys := by
  unfold RemoteWindow.checkLostPackets RemoteWindow.keys
  cases w.unackedPackets with
  | nil => rfl
  | cons first rest =>
    simp only
    split
    · rw [checkPacket_keys, checkSack_keys, List.map_cons]
    · rw [checkSack_keys]

theorem resendAll_keys (l : Link) (ps : List UnackedPacket) :
    (l.resendAll ps).1.map UnackedPacket.key = ps.map UnackedPacket.key := by
  induction ps with
  | nil => rfl
  | cons p ps ih =>
    rw [Link.resendAll]
    split
    · split
      · rw [List.map_cons, List.map_cons, retransmit_key, ih]
      · rfl
    · rw [List.map_cons, List.map_cons, ih]

/-! ## Only packets in flight are sent again -/

theorem checkPacket_resent (l : Link) (lost : Bool) (p : UnackedPacket) (rest : Resent) :
    (l.checkPacket lost p rest).resent ⊆ p :: rest.resent := by
  unfold Link.checkPacket
  split
  · show (if l.transmits p.seqNr then p :: rest.resent else rest.resent) ⊆ _
    split
    · exact List.Subset.refl _
    · exact List.subset_cons_self p rest.resent
  · exact List.subset_cons_self p rest.resent

theorem checkSack_resent (l : Link) (hdr : Header) (sack : Option SelectiveAck)
    (ps : List UnackedPacket) : (l.checkSack hdr sack ps).resent ⊆ ps := by
  unfold Link.checkSack
  split
  · exact List.nil_subset ps
  · split
    · induction ps with
      | nil => exact List.nil_subset []
      | cons p ps ih =>
        rw [List.foldr_cons]
        exact List.Subset.trans (checkPacket_resent l _ p _) (List.cons_subset_cons p ih)
    · exact List.nil_subset ps

theorem checkLostPackets_resent (l : Link) (w : RemoteWindow) (hdr : Header)
    (sack : Option SelectiveAck) : (w.checkLostPackets l hdr sack).2 ⊆ w.unackedPackets := by
  unfold RemoteWindow.checkLostPackets
  cases w.unackedPackets with
  | nil => exact List.nil_subset []
  | cons first rest =>
    simp only
    split
    · exact List.Subset.trans (checkPacket_resent l true first _)
        (List.cons_subset_cons first (checkSack_resent l hdr sack rest))
    · exact checkSack_resent l hdr sack (first :: rest)

theorem resendAll_resent (l : Link) (ps : List UnackedPacket) : (l.resendAll ps).2 ⊆ ps := by
  induction ps with
  | nil => exact List.nil_subset []
  | cons p ps ih =>
    rw [Link.resendAll]
    split
    · split
      · exact List.cons_subset_cons p ih
      · exact List.nil_subset _
    · exact List.Subset.trans ih (List.subset_cons_self p ps)

/-- What is sent again when a header has arrived is still in flight. -/
theorem packetReceived_resent (l : Link) (w : RemoteWindow) (hdr : Header)
    (sack : Option SelectiveAck) :
    (w.packetReceived l hdr sack).2.map UnackedPacket.key ⊆ (w.packetReceived l hdr sack).1.keys := by
  unfold RemoteWindow.packetReceived
  rw [checkLostPackets_keys]
  exact List.map_subset _ (checkLostPackets_resent l _ hdr sack)

/-- What is sent again after a timeout is still in flight. -/
theorem timeout_resent (l : Link) (w : RemoteWindow) :
    (w.timeout l).2.map UnackedPacket.key ⊆ (w.timeout l).1.keys := by
  have hkeys : (w.timeout l).1.keys = w.keys := resendAll_keys l w.unackedPackets
  rw [hkeys]
  exact List.map_subset _ (resendAll_resent l w.unackedPackets)

/-- The packets in flight after a header has arrived. -/
theorem packetReceived_keys (l : Link) (w : RemoteWindow) (hdr : Header)
    (sack : Option SelectiveAck) :
    (w.packetReceived l hdr sack).1.keys =
      (RemoteWindow.removeAcked hdr sack w.unackedPackets w.curWindow).1.map UnackedPacket.key := by
  unfold RemoteWindow.packetReceived
  rw [checkLostPackets_keys]
  rfl

theorem packetReceived_curWindow (l : Link) (w : RemoteWindow) (hdr : Header)
    (sack : Option SelectiveAck) :
    (w.packetReceived l hdr sack).1.curWindow =
      (RemoteWindow.removeAcked hdr sack w.unackedPackets w.curWindow).2 := rfl

/-! ## The loop that removes packets -/

section Remove

variable {hdr : Header} {sack : Option SelectiveAck}

/-- The number of bytes in some packets. -/
def packetSum (ps : List UnackedPacket) : ℕ := payloadSum (ps.map UnackedPacket.key)

@[simp] theorem packetSum_nil : packetSum [] = 0 := rfl

@[simp] theorem packetSum_cons (p : UnackedPacket) (ps : List UnackedPacket) :
    packetSum (p :: ps) = p.packet.payloadSize + packetSum ps := by
  simp [packetSum, payloadSum, UnackedPacket.key]

theorem removeAcked_cons (p : UnackedPacket) (ps : List UnackedPacket) (cur : ℕ) :
    RemoteWindow.removeAcked hdr sack (p :: ps) cur =
      if seqNrCmpSE p.seqNr hdr.ackNr then
        RemoteWindow.removeAcked hdr sack ps (sub32 cur p.packet.payloadSize)
      else
        match sack with
        | none => (p :: ps, cur)
        | some s =>
          if acked s (p.seqNr - hdr.ackNr) then
            RemoteWindow.removeAcked hdr sack ps (sub32 cur p.packet.payloadSize)
          else
            (p :: (RemoteWindow.removeAcked hdr sack ps cur).1,
              (RemoteWindow.removeAcked hdr sack ps cur).2) := by
  cases sack <;> rfl

/-- The packets that stay are some of the packets. -/
theorem removeAcked_sublist (ps : List UnackedPacket) (cur : ℕ) :
    (RemoteWindow.removeAcked hdr sack ps cur).1.Sublist ps := by
  induction ps generalizing cur with
  | nil => exact List.Sublist.refl _
  | cons p ps ih =>
    rw [removeAcked_cons]
    split
    · exact (ih _).trans (List.sublist_cons_self p ps)
    · split
      · exact List.Sublist.refl _
      · split
        · exact (ih _).trans (List.sublist_cons_self p ps)
        · exact (ih _).cons_cons p

/-- What is not acknowledged stays. -/
theorem filter_sublist_removeAcked (ps : List UnackedPacket) (cur : ℕ) :
    (ps.filter fun p => !acknowledged hdr sack p).Sublist
      (RemoteWindow.removeAcked hdr sack ps cur).1 := by
  induction ps generalizing cur with
  | nil => exact List.Sublist.refl _
  | cons p ps ih =>
    rw [removeAcked_cons, List.filter_cons]
    split
    · rename_i hkeep
      rw [acknowledged, Bool.not_or, Bool.and_eq_true, Bool.not_eq_true', Bool.not_eq_true'] at hkeep
      rw [if_neg (by rw [hkeep.1]; decide)]
      split
      · exact List.filter_sublist.cons_cons p
      · rename_i s
        rw [if_neg (by rw [show acked s (p.seqNr - hdr.ackNr) = false from hkeep.2]; decide)]
        exact (ih _).cons_cons p
    · split
      · exact ih _
      · split
        · exact List.filter_sublist.cons p
        · split
          · exact ih _
          · exact (ih _).cons p

/-- `cur_window` loses the bytes of the packets that are removed. -/
theorem removeAcked_curWindow (ps : List UnackedPacket) (cur : ℕ) (h : packetSum ps ≤ cur)
    (hcur : cur < 2 ^ 32) :
    (RemoteWindow.removeAcked hdr sack ps cur).2 + packetSum ps =
      cur + packetSum (RemoteWindow.removeAcked hdr sack ps cur).1 := by
  induction ps generalizing cur with
  | nil => rfl
  | cons p ps ih =>
    rw [packetSum_cons] at h ⊢
    have hsub : sub32 cur p.packet.payloadSize = cur - p.packet.payloadSize :=
      sub32_of_le (by omega) hcur
    rw [removeAcked_cons]
    split
    · have := ih (sub32 cur p.packet.payloadSize) (by omega) (by omega)
      omega
    · split
      · rw [packetSum_cons]
      · split
        · have := ih (sub32 cur p.packet.payloadSize) (by omega) (by omega)
          omega
        · have := ih cur (by omega) hcur
          rw [packetSum_cons]
          omega

/-- **The loop removes exactly what is acknowledged**, also when it ends early: with
the numbers in order, nothing behind the first packet that stays is acknowledged. -/
theorem removeAcked_eq_filter {m : ℕ} (hack : hdr.ackNr = UInt16.ofNat m) :
    ∀ (ps : List UnackedPacket) (cur : ℕ), ps.Pairwise (fun p q => p.number < q.number) →
      (∀ p ∈ ps, p.number < m + 32768 ∧ m < p.number + 32768) →
      (RemoteWindow.removeAcked hdr sack ps cur).1 =
        ps.filter fun p => !ackedUpTo m sack p.number := by
  intro ps
  induction ps with
  | nil => exact fun cur _ _ => rfl
  | cons p ps ih =>
    intro cur hsorted hnear
    obtain ⟨hhead, htail⟩ := List.pairwise_cons.mp hsorted
    obtain ⟨h₁, h₂⟩ := hnear p List.mem_cons_self
    have hnear' : ∀ q ∈ ps, q.number < m + 32768 ∧ m < q.number + 32768 :=
      fun q hq => hnear q (List.mem_cons_of_mem p hq)
    have hcmp : seqNrCmpSE p.seqNr hdr.ackNr = decide (p.number ≤ m) := by
      rw [hack]
      exact seqNrCmpSE_ofNat h₁ h₂
    rw [removeAcked_cons, hcmp, List.filter_cons]
    by_cases hle : p.number ≤ m
    · have hacked : ackedUpTo m sack p.number = true := by simp [ackedUpTo, hle]
      simp only [hle, hacked, decide_true, if_true, Bool.not_true, Bool.false_eq_true, if_false]
      exact ih _ htail hnear'
    · have hdist : p.seqNr - hdr.ackNr = UInt16.ofNat (p.number - m) := by
        rw [hack, UnackedPacket.seqNr, ← UInt16.toNat_inj, UInt16.toNat_sub, UInt16.toNat_ofNat',
          UInt16.toNat_ofNat', UInt16.toNat_ofNat']
        omega
      have hacked : ackedUpTo m sack p.number =
          sack.any fun s => acked s (UInt16.ofNat (p.number - m)) := by
        have hlt : p.number < m + 65536 := by omega
        simp [ackedUpTo, hle, hlt]
      simp only [hle, decide_false, Bool.false_eq_true, if_false, hacked, hdist]
      cases sack with
      | none =>
        -- the loop ends here
        have hrest : ps.filter (fun q => !ackedUpTo m none q.number) = ps := by
          rw [List.filter_eq_self]
          intro q hq
          have := hhead q hq
          have hgt : ¬ q.number ≤ m := by omega
          simp [ackedUpTo, hgt]
        rw [hrest]
        simp
      | some s =>
        simp only [Option.any_some]
        split
        · rename_i hbit
          simp only [hbit, Bool.not_true, Bool.false_eq_true, if_false]
          exact ih _ htail hnear'
        · rename_i hbit
          rw [Bool.not_eq_true] at hbit
          simp only [hbit, Bool.not_false, if_true]
          rw [ih _ htail hnear']

end Remove

/-! ## The invariant -/

/-- A sender between two events: the numbers in flight increase and are near. -/
structure Flying (first : ℕ) (s : Sender) : Prop extends Accounted s where
  /-- The numbers of all packets sent so far. -/
  numbers : s.sent.map Prod.snd = List.range' first (s.next - first)
  first_le : first ≤ s.next
  few : s.window.unackedPackets.length ≤ 8192
  near : ∀ k ∈ s.window.keys, s.next ≤ k.2 + 32768

section Flying

variable {first : ℕ} {s : Sender}

theorem Flying.lt_next (h : Flying first s) {k : PacketBuffer × ℕ} (hk : k ∈ s.sent) : k.2 < s.next := by
  have hmem : k.2 ∈ s.sent.map Prod.snd := List.mem_map_of_mem hk
  rw [h.numbers, List.mem_range'_1] at hmem
  have := h.first_le
  omega

/-- The numbers in flight increase. -/
theorem Flying.sorted (h : Flying first s) :
    s.window.unackedPackets.Pairwise fun p q => p.number < q.number := by
  have hsent : (s.sent.map Prod.snd).Pairwise (· < ·) := by
    rw [h.numbers]
    exact List.pairwise_lt_range'
  have hkeys : (s.window.keys.map Prod.snd).Pairwise (· < ·) :=
    hsent.sublist (h.subsequence.map Prod.snd)
  rw [RemoteWindow.keys, List.map_map, List.pairwise_map] at hkeys
  exact hkeys

/-- The bytes in flight fit in 32 bits. -/
theorem payloadSum_le (ks : List (PacketBuffer × ℕ)) : payloadSum ks ≤ ks.length * 1500 := by
  induction ks with
  | nil => exact le_rfl
  | cons k ks ih =>
    have hk : k.1.payloadSize ≤ 1500 := k.1.fits
    simp only [payloadSum, List.map_cons, List.sum_cons, List.length_cons] at ih ⊢
    omega

theorem Flying.payloadSum_lt (h : Flying first s) : payloadSum s.window.keys ≤ 8192 * 1500 := by
  have hle := payloadSum_le s.window.keys
  have hfew := h.few
  rw [RemoteWindow.keys, List.length_map] at hle
  exact hle.trans (Nat.mul_le_mul_right _ hfew)

theorem flying_start (first : ℕ) : Flying first (Sender.start first) where
  curWindow := rfl
  subsequence := List.Sublist.refl _
  numbers := by simp [Sender.start]
  first_le := le_rfl
  few := Nat.zero_le _
  near := by simp [Sender.start, RemoteWindow.keys, RemoteWindow.new]

/-- What stays the same when no packet is added or removed. -/
theorem Flying.of_keys (h : Flying first s) {w : RemoteWindow} (hkeys : w.keys = s.window.keys)
    (hcur : w.curWindow = s.window.curWindow) : Flying first { s with window := w } where
  curWindow := by
    show w.curWindow = payloadSum w.keys
    rw [hcur, hkeys, h.curWindow]
  subsequence := by
    show w.keys.Sublist s.sent
    rw [hkeys]
    exact h.subsequence
  numbers := h.numbers
  first_le := h.first_le
  few := by
    have hlen := congrArg List.length hkeys
    rw [RemoteWindow.keys, RemoteWindow.keys, List.length_map, List.length_map] at hlen
    show w.unackedPackets.length ≤ 8192
    rw [hlen]
    exact h.few
  near := by
    show ∀ k ∈ w.keys, s.next ≤ k.2 + 32768
    rw [hkeys]
    exact h.near

theorem Flying.addPacket (h : Flying first s) {packet : PacketBuffer} {sendTime : ℕ}
    (hok : Spaced s (.addPacket packet sendTime)) :
    Flying first (s.step (.addPacket packet sendTime)) := by
  obtain ⟨hfew, hhead⟩ := hok
  have hkeys : (s.step (.addPacket packet sendTime)).window.keys =
      s.window.keys ++ [(packet, s.next)] := by
    simp [Sender.step, RemoteWindow.addPacket, RemoteWindow.keys, UnackedPacket.key]
  have hpacket : packet.payloadSize ≤ 1500 := packet.fits
  have hsum := h.payloadSum_lt
  exact {
    curWindow := by
      rw [hkeys, payloadSum, List.map_append, List.sum_append]
      show u32 (s.window.curWindow + packet.payloadSize) = payloadSum s.window.keys + (packet.payloadSize + 0)
      rw [h.curWindow, u32_of_lt (by omega)]
      rfl
    subsequence := by
      rw [hkeys]
      exact h.subsequence.append (List.Sublist.refl _)
    numbers := by
      show (s.sent ++ [(packet, s.next)]).map Prod.snd = List.range' first (s.next + 1 - first)
      have hle := h.first_le
      rw [List.map_append, h.numbers, Nat.succ_sub hle, List.range'_concat, Nat.one_mul,
        Nat.add_sub_cancel' hle]
      rfl
    first_le := h.first_le.trans (Nat.le_succ _)
    few := by
      show (s.window.unackedPackets ++ [_]).length ≤ 8192
      rw [List.length_append, List.length_singleton]
      exact hfew
    near := by
      intro k hk
      show s.next + 1 ≤ k.2 + 32768
      rw [hkeys] at hk
      rcases List.mem_append.mp hk with hk | hk
      · -- the oldest packet in flight has the smallest number
        cases hpk : s.window.unackedPackets with
        | nil =>
          rw [RemoteWindow.keys, hpk] at hk
          exact absurd hk List.not_mem_nil
        | cons p ps =>
          have hoff := hhead p (by rw [hpk]; rfl)
          have hsorted := h.sorted
          rw [hpk, List.pairwise_cons] at hsorted
          rw [RemoteWindow.keys, hpk, List.map_cons, List.mem_cons] at hk
          rcases hk with rfl | hk
          · exact hoff
          · obtain ⟨q, hq, rfl⟩ := List.mem_map.mp hk
            have := hsorted.1 q hq
            show s.next + 1 ≤ q.number + 32768
            omega
      · rw [List.mem_singleton.mp hk]
        show s.next + 1 ≤ s.next + 32768
        omega }

theorem Flying.packetReceived (h : Flying first s) (link : Link) (hdr : Header)
    (sack : Option SelectiveAck) : Flying first (s.step (.packetReceived link hdr sack)) := by
  have hsub : (s.step (.packetReceived link hdr sack)).window.keys.Sublist s.window.keys := by
    show (s.window.packetReceived link hdr sack).1.keys.Sublist _
    rw [packetReceived_keys]
    exact (removeAcked_sublist _ _).map _
  have hsum := h.payloadSum_lt
  have hcur : packetSum s.window.unackedPackets = s.window.curWindow := h.curWindow.symm
  exact {
    curWindow := by
      show (s.window.packetReceived link hdr sack).1.curWindow =
        payloadSum (s.window.packetReceived link hdr sack).1.keys
      rw [packetReceived_keys, packetReceived_curWindow]
      have hremove := @removeAcked_curWindow hdr sack s.window.unackedPackets s.window.curWindow
        hcur.le (by rw [h.curWindow]; omega)
      rw [hcur] at hremove
      rw [← packetSum]
      omega
    subsequence := hsub.trans h.subsequence
    numbers := h.numbers
    first_le := h.first_le
    few := by
      have hlen := hsub.length_le
      rw [RemoteWindow.keys, RemoteWindow.keys, List.length_map, List.length_map] at hlen
      exact hlen.trans h.few
    near := fun k hk => h.near k (hsub.subset hk) }

/-- **An event keeps the invariant.** -/
theorem flying_step (s : Sender) (e : SenderEvent) (h : Flying first s) (hok : Spaced s e) :
    Flying first (s.step e) := by
  cases e with
  | addPacket packet sendTime => exact h.addPacket hok
  | packetReceived link hdr sack => exact h.packetReceived link hdr sack
  | timeout link => exact h.of_keys (resendAll_keys link _) rfl
  | updateWindowSize d => exact h.of_keys rfl rfl

/-- **An event removes what is acknowledged and nothing else.** -/
theorem removesAcked_of_flying (s : Sender) (e : SenderEvent) (h : Flying first s)
    (_ : Spaced s e) : RemovesAcked s e := by
  cases e with
  | addPacket packet sendTime =>
    show s.window.keys.Sublist (s.window.addPacket packet s.next sendTime).keys
    rw [RemoteWindow.keys, RemoteWindow.keys, RemoteWindow.addPacket, List.map_append]
    exact List.sublist_append_left _ _
  | packetReceived link hdr sack =>
    have hkeys : (s.step (.packetReceived link hdr sack)).window.keys =
        (RemoteWindow.removeAcked hdr sack s.window.unackedPackets s.window.curWindow).1.map
          UnackedPacket.key := packetReceived_keys link s.window hdr sack
    refine ⟨?_, fun m hack hsent hrecent => ?_⟩
    · rw [hkeys]
      exact (filter_sublist_removeAcked _ _).map _
    · have hnear : ∀ p ∈ s.window.unackedPackets, p.number < m + 32768 ∧ m < p.number + 32768 := by
        intro p hp
        obtain ⟨b, hb⟩ := hsent
        have hm : m < s.next := h.lt_next hb
        have hkey : p.key ∈ s.window.keys := List.mem_map_of_mem hp
        have hlt : p.number < s.next := h.lt_next (h.subsequence.subset hkey)
        have hge : s.next ≤ p.number + 32768 := h.near _ hkey
        omega
      rw [hkeys, removeAcked_eq_filter hack _ _ h.sorted hnear, RemoteWindow.keys, List.filter_map]
      rfl
  | timeout link =>
    show s.window.keys.Sublist ((s.window.timeout link).1).keys
    rw [show ((s.window.timeout link).1).keys = s.window.keys from resendAll_keys link _]
  | updateWindowSize d => exact List.Sublist.refl _

end Flying

/-! ## Whole runs -/

/-- **What is in flight.**  As long as a packet is sent only while the oldest one in
flight is less than `2 ^ 15` numbers behind it, the window counts the bytes in flight,
keeps the packets in order and removes exactly what is acknowledged. -/
theorem allStates_accounted (first : ℕ) (events : List SenderEvent)
    (h : AllSteps Sender.step Spaced (Sender.start first) events) :
    AllStates Sender.step Accounted (Sender.start first) events ∧
      AllSteps Sender.step RemovesAcked (Sender.start first) events :=
  ⟨(allStates_of_invariant flying_step events _ (flying_start first) h).mono
      fun _ hs => hs.toAccounted,
    allSteps_of_invariant flying_step removesAcked_of_flying events _ (flying_start first) h⟩

/-! ## A packet that stays -/

/-- A packet of one byte. -/
def oneByte : PacketBuffer := ⟨[0], by decide⟩

/-- A header that acknowledges `ack`. -/
def stateHeader (ack : UInt16) : Header :=
  { type := .stState, connectionId := 0, wndSize := 65536, seqNr := 1, ackNr := ack }

/-- A packet and a header with a selective ack, which acknowledges it as one of the
numbers up to 32768. -/
def ackedAtOnce : List SenderEvent :=
  [.addPacket oneByte 0, .packetReceived quietLink (stateHeader 32768) (some ⟨[]⟩)]

/-- Packet 0 is never acknowledged, the 32768 packets behind it all are; then packet
32769 is sent and acknowledged. -/
def staleEvents : List SenderEvent :=
  .addPacket oneByte 0 :: ((List.replicate 32768 ackedAtOnce).flatten ++
    [.addPacket oneByte 0, .packetReceived quietLink (stateHeader 32769) none])

/-- Only packet 0 is in flight. -/
def Stale (k : ℕ) (s : Sender) : Prop :=
  s.next = k + 1 ∧ s.window.keys = [(oneByte, 0)]

/-- Sending one more packet. -/
theorem Stale.addPacket {k : ℕ} {s : Sender} (h : Stale k s) :
    ∃ p q, (s.step (.addPacket oneByte 0)).window.unackedPackets = [p, q] ∧
      p.key = (oneByte, 0) ∧ q.key = (oneByte, k + 1) := by
  obtain ⟨hnext, hkeys⟩ := h
  obtain ⟨p, hp, hpkey⟩ := List.map_eq_singleton_iff.mp hkeys
  refine ⟨p, ⟨oneByte, k + 1, 0, false⟩, ?_, hpkey, rfl⟩
  show s.window.unackedPackets ++ [⟨oneByte, s.next, 0, false⟩] = _
  rw [hp, hnext]
  rfl

/-- A header removes the newer of two packets, or ends at the older one. -/
theorem removeAcked_pair {p q : UnackedPacket} {hdr : Header} {sack : Option SelectiveAck} {cur : ℕ}
    (hp : acknowledged hdr sack p = false) (hq : seqNrCmpSE q.seqNr hdr.ackNr = true) :
    (RemoteWindow.removeAcked hdr sack [p, q] cur).1 = if sack.isSome then [p] else [p, q] := by
  rw [acknowledged, Bool.or_eq_false_iff] at hp
  rw [removeAcked_cons, if_neg (by rw [hp.1]; decide)]
  cases sack with
  | none => rfl
  | some a =>
    have hbit : ¬ acked a (p.seqNr - hdr.ackNr) = true := by
      rw [show acked a (p.seqNr - hdr.ackNr) = false from hp.2]
      decide
    simp only [if_neg hbit]
    rw [removeAcked_cons, if_pos hq]
    rfl

theorem stale_ackedAtOnce {k : ℕ} (hk : k < 32768) {s : Sender} (h : Stale k s) :
    Stale (k + 1) (run Sender.step s ackedAtOnce) := by
  obtain ⟨p, q, hpackets, hp, hq⟩ := h.addPacket
  have hpnum : p.number = 0 := congrArg Prod.snd hp
  have hqnum : q.number = k + 1 := congrArg Prod.snd hq
  refine ⟨congrArg (· + 1) h.1, ?_⟩
  show ((s.step (.addPacket oneByte 0)).window.packetReceived quietLink (stateHeader 32768)
    (some ⟨[]⟩)).1.keys = _
  have hstays : acknowledged (stateHeader 32768) (some ⟨[]⟩) p = false := by
    rw [acknowledged, UnackedPacket.seqNr, hpnum]
    decide
  have hacked : seqNrCmpSE q.seqNr (stateHeader 32768).ackNr = true := by
    rw [UnackedPacket.seqNr, hqnum]
    have hcmp : seqNrCmpSE (UInt16.ofNat (k + 1)) (UInt16.ofNat 32768) = decide (k + 1 ≤ 32768) :=
      seqNrCmpSE_ofNat (by omega) (by omega)
    exact hcmp.trans (decide_eq_true (by omega))
  rw [packetReceived_keys, hpackets, removeAcked_pair hstays hacked]
  simp [hp]

/-- The rounds in which every new packet is acknowledged. -/
theorem stale_rounds (n : ℕ) : ∀ {k : ℕ} {s : Sender}, k + n ≤ 32768 → Stale k s →
    Stale (k + n) (run Sender.step s (List.replicate n ackedAtOnce).flatten) ∧
      AllSteps Sender.step Few s (List.replicate n ackedAtOnce).flatten := by
  induction n with
  | zero => exact fun _ h => ⟨h, trivial⟩
  | succ n ih =>
    intro k s hle h
    have hround := stale_ackedAtOnce (by omega) h
    obtain ⟨hend, hsteps⟩ := ih (by omega) hround
    rw [List.replicate_succ, List.flatten_cons, run_append, allSteps_append]
    refine ⟨?_, ⟨?_, trivial, trivial⟩, hsteps⟩
    · rwa [show k + (n + 1) = k + 1 + n by omega]
    · have hlen := congrArg List.length h.2
      rw [RemoteWindow.keys, List.length_map] at hlen
      show s.window.unackedPackets.length < 8192
      rw [hlen]
      decide

/-- What follows when only packet 0 is left of the first 32769. -/
theorem stale_last {rounds : List SenderEvent}
    (hend : Stale 32768 (run Sender.step ((Sender.start 0).step (.addPacket oneByte 0)) rounds))
    (hfew : AllSteps Sender.step Few ((Sender.start 0).step (.addPacket oneByte 0)) rounds)
    {events : List SenderEvent} (hevents : events = .addPacket oneByte 0 :: (rounds ++
      [.addPacket oneByte 0, .packetReceived quietLink (stateHeader 32769) none])) :
    AllSteps Sender.step Few (Sender.start 0) events ∧
      ¬ AllSteps Sender.step RemovesAcked (Sender.start 0) events := by
  obtain ⟨p, q, hpackets, hp, hq⟩ := hend.addPacket
  have hpnum : p.number = 0 := congrArg Prod.snd hp
  have hqnum : q.number = 32769 := congrArg Prod.snd hq
  rw [hevents, AllSteps, AllSteps, allSteps_append, allSteps_append]
  generalize run Sender.step ((Sender.start 0).step (.addPacket oneByte 0)) rounds = s
    at hend hpackets
  constructor
  · refine ⟨Nat.succ_pos 8191, hfew, ?_, trivial, trivial⟩
    have hlen := congrArg List.length hend.2
    rw [RemoteWindow.keys, List.length_map] at hlen
    show s.window.unackedPackets.length < 8192
    rw [hlen]
    decide
  · rintro ⟨-, -, -, hlast, -⟩
    -- packet 32769 is the last one that was sent
    have hsent : (oneByte, 32769) ∈ (s.step (.addPacket oneByte 0)).sent := by
      show _ ∈ s.sent ++ [(oneByte, s.next)]
      rw [hend.1]
      exact List.mem_append_right _ List.mem_cons_self
    have hrecent : (s.step (.addPacket oneByte 0)).next ≤ 32769 + 8192 := by
      show s.next + 1 ≤ _
      rw [hend.1]
      decide
    have hkeys := hlast.2 32769 rfl ⟨oneByte, hsent⟩ hrecent
    have hleft : ((s.step (.addPacket oneByte 0)).step
        (.packetReceived quietLink (stateHeader 32769) none)).window.keys =
          [(oneByte, 0), (oneByte, 32769)] := by
      have hstays : acknowledged (stateHeader 32769) none p = false := by
        rw [acknowledged, UnackedPacket.seqNr, hpnum]
        decide
      have hacked : seqNrCmpSE q.seqNr (stateHeader 32769).ackNr = true := by
        rw [UnackedPacket.seqNr, hqnum]
        decide
      show ((s.step (.addPacket oneByte 0)).window.packetReceived quietLink (stateHeader 32769)
        none).1.keys = _
      rw [packetReceived_keys, hpackets, removeAcked_pair hstays hacked]
      simp [hp, hq]
    rw [hleft, RemoteWindow.keys, hpackets, List.map_cons, List.map_cons, hp, hq] at hkeys
    exact absurd hkeys (by decide)

/-- **An acknowledged packet can stay.**  Few packets are in flight all the time, but
packet 0 is so far behind that its number looks like one to come. -/
theorem old_packet_stays :
    AllSteps Sender.step Few (Sender.start 0) staleEvents ∧
      ¬ (AllStates Sender.step Accounted (Sender.start 0) staleEvents ∧
        AllSteps Sender.step RemovesAcked (Sender.start 0) staleEvents) := by
  have hfirst : Stale 0 ((Sender.start 0).step (.addPacket oneByte 0)) := ⟨rfl, rfl⟩
  obtain ⟨hend, hfew⟩ := stale_rounds 32768 (Nat.zero_add _).le hfirst
  rw [Nat.zero_add] at hend
  obtain ⟨hdomain, hnot⟩ := stale_last hend hfew staleEvents.eq_def
  exact ⟨hdomain, fun h => hnot h.2⟩

/-- A run across the wrap of the number field: the packets 65535 and 65536, the second
of which is acknowledged first. -/
theorem allStates_accounted_wrap :
    AllStates Sender.step Accounted (Sender.start 65535)
        [.addPacket oneByte 0, .addPacket oneByte 0,
          .packetReceived quietLink (stateHeader 65534) (some ⟨[1]⟩), .timeout quietLink,
          .packetReceived quietLink (stateHeader 0) none] ∧
      AllSteps Sender.step RemovesAcked (Sender.start 65535)
        [.addPacket oneByte 0, .addPacket oneByte 0,
          .packetReceived quietLink (stateHeader 65534) (some ⟨[1]⟩), .timeout quietLink,
          .packetReceived quietLink (stateHeader 0) none] := by
  apply allStates_accounted
  refine ⟨⟨Nat.succ_pos 8191, ?_⟩, ⟨?_, ?_⟩, trivial, trivial, trivial, trivial⟩
  · intro p hp
    cases hp
  · show 1 < 8192
    decide
  · intro p hp
    obtain rfl : (⟨oneByte, 65535, 0, false⟩ : UnackedPacket) = p := Option.some.inj hp
    decide

end Utp
end KTorrent
