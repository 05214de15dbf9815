import KTorrent.Lib.UpperBound
import KTorrent.Util.BitSet
import KTorrent.Utp.WindowLayout

/-!
# Selective acks

A packet can name, behind the number it acknowledges, single packets that have
arrived out of order.  The bit mask starts with the number `ack_nr + 2`, lowest
bit of each byte first.

* `acked`, `ack` — reading and setting a bit (`utpprotocol.h`).
* `LocalWindow.fillSelectiveAck` — the bits of a receive window, set in the order
  of its slots behind the first missing packet.
* `extensionLength` — how much of the mask `Connection` sends.
-/

namespace KTorrent
namespace Utp

/-- `SelectiveAck`: the mask, whose length is the field `length`. -/
structure SelectiveAck where
  bitmask : List UInt8
  deriving DecidableEq, Repr

/-- `sack->length`. -/
def SelectiveAck.length (sack : SelectiveAck) : ℕ := sack.bitmask.length

/-- `Acked`. -/
def acked (sack : SelectiveAck) (bit : UInt16) : Bool :=
  if bit.toNat < 2 ∨ bit.toNat > 8 * sack.length + 1 then false
  else
    match sack.bitmask[(bit.toNat - 2) / 8]? with
    | none => false
    | some byte => byte &&& (1 <<< UInt8.ofNat ((bit.toNat - 2) % 8)) != 0

/-- `Ack`. -/
def ack (sack : SelectiveAck) (bit : UInt16) : SelectiveAck :=
  if bit.toNat < 2 ∨ bit.toNat > 8 * sack.length + 1 then sack
  else
    { bitmask := sack.bitmask.modify ((bit.toNat - 2) / 8)
        fun byte => byte ||| (1 <<< UInt8.ofNat ((bit.toNat - 2) % 8)) }

namespace LocalWindow

/-- `LocalWindow::selectiveAckBits`. -/
def selectiveAckBits (w : LocalWindow) : ℕ :=
  match w.incomingPackets.getLast? with
  | none => 0
  | some back =>
    if seqNrCmpS w.lastSeqNr back.seqNr then (seqNrDiff w.lastSeqNr back.seqNr).toNat - 1 else 0

/-- Where `std::upper_bound(.., last_seq_nr + 1)` finds the first slot. -/
def sackStart (w : LocalWindow) : ℕ :=
  Search.upperBound
    (fun i => (w.incomingPackets[i]?).any fun p => seqNrCmpS (w.lastSeqNr + 1) p.seqNr)
    0 w.incomingPackets.length

/-- `LocalWindow::fillSelectiveAck`. -/
def fillSelectiveAck (w : LocalWindow) (sack : SelectiveAck) : SelectiveAck :=
  (w.incomingPackets.drop w.sackStart).foldl
    (fun sack p => if p.packet.isSome then ack sack (seqNrDiff w.lastSeqNr p.seqNr) else sack)
    { bitmask := List.replicate sack.length 0 }

end LocalWindow

/-- `Connection::extensionLength`. -/
def extensionLength (w : LocalWindow) : ℕ :=
  if w.selectiveAckBits > 0 then 2 + min (w.selectiveAckBits / 8) 4 else 0

/-- The selective ack that `Connection::sendPacket` and `sendDataPacket` put behind
the header, if any. -/
def sackSent (w : LocalWindow) : Option SelectiveAck :=
  if extensionLength w > 0 then
    some (w.fillSelectiveAck { bitmask := List.replicate (extensionLength w - 2) 0 })
  else none

/-! ## Bits of the mask -/

/-- The bits that a mask of `len` bytes has. -/
def InMask (len d : ℕ) : Prop := 2 ≤ d ∧ d ≤ 8 * len + 1

theorem shiftLeft_eq_lookup {k : ℕ} (hk : k < 8) : (1 : UInt8) <<< UInt8.ofNat k = setOnLookup (7 - k) := by
  interval_cases k <;> rfl

/-- The bit of the mask that stands for the distance `d`. -/
theorem acked_eq {sack : SelectiveAck} {bit : UInt16} (h : InMask sack.length bit.toNat) :
    acked sack bit = (sack.bitmask[(bit.toNat - 2) / 8]?).any fun byte =>
      byteBit byte (7 - (bit.toNat - 2) % 8) := by
  have hin : ¬ (bit.toNat < 2 ∨ bit.toNat > 8 * sack.length + 1) := by
    obtain ⟨h₁, h₂⟩ := h
    omega
  unfold acked
  rw [if_neg hin, shiftLeft_eq_lookup (Nat.mod_lt _ (by decide))]
  cases sack.bitmask[(bit.toNat - 2) / 8]? with
  | none => rfl
  | some byte => rfl

theorem acked_outside {sack : SelectiveAck} {bit : UInt16} (h : ¬ InMask sack.length bit.toNat) :
    acked sack bit = false := by
  unfold acked
  rw [if_pos]
  by_contra hin
  rw [not_or, not_lt, not_lt] at hin
  exact h hin

@[simp] theorem ack_length (sack : SelectiveAck) (bit : UInt16) : (ack sack bit).length = sack.length := by
  unfold ack
  split
  · rfl
  · rw [SelectiveAck.length, List.length_modify, SelectiveAck.length]

/-- **`Ack` turns on one bit** and leaves the others alone. -/
theorem acked_ack (sack : SelectiveAck) (bit d : UInt16) :
    acked (ack sack bit) d = true ↔
      acked sack d = true ∨ d = bit ∧ InMask sack.length bit.toNat := by
  by_cases hd : InMask sack.length d.toNat
  · have hd' : InMask (ack sack bit).length d.toNat := by rwa [ack_length]
    rw [acked_eq hd, acked_eq hd', ack]
    split
    · rename_i hout
      have hnot : ¬ (d = bit ∧ InMask sack.length bit.toNat) := by
        rintro ⟨-, hin⟩
        obtain ⟨h₁, h₂⟩ := hin
        omega
      rw [or_iff_left hnot]
    · rename_i hin
      rw [not_or, not_lt, not_lt] at hin
      have hinmask : InMask sack.length bit.toNat := hin
      rw [shiftLeft_eq_lookup (Nat.mod_lt _ (by decide)), List.getElem?_modify]
      have heq : d = bit ↔ (bit.toNat - 2) / 8 = (d.toNat - 2) / 8 ∧
          7 - (bit.toNat - 2) % 8 = 7 - (d.toNat - 2) % 8 := by
        rw [← UInt16.toNat_inj]
        have hd2 := hd.1
        have hbit2 := hin.1
        omega
      have hbyte : (d.toNat - 2) / 8 < sack.bitmask.length := by
        have hge : 2 ≤ d.toNat := hd.1
        have hle : d.toNat ≤ 8 * sack.bitmask.length + 1 := hd.2
        omega
      rw [List.getElem?_eq_getElem hbyte]
      simp only [Option.map_eq_map, Option.map_some, Option.any_some, hinmask, and_true]
      split
      · rename_i hsame
        rw [byteBit_or _ _ (by omega), byteBit_setOn (by omega) (by omega), Bool.or_eq_true,
          decide_eq_true_eq, heq]
        simp only [hsame, true_and]
      · rename_i hother
        have hne : ¬ d = bit := fun h => hother (heq.mp h).1
        rw [or_iff_left hne]
  · have hd' : ¬ InMask (ack sack bit).length d.toNat := by rwa [ack_length]
    rw [acked_outside hd, acked_outside hd']
    simp only [Bool.false_eq_true, false_or, false_iff, not_and]
    rintro rfl
    exact hd

theorem acked_zero (len : ℕ) (d : UInt16) : acked ⟨List.replicate len 0⟩ d = false := by
  by_cases hd : InMask (SelectiveAck.length ⟨List.replicate len 0⟩) d.toNat
  · rw [acked_eq hd]
    rw [List.getElem?_replicate]
    split
    · exact byteBit_zero (by omega)
    · rfl
  · exact acked_outside hd

/-! ## The bits of a window -/

/-- The loop of `fillSelectiveAck` over slots that are numbered from `L + k` on. -/
theorem foldl_acked {last : UInt16} {L : ℕ} (hlast : last = UInt16.ofNat L) (d : UInt16) :
    ∀ (ps : List WindowPacket) (k : ℕ) (sack : SelectiveAck), Numbered (L + k) ps →
      k + ps.length ≤ 32769 →
      (acked (ps.foldl (fun sack p =>
          if p.packet.isSome then ack sack (seqNrDiff last p.seqNr) else sack) sack) d = true ↔
        acked sack d = true ∨
          (InMask sack.length d.toNat ∧
            ∃ i p, ps[i]? = some p ∧ p.packet.isSome = true ∧ d.toNat = k + i)) := by
  intro ps
  induction ps with
  | nil =>
    intro k sack _ _
    simp
  | cons p ps ih =>
    intro k sack hnum hlen
    rw [List.length_cons] at hlen
    have hdiff : (seqNrDiff last p.seqNr).toNat = k := by
      rw [hlast, hnum.1, seqNrDiff_ofNat (by omega) (by omega), Nat.add_sub_cancel_left]
    have htail : Numbered (L + (k + 1)) ps := hnum.2
    -- the slots behind the first one
    have hshift : (∃ i q, (p :: ps)[i]? = some q ∧ q.packet.isSome = true ∧ d.toNat = k + i) ↔
        (p.packet.isSome = true ∧ d.toNat = k) ∨
          ∃ i q, ps[i]? = some q ∧ q.packet.isSome = true ∧ d.toNat = k + 1 + i := by
      constructor
      · rintro ⟨i, q, hq, hsome, hd⟩
        cases i with
        | zero =>
          obtain rfl : p = q := by simpa using hq
          exact .inl ⟨hsome, hd⟩
        | succ i => exact .inr ⟨i, q, by simpa using hq, hsome, by omega⟩
      · rintro (⟨hsome, hd⟩ | ⟨i, q, hq, hsome, hd⟩)
        · exact ⟨0, p, rfl, hsome, hd⟩
        · exact ⟨i + 1, q, by simpa using hq, hsome, by omega⟩
    rw [List.foldl_cons, ih (k + 1) _ htail (by omega), hshift]
    by_cases hsome : p.packet.isSome = true
    · have hd : d = seqNrDiff last p.seqNr ↔ d.toNat = k := by
        rw [← UInt16.toNat_inj, hdiff]
      rw [if_pos hsome, acked_ack, ack_length, hdiff, hd]
      constructor
      · rintro ((h | ⟨h₁, h₂⟩) | ⟨h₁, h₂⟩)
        · exact .inl h
        · exact .inr ⟨h₁ ▸ h₂, .inl ⟨hsome, h₁⟩⟩
        · exact .inr ⟨h₁, .inr h₂⟩
      · rintro (h | ⟨h₁, ⟨-, h₂⟩ | h₂⟩)
        · exact .inl (.inl h)
        · exact .inl (.inr ⟨h₂, h₂ ▸ h₁⟩)
        · exact .inr ⟨h₁, h₂⟩
    · rw [if_neg hsome]
      simp only [hsome, Bool.false_eq_true, false_and, false_or]

section Window

variable {payload : ℕ → List UInt8} {cap lsn L F : ℕ} {r : Receiver}
  {pre mid post : List WindowPacket}

/-- The search finds the slot behind the first missing packet. -/
theorem Layout.sackStart (h : Layout payload cap lsn r L F pre mid post) (hpost : post ≠ []) :
    r.window.sackStart = pre.length + mid.length + 1 := by
  have hpos := h.position
  have hspan := h.span
  have hlen : r.window.incomingPackets.length = pre.length + mid.length + post.length := by
    rw [h.packets, List.length_append, List.length_append, Nat.add_assoc]
  have hpostlen : 0 < post.length := List.length_pos_iff.mpr hpost
  unfold LocalWindow.sackStart
  apply Search.upperBound_eq (Nat.zero_le _) (by omega)
  intro i _ hi
  obtain ⟨p, hp⟩ : ∃ p, r.window.incomingPackets[i]? = some p :=
    ⟨_, List.getElem?_eq_getElem (by omega)⟩
  have hseq : p.seqNr = UInt16.ofNat (F + i) := by
    rw [h.packets] at hp
    exact h.numbered.getElem? hp
  rw [hp, Option.any_some, hseq, h.last, ofNat_succ, seqNrCmpS_ofNat (by omega) (by omega),
    decide_eq_decide]
  omega

/-- **What the selective ack of a window says**: within its mask, exactly the packets
that were accepted behind the first missing one. -/
theorem Layout.acked_fill (h : Layout payload cap lsn r L F pre mid post) (hpost : post ≠ [])
    (sack : SelectiveAck) (d : UInt16) :
    acked (r.window.fillSelectiveAck sack) d = true ↔
      InMask sack.length d.toNat ∧ L + d.toNat ∈ r.accepted := by
  have hpos := h.position
  have hspan := h.span
  have hdrop : r.window.incomingPackets.drop r.window.sackStart = post.drop 1 := by
    rw [h.sackStart hpost, h.packets, ← List.append_assoc, ← List.length_append, List.drop_append,
      List.drop_of_length_le (by omega), Nat.add_sub_cancel_left, List.nil_append]
  have hnum : Numbered (L + 2) (post.drop 1) := by
    have hnum := h.numbered
    rw [numbered_append, numbered_append, hpos] at hnum
    have hsplit := hnum.2.2
    cases post with
    | nil => exact absurd rfl hpost
    | cons p ps => exact hsplit.2
  have hlen : (SelectiveAck.mk (List.replicate sack.length 0)).length = sack.length :=
    List.length_replicate
  rw [LocalWindow.fillSelectiveAck, hdrop,
    foldl_acked h.last d (post.drop 1) 2 _ hnum (by rw [List.length_drop]; omega), acked_zero, hlen]
  simp only [Bool.false_eq_true, false_or]
  apply and_congr_right
  rintro ⟨hd, -⟩
  constructor
  · rintro ⟨i, p, hp, hsome, hdi⟩
    rw [List.getElem?_drop] at hp
    rcases h.waiting.getElem? hp with ⟨hnone, -⟩ | ⟨-, hmem⟩
    · rw [hnone] at hsome
      exact absurd hsome Bool.false_ne_true
    · rwa [hdi, show L + (2 + i) = L + 1 + (1 + i) by omega]
  · intro hmem
    have hlt : d.toNat - 1 < post.length := by
      by_contra hge
      exact h.waiting.not_mem (by omega) hmem
    refine ⟨d.toNat - 2, post[d.toNat - 1], ?_, ?_, by omega⟩
    · rw [List.getElem?_drop, show 1 + (d.toNat - 2) = d.toNat - 1 by omega,
        List.getElem?_eq_getElem hlt]
    · rcases h.waiting.getElem? (List.getElem?_eq_getElem hlt) with ⟨-, hno⟩ | ⟨hsome, -⟩
      · rw [show L + 1 + (d.toNat - 1) = L + d.toNat by omega] at hno
        exact absurd hmem hno
      · exact hsome

end Window

end Utp
end KTorrent
