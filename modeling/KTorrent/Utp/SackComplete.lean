import KTorrent.Utp.InFlight
import KTorrent.Utp.WindowNumbers

/-!
# What a selective ack tells the sender

The mask of a selective ack has whole bytes, and `extensionLength` rounds their
number down.  So the last few packets of a window are often not in it.

* `SackComplete` — what the sender is to learn.
* `EndsByte` — the last packet received out of order is the last one of a byte of
  the mask, or far behind it.
* `allStates_sackComplete_iff` — in every window that can be reached the first
  holds exactly when the second does.
-/

namespace KTorrent
namespace Utp

open Runs

/-- The vector of the window spans fewer than 8192 numbers after the event, and an
empty window is not read. -/
def SpanBelow (lsn : ℕ) (s : Option Receiver) (e : Arrival) : Prop :=
  (∀ r maxLen, s = some r → e = .read maxLen → r.window.incomingPackets ≠ []) ∧
    ∀ r, arrive lsn s e = some r → r.window.incomingPackets.length ≤ 8192

/-- What the sender learns from the selective ack of a window.  `last` is the number
that the header acknowledges. -/
structure SackComplete (lsn : ℕ) (r : Receiver) : Prop where
  /-- Every packet received out of order has its bit. -/
  complete : ∀ d, 2 ≤ d → d ≤ 33 → lastInOrder r.accepted lsn + d ∈ r.accepted →
    (sackSent r.window).any (fun sack => acked sack (UInt16.ofNat d)) = true
  /-- No other packet has. -/
  sound : ∀ d : UInt16, (sackSent r.window).any (fun sack => acked sack d) = true →
    lastInOrder r.accepted lsn + d.toNat ∈ r.accepted
  /-- A sender that has sent packet `last` recently removes exactly these packets. -/
  removed : ∀ (first : ℕ) (events : List SenderEvent) (link : Link) (hdr : Header),
    AllSteps Sender.step Spaced (Sender.start first) events →
    (∃ b, (b, lastInOrder r.accepted lsn) ∈ (run Sender.step (Sender.start first) events).sent) →
    (run Sender.step (Sender.start first) events).next ≤ lastInOrder r.accepted lsn + 8192 →
    hdr.ackNr = r.window.lastSeqNr →
    ((run Sender.step (Sender.start first) events).step
        (.packetReceived link hdr (sackSent r.window))).window.keys =
      (run Sender.step (Sender.start first) events).window.keys.filter fun k =>
        !(k.2 ≤ lastInOrder r.accepted lsn ||
          (k.2 ≤ lastInOrder r.accepted lsn + 33 && k.2 ∈ r.accepted))

/-- The newest packet of the window: nothing was received out of order, or it is more
than 33 numbers behind the last one in order, or it is the last one of a byte. -/
def EndsByte (lsn : ℕ) (r : Receiver) : Prop :=
  ∀ d, lastInOrder r.accepted lsn + d ∈ r.accepted →
    (∀ e, d < e → lastInOrder r.accepted lsn + e ∉ r.accepted) → 33 < d ∨ 8 ∣ d - 1

section Window

variable {payload : ℕ → List UInt8} {cap lsn L F n : ℕ} {r : Receiver}
  {pre mid post : List WindowPacket}

/-! ## The mask -/

theorem fillSelectiveAck_length (w : LocalWindow) (sack : SelectiveAck) :
    (w.fillSelectiveAck sack).length = sack.length := by
  have hfold : ∀ (ps : List WindowPacket) (s : SelectiveAck), (ps.foldl (fun sack p =>
      if p.packet.isSome then ack sack (seqNrDiff w.lastSeqNr p.seqNr) else sack) s).length =
        s.length := by
    intro ps
    induction ps with
    | nil => exact fun s => rfl
    | cons p ps ih =>
      intro s
      rw [List.foldl_cons, ih]
      split
      · exact ack_length _ _
      · rfl
  unfold LocalWindow.fillSelectiveAck
  rw [hfold]
  exact List.length_replicate

/-- **The bits that are sent**: those of the accepted packets, within as many whole
bytes as the distance of the last slot fills, and at most four. -/
theorem Layout.acked_sackSent (h : Layout payload cap lsn r L F pre mid post)
    (hpost : post.length < 32768) (d : UInt16) :
    (sackSent r.window).any (fun sack => acked sack d) = true ↔
      InMask (min ((post.length - 1) / 8) 4) d.toNat ∧ L + d.toNat ∈ r.accepted := by
  have hbits := h.selectiveAckBits_eq hpost
  unfold sackSent extensionLength
  rw [hbits]
  by_cases hlong : post.length - 1 > 0
  · have hne : post ≠ [] := List.length_pos_iff.mp (by omega)
    have hmask : SelectiveAck.length ⟨List.replicate (2 + min ((post.length - 1) / 8) 4 - 2) 0⟩ =
        min ((post.length - 1) / 8) 4 := by
      rw [SelectiveAck.length, List.length_replicate, Nat.add_sub_cancel_left]
    rw [if_pos hlong, if_pos (by omega), Option.any_some, h.acked_fill hne, hmask]
  · rw [if_neg hlong]
    simp only [gt_iff_lt, lt_self_iff_false, if_false, Option.any_none, Bool.false_eq_true,
      false_iff, not_and]
    rintro ⟨h₁, h₂⟩
    omega

/-- The newest packet of the window. -/
theorem Layout.endsByte_iff (h : Layout payload cap lsn r L F pre mid post)
    (htop : Topped r.accepted L post) :
    EndsByte lsn r ↔ post = [] ∨ 33 < post.length ∨ 8 ∣ post.length - 1 := by
  unfold EndsByte
  rw [h.last_inOrder.eq]
  have hbeyond : ∀ e, post.length < e → L + e ∉ r.accepted := by
    intro e he
    exact h.waiting.not_mem (by omega)
  constructor
  · intro hends
    by_cases hnil : post = []
    · exact .inl hnil
    · exact .inr (hends post.length (htop hnil) hbeyond)
  · intro hcond d hmem hnewest
    have hle : d ≤ post.length := by
      by_contra hlt
      exact hbeyond d (not_le.mp hlt) hmem
    rcases hcond with rfl | hcond
    · rw [List.length_nil] at hle
      rw [Nat.le_zero.mp hle]
      exact .inr (dvd_zero 8)
    · by_cases hnil : post = []
      · rw [hnil, List.length_nil] at hle
        rw [Nat.le_zero.mp hle]
        exact .inr (dvd_zero 8)
      · have hd : d = post.length := by
          by_contra hne
          exact hnewest post.length (by omega) (htop hnil)
        rw [hd]
        exact hcond

/-- The bytes of the mask reach every packet up to 33 numbers behind. -/
theorem inMask_of_endsByte {k d : ℕ} (hcond : 33 < k ∨ 8 ∣ k - 1) (h₂ : 2 ≤ d) (hk : d ≤ k)
    (h33 : d ≤ 33) : InMask (min ((k - 1) / 8) 4) d := by
  refine ⟨h₂, ?_⟩
  rcases hcond with hfar | ⟨c, hc⟩
  · have hfour : min ((k - 1) / 8) 4 = 4 := by omega
    rw [hfour]
    omega
  · have hbytes : (k - 1) / 8 = c := by omega
    rw [hbytes]
    omega

theorem Layout.le_post_length (h : Layout payload cap lsn r L F pre mid post) {d : ℕ}
    (hmem : L + d ∈ r.accepted) : d ≤ post.length := by
  by_contra hlt
  exact h.waiting.not_mem (by omega) hmem

theorem Layout.distance_ne_one (h : Layout payload cap lsn r L F pre mid post) {d : ℕ}
    (hmem : L + d ∈ r.accepted) : d ≠ 1 := by
  rintro rfl
  exact h.last_inOrder.next hmem

/-- What a sender removes, by the bits of the mask. -/
theorem Layout.ackedUpTo_sackSent (h : Layout payload cap lsn r L F pre mid post)
    (hpost : post.length < 32768) (hcond : post = [] ∨ 33 < post.length ∨ 8 ∣ post.length - 1)
    (number : ℕ) :
    ackedUpTo L (sackSent r.window) number =
      (number ≤ L || (number ≤ L + 33 && number ∈ r.accepted)) := by
  unfold ackedUpTo
  by_cases hle : number ≤ L
  · simp only [hle, decide_true, Bool.true_or]
  · simp only [hle, decide_false, Bool.false_or]
    obtain ⟨d, rfl⟩ : ∃ d, number = L + d := ⟨number - L, by omega⟩
    rw [Nat.add_sub_cancel_left, Bool.eq_iff_iff, Bool.and_eq_true, Bool.and_eq_true,
      decide_eq_true_eq, decide_eq_true_eq, decide_eq_true_eq]
    constructor
    · rintro ⟨hlt, hbit⟩
      rw [h.acked_sackSent hpost, UInt16.toNat_ofNat', Nat.mod_eq_of_lt (by omega)] at hbit
      obtain ⟨⟨-, hmask⟩, hmem⟩ := hbit
      refine ⟨?_, hmem⟩
      have hfour : min ((post.length - 1) / 8) 4 ≤ 4 := min_le_right _ _
      omega
    · rintro ⟨h33, hmem⟩
      have hlen := h.le_post_length hmem
      have hone := h.distance_ne_one hmem
      refine ⟨by omega, (h.acked_sackSent hpost _).mpr ?_⟩
      rw [UInt16.toNat_ofNat', Nat.mod_eq_of_lt (by omega)]
      refine ⟨inMask_of_endsByte ?_ (by omega) hlen (by omega), hmem⟩
      apply hcond.resolve_left
      intro hnil
      rw [hnil, List.length_nil] at hlen
      omega

/-- **A window tells the sender everything exactly when its last packet ends a byte.** -/
theorem Layout.sackComplete_iff (h : Layout payload cap lsn r L F pre mid post)
    (hpost : post.length < 32768) (htop : Topped r.accepted L post) :
    SackComplete lsn r ↔ EndsByte lsn r := by
  rw [h.endsByte_iff htop]
  constructor
  · rintro ⟨hcomplete, -, -⟩
    rw [h.last_inOrder.eq] at hcomplete
    by_contra hcond
    rw [not_or, not_or, not_lt] at hcond
    obtain ⟨hne, h33, hnot⟩ := hcond
    -- the last packet is behind the last whole byte
    have hmem := htop hne
    have hlen : 0 < post.length := List.length_pos_iff.mpr hne
    have hone := h.distance_ne_one hmem
    have hbit := hcomplete post.length (by omega) h33 hmem
    rw [h.acked_sackSent hpost, UInt16.toNat_ofNat', Nat.mod_eq_of_lt (by omega)] at hbit
    have hmask := hbit.1.2
    apply hnot
    refine ⟨(post.length - 1) / 8, ?_⟩
    omega
  · intro hcond
    constructor
    · intro d h₂ h33 hmem
      rw [h.last_inOrder.eq] at hmem
      have hacked := h.ackedUpTo_sackSent hpost hcond (L + d)
      rw [ackedUpTo, Nat.add_sub_cancel_left] at hacked
      have hgt : ¬ L + d ≤ L := by omega
      have hle : L + d ≤ L + 33 := by omega
      simp only [hgt, hle, hmem, decide_false, decide_true, Bool.false_or, Bool.and_self,
        Bool.and_eq_true] at hacked
      exact hacked.2
    · intro d hbit
      rw [h.last_inOrder.eq]
      exact ((h.acked_sackSent hpost d).mp hbit).2
    · intro first events link hdr hspaced hsent hrecent hack
      rw [h.last_inOrder.eq] at hsent hrecent ⊢
      have hflying := run_of_invariant flying_step events _ (flying_start first) hspaced
      have hremoves := removesAcked_of_flying _ (.packetReceived link hdr (sackSent r.window))
        hflying trivial
      rw [hremoves.2 L (hack.trans h.last) hsent hrecent]
      apply List.filter_congr
      intro k _
      rw [h.ackedUpTo_sackSent hpost hcond]

/-! ## Windows that can be reached -/

/-- A packet that is too far ahead makes the vector long. -/
theorem Layout.far_packet (h : Layout payload cap lsn r L F pre mid post) {s : UInt16}
    {header data : List UInt8} (hcmp : seqNrCmpSE s r.window.lastSeqNr = false)
    (hfits : data.length ≤ r.window.availableSpace)
    (hlen : r.window.incomingPackets.length ≤ 8192)
    (hfar : F + 32768 ≤ r.numberOf lsn s) :
    ∃ r', arrive lsn (some r) (.packet s header data) = some r' ∧
      8192 < r'.window.incomingPackets.length := by
  have hpos := h.position
  have hpackets := h.length_packets
  obtain ⟨hs, hlt, hle⟩ := h.numberOf_spec hcmp
  have hsize : (header ++ data).length - header.length = data.length := by simp
  have hroom : ¬ r.window.availableSpace < data.length := not_lt.mpr hfits
  unfold arrive
  generalize r.numberOf lsn s = n at hfar hs hlt hle
  subst hs
  cases hpk : r.window.incomingPackets with
  | nil =>
    rw [hpk, List.length_nil] at hpackets
    omega
  | cons front rest =>
    have hcons : front :: rest = pre ++ (mid ++ post) := by rw [← h.packets, hpk]
    rw [hpk, List.length_cons] at hpackets hlen
    have hback : seqNrCmpS (UInt16.ofNat (L + post.length)) (UInt16.ofNat n) = true := by
      rcases Nat.eq_zero_or_pos post.length with hzero | hpostlen
      · rw [hzero, Nat.add_zero, ← h.last]
        exact cmpS_of_not_cmpSE hcmp
      · rw [seqNrCmpS_ofNat (by omega) (by omega), decide_eq_true_eq]
        omega
    have hnext : UInt16.ofNat n ≠ r.window.lastSeqNr + 1 := by
      rw [h.last, ofNat_succ]
      intro heq
      have := ofNat_inj_of_near (by omega) (by omega) heq
      omega
    have hins := insertPacket_behind hpk (by rw [h.back_seqNr hcons]; exact hback) (header ++ data)
      header.length
    rw [h.back_seqNr hcons, ofNat_succ, fillGap_eq (by omega) (by omega)] at hins
    simp only [LocalWindow.packetReceived, hcmp, Bool.false_eq_true, if_false, hsize, hroom, hins,
      LocalWindow.acknowledge, hnext, Option.map_some]
    refine ⟨_, rfl, ?_⟩
    simp only [List.length_append, List.length_cons, gap_length, List.length_nil]
    omega

/-- In a window that stays short the packets are near. -/
theorem Layout.ahead_of_spanBelow (h : Layout payload cap lsn r L F pre mid post)
    (hlen : r.window.incomingPackets.length ≤ 8192) {e : Arrival} (hok : SpanBelow lsn (some r) e) :
    Ahead (some r) e := by
  cases e with
  | read maxLen => exact hok.1 r maxLen rfl rfl
  | packet s header data =>
    intro hcmp hfits front hfront
    by_contra hge
    have hpk : ∃ rest, r.window.incomingPackets = front :: rest := by
      cases hpk : r.window.incomingPackets with
      | nil =>
        rw [hpk] at hfront
        cases hfront
      | cons front' rest =>
        rw [hpk] at hfront
        obtain rfl : front' = front := Option.some.inj hfront
        exact ⟨rest, rfl⟩
    obtain ⟨rest, hpk⟩ := hpk
    obtain ⟨hs, hlt, hle⟩ := h.numberOf_spec hcmp
    have hpos := h.position
    have hpackets := h.length_packets
    have hdist : (s - front.seqNr).toNat ≤ r.numberOf lsn s - F := by
      rw [h.front_seqNr hpk]
      conv_lhs => rw [← hs]
      rw [UInt16.toNat_sub, UInt16.toNat_ofNat', UInt16.toNat_ofNat']
      omega
    obtain ⟨r', harrive, hlong⟩ := h.far_packet hcmp hfits hlen (by omega)
    have := hok.2 r' harrive
    omega

end Window

/-- A window with a layout, short and with a packet in its last slot. -/
def Reached (cap lsn : ℕ) (s : Option Receiver) : Prop :=
  ∃ payload r L F pre mid post, s = some r ∧ Layout payload cap lsn r L F pre mid post ∧
    Topped r.accepted L post ∧ r.window.incomingPackets.length ≤ 8192

theorem reached_arrive {cap lsn : ℕ} (s : Option Receiver) (e : Arrival) (h : Reached cap lsn s)
    (hok : SpanBelow lsn s e) : Reached cap lsn (arrive lsn s e) := by
  obtain ⟨payload, r, L, F, pre, mid, post, rfl, hlay, htop, hlen⟩ := h
  have hahead := hlay.ahead_of_spanBelow hlen hok
  cases e with
  | packet s header data =>
    obtain ⟨payload', r', L', mid', post', harrive, hlay', htop'⟩ := hlay.arrive_packet hahead
    exact ⟨payload', r', L', F, pre, mid', post', harrive, hlay', htop' htop, hok.2 r' harrive⟩
  | read maxLen =>
    obtain ⟨d, w', F', pre', mid', hread, hlay', -⟩ := hlay.read maxLen hahead
    have harrive : arrive lsn (some r) (.read maxLen) =
        some { r with window := w', output := r.output ++ d } := by
      simp only [arrive, hread]
    exact ⟨payload, _, L, F', pre', mid', post, harrive, hlay', htop, hok.2 _ harrive⟩

/-- **Selective acks.**  In every window that can be reached, as long as its vector is
short, the sender learns about every packet received out of order exactly when the last
of them ends a byte of the mask. -/
theorem allStates_sackComplete_iff (cap lsn : ℕ) (events : List Arrival)
    (h : AllSteps (arrive lsn) (SpanBelow lsn) (some (Receiver.start cap lsn)) events) :
    AllStates (arrive lsn) (fun s => ∃ r, s = some r ∧ (SackComplete lsn r ↔ EndsByte lsn r))
      (some (Receiver.start cap lsn)) events := by
  have hstart : Reached cap lsn (some (Receiver.start cap lsn)) :=
    ⟨fun _ => [], _, lsn, lsn + 1, [], [], [], rfl, layout_start _ cap lsn, fun hne => absurd rfl hne,
      Nat.zero_le _⟩
  refine (allStates_of_invariant reached_arrive events _ hstart h).mono fun s hs => ?_
  obtain ⟨payload, r, L, F, pre, mid, post, rfl, hlay, htop, hlen⟩ := hs
  have hpackets := hlay.length_packets
  exact ⟨r, rfl, hlay.sackComplete_iff (by omega) htop⟩

/-- Packet 2 arrives and packet 1 does not. -/
def oneMissing : List Arrival := [.packet 2 [0] [7]]

/-- The receiver after that. -/
def oneMissingReceiver : Receiver :=
  { window :=
      { lastSeqNr := 0, firstSeqNr := 1, capacity := 10,
        incomingPackets := [.placeholder 1, { seqNr := 2, packet := some [0, 7], bytesRead := 1 }],
        windowSpace := 9, bytesAvailable := 0 }
    accepted := {2}
    output := [] }

theorem arrive_oneMissing :
    arrive 0 (some (Receiver.start 10 0)) (.packet 2 [0] [7]) = some oneMissingReceiver := by
  have hlast : lastInOrder ∅ 0 = 0 := IsLastInOrder.eq ⟨le_rfl, fun n h₁ h₂ => by omega, by simp⟩
  have hnumber : (Receiver.start 10 0).numberOf 0 2 = 2 := by
    rw [Receiver.numberOf, show (Receiver.start 10 0).accepted = ∅ from rfl, hlast]
    rfl
  have hrecv : (Receiver.start 10 0).window.packetReceived 2 ([0] ++ [7]) ([0] : List UInt8).length =
      some (true, oneMissingReceiver.window) := by decide
  rw [arrive, hrecv, hnumber]
  rfl

theorem spanBelow_oneMissing :
    AllSteps (arrive 0) (SpanBelow 0) (some (Receiver.start 10 0)) oneMissing := by
  refine ⟨⟨fun r maxLen _ he => ?_, fun r hr => ?_⟩, trivial⟩
  · cases he
  · rw [arrive_oneMissing] at hr
    obtain rfl := Option.some.inj hr
    decide

theorem allStates_sackComplete_iff_oneMissing :
    AllStates (arrive 0) (fun s => ∃ r, s = some r ∧ (SackComplete 0 r ↔ EndsByte 0 r))
      (some (Receiver.start 10 0)) oneMissing :=
  allStates_sackComplete_iff 10 0 oneMissing spanBelow_oneMissing

/-- **One packet received out of order is not told to the sender**: its bit is the only
one, and a mask of one bit has no bytes. -/
theorem oneMissing_not_sackComplete :
    AllSteps (arrive 0) (SpanBelow 0) (some (Receiver.start 10 0)) oneMissing ∧
      ¬ AllStates (arrive 0) (fun s => ∃ r, s = some r ∧ SackComplete 0 r)
        (some (Receiver.start 10 0)) oneMissing := by
  refine ⟨spanBelow_oneMissing, ?_⟩
  rintro ⟨-, r, hr, hcomplete⟩
  rw [arrive_oneMissing] at hr
  obtain rfl := Option.some.inj hr
  have hlast : lastInOrder oneMissingReceiver.accepted 0 = 0 :=
    IsLastInOrder.eq ⟨le_rfl, fun n h₁ h₂ => by omega, by decide⟩
  have hbit := hcomplete.complete 2 le_rfl (by decide) (by rw [hlast]; decide)
  have hsent : sackSent oneMissingReceiver.window =
      some (oneMissingReceiver.window.fillSelectiveAck ⟨[]⟩) := rfl
  rw [hsent, Option.any_some, acked_outside] at hbit
  · exact Bool.noConfusion hbit
  · rw [fillSelectiveAck_length]
    rintro ⟨-, hle⟩
    exact absurd hle (by decide)

end Utp
end KTorrent
