import KTorrent.Lib.Run
import KTorrent.Utp.SelectiveAck

/-!
# Positions in the vector

The window finds a packet by subtracting the number of its first slot.  The peer
chooses the numbers, and nothing but the size of the payloads limits how far
ahead they are.

* `Consistent` — what the window promises in every state.
* `InRange` — what a call promises about the positions it computes.
* `Ahead` — the numbers that the subtraction can still tell apart.
* `allStates_consistent` — with such numbers both promises are kept.
* `far_packet_misplaced` — with others a packet is looked up in the wrong slot.
-/

namespace KTorrent
namespace Utp

open Runs

/-- What happens to a window: a packet with any number and any payload, or a read. -/
inductive Arrival where
  | packet (seqNr : UInt16) (header data : List UInt8)
  | read (maxLen : ℕ)

/-- The unbounded number of a packet that is ahead of the last one in order. -/
def Receiver.numberOf (lsn : ℕ) (r : Receiver) (seqNr : UInt16) : ℕ :=
  lastInOrder r.accepted lsn + (seqNr - r.window.lastSeqNr).toNat

/-- One event; `none` when the window is accessed outside its vector.  A packet counts
as received when it is not dropped as old and not refused. -/
def arrive (lsn : ℕ) : Option Receiver → Arrival → Option Receiver
  | none, _ => none
  | some r, .packet seqNr header data =>
    match r.window.packetReceived seqNr (header ++ data) header.length with
    | none => none
    | some (ok, w) =>
      some { r with
        window := w
        accepted := if ok = true ∧ seqNrCmpSE seqNr r.window.lastSeqNr = false then
          insert (r.numberOf lsn seqNr) r.accepted else r.accepted }
  | some r, .read maxLen =>
    match r.window.read maxLen with
    | none => none
    | some (data, w) => some { r with window := w, output := r.output ++ data }

/-! ## What the window promises -/

namespace LocalWindow

/-- `SeqNrDiff(incoming_packets.front().seq_nr, s)`. -/
def indexOf (w : LocalWindow) (s : UInt16) : Option ℕ :=
  w.incomingPackets.head?.map fun front => (seqNrDiff front.seqNr s).toNat

/-- The position computed for `s` is the one of the slot with number `s`. -/
def Designates (w : LocalWindow) (s : UInt16) : Prop :=
  ∃ i p, w.indexOf s = some i ∧ w.incomingPackets[i]? = some p ∧ p.seqNr = s

/-- The same, for a position that may also be the end of the vector: then `s` is the
number that comes next. -/
def DesignatesNext (w : LocalWindow) (s : UInt16) : Prop :=
  w.Designates s ∨ ∃ back, w.indexOf s = some w.incomingPackets.length ∧
    w.incomingPackets.getLast? = some back ∧ s = back.seqNr + 1

/-- The slots carry consecutive numbers. -/
def Consecutive (w : LocalWindow) : Prop :=
  ∀ front i p, w.incomingPackets.head? = some front → w.incomingPackets[i]? = some p →
    p.seqNr = front.seqNr + UInt16.ofNat i

/-- `fillSelectiveAck`, which is called when there are bits to be sent: it starts at
the slot with number `last_seq_nr + 2`, and the bit of each slot is its distance. -/
def SackInRange (w : LocalWindow) : Prop :=
  w.selectiveAckBits > 0 → w.sackStart < w.incomingPackets.length ∧
    ∀ i p, w.incomingPackets[w.sackStart + i]? = some p →
      (seqNrDiff w.lastSeqNr p.seqNr).toNat = i + 2 ∧
        p.seqNr = w.lastSeqNr + UInt16.ofNat (i + 2)

end LocalWindow

/-- What the window promises in every state. -/
structure Consistent (lsn : ℕ) (r : Receiver) : Prop where
  consecutive : r.window.Consecutive
  sack : r.window.SackInRange
  /-- `last_seq_nr` is the end of the packets received without a gap. -/
  last : r.window.lastSeqNr = UInt16.ofNat (lastInOrder r.accepted lsn)

/-- What the calls promise about the positions they compute. -/
def InRange : Option Receiver → Arrival → Prop
  | none, _ => False
  | some r, .packet seqNr header data =>
    seqNrCmpSE seqNr r.window.lastSeqNr = false → data.length ≤ r.window.availableSpace →
      (∀ back, r.window.incomingPackets.getLast? = some back →
        seqNrCmpS back.seqNr seqNr = false → r.window.Designates seqNr) ∧
      ∀ w₁, r.window.insertPacket seqNr (header ++ data) header.length = some (some w₁) →
        seqNr = r.window.lastSeqNr + 1 → w₁.DesignatesNext (seqNr + 1)
  | some r, .read maxLen =>
    r.window.DesignatesNext r.window.firstSeqNr ∧
      ∀ off, r.window.indexOf r.window.firstSeqNr = some off →
        let w := (LocalWindow.readLoop maxLen r.window.incomingPackets.length r.window
          (UInt16.ofNat off) []).1
        w.DesignatesNext w.firstSeqNr

/-- The numbers that the window can tell apart: a packet that it takes is less than
`2 ^ 15` numbers behind the first slot.  An empty window is not read. -/
def Ahead : Option Receiver → Arrival → Prop
  | none, _ => True
  | some r, .packet seqNr _ data =>
    seqNrCmpSE seqNr r.window.lastSeqNr = false → data.length ≤ r.window.availableSpace →
      ∀ front, r.window.incomingPackets.head? = some front → (seqNr - front.seqNr).toNat < 32768
  | some r, .read _ => r.window.incomingPackets ≠ []

/-! ## Positions in a numbered vector -/

section Numbered

variable {w : LocalWindow} {F m : ℕ}

theorem indexOf_numbered (hnum : Numbered F w.incomingPackets) (hne : w.incomingPackets ≠ [])
    (hge : F ≤ m) (hle : m ≤ F + 32768) : w.indexOf (UInt16.ofNat m) = some (m - F) := by
  unfold LocalWindow.indexOf
  cases hpk : w.incomingPackets with
  | nil => exact absurd hpk hne
  | cons front rest =>
    rw [hpk] at hnum
    rw [List.head?_cons, Option.map_some, hnum.1, seqNrDiff_ofNat hge hle]

/-- A number inside the vector. -/
theorem designates_numbered (hnum : Numbered F w.incomingPackets)
    (hspan : w.incomingPackets.length ≤ 32768) (hge : F ≤ m)
    (hlt : m < F + w.incomingPackets.length) : w.Designates (UInt16.ofNat m) := by
  have hne : w.incomingPackets ≠ [] := by
    intro hnil
    rw [hnil, List.length_nil] at hlt
    omega
  have hget : w.incomingPackets[m - F]? = some w.incomingPackets[m - F] :=
    List.getElem?_eq_getElem (by omega)
  refine ⟨m - F, _, indexOf_numbered hnum hne hge (by omega), hget, ?_⟩
  rw [hnum.getElem? hget, Nat.add_sub_cancel' hge]

/-- A number inside the vector or right behind it. -/
theorem designatesNext_numbered (hnum : Numbered F w.incomingPackets)
    (hspan : w.incomingPackets.length ≤ 32768) (hne : w.incomingPackets ≠ []) (hge : F ≤ m)
    (hle : m ≤ F + w.incomingPackets.length) : w.DesignatesNext (UInt16.ofNat m) := by
  rcases Nat.lt_or_ge m (F + w.incomingPackets.length) with hlt | hend
  · exact .inl (designates_numbered hnum hspan hge hlt)
  · obtain rfl : m = F + w.incomingPackets.length := by omega
    have hpos : 0 < w.incomingPackets.length := List.length_pos_iff.mpr hne
    refine .inr ⟨w.incomingPackets.getLast hne, ?_, List.getLast?_eq_some_getLast hne, ?_⟩
    · rw [indexOf_numbered hnum hne hge (by omega), Nat.add_sub_cancel_left]
    · have hget : w.incomingPackets[w.incomingPackets.length - 1]? =
          some (w.incomingPackets.getLast hne) := by
        rw [← List.getLast?_eq_getElem?, List.getLast?_eq_some_getLast hne]
      rw [hnum.getElem? hget, ofNat_succ]
      congr 1
      omega

end Numbered

/-! ## The layout keeps the promises -/

section Layout

variable {payload : ℕ → List UInt8} {cap lsn L F : ℕ} {r : Receiver}
  {pre mid post : List WindowPacket}

theorem Layout.length_packets (h : Layout payload cap lsn r L F pre mid post) :
    r.window.incomingPackets.length = pre.length + mid.length + post.length := by
  rw [h.packets, List.length_append, List.length_append, Nat.add_assoc]

theorem Layout.numbered_packets (h : Layout payload cap lsn r L F pre mid post) :
    Numbered F r.window.incomingPackets := by
  rw [h.packets]
  exact h.numbered

/-- The bits that are sent reach from the first missing packet to the last slot. -/
theorem Layout.selectiveAckBits_eq (h : Layout payload cap lsn r L F pre mid post)
    (hpost : post.length < 32768) : r.window.selectiveAckBits = post.length - 1 := by
  have hpos := h.position
  have hspan := h.span
  unfold LocalWindow.selectiveAckBits
  cases hpk : r.window.incomingPackets with
  | nil =>
    have hlen := h.length_packets
    rw [hpk, List.length_nil] at hlen
    rw [List.getLast?_nil]
    show 0 = post.length - 1
    omega
  | cons front rest =>
    have hcons : front :: rest = pre ++ (mid ++ post) := by rw [← h.packets, hpk]
    have hcmp : seqNrCmpS (UInt16.ofNat L) (UInt16.ofNat (L + post.length)) =
        decide (L < L + post.length) := seqNrCmpS_ofNat (by omega) (by omega)
    rw [List.getLast?_eq_some_getLast (List.cons_ne_nil front rest)]
    simp only [h.back_seqNr hcons, h.last, hcmp, decide_eq_true_eq]
    split
    · rw [seqNrDiff_ofNat (by omega) (by omega), Nat.add_sub_cancel_left]
    · omega

/-- **The promises hold in every state with a layout.** -/
theorem Layout.consistent (h : Layout payload cap lsn r L F pre mid post) :
    Consistent lsn r where
  consecutive := by
    intro front i p hfront hp
    have hfront' : r.window.incomingPackets[0]? = some front := by
      rw [← List.head?_eq_getElem?]
      exact hfront
    rw [h.numbered_packets.getElem? hp, h.numbered_packets.getElem? hfront', Nat.add_zero,
      UInt16.ofNat_add]
  sack := by
    intro hbits
    have hspan := h.span
    have hpos := h.position
    have hpost : 1 < post.length := by
      by_contra hle
      rw [h.selectiveAckBits_eq (by omega)] at hbits
      omega
    have hstart := h.sackStart (List.length_pos_iff.mp (by omega))
    rw [hstart]
    refine ⟨by rw [h.length_packets]; omega, fun i p hp => ?_⟩
    have hlt : pre.length + mid.length + 1 + i < r.window.incomingPackets.length :=
      (List.getElem?_eq_some_iff.mp hp).1
    rw [h.length_packets] at hlt
    have hseq : p.seqNr = UInt16.ofNat (L + (i + 2)) := by
      rw [h.numbered_packets.getElem? hp]
      congr 1
      omega
    rw [hseq, h.last, seqNrDiff_ofNat (by omega) (by omega), Nat.add_sub_cancel_left,
      UInt16.ofNat_add]
    exact ⟨rfl, rfl⟩
  last := by rw [h.last_inOrder.eq, h.last]

/-- The number of a packet that is not dropped as old. -/
theorem Layout.numberOf_spec (h : Layout payload cap lsn r L F pre mid post) {s : UInt16}
    (hcmp : seqNrCmpSE s r.window.lastSeqNr = false) :
    UInt16.ofNat (r.numberOf lsn s) = s ∧ L < r.numberOf lsn s ∧ r.numberOf lsn s ≤ L + 32768 := by
  obtain ⟨hpos, hle⟩ := toNat_sub_of_not_cmpSE hcmp
  unfold Receiver.numberOf
  rw [h.last_inOrder.eq]
  refine ⟨?_, by omega, by omega⟩
  rw [UInt16.ofNat_add, UInt16.ofNat_toNat, ← h.last, UInt16.add_comm, UInt16.sub_add_cancel]

/-- A packet that is taken is near the first slot. -/
theorem Layout.near_of_ahead (h : Layout payload cap lsn r L F pre mid post) {s : UInt16}
    {header data : List UInt8} (hok : Ahead (some r) (.packet s header data))
    (hcmp : seqNrCmpSE s r.window.lastSeqNr = false)
    (hfits : data.length ≤ r.window.availableSpace) : r.numberOf lsn s < F + 32768 := by
  obtain ⟨hs, hlt, hle⟩ := h.numberOf_spec hcmp
  have hpos := h.position
  have hspan := h.span
  cases hpk : r.window.incomingPackets with
  | nil =>
    have hlen := h.length_packets
    rw [hpk, List.length_nil] at hlen
    omega
  | cons front rest =>
    have hdist := hok hcmp hfits front (by rw [hpk]; rfl)
    rw [h.front_seqNr hpk, ← hs, UInt16.toNat_sub, UInt16.toNat_ofNat', UInt16.toNat_ofNat'] at hdist
    have hlen := h.length_packets
    rw [hpk, List.length_cons] at hlen
    omega

/-- **The positions that `packetReceived` computes.** -/
theorem Layout.inRange_packet (h : Layout payload cap lsn r L F pre mid post) {s : UInt16}
    {header data : List UInt8} (hok : Ahead (some r) (.packet s header data)) :
    InRange (some r) (.packet s header data) := by
  intro hcmp hfits
  have hnear := h.near_of_ahead hok hcmp hfits
  obtain ⟨hs, hlt, hle⟩ := h.numberOf_spec hcmp
  have hpos := h.position
  have hspan := h.span
  generalize r.numberOf lsn s = n at hnear hs hlt hle
  subst hs
  constructor
  · intro back hback hcmpS
    have hne : r.window.incomingPackets ≠ [] := by
      intro hnil
      rw [hnil] at hback
      cases hback
    have hbackget : r.window.incomingPackets[r.window.incomingPackets.length - 1]? = some back := by
      rw [← List.getLast?_eq_getElem?]
      exact hback
    have hlenpos : 0 < r.window.incomingPackets.length := List.length_pos_iff.mpr hne
    have hlen := h.length_packets
    rw [h.numbered_packets.getElem? hbackget, seqNrCmpS_ofNat (by omega) (by omega),
      decide_eq_false_iff_not] at hcmpS
    exact designates_numbered h.numbered_packets (by omega) (by omega) (by omega)
  · intro w₁ hins hnext
    have hn : n = L + 1 := by
      rw [h.last, ofNat_succ] at hnext
      exact ofNat_inj_of_near (by omega) (by omega) hnext
    have hno : n ∉ r.accepted := by
      rw [hn]
      exact h.last_inOrder.next
    obtain ⟨payload', hlay, hdata⟩ := h.choose_payload n data
    obtain ⟨w₁', post', hins', hst⟩ := insertPacket_stored hlay hlt hnear hno header
    rw [hdata hno, hins] at hins'
    obtain rfl : w₁ = w₁' := by simpa using hins'
    have hw₁ : w₁.incomingPackets = pre ++ (mid ++ post') := by rw [hst.window]
    have hlen := congrArg List.length hw₁
    have hpostlen := hst.post_length
    simp only [List.length_append] at hlen
    rw [ofNat_succ]
    refine designatesNext_numbered (by rw [hw₁]; exact hst.numbered) (by omega) ?_ (by omega) (by omega)
    exact List.length_pos_iff.mp (by omega)

/-- **The positions that `read` computes.** -/
theorem Layout.inRange_read (h : Layout payload cap lsn r L F pre mid post) {maxLen : ℕ}
    (hne : r.window.incomingPackets ≠ []) : InRange (some r) (.read maxLen) := by
  have hpos := h.position
  have hspan := h.span
  have hlen := h.length_packets
  constructor
  · rw [h.first hne]
    exact designatesNext_numbered h.numbered_packets (by omega) hne (by omega) (by omega)
  · intro off hoff
    cases hpk : r.window.incomingPackets with
    | nil => exact absurd hpk hne
    | cons front fs =>
      have hoff' : UInt16.ofNat off = seqNrDiff front.seqNr r.window.firstSeqNr := by
        rw [LocalWindow.indexOf, hpk] at hoff
        simp only [List.head?_cons, Option.map_some, Option.some.injEq] at hoff
        rw [← hoff, UInt16.ofNat_toNat]
      obtain ⟨w', d, done, rest, hloop, hres, hnum, hfirst⟩ := h.readLoop maxLen hpk
      rw [hoff', ← hpk, hloop]
      have hlen' := congrArg List.length hres.packets
      have hdone := hres.length
      simp only [List.length_append] at hlen'
      show w'.DesignatesNext w'.firstSeqNr
      rw [hfirst, List.length_append]
      refine designatesNext_numbered hnum (by omega) ?_ (by omega) (by omega)
      rw [hpk, List.length_cons] at hlen
      exact List.length_pos_iff.mp (by omega)

/-- A packet behind the last slot is appended. -/
theorem insertPacket_behind {w : LocalWindow} {front : WindowPacket} {rest : List WindowPacket}
    {s : UInt16} (hpk : w.incomingPackets = front :: rest)
    (h : seqNrCmpS ((front :: rest).getLast (List.cons_ne_nil front rest)).seqNr s = true)
    (packet : List UInt8) (dataOff : ℕ) :
    w.insertPacket s packet dataOff = some (some { w with
      incomingPackets := front :: rest ++ (LocalWindow.fillGap
        (((front :: rest).getLast (List.cons_ne_nil front rest)).seqNr + 1) s ++
          [{ seqNr := s, packet := some packet, bytesRead := dataOff }]) }) := by
  rw [LocalWindow.insertPacket, hpk]
  exact if_pos h

/-- A packet that is neither old nor too large is stored under its number, unless the
window has it already. -/
theorem Layout.push (h : Layout payload cap lsn r L F pre mid post) {s : UInt16} {data : List UInt8}
    (hok : Ahead (some r) (.packet s [] data)) (hcmp : seqNrCmpSE s r.window.lastSeqNr = false)
    (hfits : data.length ≤ r.window.availableSpace) :
    ∃ w L' mid' post', r.window.packetReceived s data 0 = some (true, w) ∧
      Layout (if r.numberOf lsn s ∈ r.accepted then payload
          else Function.update payload (r.numberOf lsn s) data) cap lsn
        { r with window := w, accepted := insert (r.numberOf lsn s) r.accepted } L' F pre mid' post' := by
  obtain ⟨hs, hlt, -⟩ := h.numberOf_spec hcmp
  have hnear := h.near_of_ahead hok hcmp hfits
  generalize r.numberOf lsn s = n at hnear hs hlt
  subst hs
  have hlay : Layout (if n ∈ r.accepted then payload else Function.update payload n data) cap lsn r L F
      pre mid post := by
    apply h.congr_payload
    intro m hm
    split
    · rfl
    · rename_i hno
      apply Function.update_of_ne
      rintro rfl
      exact hno hm
  have hdata : n ∉ r.accepted →
      (if n ∈ r.accepted then payload else Function.update payload n data) n = data := by
    intro hno
    rw [if_neg hno, Function.update_self]
  rcases hlay.packetReceived hlt hnear hcmp [] hdata with
    ⟨hsmall, -⟩ | ⟨-, hmem, hrecv⟩ | ⟨-, -, w', L', mid', post', hrecv, hlay', -⟩
  · exact absurd hsmall (not_lt.mpr hfits)
  · refine ⟨r.window, L, mid, post, hrecv, ?_⟩
    rw [Finset.insert_eq_of_mem hmem]
    exact hlay
  · exact ⟨w', L', mid', post', hrecv, hlay'⟩

/-- The last slot behind the in-order packets holds a packet. -/
def Topped (acc : Finset ℕ) (L : ℕ) (post : List WindowPacket) : Prop :=
  post ≠ [] → L + post.length ∈ acc

/-- A packet keeps the layout; its payload becomes the one of its number. -/
theorem Layout.arrive_packet (h : Layout payload cap lsn r L F pre mid post) {s : UInt16}
    {header data : List UInt8} (hok : Ahead (some r) (.packet s header data)) :
    ∃ payload' r' L' mid' post', arrive lsn (some r) (.packet s header data) = some r' ∧
      Layout payload' cap lsn r' L' F pre mid' post' ∧
      (Topped r.accepted L post → Topped r'.accepted L' post') := by
  unfold arrive
  by_cases hcmp : seqNrCmpSE s r.window.lastSeqNr = true
  · refine ⟨payload, r, L, mid, post, ?_, h, id⟩
    simp only [LocalWindow.packetReceived, hcmp, if_true, Bool.true_eq_false, and_false, if_false]
  · rw [Bool.not_eq_true] at hcmp
    obtain ⟨hs, hlt, hle⟩ := h.numberOf_spec hcmp
    have hnear := h.near_of_ahead hok hcmp
    simp only [hcmp, and_true]
    generalize r.numberOf lsn s = n at hnear hs hlt hle
    subst hs
    by_cases hfits : data.length ≤ r.window.windowSpace
    · obtain ⟨payload', hlay, hdata⟩ := h.choose_payload n data
      rcases hlay.packetReceived hlt (hnear hfits) hcmp header hdata with
        ⟨hsmall, -⟩ | ⟨-, hmem, hrecv⟩ | ⟨-, -, w', L', mid', post', hrecv, hlay', hlen⟩
      · omega
      · refine ⟨payload', _, L, mid, post, ?_, hlay, id⟩
        simp only [hrecv, if_true, Finset.insert_eq_of_mem hmem]
      · refine ⟨payload', _, L', mid', post', ?_, hlay', fun htop _ => ?_⟩
        · simp only [hrecv, if_true]
        · -- the newest packet is the one that has arrived or the newest one before
          rw [hlen]
          rcases le_total (L + post.length) n with hnew | hold
          · rw [max_eq_right hnew]
            exact Finset.mem_insert_self _ _
          · rw [max_eq_left hold]
            apply Finset.mem_insert_of_mem
            apply htop
            exact List.length_pos_iff.mp (by omega)
    · refine ⟨payload, r, L, mid, post, ?_, h, id⟩
      have hsize : (header ++ data).length - header.length = data.length := by simp
      simp only [LocalWindow.packetReceived, hcmp, Bool.false_eq_true, if_false, hsize,
        LocalWindow.availableSpace, if_pos (not_le.mp hfits)]

end Layout

/-! ## Whole runs -/

/-- Some split of the vector is a layout. -/
def LaidOut (cap lsn : ℕ) (s : Option Receiver) : Prop :=
  ∃ payload r L F pre mid post, s = some r ∧ Layout payload cap lsn r L F pre mid post

theorem laidOut_arrive {cap lsn : ℕ} (s : Option Receiver) (e : Arrival) (h : LaidOut cap lsn s)
    (hok : Ahead s e) : LaidOut cap lsn (arrive lsn s e) := by
  obtain ⟨payload, r, L, F, pre, mid, post, rfl, hlay⟩ := h
  cases e with
  | packet s header data =>
    obtain ⟨payload', r', L', mid', post', harrive, hlay', -⟩ := hlay.arrive_packet hok
    exact ⟨payload', r', L', F, pre, mid', post', harrive, hlay'⟩
  | read maxLen =>
    obtain ⟨d, w', F', pre', mid', hread, hlay', -⟩ := hlay.read maxLen hok
    refine ⟨payload, _, L, F', pre', mid', post, ?_, hlay'⟩
    simp only [arrive, hread]

theorem inRange_of_laidOut {cap lsn : ℕ} (s : Option Receiver) (e : Arrival)
    (h : LaidOut cap lsn s) (hok : Ahead s e) : InRange s e := by
  obtain ⟨payload, r, L, F, pre, mid, post, rfl, hlay⟩ := h
  cases e with
  | packet s header data => exact hlay.inRange_packet hok
  | read maxLen => exact hlay.inRange_read hok

/-- **The vector and its positions.**  As long as the packets that the window takes are
less than `2 ^ 15` numbers behind its first slot, every state is consistent and every
position that is computed is the right one. -/
theorem allStates_consistent (cap lsn : ℕ) (events : List Arrival)
    (h : AllSteps (arrive lsn) Ahead (some (Receiver.start cap lsn)) events) :
    AllStates (arrive lsn) (fun s => ∃ r, s = some r ∧ Consistent lsn r)
        (some (Receiver.start cap lsn)) events ∧
      AllSteps (arrive lsn) InRange (some (Receiver.start cap lsn)) events := by
  have hstart : LaidOut cap lsn (some (Receiver.start cap lsn)) :=
    ⟨fun _ => [], _, lsn, lsn + 1, [], [], [], rfl, layout_start _ cap lsn⟩
  refine ⟨?_, allSteps_of_invariant laidOut_arrive inRange_of_laidOut events _ hstart h⟩
  refine (allStates_of_invariant laidOut_arrive events _ hstart h).mono fun s hs => ?_
  obtain ⟨payload, r, L, F, pre, mid, post, rfl, hlay⟩ := hs
  exact ⟨r, rfl, hlay.consistent⟩

/-- Two packets across the wrap of the number field, in the wrong order, and a read. -/
theorem allStates_consistent_wrap :
    AllStates (arrive 65534) (fun s => ∃ r, s = some r ∧ Consistent 65534 r)
        (some (Receiver.start 10 65534)) [.packet 0 [0] [7], .packet 65535 [0] [8, 9], .read 3] ∧
      AllSteps (arrive 65534) InRange (some (Receiver.start 10 65534))
        [.packet 0 [0] [7], .packet 65535 [0] [8, 9], .read 3] := by
  apply allStates_consistent
  refine ⟨?_, ?_, ?_, trivial⟩
  · intro _ _ front hfront
    cases hfront
  · intro _ _ front hfront
    obtain rfl : WindowPacket.placeholder 65535 = front := by
      rw [← Option.some.injEq]
      exact hfront
    decide
  · show _ :: _ ≠ ([] : List WindowPacket)
    exact List.cons_ne_nil _ _

/-- Three packets in order that nobody reads, then one as far ahead as the window
takes it, twice. -/
def farEvents : List Arrival :=
  [.packet 1 [] [], .packet 2 [] [], .packet 3 [] [], .packet 32770 [] [], .packet 32770 [] []]

/-- The slot of an empty packet. -/
def emptySlot (seqNr : UInt16) : WindowPacket := { seqNr := seqNr, packet := some [], bytesRead := 0 }

/-- The window after the packets in order. -/
def nearWindow : LocalWindow :=
  { lastSeqNr := 3, firstSeqNr := 1, capacity := 131072,
    incomingPackets := [emptySlot 1, emptySlot 2, emptySlot 3],
    windowSpace := 131072, bytesAvailable := 0 }

/-- The window after the fourth packet. -/
def farWindow : LocalWindow :=
  { nearWindow with
    incomingPackets :=
      [emptySlot 1, emptySlot 2, emptySlot 3] ++ (gap 4 32766 ++ [emptySlot 32770]) }

theorem packetReceived_far : nearWindow.packetReceived 32770 [] 0 = some (true, farWindow) := by
  have hgap : LocalWindow.fillGap 4 32770 = gap 4 32766 := @fillGap_eq 4 32770 (by decide) (by decide)
  have hback : seqNrCmpS 3 32770 = true := by decide
  have hold : seqNrCmpSE 32770 3 = false := by decide
  have hins : nearWindow.insertPacket 32770 [] 0 = some (some farWindow) := by
    rw [@insertPacket_behind nearWindow (emptySlot 1) _ _ rfl hback [] 0, farWindow, ← hgap]
    rfl
  rw [LocalWindow.packetReceived, show nearWindow.lastSeqNr = 3 from rfl, hold, hins]
  rfl

theorem arrive_taken {lsn : ℕ} {r : Receiver} {s : UInt16} {w : LocalWindow}
    (h : r.window.packetReceived s [] 0 = some (true, w)) :
    ∃ r', arrive lsn (some r) (.packet s [] []) = some r' ∧ r'.window = w := by
  simp only [arrive, List.append_nil, List.length_nil, h]
  exact ⟨_, rfl, rfl⟩

/-- **A packet that is too far ahead is looked up in a slot with another number.** -/
theorem far_packet_misplaced :
    ¬ (AllStates (arrive 0) (fun s => ∃ r, s = some r ∧ Consistent 0 r)
        (some (Receiver.start 131072 0)) farEvents ∧
      AllSteps (arrive 0) InRange (some (Receiver.start 131072 0)) farEvents) := by
  rintro ⟨-, -, -, -, -, hrange, -⟩
  obtain ⟨r₁, h₁, hw₁⟩ := @arrive_taken 0 (Receiver.start 131072 0) 1 _ rfl
  obtain ⟨r₂, h₂, hw₂⟩ := @arrive_taken 0 r₁ 2 _ (by rw [hw₁]; rfl)
  obtain ⟨r₃, h₃, hw₃⟩ := @arrive_taken 0 r₂ 3 _ (by rw [hw₂]; rfl)
  obtain ⟨r₄, h₄, hw₄⟩ := @arrive_taken 0 r₃ 32770 _ (by rw [hw₃]; exact packetReceived_far)
  rw [h₁, h₂, h₃, h₄] at hrange
  obtain ⟨hlookup, -⟩ := hrange (by rw [hw₄]; decide) (by rw [hw₄]; decide)
  have hback : farWindow.incomingPackets.getLast? = some (emptySlot 32770) := by
    rw [farWindow, List.getLast?_append_of_ne_nil _ (by simp), List.getLast?_append]
    rfl
  have hdes := hlookup (emptySlot 32770) (by rw [hw₄]; exact hback) (by decide)
  rw [hw₄] at hdes
  obtain ⟨i, p, hi, hp, hseq⟩ := hdes
  have hindex : i = 32767 := by
    have hdiff : farWindow.indexOf 32770 = some 32767 := by decide
    rw [hdiff] at hi
    exact (Option.some.inj hi).symm
  have hnum : Numbered 1 farWindow.incomingPackets := by
    rw [farWindow, numbered_append, numbered_append]
    exact ⟨⟨rfl, rfl, rfl, trivial⟩, numbered_gap 4 32766, by rw [gap_length]; exact ⟨rfl, trivial⟩⟩
  rw [hnum.getElem? hp, hindex] at hseq
  exact absurd hseq (by decide)

end Utp
end KTorrent
