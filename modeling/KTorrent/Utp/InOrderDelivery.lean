import KTorrent.Lib.Run
import KTorrent.Utp.WindowLayout

/-!
# In-order delivery

A run of a receiver is any interleaving of arrivals (in any order, any number of
times) and reads.

* `Delivered` — what an observer expects of a receiver.
* `Receiving` — the invariant: the layout of the window, with few slots behind
  the in-order ones.
* `receiving_packet`, `receiving_read` — both operations keep the invariant and
  stay inside the vector.
* `allStates_delivered` — along every run whose arrivals are near the last
  in-order number, every state is as expected.
-/

namespace KTorrent
namespace Utp

open Runs

variable (payload : ℕ → List UInt8)

/-- What happens to a receiver. -/
inductive Event where
  /-- Packet `n` arrives, behind a header of `header.length` bytes. -/
  | packet (n : ℕ) (header : List UInt8)
  /-- The user reads at most `maxLen` bytes. -/
  | read (maxLen : ℕ)

/-- One event; `none` when the window is accessed outside its vector. -/
def receive : Option Receiver → Event → Option Receiver
  | none, _ => none
  | some r, .packet n header =>
    match r.window.packetReceived (UInt16.ofNat n) (header ++ payload n) header.length with
    | none => none
    | some (ok, w) =>
      some { r with window := w, accepted := if ok then insert n r.accepted else r.accepted }
  | some r, .read maxLen =>
    match r.window.read maxLen with
    | none => none
    | some (data, w) => some { r with window := w, output := r.output ++ data }

/-- The number of packets in the window that have not been read. -/
def LocalWindow.unreadPackets (w : LocalWindow) : ℕ :=
  w.incomingPackets.countP fun p => p.packet.isSome

/-- What the environment keeps to: packets arrive near the last in-order one, no
more than 8192 packets are unread, and an empty window is not read. -/
def Nearby (lsn : ℕ) : Option Receiver → Event → Prop
  | none, _ => True
  | some r, .packet n _ =>
    lsn < n ∧ n ≤ lastInOrder r.accepted lsn + 8192 ∧ lastInOrder r.accepted lsn ≤ n + 8192 ∧
      r.window.unreadPackets ≤ 8192
  | some r, .read _ => r.window.incomingPackets ≠ [] ∧ r.window.unreadPackets ≤ 8192

/-- What a user expects of a receiver that started behind `lsn`. -/
structure Delivered (cap lsn : ℕ) (r : Receiver) : Prop where
  /-- The bytes read are a prefix of the payloads received in order. -/
  inOrder : r.output <+: stream payload lsn (lastInOrder r.accepted lsn)
  /-- `bytesAvailable` counts the in-order bytes that have not been read. -/
  available : r.output.length + r.window.bytesAvailable =
    (stream payload lsn (lastInOrder r.accepted lsn)).length
  /-- `availableSpace` is the capacity less the accepted bytes not yet read. -/
  space : r.window.availableSpace + ∑ n ∈ r.accepted, (payload n).length =
    cap + r.output.length
  /-- `lastSeqNr` is the last number received in order. -/
  last : r.window.lastSeqNr = UInt16.ofNat (lastInOrder r.accepted lsn)

/-! ## The invariant -/

variable {payload}

/-- The state of a receiver between two events: the slots behind the in-order ones
are few. -/
structure Receiving (payload : ℕ → List UInt8) (cap lsn : ℕ) (r : Receiver) (L F : ℕ)
    (pre mid post : List WindowPacket) : Prop extends Layout payload cap lsn r L F pre mid post where
  post_length : post.length ≤ 8192

/-- Some split of the vector meets the invariant. -/
def ReceivingState (payload : ℕ → List UInt8) (cap lsn : ℕ) (s : Option Receiver) : Prop :=
  ∃ r L F pre mid post, s = some r ∧ Receiving payload cap lsn r L F pre mid post

theorem Receiving.delivered {cap lsn L F : ℕ} {r : Receiver} {pre mid post : List WindowPacket}
    (h : Receiving payload cap lsn r L F pre mid post) : Delivered payload cap lsn r := by
  have hL := h.last_inOrder.eq
  have hlen : r.output.length + (unreadAll mid).length = (stream payload lsn L).length := by
    rw [← h.bytes, List.length_append]
  refine ⟨?_, ?_, ?_, ?_⟩
  · rw [hL, ← h.bytes]
    exact List.prefix_append _ _
  · rw [hL, h.available, hlen]
  · have hspace := h.space
    have htotal := h.total
    rw [LocalWindow.availableSpace]
    omega
  · rw [hL, h.last]

theorem receiving_start (payload : ℕ → List UInt8) (cap lsn : ℕ) :
    Receiving payload cap lsn (Receiver.start cap lsn) lsn (lsn + 1) [] [] [] :=
  ⟨layout_start payload cap lsn, Nat.zero_le _⟩

/-! ## Arrivals and reads -/

section Steps

variable {cap lsn L F n : ℕ} {r : Receiver} {pre mid post : List WindowPacket}

theorem Receiving.mid_length (h : Receiving payload cap lsn r L F pre mid post) :
    mid.length ≤ r.window.unreadPackets := by
  have hall : mid.countP (fun p => p.packet.isSome) = mid.length := by
    rw [List.countP_eq_length]
    intro p hp
    obtain ⟨buf, hbuf, -⟩ := h.mid_filled p hp
    simp [hbuf]
  rw [LocalWindow.unreadPackets, h.packets, List.countP_append, List.countP_append, hall]
  omega

/-- **An arrival keeps the invariant.** -/
theorem receiving_packet (h : Receiving payload cap lsn r L F pre mid post)
    {header : List UInt8} (hok : Nearby lsn (some r) (.packet n header)) :
    ReceivingState payload cap lsn (receive payload (some r) (.packet n header)) := by
  obtain ⟨hlsn, hup, hdown, hunread⟩ := hok
  rw [h.last_inOrder.eq] at hup hdown
  have hsame : n ∈ r.accepted →
      ReceivingState payload cap lsn (some { r with accepted := insert n r.accepted }) := by
    intro hmem
    rw [Finset.insert_eq_of_mem hmem]
    exact ⟨r, L, F, pre, mid, post, rfl, h⟩
  have hcmp : seqNrCmpSE (UInt16.ofNat n) r.window.lastSeqNr = decide (n ≤ L) := by
    rw [h.last, seqNrCmpSE_ofNat (by omega) (by omega)]
  by_cases hold : n ≤ L
  · -- a duplicate of a packet received in order
    have hrecv : r.window.packetReceived (UInt16.ofNat n) (header ++ payload n) header.length =
        some (true, r.window) := by
      rw [LocalWindow.packetReceived, if_pos (hcmp.trans (decide_eq_true hold))]
    simp only [receive, hrecv, if_true]
    exact hsame (h.last_inOrder.mem n hlsn hold)
  · have hnear : n < F + 32768 := by
      have hpos := h.position
      have hmid := h.mid_length
      have hpre := h.pre_length
      omega
    rcases h.packetReceived (not_le.mp hold) hnear (hcmp.trans (decide_eq_false hold)) header
        (fun _ => rfl) with
      ⟨-, hrecv⟩ | ⟨-, hmem, hrecv⟩ | ⟨-, -, w', L', mid', post', hrecv, hlay', hlen⟩
    · -- no room: the packet is refused
      simp only [receive, hrecv]
      exact ⟨r, L, F, pre, mid, post, rfl, h⟩
    · simp only [receive, hrecv, if_true]
      exact hsame hmem
    · simp only [receive, hrecv, if_true]
      refine ⟨_, L', F, pre, mid', post', rfl, ⟨hlay', ?_⟩⟩
      have hpost := h.post_length
      have hle : L ≤ L' := by
        by_contra hlt
        exact hlay'.last_inOrder.next (Finset.mem_insert_of_mem
          (h.last_inOrder.mem (L' + 1) (Nat.lt_succ_of_le hlay'.last_inOrder.le) (by omega)))
      omega

/-- **A read keeps the invariant.** -/
theorem receiving_read (h : Receiving payload cap lsn r L F pre mid post) {maxLen : ℕ}
    (hok : Nearby lsn (some r) (.read maxLen)) :
    ReceivingState payload cap lsn (receive payload (some r) (.read maxLen)) := by
  obtain ⟨hne, -⟩ := hok
  obtain ⟨d, w', F', pre', mid', hread, hlay, -⟩ := h.read maxLen hne
  simp only [receive, hread]
  exact ⟨_, L, F', pre', mid', post, rfl, ⟨hlay, h.post_length⟩⟩

end Steps

/-! ## Whole runs -/

/-- One event of the environment keeps the invariant. -/
theorem receivingState_receive {cap lsn : ℕ} (s : Option Receiver) (e : Event)
    (h : ReceivingState payload cap lsn s) (hok : Nearby lsn s e) :
    ReceivingState payload cap lsn (receive payload s e) := by
  obtain ⟨r, L, F, pre, mid, post, rfl, hr⟩ := h
  cases e with
  | packet n header => exact receiving_packet hr hok
  | read maxLen => exact receiving_read hr hok

/-- **In-order delivery.**  Whatever packets arrive near the last in-order one,
and whatever is read in between, no access leaves the vector and the receiver
delivers the payloads in order. -/
theorem allStates_delivered (payload : ℕ → List UInt8) (cap lsn : ℕ) (events : List Event)
    (h : AllSteps (receive payload) (Nearby lsn) (some (Receiver.start cap lsn)) events) :
    AllStates (receive payload) (fun s => ∃ r, s = some r ∧ Delivered payload cap lsn r)
      (some (Receiver.start cap lsn)) events := by
  have hinv : AllStates (receive payload) (ReceivingState payload cap lsn)
      (some (Receiver.start cap lsn)) events :=
    allStates_of_invariant receivingState_receive events _
      ⟨_, lsn, lsn + 1, [], [], [], rfl, receiving_start payload cap lsn⟩ h
  refine hinv.mono fun s hs => ?_
  obtain ⟨r, L, F, pre, mid, post, rfl, hr⟩ := hs
  exact ⟨r, rfl, hr.delivered⟩

/-- Two packets across the wrap of the number field, in the wrong order, and a
read that ends inside the second. -/
def wrapEvents : List Event := [.packet 65537 [0], .packet 65536 [0, 0], .read 3]

theorem wrapEvents_nearby :
    AllSteps (receive fun n => [UInt8.ofNat n, 7]) (Nearby 65535)
      (some (Receiver.start 10 65535)) wrapEvents := by
  have h₀ : lastInOrder ∅ 65535 = 65535 :=
    IsLastInOrder.eq ⟨le_rfl, fun n h₁ h₂ => by omega, by simp⟩
  have h₁ : lastInOrder (insert 65537 ∅) 65535 = 65535 :=
    IsLastInOrder.eq ⟨le_rfl, fun n h₁ h₂ => by omega, by decide⟩
  refine ⟨?_, ?_, ?_, trivial⟩
  · show 65535 < 65537 ∧ 65537 ≤ lastInOrder ∅ 65535 + 8192 ∧
      lastInOrder ∅ 65535 ≤ 65537 + 8192 ∧ 0 ≤ 8192
    rw [h₀]
    decide
  · show 65535 < 65536 ∧ 65536 ≤ lastInOrder (insert 65537 ∅) 65535 + 8192 ∧
      lastInOrder (insert 65537 ∅) 65535 ≤ 65536 + 8192 ∧ 1 ≤ 8192
    rw [h₁]
    decide
  · constructor
    · show _ :: _ ≠ ([] : List WindowPacket)
      exact List.cons_ne_nil _ _
    · show 2 ≤ 8192
      decide

/-- The hypothesis of `allStates_delivered` is met across the wrap. -/
theorem allStates_delivered_wrap :
    AllStates (receive fun n => [UInt8.ofNat n, 7])
      (fun s => ∃ r, s = some r ∧ Delivered (fun n => [UInt8.ofNat n, 7]) 10 65535 r)
      (some (Receiver.start 10 65535)) wrapEvents :=
  allStates_delivered (fun n => [UInt8.ofNat n, 7]) 10 65535 wrapEvents wrapEvents_nearby

end Utp
end KTorrent
