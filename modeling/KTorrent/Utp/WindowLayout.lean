import KTorrent.Utp.WindowSlots

/-!
# The layout of a receive window

The sender numbers its packets `lsn + 1, lsn + 2, …` without bound; a packet on
the wire carries its number modulo `2 ^ 16`.  A `Receiver` is the receive window
together with what an observer records: the numbers accepted so far and the
bytes handed over by `read`.

* `Waiting` — the slots behind the in-order ones hold exactly the accepted
  packets, untouched.
* `Layout` — where the in-order slots lie in the vector and how the counters of
  the window relate to the bytes in the slots.  The slots span at most `2 ^ 15`
  numbers, which is what the comparisons of the source can tell apart.
* `Layout.packetReceived`, `Layout.read` — both operations stay inside the
  vector and keep the layout.
-/

namespace KTorrent
namespace Utp

variable (payload : ℕ → List UInt8)

/-- The payloads of the packets `lsn + 1, …, last`, concatenated. -/
def stream (lsn last : ℕ) : List UInt8 :=
  ((List.range' (lsn + 1) (last - lsn)).map payload).flatten

theorem exists_missing (acc : Finset ℕ) (lsn : ℕ) : ∃ k, lsn + k + 1 ∉ acc := by
  by_contra h
  push Not at h
  have hinj : Function.Injective fun k => lsn + k + 1 := fun a b hab => by
    simpa using hab
  exact Set.infinite_range_of_injective hinj
    (acc.finite_toSet.subset (Set.range_subset_iff.2 h))

/-- The last number of the longest contiguous run accepted behind `lsn`. -/
def lastInOrder (acc : Finset ℕ) (lsn : ℕ) : ℕ := lsn + Nat.find (exists_missing acc lsn)

/-- A receiver, as its user observes it. -/
structure Receiver where
  /-- The receive window. -/
  window : LocalWindow
  /-- Numbers of the packets the window has accepted. -/
  accepted : Finset ℕ
  /-- Everything `read` has returned so far. -/
  output : List UInt8

/-- A receiver that expects `lsn + 1` first. -/
def Receiver.start (cap lsn : ℕ) : Receiver :=
  { window := (LocalWindow.new cap).setLastSeqNr (UInt16.ofNat lsn), accepted := ∅, output := [] }

/-! ## The longest contiguous run -/

/-- `L` is the last number of the longest contiguous run behind `lsn`. -/
structure IsLastInOrder (acc : Finset ℕ) (lsn L : ℕ) : Prop where
  le : lsn ≤ L
  mem : ∀ n, lsn < n → n ≤ L → n ∈ acc
  next : L + 1 ∉ acc

theorem IsLastInOrder.eq {acc : Finset ℕ} {lsn L : ℕ} (h : IsLastInOrder acc lsn L) :
    lastInOrder acc lsn = L := by
  have hfind : Nat.find (exists_missing acc lsn) = L - lsn := by
    rw [Nat.find_eq_iff]
    constructor
    · rw [Nat.add_sub_cancel' h.le]
      exact h.next
    · intro k hk hc
      exact hc (h.mem (lsn + k + 1) (by omega) (by omega))
  rw [lastInOrder, hfind, Nat.add_sub_cancel' h.le]

theorem stream_self (lsn : ℕ) : stream payload lsn lsn = [] := by
  simp [stream]

theorem stream_append {lsn L : ℕ} (h : lsn ≤ L) (k : ℕ) :
    stream payload lsn (L + k) = stream payload lsn L ++ stream payload L (L + k) := by
  have hrange : List.range' (lsn + 1) (L + k - lsn) =
      List.range' (lsn + 1) (L - lsn) ++ List.range' (L + 1) k := by
    rw [List.range'_eq_append_iff]
    exact ⟨L - lsn, by omega, rfl, by congr 1 <;> omega⟩
  rw [stream, stream, stream, hrange, Nat.add_sub_cancel_left, List.map_append, List.flatten_append]

theorem stream_cons (L k : ℕ) :
    stream payload L (L + (k + 1)) = payload (L + 1) ++ stream payload (L + 1) (L + 1 + k) := by
  rw [stream, stream, Nat.add_sub_cancel_left, Nat.add_sub_cancel_left, List.range'_succ]
  rfl

/-! ## The slots behind the in-order ones -/

/-- The slots hold exactly the accepted packets from number `n` on, untouched. -/
def Waiting (acc : Finset ℕ) : ℕ → List WindowPacket → Prop
  | n, [] => ∀ m, n ≤ m → m ∉ acc
  | n, p :: ps =>
    (p.packet = none ∧ n ∉ acc ∨ Filled p ∧ n ∈ acc ∧ p.unread = payload n) ∧
      Waiting acc (n + 1) ps

variable {payload} {acc : Finset ℕ}

theorem Waiting.stopsAt {n : ℕ} {post : List WindowPacket} (h : Waiting payload acc n post)
    (hn : n ∉ acc) : StopsAt post := by
  cases post with
  | nil => intro p hp; simp at hp
  | cons q qs =>
    intro p hp
    obtain rfl : q = p := by simpa using hp
    rcases h.1 with ⟨hq, -⟩ | ⟨-, hmem, -⟩
    · exact hq
    · exact absurd hmem hn

/-- A slot is empty exactly when its packet has not been accepted. -/
theorem Waiting.getElem? {n i : ℕ} {post : List WindowPacket} {p : WindowPacket}
    (h : Waiting payload acc n post) (hi : post[i]? = some p) :
    p.packet = none ∧ n + i ∉ acc ∨ p.packet.isSome ∧ n + i ∈ acc := by
  induction post generalizing n i with
  | nil => simp at hi
  | cons q qs ih =>
    cases i with
    | zero =>
      obtain rfl : q = p := by simpa using hi
      rcases h.1 with hq | ⟨⟨buf, hbuf, -⟩, hmem, -⟩
      · exact .inl hq
      · exact .inr ⟨by simp [hbuf], hmem⟩
    | succ i =>
      have := ih h.2 (by simpa using hi)
      rwa [show n + 1 + i = n + (i + 1) by omega] at this

theorem Waiting.not_mem {n m : ℕ} {post : List WindowPacket} (h : Waiting payload acc n post)
    (hm : n + post.length ≤ m) : m ∉ acc := by
  induction post generalizing n with
  | nil => exact h m (by simpa using hm)
  | cons q qs ih => exact ih h.2 (by simp only [List.length_cons] at hm; omega)

/-- Only the numbers from `n` on matter. -/
theorem Waiting.congr {acc' : Finset ℕ} {n : ℕ} {post : List WindowPacket}
    (h : Waiting payload acc n post) (hacc : ∀ m, n ≤ m → (m ∈ acc' ↔ m ∈ acc)) :
    Waiting payload acc' n post := by
  induction post generalizing n with
  | nil => exact fun m hm hc => h m hm ((hacc m hm).1 hc)
  | cons q qs ih =>
    refine ⟨?_, ih h.2 fun m hm => hacc m (by omega)⟩
    rw [hacc n le_rfl]
    exact h.1

/-- A packet stored in its empty slot. -/
theorem Waiting.set {n i : ℕ} {post : List WindowPacket} {p q : WindowPacket}
    (h : Waiting payload acc n post) (hi : post[i]? = some p)
    (hq : Filled q) (hqn : q.unread = payload (n + i)) :
    Waiting payload (insert (n + i) acc) n (post.set i q) := by
  induction post generalizing n i with
  | nil => simp at hi
  | cons r rs ih =>
    cases i with
    | zero =>
      refine ⟨.inr ⟨hq, by simp, hqn⟩, ?_⟩
      refine h.2.congr fun m hm => ?_
      rw [Finset.mem_insert]
      exact ⟨fun hc => hc.resolve_left (by omega), .inr⟩
    | succ i =>
      rw [show n + (i + 1) = n + 1 + i by omega] at hqn ⊢
      refine ⟨?_, ih h.2 (by simpa using hi) hqn⟩
      rw [Finset.mem_insert, show (n = n + 1 + i) = False from eq_false (by omega), false_or]
      exact h.1

/-- A packet stored behind the last slot, with placeholders in between. -/
theorem Waiting.append {n k : ℕ} {post : List WindowPacket} {q : WindowPacket}
    (h : Waiting payload acc n post) (hq : Filled q)
    (hqn : q.unread = payload (n + post.length + k)) :
    Waiting payload (insert (n + post.length + k) acc) n
      (post ++ (gap (n + post.length) k ++ [q])) := by
  induction post generalizing n with
  | nil =>
    -- the placeholders of the gap
    simp only [List.length_nil, Nat.add_zero, List.nil_append] at hqn ⊢
    have hgap : ∀ (k n : ℕ), (∀ m, n ≤ m → m ∉ acc) → q.unread = payload (n + k) →
        Waiting payload (insert (n + k) acc) n (gap n k ++ [q]) := by
      intro k
      induction k with
      | zero =>
        intro n hnone hqn
        refine ⟨.inr ⟨hq, by simp, hqn⟩, fun m hm hc => ?_⟩
        rcases Finset.mem_insert.1 hc with hc | hc
        · omega
        · exact hnone m (by omega) hc
      | succ k ih =>
        intro n hnone hqn
        rw [show n + (k + 1) = n + 1 + k by omega] at hqn ⊢
        refine ⟨.inl ⟨rfl, ?_⟩, ih (n + 1) (fun m hm => hnone m (by omega)) hqn⟩
        rw [Finset.mem_insert]
        rintro (hc | hc)
        · omega
        · exact hnone n le_rfl hc
    exact hgap k n h hqn
  | cons r rs ih =>
    simp only [List.length_cons] at hqn ⊢
    rw [show n + (rs.length + 1) = n + 1 + rs.length by omega] at hqn ⊢
    refine ⟨?_, ih h.2 hqn⟩
    rw [Finset.mem_insert, show (n = n + 1 + rs.length + k) = False from eq_false (by omega),
      false_or]
    exact h.1

/-- The packets that have become in-order: everything up to the first one that
is missing. -/
theorem Waiting.run {n : ℕ} {post : List WindowPacket} (h : Waiting payload acc (n + 1) post) :
    ∃ run rest, post = run ++ rest ∧ (∀ p ∈ run, Filled p) ∧
      Waiting payload acc (n + run.length + 1) rest ∧ n + run.length + 1 ∉ acc ∧
      (∀ m, n < m → m ≤ n + run.length → m ∈ acc) ∧
      unreadAll run = stream payload n (n + run.length) := by
  induction post generalizing n with
  | nil =>
    refine ⟨[], [], rfl, by simp, h, h (n + 1) le_rfl, ?_, ?_⟩
    · intro m h₁ h₂
      simp only [List.length_nil, Nat.add_zero] at h₂
      omega
    · exact (stream_self payload n).symm
  | cons p ps ih =>
    rcases h.1 with ⟨-, hno⟩ | ⟨hfill, hmem, hun⟩
    · refine ⟨[], p :: ps, rfl, by simp, h, hno, ?_, ?_⟩
      · intro m h₁ h₂
        simp only [List.length_nil, Nat.add_zero] at h₂
        omega
      · exact (stream_self payload n).symm
    · obtain ⟨run, rest, rfl, hrun, hrest, hno, hall, hbytes⟩ := ih h.2
      refine ⟨p :: run, rest, rfl, ?_, ?_, ?_, ?_, ?_⟩
      · intro q hq
        rcases List.mem_cons.1 hq with rfl | hq
        · exact hfill
        · exact hrun q hq
      · rw [List.length_cons, show n + (run.length + 1) = n + 1 + run.length by omega]
        exact hrest
      · rw [List.length_cons, show n + (run.length + 1) = n + 1 + run.length by omega]
        exact hno
      · intro m h₁ h₂
        rw [List.length_cons] at h₂
        rcases Nat.eq_or_lt_of_le (Nat.succ_le_of_lt h₁) with heq | hlt
        · exact heq ▸ hmem
        · exact hall m hlt (by omega)
      · rw [unreadAll_cons, hun, hbytes, List.length_cons, stream_cons]

/-! ## The layout -/

/-- A receiver between two events.  The vector is `pre` (slots that have been read),
`mid` (packets in order, up to number `L`) and `post`; its first slot has number `F`. -/
structure Layout (payload : ℕ → List UInt8) (cap lsn : ℕ) (r : Receiver) (L F : ℕ)
    (pre mid post : List WindowPacket) : Prop where
  last_inOrder : IsLastInOrder r.accepted lsn L
  packets : r.window.incomingPackets = pre ++ (mid ++ post)
  numbered : Numbered F (pre ++ (mid ++ post))
  pre_read : ∀ p ∈ pre, p.packet = none
  pre_length : pre.length ≤ 20
  mid_filled : ∀ p ∈ mid, Filled p
  position : F + pre.length + mid.length = L + 1
  waiting : Waiting payload r.accepted (L + 1) post
  span : pre.length + mid.length + post.length ≤ 32768
  last : r.window.lastSeqNr = UInt16.ofNat L
  first : r.window.incomingPackets ≠ [] → r.window.firstSeqNr = UInt16.ofNat (F + pre.length)
  bytes : r.output ++ unreadAll mid = stream payload lsn L
  available : r.window.bytesAvailable = (unreadAll mid).length
  space : r.window.windowSpace + (unreadAll mid).length + (unreadAll post).length = cap
  total : ∑ n ∈ r.accepted, (payload n).length =
    (stream payload lsn L).length + (unreadAll post).length

theorem layout_start (payload : ℕ → List UInt8) (cap lsn : ℕ) :
    Layout payload cap lsn (Receiver.start cap lsn) lsn (lsn + 1) [] [] [] where
  last_inOrder := ⟨le_rfl, fun n h₁ h₂ => by omega, by simp [Receiver.start]⟩
  packets := rfl
  numbered := trivial
  pre_read := by simp
  pre_length := by simp
  mid_filled := by simp
  position := rfl
  waiting := by intro m _; simp [Receiver.start]
  span := by simp
  last := rfl
  first := fun h => absurd rfl h
  bytes := (stream_self payload lsn).symm
  available := rfl
  space := rfl
  total := by simp [Receiver.start, stream_self]

theorem stream_congr {payload' : ℕ → List UInt8} {lsn L : ℕ}
    (h : ∀ n, lsn < n → n ≤ L → payload' n = payload n) :
    stream payload' lsn L = stream payload lsn L := by
  unfold stream
  congr 1
  apply List.map_congr_left
  intro n hn
  rw [List.mem_range'_1] at hn
  exact h n (by omega) (by omega)

theorem Waiting.congr_payload {payload' : ℕ → List UInt8} {n : ℕ} {post : List WindowPacket}
    (h : Waiting payload acc n post) (heq : ∀ m ∈ acc, payload' m = payload m) :
    Waiting payload' acc n post := by
  induction post generalizing n with
  | nil => exact h
  | cons p ps ih =>
    refine ⟨?_, ih h.2⟩
    rcases h.1 with hempty | ⟨hfill, hmem, hun⟩
    · exact .inl hempty
    · exact .inr ⟨hfill, hmem, by rw [hun, heq n hmem]⟩

/-- Only the payloads of packets that were accepted matter. -/
theorem Layout.congr_payload {payload' : ℕ → List UInt8} {cap lsn L F : ℕ} {r : Receiver}
    {pre mid post : List WindowPacket} (h : Layout payload cap lsn r L F pre mid post)
    (heq : ∀ m ∈ r.accepted, payload' m = payload m) :
    Layout payload' cap lsn r L F pre mid post := by
  have hstream : stream payload' lsn L = stream payload lsn L :=
    stream_congr fun n h₁ h₂ => heq n (h.last_inOrder.mem n h₁ h₂)
  exact { h with
    waiting := h.waiting.congr_payload heq
    bytes := by rw [hstream, h.bytes]
    total := by
      rw [hstream, ← h.total]
      exact Finset.sum_congr rfl fun n hn => by rw [heq n hn] }

/-- The payload of a packet that has not been accepted can be chosen. -/
theorem Layout.choose_payload {cap lsn L F : ℕ} {r : Receiver} {pre mid post : List WindowPacket}
    (h : Layout payload cap lsn r L F pre mid post) (n : ℕ) (data : List UInt8) :
    ∃ payload', Layout payload' cap lsn r L F pre mid post ∧
      (n ∉ r.accepted → payload' n = data) := by
  by_cases hmem : n ∈ r.accepted
  · exact ⟨payload, h, fun hno => absurd hmem hno⟩
  · refine ⟨Function.update payload n data, h.congr_payload ?_, fun _ => Function.update_self _ _ _⟩
    intro m hm
    apply Function.update_of_ne
    rintro rfl
    exact hmem hm

/-! ## Arrival of a packet -/

theorem unreadAll_set_length {i : ℕ} {ps : List WindowPacket} {p q : WindowPacket}
    (hi : ps[i]? = some p) (hp : p.packet = none) :
    (unreadAll (ps.set i q)).length = (unreadAll ps).length + q.unread.length := by
  induction ps generalizing i with
  | nil => simp at hi
  | cons r rs ih =>
    cases i with
    | zero =>
      obtain rfl : r = p := by simpa using hi
      simp [unread_of_none hp]
      omega
    | succ i =>
      rw [List.set_cons_succ, unreadAll_cons, unreadAll_cons, List.length_append,
        List.length_append, ih (by simpa using hi)]
      omega

theorem unreadAll_gap (n k : ℕ) : unreadAll (gap n k) = [] :=
  unreadAll_of_none (fun _ hp => gap_packet hp)

/-- The vector after packet `n` has been stored in it. -/
structure Stored (payload : ℕ → List UInt8) (acc : Finset ℕ) (w w₁ : LocalWindow)
    (L F n : ℕ) (pre mid post post' : List WindowPacket) : Prop where
  window : w₁ = { w with
    incomingPackets := pre ++ (mid ++ post'), firstSeqNr := UInt16.ofNat (F + pre.length) }
  numbered : Numbered F (pre ++ (mid ++ post'))
  waiting : Waiting payload (insert n acc) (L + 1) post'
  post_length : L + post'.length = max (L + post.length) n
  unread : (unreadAll post').length = (unreadAll post).length + (payload n).length

/-- The slot of packet `n`, when it has just arrived behind `header`. -/
def arrived (payload : ℕ → List UInt8) (n : ℕ) (header : List UInt8) : WindowPacket :=
  { seqNr := UInt16.ofNat n, packet := some (header ++ payload n), bytesRead := header.length }

theorem arrived_filled (n : ℕ) (header : List UInt8) : Filled (arrived payload n header) :=
  ⟨header ++ payload n, rfl, by simp [arrived]⟩

theorem arrived_unread (n : ℕ) (header : List UInt8) :
    (arrived payload n header).unread = payload n := by
  rw [unread_of_some (p := arrived payload n header) rfl]
  simp [arrived]

section Arrival

variable {cap lsn L F n : ℕ} {r : Receiver} {pre mid post : List WindowPacket}

/-- The first slot of the vector has number `F`. -/
theorem Layout.front_seqNr (h : Layout payload cap lsn r L F pre mid post)
    {front : WindowPacket} {fs : List WindowPacket}
    (hpk : r.window.incomingPackets = front :: fs) : front.seqNr = UInt16.ofNat F := by
  have hnum := h.numbered
  rw [← h.packets, hpk] at hnum
  exact hnum.1

/-- The number of the last slot. -/
theorem Layout.back_seqNr (h : Layout payload cap lsn r L F pre mid post)
    {front : WindowPacket} {rest : List WindowPacket}
    (hcons : front :: rest = pre ++ (mid ++ post)) :
    ((front :: rest).getLast (List.cons_ne_nil front rest)).seqNr =
      UInt16.ofNat (L + post.length) := by
  have hget : (pre ++ (mid ++ post))[(front :: rest).length - 1]? =
      some ((front :: rest).getLast (List.cons_ne_nil front rest)) := by
    rw [← hcons, ← List.getLast?_eq_getElem?, List.getLast?_eq_some_getLast]
  rw [h.numbered.getElem? hget]
  congr 1
  have hlen := congrArg List.length hcons
  have hpos := h.position
  simp only [List.length_append, List.length_cons] at hlen ⊢
  omega

/-- A packet that comes behind the last slot is appended, with placeholders for
those missing in between. -/
theorem insertPacket_beyond (h : Layout payload cap lsn r L F pre mid post)
    (hbeyond : L + 1 + post.length ≤ n) (hn : n < F + 32768) (header : List UInt8) :
    ∃ w₁ post', r.window.insertPacket (UInt16.ofNat n) (header ++ payload n) header.length =
        some (some w₁) ∧ Stored payload r.accepted r.window w₁ L F n pre mid post post' := by
  set post' := post ++ (gap (L + 1 + post.length) (n - (L + 1 + post.length)) ++
    [arrived payload n header]) with hpost'
  have hk : L + 1 + post.length + (n - (L + 1 + post.length)) = n := by omega
  have hpos := h.position
  have hstored : Stored payload r.accepted r.window
      { r.window with
        incomingPackets := pre ++ (mid ++ post'), firstSeqNr := UInt16.ofNat (F + pre.length) }
      L F n pre mid post post' := by
    refine ⟨rfl, ?_, ?_, ?_, ?_⟩
    · have hnum := h.numbered
      rw [numbered_append, numbered_append] at hnum
      rw [hpost', numbered_append, numbered_append, numbered_append, numbered_append]
      refine ⟨hnum.1, hnum.2.1, hnum.2.2, ?_, ?_, trivial⟩
      · rw [hpos]
        exact numbered_gap _ _
      · rw [hpos, gap_length, hk]
        rfl
    · have := h.waiting.append (k := n - (L + 1 + post.length)) (arrived_filled n header)
        (by rw [hk, arrived_unread])
      rwa [hk] at this
    · rw [hpost', List.length_append, List.length_append, gap_length, List.length_singleton,
        max_eq_right (by omega)]
      omega
    · rw [hpost', unreadAll_append, unreadAll_append, unreadAll_gap, List.length_append,
        List.nil_append, unreadAll_cons, arrived_unread]
      simp
  refine ⟨_, post', ?_, hstored⟩
  cases hpk : r.window.incomingPackets with
  | nil =>
    have hempty : pre ++ (mid ++ post) = [] := by rw [← h.packets, hpk]
    obtain ⟨rfl, hmp⟩ := List.append_eq_nil_iff.1 hempty
    obtain ⟨rfl, rfl⟩ := List.append_eq_nil_iff.1 hmp
    simp only [List.length_nil, Nat.add_zero] at hpos hbeyond
    rw [LocalWindow.insertPacket, hpk]
    simp only [hpost', h.last, ofNat_succ, fillGap_eq hbeyond (by omega), List.length_nil,
      Nat.add_zero, List.nil_append, hpos]
    rfl
  | cons front rest =>
    have hcons : front :: rest = pre ++ (mid ++ post) := by rw [← h.packets, hpk]
    have hlen := congrArg List.length hcons
    simp only [List.length_append, List.length_cons] at hlen
    have hlt : seqNrCmpS (UInt16.ofNat (L + post.length)) (UInt16.ofNat n) = true := by
      rw [seqNrCmpS_ofNat (by omega) (by omega)]
      simpa using (by omega : L + post.length < n)
    have hfirst : r.window.firstSeqNr = UInt16.ofNat (F + pre.length) :=
      h.first (by rw [hpk]; simp)
    rw [LocalWindow.insertPacket, hpk]
    simp only [h.back_seqNr hcons, hlt, if_true, ofNat_succ]
    rw [show L + post.length + 1 = L + 1 + post.length by omega,
      fillGap_eq hbeyond (by omega), hcons, ← hfirst, hpost']
    simp [arrived]

/-- The slot of a packet inside the vector, as `packetReceived` finds it. -/
theorem slot_inside (h : Layout payload cap lsn r L F pre mid post) (hn : L < n)
    (hinside : n < L + 1 + post.length) :
    ∃ front rest old, r.window.incomingPackets = front :: rest ∧
      seqNrCmpS ((front :: rest).getLast (List.cons_ne_nil front rest)).seqNr (UInt16.ofNat n) =
        false ∧
      (seqNrDiff front.seqNr (UInt16.ofNat n)).toNat = n - F ∧
      (front :: rest)[n - F]? = some old ∧ old.seqNr = UInt16.ofNat n ∧
      post[n - (L + 1)]? = some old := by
  have hpos := h.position
  have hspan := h.span
  obtain ⟨j, rfl⟩ : ∃ j, n = L + 1 + j := ⟨n - (L + 1), by omega⟩
  obtain ⟨old, hold⟩ : ∃ old, post[j]? = some old :=
    ⟨post[j], List.getElem?_eq_getElem (by omega)⟩
  have hidx : (pre ++ (mid ++ post))[L + 1 + j - F]? = some old := by
    rw [show L + 1 + j - F = pre.length + (mid.length + j) by omega,
      List.getElem?_append_right (by omega), Nat.add_sub_cancel_left,
      List.getElem?_append_right (by omega), Nat.add_sub_cancel_left, hold]
  cases hpk : r.window.incomingPackets with
  | nil =>
    rw [← h.packets, hpk] at hidx
    simp at hidx
  | cons front rest =>
    have hcons : front :: rest = pre ++ (mid ++ post) := by rw [← h.packets, hpk]
    refine ⟨front, rest, old, rfl, ?_, ?_, ?_, ?_, ?_⟩
    · rw [h.back_seqNr hcons, seqNrCmpS_ofNat (by omega) (by omega)]
      simpa using (by omega : L + 1 + j ≤ L + post.length)
    · rw [h.front_seqNr hpk, seqNrDiff_ofNat (by omega) (by omega)]
    · rw [hcons]
      exact hidx
    · rw [h.numbered.getElem? hidx]
      congr 1
      omega
    · rw [Nat.add_sub_cancel_left, hold]

/-- A packet that is there already is left alone, whatever it holds now. -/
theorem insertPacket_again (h : Layout payload cap lsn r L F pre mid post) (hn : L < n)
    (hmem : n ∈ r.accepted) (packet : List UInt8) (dataOff : ℕ) :
    r.window.insertPacket (UInt16.ofNat n) packet dataOff = some none := by
  have hinside : n < L + 1 + post.length := by
    by_contra hge
    exact h.waiting.not_mem (not_lt.mp hge) hmem
  obtain ⟨front, rest, old, hpk, hback, hoff, hget, -, hold⟩ := slot_inside h hn hinside
  have hsome : old.packet.isSome = true := by
    rcases h.waiting.getElem? hold with ⟨-, hno⟩ | ⟨hsome, -⟩
    · rw [show L + 1 + (n - (L + 1)) = n by omega] at hno
      exact absurd hmem hno
    · exact hsome
  rw [LocalWindow.insertPacket, hpk]
  simp only [hback, hoff, Bool.false_eq_true, if_false, hget]
  simp [hsome]

/-- A packet inside the vector is stored in its slot. -/
theorem insertPacket_inside (h : Layout payload cap lsn r L F pre mid post) (hn : L < n)
    (hinside : n < L + 1 + post.length) (hno : n ∉ r.accepted) (header : List UInt8) :
    ∃ w₁ post', r.window.insertPacket (UInt16.ofNat n) (header ++ payload n) header.length =
        some (some w₁) ∧
      Stored payload r.accepted r.window w₁ L F n pre mid post post' := by
  have hpos := h.position
  obtain ⟨front, rest, old, hpk, hback, hoff, hget, hseq, hold⟩ := slot_inside h hn hinside
  have hne : r.window.incomingPackets ≠ [] := by
    rw [hpk]
    exact List.cons_ne_nil _ _
  have hnone : old.packet = none := by
    rcases h.waiting.getElem? hold with ⟨hnone, -⟩ | ⟨-, hmem⟩
    · exact hnone
    · rw [show L + 1 + (n - (L + 1)) = n by omega] at hmem
      exact absurd hmem hno
  have hslot : ({ old with packet := some (header ++ payload n), bytesRead := header.length }
      : WindowPacket) = arrived payload n header := by
    rw [arrived, hseq]
  have hset : (front :: rest).set (n - F) (arrived payload n header) =
      pre ++ (mid ++ post.set (n - (L + 1)) (arrived payload n header)) := by
    rw [← hpk, h.packets, show n - F = pre.length + (mid.length + (n - (L + 1))) by omega,
      List.set_append_right _ _ (by omega), Nat.add_sub_cancel_left,
      List.set_append_right _ _ (by omega), Nat.add_sub_cancel_left]
  have hidx : L + 1 + (n - (L + 1)) = n := by omega
  refine ⟨{ r.window with
      incomingPackets := pre ++ (mid ++ post.set (n - (L + 1)) (arrived payload n header)) },
    post.set (n - (L + 1)) (arrived payload n header), ?_, ?_⟩
  · rw [LocalWindow.insertPacket, hpk]
    simp only [hback, hoff, Bool.false_eq_true, if_false, hget]
    simp only [hnone, Option.isSome_none, Bool.false_eq_true, if_false, hslot, hset]
  · refine ⟨by rw [← h.first hne], ?_, ?_, ?_, ?_⟩
    · have hnum := h.numbered
      rw [numbered_append, numbered_append] at hnum ⊢
      refine ⟨hnum.1, hnum.2.1, hnum.2.2.set hold ?_⟩
      rw [hseq, arrived]
    · have hset := h.waiting.set hold (arrived_filled n header)
        (by rw [hidx]; exact arrived_unread n header)
      rwa [hidx] at hset
    · rw [List.length_set, max_eq_left (by omega)]
    · rw [unreadAll_set_length hold hnone, arrived_unread]

/-- A packet ahead of the in-order ones that is not there yet is stored. -/
theorem insertPacket_stored (h : Layout payload cap lsn r L F pre mid post) (hn : L < n)
    (hnear : n < F + 32768) (hno : n ∉ r.accepted) (header : List UInt8) :
    ∃ w₁ post', r.window.insertPacket (UInt16.ofNat n) (header ++ payload n) header.length =
        some (some w₁) ∧
      Stored payload r.accepted r.window w₁ L F n pre mid post post' := by
  by_cases hbeyond : L + 1 + post.length ≤ n
  · exact insertPacket_beyond h hbeyond hnear header
  · exact insertPacket_inside h hn (by omega) hno header

/-- A stored packet that is not the next one leaves the in-order part alone. -/
theorem layout_outOfOrder (h : Layout payload cap lsn r L F pre mid post)
    {w₁ : LocalWindow} {post' : List WindowPacket} (hn : L + 1 < n) (hnear : n < F + 32768)
    (hno : n ∉ r.accepted) (hroom : (payload n).length ≤ r.window.windowSpace)
    (hst : Stored payload r.accepted r.window w₁ L F n pre mid post post') :
    w₁.acknowledge (UInt16.ofNat n) (payload n).length = some w₁ ∧
      Layout payload cap lsn
        { r with
          window := { w₁ with windowSpace := w₁.windowSpace - (payload n).length }
          accepted := insert n r.accepted } L F pre mid post' := by
  have hw₁ := hst.window
  have hpos := h.position
  constructor
  · have hne : UInt16.ofNat n ≠ w₁.lastSeqNr + 1 := by
      rw [hw₁]
      show UInt16.ofNat n ≠ r.window.lastSeqNr + 1
      rw [h.last, ofNat_succ]
      intro hc
      have := ofNat_inj_of_near (by omega) (by omega) hc
      omega
    rw [LocalWindow.acknowledge, if_neg hne]
  · have hlast := h.last_inOrder
    have hspace := h.space
    have hun := hst.unread
    rw [hw₁]
    exact {
      last_inOrder := by
        refine ⟨hlast.le, fun m h₁ h₂ => Finset.mem_insert_of_mem (hlast.mem m h₁ h₂), ?_⟩
        rw [Finset.mem_insert]
        rintro (hc | hc)
        · omega
        · exact hlast.next hc
      packets := rfl
      numbered := hst.numbered
      pre_read := h.pre_read
      pre_length := h.pre_length
      mid_filled := h.mid_filled
      position := h.position
      waiting := hst.waiting
      span := by
        have hspan := h.span
        have hlen := hst.post_length
        omega
      last := h.last
      first := fun _ => rfl
      bytes := h.bytes
      available := h.available
      space := by
        show r.window.windowSpace - (payload n).length + _ + _ = cap
        omega
      total := by
        rw [Finset.sum_insert hno, h.total, hun]
        omega }

/-- The next packet and the run of filled slots behind it are acknowledged. -/
theorem acknowledge_next (h : Layout payload cap lsn r L F pre mid post) {w₁ : LocalWindow}
    {slot : WindowPacket} {run rest : List WindowPacket} (hnear : L + 1 < F + 32768)
    (hst : Stored payload r.accepted r.window w₁ L F (L + 1) pre mid post (slot :: run ++ rest))
    (hstop : StopsAt rest) (hrun : ∀ p ∈ run, Filled p) (hun : slot.unread = payload (L + 1)) :
    w₁.acknowledge (UInt16.ofNat (L + 1)) (payload (L + 1)).length = some { w₁ with
      bytesAvailable := w₁.bytesAvailable + (unreadAll (slot :: run)).length
      lastSeqNr := UInt16.ofNat (L + (slot :: run).length) } := by
  have hw₁ := hst.window
  have hpos := h.position
  have hspan := h.span
  have hlenpost := hst.post_length
  simp only [List.length_cons, List.length_append] at hlenpost
  have hadv := advance_spec hstop run (w₁.incomingPackets.length + 1)
    { w₁ with
      bytesAvailable := w₁.bytesAvailable + (payload (L + 1)).length
      lastSeqNr := UInt16.ofNat (L + 1) }
    (seqNrDiff (UInt16.ofNat F) (UInt16.ofNat (L + 1 + 1))) (L + 1) (pre ++ (mid ++ [slot]))
    (by rw [hw₁]; simp)
    (by
      rw [seqNrDiff_ofNat (by omega) (by omega)]
      simp only [List.length_append, List.length_singleton]
      omega)
    (by simp only [List.length_append, List.length_singleton]; omega) rfl hrun
    (by rw [hw₁]; simp only [List.length_append, List.length_cons]; omega)
  have heq : UInt16.ofNat (L + 1) = w₁.lastSeqNr + 1 := by
    rw [hw₁]
    show _ = r.window.lastSeqNr + 1
    rw [h.last, ofNat_succ]
  rw [LocalWindow.acknowledge, if_pos heq]
  cases hpk : w₁.incomingPackets with
  | nil =>
    rw [hw₁] at hpk
    simp at hpk
  | cons front fs =>
    have hfront : front.seqNr = UInt16.ofNat F := by
      have hnum := hst.numbered
      have hcons : pre ++ (mid ++ (slot :: run ++ rest)) = front :: fs := by
        rw [← hpk, hw₁]
      rw [hcons] at hnum
      exact hnum.1
    simp only [hfront, ofNat_succ]
    rw [← hpk, hadv, unreadAll_cons, hun, List.length_append, List.length_cons, ← Nat.add_assoc,
      Nat.add_right_comm L, ← Nat.add_assoc w₁.bytesAvailable]

/-- The slots of the run become in-order. -/
theorem layout_run (h : Layout payload cap lsn r L F pre mid post) {w₁ : LocalWindow}
    {run rest : List WindowPacket} (hnear : L + 1 < F + 32768) (hno : L + 1 ∉ r.accepted)
    (hroom : (payload (L + 1)).length ≤ r.window.windowSpace)
    (hst : Stored payload r.accepted r.window w₁ L F (L + 1) pre mid post (run ++ rest))
    (hrun : ∀ p ∈ run, Filled p)
    (hrest : Waiting payload (insert (L + 1) r.accepted) (L + run.length + 1) rest)
    (hnext : L + run.length + 1 ∉ insert (L + 1) r.accepted)
    (hmem : ∀ m, L < m → m ≤ L + run.length → m ∈ insert (L + 1) r.accepted)
    (hbytes : unreadAll run = stream payload L (L + run.length)) :
    Layout payload cap lsn
      { r with
        window := { w₁ with
          bytesAvailable := w₁.bytesAvailable + (unreadAll run).length
          lastSeqNr := UInt16.ofNat (L + run.length)
          windowSpace := w₁.windowSpace - (payload (L + 1)).length }
        accepted := insert (L + 1) r.accepted } (L + run.length) F pre (mid ++ run) rest := by
  have hlast := h.last_inOrder
  have hpos := h.position
  have hspan := h.span
  have hspace := h.space
  have hlenpost := hst.post_length
  have hunread := hst.unread
  rw [unreadAll_append, List.length_append] at hunread
  rw [List.length_append] at hlenpost
  have hstream : stream payload lsn (L + run.length) = stream payload lsn L ++ unreadAll run := by
    rw [hbytes, stream_append payload hlast.le]
  rw [hst.window]
  exact {
    last_inOrder := by
      refine ⟨hlast.le.trans (Nat.le_add_right _ _), fun m h₁ h₂ => ?_, hnext⟩
      rcases Nat.lt_or_ge L m with hm | hm
      · exact hmem m hm h₂
      · exact Finset.mem_insert_of_mem (hlast.mem m h₁ hm)
    packets := by simp
    numbered := by simpa using hst.numbered
    pre_read := h.pre_read
    pre_length := h.pre_length
    mid_filled := fun p hp => (List.mem_append.1 hp).elim (h.mid_filled p) (hrun p)
    position := by
      rw [List.length_append]
      omega
    waiting := hrest
    span := by
      rw [List.length_append]
      omega
    last := rfl
    first := fun _ => rfl
    bytes := by rw [hstream, unreadAll_append, ← h.bytes, List.append_assoc]
    available := by
      show r.window.bytesAvailable + (unreadAll run).length = _
      rw [h.available, unreadAll_append, List.length_append]
    space := by
      show r.window.windowSpace - (payload (L + 1)).length + _ + _ = cap
      rw [unreadAll_append, List.length_append]
      omega
    total := by
      rw [Finset.sum_insert hno, h.total, hstream, List.length_append]
      omega }

/-- The next packet: it and the packets waiting behind it become in-order. -/
theorem layout_nextInOrder (h : Layout payload cap lsn r L F pre mid post)
    {w₁ : LocalWindow} {post' : List WindowPacket} (hnear : L + 1 < F + 32768)
    (hno : L + 1 ∉ r.accepted) (hroom : (payload (L + 1)).length ≤ r.window.windowSpace)
    (hst : Stored payload r.accepted r.window w₁ L F (L + 1) pre mid post post') :
    ∃ w₂ L' mid' post'', w₁.acknowledge (UInt16.ofNat (L + 1)) (payload (L + 1)).length = some w₂ ∧
      Layout payload cap lsn
        { r with
          window := { w₂ with windowSpace := w₂.windowSpace - (payload (L + 1)).length }
          accepted := insert (L + 1) r.accepted } L' F pre mid' post'' ∧
      L' + post''.length = L + post'.length := by
  have hwaiting := hst.waiting
  obtain ⟨run, rest, rfl, hrun, hrest, hnext, hmem, hbytes⟩ := hwaiting.run
  -- the run is not empty: the new packet stands at its head
  obtain ⟨slot, run, rfl⟩ : ∃ slot ps, run = slot :: ps := by
    cases run with
    | nil => exact absurd (Finset.mem_insert_self _ _) hnext
    | cons slot ps => exact ⟨slot, ps, rfl⟩
  have hun : slot.unread = payload (L + 1) := by
    rcases hwaiting.1 with ⟨-, hc⟩ | ⟨-, -, hun⟩
    · exact absurd (Finset.mem_insert_self _ _) hc
    · exact hun
  have hack := acknowledge_next h hnear hst (hrest.stopsAt hnext)
    (fun p hp => hrun p (List.mem_cons_of_mem _ hp)) hun
  refine ⟨_, L + (slot :: run).length, mid ++ (slot :: run), rest, hack, ?_, ?_⟩
  · exact layout_run h hnear hno hroom hst hrun hrest hnext hmem hbytes
  · rw [List.length_append, Nat.add_assoc]

/-- **A packet ahead of the in-order ones**, less than `2 ^ 15` numbers behind the
first slot: it is refused for its size, it is there already, or it is stored. -/
theorem Layout.packetReceived (h : Layout payload cap lsn r L F pre mid post)
    (hn : L < n) (hnear : n < F + 32768)
    (hcmp : seqNrCmpSE (UInt16.ofNat n) r.window.lastSeqNr = false) (header : List UInt8)
    {data : List UInt8} (hdata : n ∉ r.accepted → payload n = data) :
    (r.window.windowSpace < data.length ∧
      r.window.packetReceived (UInt16.ofNat n) (header ++ data) header.length =
        some (false, r.window)) ∨
    (data.length ≤ r.window.windowSpace ∧ n ∈ r.accepted ∧
      r.window.packetReceived (UInt16.ofNat n) (header ++ data) header.length =
        some (true, r.window)) ∨
    (data.length ≤ r.window.windowSpace ∧ n ∉ r.accepted ∧ ∃ w' L' mid' post',
      r.window.packetReceived (UInt16.ofNat n) (header ++ data) header.length =
        some (true, w') ∧
      Layout payload cap lsn { r with window := w', accepted := insert n r.accepted } L' F pre
        mid' post' ∧
      L' + post'.length = max (L + post.length) n) := by
  have hsize : (header ++ data).length - header.length = data.length := by simp
  rw [LocalWindow.packetReceived, hcmp]
  simp only [Bool.false_eq_true, if_false, hsize, LocalWindow.availableSpace]
  by_cases hroom : r.window.windowSpace < data.length
  · exact .inl ⟨hroom, if_pos hroom⟩
  · have hroom' : data.length ≤ r.window.windowSpace := not_lt.1 hroom
    simp only [if_neg hroom]
    by_cases hmem : n ∈ r.accepted
    · refine .inr (.inl ⟨hroom', hmem, ?_⟩)
      simp only [insertPacket_again h hn hmem]
    · obtain rfl := hdata hmem
      obtain ⟨w₁, post', hins, hst⟩ := insertPacket_stored h hn hnear hmem header
      refine .inr (.inr ⟨hroom', hmem, ?_⟩)
      simp only [hins]
      rcases Nat.lt_or_ge (L + 1) n with hgap | hgap
      · obtain ⟨hack, hlay⟩ := layout_outOfOrder h hgap hnear hmem hroom' hst
        refine ⟨_, L, mid, post', ?_, hlay, hst.post_length⟩
        rw [hack, Option.map_some]
      · obtain rfl : n = L + 1 := by omega
        obtain ⟨w₂, L', mid', post'', hack, hlay, hlen⟩ :=
          layout_nextInOrder h hnear hmem hroom' hst
        refine ⟨_, L', mid', post'', ?_, hlay, ?_⟩
        · rw [hack, Option.map_some]
        · rw [hlen, hst.post_length]

/-! ## Reading -/

/-- The vector between the loop of `read` and the removal of slots. -/
theorem Layout.readLoop (h : Layout payload cap lsn r L F pre mid post) (maxLen : ℕ)
    {front : WindowPacket} {fs : List WindowPacket}
    (hpk : r.window.incomingPackets = front :: fs) :
    ∃ w' d done rest, LocalWindow.readLoop maxLen r.window.incomingPackets.length r.window
        (seqNrDiff front.seqNr r.window.firstSeqNr) [] = (w', d) ∧
      ReadResult maxLen r.window pre mid post [] (w', d) done rest d ∧
      Numbered F w'.incomingPackets ∧
      w'.firstSeqNr = UInt16.ofNat (F + (pre ++ done).length) := by
  have hspan := h.span
  have hne : r.window.incomingPackets ≠ [] := by
    rw [hpk]
    exact List.cons_ne_nil _ _
  have hoff : (seqNrDiff front.seqNr r.window.firstSeqNr).toNat = pre.length := by
    rw [h.front_seqNr hpk, h.first hne, seqNrDiff_ofNat (by omega) (by omega), Nat.add_sub_cancel_left]
  have hlen := congrArg List.length h.packets
  simp only [List.length_append] at hlen
  obtain ⟨done, rest, d, hres, hnum⟩ := readLoop_spec maxLen
    (h.waiting.stopsAt h.last_inOrder.next) mid r.window.incomingPackets.length r.window _ []
    pre h.packets hoff (by omega) (h.packets ▸ h.numbered) h.last h.position h.mid_filled (by omega)
  have hout := hres.out
  rw [List.nil_append] at hout
  rw [← Prod.mk.eta (p := LocalWindow.readLoop _ _ _ _ _), hout] at hres
  refine ⟨_, d, done, rest, Prod.ext rfl hout, hres, hnum, ?_⟩
  rw [hres.first, h.first hne, ← UInt16.ofNat_add, List.length_append, Nat.add_assoc]

/-- **A read keeps the layout.**  It hands over the next in-order bytes, all of them or as
many as the caller has room for. -/
theorem Layout.read (h : Layout payload cap lsn r L F pre mid post) (maxLen : ℕ)
    (hne : r.window.incomingPackets ≠ []) :
    ∃ d w' F' pre' mid', r.window.read maxLen = some (d, w') ∧
      Layout payload cap lsn { r with window := w', output := r.output ++ d } L F' pre' mid' post ∧
      mid'.length ≤ mid.length ∧ (mid' = [] ∨ maxLen ≤ d.length) ∧
      (20 < r.window.incomingPackets.length ∨
        w'.incomingPackets.length = r.window.incomingPackets.length) := by
  cases hpk : r.window.incomingPackets with
  | nil => exact absurd hpk hne
  | cons front fs =>
    obtain ⟨w', d, done, rest, hloop, hres, hnum, hfirst⟩ := h.readLoop maxLen hpk
    have hspan := h.span
    have hpos := h.position
    have hspace := h.space
    have hpk' : w'.incomingPackets = (pre ++ done) ++ (rest ++ post) := by
      rw [hres.packets, List.append_assoc]
    have hreslen := hres.length
    have hgone : (pre ++ done).length ≤ 32768 := by
      rw [List.length_append]
      omega
    have hread : r.window.read maxLen = some (d, w'.eraseRead (UInt16.ofNat F)) := by
      unfold LocalWindow.read
      split
      · rename_i hnil
        exact absurd hnil hne
      · rename_i front' fs' hcons
        obtain ⟨rfl, rfl⟩ : front' = front ∧ fs' = fs := by
          rw [hpk] at hcons
          simpa using hcons.symm
        rw [hloop, h.front_seqNr hpk]
    have hbytes : r.output ++ d ++ unreadAll rest = stream payload lsn L := by
      rw [List.append_assoc, hres.bytes, h.bytes]
    have hmidlen : d.length + (unreadAll rest).length = (unreadAll mid).length := by
      rw [← List.length_append, hres.bytes]
    -- the split of the vector when no slot is dropped; only the slots differ otherwise
    have hkeep : ∀ (F' : ℕ) (pre' : List WindowPacket) (w'' : LocalWindow),
        w''.incomingPackets = pre' ++ (rest ++ post) → Numbered F' (pre' ++ (rest ++ post)) →
        (∀ p ∈ pre', p.packet = none) → pre'.length ≤ 20 → F' + pre'.length = F + (pre ++ done).length →
        pre'.length ≤ (pre ++ done).length →
        w''.lastSeqNr = w'.lastSeqNr → w''.firstSeqNr = w'.firstSeqNr →
        w''.bytesAvailable = w'.bytesAvailable → w''.windowSpace = w'.windowSpace →
        Layout payload cap lsn { r with window := w'', output := r.output ++ d } L F' pre' rest
          post := by
      intro F' pre' w'' hw hnum' hnone hle hF hshort hlast hfst hav hsp
      exact {
        last_inOrder := h.last_inOrder
        packets := hw
        numbered := hnum'
        pre_read := hnone
        pre_length := hle
        mid_filled := hres.rest_filled
        position := by rw [hF, List.length_append]; omega
        waiting := h.waiting
        span := by rw [List.length_append] at hshort; omega
        last := by rw [hlast, hres.last, h.last]
        first := fun _ => by rw [hfst, hfirst, hF]
        bytes := hbytes
        available := by rw [hav, hres.available, h.available]; omega
        space := by rw [hsp, hres.space]; omega
        total := h.total }
    rw [hread, eraseRead_packets hpk' hgone hfirst]
    rw [hpk'] at hnum
    have hlenall : r.window.incomingPackets.length = (pre ++ done).length + rest.length + post.length := by
      have hpre := congrArg List.length h.packets
      simp only [List.length_append] at hpre ⊢
      omega
    split
    · rename_i hmany
      have hlarge : 20 < (front :: fs).length := by
        rw [← hpk, hlenall]
        omega
      refine ⟨d, _, F + (pre ++ done).length, [], rest, rfl, ?_, by omega, hres.stops, .inl hlarge⟩
      exact hkeep _ [] _ rfl (numbered_append.1 hnum).2 (by simp) (by simp) rfl (Nat.zero_le _)
        rfl rfl rfl rfl
    · rename_i hfew
      have hsame : w'.incomingPackets.length = (front :: fs).length := by
        rw [← hpk, hlenall, hpk', List.length_append, @List.length_append _ rest, Nat.add_assoc]
      refine ⟨d, _, F, pre ++ done, rest, rfl, ?_, by omega, hres.stops, .inr hsame⟩
      refine hkeep F (pre ++ done) _ hpk' hnum ?_ (by omega) rfl le_rfl rfl rfl rfl rfl
      intro p hp
      rcases List.mem_append.1 hp with hp | hp
      · exact h.pre_read p hp
      · exact hres.done_empty p hp

end Arrival

end Utp
end KTorrent
