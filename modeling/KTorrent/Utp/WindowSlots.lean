import KTorrent.Utp.LocalWindow

/-!
# The slots of a receive window

Between two calls the vector of a receive window falls into three parts: slots
that have been read, slots with the packets received in order, and the slots
behind the first missing packet.  This file says what the loops of
`localwindow.cpp` do to such a vector.

* `Numbered n ps` — the slots carry the numbers `n, n + 1, …`.
* `fillGap_eq` — the placeholder loops append exactly the missing numbers.
* `readLoop_spec` — `read` empties a prefix of the in-order slots and hands over
  their bytes in order.
* `advance_spec` — `packetReceived` moves `last_seq_nr` over the packets that
  wait behind the one it has just stored.
-/

namespace KTorrent
namespace Utp

/-- The slots carry consecutive numbers, starting with `n`. -/
def Numbered : ℕ → List WindowPacket → Prop
  | _, [] => True
  | n, p :: ps => p.seqNr = UInt16.ofNat n ∧ Numbered (n + 1) ps

/-- The slot holds a packet and its read position is inside it. -/
def Filled (p : WindowPacket) : Prop := ∃ buf, p.packet = some buf ∧ p.bytesRead ≤ buf.length

/-- The unread bytes of a list of slots, in order. -/
def unreadAll (ps : List WindowPacket) : List UInt8 := (ps.map WindowPacket.unread).flatten

@[simp] theorem unreadAll_nil : unreadAll [] = [] := rfl

@[simp] theorem unreadAll_cons (p : WindowPacket) (ps : List WindowPacket) :
    unreadAll (p :: ps) = p.unread ++ unreadAll ps := rfl

@[simp] theorem unreadAll_append (ps qs : List WindowPacket) :
    unreadAll (ps ++ qs) = unreadAll ps ++ unreadAll qs := by
  simp [unreadAll]

theorem unread_of_none {p : WindowPacket} (h : p.packet = none) : p.unread = [] := by
  simp [WindowPacket.unread, h]

theorem unread_of_some {p : WindowPacket} {buf : List UInt8} (h : p.packet = some buf) :
    p.unread = buf.drop p.bytesRead := by
  simp [WindowPacket.unread, h]

/-! ## Numbering -/

theorem numbered_append {n : ℕ} {ps qs : List WindowPacket} :
    Numbered n (ps ++ qs) ↔ Numbered n ps ∧ Numbered (n + ps.length) qs := by
  induction ps generalizing n with
  | nil => simp [Numbered]
  | cons p ps ih =>
    simp only [List.cons_append, Numbered, ih, List.length_cons, and_assoc]
    rw [show n + 1 + ps.length = n + (ps.length + 1) by omega]

theorem Numbered.getElem? {n i : ℕ} {ps : List WindowPacket} {p : WindowPacket}
    (h : Numbered n ps) (hi : ps[i]? = some p) : p.seqNr = UInt16.ofNat (n + i) := by
  induction ps generalizing n i with
  | nil => simp at hi
  | cons q qs ih =>
    cases i with
    | zero =>
      simp only [List.getElem?_cons_zero, Option.some.injEq] at hi
      rw [← hi, h.1, Nat.add_zero]
    | succ i =>
      rw [ih h.2 (by simpa using hi)]
      congr 1
      omega

theorem Numbered.set {n i : ℕ} {ps : List WindowPacket} {p q : WindowPacket}
    (h : Numbered n ps) (hi : ps[i]? = some p) (hq : q.seqNr = p.seqNr) :
    Numbered n (ps.set i q) := by
  induction ps generalizing n i with
  | nil => simp at hi
  | cons r rs ih =>
    cases i with
    | zero =>
      simp only [List.getElem?_cons_zero, Option.some.injEq] at hi
      exact ⟨by rw [hq, ← hi, h.1], h.2⟩
    | succ i => exact ⟨h.1, ih h.2 (by simpa using hi)⟩

/-! ## The placeholder loops -/

/-- The placeholders for `k` missing packets, the first with number `n`. -/
def gap (n k : ℕ) : List WindowPacket :=
  (List.range' n k).map fun i => WindowPacket.placeholder (UInt16.ofNat i)

@[simp] theorem gap_length (n k : ℕ) : (gap n k).length = k := by simp [gap]

theorem gap_packet {n k : ℕ} {p : WindowPacket} (h : p ∈ gap n k) : p.packet = none := by
  obtain ⟨i, -, rfl⟩ := List.mem_map.1 h
  rfl

theorem unreadAll_of_none {ps : List WindowPacket} (h : ∀ p ∈ ps, p.packet = none) :
    unreadAll ps = [] := by
  induction ps with
  | nil => rfl
  | cons p ps ih =>
    rw [unreadAll_cons, unread_of_none (h p (by simp)), ih (fun q hq => h q (by simp [hq]))]
    rfl

theorem numbered_gap (n k : ℕ) : Numbered n (gap n k) := by
  induction k generalizing n with
  | zero => trivial
  | succ k ih => exact ⟨rfl, ih (n + 1)⟩

theorem placeholders_eq (n k : ℕ) (hk : k < 32768) :
    LocalWindow.placeholders k (UInt16.ofNat n) (UInt16.ofNat (n + k)) = gap n k := by
  induction k generalizing n with
  | zero => rfl
  | succ k ih =>
    have hlt : seqNrCmpS (UInt16.ofNat n) (UInt16.ofNat (n + (k + 1))) = true := by
      rw [seqNrCmpS_ofNat (by omega) (by omega)]
      simp
    rw [LocalWindow.placeholders, if_pos hlt, ofNat_succ,
      show n + (k + 1) = n + 1 + k by omega, ih (n + 1) (by omega)]
    rfl

/-- The placeholder loop fills the gap below packet `m`. -/
theorem fillGap_eq {n m : ℕ} (h₁ : n ≤ m) (h₂ : m < n + 32768) :
    LocalWindow.fillGap (UInt16.ofNat n) (UInt16.ofNat m) = gap n (m - n) := by
  have hfuel : (UInt16.ofNat m - UInt16.ofNat n).toNat = m - n := by
    rw [UInt16.toNat_sub, UInt16.toNat_ofNat', UInt16.toNat_ofNat']
    omega
  have hm : UInt16.ofNat m = UInt16.ofNat (n + (m - n)) := by
    congr 1
    omega
  rw [LocalWindow.fillGap, hfuel]
  conv_lhs => rw [hm]
  exact placeholders_eq n (m - n) (by omega)

/-! ## Reading a slot -/

/-- What is returned and what stays in the slot make up what was unread. -/
theorem read_append_unread {p : WindowPacket} {buf : List UInt8} (hp : p.packet = some buf)
    (room : ℕ) : (p.read buf room).1 ++ (p.read buf room).2.unread = p.unread := by
  have hunread : (p.read buf room).2.unread = (buf.drop p.bytesRead).drop
      (min (buf.length - p.bytesRead) room) := by
    rw [unread_of_some (p := (p.read buf room).2) hp, List.drop_drop]
    rfl
  rw [hunread, unread_of_some hp]
  exact List.take_append_drop _ _

theorem read_fullyRead {p : WindowPacket} {buf : List UInt8} (hp : p.packet = some buf)
    {room : ℕ} (h : (p.read buf room).2.fullyRead buf = true) :
    (p.read buf room).2.unread = [] := by
  have hlen : (p.read buf room).2.bytesRead = buf.length := by simpa [WindowPacket.fullyRead] using h
  rw [unread_of_some (p := (p.read buf room).2) hp, hlen, List.drop_length]

theorem read_filled {p : WindowPacket} {buf : List UInt8} (hp : p.packet = some buf)
    (hle : p.bytesRead ≤ buf.length) (room : ℕ) : Filled (p.read buf room).2 := by
  refine ⟨buf, hp, ?_⟩
  simp only [WindowPacket.read]
  omega

/-! ## The loop of `read` -/

/-- What the loop of `read` does to a window whose in-order slots are `mid`: it
empties the slots of a prefix, `done` in the new vector, and hands over `d`; it stops
before the end of `mid` only when the caller's buffer is full. -/
structure ReadResult (maxLen : ℕ) (w : LocalWindow) (pre mid post : List WindowPacket) (data : List UInt8)
    (res : LocalWindow × List UInt8) (done rest : List WindowPacket) (d : List UInt8) : Prop where
  out : res.2 = data ++ d
  packets : res.1.incomingPackets = pre ++ (done ++ (rest ++ post))
  length : done.length + rest.length = mid.length
  done_empty : ∀ p ∈ done, p.packet = none
  rest_filled : ∀ p ∈ rest, Filled p
  bytes : d ++ unreadAll rest = unreadAll mid
  first : res.1.firstSeqNr = w.firstSeqNr + UInt16.ofNat done.length
  space : res.1.windowSpace = w.windowSpace + d.length
  available : res.1.bytesAvailable = w.bytesAvailable - d.length
  last : res.1.lastSeqNr = w.lastSeqNr
  capacity : res.1.capacity = w.capacity
  stops : rest = [] ∨ maxLen ≤ res.2.length

/-- The loop that does not run. -/
theorem ReadResult.refl {maxLen : ℕ} {w : LocalWindow} {pre mid post : List WindowPacket}
    {data : List UInt8} (hpk : w.incomingPackets = pre ++ (mid ++ post))
    (hmid : ∀ p ∈ mid, Filled p) (hstop : mid = [] ∨ maxLen ≤ data.length) :
    ReadResult maxLen w pre mid post data (w, data) [] mid [] where
  out := by simp
  packets := by simpa using hpk
  length := by simp
  done_empty := by simp
  rest_filled := hmid
  bytes := by simp
  first := by
    show w.firstSeqNr = w.firstSeqNr + 0
    simp
  space := by simp
  available := by simp
  last := rfl
  capacity := rfl
  stops := hstop

/-- The slot right behind the in-order slots, if there is one, is empty. -/
def StopsAt (post : List WindowPacket) : Prop := ∀ p ∈ post.head?, p.packet = none

theorem getElem?_mid (pre rest : List WindowPacket) (p : WindowPacket) :
    (pre ++ p :: rest)[pre.length]? = some p := by
  simp

theorem set_mid (pre rest : List WindowPacket) (p q : WindowPacket) :
    (pre ++ p :: rest).set pre.length q = pre ++ q :: rest := by
  simp

/-- Behind the in-order slots the loop stops. -/
theorem readLoop_stopped {maxLen : ℕ} {pre post : List WindowPacket} (hpost : StopsAt post)
    (fuel : ℕ) {w : LocalWindow} {off : UInt16} (data : List UInt8)
    (hpk : w.incomingPackets = pre ++ post) (hoff : off.toNat = pre.length) :
    LocalWindow.readLoop maxLen fuel w off data = (w, data) := by
  cases fuel with
  | zero => rfl
  | succ fuel =>
    cases post with
    | nil => simp [LocalWindow.readLoop, hpk, hoff]
    | cons q qs =>
      have hq : q.packet = none := hpost q rfl
      have hget : w.incomingPackets[off.toNat]? = some q := by
        rw [hpk, hoff]
        exact getElem?_mid pre qs q
      simp [LocalWindow.readLoop, hget, hq]

section Slot

variable {maxLen room : ℕ} {w w' : LocalWindow} {pre mid post : List WindowPacket}
  {data buf ret : List UInt8} {p p' : WindowPacket}

/-- A slot is read completely and emptied, and the loop goes on with the next one. -/
theorem ReadResult.cons {res : LocalWindow × List UInt8} {done rest : List WindowPacket}
    {d : List UInt8} (hunread : ret = p.unread) (hempty : p'.packet = none)
    (hw' : w' = { w with
      windowSpace := w.windowSpace + ret.length
      bytesAvailable := w.bytesAvailable - ret.length
      incomingPackets := w'.incomingPackets
      firstSeqNr := w.firstSeqNr + 1 })
    (h : ReadResult maxLen w' (pre ++ [p']) mid post (data ++ ret) res done rest d) :
    ReadResult maxLen w pre (p :: mid) post data res (p' :: done) rest (ret ++ d) where
  out := by rw [h.out, List.append_assoc]
  packets := by
    rw [h.packets]
    simp
  length := by
    have hlength := h.length
    simp only [List.length_cons]
    omega
  done_empty := by
    intro q hq
    rcases List.mem_cons.1 hq with rfl | hq
    · exact hempty
    · exact h.done_empty q hq
  rest_filled := h.rest_filled
  bytes := by rw [unreadAll_cons, ← hunread, List.append_assoc, h.bytes]
  first := by
    have hnext : w'.firstSeqNr = w.firstSeqNr + 1 := congrArg LocalWindow.firstSeqNr hw'
    rw [h.first, hnext, List.length_cons, ← ofNat_succ, UInt16.add_assoc, UInt16.add_comm 1]
  space := by
    have hspace : w'.windowSpace = w.windowSpace + ret.length :=
      congrArg LocalWindow.windowSpace hw'
    rw [h.space, hspace, List.length_append, Nat.add_assoc]
  available := by
    have hleft : w'.bytesAvailable = w.bytesAvailable - ret.length :=
      congrArg LocalWindow.bytesAvailable hw'
    rw [h.available, hleft, List.length_append, Nat.sub_sub]
  last := by rw [h.last, hw']
  capacity := by rw [h.capacity, hw']
  stops := h.stops

/-- The caller's buffer is full before the slot has been read completely. -/
theorem ReadResult.part (hpk : w.incomingPackets = pre ++ (p :: mid ++ post))
    (hsplit : ret ++ p'.unread = p.unread) (hp' : Filled p') (hmid : ∀ q ∈ mid, Filled q)
    (hw' : w' = { w with
      windowSpace := w.windowSpace + ret.length
      bytesAvailable := w.bytesAvailable - ret.length
      incomingPackets := w.incomingPackets.set pre.length p' })
    (hstop : maxLen ≤ (data ++ ret).length) :
    ReadResult maxLen w pre (p :: mid) post data (w', data ++ ret) [] (p' :: mid) ret where
  out := rfl
  packets := by
    rw [hw']
    dsimp only
    rw [hpk, List.cons_append, set_mid]
    simp
  length := by simp
  done_empty := by simp
  rest_filled := by
    intro q hq
    rcases List.mem_cons.1 hq with rfl | hq
    · exact hp'
    · exact hmid q hq
  bytes := by rw [unreadAll_cons, unreadAll_cons, ← List.append_assoc, hsplit]
  first := by
    rw [hw']
    show w.firstSeqNr = w.firstSeqNr + 0
    simp
  space := congrArg LocalWindow.windowSpace hw'
  available := congrArg LocalWindow.bytesAvailable hw'
  last := by rw [hw']
  capacity := by rw [hw']
  stops := .inr hstop

/-- The number of an in-order slot is not behind the last one. -/
theorem inOrder_slot {F L : ℕ} (hnum : Numbered F w.incomingPackets)
    (hget : w.incomingPackets[pre.length]? = some p) (hlast : w.lastSeqNr = UInt16.ofNat L)
    (hle : F + pre.length ≤ L) (hnear : L < F + 32768) :
    seqNrCmpSE p.seqNr w.lastSeqNr = true := by
  rw [hnum.getElem? hget, hlast, seqNrCmpSE_ofNat]
  · simpa using hle
  · omega
  · omega

/-- A slot that was not read completely has filled the caller's buffer. -/
theorem full_of_not_fullyRead (hle : p.bytesRead ≤ buf.length) (hroom : data.length < maxLen)
    (hpart : ¬ (p.read buf (maxLen - data.length)).2.fullyRead buf = true) :
    maxLen ≤ (data ++ (p.read buf (maxLen - data.length)).1).length := by
  have hmore : p.bytesRead + min (buf.length - p.bytesRead) (maxLen - data.length) ≠ buf.length := by
    simpa [WindowPacket.fullyRead, WindowPacket.read] using hpart
  have hret : (p.read buf (maxLen - data.length)).1.length =
      min (buf.length - p.bytesRead) (maxLen - data.length) := by
    simp [WindowPacket.read]
  rw [List.length_append, hret]
  omega

end Slot

/-- **The loop of `read`**, started at the first in-order slot. -/
theorem readLoop_spec (maxLen : ℕ) {L F : ℕ} {post : List WindowPacket} (hpost : StopsAt post) :
    ∀ (mid : List WindowPacket) (fuel : ℕ) (w : LocalWindow) (off : UInt16) (data : List UInt8)
      (pre : List WindowPacket), w.incomingPackets = pre ++ (mid ++ post) →
      off.toNat = pre.length → pre.length + mid.length ≤ 32768 →
      Numbered F w.incomingPackets → w.lastSeqNr = UInt16.ofNat L →
      F + pre.length + mid.length = L + 1 → (∀ p ∈ mid, Filled p) → mid.length ≤ fuel →
      ∃ done rest d,
        ReadResult maxLen w pre mid post data (LocalWindow.readLoop maxLen fuel w off data) done rest d ∧
        Numbered F (LocalWindow.readLoop maxLen fuel w off data).1.incomingPackets := by
  intro mid
  induction mid with
  | nil =>
    intro fuel w off data pre hpk hoff _ hnum _ _ hmid _
    rw [readLoop_stopped hpost fuel data hpk hoff]
    exact ⟨[], [], [], ReadResult.refl hpk hmid (.inl rfl), hnum⟩
  | cons p mid ih =>
    intro fuel w off data pre hpk hoff hlen hnum hlast hL hmid hfuel
    obtain ⟨buf, hbuf, hle⟩ := hmid p (by simp)
    have hmid' : ∀ q ∈ mid, Filled q := fun q hq => hmid q (List.mem_cons_of_mem _ hq)
    rw [List.length_cons] at hlen hL hfuel
    obtain ⟨fuel, rfl⟩ : ∃ n, fuel = n + 1 := ⟨fuel - 1, by omega⟩
    have hget : w.incomingPackets[off.toNat]? = some p := by
      rw [hpk, hoff]
      exact getElem?_mid pre (mid ++ post) p
    have hseq : seqNrCmpSE p.seqNr w.lastSeqNr = true :=
      inOrder_slot hnum (hoff ▸ hget) hlast (by omega) (by omega)
    by_cases hroom : data.length < maxLen
    swap
    · have hloop : LocalWindow.readLoop maxLen (fuel + 1) w off data = (w, data) := by
        simp [LocalWindow.readLoop, hget, hbuf, hroom]
      rw [hloop]
      exact ⟨[], p :: mid, [], ReadResult.refl hpk hmid (.inr (not_lt.mp hroom)), hnum⟩
    set ret := (p.read buf (maxLen - data.length)).1 with hret
    set p' := (p.read buf (maxLen - data.length)).2 with hp'
    have hsplit : ret ++ p'.unread = p.unread := read_append_unread hbuf _
    by_cases hfull : p'.fullyRead buf = true
    · set w' : LocalWindow := { w with
        windowSpace := w.windowSpace + ret.length
        bytesAvailable := w.bytesAvailable - ret.length
        incomingPackets := w.incomingPackets.set off.toNat { p' with packet := none }
        firstSeqNr := w.firstSeqNr + 1 } with hw'
      have hloop : LocalWindow.readLoop maxLen (fuel + 1) w off data =
          LocalWindow.readLoop maxLen fuel w' (off + 1) (data ++ ret) := by
        simp [LocalWindow.readLoop, hget, hbuf, hseq, hroom, ← hret, ← hp', hfull, hw']
      have hpk' : w'.incomingPackets = (pre ++ [{ p' with packet := none }]) ++ (mid ++ post) := by
        show w.incomingPackets.set off.toNat _ = _
        rw [hpk, hoff, List.cons_append, set_mid, List.append_assoc, List.singleton_append]
      have hoff' : (off + 1).toNat = (pre ++ [({ p' with packet := none } : WindowPacket)]).length := by
        rw [UInt16.toNat_add, hoff, List.length_append, List.length_singleton]
        show (pre.length + 1) % 2 ^ 16 = _
        omega
      obtain ⟨done, rest, d, hres, hnum'⟩ := ih fuel w' (off + 1) (data ++ ret) _ hpk' hoff'
        (by rw [List.length_append, List.length_singleton]; omega) (hnum.set hget rfl) hlast
        (by rw [List.length_append, List.length_singleton]; omega) hmid' (by omega)
      have hunread : ret = p.unread := by
        rw [← hsplit, read_fullyRead hbuf hfull, List.append_nil]
      rw [hloop]
      exact ⟨_, rest, ret ++ d, hres.cons hunread rfl rfl, hnum'⟩
    · have hloop : LocalWindow.readLoop maxLen (fuel + 1) w off data =
          ({ w with
            windowSpace := w.windowSpace + ret.length
            bytesAvailable := w.bytesAvailable - ret.length
            incomingPackets := w.incomingPackets.set off.toNat p' }, data ++ ret) := by
        simp [LocalWindow.readLoop, hget, hbuf, hseq, hroom, ← hret, ← hp', hfull]
      have hpart := ReadResult.part hpk hsplit (read_filled hbuf hle _) hmid' rfl
        (full_of_not_fullyRead hle hroom hfull)
      rw [hloop, hoff]
      rw [hoff] at hget
      exact ⟨[], p' :: mid, ret, hpart, hnum.set hget rfl⟩

/-- The loop does not hand over more than the caller has room for. -/
theorem readLoop_length_le (maxLen : ℕ) :
    ∀ (fuel : ℕ) (w : LocalWindow) (off : UInt16) (data : List UInt8), data.length ≤ maxLen →
      (LocalWindow.readLoop maxLen fuel w off data).2.length ≤ maxLen := by
  intro fuel
  induction fuel with
  | zero => exact fun w off data h => h
  | succ fuel ih =>
    intro w off data h
    unfold LocalWindow.readLoop
    split
    · exact h
    · rename_i pkt hpkt
      split
      · exact h
      · rename_i buf hbuf
        have hnext : (data ++ (pkt.read buf (maxLen - data.length)).1).length ≤ maxLen := by
          simp only [WindowPacket.read, List.length_append, List.length_take]
          omega
        split
        · simp only
          split
          · exact ih _ _ _ hnext
          · exact hnext
        · exact h

theorem read_length_le {w w' : LocalWindow} {maxLen : ℕ} {data : List UInt8}
    (h : w.read maxLen = some (data, w')) : data.length ≤ maxLen := by
  unfold LocalWindow.read at h
  split at h
  · cases h
  · obtain ⟨rfl, -⟩ := Prod.mk.inj (Option.some.inj h)
    exact readLoop_length_le maxLen _ _ _ [] (Nat.zero_le _)

/-- The vector after `read`: slots are dropped once more than 20 of them are read. -/
theorem eraseRead_packets {w : LocalWindow} {F : ℕ} {gone rest : List WindowPacket}
    (hpk : w.incomingPackets = gone ++ rest) (hgone : gone.length ≤ 32768)
    (hfirst : w.firstSeqNr = UInt16.ofNat (F + gone.length)) :
    w.eraseRead (UInt16.ofNat F) = (if 20 < gone.length then { w with incomingPackets := rest }
      else w) := by
  have hoff : (seqNrDiff (UInt16.ofNat F) w.firstSeqNr).toNat = gone.length := by
    rw [hfirst, seqNrDiff_ofNat (by omega) (by omega), Nat.add_sub_cancel_left]
  have hcmp : 20 < seqNrDiff (UInt16.ofNat F) w.firstSeqNr ↔ 20 < gone.length := by
    rw [UInt16.lt_iff_toNat_lt, hoff]
    rfl
  simp only [LocalWindow.eraseRead, hcmp, hoff, hpk, List.drop_left]

/-! ## Moving over waiting packets -/

/-- **The loop at the end of `packetReceived`**, started behind the in-order
slots: it takes in the packets of `run` and stops at `post`. -/
theorem advance_spec {post : List WindowPacket} (hpost : StopsAt post) :
    ∀ (run : List WindowPacket) (fuel : ℕ) (w : LocalWindow) (off : UInt16) (L : ℕ)
      (pre : List WindowPacket), w.incomingPackets = pre ++ (run ++ post) →
      off.toNat = pre.length → pre.length + run.length < 65536 → w.lastSeqNr = UInt16.ofNat L →
      (∀ p ∈ run, Filled p) → run.length < fuel →
      LocalWindow.advance fuel w off (UInt16.ofNat (L + 1)) = some { w with
        bytesAvailable := w.bytesAvailable + (unreadAll run).length
        lastSeqNr := UInt16.ofNat (L + run.length) } := by
  intro run
  induction run with
  | nil =>
    intro fuel w off L pre hpk hoff _ hlast _ hfuel
    cases fuel with
    | zero => simp at hfuel
    | succ fuel =>
      have hw : ({ w with
          bytesAvailable := w.bytesAvailable + (unreadAll []).length
          lastSeqNr := UInt16.ofNat (L + ([] : List WindowPacket).length) } : LocalWindow) = w := by
        simp [← hlast]
      rw [hw]
      cases post with
      | nil => simp [LocalWindow.advance, hpk, hoff]
      | cons q qs =>
        have hq : q.packet = none := hpost q rfl
        have hget : w.incomingPackets[off.toNat]? = some q := by
          rw [hpk, hoff]
          exact getElem?_mid pre qs q
        simp [LocalWindow.advance, hget, hq]
  | cons p run ih =>
    intro fuel w off L pre hpk hoff hlen hlast hrun hfuel
    obtain ⟨buf, hbuf, hle⟩ := hrun p (by simp)
    cases fuel with
    | zero => simp at hfuel
    | succ fuel =>
      have hget : w.incomingPackets[off.toNat]? = some p := by
        rw [hpk, hoff]
        exact getElem?_mid pre (run ++ post) p
      simp only [List.length_cons] at hlen hfuel
      have hoff' : (off + 1).toNat = (pre ++ [p]).length := by
        rw [UInt16.toNat_add, hoff, List.length_append]
        simp only [List.length_singleton]
        show (pre.length + 1) % 2 ^ 16 = _
        omega
      have hrec := ih fuel
        { w with
          bytesAvailable := w.bytesAvailable + (buf.length - p.bytesRead)
          lastSeqNr := UInt16.ofNat (L + 1) }
        (off + 1) (L + 1) (pre ++ [p]) (by simpa using hpk) hoff'
        (by simp only [List.length_append, List.length_singleton]; omega) rfl
        (fun q hq => hrun q (by simp [hq])) (by omega)
      have hstep : LocalWindow.advance (fuel + 1) w off (UInt16.ofNat (L + 1)) =
          LocalWindow.advance fuel
            { w with
              bytesAvailable := w.bytesAvailable + (buf.length - p.bytesRead)
              lastSeqNr := UInt16.ofNat (L + 1) }
            (off + 1) (UInt16.ofNat (L + 1 + 1)) := by
        rw [← ofNat_succ (L + 1)]
        simp only [LocalWindow.advance, hget, hbuf]
      rw [hstep, hrec]
      have hunread : (p.unread).length = buf.length - p.bytesRead := by
        rw [unread_of_some hbuf, List.length_drop]
      congr 2
      · congr 1
        simp only [List.length_cons]
        omega
      · show w.bytesAvailable + (buf.length - p.bytesRead) + (unreadAll run).length = _
        rw [unreadAll_cons, List.length_append, hunread]
        omega

end Utp
end KTorrent
