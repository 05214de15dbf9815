import KTorrent.Utp.FlowControl

/-!
# Using the advertised window

How much is in flight when a connection that receives nothing cannot send any more.  Bytes that
are sent count twice against the advertised window: they are in flight, and `addPacket` takes them
off `wnd_size` as well.

* `fill` — the bytes in flight after packets of given sizes, as the window allows them.
* `LastFits` — the packet that would complete the window finds it open.
* `fill_eq_iff` — **the window is used up exactly then**; `space_fill` — sending always stops.
* `Used` — a connection that has sent and not received; `used_bursts` — it follows `fill`.
* `fullyUsed_iff` — the same for every connection, every packet size and all data.
-/

namespace KTorrent.Utp

/-! ## The bytes in flight -/

/-- `availableSpace` with `used` bytes sent since the header: they are in flight, and are not in
the advertised window any more. -/
def space (advertised congestion used : ℕ) : ℕ := min (advertised - used) congestion - used

/-- The bytes in flight after packets of these sizes, each as large as the window allows. -/
def fill (advertised congestion : ℕ) : ℕ → List ℕ → ℕ
  | used, [] => used
  | used, size :: sizes =>
    fill advertised congestion (used + min size (space advertised congestion used)) sizes

/-- The packet that would complete `whole` bytes is sent while as many are left to be advertised. -/
def LastFits (advertised whole : ℕ) : ℕ → List ℕ → Prop
  | _, [] => False
  | used, size :: sizes =>
    if whole ≤ used + size then used + whole ≤ advertised
    else LastFits advertised whole (used + size) sizes

variable {w m used : ℕ} {sizes : List ℕ}

/-- A packet does not leave the window. -/
theorem add_space_le (w m used : ℕ) : used + space w m used ≤ max used (min (w - used) m) := by
  rw [space]
  omega

/-- With no space, nothing is sent. -/
theorem fill_of_space_eq_zero (h : space w m used = 0) : fill w m used sizes = used := by
  induction sizes with
  | nil => rfl
  | cons size sizes ih =>
    rw [fill, h, Nat.min_zero, Nat.add_zero]
    exact ih

/-- Once the rest of the advertised window is smaller than the whole, the whole is out of reach. -/
theorem fill_lt (hused : used < min w m) (hrest : w - used < min w m) :
    fill w m used sizes < min w m := by
  induction sizes generalizing used with
  | nil => exact hused
  | cons size sizes ih =>
    have hle := add_space_le w m used
    have hmin := Nat.min_le_right size (space w m used)
    exact ih (by omega) (by omega)

theorem LastFits.le {whole : ℕ} (h : LastFits w whole used sizes) : used + whole ≤ w := by
  induction sizes generalizing used with
  | nil => exact h.elim
  | cons size sizes ih =>
    rw [LastFits] at h
    split at h
    · exact h
    · have hrest := ih h
      omega

/-- **The window is used up exactly when its last packet finds it open.** -/
theorem fill_eq_iff (hused : used < min w m) (hsum : min w m ≤ used + sizes.sum) :
    fill w m used sizes = min w m ↔ LastFits w (min w m) used sizes := by
  induction sizes generalizing used with
  | nil =>
    rw [List.sum_nil] at hsum
    omega
  | cons size sizes ih =>
    rw [List.sum_cons] at hsum
    rw [fill, LastFits]
    split
    case isTrue hlast =>
      -- the packet would complete the window
      by_cases hfits : used + min w m ≤ w
      · have hsize : used + min size (space w m used) = min w m := by
          rw [space]
          omega
        have hstop : space w m (min w m) = 0 := by
          rw [space]
          omega
        rw [hsize, fill_of_space_eq_zero hstop]
        exact iff_of_true rfl hfits
      · refine iff_of_false (Nat.ne_of_lt (fill_lt ?_ ?_)) hfits
        · rw [space]
          omega
        · rw [space]
          omega
    case isFalse hmore =>
      by_cases hfull : size ≤ space w m used
      · rw [Nat.min_eq_left hfull]
        exact ih (by omega) (by omega)
      · -- the packet is cut, and the rest of the advertised window is too small
        rw [space] at hfull
        rw [Nat.min_eq_right (by rw [space]; omega)]
        refine iff_of_false (Nat.ne_of_lt (fill_lt ?_ ?_)) fun hlast => ?_
        · rw [space]
          omega
        · rw [space]
          omega
        · have hle := hlast.le
          omega

/-- With enough to send, sending stops. -/
theorem space_fill (hsum : min w m ≤ used + sizes.sum) :
    space w m (fill w m used sizes) = 0 := by
  induction sizes generalizing used with
  | nil =>
    rw [List.sum_nil] at hsum
    rw [fill, space]
    omega
  | cons size sizes ih =>
    rw [List.sum_cons] at hsum
    rw [fill]
    by_cases hfull : size ≤ space w m used
    · rw [Nat.min_eq_left hfull]
      exact ih (by omega)
    · have hstop : space w m (used + min size (space w m used)) = 0 := by
        rw [Nat.min_eq_right (by omega)]
        simp only [space]
        omega
      rw [fill_of_space_eq_zero hstop]
      exact hstop

/-! ## Packets of one size -/

/-- The sizes of the packets of at most `q` bytes that `n` bytes make. -/
def pieces (q n : ℕ) : List ℕ :=
  List.replicate (n / q) q ++ if n % q = 0 then [] else [n % q]

theorem pieces_eq_cons {q n : ℕ} (hq : 0 < q) (hn : 0 < n) :
    pieces q n = min q n :: pieces q (n - min q n) := by
  rw [pieces, pieces]
  by_cases hle : q ≤ n
  · have hdiv : n / q = (n - q) / q + 1 := Nat.div_eq_sub_div hq hle
    rw [Nat.min_eq_left hle, hdiv, ← Nat.mod_eq_sub_mod hle, List.replicate_succ, List.cons_append]
  · rw [Nat.min_eq_right (by omega), Nat.div_eq_of_lt (by omega), Nat.mod_eq_of_lt (by omega),
      if_neg (by omega), Nat.sub_self]
    simp

theorem pieces_zero (q : ℕ) : pieces q 0 = [] := by
  rw [pieces, Nat.zero_div, Nat.zero_mod, if_pos rfl]
  rfl

theorem sum_pieces (q n : ℕ) : (pieces q n).sum = n := by
  have hdiv := Nat.div_add_mod' n q
  rw [pieces, List.sum_append, List.sum_replicate, smul_eq_mul]
  split
  · rw [List.sum_nil]
    omega
  · rw [List.sum_singleton, hdiv]

theorem fill_append (xs ys : List ℕ) :
    fill w m used (xs ++ ys) = fill w m (fill w m used xs) ys := by
  induction xs generalizing used with
  | nil => rfl
  | cons x xs ih =>
    rw [List.cons_append, fill, fill]
    exact ih

/-! ## A connection that only sends -/

/-- Data for the output buffer, and a call of `sendPackets`; `packetSize` is that of the
connection then. -/
structure Burst where
  packetSize : ℕ
  pos : 0 < packetSize
  data : List UInt8
  now : ℕ

namespace Connection

def burst (c : Connection) (b : Burst) : Connection :=
  { c with packetSize := b.packetSize, outputBuffer := c.outputBuffer ++ b.data }.sendPackets b.now

def bursts (c : Connection) (bs : List Burst) : Connection := bs.foldl burst c

/-- The most that a packet takes. -/
def packetRoom (packetSize : ℕ) (w : LocalWindow) : ℕ :=
  min packetSize (maxBufferSize - KTorrent.Utp.extensionLength w - headerSize)

/-- The packets that the data would make if there were no window. -/
def packetSizes (w : LocalWindow) : ℕ → List Burst → List ℕ
  | _, [] => []
  | buffered, b :: bs =>
    pieces (packetRoom b.packetSize w) (buffered + b.data.length) ++ packetSizes w 0 bs

/-- The bytes of data in some bursts. -/
def dataLength (bs : List Burst) : ℕ := (bs.map fun b => b.data.length).sum

/-- The window is used up: no space is left, and the whole of it is in flight. -/
structure FullyUsed (whole : ℕ) (c : Connection) : Prop where
  stopped : c.remoteWnd.availableSpace = 0
  inFlight : packetSum c.remoteWnd.unackedPackets = whole

/-- A connection that has sent `used` bytes since it had nothing in flight, and received
nothing. -/
structure Used (w m used : ℕ) (c : Connection) : Prop where
  curWindow : c.remoteWnd.curWindow = used
  inFlight : packetSum c.remoteWnd.unackedPackets = used
  wndSize : c.remoteWnd.wndSize + used = w
  maxWindow : c.remoteWnd.maxWindow = m

variable {c : Connection} {now fuel : ℕ}

theorem packetRoom_pos {packetSize : ℕ} (hpos : 0 < packetSize) (w : LocalWindow) :
    0 < packetRoom packetSize w := by
  have hext := extensionLength_le w
  rw [packetRoom, maxBufferSize, headerSize]
  omega

theorem sum_packetSizes (lw : LocalWindow) (buffered : ℕ) (b : Burst) (bs : List Burst) :
    (packetSizes lw buffered (b :: bs)).sum = buffered + dataLength (b :: bs) := by
  induction bs generalizing buffered b with
  | nil => simp [packetSizes, sum_pieces, dataLength]
  | cons b' bs ih =>
    rw [packetSizes, List.sum_append, ih, sum_pieces]
    simp [dataLength]
    omega

theorem Used.availableSpace (h : Used w m used c) :
    c.remoteWnd.availableSpace = space w m used := by
  have hwnd := h.wndSize
  rw [RemoteWindow.availableSpace, h.curWindow, h.maxWindow, space]
  split <;> omega

theorem Used.toRead (h : Used w m used c) :
    c.toRead = min (min (packetRoom c.packetSize c.localWnd) c.outputBuffer.length)
      (space w m used) := by
  rw [Connection.toRead, h.availableSpace, packetRoom]
  omega

/-- **A packet counts twice**: it is in flight, and is taken off the advertised window. -/
theorem Used.sendNext (h : Used w m used c) (hw : w < 2 ^ 32) (now : ℕ) :
    Used w m (used + c.toRead) (c.sendNext now) := by
  have hle : c.toRead ≤ space w m used := by
    rw [h.toRead]
    exact Nat.min_le_right _ _
  have hwnd := h.wndSize
  have hcur := h.curWindow
  have hsize := fillData_payloadSize (c := c)
  rw [space] at hle
  have hnext := sendNext_remoteWnd (c := c) now
  refine ⟨?_, ?_, ?_, ?_⟩
  · rw [hnext, RemoteWindow.addPacket, hsize, hcur]
    exact u32_of_lt (by omega)
  · rw [hnext, RemoteWindow.addPacket, packetSum_append, h.inFlight, packetSum_cons, packetSum_nil,
      hsize, Nat.add_zero]
  · have hsub : sub32 c.remoteWnd.wndSize c.toRead = c.remoteWnd.wndSize - c.toRead :=
      sub32_of_le (by omega) (by omega)
    rw [hnext, RemoteWindow.addPacket, hsize, hsub]
    dsimp only
    omega
  · rw [hnext, RemoteWindow.addPacket]
    exact h.maxWindow

theorem length_outputBuffer_sendNext :
    (c.sendNext now).outputBuffer.length = c.outputBuffer.length - c.toRead := by
  have hle : c.toRead ≤ maxBufferSize - headerSize := by
    rw [Connection.toRead]
    omega
  rw [Connection.sendNext]
  simp only [PacketBuffer.fillData, Nat.min_eq_left hle]
  exact List.length_drop

/-- What the loop of `sendPackets` reaches: as much is sent as the window allows, and something
stays behind only when there is no space. -/
structure Sent (w m used : ℕ) (c c' : Connection) : Prop where
  sends : Used w m used c'
  rest : c'.outputBuffer = [] ∨ space w m used = 0
  localWnd : c'.localWnd = c.localWnd

theorem Used.sendLoop (h : Used w m used c) (hw : w < 2 ^ 32) (hpos : 0 < c.packetSize)
    (hfuel : c.outputBuffer.length ≤ fuel) :
    Sent w m (fill w m used (pieces (packetRoom c.packetSize c.localWnd) c.outputBuffer.length)) c
      (sendLoop now fuel c) := by
  induction fuel generalizing c used with
  | zero =>
    have hempty : c.outputBuffer = [] := List.length_eq_zero_iff.mp (Nat.le_zero.mp hfuel)
    rw [hempty, List.length_nil, pieces_zero]
    exact ⟨h, .inl hempty, rfl⟩
  | succ fuel ih =>
    rw [Connection.sendLoop, h.availableSpace]
    have hroom := packetRoom_pos hpos c.localWnd
    by_cases hgo : c.outputBuffer.length > 0 ∧ space w m used > 0
    swap
    · rw [if_neg hgo]
      by_cases hempty : c.outputBuffer.length = 0
      · rw [hempty, pieces_zero]
        exact ⟨h, .inl (List.length_eq_zero_iff.mp hempty), rfl⟩
      · have hstop : space w m used = 0 := by omega
        rw [fill_of_space_eq_zero hstop]
        exact ⟨h, .inr hstop, rfl⟩
    · have hread := h.toRead
      have hnext := ih (h.sendNext hw now) hpos (by
        rw [length_outputBuffer_sendNext]
        omega)
      rw [if_pos hgo, if_neg (by omega), pieces_eq_cons hroom hgo.1, fill]
      rw [length_outputBuffer_sendNext] at hnext
      by_cases hfull : min (packetRoom c.packetSize c.localWnd) c.outputBuffer.length
          ≤ space w m used
      · rw [Nat.min_eq_left hfull] at hread ⊢
        rw [hread] at hnext
        exact ⟨hnext.sends, hnext.rest, hnext.localWnd⟩
      · -- the packet fills the window, and the rest of the data stays
        rw [Nat.min_eq_right (by omega)] at hread ⊢
        have hstop : space w m (used + space w m used) = 0 := by
          simp only [space]
          omega
        rw [hread, fill_of_space_eq_zero hstop] at hnext
        rw [fill_of_space_eq_zero hstop]
        exact ⟨hnext.sends, hnext.rest, hnext.localWnd⟩

theorem Sent.finishSending {c' : Connection} (h : Sent w m used c c') :
    Sent w m used c c'.finishSending := by
  rw [Connection.finishSending]
  split
  · exact ⟨⟨h.sends.curWindow, h.sends.inFlight, h.sends.wndSize, h.sends.maxWindow⟩, h.rest,
      h.localWnd⟩
  · exact h

theorem Used.burst (h : Used w m used c) (hw : w < 2 ^ 32) (b : Burst) :
    Sent w m (fill w m used
      (pieces (packetRoom b.packetSize c.localWnd) (c.outputBuffer.length + b.data.length))) c
      (c.burst b) := by
  have hloop := @Used.sendLoop w m used
    { c with packetSize := b.packetSize, outputBuffer := c.outputBuffer ++ b.data } b.now _
    ⟨h.curWindow, h.inFlight, h.wndSize, h.maxWindow⟩ hw b.pos le_rfl
  have hsent := hloop.finishSending
  rw [← List.length_append]
  exact ⟨hsent.sends, hsent.rest, hsent.localWnd⟩

/-- **The bytes in flight follow `fill`**, burst after burst. -/
theorem used_bursts (h : Used w m used c) (hw : w < 2 ^ 32) (bs : List Burst) {buffered : ℕ}
    (hbuffer : c.outputBuffer.length = buffered ∨ space w m used = 0) :
    Used w m (fill w m used (packetSizes c.localWnd buffered bs)) (c.bursts bs) := by
  induction bs generalizing c used buffered with
  | nil => exact h
  | cons b bs ih =>
    have hsent := h.burst hw b
    have hrest := ih hsent.sends
      (show _ = 0 ∨ _ from hsent.rest.imp_left List.length_eq_zero_iff.mpr)
    rw [hsent.localWnd] at hrest
    rw [packetSizes, fill_append]
    rcases hbuffer with hbuffer | hstop
    · rw [← hbuffer]
      exact hrest
    · rw [fill_of_space_eq_zero hstop] at hrest ⊢
      exact hrest

theorem used_of_idle (hc : c.Steady) (hempty : c.remoteWnd.unackedPackets = []) :
    Used c.remoteWnd.wndSize c.remoteWnd.maxWindow 0 c := by
  refine ⟨?_, ?_, rfl, rfl⟩
  · rw [hc.curWindow, hempty, packetSum_nil]
  · rw [hempty, packetSum_nil]

/-- Sending always stops, whether the window is used up or not. -/
theorem availableSpace_bursts (c : Connection) (hc : c.Steady)
    (hempty : c.remoteWnd.unackedPackets = []) (b : Burst) (bs : List Burst)
    (hdata : min c.remoteWnd.wndSize c.remoteWnd.maxWindow
      ≤ c.outputBuffer.length + dataLength (b :: bs)) :
    (c.bursts (b :: bs)).remoteWnd.availableSpace = 0 := by
  have hend := used_bursts (used_of_idle hc hempty) hc.wndSize_lt (b :: bs) (.inl rfl)
  rw [hend.availableSpace]
  have hsum := sum_packetSizes c.localWnd c.outputBuffer.length b bs
  exact space_fill (by omega)

/-- **When the advertised window is fully usable.**  For every connection with nothing in flight
and every way of sending enough, sending stops, and with exactly the smaller of the two windows in
flight if and only if that is 0 or the packet that would complete it finds as much still to be
advertised. -/
theorem fullyUsed_iff (c : Connection) (hc : c.Steady) (hempty : c.remoteWnd.unackedPackets = [])
    (b : Burst) (bs : List Burst)
    (hdata : min c.remoteWnd.wndSize c.remoteWnd.maxWindow
      ≤ c.outputBuffer.length + dataLength (b :: bs)) :
    FullyUsed (min c.remoteWnd.wndSize c.remoteWnd.maxWindow) (c.bursts (b :: bs)) ↔
      min c.remoteWnd.wndSize c.remoteWnd.maxWindow = 0 ∨
        LastFits c.remoteWnd.wndSize (min c.remoteWnd.wndSize c.remoteWnd.maxWindow) 0
          (packetSizes c.localWnd c.outputBuffer.length (b :: bs)) := by
  have hend := used_bursts (used_of_idle hc hempty) hc.wndSize_lt (b :: bs) (.inl rfl)
  have hsum := sum_packetSizes c.localWnd c.outputBuffer.length b bs
  have hfull : FullyUsed (min c.remoteWnd.wndSize c.remoteWnd.maxWindow) (c.bursts (b :: bs)) ↔
      fill c.remoteWnd.wndSize c.remoteWnd.maxWindow 0
        (packetSizes c.localWnd c.outputBuffer.length (b :: bs))
          = min c.remoteWnd.wndSize c.remoteWnd.maxWindow := by
    constructor
    · exact fun h => hend.inFlight.symm.trans h.inFlight
    · exact fun h => ⟨availableSpace_bursts c hc hempty b bs hdata, hend.inFlight.trans h⟩
  rw [hfull]
  by_cases hzero : min c.remoteWnd.wndSize c.remoteWnd.maxWindow = 0
  · have hnone : space c.remoteWnd.wndSize c.remoteWnd.maxWindow 0 = 0 := by
      rw [space]
      omega
    rw [fill_of_space_eq_zero hnone]
    exact iff_of_true hzero.symm (.inl hzero)
  · rw [fill_eq_iff (by omega) (by omega), or_iff_right hzero]

/-- A connection with a congestion window of `m` bytes, whose peer has advertised `w`. -/
def advertisedTo (w m : ℕ) : Connection :=
  { incoming 1 with remoteWnd := { RemoteWindow.new with wndSize := w, maxWindow := m } }

theorem steady_advertisedTo {w m : ℕ} (hw : w < 2 ^ 32) (hm : m < 2 ^ 32) :
    (advertisedTo w m).Steady where
  curWindow := rfl
  curWindow_lt := Nat.two_pow_pos 32
  maxWindow_lt := hm
  wndSize_lt := hw
  numbers := fun key hkey => absurd hkey List.not_mem_nil
  payloads := fun key hkey => absurd hkey List.not_mem_nil
  packetSize := (by decide : maxBufferSize - ipAndUdpOverhead - headerSize ≤ maxPacketSize)
  fits := fun p hp => absurd hp List.not_mem_nil

/-- Packets of 5 bytes, and `n` bytes of data. -/
def burstOf (n : ℕ) : Burst := ⟨5, by decide, List.replicate n 0, 0⟩

/-- The third of four packets completes a congestion window that is half of the advertised one. -/
theorem fullyUsed_twoBursts :
    packetSizes (LocalWindow.new receiveCapacity) 0 [burstOf 7, burstOf 8] = [5, 2, 5, 3] ∧
      LastFits 20 (min 20 10) 0 [5, 2, 5, 3] ∧
      (FullyUsed (min 20 10) ((advertisedTo 20 10).bursts [burstOf 7, burstOf 8]) ↔
        min 20 10 = 0 ∨ LastFits 20 (min 20 10) 0
          (packetSizes (LocalWindow.new receiveCapacity) 0 [burstOf 7, burstOf 8])) :=
  ⟨by decide +kernel, by simp [LastFits], fullyUsed_iff (advertisedTo 20 10)
    (steady_advertisedTo (by decide) (by decide)) rfl (burstOf 7) [burstOf 8] (by decide)⟩

/-- A window of two packets: only one of them is sent. -/
theorem twoPackets_halfUsed :
    ¬ FullyUsed (min 10 65536) ((advertisedTo 10 65536).bursts [burstOf 10]) := by
  intro h
  have hw : 10 < 2 ^ 32 := by decide
  have hsteady : (advertisedTo 10 65536).Steady := steady_advertisedTo hw (by decide)
  have hend := used_bursts (used_of_idle hsteady rfl) hw [burstOf 10] (.inl rfl)
  have hfill := hend.inFlight.symm.trans h.inFlight
  revert hfill
  decide

end Connection

end KTorrent.Utp
