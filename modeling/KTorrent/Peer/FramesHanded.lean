import KTorrent.Lib.Run
import KTorrent.Peer.Framing
import KTorrent.Peer.PacketReader

/-!
# Every packet is handed over

The reader behaves like the automaton of `Peer.Framing`, whatever pieces the
stream comes in.

* `Reads` — how the state of the reader stands for a state of the automaton.
* `reads_onDataReady` — a piece of any size has the effect of its bytes, one
  after the other.
* `handed_frames` — however the stream is cut and whenever `update` is called, its
  packets are handed over in order, and once each.
-/

namespace KTorrent

open Runs

/-! ## The reader and the automaton -/

open Framing

/-- The reader stands for a state of the automaton: its complete packets are
`out`, and the incomplete length or packet is the last one. -/
structure Reads (max : ℕ) (r : PacketReader) (f : Framing) (done : List IncomingPacket) : Prop where
  max_eq : r.maxPacketSize = max
  complete : ∀ p ∈ done, p.data.length = p.size
  out : done.map IncomingPacket.data = f.out
  state : match f.state with
    | .len bs => r.error = false ∧ r.packetQueue = done ∧ r.len = bs ∧ bs.length < 4
    | .body n bs => r.error = false ∧ r.packetQueue = done ++ [⟨n, bs⟩] ∧ r.len = [] ∧
        bs.length < n ∧ n ≤ max
    | .failed => r.error = true ∧ r.packetQueue = done

section Reads

variable {max : ℕ} {r : PacketReader} {out : List (List UInt8)} {done : List IncomingPacket}

/-- Bytes for a packet that is incomplete. -/
theorem reads_readPacket {n : ℕ} {bs buf : List UInt8} (hmax : max < 2 ^ 31)
    (hbuf : buf.length < 2 ^ 31) (h : Reads max r ⟨out, .body n bs⟩ done) :
    ∃ r' k done', r.readPacket buf = some (r', k) ∧ k ≤ buf.length ∧
      Reads max r' (feedAll max ⟨out, .body n bs⟩ (buf.take k)) done' ∧
      (k < buf.length → Between (feedAll max ⟨out, .body n bs⟩ (buf.take k))) := by
  obtain ⟨herr, hqueue, hlen, hbs, hn⟩ := h.state
  unfold PacketReader.readPacket
  by_cases hempty : buf.length = 0
  · rw [if_pos hempty]
    exact ⟨r, 0, done, rfl, Nat.zero_le _, by simpa [feedAll] using h, fun hlt => by omega⟩
  · rw [if_neg hempty, hqueue]
    simp only [List.getLast?_append, List.getLast?_singleton, Option.some_or, List.dropLast_append_cons,
      List.dropLast_singleton, List.append_nil]
    have hu32 : u32 (bs.length + buf.length) = bs.length + buf.length := u32_of_lt (by omega)
    rw [hu32, sub32_of_le (by omega) (by omega)]
    by_cases hfull : bs.length + buf.length ≥ n
    · -- the packet becomes complete
      have htake : (buf.take (n - bs.length)).length = n - bs.length := by
        rw [List.length_take]
        omega
      rw [if_pos hfull, if_neg (by omega)]
      refine ⟨_, n - bs.length, done ++ [⟨n, bs ++ buf.take (n - bs.length)⟩], rfl, by omega, ?_⟩
      rw [feedAll_body hbs (by omega)]
      refine ⟨⟨h.max_eq, fun p hp => ?_, ?_, herr, rfl, hlen, by simp⟩, fun _ => between_len _ _⟩
      · rcases List.mem_append.mp hp with hp | hp
        · exact h.complete p hp
        · rw [List.mem_singleton.mp hp, List.length_append]
          show bs.length + _ = n
          omega
      · rw [List.map_append, h.out]
        rfl
    · rw [if_neg hfull, if_neg (by omega)]
      refine ⟨_, buf.length, done, rfl, le_rfl, ?_, fun hlt => absurd hlt (lt_irrefl _)⟩
      rw [List.take_length, feedAll_body_short buf bs (by omega)]
      refine ⟨h.max_eq, h.complete, h.out, herr, rfl, hlen, ?_, hn⟩
      rw [List.length_append]
      omega

/-- Behind a length. -/
theorem reads_startPacket {n lenRead : ℕ} {buf : List UInt8} (hmax : max < 2 ^ 31)
    (hbuf : buf.length < 2 ^ 31) (hlenRead : lenRead ≤ buf.length)
    (h : Reads max r ⟨out, .len []⟩ done) :
    ∃ r' k done', r.startPacket n lenRead buf = some (r', k) ∧ k ≤ buf.length ∧ lenRead ≤ k ∧
      Reads max r' (feedAll max (start max out n) ((buf.drop lenRead).take (k - lenRead))) done' ∧
      (k < buf.length →
        Between (feedAll max (start max out n) ((buf.drop lenRead).take (k - lenRead)))) := by
  obtain ⟨herr, hqueue, hlen, -⟩ := h.state
  unfold PacketReader.startPacket start
  by_cases hzero : n = 0
  · rw [if_pos hzero, if_pos hzero]
    refine ⟨r, lenRead, done, rfl, hlenRead, le_rfl, ?_⟩
    rw [Nat.sub_self, List.take_zero]
    exact ⟨h, fun _ => between_len _ _⟩
  · rw [if_neg hzero, if_neg hzero]
    have hlarge_iff : n > r.maxPacketSize ↔ n > max := by rw [h.max_eq]
    by_cases hlarge : n > max
    · rw [if_pos (hlarge_iff.mpr hlarge), if_pos hlarge]
      refine ⟨_, buf.length, done, rfl, le_rfl, hlenRead, ?_, fun hlt => absurd hlt (lt_irrefl _)⟩
      rw [feedAll_failed]
      exact ⟨h.max_eq, h.complete, h.out, rfl, hqueue⟩
    · rw [if_neg (fun hc => hlarge (hlarge_iff.mp hc)), if_neg hlarge]
      have hnew : Reads max { r with packetQueue := r.packetQueue ++ [⟨n, []⟩] }
          ⟨out, .body n []⟩ done :=
        ⟨h.max_eq, h.complete, h.out, herr, by rw [hqueue], hlen, Nat.pos_of_ne_zero hzero,
          not_lt.mp hlarge⟩
      have hdrop : (buf.drop lenRead).length < 2 ^ 31 := by
        rw [List.length_drop]
        omega
      obtain ⟨r', k, done', hread, hk, hreads, hbetween⟩ := reads_readPacket hmax hdrop hnew
      rw [List.length_drop] at hk hbetween
      refine ⟨r', lenRead + k, done', ?_, by omega, by omega, ?_⟩
      · rw [hread]
        rfl
      · rw [Nat.add_sub_cancel_left]
        exact ⟨hreads, fun hlt => hbetween (by omega)⟩

/-- A piece that starts with a length, or with the rest of one. -/
theorem reads_newPacket {bs buf : List UInt8} (hmax : max < 2 ^ 31) (hbuf : buf.length < 2 ^ 31)
    (hne : buf ≠ []) (h : Reads max r ⟨out, .len bs⟩ done) :
    ∃ r' k done', r.newPacket buf = some (r', k) ∧ 0 < k ∧ k ≤ buf.length ∧
      Reads max r' (feedAll max ⟨out, .len bs⟩ (buf.take k)) done' ∧
      (k < buf.length → Between (feedAll max ⟨out, .len bs⟩ (buf.take k))) := by
  obtain ⟨herr, hqueue, hlen, hbs⟩ := h.state
  have hpos : 0 < buf.length := List.length_pos_iff.mpr hne
  by_cases hshort : bs.length + buf.length < 4
  · -- the length stays incomplete
    have hnew : r.newPacket buf = some ({ r with len := bs ++ buf }, buf.length) := by
      unfold PacketReader.newPacket
      rw [hlen]
      by_cases hstarted : bs.length > 0
      · have hint : toInt32 buf.length < 4 - (bs.length : ℤ) := by
          unfold toInt32
          rw [if_pos hbuf]
          omega
        rw [if_pos hstarted, if_pos hint, if_neg (by omega)]
      · obtain rfl : bs = [] := List.length_eq_zero_iff.mp (by omega)
        rw [if_neg hstarted, if_pos (by simpa using hshort), List.nil_append]
    refine ⟨_, buf.length, done, hnew, hpos, le_rfl, ?_, fun hlt => absurd hlt (lt_irrefl _)⟩
    rw [List.take_length, feedAll_len_short buf bs hshort]
    refine ⟨h.max_eq, h.complete, h.out, herr, hqueue, rfl, ?_⟩
    rw [List.length_append]
    exact hshort
  · -- the length is complete
    have hk : 4 - bs.length ≤ buf.length := by omega
    have htake : bs.length + (buf.take (4 - bs.length)).length = 4 := by
      rw [List.length_take]
      omega
    have hfour : 4 ≤ (bs ++ buf.take (4 - bs.length)).length := by
      rw [List.length_append]
      omega
    obtain ⟨n, hn⟩ := readUint32_some hfour
    have hread : ∀ tail, readUint32 (bs ++ buf.take (4 - bs.length) ++ tail) 0 = some n := by
      intro tail
      have hsome := hn tail
      rwa [List.take_of_length_le (by rw [List.length_append]; omega)] at hsome
    have hempty : Reads max { r with len := [] } ⟨out, .len []⟩ done :=
      ⟨h.max_eq, h.complete, h.out, herr, hqueue, rfl, by simp⟩
    obtain ⟨r', k, done', hstart, hkle, hlek, hreads⟩ := reads_startPacket (n := n.toNat) hmax hbuf
      hk hempty
    refine ⟨r', k, done', ?_, by omega, hkle, ?_⟩
    · unfold PacketReader.newPacket
      rw [hlen]
      by_cases hstarted : bs.length > 0
      · have hint : ¬ toInt32 buf.length < 4 - (bs.length : ℤ) := by
          unfold toInt32
          rw [if_pos hbuf]
          omega
        have hsome := hread []
        rw [List.append_nil] at hsome
        rw [if_pos hstarted, if_neg hint]
        simp only [hsome, Option.bind_some, hstart]
      · obtain rfl : bs = [] := List.length_eq_zero_iff.mp (by omega)
        have hsome := hread (buf.drop 4)
        simp only [List.nil_append, List.length_nil, Nat.sub_zero, List.take_append_drop] at hsome
        have hr : { r with len := [] } = r := by rw [← hlen]
        rw [hr] at hstart
        rw [if_neg hstarted, if_neg (by simpa using hshort), hsome]
        exact hstart
    · have hbytes : buf.take k = buf.take (4 - bs.length)
          ++ (buf.drop (4 - bs.length)).take (k - (4 - bs.length)) := by
        rw [← List.take_add, Nat.add_sub_cancel' hlek]
      have hsome := hread []
      rw [List.append_nil] at hsome
      rw [hbytes, feedAll_append, feedAll_len hbs htake hsome]
      exact hreads

/-- The loop of `onDataReady`. -/
theorem reads_newPackets (hmax : max < 2 ^ 31) : ∀ (fuel : ℕ) (buf : List UInt8) (r : PacketReader)
    (f : Framing) (done : List IncomingPacket), buf.length ≤ fuel → buf.length < 2 ^ 31 →
    (buf ≠ [] → Between f) → Reads max r f done →
    ∃ r' done', PacketReader.newPackets fuel r buf = some r' ∧
      Reads max r' (feedAll max f buf) done' := by
  intro fuel
  induction fuel with
  | zero =>
    intro buf r f done hfuel _ _ h
    obtain rfl : buf = [] := List.length_eq_zero_iff.mp (by omega)
    exact ⟨r, done, rfl, h⟩
  | succ fuel ih =>
    intro buf r f done hfuel hbuf hbody h
    by_cases hempty : buf = []
    · subst hempty
      exact ⟨r, done, by simp [PacketReader.newPackets], h⟩
    · have hpos : 0 < buf.length := List.length_pos_iff.mpr hempty
      obtain ⟨out, st⟩ := f
      cases st with
      | failed =>
        have herr := h.state.1
        refine ⟨r, done, by simp [PacketReader.newPackets, herr], ?_⟩
        rw [feedAll_failed]
        exact h
      | body n bs => exact absurd rfl (hbody hempty n bs)
      | len bs =>
        have herr := h.state.1
        obtain ⟨r', k, done', hnew, hkpos, hk, hreads, hbetween⟩ :=
          reads_newPacket hmax hbuf hempty h
        have hdrop : (buf.drop k).length ≤ fuel := by
          rw [List.length_drop]
          omega
        have hbody' : buf.drop k ≠ [] → Between (feedAll max ⟨out, .len bs⟩ (buf.take k)) := by
          intro hne
          apply hbetween
          have hrest := List.length_pos_iff.mpr hne
          rw [List.length_drop] at hrest
          omega
        obtain ⟨r'', done'', hloop, hreads'⟩ := ih (buf.drop k) r' _ done' hdrop
          (by rw [List.length_drop]; omega) hbody' hreads
        refine ⟨r'', done'', ?_, ?_⟩
        · rw [PacketReader.newPackets, if_neg (by simp [herr]; omega), hnew]
          exact hloop
        · rw [← feedAll_append, List.take_append_drop] at hreads'
          exact hreads'

/-- **A piece of the stream** has the effect of its bytes. -/
theorem reads_onDataReady {f : Framing} {buf : List UInt8} (hmax : max < 2 ^ 31)
    (hbuf : buf.length < 2 ^ 31) (h : Reads max r f done) :
    ∃ r' done', r.onDataReady buf = some r' ∧ Reads max r' (feedAll max f buf) done' := by
  obtain ⟨out, st⟩ := f
  unfold PacketReader.onDataReady
  cases st with
  | failed =>
    obtain ⟨herr, hqueue⟩ := h.state
    rw [herr]
    refine ⟨r, done, rfl, ?_⟩
    rw [feedAll_failed]
    exact h
  | len bs =>
    obtain ⟨herr, hqueue, hlen, hbs⟩ := h.state
    rw [herr]
    simp only [Bool.false_eq_true, if_false]
    have hloop := reads_newPackets hmax buf.length buf r ⟨out, .len bs⟩ done le_rfl hbuf
      (fun _ => between_len _ _) h
    cases hlast : r.packetQueue.getLast? with
    | none => exact hloop
    | some pck =>
      have hmem : pck ∈ done := hqueue ▸ List.mem_of_getLast? hlast
      have hcomplete := h.complete pck hmem
      simp only
      rw [if_neg (by omega)]
      exact hloop
  | body n bs =>
    obtain ⟨herr, hqueue, hlen, hbs, hn⟩ := h.state
    have hlast : r.packetQueue.getLast? = some ⟨n, bs⟩ := by
      rw [hqueue]
      simp
    obtain ⟨r', k, done', hread, hk, hreads, hbetween⟩ := reads_readPacket hmax hbuf h
    have hrest : buf.drop k ≠ [] → Between (feedAll max ⟨out, .body n bs⟩ (buf.take k)) := by
      intro hne
      apply hbetween
      have hpos := List.length_pos_iff.mpr hne
      rw [List.length_drop] at hpos
      omega
    have hdrop : (buf.drop k).length ≤ buf.length := by
      rw [List.length_drop]
      omega
    obtain ⟨r'', done'', hloop, hreads'⟩ := reads_newPackets hmax buf.length (buf.drop k) r' _ done'
      hdrop (by omega) hrest hreads
    refine ⟨r'', done'', ?_, ?_⟩
    · rw [herr, hlast]
      simp only [Bool.false_eq_true, if_false]
      rw [if_pos hbs, hread]
      exact hloop
    · rw [← feedAll_append, List.take_append_drop] at hreads'
      exact hreads'

theorem dequeuePackets_complete : ∀ (done rest : List IncomingPacket),
    (∀ p ∈ done, p.data.length = p.size) → (∀ p ∈ rest.head?, p.data.length < p.size) →
    PacketReader.dequeuePackets (done ++ rest) = (done.map IncomingPacket.data, rest) := by
  intro done
  induction done with
  | nil =>
    intro rest _ hrest
    cases rest with
    | nil => rfl
    | cons p ps =>
      have hlt := hrest p rfl
      rw [List.nil_append, PacketReader.dequeuePackets, if_neg (by omega)]
      rfl
  | cons p done ih =>
    intro rest hdone hrest
    rw [List.cons_append, PacketReader.dequeuePackets, if_pos (hdone p List.mem_cons_self),
      ih rest (fun q hq => hdone q (List.mem_cons_of_mem p hq)) hrest]
    rfl

/-- **`update`** hands over the packets that are complete. -/
theorem reads_update {f : Framing} (h : Reads max r f done) :
    (f.state = .failed ∧ r.update = ([], r)) ∨
    f.state ≠ .failed ∧ (r.update).1 = f.out ∧ Reads max r.update.2 ⟨[], f.state⟩ [] := by
  obtain ⟨out, st⟩ := f
  unfold PacketReader.update
  cases st with
  | failed => exact .inl ⟨rfl, by rw [if_pos h.state.1]⟩
  | len bs =>
    obtain ⟨herr, hqueue, hlen, hbs⟩ := h.state
    refine .inr ⟨by simp, ?_⟩
    have hdeq := dequeuePackets_complete done [] h.complete (by simp)
    rw [List.append_nil] at hdeq
    rw [herr, hqueue, hdeq]
    exact ⟨h.out, h.max_eq, by simp, rfl, rfl, rfl, hlen, hbs⟩
  | body n bs =>
    obtain ⟨herr, hqueue, hlen, hbs, hn⟩ := h.state
    refine .inr ⟨by simp, ?_⟩
    have hdeq := dequeuePackets_complete done [⟨n, bs⟩] h.complete (by simpa using hbs)
    rw [herr, hqueue, hdeq]
    exact ⟨h.out, h.max_eq, by simp, rfl, rfl, rfl, hlen, hbs, hn⟩

end Reads

/-! ## Every way to cut a stream -/

/-- A reader in use. -/
structure Reading where
  /-- The reader. -/
  reader : PacketReader
  /-- The packets that were handed over. -/
  handed : List (List UInt8)

/-- A call. -/
inductive ReaderEvent where
  | data (buf : List UInt8)
  | update

/-- One call; `none` when bytes are written where there is no room. -/
def readStep : Option Reading → ReaderEvent → Option Reading
  | none, _ => none
  | some s, .data buf => (s.reader.onDataReady buf).map fun r => { s with reader := r }
  | some s, .update => some ⟨s.reader.update.2, s.handed ++ s.reader.update.1⟩

/-- A new reader. -/
def Reading.new (max : ℕ) : Option Reading := some ⟨PacketReader.new max, []⟩

/-- The stream that the calls are given. -/
def streamOf : List ReaderEvent → List UInt8
  | [] => []
  | .data buf :: es => buf ++ streamOf es
  | .update :: es => streamOf es

theorem streamOf_update (es : List ReaderEvent) : streamOf (es ++ [.update]) = streamOf es := by
  induction es with
  | nil => rfl
  | cons e es ih =>
    cases e with
    | data buf => exact congrArg (buf ++ ·) ih
    | update => exact ih

/-- The calls are given fewer than `2 ^ 31` bytes each. -/
def ShortCalls (es : List ReaderEvent) : Prop := ∀ buf, .data buf ∈ es → buf.length < 2 ^ 31

/-- The reader is fine, or has met a length that is too large. -/
def IsOk (ok : Bool) (s : Option Reading) : Prop := ∃ t, s = some t ∧ t.reader.ok = ok

/-- What was handed over and what waits are the packets found in the bytes. -/
def ReadingInv (max : ℕ) (s : Option Reading) (f : Framing) : Prop :=
  ∃ t out done, s = some t ∧ f.out = t.handed ++ out ∧ Reads max t.reader ⟨out, f.state⟩ done

section Runs

variable {max : ℕ}

/-- The packets found before do not matter. -/
theorem feedAll_prepend (handed out : List (List UInt8)) (st : FrameState) (xs : List UInt8) :
    feedAll max ⟨handed ++ out, st⟩ xs
      = ⟨handed ++ (feedAll max ⟨out, st⟩ xs).out, (feedAll max ⟨out, st⟩ xs).state⟩ := by
  induction xs generalizing out st with
  | nil => rfl
  | cons x xs ih =>
    have hfeed : feed max ⟨handed ++ out, st⟩ x
        = ⟨handed ++ (feed max ⟨out, st⟩ x).out, (feed max ⟨out, st⟩ x).state⟩ := by
      cases st with
      | failed => rfl
      | len bs =>
        simp only [feed]
        cases readUint32 (bs ++ [x]) 0 with
        | none => rfl
        | some n =>
          simp only [start]
          split_ifs <;> rfl
      | body n bs =>
        simp only [feed]
        split_ifs
        · simp
        · rfl
    show feedAll max (feed max ⟨handed ++ out, st⟩ x) xs = _
    rw [hfeed, ih]
    rfl

theorem readingInv_data {s : Option Reading} {f : Framing} {buf : List UInt8} (hmax : max < 2 ^ 31)
    (hbuf : buf.length < 2 ^ 31) (h : ReadingInv max s f) :
    ReadingInv max (readStep s (.data buf)) (feedAll max f buf) := by
  obtain ⟨t, out, done, rfl, hout, hreads⟩ := h
  obtain ⟨r', done', hdata, hreads'⟩ := reads_onDataReady hmax hbuf hreads
  have hf : f = ⟨t.handed ++ out, f.state⟩ := by rw [← hout]
  have hfeed := @feedAll_prepend max t.handed out f.state buf
  rw [← hf] at hfeed
  rw [hfeed]
  refine ⟨{ t with reader := r' }, _, done', ?_, rfl, hreads'⟩
  simp only [readStep, hdata, Option.map_some]

theorem readingInv_update {s : Option Reading} {f : Framing} (h : ReadingInv max s f) :
    ReadingInv max (readStep s .update) f ∧
      (f.state ≠ .failed → ∃ t, readStep s .update = some t ∧ t.handed = f.out) := by
  obtain ⟨t, out, done, rfl, hout, hreads⟩ := h
  rcases reads_update hreads with ⟨hfail, hup⟩ | ⟨hfine, hup, hreads'⟩
  · refine ⟨⟨t, out, done, ?_, hout, hreads⟩, fun hne => absurd hfail hne⟩
    simp only [readStep, hup, List.append_nil]
  · refine ⟨⟨_, [], [], rfl, ?_, hreads'⟩, fun _ => ⟨_, rfl, ?_⟩⟩
    · rw [hout, hup, List.append_nil]
    · rw [hout, hup]

/-- Any calls. -/
theorem readingInv_run (hmax : max < 2 ^ 31) : ∀ (es : List ReaderEvent) (s : Option Reading)
    (f : Framing), ShortCalls es → ReadingInv max s f →
    ReadingInv max (run readStep s es) (feedAll max f (streamOf es)) := by
  intro es
  induction es with
  | nil =>
    intro s f _ h
    exact h
  | cons e es ih =>
    intro s f hshort h
    have hshort' : ShortCalls es := fun buf hmem => hshort buf (List.mem_cons_of_mem e hmem)
    cases e with
    | data buf =>
      have hbuf := hshort buf List.mem_cons_self
      have hrec := ih _ _ hshort' (readingInv_data hmax hbuf h)
      rwa [← feedAll_append] at hrec
    | update => exact ih _ _ hshort' (readingInv_update h).1

theorem readingInv_new (max : ℕ) : ReadingInv max (Reading.new max) ⟨[], .len []⟩ :=
  ⟨_, [], [], rfl, rfl, rfl, by simp, rfl, rfl, rfl, rfl, by simp⟩

theorem readingInv_ok {s : Option Reading} {f : Framing} (h : ReadingInv max s f) :
    (f.state = .failed → IsOk false s) ∧ (f.state ≠ .failed → IsOk true s) := by
  obtain ⟨t, out, done, rfl, -, hreads⟩ := h
  have hstate := hreads.state
  constructor
  · intro hfail
    rw [hfail] at hstate
    exact ⟨t, rfl, by simp [PacketReader.ok, hstate.1]⟩
  · intro hne
    refine ⟨t, rfl, ?_⟩
    cases hf : f.state with
    | failed => exact absurd hf hne
    | len bs =>
      rw [hf] at hstate
      simp [PacketReader.ok, hstate.1]
    | body n bs =>
      rw [hf] at hstate
      simp [PacketReader.ok, hstate.1]

/-- The reader is fine in every state of a run at whose end it has not failed. -/
theorem allStates_ok (hmax : max < 2 ^ 31) : ∀ (es : List ReaderEvent) (s : Option Reading)
    (f : Framing), ShortCalls es → ReadingInv max s f →
    (feedAll max f (streamOf es)).state ≠ .failed → AllStates readStep (IsOk true) s es := by
  intro es
  induction es with
  | nil =>
    intro s f _ h hfine
    exact (readingInv_ok h).2 hfine
  | cons e es ih =>
    intro s f hshort h hfine
    have hshort' : ShortCalls es := fun buf hmem => hshort buf (List.mem_cons_of_mem e hmem)
    have hnow : f.state ≠ .failed := by
      intro hfail
      apply hfine
      rw [show f = ⟨f.out, .failed⟩ by rw [← hfail], feedAll_failed]
    refine ⟨(readingInv_ok h).2 hnow, ?_⟩
    cases e with
    | data buf =>
      have hbuf := hshort buf List.mem_cons_self
      apply ih _ _ hshort' (readingInv_data hmax hbuf h)
      rw [← feedAll_append]
      exact hfine
    | update => exact ih _ _ hshort' (readingInv_update h).1 hfine

/-- A reader that has failed stays so. -/
theorem isOk_false_step {s : Option Reading} (h : IsOk false s) (e : ReaderEvent) :
    IsOk false (readStep s e) := by
  obtain ⟨t, rfl, hok⟩ := h
  have herr : t.reader.error = true := by simpa [PacketReader.ok] using hok
  cases e with
  | data buf => exact ⟨t, by simp [readStep, PacketReader.onDataReady, herr], hok⟩
  | update => exact ⟨_, rfl, by simp [PacketReader.update, herr, hok]⟩

theorem allStates_not_ok : ∀ (es : List ReaderEvent) (s : Option Reading), IsOk false s →
    AllStates readStep (IsOk false) s es := by
  intro es
  induction es with
  | nil =>
    intro s h
    exact h
  | cons e es ih =>
    intro s h
    exact ⟨h, ih _ (isOk_false_step h e)⟩

/-- **Framing does not depend on how the stream is cut.**  Whatever pieces the
stream comes in and whenever `update` is called in between: when no length is too
large, the reader stays fine and a last `update` has handed over exactly the
packets of the stream that are not empty; when one is, the packets handed over
are a prefix of those before it and the reader is not fine any more, whatever is
called later. -/
theorem handed_frames (hmax : max < 2 ^ 31) (es : List ReaderEvent) (hes : ShortCalls es) :
    ((frames max (streamOf es)).tooLarge = false →
      AllStates readStep (IsOk true) (Reading.new max) (es ++ [.update]) ∧
      ∃ t, run readStep (Reading.new max) (es ++ [.update]) = some t ∧
        t.handed = (frames max (streamOf es)).packets) ∧
    ((frames max (streamOf es)).tooLarge = true →
      (∃ t, run readStep (Reading.new max) (es ++ [.update]) = some t ∧
        t.handed <+: (frames max (streamOf es)).packets) ∧
      ∀ later, AllStates readStep (IsOk false) (run readStep (Reading.new max) es) later) := by
  have hinv := readingInv_run hmax es _ _ hes (readingInv_new max)
  obtain ⟨hout, hfail⟩ := @feedAll_frames max _ (streamOf es) [] le_rfl
  rw [List.nil_append] at hout
  have hrun : run readStep (Reading.new max) (es ++ [.update])
      = readStep (run readStep (Reading.new max) es) .update := by
    unfold run
    rw [List.foldl_append]
    rfl
  constructor
  · intro hfine
    have hstate : (feedAll max ⟨[], .len []⟩ (streamOf es)).state ≠ .failed := by
      intro hc
      rw [hfail.mp hc] at hfine
      cases hfine
    constructor
    · have hshort : ShortCalls (es ++ [.update]) := by
        intro buf hmem
        apply hes buf
        simpa using hmem
      have hstate' := hstate
      rw [← streamOf_update es] at hstate'
      exact allStates_ok hmax _ _ _ hshort (readingInv_new max) hstate'
    · obtain ⟨t, ht, hhanded⟩ := (readingInv_update hinv).2 hstate
      exact ⟨t, hrun.trans ht, hhanded.trans hout⟩
  · intro hlarge
    constructor
    · obtain ⟨t, out, done, ht, hsplit, -⟩ := (readingInv_update hinv).1
      refine ⟨t, hrun.trans ht, ?_⟩
      rw [← hout, hsplit]
      exact List.prefix_append _ _
    · intro later
      exact allStates_not_ok later _ ((readingInv_ok hinv).1 (hfail.mpr hlarge))

end Runs

/-- A packet, an empty one and the start of a third, cut in the middle of the first
length. -/
def cutStream : List ReaderEvent :=
  [.data [0, 0], .update, .data [0, 2, 7, 8, 0, 0, 0, 0, 0, 0, 0, 3, 9]]

theorem handed_frames_cutStream :
    ShortCalls cutStream ∧ (∃ t, run readStep (Reading.new 1024) (cutStream ++ [.update]) = some t ∧
      t.handed = [[7, 8]]) := by
  have hshort : ShortCalls cutStream := by
    intro buf hmem
    simp only [cutStream, List.mem_cons, ReaderEvent.data.injEq, reduceCtorEq, List.not_mem_nil,
      or_false, false_or] at hmem
    rcases hmem with rfl | rfl <;> decide
  have hframes : (frames 1024 (streamOf cutStream)).tooLarge = false ∧
      (frames 1024 (streamOf cutStream)).packets = [[7, 8]] := by
    simp [cutStream, streamOf, frames, readUint32, Frames.packets]
  obtain ⟨t, ht, hhanded⟩ := ((handed_frames (by decide) cutStream hshort).1 hframes.1).2
  exact ⟨hshort, t, ht, hhanded.trans hframes.2⟩

end KTorrent
