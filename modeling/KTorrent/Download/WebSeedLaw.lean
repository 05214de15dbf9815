import KTorrent.Download.WebSeedRanges

/-!
# A web seed puts every byte in its place

The server answers a request with the bytes of the file it names, as many of them
as the connection lives for.

* `Asked` — what is still to come of the request and of the queue is the rest of
  the range, in order.
* `handleLoop_spec`, `readLoop_spec` — what arrives is written where it belongs,
  and the rest of the range is still asked for.
* `continueCurChunk_asked` — a range is taken up where it was left exactly when
  the bytes stopped at the border between two files.
* `transfer_iff` — the runs in which every byte and every retry is right.
-/

namespace KTorrent

open Extents

namespace WebSeed

variable (w : WebSeedSource) (T : ℕ → UInt8) (server : List Char → ℕ → UInt8)

/-! ## What is asked of a transfer -/

/-- The server has the files of the torrent `T`. -/
def Serves : Prop :=
  ∀ f size, w.fileSizes[f]? = some size → ∀ o < size,
    server (w.filePath w.path f) o = T (w.fileStart f + o)

/-- The bytes of a write are those of the torrent at its place. -/
def Right (x : ChunkWrite) : Prop :=
  x.data = (List.range' (x.chunk * w.layout.chunkSize + x.off) x.data.length).map T

/-- Where the bytes stopped. -/
def position (s : WebSeed) : ℕ := s.curChunk * w.layout.chunkSize + s.bytesOfCurChunk

/-- The positions that are still to come. -/
def pending (s : WebSeed) : List ℕ :=
  (match s.request with
    | none => []
    | some g => List.range' (w.fileStart g.range.file + g.range.off + g.dataReceived)
        (g.range.len - g.dataReceived)) ++
  s.rangeQueue.flatMap (positions w.fileStart)

/-- The web seed asks for the bytes from `a` to `b`, each of them once and in order,
and under the names of the torrent's files. -/
def AsksFor (s : WebSeed) (a b : ℕ) : Prop :=
  pending w s = List.range' a (b - a) ∧
    ∀ g ∈ s.request, w.filePath g.base g.range.file = w.filePath w.path g.range.file

/-- When the connection is closed inside a range, exactly the missing bytes are asked
for. -/
def AsksAgain (s : WebSeed) : Event → Prop
  | .update v sizes .closed =>
    let read := readData w server v sizes s
    s.Busy w.layout → read.Busy w.layout →
      AsksFor w (step w server s (.update v sizes .closed)) (position w read)
        (w.layout.chunkStop read.lastChunk)
  | _ => True

/-- **The law of a step.**  Every byte is written where it belongs, and every retry asks
for the missing bytes. -/
def Lawful (s : WebSeed) (e : Event) : Prop :=
  (∀ x ∈ (step w server s e).written, Right w T x) ∧ AsksAgain w server s e

/-- A file starts or ends here. -/
def Border (p : ℕ) : Prop := ∃ i, (w.layout.sizes.take i).sum = p

/-- A range can be taken up where it was left: nothing of the current chunk is there,
or the bytes stopped at the border of a file and the name of the torrent is not
missing from the path. -/
def Resumable (s : WebSeed) : Prop :=
  s.bytesOfCurChunk = 0 ∨
    (w.isMultiFile = true → Border w (position w s)) ∧
      (w.urlPath.getLast? = some '/' → w.isUserCreated = true → w.nameSuggestion = [])

/-- The condition of a step: a connection that is closed inside a range leaves a
range that can be taken up. -/
def ClosedWell (s : WebSeed) : Event → Prop
  | .update v sizes .closed =>
    let read := readData w server v sizes s
    s.Busy w.layout → read.Busy w.layout → Resumable w read
  | _ => True

/-- A `QByteArray` of a call of `handleData` has a size that fits a `Uint32`. -/
def Event.Fits : Event → Prop
  | .update _ sizes _ => ∀ k ∈ sizes, k < 2 ^ 32
  | _ => True

/-! ## The rest of a range -/

/-- A range lies in its file. -/
def InFile (e : Extent) : Prop := ∃ size, w.fileSizes[e.file]? = some size ∧ e.off + e.len ≤ size

/-- The request and the queue are for the bytes from `a` to `b`. -/
structure Asked (s : WebSeed) (a b : ℕ) : Prop where
  asks : AsksFor w s a b
  inFile : ∀ g ∈ s.request, InFile w g.range
  received : ∀ g ∈ s.request, g.dataReceived < g.range.len
  queueInFile : ∀ r ∈ s.rangeQueue, InFile w r
  queuePos : ∀ r ∈ s.rangeQueue, 0 < r.len
  single : w.isMultiFile = false → s.rangeQueue = []

variable {w T server}

/-- Only the request and the queue count. -/
theorem Asked.congr {s s' : WebSeed} {a b : ℕ} (h : Asked w s a b) (hreq : s'.request = s.request)
    (hqueue : s'.rangeQueue = s.rangeQueue) : Asked w s' a b where
  asks := by simpa only [AsksFor, pending, hreq, hqueue] using h.asks
  inFile := by rw [hreq]; exact h.inFile
  received := by rw [hreq]; exact h.received
  queueInFile := by rw [hqueue]; exact h.queueInFile
  queuePos := by rw [hqueue]; exact h.queuePos
  single := by rw [hqueue]; exact h.single

/-- Nothing is missing: there is no request. -/
theorem Asked.request_none {s : WebSeed} {a : ℕ} (h : Asked w s a a) : s.request = none := by
  have hpend := h.asks.1
  cases hg : s.request with
  | none => rfl
  | some g =>
    have hlen := congrArg List.length hpend
    have hrec := h.received g (by simp [hg])
    simp only [pending, hg, List.length_append, List.length_range', Nat.sub_self] at hlen
    omega

theorem pending_sendFirst {s : WebSeed} (hreq : s.request = none) (base : List Char)
    (es : List Extent) :
    pending w (sendFirst base s es) = es.flatMap (positions w.fileStart) := by
  cases es with
  | nil => simp [sendFirst, pending, hreq]
  | cons r rs => simp [sendFirst, get, pending, hreq, positions]

/-- A queue is asked for under the right names. -/
theorem asked_sendFirst {s : WebSeed} (hreq : s.request = none) {base : List Char}
    (hbase : base = w.path) {es : List Extent} (hin : ∀ e ∈ es, InFile w e)
    (hpos : ∀ e ∈ es, 0 < e.len) (hmulti : w.isMultiFile = true) {a b : ℕ}
    (hes : es.flatMap (positions w.fileStart) = List.range' a (b - a)) :
    Asked w (sendFirst base s es) a b := by
  subst hbase
  have hpend := pending_sendFirst (w := w) hreq w.path es
  have hsingle : w.isMultiFile = false → (sendFirst w.path s es).rangeQueue = [] := by simp [hmulti]
  cases es with
  | nil =>
    have hnone : (sendFirst w.path s []).request = none := hreq
    exact ⟨⟨hpend.trans hes, by simp [hnone]⟩, by simp [hnone], by simp [hnone],
      by simp [sendFirst], by simp [sendFirst], hsingle⟩
  | cons r rs =>
    have hsome : (sendFirst w.path s (r :: rs)).request = some { base := w.path, range := r } := by
      simp [sendFirst, get, hreq]
    have hqueue : (sendFirst w.path s (r :: rs)).rangeQueue = rs := by
      simp [sendFirst, get, hreq]
    refine ⟨⟨hpend.trans hes, ?_⟩, ?_, ?_, ?_, ?_, hsingle⟩
    · simp [hsome]
    · simpa [hsome] using hin r (by simp)
    · simpa [hsome] using hpos r (by simp)
    · rw [hqueue]; exact fun e he => hin e (by simp [he])
    · rw [hqueue]; exact fun e he => hpos e (by simp [he])

/-- The extents of the torrent are ranges of its files. -/
theorem extents_inFile (hmulti : w.isMultiFile = true) {a b : ℕ} :
    ∀ e ∈ extents 0 0 w.layout.sizes a b, InFile w e ∧ 0 < e.len := by
  intro e he
  obtain ⟨hpos, -, size, hsize, hle⟩ := extents_within _ _ _ _ _ e he
  refine ⟨⟨size, ?_, hle⟩, hpos⟩
  simpa [WebSeedSource.fileSizes, hmulti] using hsize

theorem fileStart_multi (hmulti : w.isMultiFile = true) :
    w.fileStart = fun i => (w.layout.sizes.take i).sum := by
  funext i
  simp [WebSeedSource.fileStart, WebSeedSource.fileSizes, hmulti]

/-- A stretch of the torrent, cut along the files. -/
theorem asked_extents {s : WebSeed} (hreq : s.request = none) {base : List Char}
    (hbase : base = w.path) (hmulti : w.isMultiFile = true) {a b : ℕ} (hab : a ≤ b)
    (hb : b ≤ w.layout.total) :
    Asked w (sendFirst base s (extents 0 0 w.layout.sizes a b)) a b := by
  refine asked_sendFirst hreq hbase (fun e he => (extents_inFile hmulti e he).1)
    (fun e he => (extents_inFile hmulti e he).2) hmulti ?_
  rw [fileStart_multi hmulti]
  exact extents_cover _ hab hb

/-- A stretch of a torrent that is one file. -/
theorem asked_get {s : WebSeed} (hreq : s.request = none) (hqueue : s.rangeQueue = [])
    {base : List Char} (hbase : base = w.path) (hsingle : w.isMultiFile = false) {a b : ℕ}
    (hab : a < b) (hb : b ≤ w.layout.total) : Asked w (s.get base ⟨0, a, b - a⟩) a b := by
  subst hbase
  have hsome : (s.get w.path ⟨0, a, b - a⟩).request =
      some { base := w.path, range := ⟨0, a, b - a⟩ } := by simp [get, hreq]
  have hnil : (s.get w.path ⟨0, a, b - a⟩).rangeQueue = [] := by simp [get, hreq, hqueue]
  refine ⟨⟨?_, ?_⟩, ?_, ?_, ?_, ?_, fun _ => hnil⟩
  · simp [pending, hsome, hnil, WebSeedSource.fileStart]
  · simp [hsome]
  · simp only [hsome, Option.mem_some_iff, forall_eq']
    exact ⟨w.layout.total, by simp [WebSeedSource.fileSizes, hsingle], by simp only; omega⟩
  · simp [hsome, hab]
  · simp [hnil]
  · simp [hnil]

/-! ## Starting and taking up a range -/

theorem sendFirst_frame (base : List Char) (s : WebSeed) (es : List Extent) :
    ∃ queue request, sendFirst base s es = { s with rangeQueue := queue, request := request } := by
  cases es with
  | nil => exact ⟨[], s.request, rfl⟩
  | cons r rs =>
    rw [sendFirst, get]
    split
    · exact ⟨rs, s.request, rfl⟩
    · exact ⟨rs, _, rfl⟩

theorem get_frame (s : WebSeed) (base : List Char) (range : Extent) :
    ∃ request, s.get base range = { s with request := request } := by
  rw [get]
  split
  · exact ⟨s.request, rfl⟩
  · exact ⟨_, rfl⟩

theorem continueCurChunk_frame (s : WebSeed) : ∃ queue request, continueCurChunk w s =
    { s with firstChunk := s.curChunk, rangeQueue := queue, request := request } := by
  rw [continueCurChunk]
  split
  · exact sendFirst_frame ..
  · obtain ⟨request, h⟩ := get_frame { s with firstChunk := s.curChunk } w.resumePath _
    exact ⟨s.rangeQueue, request, h⟩

/-- The base `continueCurChunk` starts from is the right one, or lacks the name. -/
theorem resumePath_eq_iff : w.resumePath = w.path ↔
    (w.urlPath.getLast? = some '/' → w.isUserCreated = true → w.nameSuggestion = []) := by
  rw [WebSeedSource.resumePath, WebSeedSource.path]
  by_cases hslash : w.urlPath.getLast? = some '/'
  · cases huser : w.isUserCreated with
    | false => simp [hslash]
    | true => simp [hslash, eq_comm (a := w.urlPath)]
  · simp [hslash]

theorem filePath_inj {base base' : List Char} {file : ℕ}
    (h : w.filePath base file = w.filePath base' file) : base = base' := by
  rw [WebSeedSource.filePath, WebSeedSource.filePath] at h
  split at h
  · exact List.append_cancel_right h
  · exact h

/-- Where a range of chunks ends. -/
theorem rangeLength_eq {first last : ℕ} (hle : first ≤ last) (hlast : last < w.layout.numChunks) :
    first * w.layout.chunkSize + rangeLength w.layout first last = w.layout.chunkStop last := by
  have hbound := (w.layout.chunk_bounds hlast).2
  have hmul : first * w.layout.chunkSize + (last - first) * w.layout.chunkSize =
      last * w.layout.chunkSize := by
    rw [← Nat.add_mul, Nat.add_sub_cancel' hle]
  have hsize : rangeLength w.layout first last =
      (last - first) * w.layout.chunkSize + w.layout.sizeOfChunk last := rfl
  omega

/-- A range ends behind the place where the bytes stopped. -/
theorem position_lt {s : WebSeed} (hle : s.curChunk ≤ s.lastChunk)
    (hlast : s.lastChunk < w.layout.numChunks)
    (hbytes : s.bytesOfCurChunk < w.layout.sizeOfChunk s.curChunk) :
    position w s < w.layout.chunkStop s.lastChunk := by
  have hcur := (w.layout.chunk_bounds (hle.trans_lt hlast)).2
  have hstop : w.layout.chunkStop s.curChunk ≤ w.layout.chunkStop s.lastChunk :=
    min_le_min_right _ (Nat.mul_le_mul_right _ (by omega))
  rw [position]
  omega

/-- A range is started from its first byte. -/
theorem asked_download {s : WebSeed} (hreq : s.request = none)
    (hqueue : w.isMultiFile = false → s.rangeQueue = []) {first last : ℕ} (hle : first ≤ last)
    (hlast : last < w.layout.numChunks) (henabled : s.enabled = true)
    (hfresh : ¬ (first = s.curChunk ∧ last = s.lastChunk ∧ 0 < s.bytesOfCurChunk))
    (hfit : ∀ c < w.layout.numChunks, w.layout.sizeOfChunk c < 2 ^ 32) :
    (∃ queue request, download w first last s =
        { s with firstChunk := first, lastChunk := last, curChunk := first, bytesOfCurChunk := 0,
                 rangeQueue := queue, request := request }) ∧
      Asked w (download w first last s) (first * w.layout.chunkSize)
        (w.layout.chunkStop last) := by
  have hlen := rangeLength_eq (w := w) hle hlast
  have hstop := w.layout.chunkStop_le_total last
  have hsize := w.layout.sizeOfChunk_pos last
  have hpos : first * w.layout.chunkSize < w.layout.chunkStop last := by
    have hbound := (w.layout.chunk_bounds hlast).2
    have := Nat.mul_le_mul_right w.layout.chunkSize hle
    omega
  rw [download, if_neg (by simp [henabled]), if_neg hfresh]
  cases hmulti : w.isMultiFile with
  | true =>
    simp only [if_true]
    obtain ⟨d, rfl⟩ := Nat.exists_eq_add_of_le hle
    rw [fillRanges_eq w hfit first d hlast]
    obtain ⟨queue, request, hframe⟩ := sendFirst_frame w.path
      { s with firstChunk := first, lastChunk := first + d, curChunk := first,
               bytesOfCurChunk := 0 } _
    exact ⟨⟨queue, request, hframe⟩, asked_extents (by exact hreq) rfl hmulti hpos.le hstop⟩
  | false =>
    simp only [Bool.false_eq_true, if_false]
    obtain ⟨request, hframe⟩ := get_frame
      { s with firstChunk := first, lastChunk := last, curChunk := first, bytesOfCurChunk := 0 }
      w.path ⟨0, first * w.layout.chunkSize, rangeLength w.layout first last⟩
    refine ⟨⟨s.rangeQueue, request, hframe⟩, ?_⟩
    rw [show rangeLength w.layout first last =
      w.layout.chunkStop last - first * w.layout.chunkSize by omega]
    exact asked_get (by exact hreq) (by exact hqueue hmulti) rfl hmulti hpos hstop

/-- **A range is taken up where it was left** exactly when the bytes stopped at the
border of a file and the path names the torrent. -/
theorem continueCurChunk_asked {s : WebSeed} (hreq : s.request = none)
    (hqueue : w.isMultiFile = false → s.rangeQueue = []) (hle : s.curChunk ≤ s.lastChunk)
    (hlast : s.lastChunk < w.layout.numChunks) (hsome : 0 < s.bytesOfCurChunk)
    (hbytes : s.bytesOfCurChunk < w.layout.sizeOfChunk s.curChunk)
    (hfit : ∀ c < w.layout.numChunks, w.layout.sizeOfChunk c < 2 ^ 32) :
    (Resumable w s → Asked w (continueCurChunk w s) (position w s)
      (w.layout.chunkStop s.lastChunk)) ∧
    (AsksFor w (continueCurChunk w s) (position w s) (w.layout.chunkStop s.lastChunk) →
      Resumable w s) := by
  have hlt := position_lt hle hlast hbytes
  have hstop := w.layout.chunkStop_le_total s.lastChunk
  have hlt32 := hfit s.curChunk (hle.trans_lt hlast)
  have hstart : s.curChunk * w.layout.chunkSize < position w s := by
    rw [position]
    omega
  have hne : s.bytesOfCurChunk ≠ 0 := hsome.ne'
  simp only [Resumable, hne, false_or, ← resumePath_eq_iff]
  rw [continueCurChunk]
  cases hmulti : w.isMultiFile with
  | false =>
    simp only [Bool.false_eq_true, if_false, false_implies, true_and]
    have hlen := rangeLength_eq (w := w) hle hlast
    have hpos : s.curChunk * w.layout.chunkSize + s.bytesOfCurChunk = position w s := rfl
    rw [hpos, show rangeLength w.layout s.curChunk s.lastChunk - s.bytesOfCurChunk =
      w.layout.chunkStop s.lastChunk - position w s by omega]
    refine ⟨fun hbase => ?_, fun h => ?_⟩
    · exact asked_get (by exact hreq) (by exact hqueue hmulti) hbase hmulti hlt hstop
    · exact filePath_inj (h.2 { base := w.resumePath, range := ⟨0, _, _⟩ }
        (by simp only [get, hreq]; rfl))
  | true =>
    simp only [if_true, true_implies]
    obtain ⟨d, hd⟩ := Nat.exists_eq_add_of_le hle
    have hfill := fillRanges_eq w hfit s.curChunk d (by omega)
    rw [← hd] at hfill
    rw [hfill]
    constructor
    · -- the ranges in front of the border are passed over
      rintro ⟨⟨i, hi⟩, hbase⟩
      have hsplit := extents_append w.layout.sizes 0 0 (s.curChunk * w.layout.chunkSize)
        (position w s) (w.layout.chunkStop s.lastChunk) hstart.le hlt.le ⟨i, by omega⟩
      have hsum := extents_sum w.layout.sizes hstart.le (hlt.le.trans hstop)
      have hbytes' : position w s - s.curChunk * w.layout.chunkSize = s.bytesOfCurChunk := by
        rw [position]
        omega
      rw [hsplit, skipRanges_append (by omega) _ _ _
        (fun e he => (extents_inFile hmulti e he).2) (by rw [hsum, hbytes', Nat.zero_add])]
      exact asked_extents (by exact hreq) hbase hmulti hlt.le hstop
    · -- the range that is asked for starts a file
      rintro ⟨hpend, hnames⟩
      have hsuffix := skipRanges_suffix s.bytesOfCurChunk (extents 0 0 w.layout.sizes
        (s.curChunk * w.layout.chunkSize) (w.layout.chunkStop s.lastChunk)) 0
      rw [pending_sendFirst (w := w) (by exact hreq) w.resumePath] at hpend
      cases hrest : skipRanges s.bytesOfCurChunk 0 (extents 0 0 w.layout.sizes
          (s.curChunk * w.layout.chunkSize) (w.layout.chunkStop s.lastChunk)) with
      | nil =>
        rw [hrest] at hpend
        have := congrArg List.length hpend
        simp only [List.flatMap_nil, List.length_nil, List.length_range'] at this
        omega
      | cons y ys =>
        rw [hrest] at hpend hnames hsuffix
        have hy := hsuffix.subset (List.mem_cons_self (a := y) (l := ys))
        have hypos := (extents_inFile hmulti y hy).2
        have hhead : w.fileStart y.file + y.off = position w s := by
          have := congrArg List.head? hpend
          rw [List.flatMap_cons, positions, List.head?_append, List.head?_range',
            List.head?_range', if_neg (by omega), if_neg (by omega)] at this
          simpa using this
        have hfile := extents_start w.fileStart w.layout.sizes 0 0 _ _ (by
          intro i _
          rw [fileStart_multi hmulti, Nat.zero_add, Nat.zero_add]) y hy
        refine ⟨⟨y.file, ?_⟩, filePath_inj (hnames { base := w.resumePath, range := y } ?_)⟩
        · rw [fileStart_multi hmulti] at hhead hfile
          dsimp only at hhead hfile
          omega
        · simp [sendFirst, get, hreq]

/-! ## What arrives is written where it belongs -/

variable (w T) in
/-- All writes are right. -/
def AllRight (s : WebSeed) : Prop := ∀ x ∈ s.written, Right w T x

variable (w) in
/-- The next byte belongs at `p`: in the current chunk, or behind the range. -/
def At (s : WebSeed) (p : ℕ) : Prop :=
  s.curChunk ≤ s.lastChunk ∧ s.bytesOfCurChunk < w.layout.sizeOfChunk s.curChunk ∧
      p = position w s ∨
    s.curChunk = s.lastChunk + 1 ∧ p = w.layout.chunkStop s.lastChunk

variable (w) in
/-- The range is given up or done. -/
structure Idle (s : WebSeed) : Prop where
  first : s.firstChunk = w.layout.numChunks + 1
  last : s.lastChunk = w.layout.numChunks + 1
  request : s.request = none
  single : w.isMultiFile = false → s.rangeQueue = []

variable (w) in
/-- What a round of `handleData` leaves: the data is taken, or the web seed is
disabled. -/
inductive Took (s s' : WebSeed) (p : ℕ) : Prop
  | on (enabled : s'.enabled = true) (request : s'.request = s.request)
      (queue : s'.rangeQueue = s.rangeQueue) (first : s'.firstChunk = s.firstChunk)
      (last : s'.lastChunk = s.lastChunk) (place : At w s' p)
  | off (enabled : s'.enabled = false) (queue : s'.rangeQueue = s.rangeQueue)
      (first : s'.firstChunk = w.layout.numChunks + 1)
      (last : s'.lastChunk = w.layout.numChunks + 1) (request : s'.request = none)

/-- Bytes that follow the place where the bytes stopped are written where they belong. -/
theorem allRight_putBytes {s : WebSeed} (h : AllRight w T s) (v : ChunkView) (n : ℕ) :
    AllRight w T (putBytes v s ((List.range' (position w s) n).map T)) := by
  intro x hx
  simp only [putBytes] at hx
  split at hx
  · exact h x hx
  · rcases List.mem_append.1 hx with hx | hx
    · exact h x hx
    · obtain rfl := List.mem_singleton.1 hx
      simp only [Right, List.length_map, List.length_range', position]

/-- A full chunk is left for the next one, or the web seed is disabled. -/
theorem took_chunkFull (v : ChunkView) {s : WebSeed} (henabled : s.enabled = true)
    (hle : s.curChunk ≤ s.lastChunk) (hlast : s.lastChunk < w.layout.numChunks) :
    Took w s (chunkFull w.layout v s) (w.layout.chunkStop s.curChunk) ∧
      (chunkFull w.layout v s).written = s.written := by
  have hn := w.layout.numChunks_lt
  have hsucc : u32 (s.curChunk + 1) = s.curChunk + 1 := u32_of_lt (by omega)
  simp only [chunkFull, hsucc]
  split
  · exact ⟨.off rfl rfl rfl rfl rfl, rfl⟩
  · refine ⟨.on henabled rfl rfl rfl rfl ?_, rfl⟩
    rcases hle.lt_or_eq with hlt | heq
    · refine .inl ⟨hlt, w.layout.sizeOfChunk_pos _, ?_⟩
      rw [position, Nat.add_zero]
      exact chunkStop_succ w.layout (by omega)
    · exact .inr ⟨by simp [heq], by rw [heq]⟩

theorem range'_map_take (p n m : ℕ) (h : m ≤ n) :
    ((List.range' p n).map T).take m = (List.range' p m).map T := by
  rw [← List.map_take, List.take_range'_of_length_ge h]

theorem range'_map_drop (p n m : ℕ) :
    ((List.range' p n).map T).drop m = (List.range' (p + m) (n - m)).map T := by
  rw [← List.map_drop, List.drop_range', Nat.mul_one]

/-- **The loop of `handleData`.**  The bytes that are due are all written where they
belong. -/
theorem handleLoop_spec (v : ChunkView)
    (hfit : ∀ c < w.layout.numChunks, w.layout.sizeOfChunk c < 2 ^ 32) :
    ∀ (fuel n p : ℕ) (s : WebSeed), n ≤ fuel → s.enabled = true →
      s.lastChunk < w.layout.numChunks → At w s p → p + n ≤ w.layout.chunkStop s.lastChunk →
        AllRight w T s →
          AllRight w T (handleLoop w.layout v fuel ((List.range' p n).map T) s) ∧
            Took w s (handleLoop w.layout v fuel ((List.range' p n).map T) s) (p + n) := by
  intro fuel
  induction fuel with
  | zero =>
    intro n p s hn henabled _ hat _ hright
    obtain rfl : n = 0 := by omega
    exact ⟨hright, .on henabled rfl rfl rfl rfl hat⟩
  | succ fuel ih =>
    intro n p s hn henabled hlast hat hstop hright
    rcases Nat.eq_zero_or_pos n with rfl | hpos
    · rw [handleLoop, if_pos (.inl rfl)]
      exact ⟨hright, .on henabled rfl rfl rfl rfl hat⟩
    · rcases hat with ⟨hle, hbytes, rfl⟩ | ⟨-, rfl⟩
      · have hnil : (List.range' (position w s) n).map T ≠ [] := by
          simpa using hpos.ne'
        have hsize32 := hfit s.curChunk (hle.trans_lt hlast)
        have hsize : w.layout.getSize s.curChunk = w.layout.sizeOfChunk s.curChunk :=
          u32_of_lt hsize32
        have hbound := (w.layout.chunk_bounds (hle.trans_lt hlast)).2
        rw [handleLoop, if_neg (by simp only [hnil, false_or]; omega)]
        simp only [hsize, sub32_of_le hbytes.le hsize32, List.length_map, List.length_range']
        obtain ⟨m, hm⟩ : ∃ m, m = min (w.layout.sizeOfChunk s.curChunk - s.bytesOfCurChunk) n :=
          ⟨_, rfl⟩
        rw [← hm, range'_map_take _ _ _ (by omega), range'_map_drop]
        have hput := allRight_putBytes hright v m
        obtain ⟨s₁, hs₁⟩ : ∃ s₁, s₁ = putBytes v s ((List.range' (position w s) m).map T) :=
          ⟨_, rfl⟩
        have hbytes₁ : s₁.bytesOfCurChunk = s.bytesOfCurChunk + m := by
          rw [hs₁]
          simp only [putBytes, List.length_map, List.length_range']
          exact u32_of_lt (by omega)
        rw [← hs₁] at hput ⊢
        have hframe : s₁.enabled = s.enabled ∧ s₁.curChunk = s.curChunk ∧
            s₁.lastChunk = s.lastChunk ∧ s₁.firstChunk = s.firstChunk ∧
            s₁.request = s.request ∧ s₁.rangeQueue = s.rangeQueue := by
          subst hs₁
          exact ⟨rfl, rfl, rfl, rfl, rfl, rfl⟩
        obtain ⟨henabled₁, hcur₁, hlast₁, hfirst₁, hreq₁, hqueue₁⟩ := hframe
        -- the round leaves the chunk, or stays in it
        have hround : ∃ s₂, s₂ = (if s₁.bytesOfCurChunk = w.layout.sizeOfChunk s.curChunk then
            chunkFull w.layout v s₁ else s₁) ∧ AllRight w T s₂ ∧
              Took w s₁ s₂ (position w s + m) := by
          refine ⟨_, rfl, ?_⟩
          split
          · rename_i hfull
            obtain ⟨htook, hwritten⟩ := took_chunkFull (w := w) v (s := s₁) (by rw [henabled₁, henabled])
              (by omega) (by omega)
            have hend : w.layout.chunkStop s₁.curChunk = position w s + m := by
              rw [hcur₁, position]
              omega
            rw [hend] at htook
            exact ⟨fun x hx => hput x (hwritten ▸ hx), htook⟩
          · rename_i hpart
            refine ⟨hput, .on (by rw [henabled₁, henabled]) rfl rfl rfl rfl (.inl ⟨by omega, ?_, ?_⟩)⟩
            · rw [hcur₁]
              omega
            · rw [position, position, hcur₁, hbytes₁]
              omega
        obtain ⟨s₂, hs₂, hright₂, htook⟩ := hround
        rw [← hs₂]
        cases htook with
        | off hoff hqueue hfirst hlast' hreq =>
          rw [if_neg (by simp [hoff])]
          exact ⟨hright₂, .off hoff (hqueue.trans hqueue₁) hfirst hlast' hreq⟩
        | on hon hreq hqueue hfirst hlast' hplace =>
          have hmpos : 0 < m := by omega
          obtain ⟨hright', htook'⟩ := ih (n - m) (position w s + m) s₂ (by omega) hon (by omega)
            hplace (by rw [hlast', hlast₁]; omega) hright₂
          rw [if_pos hon]
          refine ⟨hright', ?_⟩
          rw [show position w s + m + (n - m) = position w s + n by omega] at htook'
          cases htook' with
          | off hoff hqueue' hfirst' hlast'' hreq' =>
            exact .off hoff (hqueue'.trans (hqueue.trans hqueue₁)) hfirst' hlast'' hreq'
          | on hon' hreq' hqueue' hfirst' hlast'' hplace' =>
            exact .on hon' (hreq'.trans (hreq.trans hreq₁)) (hqueue'.trans (hqueue.trans hqueue₁))
              (hfirst'.trans (hfirst.trans hfirst₁)) (hlast''.trans (hlast'.trans hlast₁)) hplace'
      · omega

/-- What a request still brings stands in front of what is pending. -/
theorem pending_cons {s : WebSeed} {g : HttpGet} (hg : s.request = some g) :
    pending w s = List.range' (w.fileStart g.range.file + g.range.off + g.dataReceived)
      (g.range.len - g.dataReceived) ++ s.rangeQueue.flatMap (positions w.fileStart) := by
  simp only [pending, hg]

/-- **What `getData` hands over** are the bytes that are due, and the rest stays asked
for. -/
theorem getData_spec (hserve : Serves w T server) {s s' : WebSeed} {a b size : ℕ}
    {tmp : List UInt8} (h : Asked w s a b) (hget : getData w server size s = some (tmp, s')) :
    ∃ n, 0 < n ∧ n ≤ size ∧ a + n ≤ b ∧ tmp = (List.range' a n).map T ∧
      (∃ request, s' = { s with request := request }) ∧ Asked w s' (a + n) b := by
  rw [getData] at hget
  cases hg : s.request with
  | none => simp [hg] at hget
  | some g =>
    simp only [hg] at hget
    split at hget
    · cases hget
    · rename_i hn
      obtain ⟨n, hmin⟩ : ∃ n, n = min size (g.range.len - g.dataReceived) := ⟨_, rfl⟩
      rw [← hmin] at hget hn
      obtain ⟨rfl, rfl⟩ := Prod.mk.inj (Option.some.inj hget)
      have hpend := h.asks.1
      rw [pending_cons hg] at hpend
      have hname := h.asks.2 g (by simp [hg])
      obtain ⟨fileSize, hfile, hin⟩ := h.inFile g (by simp [hg])
      have hlen := congrArg List.length hpend
      rw [List.length_append, List.length_range', List.length_range'] at hlen
      have hhead : w.fileStart g.range.file + g.range.off + g.dataReceived = a := by
        have := congrArg List.head? hpend
        rw [List.head?_append, List.head?_range', List.head?_range', if_neg (by omega),
          if_neg (by omega)] at this
        simpa using this
      refine ⟨n, by omega, by omega, by omega, ?_, ⟨_, rfl⟩, ?_⟩
      · rw [hname]
        refine List.ext_getElem (by simp) fun i hi _ => ?_
        simp only [List.length_map, List.length_range'] at hi
        simp only [List.getElem_map, List.getElem_range', Nat.one_mul]
        rw [hserve _ fileSize hfile _ (by omega)]
        congr 1
        omega
      · -- what is pending loses its first `n` positions
        have hdrop := congrArg (List.drop n) hpend
        rw [List.drop_append_of_le_length (by rw [List.length_range']; omega), List.drop_range',
          List.drop_range', Nat.mul_one] at hdrop
        rw [show b - a - n = b - (a + n) by omega] at hdrop
        split
        · rename_i hdone
          have hnone : g.range.len - g.dataReceived - n = 0 := by omega
          rw [hnone, List.range'_zero, List.nil_append] at hdrop
          exact ⟨⟨by simpa only [pending, List.nil_append] using hdrop, by simp⟩, by simp, by simp,
            h.queueInFile, h.queuePos, h.single⟩
        · rename_i hmore
          refine ⟨⟨?_, ?_⟩, ?_, ?_, h.queueInFile, h.queuePos, h.single⟩
          · rw [pending_cons (g := { g with dataReceived := g.dataReceived + n }) rfl, ← hdrop]
            simp only [Nat.sub_sub, Nat.add_assoc]
          · simpa using hname
          · simp only [Option.mem_some_iff, forall_eq']
            exact ⟨fileSize, hfile, hin⟩
          · simp only [Option.mem_some_iff, forall_eq']
            omega

variable (w) in
/-- A range is under way, and its next byte belongs at `p`. -/
structure Tracks (s : WebSeed) (p : ℕ) : Prop where
  enabled : s.enabled = true
  busy : s.Busy w.layout
  last : s.lastChunk < w.layout.numChunks
  place : At w s p
  asked : Asked w s p (w.layout.chunkStop s.lastChunk)

/-- **The loop of `readData`.**  The range goes on behind the bytes that have come, or
the web seed is disabled. -/
theorem readLoop_spec (hserve : Serves w T server) (v : ChunkView)
    (hfit : ∀ c < w.layout.numChunks, w.layout.sizeOfChunk c < 2 ^ 32) :
    ∀ (sizes : List ℕ) (p : ℕ) (s : WebSeed), (∀ k ∈ sizes, k < 2 ^ 32) → Tracks w s p →
      AllRight w T s → AllRight w T (readLoop w server v sizes s) ∧
        ((∃ p', Tracks w (readLoop w server v sizes s) p') ∨
          (readLoop w server v sizes s).enabled = false ∧
            Idle w (readLoop w server v sizes s)) := by
  intro sizes
  induction sizes with
  | nil => exact fun p s _ htracks hright => ⟨hright, .inl ⟨p, htracks⟩⟩
  | cons size sizes ih =>
    intro p s hsizes htracks hright
    rw [readLoop]
    cases hget : getData w server size s with
    | none => exact ⟨hright, .inl ⟨p, htracks⟩⟩
    | some r =>
      obtain ⟨tmp, s₁⟩ := r
      obtain ⟨n, hpos, hsize, hstop, rfl, ⟨request, rfl⟩, hasked⟩ :=
        getData_spec hserve htracks.asked hget
      have hsize32 := hsizes size (by simp)
      obtain ⟨s₁, hs₁⟩ : ∃ s₁ : WebSeed, s₁ = { s with request := request } := ⟨_, rfl⟩
      have hat : At w s₁ p := by subst hs₁; exact htracks.place
      have hlast₁ : s₁.lastChunk = s.lastChunk := by rw [hs₁]
      have hfirst₁ : s₁.firstChunk = s.firstChunk := by rw [hs₁]
      have henabled₁ : s₁.enabled = true := by rw [hs₁]; exact htracks.enabled
      have hright₁ : AllRight w T s₁ := by subst hs₁; exact hright
      rw [← hs₁] at hasked
      simp only [← hs₁]
      have hle : ¬ s.lastChunk < s.curChunk := by
        rcases htracks.place with ⟨hle, -, -⟩ | ⟨-, rfl⟩ <;> omega
      rw [if_neg hle]
      obtain ⟨s₂, hs₂⟩ : ∃ s₂, s₂ = handleData w.layout v ((List.range' p n).map T) s₁ := ⟨_, rfl⟩
      have hspec := handleLoop_spec (T := T) v hfit n n p s₁ le_rfl henabled₁
        (by rw [hlast₁]; exact htracks.last) hat (by rw [hlast₁]; exact hstop) hright₁
      rw [handleData, List.length_map, List.length_range', u32_of_lt (by omega),
        List.take_of_length_le (by simp)] at hs₂
      rw [← hs₂] at hspec
      rw [handleData, List.length_map, List.length_range', u32_of_lt (by omega),
        List.take_of_length_le (by simp), ← hs₂]
      obtain ⟨hright₂, htook⟩ := hspec
      cases htook with
      | off hoff hqueue hfirst hlast hreq =>
        rw [if_neg (by simp [hoff])]
        exact ⟨hright₂, .inr ⟨hoff, hfirst, hlast, hreq, fun hm => by
          rw [hqueue]; exact hasked.single hm⟩⟩
      | on hon hreq hqueue hfirst hlast hplace =>
        rw [if_pos hon]
        refine ih (p + n) s₂ (fun k hk => hsizes k (by simp [hk])) ⟨hon, ?_, ?_, hplace, ?_⟩ hright₂
        · rw [Busy, hfirst, hfirst₁]
          exact htracks.busy
        · rw [hlast, hlast₁]
          exact htracks.last
        · rw [hlast, hlast₁]
          exact hasked.congr hreq hqueue

variable (w) in
/-- What `readData` leaves. -/
inductive Read (s : WebSeed) : Prop
  | tracks (p : ℕ) (tracks : Tracks w s p) (le : s.curChunk ≤ s.lastChunk)
  | done (enabled : s.enabled = true) (idle : Idle w s) (queue : s.rangeQueue = [])
  | disabled (enabled : s.enabled = false) (idle : Idle w s)

theorem readData_spec (hserve : Serves w T server) (v : ChunkView)
    (hfit : ∀ c < w.layout.numChunks, w.layout.sizeOfChunk c < 2 ^ 32) {sizes : List ℕ} {p : ℕ}
    {s : WebSeed} (hsizes : ∀ k ∈ sizes, k < 2 ^ 32) (htracks : Tracks w s p)
    (hright : AllRight w T s) :
    AllRight w T (readData w server v sizes s) ∧ Read w (readData w server v sizes s) := by
  obtain ⟨hright', hcases⟩ := readLoop_spec hserve v hfit sizes p s hsizes htracks hright
  rw [readData]
  obtain ⟨s₁, hs₁⟩ : ∃ s₁, s₁ = readLoop w server v sizes s := ⟨_, rfl⟩
  rw [← hs₁] at hright' hcases
  simp only [← hs₁]
  rcases hcases with ⟨p', htracks'⟩ | ⟨hoff, hidle⟩
  · by_cases hle : s₁.curChunk ≤ s₁.lastChunk
    · rw [if_neg (by omega)]
      exact ⟨hright', .tracks p' htracks' hle⟩
    · -- all of the range is there: no request is left
      rw [if_pos ⟨htracks'.enabled, by omega⟩]
      obtain ⟨hle', -, -⟩ | ⟨-, rfl⟩ := htracks'.place
      · omega
      · have hasked := htracks'.asked
        have hnone := hasked.request_none
        have hqueue : s₁.rangeQueue = [] := by
          have hpend := hasked.asks.1
          rw [pending, hnone, Nat.sub_self, List.range'_zero, List.nil_append] at hpend
          rw [List.eq_nil_iff_forall_not_mem]
          intro r hr
          have hpos := hasked.queuePos r hr
          have hmem : w.fileStart r.file + r.off ∈
              s₁.rangeQueue.flatMap (positions w.fileStart) :=
            List.mem_flatMap.2 ⟨r, hr, by simp [positions, hpos]⟩
          rw [hpend] at hmem
          simp at hmem
        exact ⟨hright', .done htracks'.enabled ⟨rfl, rfl, hnone, fun _ => hqueue⟩ hqueue⟩
  · rw [if_neg (by simp [hoff])]
    exact ⟨hright', .disabled hoff hidle⟩

/-! ## Every event -/

/-- **A closed connection.**  Nothing but the request and the queue changes, and the
missing bytes are asked for exactly when the range can be taken up. -/
theorem retry_spec (hfit : ∀ c < w.layout.numChunks, w.layout.sizeOfChunk c < 2 ^ 32) {p : ℕ}
    {s : WebSeed} (htracks : Tracks w s p) (hle : s.curChunk ≤ s.lastChunk) :
    (∃ queue request, download w s.curChunk s.lastChunk { s with request := none } =
      { s with firstChunk := s.curChunk, rangeQueue := queue, request := request }) ∧
    (Resumable w s → Asked w (download w s.curChunk s.lastChunk { s with request := none })
      (position w s) (w.layout.chunkStop s.lastChunk)) ∧
    (AsksFor w (download w s.curChunk s.lastChunk { s with request := none }) (position w s)
      (w.layout.chunkStop s.lastChunk) → Resumable w s) := by
  have hbytes : s.bytesOfCurChunk < w.layout.sizeOfChunk s.curChunk := by
    rcases htracks.place with ⟨-, hbytes, -⟩ | ⟨hcur, -⟩
    · exact hbytes
    · omega
  rcases Nat.eq_zero_or_pos s.bytesOfCurChunk with hzero | hpos
  · -- nothing of the chunk is there: the rest of the range is started anew
    obtain ⟨⟨queue, request, hframe⟩, hasked⟩ := asked_download (w := w)
      (s := { s with request := none }) rfl htracks.asked.single hle htracks.last htracks.enabled
      (by simp [hzero]) hfit
    have hposition : position w s = s.curChunk * w.layout.chunkSize := by
      rw [position, hzero, Nat.add_zero]
    refine ⟨⟨queue, request, ?_⟩, fun _ => ?_, fun _ => .inl hzero⟩
    · rw [hframe, ← hzero]
    · rw [hposition]
      exact hasked
  · have hcontinue : download w s.curChunk s.lastChunk { s with request := none } =
        continueCurChunk w { s with request := none } := by
      rw [download, if_neg (by simp [htracks.enabled]), if_pos ⟨rfl, rfl, hpos⟩]
    have hasked := continueCurChunk_asked (w := w) (s := { s with request := none }) rfl
      htracks.asked.single hle htracks.last hpos hbytes hfit
    rw [hcontinue]
    exact ⟨continueCurChunk_frame { s with request := none }, hasked⟩

variable (w T) in
/-- What holds between the events. -/
structure Inv (s : WebSeed) : Prop where
  right : AllRight w T s
  cases : Idle w s ∨ ∃ p, Tracks w s p ∧ s.curChunk ≤ s.lastChunk

theorem Idle.not_busy {s : WebSeed} (h : Idle w s) : ¬ s.Busy w.layout := by
  rw [Busy, h.first]
  omega

/-- A range is the same while only the connection changes. -/
theorem Tracks.of_asked {s s' : WebSeed} {p : ℕ} (h : Tracks w s p)
    (hle : s.curChunk ≤ s.lastChunk) {first : ℕ} (hfirst : first < w.layout.numChunks)
    {queue : List Extent} {request : Option HttpGet}
    (hs' : s' = { s with firstChunk := first, rangeQueue := queue, request := request })
    (hasked : Asked w s' (position w s) (w.layout.chunkStop s.lastChunk)) :
    Tracks w s' (position w s) := by
  have hbytes : s.bytesOfCurChunk < w.layout.sizeOfChunk s.curChunk := by
    rcases h.place with ⟨-, hbytes, -⟩ | ⟨hcur, -⟩
    · exact hbytes
    · omega
  subst hs'
  exact ⟨h.enabled, hfirst, h.last, .inl ⟨hle, hbytes, rfl⟩, hasked⟩

/-- The next range of the queue is asked for. -/
theorem asked_next {s : WebSeed} {a b : ℕ} (h : Asked w s a b) {r : Extent} {rs : List Extent}
    (hqueue : s.rangeQueue = r :: rs) (hreq : s.request = none) :
    Asked w (get { s with rangeQueue := rs } w.path r) a b := by
  have hget : get { s with rangeQueue := rs } w.path r =
      { s with rangeQueue := rs, request := some { base := w.path, range := r } } := by
    simp only [get, hreq]
  have hpend := h.asks.1
  rw [pending, hreq, hqueue, List.nil_append, List.flatMap_cons] at hpend
  rw [hget]
  refine ⟨⟨?_, by simp⟩, ?_, ?_, ?_, ?_, fun hm => ?_⟩
  · simpa only [pending, positions, Nat.add_zero, Nat.sub_zero] using hpend
  · simpa using h.queueInFile r (by simp [hqueue])
  · simpa using h.queuePos r (by simp [hqueue])
  · exact fun e he => h.queueInFile e (by simp only at he; simp [hqueue, he])
  · exact fun e he => h.queuePos e (by simp only at he; simp [hqueue, he])
  · have := h.single hm
    rw [hqueue] at this
    cases this

/-- **What follows from the state of the connection.** -/
theorem lookAt_spec (hfit : ∀ c < w.layout.numChunks, w.layout.sizeOfChunk c < 2 ^ 32)
    {s : WebSeed} (hright : AllRight w T s) (hread : Read w s) (conn : ConnState) :
    AllRight w T (lookAt w conn s) ∧
    ((conn = .closed → s.Busy w.layout → Resumable w s) → Inv w T (lookAt w conn s)) ∧
    (s.Busy w.layout → (AsksFor w (lookAt w .closed s) (position w s)
      (w.layout.chunkStop s.lastChunk) ↔ Resumable w s)) := by
  cases hread with
  | disabled hoff hidle =>
    have hsame : ∀ conn, lookAt w conn s = s := fun conn => if_pos hoff
    rw [hsame]
    exact ⟨hright, fun _ => ⟨hright, .inl hidle⟩, fun hbusy => absurd hbusy hidle.not_busy⟩
  | done hon hidle hqueue =>
    have hidle' : Idle w (lookAt w conn s) ∧ (lookAt w conn s).written = s.written := by
      rw [lookAt.eq_def, if_neg (by simp [hon])]
      cases conn with
      | error => exact ⟨⟨rfl, rfl, rfl, hidle.single⟩, rfl⟩
      | closed =>
        have hlast := hidle.last
        dsimp only
        rw [if_neg (by omega)]
        exact ⟨⟨hidle.first, hidle.last, rfl, hidle.single⟩, rfl⟩
      | ok =>
        simp only [hqueue]
        exact ⟨hidle, trivial⟩
    have hright' : AllRight w T (lookAt w conn s) := by
      rw [AllRight, hidle'.2]
      exact hright
    exact ⟨hright', fun _ => ⟨hright', .inl hidle'.1⟩, fun hbusy => absurd hbusy hidle.not_busy⟩
  | tracks p htracks hle =>
    obtain ⟨⟨queue, request, hframe⟩, hasked, hback⟩ := retry_spec hfit htracks hle
    have hclosed : lookAt w .closed s =
        download w s.curChunk s.lastChunk { s with request := none } := by
      rw [lookAt, if_neg (by simp [htracks.enabled])]
      exact if_pos htracks.last
    have hposition : position w s = p := by
      rcases htracks.place with ⟨-, -, rfl⟩ | ⟨hcur, -⟩
      · rfl
      · omega
    refine ⟨?_, fun hres => ?_, fun _ => ?_⟩
    · cases conn with
      | error =>
        rw [lookAt, if_neg (by simp [htracks.enabled])]
        exact hright
      | closed =>
        rw [hclosed, hframe]
        exact hright
      | ok =>
        rw [lookAt, if_neg (by simp [htracks.enabled])]
        split
        · obtain ⟨request', hget⟩ := get_frame { s with rangeQueue := _ } w.path _
          rw [hget]
          exact hright
        · exact hright
    · cases conn with
      | error =>
        rw [lookAt, if_neg (by simp [htracks.enabled])]
        exact ⟨hright, .inl ⟨rfl, rfl, rfl, htracks.asked.single⟩⟩
      | closed =>
        have hasked' := hasked (hres rfl htracks.busy)
        rw [hclosed]
        refine ⟨by rw [AllRight, hframe]; exact hright, .inr ⟨position w s,
          htracks.of_asked hle (hle.trans_lt htracks.last) hframe hasked', ?_⟩⟩
        rw [hframe]
        exact hle
      | ok =>
        rw [lookAt, if_neg (by simp [htracks.enabled])]
        split
        · rename_i r rs hq hnone
          have hnext := asked_next htracks.asked hq hnone
          obtain ⟨request', hget⟩ := get_frame { s with rangeQueue := rs } w.path r
          rw [← hposition] at hnext
          refine ⟨by rw [AllRight, hget]; exact hright, .inr ⟨position w s,
            htracks.of_asked hle htracks.busy hget hnext, ?_⟩⟩
          rw [hget]
          exact hle
        · exact ⟨hright, .inr ⟨p, htracks, hle⟩⟩
    · rw [hclosed]
      exact ⟨hback, fun hres => (hasked hres).asks⟩

/-- **One event.**  It is lawful exactly when it is closed well, and then the invariant
is kept. -/
theorem step_spec (hserve : Serves w T server)
    (hfit : ∀ c < w.layout.numChunks, w.layout.sizeOfChunk c < 2 ^ 32) {s : WebSeed}
    (hinv : Inv w T s) {e : Event} (hfits : e.Fits) :
    (ClosedWell w server s e → Inv w T (step w server s e)) ∧
      (Lawful w T server s e ↔ ClosedWell w server s e) := by
  obtain ⟨hright, hcases⟩ := hinv
  cases e with
  | download first last =>
    have hstep : Inv w T (step w server s (.download first last)) := by
      rw [step]
      split
      · exact ⟨hright, hcases⟩
      · rename_i hnot
        simp only [not_or, not_lt, not_le] at hnot
        obtain ⟨hbusy, hle, hlast⟩ := hnot
        obtain hidle | ⟨p, htracks, -⟩ := hcases
        · cases hon : s.enabled with
          | false =>
            rw [download, if_pos hon]
            exact ⟨hright, .inl hidle⟩
          | true =>
            have hidleLast := hidle.last
            obtain ⟨⟨queue, request, hframe⟩, hasked⟩ := asked_download (w := w) hidle.request
              hidle.single hle hlast hon (by omega) hfit
            obtain ⟨s', hs'⟩ : ∃ s', s' = download w first last s := ⟨_, rfl⟩
            rw [← hs'] at hframe hasked ⊢
            subst hframe
            exact ⟨hright, .inr ⟨first * w.layout.chunkSize, ⟨hon, hle.trans_lt hlast, hlast,
              .inl ⟨hle, w.layout.sizeOfChunk_pos first, rfl⟩, hasked⟩, hle⟩⟩
        · exact absurd htracks.busy hbusy
    exact ⟨fun _ => hstep, ⟨fun _ => trivial, fun _ => ⟨hstep.right, trivial⟩⟩⟩
  | reset =>
    have hsingle : w.isMultiFile = false → s.rangeQueue = [] := by
      obtain hidle | ⟨p, htracks, -⟩ := hcases
      · exact hidle.single
      · exact htracks.asked.single
    have hstep : Inv w T (step w server s .reset) := ⟨hright, .inl ⟨rfl, rfl, rfl, hsingle⟩⟩
    exact ⟨fun _ => hstep, ⟨fun _ => trivial, fun _ => ⟨hright, trivial⟩⟩⟩
  | setEnabled on =>
    have hstep : Inv w T (step w server s (.setEnabled on)) := by
      cases on with
      | false =>
        refine ⟨hright, .inl ⟨rfl, rfl, rfl, ?_⟩⟩
        obtain hidle | ⟨p, htracks, -⟩ := hcases
        · exact hidle.single
        · exact htracks.asked.single
      | true =>
        refine ⟨hright, hcases.imp (fun h => ⟨h.first, h.last, h.request, h.single⟩) ?_⟩
        rintro ⟨p, h, hle⟩
        exact ⟨p, ⟨rfl, h.busy, h.last, h.place, h.asked.congr rfl rfl⟩, hle⟩
    exact ⟨fun _ => hstep, ⟨fun _ => trivial, fun _ => ⟨hstep.right, trivial⟩⟩⟩
  | update v sizes conn =>
    by_cases hbusy : s.Busy w.layout
    · have hstep : step w server s (.update v sizes conn) =
          lookAt w conn (readData w server v sizes s) := if_pos hbusy
      obtain hidle | ⟨p, htracks, hle⟩ := hcases
      · exact absurd hbusy hidle.not_busy
      · obtain ⟨hright', hread⟩ := readData_spec hserve v hfit hfits htracks hright
        obtain ⟨hallRight, hkeeps, hasks⟩ := lookAt_spec hfit hright' hread conn
        rw [Lawful, hstep]
        cases conn with
        | ok => exact ⟨fun _ => hkeeps (by simp), ⟨fun _ => trivial, fun _ => ⟨hallRight, trivial⟩⟩⟩
        | error =>
          exact ⟨fun _ => hkeeps (by simp), ⟨fun _ => trivial, fun _ => ⟨hallRight, trivial⟩⟩⟩
        | closed =>
          refine ⟨fun h => hkeeps fun _ hbusy' => h hbusy hbusy', ?_⟩
          simp only [AsksAgain, ClosedWell, hstep]
          constructor
          · exact fun h hb hb' => (hasks hb').1 (h.2 hb hb')
          · exact fun h => ⟨hallRight, fun hb hb' => (hasks hb').2 (h hb hb')⟩
    · have hstep : step w server s (.update v sizes conn) = s := if_neg hbusy
      rw [Lawful, hstep]
      have hvoid : AsksAgain w server s (.update v sizes conn) := by
        cases conn with
        | closed => exact fun h => absurd h hbusy
        | ok => trivial
        | error => trivial
      have hvoid' : ClosedWell w server s (.update v sizes conn) := by
        cases conn with
        | closed => exact fun h => absurd h hbusy
        | ok => trivial
        | error => trivial
      exact ⟨fun _ => ⟨hright, hcases⟩, ⟨fun _ => hvoid', fun _ => ⟨hright, hvoid⟩⟩⟩

variable (w T server) in
/-- **A web seed puts every byte in its place, and every retry asks for the missing
bytes, in exactly the runs in which every connection is closed well**: nothing of the
current chunk is there, or the bytes stopped at the border of a file. -/
theorem transfer_iff (hserve : Serves w T server)
    (hfit : ∀ c < w.layout.numChunks, w.layout.sizeOfChunk c < 2 ^ 32) (bytes : ℕ)
    (es : List Event) (hfits : ∀ e ∈ es, e.Fits) :
    Runs.AllSteps (step w server) (Lawful w T server) (new w.layout bytes) es ↔
      Runs.AllSteps (step w server) (ClosedWell w server) (new w.layout bytes) es := by
  have hnew : Inv w T (new w.layout bytes) :=
    ⟨fun x hx => absurd hx List.not_mem_nil, .inl ⟨rfl, rfl, rfl, fun _ => rfl⟩⟩
  have hall : Runs.AllSteps (step w server) (fun _ e => e.Fits) (new w.layout bytes) es :=
    Runs.allSteps_of_mem fun e he _ => hfits e he
  have hiff := @Runs.allSteps_iff_of_invariant _ _ (step w server)
    (fun s e => e.Fits ∧ ClosedWell w server s e) _ (fun s e => e.Fits ∧ Lawful w T server s e)
    (fun s e hs hok => (step_spec hserve hfit hs hok.1).1 hok.2)
    (fun s e hs => and_congr_right fun h => (step_spec hserve hfit hs h).2) es _ hnew
  rw [Runs.allSteps_and, Runs.allSteps_and] at hiff
  exact ⟨fun h => (hiff.1 ⟨hall, h⟩).2, fun h => (hiff.2 ⟨hall, h⟩).2⟩

/-! ## A connection cut inside a file -/

theorem fourAndFour_total : [4, 4].sum < 2 ^ 64 := by decide

theorem fourAndFour_count : [4, 4].length < 2 ^ 31 := by decide

/-- Two files of four bytes in one chunk. -/
def twoFiles : WebSeedSource where
  layout :=
    { chunkSize := 8, sizes := [4, 4], chunkSize_pos := by decide, chunkSize_lt := by decide,
      total_lt := fourAndFour_total, count_lt := fourAndFour_count, chunks_lt := by decide }
  cache := PosCache.new _
  isMultiFile := true
  urlPath := ['/']
  nameSuggestion := ['t']
  getPath := fun f => if f = 0 then ['a'] else ['b']
  isUserCreated := false

/-- The torrent whose bytes count up from zero. -/
def countUp (p : ℕ) : UInt8 := UInt8.ofNat p

/-- The server of `twoFiles`. -/
def twoFilesServer (path : List Char) (o : ℕ) : UInt8 :=
  if path = ['/', 't', '/', 'a'] then countUp o else countUp (4 + o)

/-- No chunk is there yet, and what comes in matches. -/
def emptyView : ChunkView where
  onDisk := fun _ => false
  accepted := fun _ => true

theorem twoFiles_serves : Serves twoFiles countUp twoFilesServer := by
  intro f size hsize o ho
  match f with
  | 0 => exact congrArg countUp (Nat.zero_add o).symm
  | 1 => rfl
  | f + 2 => simp [twoFiles, WebSeedSource.fileSizes] at hsize

/-- A connection that is closed between the two files. -/
theorem transfer_twoFiles :
    Runs.AllSteps (step twoFiles twoFilesServer) (Lawful twoFiles countUp twoFilesServer)
      (new twoFiles.layout 0)
      [.download 0 0, .update emptyView [4] .closed, .update emptyView [4] .ok] := by
  refine (transfer_iff twoFiles countUp twoFilesServer twoFiles_serves (by decide) 0 _ ?_).2
    ⟨trivial, fun _ _ => .inr ⟨fun _ => ⟨1, by decide +kernel⟩, by decide⟩, trivial, trivial⟩
  simp only [List.mem_cons, List.not_mem_nil, or_false]
  rintro e (rfl | rfl | rfl)
  · trivial
  · exact fun k hk => by simp only [List.mem_singleton] at hk; omega
  · exact fun k hk => by simp only [List.mem_singleton] at hk; omega

/-- **A connection that is cut inside a file.**  Two bytes of the first file are there;
the retry asks for the second file, and its first byte goes where the third of the
torrent belongs. -/
theorem cutInsideFile_misplaced :
    Serves twoFiles countUp twoFilesServer ∧
    ¬ Runs.AllSteps (step twoFiles twoFilesServer) (Lawful twoFiles countUp twoFilesServer)
      (new twoFiles.layout 0) [.download 0 0, .update emptyView [2] .closed] ∧
    ∃ x ∈ (Runs.run (step twoFiles twoFilesServer) (new twoFiles.layout 0)
      [.download 0 0, .update emptyView [2] .closed, .update emptyView [4] .ok]).written,
      ¬ Right twoFiles countUp x := by
  refine ⟨twoFiles_serves, ?_, ⟨0, 2, [4, 5, 6, 7]⟩, by decide +kernel, ?_⟩
  · rintro ⟨-, ⟨-, hasks⟩, -⟩
    have hpend := (hasks (by decide +kernel) (by decide +kernel)).1
    revert hpend
    decide +kernel
  · rw [Right]
    decide +kernel

end WebSeed

end KTorrent
