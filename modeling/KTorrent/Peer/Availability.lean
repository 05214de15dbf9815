import KTorrent.Peer.PeerManager

/-!
# The availability of the chunks

`ChunkCounter` is there to keep track of how many peers have a chunk.  The
handlers of a peer count every chunk a packet announces, and a peer that goes
takes its final bit set out of the counters.

* `Counted` — the counters are the numbers of peers; `Available` — the chunks that
  are available are those with a peer.
* `Fresh` — a packet announces nothing that was announced before.
* `allStates_availability_iff` — the counters are right along exactly the runs whose
  packets are fresh, and then so are the available chunks.
* `repeated_have_leaks` — a second HAVE of one chunk is never taken back.
-/

namespace KTorrent

namespace PeerManager

open Runs FiniteMap IndexLoop

/-- The number of peers in the map that have a chunk. -/
def owners (s : PeerManager) (i : ℕ) : ℕ := count (fun _ p => p.pieces.get i = true) s.peerMap

/-- The counter of every chunk is the number of peers that have it. -/
def Counted (s : PeerManager) : Prop := ∀ i < s.numChunks.toNat, s.cnt.get i = s.owners i

/-- The available chunks are those that a peer has. -/
def Available (s : PeerManager) : Prop :=
  ∀ i < s.numChunks.toNat, s.availableChunks.get i = true ↔ 0 < s.owners i

/-- A bit set without a chunk. -/
def NoChunk (pieces : BitSet) : Prop := ∀ i < pieces.numBits.toNat, pieces.get i = false

/-- The packet announces nothing the peer has announced before: HAVE is for a chunk it does not
have, and the other three come from a peer that has none. -/
def FreshPacket (pieces : BitSet) : PeerMessage → Prop
  | .have_ ch => ch.toNat < pieces.numBits.toNat → pieces.get ch.toNat = false
  | .bitField _ | .haveAll | .haveNone => NoChunk pieces
  | .invalid => True

/-- An event whose packet, if it is handled at all, is fresh. -/
def Fresh (s : PeerManager) : PeerEvent → Prop
  | .packet id packet =>
    match s.peerMap.lookup id with
    | none => True
    | some p => p.killed = false → FreshPacket p.pieces packet
  | _ => True

/-- The sizes of the tables. -/
structure Sized (s : PeerManager) : Prop where
  cnt : s.cnt.getNumChunks = s.numChunks.toNat
  available : s.availableChunks.numBits = s.numChunks
  pieces : ∀ id p, s.peerMap.lookup id = some p → p.pieces.numBits = s.numChunks

/-- What fresh packets keep. -/
structure Exact (s : PeerManager) : Prop extends Sized s where
  counted : s.Counted
  available_iff : ∀ i < s.numChunks.toNat, s.availableChunks.get i = true ↔ 0 < s.cnt.get i

theorem Exact.available_owners {s : PeerManager} (h : s.Exact) : s.Available := fun i hi =>
  h.counted i hi ▸ h.available_iff i hi

/-! ## Announcements -/

variable {s : PeerManager} {id : UInt32} {p : Peer} {i : ℕ}

/-- A peer of the map is changed: the owners before and after. -/
theorem owners_setPeer (hp : s.peerMap.lookup id = some p) (p' : Peer) :
    (s.setPeer id p').owners i + (if p.pieces.get i = true then 1 else 0) =
      s.owners i + if p'.pieces.get i = true then 1 else 0 :=
  count_insert hp p'

theorem Sized.setPeer (h : s.Sized) (id : UInt32) {p' : Peer}
    (hp' : p'.pieces.numBits = s.numChunks) : (s.setPeer id p').Sized := by
  refine ⟨h.cnt, h.available, fun id' q hq => ?_⟩
  by_cases hid : id' = id
  · subst hid
    rw [PeerManager.setPeer, AList.lookup_insert] at hq
    exact Option.some.inj hq ▸ hp'
  · rw [PeerManager.setPeer, AList.lookup_insert_ne hid] at hq
    exact h.pieces id' q hq

/-- The tables have kept their sizes, and the peers and the super seeder are the same. -/
structure SameTables (s s' : PeerManager) : Prop where
  numChunks : s'.numChunks = s.numChunks
  peerMap : s'.peerMap = s.peerMap
  cnt : s'.cnt.getNumChunks = s.cnt.getNumChunks
  available : s'.availableChunks.numBits = s.availableChunks.numBits
  superseeder : s'.superseeder = s.superseeder

theorem entrywise_received {k : ℕ} (hcnt : k < s.cnt.getNumChunks)
    (havail : k < s.availableChunks.numBits.toNat) :
    Entrywise (SameTables s) (fun s i => (s.cnt.get i, s.availableChunks.get i))
      (fun _ e => (e.1 + 1, true)) received k := by
  intro s' h
  refine ⟨⟨h.numChunks, h.peerMap, ?_, ?_, h.superseeder⟩, fun i => ?_⟩
  · exact (ChunkCounter.getNumChunks_inc _ _).trans h.cnt
  · exact (BitSet.numBits_set _ _ _).trans h.available
  · have hinc : (s'.received k).cnt.get i = s'.cnt.get i + if k = i then 1 else 0 :=
      ChunkCounter.get_inc _ _ _ (h.cnt ▸ hcnt)
    have hset : (s'.received k).availableChunks.get i =
        if i = k then true else s'.availableChunks.get i :=
      BitSet.get_set _ _ (h.available ▸ havail) _
    dsimp only
    rw [hinc, hset]
    by_cases hi : k = i
    · rw [if_pos hi, if_pos hi.symm, if_pos hi]
    · rw [if_neg hi, if_neg (Ne.symm hi), if_neg hi, Nat.add_zero]

/-- The chunks `a` were counted and made available, and the peer `id` has new pieces. -/
structure Announces (s s' : PeerManager) (id : UInt32) (p' : Peer) (a : ℕ → Bool) : Prop where
  numChunks : s'.numChunks = s.numChunks
  peerMap : s'.peerMap = s.peerMap.insert id p'
  numBits : p'.pieces.numBits = s.numChunks
  cntSize : s'.cnt.getNumChunks = s.cnt.getNumChunks
  availableSize : s'.availableChunks.numBits = s.availableChunks.numBits
  cnt : ∀ i < s.numChunks.toNat, s'.cnt.get i = s.cnt.get i + if a i = true then 1 else 0
  available : ∀ i < s.numChunks.toNat, s'.availableChunks.get i = (a i || s.availableChunks.get i)

/-- HAVE for a chunk that there is. -/
theorem announces_have (h : s.Sized) (hp : s.peerMap.lookup id = some p) {ch : ℕ}
    (hch : ch < p.pieces.numBits.toNat) :
    Announces s ((s.have_ id ch).setPeer id { p with pieces := p.pieces.set ch true }) id
      { p with pieces := p.pieces.set ch true } (fun i => decide (ch = i)) := by
  have hbits := h.pieces id p hp
  rw [hbits] at hch
  refine ⟨rfl, rfl, (BitSet.numBits_set _ _ _).trans hbits, ChunkCounter.getNumChunks_inc _ _,
    BitSet.numBits_set _ _ _, fun i _ => ?_, fun i _ => ?_⟩
  · refine (ChunkCounter.get_inc _ _ i (h.cnt ▸ hch)).trans ?_
    simp only [decide_eq_true_eq]
  · refine (BitSet.get_set _ _ (h.available ▸ hch) i).trans ?_
    by_cases hi : ch = i
    · rw [if_pos hi.symm, decide_eq_true hi, Bool.true_or]
    · rw [if_neg (Ne.symm hi), decide_eq_false hi, Bool.false_or]

/-- The loop of `bitSetReceived` counts the chunks of the bit set. -/
theorem received_loop (h : s.Sized) {bs : BitSet} (hbs : bs.numBits = s.numChunks) :
    let s' := (List.range bs.numBits.toNat).foldl
      (fun s i => if bs.get i then s.received i else s) s
    SameTables s s' ∧ ∀ i < s.numChunks.toNat, (s'.cnt.get i, s'.availableChunks.get i) =
      if bs.get i then (s.cnt.get i + 1, true) else (s.cnt.get i, s.availableChunks.get i) := by
  have hround : ∀ k < bs.numBits.toNat,
      Entrywise (SameTables s) (fun s i => (s.cnt.get i, s.availableChunks.get i))
        (fun k e => if bs.get k = true then (e.1 + 1, true) else e)
        (fun s i => if bs.get i = true then s.received i else s) k := by
    intro k hk
    rw [hbs] at hk
    exact (entrywise_received (h.cnt ▸ hk) (h.available ▸ hk)).guarded _
  obtain ⟨hsame, hget⟩ := get_foldl_range hround s ⟨rfl, rfl, rfl, rfl, rfl⟩
  exact ⟨hsame, fun i hi => (hget i).trans (if_pos (hbs ▸ hi))⟩

/-- The other three announce all of the new pieces. -/
theorem announces_bitSetReceived (h : s.Sized) (id : UInt32) (p' : Peer)
    (hp' : p'.pieces.numBits = s.numChunks) :
    Announces s ((s.setPeer id p').bitSetReceived id p'.pieces) id p' p'.pieces.get := by
  obtain ⟨hsame, hget⟩ := received_loop (h.setPeer id hp') hp'
  refine ⟨hsame.numChunks, hsame.peerMap, hp', hsame.cnt, hsame.available, fun i hi => ?_,
    fun i hi => ?_⟩
  · refine (congrArg Prod.fst (hget i hi)).trans ?_
    split
    · rfl
    · rfl
  · refine (congrArg Prod.snd (hget i hi)).trans ?_
    cases p'.pieces.get i with
    | true => rfl
    | false => rfl

/-- **What an announcement does to the counters.**  They stay right exactly when the chunks that
were counted are those the peer did not have and has now. -/
theorem Announces.counted_iff {s' : PeerManager} {p' : Peer} {a : ℕ → Bool}
    (ha : Announces s s' id p' a) (hc : s.Counted) (hp : s.peerMap.lookup id = some p) :
    s'.Counted ↔ ∀ i < s.numChunks.toNat, (if p'.pieces.get i = true then 1 else 0) =
      (if p.pieces.get i = true then 1 else 0) + if a i = true then 1 else 0 := by
  unfold Counted
  rw [ha.numChunks]
  refine forall_congr' fun i => forall_congr' fun hi => ?_
  have howners : s'.owners i = (s.setPeer id p').owners i := by
    unfold owners PeerManager.setPeer
    rw [ha.peerMap]
  have hset := owners_setPeer (i := i) hp p'
  rw [ha.cnt i hi, hc i hi, howners]
  omega

theorem Announces.sized {s' : PeerManager} {p' : Peer} {a : ℕ → Bool}
    (ha : Announces s s' id p' a) (h : s.Sized) : s'.Sized := by
  have hset : (s.setPeer id p').Sized := h.setPeer id ha.numBits
  refine ⟨?_, ?_, fun id' q hq => ?_⟩
  · rw [ha.cntSize, ha.numChunks, h.cnt]
  · rw [ha.availableSize, ha.numChunks, h.available]
  · rw [ha.numChunks]
    rw [ha.peerMap] at hq
    exact hset.pieces id' q hq

/-- What is counted is available, fresh or not. -/
theorem Announces.available_iff {s' : PeerManager} {p' : Peer} {a : ℕ → Bool}
    (ha : Announces s s' id p' a) (h : s.Exact) :
    ∀ i < s'.numChunks.toNat, s'.availableChunks.get i = true ↔ 0 < s'.cnt.get i := by
  intro i hi
  rw [ha.numChunks] at hi
  rw [ha.available i hi, ha.cnt i hi, Bool.or_eq_true, h.available_iff i hi]
  cases a i with
  | true => simp
  | false => simp

/-! ## One event -/

/-- An announcement keeps the invariant when it is fresh, and breaks the counters when not. -/
theorem Announces.exact_iff {s' : PeerManager} {p' : Peer} {a : ℕ → Bool} {F : Prop}
    (ha : Announces s s' id p' a) (h : s.Exact) (hp : s.peerMap.lookup id = some p)
    (hF : F ↔ ∀ i < s.numChunks.toNat, (if p'.pieces.get i = true then 1 else 0) =
      (if p.pieces.get i = true then 1 else 0) + if a i = true then 1 else 0) :
    (F → s'.Exact) ∧ (¬ F → ¬ s'.Counted) := by
  rw [hF, ← ha.counted_iff h.counted hp]
  exact ⟨fun hc => ⟨ha.sized h.toSized, hc, ha.available_iff h⟩, fun hc => hc⟩

/-- A new bit set is a fresh announcement when the old one was empty. -/
theorem noChunk_iff (h : p.pieces.numBits = s.numChunks) (b : ℕ → Bool) :
    NoChunk p.pieces ↔ ∀ i < s.numChunks.toNat, (if b i = true then 1 else 0) =
      (if p.pieces.get i = true then 1 else 0) + if b i = true then 1 else 0 := by
  unfold NoChunk
  rw [h]
  refine forall_congr' fun i => forall_congr' fun _ => ?_
  cases p.pieces.get i with
  | true => simp
  | false => simp

/-- A single chunk is a fresh announcement when the peer does not have it. -/
theorem fresh_have_iff (h : p.pieces.numBits = s.numChunks) {ch : ℕ} (hch : ch < s.numChunks.toNat) :
    p.pieces.get ch = false ↔ ∀ i < s.numChunks.toNat,
      (if (p.pieces.set ch true).get i = true then 1 else 0) =
        (if p.pieces.get i = true then 1 else 0) + if decide (ch = i) = true then 1 else 0 := by
  constructor
  · intro hfalse i _
    rw [BitSet.get_set _ _ (h ▸ hch)]
    by_cases hi : i = ch
    · subst hi
      simp [hfalse]
    · simp [hi, Ne.symm hi]
  · intro hall
    have hi := hall ch hch
    rw [BitSet.get_set _ _ (h ▸ hch), if_pos rfl] at hi
    by_contra hc
    simp [Bool.not_eq_false _ ▸ hc] at hi

/-- A kill changes no piece. -/
theorem exact_kill (h : s.Exact) (id : UInt32) : (s.kill id).Exact := by
  unfold kill
  cases hp : s.peerMap.lookup id with
  | none => exact h
  | some p =>
    refine ⟨h.toSized.setPeer id (h.pieces id p hp), fun i hi => ?_, h.available_iff⟩
    have hset := owners_setPeer (i := i) hp { p with killed := true }
    exact (h.counted i hi).trans (Nat.add_right_cancel hset).symm

/-- **A packet that is handled** keeps the counters right exactly when it is fresh. -/
theorem exact_handled (h : s.Exact) (hp : s.peerMap.lookup id = some p) (hk : p.killed = false)
    (packet : PeerMessage) :
    (FreshPacket p.pieces packet → (s.handlePacket id packet).Exact) ∧
      (¬ FreshPacket p.pieces packet → ¬ (s.handlePacket id packet).Counted) := by
  have hbits := h.pieces id p hp
  unfold handlePacket
  rw [hp]
  simp only [hk, Bool.false_eq_true, if_false]
  cases packet with
  | have_ ch =>
    simp only [handleHave]
    split
    · rename_i hch
      have hlt : ch.toNat < s.numChunks.toNat := hbits ▸ hch
      refine (announces_have h.toSized hp hch).exact_iff h hp ?_
      rw [← fresh_have_iff hbits hlt]
      exact ⟨fun hf => hf hch, fun hf _ => hf⟩
    · rename_i hch
      have hfresh : FreshPacket p.pieces (.have_ ch) := fun hc => absurd hc hch
      refine ⟨fun _ => ?_, fun hc => absurd hfresh hc⟩
      split
      · exact exact_kill h id
      · exact h
  | bitField packet =>
    exact (announces_bitSetReceived h.toSized id { p with pieces := .fromData packet _ }
      hbits).exact_iff h hp (noChunk_iff hbits _)
  | haveAll =>
    exact (announces_bitSetReceived h.toSized id { p with pieces := p.pieces.setAll true }
      hbits).exact_iff h hp (noChunk_iff hbits _)
  | haveNone =>
    exact (announces_bitSetReceived h.toSized id { p with pieces := p.pieces.setAll false }
      hbits).exact_iff h hp (noChunk_iff hbits _)
  | invalid => exact ⟨fun _ => exact_kill h id, fun hc => absurd trivial hc⟩

theorem exact_packet (h : s.Exact) (id : UInt32) (packet : PeerMessage) :
    (s.Fresh (.packet id packet) → (s.handlePacket id packet).Exact) ∧
      (¬ s.Fresh (.packet id packet) → ¬ (s.handlePacket id packet).Counted) := by
  cases hp : s.peerMap.lookup id with
  | none =>
    have hfresh : s.Fresh (.packet id packet) := by simp only [Fresh, hp]
    rw [handlePacket, hp]
    exact ⟨fun _ => h, fun hc => absurd hfresh hc⟩
  | some p =>
    have hiff : s.Fresh (.packet id packet) ↔ (p.killed = false → FreshPacket p.pieces packet) := by
      simp only [Fresh, hp]
    rw [hiff]
    cases hk : p.killed with
    | true =>
      rw [handlePacket, hp]
      simp only [hk, if_true]
      exact ⟨fun _ => h, fun hc => absurd (fun ht => by cases ht) hc⟩
    | false =>
      obtain ⟨hfresh, hnot⟩ := exact_handled h hp hk packet
      exact ⟨fun hf => hfresh (hf rfl), fun hc => hnot fun hf => hc fun _ => hf⟩

/-- A new peer has no chunk. -/
theorem exact_createPeer (h : s.Exact) (id : UInt32) : (s.createPeer id).Exact := by
  unfold createPeer
  split
  · exact h
  rename_i hid
  have hsized : (s.setPeer id { pieces := .new s.numChunks, killed := false }).Sized :=
    h.toSized.setPeer id rfl
  refine ⟨⟨hsized.cnt, hsized.available, hsized.pieces⟩, fun i hi => ?_, h.available_iff⟩
  have howners : (s.setPeer id { pieces := .new s.numChunks, killed := false }).owners i =
      (if (BitSet.new s.numChunks).get i = true then 1 else 0) + s.owners i :=
    count_insert_of_notMem hid
  rw [BitSet.get_new, if_neg Bool.false_ne_true, Nat.zero_add] at howners
  exact (h.counted i hi).trans howners.symm

/-- The chunks that are available are those that are counted. -/
theorem updateAvailableChunks_spec (havail : s.availableChunks.numBits = s.numChunks) :
    s.updateAvailableChunks.availableChunks.numBits = s.numChunks ∧
      ∀ i < s.numChunks.toNat, s.updateAvailableChunks.availableChunks.get i = true ↔
        0 < s.cnt.get i := by
  have hround : ∀ k < s.availableChunks.numBits.toNat,
      Entrywise (fun chunks => chunks.numBits = s.numChunks) BitSet.get
        (fun k _ => decide (s.cnt.get k > 0))
        (fun chunks i => chunks.set i (decide (s.cnt.get i > 0))) k := by
    intro k hk chunks hchunks
    refine ⟨(BitSet.numBits_set _ _ _).trans hchunks, fun i => ?_⟩
    rw [BitSet.get_set _ _ (by rw [hchunks, ← havail]; exact hk)]
    by_cases hi : k = i
    · rw [if_pos hi, if_pos hi.symm]
    · rw [if_neg hi, if_neg (Ne.symm hi)]
  obtain ⟨hsize, hget⟩ := get_foldl_range hround _ havail
  refine ⟨hsize, fun i hi => ?_⟩
  have hentry := (hget i).trans (if_pos (havail ▸ hi))
  exact (Bool.eq_iff_iff.mp hentry).trans (by simp)

theorem Sized.sweep (h : s.Sized) (id : UInt32) (p : Peer) : (s.sweep id p).Sized := by
  refine ⟨?_, ?_, fun id' q hq => ?_⟩
  · exact (ChunkCounter.getNumChunks_decBitSet _ _).trans h.cnt
  · exact (updateAvailableChunks_spec (s := { s with cnt := s.cnt.decBitSet p.pieces })
      h.available).1
  · by_cases hid : id' = id
    · subst hid
      rw [PeerManager.sweep, AList.lookup_erase] at hq
      cases hq
    · rw [PeerManager.sweep, AList.lookup_erase_ne hid] at hq
      exact h.pieces id' q hq

/-- A peer that is swept takes its chunks along. -/
theorem exact_sweep (h : s.Exact) (hp : s.peerMap.lookup id = some p) : (s.sweep id p).Exact := by
  have hcnt : ∀ i < s.numChunks.toNat, (s.cnt.decBitSet p.pieces).get i =
      (s.sweep id p).owners i := by
    intro i hi
    have hget := ChunkCounter.get_decBitSet s.cnt i p.pieces (h.cnt ▸ hi)
    have herase : s.owners i = (if p.pieces.get i = true then 1 else 0) +
        (s.sweep id p).owners i := count_erase hp
    rw [hget, h.counted i hi, herase]
    split
    · exact Nat.add_sub_cancel_left ..
    · exact Nat.zero_add _
  have havail := (updateAvailableChunks_spec
    (s := { s with cnt := s.cnt.decBitSet p.pieces }) h.available).2
  exact ⟨h.toSized.sweep id p, hcnt, havail⟩

/-- **One event** keeps the invariant when it is fresh; a packet that is not fresh makes a counter
wrong. -/
theorem exact_step (h : s.Exact) (e : PeerEvent) :
    (s.Fresh e → (s.step e).Exact) ∧ (¬ s.Fresh e → ¬ (s.step e).Counted) := by
  cases e with
  | connect id => exact ⟨fun _ => exact_createPeer h id, fun hc => absurd trivial hc⟩
  | packet id packet => exact exact_packet h id packet
  | kill id => exact ⟨fun _ => exact_kill h id, fun hc => absurd trivial hc⟩
  | visit id stalled =>
    refine ⟨fun _ => ?_, fun hc => absurd trivial hc⟩
    unfold step visit
    dsimp only
    cases hp : s.peerMap.lookup id with
    | none => exact h
    | some p =>
      dsimp only
      split
      · exact exact_sweep h hp
      · exact h

/-! ## Whole runs -/

theorem exact_start (numChunks : UInt32) (loaded : Bool) (superseeder : Option (ℕ → UInt32)) :
    (start numChunks loaded superseeder).Exact where
  cnt := ChunkCounter.getNumChunks_new _
  available := rfl
  pieces id p hp := by cases hp
  counted i _ := ChunkCounter.get_new _ _
  available_iff i _ := by
    change (BitSet.new numChunks).get i = true ↔ 0 < (ChunkCounter.new numChunks.toNat).get i
    rw [BitSet.get_new, ChunkCounter.get_new]
    simp

/-- **The availability of the chunks.**  Along a run the counter of every chunk is always the
number of peers that have it exactly when no packet announces again what its peer had announced;
and along such a run the available chunks are always those with a peer, after a sweep and at any
other time. -/
theorem allStates_availability_iff (numChunks : UInt32) (loaded : Bool)
    (superseeder : Option (ℕ → UInt32)) (events : List PeerEvent) :
    (AllStates step Counted (start numChunks loaded superseeder) events ↔
        AllSteps step Fresh (start numChunks loaded superseeder) events) ∧
      (AllSteps step Fresh (start numChunks loaded superseeder) events →
        AllStates step Available (start numChunks loaded superseeder) events) := by
  have hstart := exact_start numChunks loaded superseeder
  have hkeep : ∀ (s : PeerManager) (e : PeerEvent), s.Exact → s.Fresh e → (s.step e).Exact :=
    fun _ e h => (exact_step h e).1
  have hbreak : ∀ (s : PeerManager) (e : PeerEvent), s.Exact → ¬ s.Fresh e → ¬ (s.step e).Counted :=
    fun _ e h => (exact_step h e).2
  constructor
  · exact allStates_iff_allSteps (fun _ h => h.counted) hkeep hbreak events _ hstart
  · intro hfresh
    have hall := allStates_of_invariant hkeep events _ hstart hfresh
    exact hall.mono fun _ h => h.available_owners

/-- **One chunk, one peer, two HAVE of it.**  When the peer is gone, the counter says that one
peer is left and the chunk stays available. -/
theorem repeated_have_leaks :
    let s := run step (start 1 true none)
      [.connect 1, .packet 1 (.have_ 0), .packet 1 (.have_ 0), .kill 1, .visit 1 false]
    s.cnt.get 0 = 1 ∧ s.owners 0 = 0 ∧ s.availableChunks.get 0 = true := by
  decide

end PeerManager

end KTorrent
