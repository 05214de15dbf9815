import KTorrent.Peer.Availability

/-!
# The counters of the super seeder

The super seeder has counters of its own, the owners of each chunk and the
seeders, and it takes a chunk whose owners are just the seeders for one that no
downloader has.

* `Accounts` — the counters are the numbers of peers they stand for.
* `Honest` — the events that keep them so.  A seeder is not among them: neither
  one that announces all chunks at once, which are then not counted, nor one that
  completes its bit set, which is asked for before the last bit is set.
* `allStates_accounted_iff` — the counters are right along exactly the runs of
  honest events.
* `seeders_not_counted` — the two kinds of seeder.
-/

namespace KTorrent

namespace SuperSeeder

open IndexLoop

variable {PeerPtr : Type} [DecidableEq PeerPtr]

/-- The counters of `s'` are those of `s` with the chunks `a` and `k` seeders more. -/
structure Counts (s s' : SuperSeeder PeerPtr) (a : ℕ → Bool) (k : ℕ) : Prop where
  size : s'.chunkCounter.getNumChunks = s.chunkCounter.getNumChunks
  chunkCounter : ∀ i < s.chunkCounter.getNumChunks,
    s'.chunkCounter.get i = s.chunkCounter.get i + if a i = true then 1 else 0
  numSeeders : s'.numSeeders = s.numSeeders + k

variable (s : SuperSeeder PeerPtr) (bits : PeerPtr → BitSet) (bs : BitSet) (peer : PeerPtr)

theorem have_counters (chunk : ℕ) :
    (s.have_ bits peer chunk).chunkCounter = s.chunkCounter.inc chunk ∧
      (s.have_ bits peer chunk).numSeeders =
        if (bits peer).allOn then s.numSeeders + 1 else s.numSeeders :=
  foldl_sendChunk_counts bits _ _

theorem counts_have {chunk : ℕ} (h : chunk < s.chunkCounter.getNumChunks) :
    Counts s (s.have_ bits peer chunk) (fun i => decide (chunk = i))
      (if (bits peer).allOn then 1 else 0) := by
  obtain ⟨hc, hn⟩ := have_counters s bits peer chunk
  refine ⟨?_, fun i _ => ?_, ?_⟩
  · rw [hc, ChunkCounter.getNumChunks_inc]
  · rw [hc, ChunkCounter.get_inc _ _ _ h]
    simp only [decide_eq_true_eq]
  · rw [hn]
    split
    · rfl
    · rfl

theorem counts_haveAll : Counts s (s.haveAll peer) (fun _ => false) 1 := by
  obtain ⟨hc, hn⟩ := dropActive_counts s peer
  refine ⟨congrArg _ hc, fun i _ => congrArg (·.get i) hc, ?_⟩
  change (s.dropActive peer).numSeeders + 1 = _
  rw [hn]

/-- A bit set that is complete by its count is one seeder more; any other is counted, as long as
the peer it comes from is no seeder. -/
theorem counts_bitset (hbs : bs.numBits.toNat ≤ s.chunkCounter.getNumChunks)
    (hpeer : bits peer = bs) :
    Counts s (s.bitset bits peer bs) (fun i => !bs.allOn && bs.get i)
      (if bs.allOn then 1 else 0) := by
  unfold bitset
  cases hall : bs.allOn with
  | true => simpa using counts_haveAll s peer
  | false =>
    have hround : ∀ k < bs.numBits.toNat,
        Entrywise (fun s' : SuperSeeder PeerPtr =>
            s'.chunkCounter.getNumChunks = s.chunkCounter.getNumChunks ∧
              s'.numSeeders = s.numSeeders)
          (fun s i => s.chunkCounter.get i)
          (fun k n => if bs.get k = true then n + 1 else n)
          (fun s i => if bs.get i = true then s.have_ bits peer i else s) k := by
      intro k hk
      refine Entrywise.guarded (f := fun _ n => n + 1) ?_ _
      intro s' hs'
      obtain ⟨hc, hn⟩ := have_counters s' bits peer k
      rw [hpeer, hall, if_neg Bool.false_ne_true] at hn
      refine ⟨⟨?_, hn.trans hs'.2⟩, fun i => ?_⟩
      · rw [hc, ChunkCounter.getNumChunks_inc, hs'.1]
      · change (s'.have_ bits peer k).chunkCounter.get i = _
        rw [hc, ChunkCounter.get_inc _ _ _ (by omega)]
        split
        · rfl
        · rfl
    obtain ⟨⟨hsize, hnum⟩, hget⟩ := get_foldl_range hround s ⟨rfl, rfl⟩
    rw [if_neg Bool.false_ne_true]
    refine ⟨hsize, fun i _ => ?_, hnum⟩
    refine (hget i).trans ?_
    rcases Nat.lt_or_ge i bs.numBits.toNat with hi | hi
    · rw [if_pos hi, Bool.not_false, Bool.true_and]
      split
      · rfl
      · rfl
    · rw [if_neg (Nat.not_lt.mpr hi), Bool.not_false, Bool.true_and, BitSet.get_outside _ hi]
      rfl

theorem counts_peerAdded :
    Counts s (s.peerAdded bits peer) (fun i => !(bits peer).allOn && (bits peer).get i)
      (if (bits peer).allOn then 1 else 0) := by
  unfold peerAdded
  cases hall : (bits peer).allOn with
  | true =>
    rw [if_pos rfl]
    exact ⟨rfl, fun i _ => rfl, rfl⟩
  | false =>
    obtain ⟨hc, hn⟩ := sendChunk_counts
      { s with chunkCounter := s.chunkCounter.incBitSet (bits peer) } (bits peer) peer
    rw [if_neg Bool.false_ne_true, if_neg Bool.false_ne_true]
    refine ⟨?_, fun i hi => ?_, hn⟩
    · rw [hc, ChunkCounter.getNumChunks_incBitSet]
    · rw [hc, ChunkCounter.get_incBitSet _ _ _ hi, Bool.not_false, Bool.true_and]
      split
      · rfl
      · rfl

end SuperSeeder

namespace PeerManager

open Runs FiniteMap

/-- The peer has every chunk. -/
def Complete (pieces : BitSet) : Prop := ∀ i < pieces.numBits.toNat, pieces.get i = true

instance (pieces : BitSet) : Decidable (Complete pieces) := inferInstanceAs (Decidable (∀ i < _, _))

/-- The number of peers in the map that have every chunk. -/
def seeders (s : PeerManager) : ℕ := count (fun _ p => Complete p.pieces) s.peerMap

/-- The counters of the super seeder are the numbers of peers. -/
structure Accounts (s : PeerManager) (ss : SuperSeeder UInt32) : Prop where
  numSeeders : ss.numSeeders = s.seeders
  chunkCounter : ∀ i < s.numChunks.toNat, ss.chunkCounter.get i = s.owners i

/-- The counters of the super seeder, if there is one. -/
def Accounted (s : PeerManager) : Prop := ∀ ss, s.superseeder = some ss → s.Accounts ss

/-- A bit set that keeps the counters right: it is not complete, and it is the first chunks the
peer has. -/
def HonestBitSet (pieces new : BitSet) : Prop :=
  new.allOn = false ∧ ¬ Complete new ∧ NoChunk pieces

/-- A packet that keeps the counters right.  For HAVE the peer must not have the chunk, and the
chunk may complete the bit set only if the peer counted as a seeder before. -/
def HonestPacket (pieces : BitSet) : PeerMessage → Prop
  | .have_ ch => ch.toNat < pieces.numBits.toNat →
    pieces.get ch.toNat = false ∧ (pieces.allOn = true ↔ Complete (pieces.set ch.toNat true))
  | .bitField packet => HonestBitSet pieces (.fromData packet pieces.numBits)
  | .haveAll => HonestBitSet pieces (pieces.setAll true)
  | .haveNone => HonestBitSet pieces (pieces.setAll false)
  | .invalid => True

/-- An event that keeps the counters right.  A peer that is swept is taken for a seeder exactly
when it is one. -/
def Honest (s : PeerManager) : PeerEvent → Prop
  | .packet id packet =>
    match s.peerMap.lookup id with
    | none => True
    | some p => p.killed = false → HonestPacket p.pieces packet
  | .visit id stalled =>
    match s.peerMap.lookup id with
    | none => True
    | some p => p.killed ∨ stalled →
      ((p.pieces.allOn = true ∧ 0 < s.seeders) ↔ Complete p.pieces)
  | _ => True

/-- What honest events keep. -/
structure Seeding (s : PeerManager) (ss : SuperSeeder UInt32) : Prop extends Sized s where
  superseeder : s.superseeder = some ss
  size : ss.chunkCounter.getNumChunks = s.numChunks.toNat
  accounts : s.Accounts ss

variable {s : PeerManager} {ss : SuperSeeder UInt32} {id : UInt32} {p : Peer} {i : ℕ}

theorem Seeding.accounted (h : s.Seeding ss) : s.Accounted := by
  intro ss' hss'
  rw [h.superseeder] at hss'
  exact Option.some.inj hss' ▸ h.accounts

theorem seeders_setPeer (hp : s.peerMap.lookup id = some p) (p' : Peer) :
    (s.setPeer id p').seeders + (if Complete p.pieces then 1 else 0) =
      s.seeders + if Complete p'.pieces then 1 else 0 :=
  count_insert hp p'

/-! ## Announcements -/

/-- **What an announcement does to the counters.**  They stay right exactly when what was counted
is what has changed. -/
theorem seeding_announce {s' : PeerManager} {ss' : SuperSeeder UInt32} {p' : Peer}
    {a b : ℕ → Bool} {k : ℕ} (h : s.Seeding ss) (hp : s.peerMap.lookup id = some p)
    (ha : Announces s s' id p' a) (hss' : s'.superseeder = some ss')
    (hc : SuperSeeder.Counts ss ss' b k) :
    (s'.Accounted ↔ s'.Seeding ss') ∧ (s'.Seeding ss' ↔
      (∀ i < s.numChunks.toNat, (if p'.pieces.get i = true then 1 else 0) =
        (if p.pieces.get i = true then 1 else 0) + if b i = true then 1 else 0) ∧
      (if Complete p'.pieces then 1 else 0) = (if Complete p.pieces then 1 else 0) + k) := by
  have hiff : s'.Accounts ss' ↔
      (∀ i < s.numChunks.toNat, (if p'.pieces.get i = true then 1 else 0) =
        (if p.pieces.get i = true then 1 else 0) + if b i = true then 1 else 0) ∧
      (if Complete p'.pieces then 1 else 0) = (if Complete p.pieces then 1 else 0) + k := by
    have hseeders := seeders_setPeer hp p'
    have hmap : s'.seeders = (s.setPeer id p').seeders ∧
        ∀ i, s'.owners i = (s.setPeer id p').owners i := by
      unfold seeders owners PeerManager.setPeer
      rw [ha.peerMap]
      exact ⟨rfl, fun _ => rfl⟩
    rw [← hmap.1, ← h.accounts.numSeeders] at hseeders
    have howners : ∀ i < s.numChunks.toNat, ss'.chunkCounter.get i = s'.owners i ↔
        (if p'.pieces.get i = true then 1 else 0) =
          (if p.pieces.get i = true then 1 else 0) + if b i = true then 1 else 0 := by
      intro i hi
      have hset := owners_setPeer (i := i) hp p'
      rw [hc.chunkCounter i (h.size ▸ hi), hmap.2, h.accounts.chunkCounter i hi]
      omega
    constructor
    · rintro ⟨hnum, hcnt⟩
      rw [hc.numSeeders] at hnum
      rw [ha.numChunks] at hcnt
      exact ⟨fun i hi => (howners i hi).mp (hcnt i hi), by omega⟩
    · rintro ⟨hbits, hcomplete⟩
      refine ⟨?_, fun i hi => ?_⟩
      · rw [hc.numSeeders]
        omega
      · rw [ha.numChunks] at hi
        exact (howners i hi).mpr (hbits i hi)
  have hsized := ha.sized h.toSized
  have hsize : ss'.chunkCounter.getNumChunks = s'.numChunks.toNat := by
    rw [hc.size, h.size, ha.numChunks]
  constructor
  · exact ⟨fun hacc => ⟨hsized, hss', hsize, hacc ss' hss'⟩, fun hs => hs.accounted⟩
  · exact ⟨fun hs => hiff.mp hs.accounts, fun hr => ⟨hsized, hss', hsize, hiff.mpr hr⟩⟩

/-- An announcement is honest when what is counted is what has changed. -/
theorem seeding_iff {s' : PeerManager} {ss' : SuperSeeder UInt32} {p' : Peer} {a b : ℕ → Bool}
    {k : ℕ} {F : Prop} (h : s.Seeding ss) (hp : s.peerMap.lookup id = some p)
    (ha : Announces s s' id p' a) (hss' : s'.superseeder = some ss')
    (hc : SuperSeeder.Counts ss ss' b k)
    (hF : F ↔ (∀ i < s.numChunks.toNat, (if p'.pieces.get i = true then 1 else 0) =
        (if p.pieces.get i = true then 1 else 0) + if b i = true then 1 else 0) ∧
      (if Complete p'.pieces then 1 else 0) = (if Complete p.pieces then 1 else 0) + k) :
    (F → ∃ ss', s'.Seeding ss') ∧ (¬ F → ¬ s'.Accounted) := by
  obtain ⟨hacc, hiff⟩ := seeding_announce h hp ha hss' hc
  rw [hF, hacc, hiff]
  exact ⟨fun hr => ⟨ss', hiff.mpr hr⟩, fun hr => hr⟩

theorem bits_eq (hp : s.peerMap.lookup id = some p) : s.bits id = p.pieces := by
  unfold bits
  rw [hp]

theorem bits_setPeer (p' : Peer) : (s.setPeer id p').bits id = p'.pieces :=
  bits_eq (AList.lookup_insert _)

theorem SameTables.bits {s' : PeerManager} (h : SameTables s s') : s'.bits = s.bits := by
  funext id
  unfold PeerManager.bits
  rw [h.peerMap]

/-- No chunk is all chunks when there are none. -/
theorem allOn_new_iff (n : UInt32) : (BitSet.new n).allOn = true ↔ Complete (.new n) := by
  have hzero : (BitSet.new n).allOn = true ↔ 0 = n := beq_iff_eq
  rw [hzero]
  constructor
  · rintro rfl i hi
    exact absurd hi (Nat.not_lt_zero i)
  · intro hc
    by_contra hne
    have hpos : 0 < n.toNat := Nat.pos_of_ne_zero fun h0 => hne (UInt32.toNat_inj.mp h0.symm)
    have h0 := hc 0 hpos
    rw [BitSet.get_new] at h0
    cases h0

/-- HAVE of a chunk that there is. -/
theorem seeding_have (h : s.Seeding ss) (hp : s.peerMap.lookup id = some p) {ch : ℕ}
    (hch : ch < p.pieces.numBits.toNat) :
    let s' := (s.have_ id ch).setPeer id { p with pieces := p.pieces.set ch true }
    let F := p.pieces.get ch = false ∧ (p.pieces.allOn = true ↔ Complete (p.pieces.set ch true))
    (F → ∃ ss', s'.Seeding ss') ∧ (¬ F → ¬ s'.Accounted) := by
  have hbits := h.pieces id p hp
  have hlt : ch < s.numChunks.toNat := hbits ▸ hch
  have hss' : ((s.have_ id ch).setPeer id { p with pieces := p.pieces.set ch true }).superseeder =
      some (ss.have_ s.bits id ch) := congrArg (Option.map _) h.superseeder
  refine seeding_iff h hp (announces_have h.toSized hp hch) hss'
    (SuperSeeder.counts_have ss s.bits id (h.size ▸ hlt)) ?_
  rw [bits_eq hp, ← fresh_have_iff hbits hlt]
  refine and_congr_right fun hfalse => ?_
  have hnot : ¬ Complete p.pieces := by
    intro hc
    rw [hc ch hch] at hfalse
    cases hfalse
  rw [if_neg hnot, Nat.zero_add]
  by_cases hall : p.pieces.allOn = true
  · rw [if_pos hall]
    simp [hall]
  · rw [if_neg hall]
    simp [hall]

/-- A bit set without chunks is complete by its count. -/
theorem allOn_of_noBits {bs : BitSet} (hn : bs.numBits = 0) (hon : bs.numOn = 0) :
    bs.allOn = true := by
  rw [BitSet.allOn, hn, hon]
  rfl

/-- The other three. -/
theorem seeding_bitSet (h : s.Seeding ss) (hp : s.peerMap.lookup id = some p) {new : BitSet}
    (hnew : new.numBits = s.numChunks) (hzero : new.numBits = 0 → new.numOn = 0) :
    let s' := (s.setPeer id { p with pieces := new }).bitSetReceived id new
    (HonestBitSet p.pieces new → ∃ ss', s'.Seeding ss') ∧
      (¬ HonestBitSet p.pieces new → ¬ s'.Accounted) := by
  have hbits := h.pieces id p hp
  have hloop := (received_loop (s := s.setPeer id { p with pieces := new })
    (h.toSized.setPeer id hnew) hnew).1
  have hss' : ((s.setPeer id { p with pieces := new }).bitSetReceived id new).superseeder =
      some (ss.bitset (s.setPeer id { p with pieces := new }).bits id new) := by
    unfold bitSetReceived
    dsimp only
    rw [hloop.superseeder, hloop.bits]
    exact congrArg (Option.map _) h.superseeder
  refine seeding_iff h hp (announces_bitSetReceived h.toSized id { p with pieces := new } hnew)
    hss' (SuperSeeder.counts_bitset ss _ new id (by rw [hnew, h.size]) (bits_setPeer _)) ?_
  unfold HonestBitSet
  cases hall : new.allOn with
  | true =>
    constructor
    · intro hc
      cases hc.1
    · -- the chunks are not counted, so the bit set would have to be the same
      rintro ⟨hsame, hcomplete⟩
      have hget : ∀ i < s.numChunks.toNat, new.get i = p.pieces.get i := by
        intro i hi
        have hi := hsame i hi
        cases hn : new.get i <;> cases ho : p.pieces.get i <;> simp [hn, ho] at hi ⊢
      have hiff : Complete new ↔ Complete p.pieces := by
        unfold Complete
        rw [hnew, hbits]
        exact forall_congr' fun i => forall_congr' fun hi => by rw [hget i hi]
      simp only [hiff, if_true] at hcomplete
      exact absurd hcomplete (Nat.succ_ne_self _).symm
  | false =>
    simp only [Bool.not_false, Bool.true_and, true_and, Bool.false_eq_true, if_false, Nat.add_zero]
    rw [← noChunk_iff hbits, and_comm]
    refine and_congr_right fun hno => ?_
    have hnot : ¬ Complete p.pieces := by
      intro hc
      have hempty : new.numBits = 0 := by
        rw [hnew, ← hbits]
        by_contra hne
        have hpos : 0 < p.pieces.numBits.toNat := by
          refine Nat.pos_of_ne_zero fun h0 => hne (UInt32.toNat_inj.mp h0)
        have hc0 := hc 0 hpos
        rw [hno 0 hpos] at hc0
        cases hc0
      rw [allOn_of_noBits hempty (hzero hempty)] at hall
      cases hall
    rw [if_neg hnot]
    by_cases hc : Complete new
    · simp [hc]
    · simp [hc]

theorem numOn_fromData (packet : ℕ → UInt8) {n : UInt32} (hn : n = 0) :
    (BitSet.fromData packet n).numOn = 0 := by
  subst hn
  rfl

theorem numOn_setAll (bs : BitSet) (on : Bool) (hn : bs.numBits = 0) :
    (bs.setAll on).numOn = 0 := by
  cases on with
  | true => exact hn
  | false => rfl

theorem seeding_kill (h : s.Seeding ss) (id : UInt32) : (s.kill id).Seeding ss := by
  unfold kill
  cases hp : s.peerMap.lookup id with
  | none => exact h
  | some p =>
    refine ⟨h.toSized.setPeer id (h.pieces id p hp), h.superseeder, h.size, ?_, fun i hi => ?_⟩
    · have hset := seeders_setPeer hp { p with killed := true }
      exact h.accounts.numSeeders.trans (Nat.add_right_cancel hset).symm
    · have hset := owners_setPeer (i := i) hp { p with killed := true }
      exact (h.accounts.chunkCounter i hi).trans (Nat.add_right_cancel hset).symm

/-- **A packet that is handled** keeps the counters right exactly when it is honest. -/
theorem seeding_handled (h : s.Seeding ss) (hp : s.peerMap.lookup id = some p)
    (hk : p.killed = false) (packet : PeerMessage) :
    (HonestPacket p.pieces packet → ∃ ss', (s.handlePacket id packet).Seeding ss') ∧
      (¬ HonestPacket p.pieces packet → ¬ (s.handlePacket id packet).Accounted) := by
  have hbits := h.pieces id p hp
  unfold handlePacket
  rw [hp]
  simp only [hk, Bool.false_eq_true, if_false]
  cases packet with
  | have_ ch =>
    simp only [handleHave]
    split
    · rename_i hch
      obtain ⟨hhonest, hnot⟩ := seeding_have h hp hch
      exact ⟨fun hf => hhonest (hf hch), fun hc => hnot fun hf => hc fun _ => hf⟩
    · rename_i hch
      have hhonest : HonestPacket p.pieces (.have_ ch) := fun hc => absurd hc hch
      refine ⟨fun _ => ?_, fun hc => absurd hhonest hc⟩
      split
      · exact ⟨ss, seeding_kill h id⟩
      · exact ⟨ss, h⟩
  | bitField packet => exact seeding_bitSet h hp hbits (numOn_fromData packet)
  | haveAll => exact seeding_bitSet h hp hbits (numOn_setAll p.pieces true)
  | haveNone => exact seeding_bitSet h hp hbits (numOn_setAll p.pieces false)
  | invalid => exact ⟨fun _ => ⟨ss, seeding_kill h id⟩, fun hc => absurd trivial hc⟩

theorem seeding_packet (h : s.Seeding ss) (id : UInt32) (packet : PeerMessage) :
    (s.Honest (.packet id packet) → ∃ ss', (s.handlePacket id packet).Seeding ss') ∧
      (¬ s.Honest (.packet id packet) → ¬ (s.handlePacket id packet).Accounted) := by
  cases hp : s.peerMap.lookup id with
  | none =>
    have hhonest : s.Honest (.packet id packet) := by simp only [Honest, hp]
    rw [handlePacket, hp]
    exact ⟨fun _ => ⟨ss, h⟩, fun hc => absurd hhonest hc⟩
  | some p =>
    have hiff : s.Honest (.packet id packet) ↔ (p.killed = false → HonestPacket p.pieces packet) := by
      simp only [Honest, hp]
    rw [hiff]
    cases hk : p.killed with
    | true =>
      rw [handlePacket, hp]
      simp only [hk, if_true]
      exact ⟨fun _ => ⟨ss, h⟩, fun hc => absurd (fun ht => by cases ht) hc⟩
    | false =>
      obtain ⟨hhonest, hnot⟩ := seeding_handled h hp hk packet
      exact ⟨fun hf => hhonest (hf rfl), fun hc => hnot fun hf => hc fun _ => hf⟩

/-! ## The other events -/

/-- A new peer is a seeder only when there are no chunks. -/
theorem seeding_createPeer (h : s.Seeding ss) (id : UInt32) :
    ∃ ss', (s.createPeer id).Seeding ss' := by
  unfold createPeer
  split
  · exact ⟨ss, h⟩
  rename_i hid
  have hsized : (s.setPeer id { pieces := .new s.numChunks, killed := false }).Sized :=
    h.toSized.setPeer id rfl
  have hseeders : (s.setPeer id { pieces := .new s.numChunks, killed := false }).seeders =
      (if Complete (.new s.numChunks) then 1 else 0) + s.seeders := count_insert_of_notMem hid
  have howners : ∀ i, (s.setPeer id { pieces := .new s.numChunks, killed := false }).owners i =
      (if (BitSet.new s.numChunks).get i = true then 1 else 0) + s.owners i :=
    fun i => count_insert_of_notMem hid
  have hcounts := SuperSeeder.counts_peerAdded ss
    (s.setPeer id { pieces := .new s.numChunks, killed := false }).bits id
  rw [bits_setPeer] at hcounts
  refine ⟨_, ⟨hsized.cnt, hsized.available, hsized.pieces⟩, congrArg (Option.map _) h.superseeder,
    hcounts.size.trans h.size, ?_, fun i hi => ?_⟩
  · refine (hcounts.numSeeders.trans ?_).trans hseeders.symm
    rw [h.accounts.numSeeders, Nat.add_comm]
    simp only [allOn_new_iff]
  · refine (hcounts.chunkCounter i (h.size ▸ hi)).trans (Eq.trans ?_ (howners i).symm)
    rw [h.accounts.chunkCounter i hi, Nat.add_comm, BitSet.get_new, Bool.and_false]

/-- The counters after a peer is swept. -/
theorem seeding_sweep (h : s.Seeding ss) (hp : s.peerMap.lookup id = some p) :
    let F := (p.pieces.allOn = true ∧ 0 < s.seeders) ↔ Complete p.pieces
    (F → ∃ ss', (s.sweep id p).Seeding ss') ∧ (¬ F → ¬ (s.sweep id p).Accounted) := by
  have hseeders : s.seeders = (if Complete p.pieces then 1 else 0) + (s.sweep id p).seeders :=
    count_erase hp
  have howners : ∀ i, s.owners i = (if p.pieces.get i = true then 1 else 0) +
      (s.sweep id p).owners i := fun i => count_erase hp
  have hss' : (s.sweep id p).superseeder = some (ss.peerRemoved s.bits id) :=
    congrArg (Option.map _) h.superseeder
  obtain ⟨hc, hn⟩ := SuperSeeder.dropActive_counts ss id
  have hnum : (ss.peerRemoved s.bits id).numSeeders =
      if p.pieces.allOn = true ∧ s.seeders > 0 then s.seeders - 1 else s.seeders := by
    rw [SuperSeeder.peerRemoved, bits_eq hp]
    dsimp only
    rw [hn, h.accounts.numSeeders]
  have hiff : (ss.peerRemoved s.bits id).numSeeders = (s.sweep id p).seeders ↔
      ((p.pieces.allOn = true ∧ 0 < s.seeders) ↔ Complete p.pieces) := by
    rw [hnum]
    by_cases hcomplete : Complete p.pieces
    · rw [if_pos hcomplete] at hseeders
      by_cases hall : p.pieces.allOn = true ∧ s.seeders > 0
      · rw [if_pos hall, iff_true_right hcomplete, iff_true_right hall]
        omega
      · rw [if_neg hall, iff_true_right hcomplete]
        exact ⟨fun hc => by omega, fun hc => absurd hc hall⟩
    · rw [if_neg hcomplete] at hseeders
      by_cases hall : p.pieces.allOn = true ∧ s.seeders > 0
      · rw [if_pos hall, iff_true_left hall]
        exact ⟨fun hc => by omega, fun hc => absurd hc hcomplete⟩
      · rw [if_neg hall, iff_false_left hall, iff_true_right hcomplete]
        omega
  refine ⟨fun hF => ⟨ss.peerRemoved s.bits id, h.toSized.sweep id p, hss', ?_, hiff.mpr hF,
    fun i hi => ?_⟩, fun hF hacc => hF (hiff.mp (hacc _ hss').numSeeders)⟩
  · change (ChunkCounter.decBitSet _ _).getNumChunks = _
    rw [ChunkCounter.getNumChunks_decBitSet, hc]
    exact h.size
  · change (ChunkCounter.decBitSet _ _).get i = _
    rw [hc, ChunkCounter.get_decBitSet _ _ _ (h.size ▸ hi), bits_eq hp, h.accounts.chunkCounter i hi,
      howners i]
    split
    · exact Nat.add_sub_cancel_left ..
    · exact Nat.zero_add _

theorem seeding_visit (h : s.Seeding ss) (id : UInt32) (stalled : Bool) :
    (s.Honest (.visit id stalled) → ∃ ss', (s.visit id stalled).Seeding ss') ∧
      (¬ s.Honest (.visit id stalled) → ¬ (s.visit id stalled).Accounted) := by
  cases hp : s.peerMap.lookup id with
  | none =>
    have hhonest : s.Honest (.visit id stalled) := by simp only [Honest, hp]
    rw [visit, hp]
    exact ⟨fun _ => ⟨ss, h⟩, fun hc => absurd hhonest hc⟩
  | some p =>
    have hiff : s.Honest (.visit id stalled) ↔ (p.killed ∨ stalled →
        ((p.pieces.allOn = true ∧ 0 < s.seeders) ↔ Complete p.pieces)) := by
      simp only [Honest, hp]
    rw [hiff, visit, hp]
    dsimp only
    split
    · rename_i hgone
      obtain ⟨hhonest, hnot⟩ := seeding_sweep h hp
      exact ⟨fun hf => hhonest (hf hgone), fun hc => hnot fun hf => hc fun _ => hf⟩
    · rename_i hstays
      exact ⟨fun _ => ⟨ss, h⟩, fun hc => absurd (fun hgone => absurd hgone hstays) hc⟩

/-- **One event** keeps the counters of the super seeder right exactly when it is honest. -/
theorem seeding_step (h : s.Seeding ss) (e : PeerEvent) :
    (s.Honest e → ∃ ss', (s.step e).Seeding ss') ∧ (¬ s.Honest e → ¬ (s.step e).Accounted) := by
  cases e with
  | connect id => exact ⟨fun _ => seeding_createPeer h id, fun hc => absurd trivial hc⟩
  | packet id packet => exact seeding_packet h id packet
  | kill id => exact ⟨fun _ => ⟨ss, seeding_kill h id⟩, fun hc => absurd trivial hc⟩
  | visit id stalled => exact seeding_visit h id stalled

/-! ## Whole runs -/

theorem seeding_start (numChunks : UInt32) (loaded : Bool) (random : ℕ → UInt32) :
    (start numChunks loaded (some random)).Seeding (.new numChunks.toNat random) where
  toSized := (exact_start numChunks loaded (some random)).toSized
  superseeder := rfl
  size := ChunkCounter.getNumChunks_new _
  accounts := ⟨rfl, fun _ _ => ChunkCounter.get_new _ _⟩

/-- **The counters of the super seeder.**  Along a run with a super seeder they are always the
numbers of peers they stand for exactly when every event is honest. -/
theorem allStates_accounted_iff (numChunks : UInt32) (loaded : Bool) (random : ℕ → UInt32)
    (events : List PeerEvent) :
    AllStates step Accounted (start numChunks loaded (some random)) events ↔
      AllSteps step Honest (start numChunks loaded (some random)) events := by
  have hlaw : ∀ s : PeerManager, (∃ ss, s.Seeding ss) → s.Accounted := fun _ ⟨_, h⟩ => h.accounted
  have hkeep : ∀ (s : PeerManager) (e : PeerEvent), (∃ ss, s.Seeding ss) → s.Honest e →
      ∃ ss, (s.step e).Seeding ss := fun _ e ⟨_, h⟩ => (seeding_step h e).1
  have hbreak : ∀ (s : PeerManager) (e : PeerEvent), (∃ ss, s.Seeding ss) → ¬ s.Honest e →
      ¬ (s.step e).Accounted := fun _ e ⟨_, h⟩ => (seeding_step h e).2
  exact allStates_iff_allSteps hlaw hkeep hbreak events _
    ⟨_, seeding_start numChunks loaded random⟩

/-- **Two chunks and a peer that gets one after the other**, and another that has both at once.
The first is no seeder, and no peer has the first chunk. -/
theorem seeders_not_counted :
    let s := run step (start 2 true (some fun _ => 0))
      [.connect 1, .packet 1 (.have_ 0), .packet 1 (.have_ 1)]
    let t := run step (start 2 true (some fun _ => 0)) [.connect 1, .packet 1 .haveAll]
    s.seeders = 1 ∧ s.superseeder.map (·.numSeeders) = some 0 ∧
      t.owners 0 = 1 ∧ t.superseeder.map (·.chunkCounter.get 0) = some 0 := by
  decide

end PeerManager

end KTorrent
