import KTorrent.Peer.PeerUploader

/-!
# Handing out the upload slots: `AdvancedChokeAlgorithm`

Now and then the peers that want something are ranked, and the best of them are unchoked; one slot
is for a peer that is tried out, the optimistic one (`torrent/advancedchokealgorithm.cpp`).

* `Unchoking.unchokeLoop`, `doUnchoking` — the pass over the ranking, with the slot that is kept.
* `ChokeAlgorithm` — the choice of the optimistic peer, and `doChokingState` the whole round.
* `SlotsUsed` — what a pass owes; `doUnchoking_iff` — **when it does**: the kept slot is lost when
  the optimistic peer is not in a ranking that could fill it.
* `doChokingState_slots_le` — no round hands out more slots than there are.
-/

namespace KTorrent

/-- A peer as the choker sees it.  `lacksChunks`: we have a chunk that it does not have. -/
structure RankedPeer where
  id : UInt32
  upload : UploadPeer
  isChoked : Bool
  isInterested : Bool
  isSeeder : Bool
  partialSeed : Bool
  lacksChunks : Bool

namespace RankedPeer

/-- Is it unchoked? -/
def hasSlot (p : RankedPeer) : Bool := p.upload.hasUploadSlot

def sendUnchoke (p : RankedPeer) : RankedPeer := { p with upload := p.upload.sendUnchoke }

def choke (p : RankedPeer) : RankedPeer := { p with upload := p.upload.choke_ }

/-- What `calcACAScore` returns: seeders, and peers that want nothing, are not ranked. -/
def calcACAScore (p : RankedPeer) : Bool :=
  !(p.isSeeder || p.partialSeed) && !(!p.lacksChunks || !p.isInterested)

end RankedPeer

namespace Unchoking

variable (num_slots : UInt32) (poup : Option UInt32)

/-- The loop of `doUnchoking`; `poup` is the optimistic peer, and null when there is none. -/
def unchokeLoop : UInt32 → List RankedPeer → List RankedPeer
  | _, [] => []
  | num_unchoked, p :: ppl =>
    if poup.isNone && decide (num_unchoked < num_slots) then
      p.sendUnchoke :: unchokeLoop (num_unchoked + 1) ppl
    else if num_unchoked < num_slots - 1 ∨ some p.id = poup then
      p.sendUnchoke ::
        unchokeLoop (if some p.id ≠ poup then num_unchoked + 1 else num_unchoked) ppl
    else p.choke :: unchokeLoop num_unchoked ppl

/-- `AdvancedChokeAlgorithm::doUnchoking`. -/
def doUnchoking (ppl : List RankedPeer) : List RankedPeer := unchokeLoop num_slots poup 0 ppl

end Unchoking

/-! ## The rounds -/

/-- `UNDEFINED_ID`. -/
def undefinedId : UInt32 := 0xFFFFFFFF

/-- `AdvancedChokeAlgorithm`. -/
structure ChokeAlgorithm where
  opt_unchoked_peer_id : UInt32 := 0
  last_opt_sel_time : UInt64 := 0

/-- `PeerManager::findPeer`, as far as the identity goes. -/
def findPeer (peers : List RankedPeer) (id : UInt32) : Option UInt32 :=
  (peers.find? fun p => p.id = id).map RankedPeer.id

/-- `FindPlannedOptimisticUnchokedPeer`; `start` is the random position. -/
def findPlannedOptimisticUnchokedPeer (start : ℕ) (ppl : List RankedPeer) : UInt32 :=
  let found := (List.range (ppl.length - 1)).findSome? fun j =>
    (ppl[(start + 1 + j) % ppl.length]?).bind fun p =>
      if p.isChoked && p.isInterested && !p.isSeeder then some p.id else none
  found.getD undefinedId

namespace ChokeAlgorithm

/-- `AdvancedChokeAlgorithm::updateOptimisticPeer`. -/
def updateOptimisticPeer (c : ChokeAlgorithm) (now : UInt64) (start : ℕ)
    (peers ppl : List RankedPeer) : ChokeAlgorithm × Option UInt32 :=
  let poup := findPeer peers c.opt_unchoked_peer_id
  if now - c.last_opt_sel_time > 30 * 1000 ∨ poup.isNone then
    let id := findPlannedOptimisticUnchokedPeer start ppl
    (⟨id, now⟩, findPeer peers id)
  else (c, poup)

/-- `doChokingLeechingState` and `doChokingSeedingState`: they differ in how the peers are ranked,
by the score or by the upload rate. -/
def doChokingState (rank : List RankedPeer → List RankedPeer) (num_slots : UInt32)
    (c : ChokeAlgorithm) (now : UInt64) (start : ℕ) (peers : List RankedPeer) :
    ChokeAlgorithm × List RankedPeer :=
  let ppl := rank (peers.filter RankedPeer.calcACAScore)
  let (c, poup) := c.updateOptimisticPeer now start peers ppl
  (c, (peers.filter fun p => !p.calcACAScore).map RankedPeer.choke ++
    Unchoking.doUnchoking num_slots poup ppl)

end ChokeAlgorithm

/-! ## One peer -/

namespace RankedPeer

variable {p : RankedPeer}

@[simp] theorem id_sendUnchoke : p.sendUnchoke.id = p.id := rfl

@[simp] theorem id_choke : p.choke.id = p.id := rfl

@[simp] theorem hasSlot_sendUnchoke : p.sendUnchoke.hasSlot = true := by
  rw [hasSlot, sendUnchoke, UploadPeer.sendUnchoke]
  split
  case isTrue h => exact h
  case isFalse => rfl

@[simp] theorem hasSlot_choke : p.choke.hasSlot = false := by
  rw [hasSlot, choke, UploadPeer.choke_]
  split
  case isTrue h => simpa using h
  case isFalse =>
    have hkeep : ∀ (rs : List Peer.Request) (s : UploadPeer), s.hasUploadSlot = false →
        (rs.foldl UploadPeer.sendReject s).hasUploadSlot = false := by
      intro rs
      induction rs with
      | nil => exact fun _ h => h
      | cons r rs ih => exact fun s h => ih (s.sendReject r) h
    rw [UploadPeer.clearAllRequests]
    dsimp only
    split
    · exact hkeep _ _ rfl
    · rfl

theorem countP_sendUnchoke (l : List RankedPeer) :
    (l.map sendUnchoke).countP hasSlot = l.length := by
  rw [List.countP_map, List.countP_eq_length]
  exact fun p _ => hasSlot_sendUnchoke

theorem countP_choke (l : List RankedPeer) : (l.map choke).countP hasSlot = 0 := by
  rw [List.countP_map, List.countP_eq_zero]
  exact fun p _ => by simp

end RankedPeer

/-! ## The pass -/

namespace Unchoking

variable {num_slots : UInt32} {poup : Option UInt32} {ppl : List RankedPeer}

/-- What a pass owes: as many are unchoked as there are slots and peers for them, the optimistic
peer is one of them, and the others are unchoked in the order of the ranking. -/
structure SlotsUsed (num_slots : UInt32) (poup : Option UInt32)
    (ppl after : List RankedPeer) : Prop where
  same : after.map RankedPeer.id = ppl.map RankedPeer.id
  exact : after.countP RankedPeer.hasSlot = min num_slots.toNat ppl.length
  optimistic : ∀ p ∈ after, some p.id = poup → p.hasSlot
  ranked : (after.filter fun p => some p.id ≠ poup).Pairwise fun p q => q.hasSlot → p.hasSlot

/-- The slots that the pass hands out in the order of the ranking. -/
def ranks (num_slots : UInt32) (poup : Option UInt32) : ℕ :=
  if poup.isNone then num_slots.toNat else num_slots.toNat - 1

/-- **One turn**: the optimistic peer is unchoked for nothing, another one for a slot. -/
theorem unchokeLoop_cons (hslots : 1 ≤ num_slots.toNat) (num_unchoked : UInt32)
    (p : RankedPeer) :
    unchokeLoop num_slots poup num_unchoked (p :: ppl) =
      if some p.id = poup then p.sendUnchoke :: unchokeLoop num_slots poup num_unchoked ppl
      else if num_unchoked.toNat < ranks num_slots poup then
        p.sendUnchoke :: unchokeLoop num_slots poup (num_unchoked + 1) ppl
      else p.choke :: unchokeLoop num_slots poup num_unchoked ppl := by
  have hpred : (num_slots - 1).toNat = num_slots.toNat - 1 :=
    UInt32.toNat_sub_of_le _ _ (UInt32.le_iff_toNat_le.mpr hslots)
  rw [unchokeLoop]
  simp only [UInt32.lt_iff_toNat_lt, hpred, ranks]
  cases poup with
  | none =>
    simp only [Option.isNone_none, Bool.true_and, decide_eq_true_eq, reduceCtorEq, or_false,
      if_false, if_true, ne_eq, not_false_eq_true]
    by_cases hlt : num_unchoked.toNat < num_slots.toNat
    · rw [if_pos hlt, if_pos hlt]
    · rw [if_neg hlt, if_neg hlt, if_neg (by omega)]
  | some q =>
    simp only [Option.isNone_some, Bool.false_and, Bool.false_eq_true, if_false,
      Option.some.injEq]
    by_cases hq : p.id = q
    · simp [hq]
    · simp [hq]

theorem map_id_unchokeLoop (hslots : 1 ≤ num_slots.toNat) (num_unchoked : UInt32) :
    (unchokeLoop num_slots poup num_unchoked ppl).map RankedPeer.id
      = ppl.map RankedPeer.id := by
  induction ppl generalizing num_unchoked with
  | nil => rfl
  | cons p ppl ih =>
    rw [unchokeLoop_cons hslots]
    split
    · simp [ih]
    · split <;> simp [ih]

theorem optimistic_unchokeLoop (hslots : 1 ≤ num_slots.toNat) (num_unchoked : UInt32) :
    ∀ p ∈ unchokeLoop num_slots poup num_unchoked ppl, some p.id = poup → p.hasSlot := by
  induction ppl generalizing num_unchoked with
  | nil => exact fun p hp => absurd hp List.not_mem_nil
  | cons p ppl ih =>
    intro q hq hopt
    rw [unchokeLoop_cons hslots] at hq
    by_cases hp : some p.id = poup
    · rw [if_pos hp] at hq
      rcases List.mem_cons.mp hq with rfl | hq
      · exact RankedPeer.hasSlot_sendUnchoke
      · exact ih _ q hq hopt
    · rw [if_neg hp] at hq
      split at hq
      all_goals
        rcases List.mem_cons.mp hq with rfl | hq
        · exact absurd hopt hp
        · exact ih _ q hq hopt

/-- **The others are unchoked in the order of the ranking**, as far as their slots go. -/
theorem filter_unchokeLoop (hslots : 1 ≤ num_slots.toNat) {num_unchoked : UInt32} {left : ℕ}
    (hleft : num_unchoked.toNat + left = ranks num_slots poup) :
    (unchokeLoop num_slots poup num_unchoked ppl).filter (fun p => some p.id ≠ poup)
      = (((ppl.filter fun p => some p.id ≠ poup).take left).map RankedPeer.sendUnchoke) ++
        (((ppl.filter fun p => some p.id ≠ poup).drop left).map RankedPeer.choke) := by
  induction ppl generalizing num_unchoked left with
  | nil => simp [unchokeLoop]
  | cons p ppl ih =>
    rw [unchokeLoop_cons hslots]
    by_cases hp : some p.id = poup
    · rw [if_pos hp, List.filter_cons_of_neg (by simp [hp]), List.filter_cons_of_neg (by simp [hp]),
        ih hleft]
    · rw [if_neg hp, List.filter_cons_of_pos (a := p) (by simpa using hp)]
      cases left with
      | zero =>
        rw [if_neg (by omega), List.filter_cons_of_pos (by simp [hp]), ih hleft]
        simp
      | succ left =>
        have hnext : (num_unchoked + 1).toNat = num_unchoked.toNat + 1 := by
          have hlt := num_slots.toNat_lt
          have hranks : ranks num_slots poup ≤ num_slots.toNat := by
            rw [ranks]
            split <;> omega
          rw [UInt32.toNat_add]
          exact Nat.mod_eq_of_lt (by simp; omega)
        rw [if_pos (by omega), List.filter_cons_of_pos (by simp [hp]),
          ih (show (num_unchoked + 1).toNat + left = _ by omega), List.take_succ_cons,
          List.drop_succ_cons, List.map_cons, List.cons_append]

/-- The unchoked peers are the optimistic one, and as many of the others as have a slot. -/
theorem countP_doUnchoking (hslots : 1 ≤ num_slots.toNat) :
    (doUnchoking num_slots poup ppl).countP RankedPeer.hasSlot
      = min (ranks num_slots poup) (ppl.countP fun p => some p.id ≠ poup) +
        ppl.countP fun p => some p.id = poup := by
  rw [doUnchoking, List.countP_eq_countP_filter_add _ _ fun p => decide (some p.id ≠ poup),
    filter_unchokeLoop hslots (Nat.zero_add _)]
  congr 1
  · rw [List.countP_append, RankedPeer.countP_sendUnchoke, RankedPeer.countP_choke,
      List.length_take, Nat.add_zero, List.countP_eq_length_filter]
  · rw [List.countP_eq_length.mpr]
    · have hcount : ∀ l : List RankedPeer, (l.countP fun p => decide (some p.id = poup))
          = (l.map RankedPeer.id).countP fun id => decide (some id = poup) := by
        intro l
        rw [List.countP_map]
        rfl
      rw [hcount, ← @map_id_unchokeLoop num_slots poup ppl hslots 0, ← hcount,
        List.countP_eq_length_filter]
      simp
    · intro p hp
      obtain ⟨hp, hopt⟩ := List.mem_filter.mp hp
      exact optimistic_unchokeLoop hslots 0 p hp (by simpa using hopt)

/-- The optimistic peer is in a ranking once, or not at all. -/
theorem countP_optimistic (hnodup : (ppl.map RankedPeer.id).Nodup) (poup : Option UInt32) :
    (ppl.countP fun p => some p.id = poup)
      = if ∃ p ∈ ppl, some p.id = poup then 1 else 0 := by
  split
  case isTrue h =>
    obtain ⟨p, hp, hopt⟩ := h
    have hcount := List.count_eq_one_of_mem hnodup (List.mem_map_of_mem (f := RankedPeer.id) hp)
    rw [List.count, List.countP_map] at hcount
    rw [← hcount]
    refine List.countP_congr fun q _ => ?_
    simp [← hopt]
  case isFalse h =>
    exact List.countP_eq_zero.mpr fun p hp hopt => h ⟨p, hp, by simpa using hopt⟩

/-- **When the upload slots are used exactly.**  For every ranking, every number of slots and every
optimistic peer, the pass does what it owes exactly when there is no optimistic peer, it is in the
ranking, or all who are have a slot without the one that is kept. -/
theorem doUnchoking_iff (num_slots : UInt32) (poup : Option UInt32) (ppl : List RankedPeer)
    (hslots : 1 ≤ num_slots.toNat) (hnodup : (ppl.map RankedPeer.id).Nodup) :
    SlotsUsed num_slots poup ppl (doUnchoking num_slots poup ppl) ↔
      poup = none ∨ (∃ p ∈ ppl, some p.id = poup) ∨ ppl.length < num_slots.toNat := by
  have hcount := @countP_doUnchoking num_slots poup ppl hslots
  have hlength := List.length_eq_countP_add_countP (fun p => decide (some p.id = poup)) (l := ppl)
  have hother : (ppl.countP fun p => decide ¬ (decide (some p.id = poup)) = true)
      = ppl.countP fun p => decide (some p.id ≠ poup) := List.countP_congr fun p _ => by simp
  rw [hother, countP_optimistic hnodup] at hlength
  rw [countP_optimistic hnodup] at hcount
  have hexact : (doUnchoking num_slots poup ppl).countP RankedPeer.hasSlot
        = min num_slots.toNat ppl.length ↔
      poup = none ∨ (∃ p ∈ ppl, some p.id = poup) ∨ ppl.length < num_slots.toNat := by
    rw [hcount, ranks]
    by_cases hin : ∃ p ∈ ppl, some p.id = poup
    · rw [if_pos hin] at hlength ⊢
      have hsome : poup.isNone = false := by
        obtain ⟨p, -, hopt⟩ := hin
        rw [← hopt]
        rfl
      rw [hsome, if_neg Bool.false_ne_true]
      exact iff_of_true (by omega) (.inr (.inl hin))
    · rw [if_neg hin] at hlength ⊢
      cases poup with
      | none => exact iff_of_true (by simp) (.inl rfl)
      | some q =>
        simp only [Option.isNone_some, Bool.false_eq_true, if_false, reduceCtorEq, false_or, hin]
        omega
  refine ⟨fun h => hexact.mp h.exact, fun h => ?_⟩
  refine ⟨map_id_unchokeLoop hslots 0, hexact.mpr h, optimistic_unchokeLoop hslots 0, ?_⟩
  rw [doUnchoking, filter_unchokeLoop hslots (Nat.zero_add _), List.pairwise_append]
  refine ⟨List.pairwise_map.mpr (List.pairwise_of_forall fun _ _ _ => by simp),
    List.pairwise_map.mpr (List.pairwise_of_forall fun _ _ h => by simp at h), ?_⟩
  intro p hp q hq hslot
  obtain ⟨p', -, rfl⟩ := List.mem_map.mp hp
  exact RankedPeer.hasSlot_sendUnchoke

/-- A peer that wants something, and is choked. -/
def interestedPeer (id : UInt32) : RankedPeer where
  id := id
  upload := UploadPeer.new false
  isChoked := true
  isInterested := true
  isSeeder := false
  partialSeed := false
  lacksChunks := true

/-- Two slots for three peers, the last of which is tried out. -/
theorem doUnchoking_threePeers :
    SlotsUsed 2 (some 3) [interestedPeer 1, interestedPeer 2, interestedPeer 3]
        (doUnchoking 2 (some 3) [interestedPeer 1, interestedPeer 2, interestedPeer 3]) ↔
      (some 3 : Option UInt32) = none ∨
        (∃ p ∈ [interestedPeer 1, interestedPeer 2, interestedPeer 3], some p.id = some 3) ∨
        [interestedPeer 1, interestedPeer 2, interestedPeer 3].length < (2 : UInt32).toNat :=
  doUnchoking_iff 2 (some 3) _ (by decide) (by decide)

/-- Two slots for two peers, and one of them is kept for a peer that wants nothing any more. -/
theorem keptSlot_lost :
    ¬ SlotsUsed 2 (some 3) [interestedPeer 1, interestedPeer 2]
      (doUnchoking 2 (some 3) [interestedPeer 1, interestedPeer 2]) := by
  intro h
  have hexact := h.exact
  revert hexact
  decide

/-! ## A round -/

/-- **No round hands out more slots than there are**, whoever the optimistic peer is. -/
theorem doChokingState_slots_le {rank : List RankedPeer → List RankedPeer}
    (hrank : ∀ l, (rank l).Perm l) (hslots : 1 ≤ num_slots.toNat) (c : ChokeAlgorithm)
    (now : UInt64) (start : ℕ) {peers : List RankedPeer}
    (hnodup : (peers.map RankedPeer.id).Nodup) :
    (c.doChokingState rank num_slots now start peers).2.countP RankedPeer.hasSlot
      ≤ num_slots.toNat := by
  have hppl : ((rank (peers.filter RankedPeer.calcACAScore)).map RankedPeer.id).Nodup :=
    ((hrank _).map RankedPeer.id).nodup_iff.mpr (hnodup.sublist (List.filter_sublist.map _))
  rw [ChokeAlgorithm.doChokingState]
  dsimp only
  rw [List.countP_append, RankedPeer.countP_choke, Nat.zero_add, countP_doUnchoking hslots,
    countP_optimistic hppl, ranks]
  cases hpoup : (c.updateOptimisticPeer now start peers
      (rank (peers.filter RankedPeer.calcACAScore))).2 with
  | none =>
    simp only [Option.isNone_none, if_true, reduceCtorEq, and_false, exists_false, if_false]
    exact Nat.min_le_left _ _
  | some q =>
    have hless := Nat.min_le_left (num_slots.toNat - 1)
      ((rank (peers.filter RankedPeer.calcACAScore)).countP fun p => some p.id ≠ some q)
    rw [Option.isNone_some, if_neg Bool.false_ne_true]
    split <;> omega

end Unchoking

end KTorrent
