import KTorrent.Peer.Interest
import KTorrent.Util.BitSetCount

/-!
# The law of interest

While the manager is not paused and no change of the wanted chunks is waiting for an update, every
live peer that has a wanted chunk has been told that we are interested; and after an update that
found a change, no other live peer is marked.

The second half does not always hold.  `hasWantedChunks` counts the bits of whole bytes, and a
padding bit that is on in both sets makes a peer interesting that has nothing to offer.

* `Told`, `Retracted` — the two halves.
* `hasWantedChunks_iff` — what the code counts.
* `Clear` — the condition on an event.
* `interest_law_iff` — the law holds along a run exactly when every event meets the condition.
-/

namespace KTorrent

open Runs

namespace InterestManager

/-! ## The law -/

/-- The peer has a chunk that is wanted. -/
def HasWanted (wanted : BitSet) (p : Peer) : Prop := ∃ i, p.pieces.get i ∧ wanted.get i

/-- The peer with this id, if it is alive and has a wanted chunk, has been told. -/
def ToldPeer (s : InterestManager) (id : UInt32) : Prop :=
  ∀ p, s.manager.peerMap.lookup id = some p → p.killed = false → HasWanted s.wanted_chunks p →
    (s.flags id).am_interested = true

/-- Every live peer with a wanted chunk has been told that we are interested. -/
def Told (s : InterestManager) : Prop :=
  s.paused = false → s.wanted_changed = false → ∀ id, s.ToldPeer id

/-- After an update that found a change, a live peer without a wanted chunk is not marked. -/
def Retracted (s : InterestManager) : InterestEvent → Prop
  | .update rounds => s.wanted_changed = true →
    ∀ id p, (s.update rounds).manager.peerMap.lookup id = some p → p.killed = false →
      ¬ HasWanted s.wanted_chunks p → ((s.update rounds).flags id).am_interested = false
  | _ => True

/-! ## The condition -/

/-- The bits that are on in both sets, padding bits included. -/
def commonBits (a b : BitSet) : ℕ :=
  (List.range (8 * a.data.length)).countP fun k => dataBit a.data k && dataBit b.data k

/-- The peer has a wanted chunk when a bit is on in both sets, a padding bit or not. -/
def NoPadding (wanted : BitSet) (p : Peer) : Prop :=
  commonBits p.pieces wanted % 2 ^ 32 ≠ 0 → HasWanted wanted p

/-- With a wanted chunk, the number of the bits that are on in both sets is not 0 in 32 bits. -/
def Fits (wanted : BitSet) (p : Peer) : Prop :=
  HasWanted wanted p → commonBits p.pieces wanted % 2 ^ 32 ≠ 0

/-- The condition on an event.  In an update that finds a change, every live peer, after its packets
have been read, shares a padding bit with the wanted set only if it shares a chunk; and the bits
that it shares are not 2 to the 32, as there would be with that many chunks, neither then nor when
the manager is unpaused. -/
def Clear (s : InterestManager) : InterestEvent → Prop
  | .update rounds => s.wanted_changed = true →
    ∀ id p, (s.manager.update rounds).peerMap.lookup id = some p → p.killed = false →
      NoPadding s.wanted_chunks p ∧ (s.paused = false → Fits s.wanted_chunks p)
  | .unpause => s.paused = true → s.wanted_changed = false →
    ∀ id p, s.manager.peerMap.lookup id = some p → p.killed = false →
      (s.flags id).am_interested = false → Fits s.wanted_chunks p
  | _ => True

/-! ## What is counted -/

theorem dataBit_andBitSet (a b : BitSet) (k : ℕ) :
    dataBit (a.andBitSet b).data k = (dataBit a.data k && dataBit b.data k) := by
  have hdata : (a.andBitSet b).data
      = a.data.mapIdx fun i byte => byte &&& b.data.getD i 0 := rfl
  cases hbyte : a.data[k / 8]? with
  | none =>
    have houtside : 8 * a.data.length ≤ k := by
      rw [List.getElem?_eq_none_iff] at hbyte
      omega
    rw [dataBit_outside houtside, Bool.false_and, hdata, dataBit_outside]
    rw [List.length_mapIdx]
    exact houtside
  | some byte =>
    rw [hdata, dataBit_of_getElem? (by rw [List.getElem?_mapIdx, hbyte, Option.map_some]),
      byteBit_and _ _ (Nat.mod_lt _ (by decide)), BitSet.byteBit_getD,
      dataBit_of_getElem? hbyte]

/-- **What the code counts**: the bits that are on in both sets, in 32 bits. -/
theorem hasWantedChunks_iff (p : Peer) (wanted : BitSet) :
    p.hasWantedChunks wanted = true ↔ commonBits p.pieces wanted % 2 ^ 32 ≠ 0 := by
  have hlen : (p.pieces.andBitSet wanted).data.length = p.pieces.data.length := List.length_mapIdx
  have hcount : countBytes (p.pieces.andBitSet wanted).data = commonBits p.pieces wanted := by
    rw [countBytes_eq, hlen, commonBits]
    exact List.countP_congr fun k _ => by rw [dataBit_andBitSet]
  have hnum : (p.pieces.andBitSet wanted).numOn = UInt32.ofNat (commonBits p.pieces wanted) := by
    rw [← hcount]
    rfl
  rw [Peer.hasWantedChunks, decide_eq_true_iff, hnum, UInt32.lt_iff_toNat_lt, UInt32.toNat_ofNat',
    UInt32.toNat_zero, Nat.pos_iff_ne_zero]

/-! ## Telling a peer -/

variable {s : InterestManager} {id id' : UInt32} {p : Peer}

theorem setFlags_self (f : InterestFlags) : (s.setFlags id f).flags id = f :=
  Function.update_self _ _ _

theorem setFlags_ne (f : InterestFlags) (h : id' ≠ id) : (s.setFlags id f).flags id' = s.flags id' :=
  Function.update_of_ne h _ _

@[simp] theorem sendInterested_manager : (s.sendInterested id).manager = s.manager := by
  rw [sendInterested]; split <;> rfl

@[simp] theorem sendInterested_wanted : (s.sendInterested id).wanted_chunks = s.wanted_chunks := by
  rw [sendInterested]; split <;> rfl

@[simp] theorem sendInterested_changed :
    (s.sendInterested id).wanted_changed = s.wanted_changed := by
  rw [sendInterested]; split <;> rfl

@[simp] theorem sendInterested_paused : (s.sendInterested id).paused = s.paused := by
  rw [sendInterested]; split <;> rfl

@[simp] theorem sendNotInterested_manager : (s.sendNotInterested id).manager = s.manager := by
  rw [sendNotInterested]; split <;> rfl

@[simp] theorem sendNotInterested_wanted :
    (s.sendNotInterested id).wanted_chunks = s.wanted_chunks := by
  rw [sendNotInterested]; split <;> rfl

@[simp] theorem sendNotInterested_changed :
    (s.sendNotInterested id).wanted_changed = s.wanted_changed := by
  rw [sendNotInterested]; split <;> rfl

@[simp] theorem sendNotInterested_paused : (s.sendNotInterested id).paused = s.paused := by
  rw [sendNotInterested]; split <;> rfl

theorem sendInterested_self : ((s.sendInterested id).flags id).am_interested = true := by
  rw [sendInterested]
  split
  case isTrue h => exact h
  case isFalse => rw [setFlags_self]

theorem sendInterested_ne (h : id' ≠ id) : (s.sendInterested id).flags id' = s.flags id' := by
  rw [sendInterested]
  split
  · rfl
  · exact setFlags_ne _ h

theorem sendNotInterested_self : ((s.sendNotInterested id).flags id).am_interested = false := by
  rw [sendNotInterested]
  split
  case isTrue => rw [setFlags_self]
  case isFalse h => exact Bool.eq_false_iff.mpr h

theorem sendNotInterested_ne (h : id' ≠ id) : (s.sendNotInterested id).flags id' = s.flags id' := by
  rw [sendNotInterested]
  split
  · exact setFlags_ne _ h
  · rfl

/-- What is the same after the part of a function that is about interest: all but the flags of the
peer. -/
structure Touches (id : UInt32) (s s' : InterestManager) : Prop where
  wanted_chunks : s'.wanted_chunks = s.wanted_chunks
  wanted_changed : s'.wanted_changed = s.wanted_changed
  paused : s'.paused = s.paused
  lookup : ∀ id' ≠ id, s'.manager.peerMap.lookup id' = s.manager.peerMap.lookup id'
  flags : ∀ id' ≠ id, s'.flags id' = s.flags id'

theorem Touches.refl (s : InterestManager) : Touches id s s :=
  ⟨rfl, rfl, rfl, fun _ _ => rfl, fun _ _ => rfl⟩

theorem Touches.trans {s₁ s₂ s₃ : InterestManager} (h : Touches id s₁ s₂) (h' : Touches id s₂ s₃) :
    Touches id s₁ s₃ where
  wanted_chunks := h'.wanted_chunks.trans h.wanted_chunks
  wanted_changed := h'.wanted_changed.trans h.wanted_changed
  paused := h'.paused.trans h.paused
  lookup := fun id' hne => (h'.lookup id' hne).trans (h.lookup id' hne)
  flags := fun id' hne => (h'.flags id' hne).trans (h.flags id' hne)

theorem touches_sendInterested : Touches id s (s.sendInterested id) :=
  ⟨sendInterested_wanted, sendInterested_changed, sendInterested_paused,
    fun _ _ => by rw [sendInterested_manager], fun _ hne => sendInterested_ne hne⟩

theorem touches_sendNotInterested : Touches id s (s.sendNotInterested id) :=
  ⟨sendNotInterested_wanted, sendNotInterested_changed, sendNotInterested_paused,
    fun _ _ => by rw [sendNotInterested_manager], fun _ hne => sendNotInterested_ne hne⟩

/-- The manager below touches one peer. -/
theorem touches_manager {m : PeerManager}
    (h : ∀ id' ≠ id, m.peerMap.lookup id' = s.manager.peerMap.lookup id') :
    Touches id s { s with manager := m } :=
  ⟨rfl, rfl, rfl, h, fun _ _ => rfl⟩

/-- A peer that is not touched keeps what it was told. -/
theorem Touches.toldPeer {s' : InterestManager} (h : Touches id s s') (hne : id' ≠ id) (htold : s.ToldPeer id') :
    s'.ToldPeer id' := by
  intro p hp hk hwanted
  rw [h.lookup id' hne] at hp
  rw [h.wanted_chunks] at hwanted
  rw [h.flags id' hne]
  exact htold p hp hk hwanted

/-! ## The manager below -/

theorem peerMap_bitSetReceived (m : PeerManager) (id : UInt32) (bs : BitSet) :
    (m.bitSetReceived id bs).peerMap = m.peerMap := by
  have hloop : ∀ (is : List ℕ) (m : PeerManager),
      (is.foldl (fun m i => if bs.get i then m.received i else m) m).peerMap = m.peerMap := by
    intro is
    induction is with
    | nil => exact fun m => rfl
    | cons i is ih =>
      intro m
      rw [List.foldl_cons, ih]
      split <;> rfl
  exact hloop _ m

theorem lookup_kill (m : PeerManager) (id id' : UInt32) :
    (m.kill id).peerMap.lookup id' =
      if id' = id then (m.peerMap.lookup id).map fun p => { p with killed := true }
      else m.peerMap.lookup id' := by
  rw [PeerManager.kill]
  by_cases hid : id' = id
  · rw [if_pos hid, hid]
    cases hp : m.peerMap.lookup id with
    | none => exact hp
    | some p => exact AList.lookup_insert _
  · rw [if_neg hid]
    cases hp : m.peerMap.lookup id with
    | none => rfl
    | some p => exact AList.lookup_insert_ne hid

/-- The pieces of a peer after a packet that it did not kill it for. -/
def received (p : Peer) : PeerMessage → BitSet
  | .have_ ch => if ch.toNat < p.pieces.numBits.toNat then p.pieces.set ch.toNat true else p.pieces
  | .bitField packet => .fromData packet p.pieces.numBits
  | .haveAll => p.pieces.setAll true
  | .haveNone => p.pieces.setAll false
  | .invalid => p.pieces

/-- **What a packet does to the map**: the peer has the pieces that it has announced, or it is
killed. -/
theorem lookup_handlePacket {m : PeerManager} (hp : m.peerMap.lookup id = some p)
    (hk : p.killed = false) (packet : PeerMessage) :
    (∀ id' ≠ id, (m.handlePacket id packet).peerMap.lookup id' = m.peerMap.lookup id') ∧
      ∃ killed, (m.handlePacket id packet).peerMap.lookup id
        = some ⟨received p packet, killed⟩ := by
  have hkill : (∀ id' ≠ id, (m.kill id).peerMap.lookup id' = m.peerMap.lookup id') ∧
      ∃ killed, (m.kill id).peerMap.lookup id = some ⟨p.pieces, killed⟩ := by
    refine ⟨fun id' hne => by rw [lookup_kill, if_neg hne], true, ?_⟩
    rw [lookup_kill, if_pos rfl, hp]
    rfl
  have hset : ∀ bs : BitSet,
      (∀ id' ≠ id, (m.setPeer id { p with pieces := bs }).peerMap.lookup id'
        = m.peerMap.lookup id') ∧
      (m.setPeer id { p with pieces := bs }).peerMap.lookup id = some ⟨bs, false⟩ := by
    intro bs
    refine ⟨fun id' hne => AList.lookup_insert_ne hne, ?_⟩
    rw [PeerManager.setPeer, AList.lookup_insert, hk]
  rw [PeerManager.handlePacket, hp]
  dsimp only
  rw [if_neg (Bool.eq_false_iff.mp hk)]
  cases packet with
  | have_ ch =>
    dsimp only
    rw [PeerManager.handleHave, received]
    by_cases hch : ch.toNat < p.pieces.numBits.toNat
    · rw [if_pos hch, if_pos hch]
      refine ⟨fun id' hne => AList.lookup_insert_ne hne, false, ?_⟩
      rw [PeerManager.setPeer, AList.lookup_insert, hk]
    · rw [if_neg hch, if_neg hch]
      split
      · exact hkill
      · exact ⟨fun _ _ => rfl, p.killed, hp⟩
  | bitField packet =>
    dsimp only
    rw [PeerManager.handleBitField, peerMap_bitSetReceived]
    exact ⟨(hset _).1, false, (hset _).2⟩
  | haveAll =>
    dsimp only
    rw [PeerManager.handleHaveAll, peerMap_bitSetReceived]
    exact ⟨(hset _).1, false, (hset _).2⟩
  | haveNone =>
    dsimp only
    rw [PeerManager.handleHaveNone, peerMap_bitSetReceived]
    exact ⟨(hset _).1, false, (hset _).2⟩
  | invalid => exact hkill

/-- A visit leaves a peer as it is or takes it out of the map. -/
theorem lookup_visit (m : PeerManager) (id id' : UInt32) (stalled : Bool) :
    (m.visit id stalled).peerMap.lookup id' = m.peerMap.lookup id' ∨
      id' = id ∧ (m.visit id stalled).peerMap.lookup id' = none := by
  rw [PeerManager.visit]
  cases hp : m.peerMap.lookup id with
  | none => exact .inl rfl
  | some p =>
    dsimp only
    split
    · by_cases hid : id' = id
      · right
        rw [hid]
        exact ⟨rfl, AList.lookup_erase _ _⟩
      · exact .inl (AList.lookup_erase_ne hid)
    · exact .inl rfl

/-! ## Packets -/

theorem touches_have (index : ℕ) : Touches id s (s.have_ id index) := by
  rw [have_]
  split
  · exact touches_sendInterested
  · exact .refl s

theorem touches_bitSetReceived (bs : BitSet) : Touches id s (s.bitSetReceived id bs) := by
  rw [bitSetReceived]
  split
  · exact touches_sendInterested
  · exact .refl s

@[simp] theorem have_manager (index : ℕ) : (s.have_ id index).manager = s.manager := by
  rw [have_]; split <;> simp

@[simp] theorem bitSetReceived_manager (bs : BitSet) :
    (s.bitSetReceived id bs).manager = s.manager := by
  rw [bitSetReceived]; split <;> simp

/-- The manager below handles the packet. -/
theorem handlePacket_manager (packet : PeerMessage) :
    (s.handlePacket id packet).manager = s.manager.handlePacket id packet := by
  rw [handlePacket]
  cases hp : s.manager.peerMap.lookup id with
  | none => rw [PeerManager.handlePacket, hp]
  | some p =>
    dsimp only
    by_cases hk : p.killed = true
    · rw [if_pos hk, PeerManager.handlePacket, hp]
      dsimp only
      rw [if_pos hk]
    · rw [if_neg hk]
      cases packet with
      | have_ ch => dsimp only; split <;> simp
      | bitField packet => simp
      | haveAll => simp
      | haveNone => simp
      | invalid => rfl

theorem touches_handlePacket (packet : PeerMessage) : Touches id s (s.handlePacket id packet) := by
  rw [handlePacket]
  cases hp : s.manager.peerMap.lookup id with
  | none => exact .refl s
  | some p =>
    dsimp only
    by_cases hk : p.killed = true
    · rw [if_pos hk]
      exact .refl s
    · rw [if_neg hk]
      have hbase : Touches id s { s with manager := s.manager.handlePacket id packet } :=
        touches_manager (lookup_handlePacket hp (Bool.eq_false_iff.mpr hk) packet).1
      cases packet with
      | have_ ch =>
        dsimp only
        split
        · exact hbase.trans (touches_have _)
        · exact hbase
      | bitField packet => exact hbase.trans (touches_bitSetReceived _)
      | haveAll => exact hbase.trans (touches_bitSetReceived _)
      | haveNone => exact hbase.trans (touches_bitSetReceived _)
      | invalid => exact hbase

theorem bitSetReceived_tells (hpaused : s.paused = false) {bs : BitSet} {i : ℕ}
    (hbs : bs.get i = true) (hw : s.wanted_chunks.get i = true) :
    ((s.bitSetReceived id bs).flags id).am_interested = true := by
  have hi : i < bs.numBits.toNat := by
    rw [BitSet.get, Bool.and_eq_true, decide_eq_true_eq] at hbs
    exact hbs.1
  have hany : ((List.range bs.numBits.toNat).any fun i => bs.get i && s.wanted_chunks.get i) = true :=
    List.any_eq_true.mpr ⟨i, List.mem_range.mpr hi, by rw [hbs, hw, Bool.and_self]⟩
  rw [bitSetReceived, hany, hpaused, Bool.not_false, Bool.and_self, if_pos rfl]
  exact sendInterested_self

/-- **A packet that brings a wanted chunk tells the peer.** -/
theorem toldPeer_handlePacket (hpaused : s.paused = false) (htold : s.ToldPeer id)
    (packet : PeerMessage) : (s.handlePacket id packet).ToldPeer id := by
  intro p' hp' hk' hwanted
  rw [handlePacket_manager] at hp'
  rw [(touches_handlePacket packet).wanted_chunks] at hwanted
  cases hp : s.manager.peerMap.lookup id with
  | none =>
    rw [PeerManager.handlePacket, hp] at hp'
    dsimp only at hp'
    rw [hp] at hp'
    cases hp'
  | some p =>
    by_cases hk : p.killed = true
    · rw [PeerManager.handlePacket, hp] at hp'
      dsimp only at hp'
      rw [if_pos hk, hp, Option.some.injEq] at hp'
      rw [hp', hk'] at hk
      cases hk
    · have hk : p.killed = false := Bool.eq_false_iff.mpr hk
      obtain ⟨killed, hafter⟩ := (lookup_handlePacket hp hk packet).2
      rw [hafter, Option.some.injEq] at hp'
      obtain ⟨i, hget, hw⟩ := hwanted
      rw [← hp'] at hget
      have hbefore : p.pieces.get i = true → (s.flags id).am_interested = true :=
        fun hi => htold p hp hk ⟨i, hi, hw⟩
      rw [handlePacket, hp]
      dsimp only
      rw [if_neg (Bool.eq_false_iff.mp hk)]
      obtain ⟨s₁, hs₁⟩ : ∃ s₁ : InterestManager,
        s₁ = { s with manager := s.manager.handlePacket id packet } := ⟨_, rfl⟩
      have hpaused₁ : s₁.paused = false := by rw [hs₁]; exact hpaused
      have hw₁ : s₁.wanted_chunks.get i = true := by rw [hs₁]; exact hw
      have hbefore₁ : p.pieces.get i = true → (s₁.flags id).am_interested = true := by
        rw [hs₁]; exact hbefore
      rw [← hs₁]
      cases packet with
      | have_ ch =>
        dsimp only [received] at hget ⊢
        by_cases hch : ch.toNat < p.pieces.numBits.toNat
        · rw [if_pos hch] at hget ⊢
          rw [BitSet.get_set _ _ hch] at hget
          rw [have_]
          by_cases hi : i = ch.toNat
          · rw [← hi, hw₁, hpaused₁, Bool.not_false, Bool.and_self, if_pos rfl]
            exact sendInterested_self
          · rw [if_neg hi] at hget
            split
            · exact sendInterested_self
            · exact hbefore₁ hget
        · rw [if_neg hch] at hget ⊢
          exact hbefore₁ hget
      | bitField packet => exact bitSetReceived_tells hpaused₁ hget hw₁
      | haveAll => exact bitSetReceived_tells hpaused₁ hget hw₁
      | haveNone => exact bitSetReceived_tells hpaused₁ hget hw₁
      | invalid => exact hbefore₁ hget

/-! ## One peer in an update -/

theorem touches_kill : Touches id s (s.kill id) :=
  touches_manager fun id' hne => by rw [lookup_kill, if_neg hne]

theorem toldPeer_kill : (s.kill id).ToldPeer id := by
  intro p hp hk _
  rw [kill, lookup_kill, if_pos rfl] at hp
  obtain ⟨q, -, hq⟩ := Option.map_eq_some_iff.mp hp
  rw [← hq] at hk
  cases hk

/-- What `Peer::update` does: the packets one after the other, or a kill. -/
theorem peerUpdate_spec (round : PeerRound) :
    Touches id s (s.peerUpdate id round) ∧
      (s.peerUpdate id round).manager = s.manager.peerUpdate id round ∧
      (s.paused = false → s.ToldPeer id → (s.peerUpdate id round).ToldPeer id) := by
  rw [peerUpdate, PeerManager.peerUpdate]
  split
  · exact ⟨touches_kill, rfl, fun _ _ => toldPeer_kill⟩
  · have hpackets : ∀ (packets : List PeerMessage) (s : InterestManager),
        Touches id s (packets.foldl (fun s packet => s.handlePacket id packet) s) ∧
          (packets.foldl (fun s packet => s.handlePacket id packet) s).manager
            = packets.foldl (fun m packet => m.handlePacket id packet) s.manager ∧
          (s.paused = false → s.ToldPeer id →
            (packets.foldl (fun s packet => s.handlePacket id packet) s).ToldPeer id) := by
      intro packets
      induction packets with
      | nil => exact fun s => ⟨.refl s, rfl, fun _ h => h⟩
      | cons packet packets ih =>
        intro s
        obtain ⟨htouch, hmanager, htold⟩ := ih (s.handlePacket id packet)
        have hfirst : Touches id s (s.handlePacket id packet) := touches_handlePacket packet
        refine ⟨hfirst.trans htouch, ?_, fun hpaused h => ?_⟩
        · rw [List.foldl_cons, List.foldl_cons, hmanager, handlePacket_manager]
        · exact htold (hfirst.paused.trans hpaused) (toldPeer_handlePacket hpaused h packet)
    exact hpackets round.packets s

theorem touches_reconsider : Touches id s (s.reconsider id) := by
  rw [reconsider]
  split
  · exact .refl s
  · split
    · split
      · exact touches_sendInterested
      · exact touches_sendNotInterested
    · exact .refl s

@[simp] theorem reconsider_manager : (s.reconsider id).manager = s.manager := by
  rw [reconsider]
  split
  · rfl
  · split
    · split <;> simp
    · rfl

/-- The mark of the peer says what `hasWantedChunks` says. -/
def Settled (s : InterestManager) (id : UInt32) : Prop :=
  ∀ p, s.manager.peerMap.lookup id = some p →
    (s.flags id).am_interested = p.hasWantedChunks s.wanted_chunks

theorem settled_reconsider (hchanged : s.wanted_changed = true) : (s.reconsider id).Settled id := by
  intro p hp
  rw [reconsider_manager] at hp
  rw [touches_reconsider.wanted_chunks, reconsider, hp]
  dsimp only
  rw [if_pos hchanged]
  cases hhas : p.hasWantedChunks s.wanted_chunks with
  | true => rw [if_pos rfl]; exact sendInterested_self
  | false => rw [if_neg Bool.false_ne_true]; exact sendNotInterested_self

/-- **One peer in an update**: nobody else is touched; without a change a peer that was told stays
so, and with a change its mark is what `hasWantedChunks` says. -/
theorem visitPeer_spec (s : InterestManager) (id : UInt32) (round : PeerRound) :
    Touches id s (s.visitPeer id round) ∧
      (s.visitPeer id round).manager = (s.manager.visit id round.stalled).peerUpdate id round ∧
      (s.paused = false → s.wanted_changed = false → s.ToldPeer id →
        (s.visitPeer id round).ToldPeer id) ∧
      (s.wanted_changed = true → (s.visitPeer id round).Settled id) := by
  obtain ⟨s₁, hs₁⟩ : ∃ s₁ : InterestManager,
    s₁ = { s with manager := s.manager.visit id round.stalled } := ⟨_, rfl⟩
  have hvisit : Touches id s s₁ := by
    rw [hs₁]
    refine touches_manager fun id' hne => ?_
    exact (lookup_visit s.manager id id' round.stalled).resolve_right fun h => hne h.1
  have hmanager : s₁.manager = s.manager.visit id round.stalled := by rw [hs₁]
  have hflags : s₁.flags = s.flags := by rw [hs₁]
  have htold₁ : s.ToldPeer id → s₁.ToldPeer id := by
    intro h p hp hk hwanted
    rw [hvisit.wanted_chunks] at hwanted
    rw [hflags]
    rw [hmanager] at hp
    rcases lookup_visit s.manager id id round.stalled with hsame | ⟨-, hnone⟩
    · exact h p (hsame ▸ hp) hk hwanted
    · rw [hnone] at hp
      cases hp
  have hstep : s.visitPeer id round =
      if id ∈ s₁.manager.peerMap then (s₁.peerUpdate id round).reconsider id else s₁ := by
    rw [hs₁]
    rfl
  rw [hstep, ← hmanager]
  by_cases hmem : id ∈ s₁.manager.peerMap
  · rw [if_pos hmem]
    obtain ⟨htouch, hbase, htold⟩ := peerUpdate_spec (s := s₁) round
    refine ⟨(hvisit.trans htouch).trans touches_reconsider, by rw [reconsider_manager, hbase],
      fun hpaused hchanged h => ?_, fun hchanged => ?_⟩
    · have hnone : (s₁.peerUpdate id round).reconsider id = s₁.peerUpdate id round := by
        rw [reconsider]
        split
        · rfl
        · rw [if_neg]
          rw [(hvisit.trans htouch).wanted_changed, hchanged]
          exact Bool.false_ne_true
      rw [hnone]
      exact htold (hvisit.paused.trans hpaused) (htold₁ h)
    · exact settled_reconsider ((hvisit.trans htouch).wanted_changed.trans hchanged)
  · rw [if_neg hmem]
    have hnone : s₁.manager.peerMap.lookup id = none := AList.lookup_eq_none.mpr hmem
    refine ⟨hvisit, ?_, fun _ _ => htold₁, fun _ p hp => ?_⟩
    · rw [PeerManager.peerUpdate, PeerManager.kill, hnone]
      split
      · rfl
      · have hpackets : ∀ packets : List PeerMessage,
            packets.foldl (fun m packet => m.handlePacket id packet) s₁.manager = s₁.manager := by
          intro packets
          induction packets with
          | nil => rfl
          | cons packet packets ih =>
            rw [List.foldl_cons, PeerManager.handlePacket, hnone]
            exact ih
        exact (hpackets _).symm
    · rw [hnone] at hp
      cases hp

/-! ## All peers -/

/-- The two states agree on a peer and on what there is to want. -/
structure AgreesAt (id : UInt32) (s s' : InterestManager) : Prop where
  wanted_chunks : s'.wanted_chunks = s.wanted_chunks
  wanted_changed : s'.wanted_changed = s.wanted_changed
  paused : s'.paused = s.paused
  lookup : s'.manager.peerMap.lookup id = s.manager.peerMap.lookup id
  flags : s'.flags id = s.flags id

theorem AgreesAt.refl (s : InterestManager) : AgreesAt id s s := ⟨rfl, rfl, rfl, rfl, rfl⟩

theorem AgreesAt.trans {s₁ s₂ s₃ : InterestManager} (h : AgreesAt id s₁ s₂)
    (h' : AgreesAt id s₂ s₃) : AgreesAt id s₁ s₃ where
  wanted_chunks := h'.wanted_chunks.trans h.wanted_chunks
  wanted_changed := h'.wanted_changed.trans h.wanted_changed
  paused := h'.paused.trans h.paused
  lookup := h'.lookup.trans h.lookup
  flags := h'.flags.trans h.flags

theorem Touches.agreesAt {s' : InterestManager} (h : Touches id s s') (hne : id' ≠ id) :
    AgreesAt id' s s' :=
  ⟨h.wanted_chunks, h.wanted_changed, h.paused, h.lookup id' hne, h.flags id' hne⟩

section Loop

variable {f : InterestManager → UInt32 → InterestManager}

/-- A loop over other peers leaves a peer alone. -/
theorem foldl_agreesAt (hf : ∀ s id, Touches id s (f s id)) :
    ∀ (ids : List UInt32) (s : InterestManager), id ∉ ids → AgreesAt id s (ids.foldl f s) := by
  intro ids
  induction ids with
  | nil => exact fun s _ => .refl s
  | cons i ids ih =>
    intro s hnot
    rw [List.mem_cons, not_or] at hnot
    exact ((hf s i).agreesAt hnot.1).trans (ih (f s i) hnot.2)

/-- **A loop over all peers does to each what its round does to it alone.** -/
theorem foldl_at (hf : ∀ s id, Touches id s (f s id)) :
    ∀ (ids : List UInt32) (s : InterestManager), ids.Nodup → id ∈ ids →
      ∃ s₁, AgreesAt id s s₁ ∧ AgreesAt id (f s₁ id) (ids.foldl f s) := by
  intro ids
  induction ids with
  | nil => intro s _ hid; cases hid
  | cons i ids ih =>
    intro s hnodup hid
    rw [List.nodup_cons] at hnodup
    by_cases hi : id = i
    · refine ⟨s, .refl s, ?_⟩
      rw [List.foldl_cons, hi]
      exact foldl_agreesAt hf ids _ hnodup.1
    · have hrest := (List.mem_cons.mp hid).resolve_left hi
      obtain ⟨s₁, hbefore, hafter⟩ := ih (f s i) hnodup.2 hrest
      exact ⟨s₁, ((hf s i).agreesAt hi).trans hbefore, hafter⟩

end Loop

theorem nodup_ids (m : PeerManager) : m.ids.Nodup :=
  (List.perm_insertionSort _ _).nodup_iff.mpr m.peerMap.nodupKeys

theorem mem_ids {m : PeerManager} (h : m.peerMap.lookup id = some p) : id ∈ m.ids := by
  rw [PeerManager.ids, List.mem_insertionSort]
  exact AList.mem_keys.mp (AList.lookup_isSome.mp (by rw [h]; rfl))

theorem foldl_manager {f : InterestManager → UInt32 → InterestManager}
    {g : PeerManager → UInt32 → PeerManager} (h : ∀ s id, (f s id).manager = g s.manager id) :
    ∀ (ids : List UInt32) (s : InterestManager), (ids.foldl f s).manager = ids.foldl g s.manager := by
  intro ids
  induction ids with
  | nil => exact fun s => rfl
  | cons i ids ih => intro s; rw [List.foldl_cons, List.foldl_cons, ih, h]

/-! ## The events -/

theorem update_manager (rounds : UInt32 → PeerRound) :
    (s.update rounds).manager = s.manager.update rounds :=
  foldl_manager (f := fun s id => s.visitPeer id (rounds id))
    (g := fun m id => (m.visit id (rounds id).stalled).peerUpdate id (rounds id))
    (fun s id => (visitPeer_spec s id (rounds id)).2.1) s.manager.ids s

/-- An update does not change the wanted set, and does not put anybody into the map. -/
theorem update_at (rounds : UInt32 → PeerRound)
    (hp : (s.update rounds).manager.peerMap.lookup id = some p) :
    ∃ s₁, AgreesAt id s s₁ ∧ (s₁.visitPeer id (rounds id)).manager.peerMap.lookup id = some p ∧
      (s.update rounds).flags id = (s₁.visitPeer id (rounds id)).flags id := by
  have htouch : ∀ s id, Touches id s (visitPeer s id (rounds id)) :=
    fun s id => (visitPeer_spec s id (rounds id)).1
  by_cases hid : id ∈ s.manager.ids
  · obtain ⟨s₁, hbefore, hafter⟩ := foldl_at htouch s.manager.ids s (nodup_ids _) hid
    exact ⟨s₁, hbefore, hafter.lookup.symm.trans hp, hafter.flags⟩
  · have hsame := foldl_agreesAt htouch s.manager.ids s hid
    have hbefore : s.manager.peerMap.lookup id = some p := hsame.lookup.symm.trans hp
    exact absurd (mem_ids hbefore) hid

theorem update_wanted (rounds : UInt32 → PeerRound) :
    (s.update rounds).wanted_chunks = s.wanted_chunks ∧ (s.update rounds).paused = s.paused := by
  have hloop : ∀ (ids : List UInt32) (s : InterestManager),
      (ids.foldl (fun s id => s.visitPeer id (rounds id)) s).wanted_chunks = s.wanted_chunks ∧
        (ids.foldl (fun s id => s.visitPeer id (rounds id)) s).paused = s.paused := by
    intro ids
    induction ids with
    | nil => exact fun s => ⟨rfl, rfl⟩
    | cons i ids ih =>
      intro s
      have htouch := (visitPeer_spec s i (rounds i)).1
      have hrest := ih (s.visitPeer i (rounds i))
      exact ⟨hrest.1.trans htouch.wanted_chunks, hrest.2.trans htouch.paused⟩
  exact hloop s.manager.ids s

/-- **An update that finds a change** gives every peer the mark that `hasWantedChunks` says. -/
theorem update_settled (hchanged : s.wanted_changed = true) (rounds : UInt32 → PeerRound) :
    (s.update rounds).Settled id := by
  intro p hp
  obtain ⟨s₁, hagree, hlookup, hflags⟩ := update_at rounds hp
  have hspec := visitPeer_spec s₁ id (rounds id)
  have hsettled := hspec.2.2.2 (hagree.wanted_changed.trans hchanged) p hlookup
  rw [hflags, hsettled, hspec.1.wanted_chunks, hagree.wanted_chunks, (update_wanted rounds).1]

/-- An update that finds none keeps who was told. -/
theorem update_told (hpaused : s.paused = false) (hchanged : s.wanted_changed = false)
    (rounds : UInt32 → PeerRound) (htold : s.ToldPeer id) : (s.update rounds).ToldPeer id := by
  intro p hp hk hwanted
  obtain ⟨s₁, hagree, hlookup, hflags⟩ := update_at rounds hp
  have hspec := visitPeer_spec s₁ id (rounds id)
  have htold₁ : s₁.ToldPeer id := by
    intro q hq hkq hwq
    rw [hagree.lookup] at hq
    rw [hagree.wanted_chunks] at hwq
    rw [hagree.flags]
    exact htold q hq hkq hwq
  rw [hflags]
  refine hspec.2.2.1 (hagree.paused.trans hpaused) (hagree.wanted_changed.trans hchanged) htold₁
    p hlookup hk ?_
  rw [(update_wanted rounds).1] at hwanted
  rw [hspec.1.wanted_chunks, hagree.wanted_chunks]
  exact hwanted

/-- A new peer has nothing to offer. -/
theorem toldPeer_createPeer {interested : Bool} (htold : s.ToldPeer id') :
    (s.createPeer id interested).ToldPeer id' := by
  rw [createPeer]
  split
  · exact htold
  case isFalse hnew =>
    obtain ⟨s₁, hs₁⟩ : ∃ s₁ : InterestManager, s₁ =
        ({ s with manager := s.manager.createPeer id } : InterestManager).setFlags id
          ⟨false, false⟩ := ⟨_, rfl⟩
    have hmap : s₁.manager.peerMap
        = s.manager.peerMap.insert id ⟨.new s.manager.numChunks, false⟩ := by
      rw [hs₁]
      dsimp only [setFlags]
      rw [PeerManager.createPeer, if_neg hnew]
      rfl
    have hwanted : s₁.wanted_chunks = s.wanted_chunks := by rw [hs₁]; rfl
    have hadded : s₁.ToldPeer id' := by
      intro p hp hk hw
      rw [hmap] at hp
      by_cases hid : id' = id
      · obtain ⟨i, hget, -⟩ := hw
        rw [hid, AList.lookup_insert, Option.some.injEq] at hp
        rw [← hp, BitSet.get_new] at hget
        cases hget
      · rw [AList.lookup_insert_ne hid] at hp
        rw [hwanted] at hw
        have hflags : s₁.flags id' = s.flags id' := by
          rw [hs₁]
          exact setFlags_ne _ hid
        rw [hflags]
        exact htold p hp hk hw
    have hgoal : (if interested then s₁.sendInterested id else s₁).ToldPeer id' := by
      split
      · by_cases hid : id' = id
        · rw [hid]
          exact fun _ _ _ _ => sendInterested_self
        · exact touches_sendInterested.toldPeer hid hadded
      · exact hadded
    rw [hs₁] at hgoal
    exact hgoal

/-- What `unpause` does with a peer: it keeps its mark, or gets it when `hasWantedChunks` says so. -/
theorem unpausePeer_spec (s : InterestManager) (id : UInt32) :
    Touches id s (s.unpausePeer id) ∧ (s.unpausePeer id).manager = s.manager ∧
      ∀ p, s.manager.peerMap.lookup id = some p →
        ((s.unpausePeer id).flags id).am_interested
          = ((s.flags id).am_interested || p.hasWantedChunks s.wanted_chunks) := by
  obtain ⟨s₁, hs₁⟩ : ∃ s₁, s₁ = s.setFlags id { s.flags id with paused := false } := ⟨_, rfl⟩
  have hset : Touches id s s₁ := by
    rw [hs₁]
    exact ⟨rfl, rfl, rfl, fun _ _ => rfl, fun _ hne => setFlags_ne _ hne⟩
  have hmark : (s₁.flags id).am_interested = (s.flags id).am_interested := by
    rw [hs₁, setFlags_self]
  have hmanager : s₁.manager = s.manager := by rw [hs₁]; rfl
  rw [unpausePeer, ← hs₁, hmanager, hset.wanted_chunks]
  cases hp : s.manager.peerMap.lookup id with
  | none => exact ⟨hset, hmanager, fun p h => by cases h⟩
  | some p =>
    dsimp only
    cases hhas : p.hasWantedChunks s.wanted_chunks with
    | true =>
      rw [if_pos rfl]
      refine ⟨hset.trans touches_sendInterested, by rw [sendInterested_manager, hmanager], ?_⟩
      intro q hq
      rw [← Option.some.inj hq, hhas, Bool.or_true]
      exact sendInterested_self
    | false =>
      rw [if_neg Bool.false_ne_true]
      refine ⟨hset, hmanager, fun q hq => ?_⟩
      rw [← Option.some.inj hq, hhas, Bool.or_false]
      exact hmark

/-- **Unpausing** gives a peer its mark when `hasWantedChunks` says so, and takes none. -/
theorem unpause_at (hpaused : s.paused = true)
    (hp : s.manager.peerMap.lookup id = some p) :
    s.unpause.manager = s.manager ∧ s.unpause.wanted_chunks = s.wanted_chunks ∧
      s.unpause.wanted_changed = s.wanted_changed ∧
      (s.unpause.flags id).am_interested
        = ((s.flags id).am_interested || p.hasWantedChunks s.wanted_chunks) := by
  have htouch : ∀ s id, Touches id s (unpausePeer s id) := fun s id => (unpausePeer_spec s id).1
  obtain ⟨s₁, hbefore, hafter⟩ := foldl_at htouch s.manager.ids s (nodup_ids _) (mem_ids hp)
  have hmanager := foldl_manager (g := fun m _ => m) (fun s id => (unpausePeer_spec s id).2.1)
    s.manager.ids s
  have hid : s.manager.ids.foldl (fun m _ => m) s.manager = s.manager := List.foldl_fixed _
  have hspec := (unpausePeer_spec s₁ id).2.2 p (hbefore.lookup.trans hp)
  rw [hbefore.flags, hbefore.wanted_chunks] at hspec
  rw [unpause, if_pos hpaused]
  refine ⟨hmanager.trans hid, ?_, ?_, ?_⟩
  · exact hafter.wanted_chunks.trans ((htouch s₁ id).wanted_chunks.trans hbefore.wanted_chunks)
  · exact hafter.wanted_changed.trans ((htouch s₁ id).wanted_changed.trans hbefore.wanted_changed)
  · exact (congrArg InterestFlags.am_interested hafter.flags).trans hspec

theorem unpause_manager : s.unpause.manager = s.manager ∧
    s.unpause.wanted_chunks = s.wanted_chunks ∧ s.unpause.wanted_changed = s.wanted_changed := by
  rw [unpause]
  split
  · have hloop : ∀ (ids : List UInt32) (s : InterestManager),
        (ids.foldl unpausePeer s).manager = s.manager ∧
          (ids.foldl unpausePeer s).wanted_chunks = s.wanted_chunks ∧
          (ids.foldl unpausePeer s).wanted_changed = s.wanted_changed := by
      intro ids
      induction ids with
      | nil => exact fun s => ⟨rfl, rfl, rfl⟩
      | cons i ids ih =>
        intro s
        obtain ⟨htouch, hmanager, -⟩ := unpausePeer_spec s i
        obtain ⟨h₁, h₂, h₃⟩ := ih (s.unpausePeer i)
        exact ⟨h₁.trans hmanager, h₂.trans htouch.wanted_chunks, h₃.trans htouch.wanted_changed⟩
    exact hloop s.manager.ids s
  · exact ⟨rfl, rfl, rfl⟩

/-! ## Runs -/

/-- An update that finds a change keeps both halves of the law exactly when it meets the
condition. -/
theorem update_law_iff (hchanged : s.wanted_changed = true) (rounds : UInt32 → PeerRound) :
    (s.update rounds).Told ∧ s.Retracted (.update rounds) ↔ s.Clear (.update rounds) := by
  obtain ⟨hwanted, hpaused⟩ := update_wanted (s := s) rounds
  have hsettled : ∀ id, (s.update rounds).Settled id := fun id => update_settled hchanged rounds
  -- the mark of a peer after the update, in terms of the bits
  have hmark : ∀ id p, (s.manager.update rounds).peerMap.lookup id = some p →
      (((s.update rounds).flags id).am_interested = true ↔
        commonBits p.pieces s.wanted_chunks % 2 ^ 32 ≠ 0) := by
    intro id p hp
    rw [← update_manager] at hp
    rw [hsettled id p hp, hwanted, hasWantedChunks_iff]
  constructor
  · rintro ⟨htold, hretracted⟩ hc id p hp hk
    constructor
    · intro hcommon
      by_contra hnot
      have hfalse := hretracted hc id p (by rw [update_manager]; exact hp) hk hnot
      rw [(hmark id p hp).mpr hcommon] at hfalse
      cases hfalse
    · intro hrunning hhas
      refine (hmark id p hp).mp (htold (hpaused.trans hrunning) rfl id p ?_ hk ?_)
      · rw [update_manager]; exact hp
      · rw [hwanted]; exact hhas
  · intro hclear
    constructor
    · intro hrunning _ id p hp hk hhas
      rw [update_manager] at hp
      rw [hwanted] at hhas
      exact (hmark id p hp).mpr ((hclear hchanged id p hp hk).2 (hpaused.symm.trans hrunning) hhas)
    · intro hc id p hp hk hnot
      rw [update_manager] at hp
      rw [Bool.eq_false_iff]
      exact fun hon => hnot ((hclear hc id p hp hk).1 ((hmark id p hp).mp hon))

/-- Unpausing keeps the law exactly when it meets the condition. -/
theorem unpause_law_iff (htold : s.Told) : s.unpause.Told ↔ s.Clear .unpause := by
  obtain ⟨hmanager, hwanted, hchanged⟩ := unpause_manager (s := s)
  cases hpaused : s.paused with
  | false =>
    have hsame : s.unpause = s := by rw [unpause, hpaused, if_neg Bool.false_ne_true]
    rw [hsame]
    refine iff_of_true htold fun h => ?_
    rw [hpaused] at h
    cases h
  | true =>
    have hrunning : s.unpause.paused = false := by rw [unpause, if_pos hpaused]
    constructor
    · intro h _ hc id p hp hk hmark hhas
      have hon := h hrunning (hchanged.trans hc) id p (by rw [hmanager]; exact hp) hk
        (by rw [hwanted]; exact hhas)
      rw [(unpause_at hpaused hp).2.2.2, hmark, Bool.false_or] at hon
      exact (hasWantedChunks_iff _ _).mp hon
    · intro hclear _ hc id p hp hk hhas
      rw [hmanager] at hp
      rw [hwanted] at hhas
      rw [(unpause_at hpaused hp).2.2.2]
      cases hmark : (s.flags id).am_interested with
      | true => rfl
      | false =>
        rw [Bool.false_or, hasWantedChunks_iff]
        exact hclear hpaused (hchanged.symm.trans hc) id p hp hk hmark hhas

/-- **One event**: as long as the law holds, it goes on holding exactly when the event meets the
condition. -/
theorem step_law_iff (htold : s.Told) (e : InterestEvent) :
    (s.step e).Told ∧ s.Retracted e ↔ s.Clear e := by
  cases e with
  | connect id interested =>
    refine iff_of_true ⟨?_, trivial⟩ trivial
    have hsame : (s.createPeer id interested).paused = s.paused ∧
        (s.createPeer id interested).wanted_changed = s.wanted_changed := by
      rw [createPeer]
      split
      · exact ⟨rfl, rfl⟩
      · dsimp only
        split
        · exact ⟨sendInterested_paused, sendInterested_changed⟩
        · exact ⟨rfl, rfl⟩
    intro hpaused hchanged id'
    exact toldPeer_createPeer (htold (hsame.1.symm.trans hpaused) (hsame.2.symm.trans hchanged) id')
  | packet id packet =>
    refine iff_of_true ⟨?_, trivial⟩ trivial
    have htouch : Touches id s (s.handlePacket id packet) := touches_handlePacket packet
    intro hpaused hchanged id'
    have hrunning := htouch.paused.symm.trans hpaused
    have hbefore := htold hrunning (htouch.wanted_changed.symm.trans hchanged)
    by_cases hid : id' = id
    · rw [hid]
      exact toldPeer_handlePacket hrunning (hbefore id) packet
    · exact htouch.toldPeer hid (hbefore id')
  | kill id =>
    refine iff_of_true ⟨fun hpaused hchanged id' => ?_, trivial⟩ trivial
    by_cases hid : id' = id
    · rw [hid]
      exact toldPeer_kill
    · exact touches_kill.toldPeer hid (htold hpaused hchanged id')
  | update rounds =>
    cases hchanged : s.wanted_changed with
    | true => exact update_law_iff hchanged rounds
    | false =>
      have hno : s.wanted_changed ≠ true := Bool.eq_false_iff.mp hchanged
      refine iff_of_true ⟨fun hpaused _ id => ?_, fun h => absurd h hno⟩ fun h => absurd h hno
      have hrunning := (update_wanted rounds).2.symm.trans hpaused
      exact update_told hrunning hchanged rounds (htold hrunning hchanged id)
  | setWantedChunks bs =>
    refine iff_of_true ⟨fun _ hchanged => ?_, trivial⟩ trivial
    cases hchanged
  | pause =>
    refine iff_of_true ⟨?_, trivial⟩ trivial
    change s.pause.Told
    rw [pause]
    split
    · exact htold
    · intro hpaused
      cases hpaused
  | unpause =>
    refine Iff.trans ?_ (unpause_law_iff htold)
    exact and_iff_left trivial

theorem told_start (numChunks : UInt32) (loaded : Bool) (superseeder : Option (ℕ → UInt32)) :
    (start numChunks loaded superseeder).Told := by
  intro _ _ id p hp
  cases hp

/-- **When the law of interest holds.**  Along every run of a started manager, every live peer with a
wanted chunk is told, while the manager is not paused and no change is waiting, and an update that
found a change leaves no other live peer marked, exactly when every event meets the condition: an
update that finds a change finds no live peer that shares a padding bit with the wanted set, and no
chunk. -/
theorem interest_law_iff (numChunks : UInt32) (loaded : Bool) (superseeder : Option (ℕ → UInt32))
    (events : List InterestEvent) :
    AllStates step Told (start numChunks loaded superseeder) events ∧
        AllSteps step Retracted (start numChunks loaded superseeder) events ↔
      AllSteps step Clear (start numChunks loaded superseeder) events := by
  have hstart := told_start numChunks loaded superseeder
  rw [allStates_iff_steps, and_iff_right hstart, ← allSteps_and]
  exact allSteps_iff_of_invariant (fun s e h hclear => ((step_law_iff h e).mpr hclear).1)
    (fun s e h => step_law_iff h e) events _ hstart

/-- The wanted set of a torrent that has all its four chunks, as `TorrentControl` computes it: the
set of its chunks inverted. -/
def wantedOfComplete : BitSet :=
  ((List.range 4).foldl (fun (bs : BitSet) i => bs.set i true) (.new 4)).invert

/-- Nothing is wanted, but the wanted set has padding bits on, and so has the set of a peer with all
chunks: the peer is marked. -/
theorem paddingBits_interest :
    ¬ (AllStates step Told (start 4 true none)
          [.connect 1 false, .packet 1 .haveAll, .setWantedChunks wantedOfComplete,
            .update fun _ => ⟨false, false, []⟩] ∧
        AllSteps step Retracted (start 4 true none)
          [.connect 1 false, .packet 1 .haveAll, .setWantedChunks wantedOfComplete,
            .update fun _ => ⟨false, false, []⟩]) := by
  rintro ⟨-, -, -, -, hretracted, -⟩
  have hnone : ∀ i, wantedOfComplete.get i = false := by
    intro i
    rcases Nat.lt_or_ge i 4 with hi | hi
    · interval_cases i <;> decide +kernel
    · exact BitSet.get_outside _ hi
  have hmark := hretracted rfl 1 ⟨(BitSet.new 4).setAll true, false⟩ (by rfl) rfl
    fun ⟨i, _, hw⟩ => absurd ((hnone i).symm.trans hw) Bool.false_ne_true
  exact absurd hmark (by decide +kernel)

end InterestManager

end KTorrent
