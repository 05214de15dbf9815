import KTorrent.Bcodec.Narrow
import KTorrent.Lib.Blocks
import KTorrent.Lib.Run
import KTorrent.Peer.UTMetaData

/-!
# Exchanging metadata

A peer that has the metadata and one that downloads them, and any packets delivered to either of
them: those of the other one in any order and any number of times, and whatever else the network
brings.

* `Exchange`, `deliver` — the two sides, what each has sent, and one delivery.
* `Reads` — what a packet says to the one who decodes it.
* `Exact`, `ExactState` — what a delivery does, and what holds of every state.
* `exchange_exact` — they hold along every sequence of deliveries.
-/

namespace KTorrent

open Blocks Runs

/-! ## The two sides -/

/-- A server and a client, the packets that each has sent, and the metadata that the client has
reported. -/
structure Exchange where
  server : UTMetaData
  client : UTMetaData
  toClient : List (List UInt8)
  toServer : List (List UInt8)
  reported : List (List UInt8)

/-- A packet that arrives at one of them. -/
inductive MetadataDelivery where
  | toServer (packet : List UInt8)
  | toClient (packet : List UInt8)

namespace Exchange

/-- The server has the metadata `M`, and the client was told its size. -/
def start (mem : ℕ → UInt8) (serverId clientId : UInt8) (M : List UInt8) : Exchange :=
  let client := UTMetaData.setReportedMetadataSize mem ⟨clientId, none, none⟩ M.length
  { server := ⟨serverId, some M, none⟩
    client := client.1
    toClient := []
    toServer := client.2
    reported := [] }

/-- A delivery; there is no state after memory was read or written outside a buffer. -/
def deliver (mem : ℕ → UInt8) (s : Option Exchange) : MetadataDelivery → Option Exchange
  | .toServer packet => s.bind fun s =>
    (s.server.handlePacket mem packet).map fun h =>
      { s with server := h.ext, toClient := s.toClient ++ h.sent }
  | .toClient packet => s.bind fun s =>
    (s.client.handlePacket mem packet).map fun h =>
      { s with
        client := h.ext
        toServer := s.toServer ++ h.sent
        reported := s.reported ++ h.reported.toList }

/-! ## What is exact -/

/-- The piece of the metadata that a packet is about: its type, the index and the bytes behind the
dictionary. -/
def Reads (packet : List UInt8) (type piece : ℤ) (rest : List UInt8) : Prop :=
  2 < packet.length ∧ ∃ dict bytes pos,
    BDecoder.decode (packet.drop 2) (packet.drop 2).length 0 = .ok (some (.dict dict bytes), pos) ∧
    BDictNode.getInt dict (ascii "msg_type") = .ok type ∧
    BDictNode.getInt dict (ascii "piece") = .ok piece ∧ rest = (packet.drop 2).drop pos

/-- A packet of a type, whatever it is about. -/
def HasType (packet : List UInt8) (type : ℤ) : Prop :=
  2 < packet.length ∧ ∃ dict bytes pos,
    BDecoder.decode (packet.drop 2) (packet.drop 2).length 0 = .ok (some (.dict dict bytes), pos) ∧
    BDictNode.getInt dict (ascii "msg_type") = .ok type

/-- The pieces of `M`. -/
abbrev pieceOf (M : List UInt8) (i : ℕ) : List UInt8 := block metadataPieceSize M i

/-- How many pieces `M` has. -/
abbrev pieceCount (M : List UInt8) : ℕ := blockCount metadataPieceSize M.length

/-- What the client has accepted. -/
def accepted (s : Exchange) : List (ℕ × List UInt8) :=
  (s.client.download.map MetadataDownload.accepted).getD []

/-- Every piece of `M` has been accepted. -/
def AllAccepted (M : List UInt8) (s : Exchange) : Prop :=
  ∀ i < pieceCount M, ∃ d, (i, d) ∈ s.accepted

/-- A request for piece `i` is answered with the bytes of the piece, or with a reject if there is no
such piece; nothing else is sent. -/
structure AnswersExactly (M packet : List UInt8) (s s' : Exchange) : Prop where
  inside : ∀ (i : ℕ) (rest : List UInt8), Reads packet 0 i rest → i < pieceCount M →
    ∃ answer, s'.toClient = s.toClient ++ [answer] ∧ Reads answer 1 i (pieceOf M i)
  outside : ∀ (i : ℤ) (rest : List UInt8), Reads packet 0 i rest → i < 0 ∨ pieceCount M ≤ i →
    ∃ answer, s'.toClient = s.toClient ++ [answer] ∧ HasType answer 2
  otherwise : (∀ i rest, ¬ Reads packet 0 i rest) → s'.toClient = s.toClient

/-- The client accepts a packet exactly when it has a piece of `M` and as many bytes as that piece,
and reports with it exactly when every piece has been accepted. -/
structure AcceptsExactly (M packet : List UInt8) (s s' : Exchange) : Prop where
  valid : ∀ (i : ℕ) (d : List UInt8), Reads packet 1 i d → i < pieceCount M →
    d.length = (pieceOf M i).length → s'.accepted = s.accepted ++ [(i, d)] ∧
      (AllAccepted M s' → ∃ result, s'.reported = s.reported ++ [result]) ∧
      (¬ AllAccepted M s' → s'.reported = s.reported)
  invalid : ∀ (i : ℤ) (d : List UInt8), Reads packet 1 i d →
    (i < 0 ∨ pieceCount M ≤ i ∨ d.length ≠ (pieceOf M i.toNat).length) →
      s'.client.download = s.client.download ∧ s'.reported = s.reported
  otherwise : (∀ i d, ¬ Reads packet 1 i d) →
    s'.client.download = s.client.download ∧ s'.reported = s.reported

/-- What a delivery does. -/
def Exact (mem : ℕ → UInt8) (M : List UInt8) (s : Option Exchange) (d : MetadataDelivery) : Prop :=
  ∃ s₀ s₁, s = some s₀ ∧ deliver mem s d = some s₁ ∧
    match d with
    | .toServer packet => AnswersExactly M packet s₀ s₁
    | .toClient packet => AcceptsExactly M packet s₀ s₁

/-- What holds of a state: the buffer has the size of `M`, something has been reported exactly when
every piece has been accepted, and if only what the server has sent was accepted, the result is
`M`. -/
structure ExactState (M : List UInt8) (s : Exchange) : Prop where
  buffer : ∃ d, s.client.download = some d ∧ d.metadata.length = M.length
  complete : s.reported ≠ [] ↔ AllAccepted M s
  result : (∀ a ∈ s.accepted, ∃ packet ∈ s.toClient, Reads packet 1 a.1 a.2) →
    (∀ r ∈ s.reported, r = M) ∧
      (AllAccepted M s → ∀ d ∈ s.client.download, d.metadata = M)

/-! ## Packets -/

theorem Reads.unique {packet rest rest' : List UInt8} {t t' i i' : ℤ} (h : Reads packet t i rest)
    (h' : Reads packet t' i' rest') : t = t' ∧ i = i' ∧ rest = rest' := by
  obtain ⟨-, dict, bytes, pos, hdec, htype, hpiece, hrest⟩ := h
  obtain ⟨-, dict', bytes', pos', hdec', htype', hpiece', hrest'⟩ := h'
  rw [hdec, Except.ok.injEq, Prod.mk.injEq, Option.some.injEq, BNode.dict.injEq] at hdec'
  obtain ⟨⟨rfl, -⟩, rfl⟩ := hdec'
  rw [htype, Except.ok.injEq] at htype'
  rw [hpiece, Except.ok.injEq] at hpiece'
  exact ⟨htype', hpiece', hrest.trans hrest'.symm⟩

theorem Reads.hasType {packet rest : List UInt8} {t i : ℤ} (h : Reads packet t i rest) :
    HasType packet t := by
  obtain ⟨hlen, dict, bytes, pos, hdec, htype, -, -⟩ := h
  exact ⟨hlen, dict, bytes, pos, hdec, htype⟩

theorem HasType.unique {packet : List UInt8} {t t' : ℤ} (h : HasType packet t)
    (h' : HasType packet t') : t = t' := by
  obtain ⟨-, dict, bytes, pos, hdec, htype⟩ := h
  obtain ⟨-, dict', bytes', pos', hdec', htype'⟩ := h'
  rw [hdec, Except.ok.injEq, Prod.mk.injEq, Option.some.injEq, BNode.dict.injEq] at hdec'
  obtain ⟨⟨rfl, -⟩, rfl⟩ := hdec'
  rw [htype, Except.ok.injEq] at htype'
  exact htype'

theorem Reads.fits {packet rest : List UInt8} {t i : ℤ} (h : Reads packet t i rest) :
    -2 ^ 31 ≤ i ∧ i < 2 ^ 31 := by
  obtain ⟨-, dict, bytes, pos, hdec, -, hpiece, -⟩ := h
  exact BDecoder.getInt_fits hdec hpiece

/-- What a packet is to the one who handles it: a message about a piece, or nothing. -/
theorem handlePacket_cases (mem : ℕ → UInt8) (x : UTMetaData) (packet : List UInt8) :
    (∃ t i rest, Reads packet t i rest ∧ x.handlePacket mem packet =
      if t = 0 then x.request i else if t = 1 then x.data mem i rest
      else if t = 2 then x.reject i else x.ignored) ∨
    (∀ t i rest, ¬ Reads packet t i rest) ∧ x.handlePacket mem packet = x.ignored := by
  rw [UTMetaData.handlePacket]
  by_cases hlen : packet.length ≤ 2
  · exact .inr ⟨fun t i rest h => absurd h.1 (not_lt.mpr hlen), if_pos hlen⟩
  rw [if_neg hlen]
  have hlen' : 2 < packet.length := not_le.mp hlen
  dsimp only
  split
  case h_1 dict bytes pos hdec =>
    cases htype : BDictNode.getInt dict (ascii "msg_type") with
    | error e =>
      refine .inr ⟨fun t i rest h => ?_, rfl⟩
      obtain ⟨-, dict', bytes', pos', hdec', htype', -, -⟩ := h
      rw [hdec, Except.ok.injEq, Prod.mk.injEq, Option.some.injEq, BNode.dict.injEq] at hdec'
      rw [← hdec'.1.1, htype] at htype'
      cases htype'
    | ok t =>
      cases hpiece : BDictNode.getInt dict (ascii "piece") with
      | error e =>
        refine .inr ⟨fun t i rest h => ?_, by split <;> simp_all⟩
        obtain ⟨-, dict', bytes', pos', hdec', -, hpiece', -⟩ := h
        rw [hdec, Except.ok.injEq, Prod.mk.injEq, Option.some.injEq, BNode.dict.injEq] at hdec'
        rw [← hdec'.1.1, hpiece] at hpiece'
        cases hpiece'
      | ok i =>
        refine .inl ⟨t, i, _, ⟨hlen', dict, bytes, pos, hdec, htype, hpiece, rfl⟩, ?_⟩
        split <;> simp_all
  case h_2 hnot =>
    refine .inr ⟨fun t i rest h => ?_, rfl⟩
    obtain ⟨-, dict, bytes, pos, hdec, -⟩ := h
    exact hnot dict bytes pos hdec

section Written

open BTree

variable {es : List (BString × BTree)} {rest : List UInt8}

/-- What is written into a packet is found there. -/
theorem decode_written (h : (BTree.dict es).emitted.length + rest.length < 2 ^ 32) :
    ∃ dict bytes, EqualsEntries es dict ∧ (∀ e ∈ dict, e.2.Narrow) ∧
      BDecoder.decode ((BTree.dict es).emitted ++ rest)
        ((BTree.dict es).emitted ++ rest).length 0
          = .ok (some (.dict dict bytes), (BTree.dict es).emitted.length) := by
  have hsize : BDecoder.size ((BTree.dict es).emitted ++ rest)
      = (BTree.dict es).emitted.length + rest.length := by
    rw [BDecoder.size, List.length_append, u32_of_lt h]
  have hat : (BTree.dict es).encode <+: ((BTree.dict es).emitted ++ rest).drop 0 := by
    rw [emitted_eq, List.drop_zero]
    exact List.prefix_append _ _
  obtain ⟨node, hnode, hdec⟩ := BDecoder.decode_encode _ hat
    (by rw [hsize, emitted_eq]; omega)
  cases node with
  | value _ _ => cases hnode
  | list _ _ => cases hnode
  | dict children bytes =>
    have hlen : ((BTree.dict es).emitted ++ rest).length ≥ (BTree.dict es).encode.length := by
      rw [List.length_append, emitted_eq]
      exact Nat.le_add_right _ _
    have hfound := hdec _ hlen
    have hnarrow := BDecoder.decode_narrow _ _ _ _ hfound
    cases hnarrow with
    | dict _ _ hchildren =>
      rw [Nat.zero_add, ← emitted_eq] at hfound
      exact ⟨children, bytes, hnode, hchildren, hfound⟩

theorem written_eq {n : ℕ} (h : n < 2 ^ 31) :
    ∃ v : Fin (2 ^ 63), writtenUint32 n = .int v ∧ v.1 = n := by
  refine ⟨_, rfl, ?_⟩
  rw [u32_of_lt (by omega)]
  exact Nat.mod_eq_of_lt (by omega)

/-- A packet is read as it was written. -/
theorem reads_written {a b : UInt8} {t i : ℕ} (ht : t < 2 ^ 31) (hi : i < 2 ^ 31)
    (htype : lookup es (ascii "msg_type") = some (writtenUint32 t))
    (hpiece : lookup es (ascii "piece") = some (writtenUint32 i))
    (h : (BTree.dict es).emitted.length + rest.length < 2 ^ 32) :
    Reads (a :: b :: ((BTree.dict es).emitted ++ rest)) t i rest := by
  obtain ⟨dict, bytes, hes, hnarrow, hdec⟩ := decode_written h
  obtain ⟨vt, hvt, hvt'⟩ := written_eq ht
  obtain ⟨vi, hvi, hvi'⟩ := written_eq hi
  rw [hvt] at htype
  rw [hvi] at hpiece
  have hpos : 0 < (BTree.dict es).emitted.length := by
    rw [emitted_eq]
    exact BDecoder.encode_length_pos _
  refine ⟨?_, dict, bytes, _, hdec, ?_, ?_, ?_⟩
  · rw [List.length_cons, List.length_cons, List.length_append]
    omega
  · rw [hes.getInt _ hnarrow (by omega) htype, hvt']
  · rw [hes.getInt _ hnarrow (by omega) hpiece, hvi']
  · exact (List.drop_left' rfl).symm

theorem hasType_written {a b : UInt8} {t : ℕ} (ht : t < 2 ^ 31)
    (htype : lookup es (ascii "msg_type") = some (writtenUint32 t))
    (h : (BTree.dict es).emitted.length + rest.length < 2 ^ 32) :
    HasType (a :: b :: ((BTree.dict es).emitted ++ rest)) t := by
  obtain ⟨dict, bytes, hes, hnarrow, hdec⟩ := decode_written h
  obtain ⟨vt, hvt, hvt'⟩ := written_eq ht
  rw [hvt] at htype
  have hpos : 0 < (BTree.dict es).emitted.length := by
    rw [emitted_eq]
    exact BDecoder.encode_length_pos _
  refine ⟨?_, dict, bytes, _, hdec, ?_⟩
  · rw [List.length_cons, List.length_cons, List.length_append]
    omega
  · rw [hes.getInt _ hnarrow (by omega) htype, hvt']

end Written

/-! ## The download -/

theorem pieceSize_pos : 0 < metadataPieceSize := by decide

/-- What holds of a download of metadata of the size of `M`. -/
structure Collects (M : List UInt8) (d : MetadataDownload) : Prop where
  total_size : d.total_size = M.length
  numBits : d.pieces.numBits.toNat = pieceCount M
  counted : d.pieces.Counted
  get : ∀ i, d.pieces.get i = true ↔ ∃ p, (i, p) ∈ d.accepted
  buffer : d.metadata.length = M.length
  faithful : (∀ a ∈ d.accepted, a.2 = pieceOf M a.1) →
    ∀ a ∈ d.accepted, pieceOf d.metadata a.1 = pieceOf M a.1

variable {M : List UInt8} {d : MetadataDownload} {mem : ℕ → UInt8} {i : ℕ} {p : List UInt8}

theorem pieceCount_lt (hM : M.length < 2 ^ 31) : pieceCount M < 2 ^ 31 := by
  by_contra hge
  have hlt := (lt_blockCount pieceSize_pos).mp
    (show 2 ^ 31 - 1 < pieceCount M by omega)
  have hK : metadataPieceSize = 16384 := rfl
  omega

theorem Collects.allOn_iff (h : Collects M d) :
    d.pieces.allOn = true ↔ ∀ i < pieceCount M, ∃ p, (i, p) ∈ d.accepted := by
  rw [h.counted.2, h.numBits]
  exact forall_congr' fun i => imp_congr_right fun _ => h.get i

/-- **When everything has come from `M`, the result is `M`.** -/
theorem Collects.result (h : Collects M d) (hfrom : ∀ a ∈ d.accepted, a.2 = pieceOf M a.1)
    (hall : ∀ i < pieceCount M, ∃ p, (i, p) ∈ d.accepted) : d.metadata = M := by
  refine eq_of_blocks pieceSize_pos h.buffer fun i hi => ?_
  obtain ⟨p, hp⟩ := hall i hi
  exact h.faithful hfrom (i, p) hp

theorem collects_new (hM : M.length < 2 ^ 31) : Collects M (MetadataDownload.new mem M.length).1 where
  total_size := rfl
  numBits := by
    have hcount : (if M.length % metadataPieceSize > 0 then M.length / metadataPieceSize + 1
        else M.length / metadataPieceSize) = pieceCount M := by
      rw [pieceCount, blockCount]
      split <;> rfl
    have hlt := pieceCount_lt hM
    rw [MetadataDownload.new]
    dsimp only
    rw [hcount, BitSet.numBits_new, UInt32.toNat_ofNat', Nat.mod_eq_of_lt (by omega)]
  counted := counted_new _
  get := by
    intro i
    rw [MetadataDownload.new]
    dsimp only
    rw [BitSet.get_new]
    refine iff_of_false Bool.false_ne_true ?_
    rintro ⟨p, hp⟩
    exact absurd hp List.not_mem_nil
  buffer := by
    rw [MetadataDownload.new, resize]
    simp
  faithful := fun _ a ha => absurd ha List.not_mem_nil

/-- The size that is checked is the size of the piece. -/
theorem Collects.size_eq (h : Collects M d) (hM : M.length < 2 ^ 31) (hi : i < pieceCount M) :
    (if i = sub32 d.pieces.numBits.toNat 1 ∧ d.total_size % metadataPieceSize > 0 then
      d.total_size % metadataPieceSize else metadataPieceSize) = (pieceOf M i).length := by
  have hcount := pieceCount_lt hM
  have hlast : i = pieceCount M - 1 ↔ i + 1 = pieceCount M := by omega
  rw [length_block_eq pieceSize_pos hi, h.numBits, h.total_size, sub32_of_le (by omega) (by omega)]
  exact if_congr (and_congr_left fun _ => hlast) rfl rfl

/-- A piece with the right size is accepted. -/
theorem Collects.data_valid (h : Collects M d) (hM : M.length < 2 ^ 31) (hi : i < pieceCount M)
    (hp : p.length = (pieceOf M i).length) :
    ∃ d' requests, Collects M d' ∧ d'.accepted = d.accepted ++ [(i, p)] ∧
      d.data mem i p = some (d', d'.pieces.allOn, requests) := by
  have hlt := (lt_blockCount pieceSize_pos).mp hi
  have hsize := (h.size_eq hM hi).trans hp.symm
  have hfits : metadataPieceSize * i + p.length ≤ M.length := by
    rw [hp, length_block]
    omega
  have hle : p.length ≤ metadataPieceSize := by
    rw [hp, length_block]
    exact min_le_left _ _
  have hoff : u32 (i * metadataPieceSize) = metadataPieceSize * i := by
    rw [Nat.mul_comm, u32_of_lt (by omega)]
  have hend : u32 (metadataPieceSize * i + p.length) = metadataPieceSize * i + p.length :=
    u32_of_lt (by omega)
  have hget : i < d.pieces.numBits.toNat := by rw [h.numBits]; exact hi
  rw [MetadataDownload.data]
  dsimp only
  rw [if_neg (not_le.mpr hget), hsize, if_neg (not_not.mpr rfl), hoff, hend, h.buffer,
    if_neg (not_lt.mpr hfits), h.buffer, if_pos hfits]
  refine ⟨_, _, ?_, rfl, rfl⟩
  rw [← h.buffer] at hfits
  exact
    { total_size := h.total_size
      numBits := by rw [BitSet.numBits_set]; exact h.numBits
      counted := BitSet.counted_set h.counted i true
      get := by
        intro j
        rw [BitSet.get_set _ _ hget]
        split
        case isTrue hij =>
          refine iff_of_true rfl ⟨p, ?_⟩
          rw [hij]
          exact List.mem_append_right _ (List.mem_singleton.mpr rfl)
        case isFalse hij =>
          refine (h.get j).trans (exists_congr fun q => ?_)
          rw [List.mem_append, List.mem_singleton, Prod.mk.injEq]
          exact ⟨.inl, fun hq => hq.resolve_right fun heq => hij heq.1⟩
      buffer := by rw [Buffer.length_overwrite hfits]; exact h.buffer
      faithful := by
        intro hall a ha
        have hself : p = pieceOf M i :=
          hall (i, p) (List.mem_append_right _ (List.mem_singleton.mpr rfl))
        by_cases hai : a.1 = i
        · rw [hai, pieceOf, block_overwrite_self hfits ?_, hself]
          rw [hp, length_block, length_block, h.buffer]
        · have hold : a ∈ d.accepted := by
            rcases List.mem_append.mp ha with ha | ha
            · exact ha
            · rw [List.mem_singleton.mp ha] at hai
              exact absurd rfl hai
          rw [pieceOf, block_overwrite_ne hfits hle hai]
          exact h.faithful (fun a ha => hall a (List.mem_append_left _ ha)) a hold }

/-- A piece that is none of `M`, or has another size, is not. -/
theorem Collects.data_invalid (h : Collects M d) (hM : M.length < 2 ^ 31)
    (hbad : pieceCount M ≤ i ∨ p.length ≠ (pieceOf M i).length) :
    d.data mem i p = some (d, false, d.downloadNext) := by
  rw [MetadataDownload.data]
  dsimp only
  by_cases hi : i < pieceCount M
  · have hsize := h.size_eq hM hi
    have hne := hbad.resolve_left (not_le.mpr hi)
    rw [if_neg (not_le.mpr (by rw [h.numBits]; exact hi)), hsize, if_pos hne.symm]
  · rw [if_pos (by rw [h.numBits]; exact not_lt.mp hi)]

/-! ## The server -/

section Server

open BTree

theorem number_length_le (k : ℕ) : ∀ n < 10 ^ (k + 1), (number n).length ≤ k + 1 := by
  induction k with
  | zero =>
    intro n hn
    rw [number_of_lt (by omega)]
    exact le_rfl
  | succ k ih =>
    intro n hn
    rcases Nat.lt_or_ge n 10 with h | h
    · rw [number_of_lt h, List.length_singleton]
      omega
    · have hrest := ih (n / 10) (by rw [pow_succ] at hn; omega)
      rw [number_of_ge h, List.length_append, List.length_singleton]
      omega

theorem written_length (n : ℕ) : (writtenUint32 n).encode.length ≤ 12 := by
  have hn : (Fin.ofNat (2 ^ 63) (u32 n)).1 < 10 ^ (9 + 1) :=
    lt_of_le_of_lt (Nat.mod_le _ _) ((u32_lt n).trans (by norm_num))
  have hlen := number_length_le 9 _ hn
  rw [writtenUint32, encode, List.length_cons, List.length_append, List.length_singleton]
  omega

/-- The dictionary in front of a piece is short. -/
theorem header_length (es : List (BString × BTree))
    (hkeys : ∀ key ∈ es.map Prod.fst, (encodeBytes key.1).length ≤ 16)
    (hvalues : ∀ e ∈ es, e.2.encode.length ≤ 12) :
    (BTree.dict es).emitted.length ≤ 2 + 28 * es.length := by
  have hentries : (encodeEntries es).length ≤ 28 * es.length := by
    induction es with
    | nil => simp [encodeEntries]
    | cons e es ih =>
      have hrest := ih (fun key hkey => hkeys key (List.mem_cons_of_mem _ hkey))
        fun e he => hvalues e (List.mem_cons_of_mem _ he)
      have hkey := hkeys e.1 List.mem_cons_self
      have hvalue := hvalues e List.mem_cons_self
      rw [encodeEntries, List.length_append, List.length_append, List.length_cons]
      omega
  rw [emitted_eq, encode, List.length_cons, List.length_append, List.length_singleton]
  omega

theorem wrapInt32_of_fits {z : ℤ} (hlo : -2 ^ 31 ≤ z) (hhi : z < 2 ^ 31) : wrapInt32 z = z := by
  rw [wrapInt32]
  exact Int.bmod_eq_of_le (by norm_num; omega) (by norm_num; omega)

theorem intToUint32_natCast {n : ℕ} (h : n < 2 ^ 32) : intToUint32 n = n := by
  rw [intToUint32]
  omega

variable {x : UTMetaData}

/-- What `sendData` sends reads as the piece. -/
theorem sendData_reads (x : UTMetaData) {size : ℤ} (hi : i < 2 ^ 31) (hp : p.length ≤ 2 ^ 31) :
    Reads (x.sendData i size p) 1 i p := by
  obtain ⟨es, hes⟩ : ∃ es, es = [(bkey "msg_type", writtenUint32 1),
      (bkey "piece", writtenUint32 i), (bkey "total_size", writtenUint32 (intToUint32 size))] :=
    ⟨_, rfl⟩
  have hheader : (BTree.dict es).emitted.length ≤ 2 + 28 * 3 := by
    rw [hes]
    refine header_length _ ?_ fun e he => ?_
    · change ∀ key ∈ [bkey "msg_type", bkey "piece", bkey "total_size"], _
      decide +kernel
    · fin_cases he <;> exact written_length _
  have hsent : x.sendData i size p = 20 :: x.id :: ((BTree.dict es).emitted ++ p) := by
    rw [UTMetaData.sendData, UTMetaData.sendPacket, intToUint32_natCast (by omega), hes]
  rw [hsent]
  exact reads_written (t := 1) (by norm_num) hi (by rw [hes]; rfl) (by rw [hes]; rfl) (by omega)

theorem sendReject_type (x : UTMetaData) (piece : ℤ) : HasType (x.sendReject piece) 2 := by
  obtain ⟨es, hes⟩ : ∃ es, es = [(bkey "msg_type", writtenUint32 2),
      (bkey "piece", writtenUint32 (intToUint32 piece))] := ⟨_, rfl⟩
  have hheader : (BTree.dict es).emitted.length ≤ 2 + 28 * 2 := by
    rw [hes]
    refine header_length _ ?_ fun e he => ?_
    · change ∀ key ∈ [bkey "msg_type", bkey "piece"], _
      decide +kernel
    · fin_cases he <;> exact written_length _
  have hsent : x.sendReject piece = 20 :: x.id :: ((BTree.dict es).emitted ++ []) := by
    rw [UTMetaData.sendReject, UTMetaData.sendPacket, List.append_nil, hes]
  rw [hsent]
  exact hasType_written (t := 2) (by norm_num) (by rw [hes]; rfl)
    (by rw [List.length_nil]; omega)

/-- The number of pieces as the server computes it. -/
theorem num_pieces_eq (hM : M.length < 2 ^ 31) :
    wrapInt32 ((M.length : ℤ) / metadataPieceSize
      + if (M.length : ℤ) % metadataPieceSize = 0 then 0 else 1) = pieceCount M := by
  have hcount := pieceCount_lt hM
  have heq : (M.length : ℤ) / metadataPieceSize
      + (if (M.length : ℤ) % metadataPieceSize = 0 then 0 else 1) = (pieceCount M : ℤ) := by
    rw [pieceCount, blockCount]
    have hK : metadataPieceSize = 16384 := rfl
    rw [hK]
    split <;> split <;> omega
  rw [heq]
  exact wrapInt32_of_fits (by omega) (by omega)

/-- **A request for a piece is answered with its bytes.** -/
theorem request_inside (hx : x.tor = some M) (hM : M.length < 2 ^ 31) (hi : i < pieceCount M) :
    ∃ answer, x.request i = some ⟨x, [answer], none⟩ ∧ Reads answer 1 i (pieceOf M i) := by
  have hK : metadataPieceSize = 16384 := rfl
  have hcount := pieceCount_lt hM
  have hlt := (lt_blockCount pieceSize_pos).mp hi
  have hlast := length_block_eq pieceSize_pos hi
  have hoff : wrapInt32 ((i : ℤ) * metadataPieceSize) = ((metadataPieceSize * i : ℕ) : ℤ) := by
    rw [Nat.cast_mul, mul_comm]
    exact wrapInt32_of_fits (by omega) (by omega)
  have hlen : (if (i : ℤ) = pieceCount M - 1 then
      wrapInt32 (if (M.length : ℤ) % metadataPieceSize = 0 then (metadataPieceSize : ℤ)
        else (M.length : ℤ) % metadataPieceSize)
      else (metadataPieceSize : ℤ)) = ((pieceOf M i).length : ℤ) := by
    have hfits : wrapInt32 (if (M.length : ℤ) % metadataPieceSize = 0 then (metadataPieceSize : ℤ)
        else (M.length : ℤ) % metadataPieceSize) = if (M.length : ℤ) % metadataPieceSize = 0 then
          (metadataPieceSize : ℤ) else (M.length : ℤ) % metadataPieceSize := by
      rw [hK]
      apply wrapInt32_of_fits <;> split <;> omega
    have hindex : (i : ℤ) = pieceCount M - 1 ↔ i + 1 = pieceCount M := by omega
    rw [hfits, hlast]
    by_cases hend : i + 1 = pieceCount M
    · rw [if_pos (hindex.mpr hend)]
      by_cases hrest : M.length % metadataPieceSize > 0
      · have hne : (M.length : ℤ) % metadataPieceSize ≠ 0 := by omega
        rw [if_neg hne, if_pos (And.intro hend hrest)]
        exact (Int.natCast_mod _ _).symm
      · have hzero : (M.length : ℤ) % metadataPieceSize = 0 := by omega
        rw [if_pos hzero, if_neg (fun h => hrest h.2 : ¬ (_ ∧ _))]
    · rw [if_neg (fun h => hend (hindex.mp h)), if_neg fun h => hend h.1]
  have hfits : metadataPieceSize * i + (pieceOf M i).length ≤ M.length := by
    rw [length_block]
    omega
  have hslice : UTMetaData.slicedView M ((metadataPieceSize * i : ℕ) : ℤ) ((pieceOf M i).length : ℤ)
      = some (pieceOf M i) := by
    rw [UTMetaData.slicedView, if_pos ⟨by omega, by omega, by omega⟩, Int.toNat_natCast,
      Int.toNat_natCast]
    refine congrArg some (List.take_eq_take_iff.mpr ?_)
    rw [length_block, List.length_drop]
    omega
  rw [UTMetaData.request, hx]
  dsimp only
  rw [num_pieces_eq hM, if_neg (by omega), hoff, hlen, hslice]
  refine ⟨_, rfl, sendData_reads x (by omega) ?_⟩
  omega

/-- A request for no piece is rejected. -/
theorem request_outside (hx : x.tor = some M) (hM : M.length < 2 ^ 31) {i : ℤ}
    (hi : i < 0 ∨ pieceCount M ≤ i) :
    ∃ answer, x.request i = some ⟨x, [answer], none⟩ ∧ HasType answer 2 := by
  rw [UTMetaData.request, hx]
  dsimp only
  rw [num_pieces_eq hM, if_pos hi]
  exact ⟨_, rfl, sendReject_type x i⟩

end Server

/-! ## Runs -/

/-- What every delivery keeps. -/
structure Invariant (M : List UInt8) (s : Exchange) : Prop where
  serves : s.server.tor = some M ∧ s.server.download = none
  unloaded : s.client.tor = none
  collects : ∃ d, s.client.download = some d ∧ Collects M d
  sent : ∀ packet ∈ s.toClient, ∀ i p, Reads packet 1 i p → ∃ n : ℕ, i = n ∧ p = pieceOf M n
  complete : s.reported ≠ [] ↔ AllAccepted M s
  fromM : (∀ a ∈ s.accepted, a.2 = pieceOf M a.1) → ∀ r ∈ s.reported, r = M

variable {s : Exchange}

theorem accepted_eq (h : s.client.download = some d) : s.accepted = d.accepted := by
  rw [accepted, h, Option.map_some, Option.getD_some]

theorem Invariant.exactState (h : Invariant M s) : ExactState M s := by
  obtain ⟨d, hd, hcollects⟩ := h.collects
  have hfrom : (∀ a ∈ s.accepted, ∃ packet ∈ s.toClient, Reads packet 1 a.1 a.2) →
      ∀ a ∈ s.accepted, a.2 = pieceOf M a.1 := by
    intro hsent a ha
    obtain ⟨packet, hpacket, hreads⟩ := hsent a ha
    obtain ⟨n, hn, hp⟩ := h.sent packet hpacket a.1 a.2 hreads
    rw [hp, Nat.cast_inj.mp hn]
  refine ⟨⟨d, hd, hcollects.buffer⟩, h.complete, fun hsent => ⟨h.fromM (hfrom hsent), ?_⟩⟩
  intro hall d' hd'
  rw [hd, Option.mem_some_iff] at hd'
  rw [← hd']
  have hacc := accepted_eq hd
  refine hcollects.result ?_ ?_
  · rw [← hacc]; exact hfrom hsent
  · rw [← hacc]; exact hall

theorem invariant_start (serverId clientId : UInt8) (hpos : 0 < M.length) (hM : M.length < 2 ^ 31) :
    Invariant M (start mem serverId clientId M) := by
  have hstart : UTMetaData.setReportedMetadataSize mem ⟨clientId, none, none⟩ M.length
      = (⟨clientId, none, some (MetadataDownload.new mem M.length).1⟩,
        (MetadataDownload.new mem M.length).2.map
          (UTMetaData.sendPacket ⟨clientId, none, none⟩)) := by
    rw [UTMetaData.setReportedMetadataSize, if_pos ⟨hpos, rfl, rfl⟩]
  have hclient : (start mem serverId clientId M).client
      = ⟨clientId, none, some (MetadataDownload.new mem M.length).1⟩ := by
    rw [start, hstart]
  have hdown : (start mem serverId clientId M).client.download
      = some (MetadataDownload.new mem M.length).1 := by rw [hclient]
  refine ⟨⟨rfl, rfl⟩, by rw [hclient], ⟨_, hdown, collects_new hM⟩,
    fun packet hpacket => absurd hpacket List.not_mem_nil, ?_,
    fun _ r hr => absurd hr List.not_mem_nil⟩
  refine iff_of_false (fun h => h rfl) fun hall => ?_
  obtain ⟨p, hp⟩ := hall 0 ((lt_blockCount pieceSize_pos).mpr hpos)
  rw [accepted_eq hdown] at hp
  exact absurd hp List.not_mem_nil

/-- **A packet at the server.** -/
theorem toServer_spec (h : Invariant M s) (hM : M.length < 2 ^ 31) (packet : List UInt8) :
    ∃ s', deliver mem (some s) (.toServer packet) = some s' ∧ AnswersExactly M packet s s' ∧
      Invariant M s' := by
  obtain ⟨htor, hdown⟩ := h.serves
  -- the server keeps its state, and what it sends is no piece or one of `M`
  have hkeep : ∀ sent, (∀ packet ∈ sent, ∀ i p, Reads packet 1 i p →
      ∃ n : ℕ, i = n ∧ p = pieceOf M n) →
      Invariant M { s with toClient := s.toClient ++ sent } := by
    intro sent hsent
    refine ⟨h.serves, h.unloaded, h.collects, fun packet hpacket => ?_, h.complete, h.fromM⟩
    rcases List.mem_append.mp hpacket with hpacket | hpacket
    · exact h.sent packet hpacket
    · exact hsent packet hpacket
  have hdeliver : ∀ sent, s.server.handlePacket mem packet = some ⟨s.server, sent, none⟩ →
      deliver mem (some s) (.toServer packet)
        = some { s with toClient := s.toClient ++ sent } := by
    intro sent hhandled
    rw [deliver, Option.bind_some, hhandled, Option.map_some]
  have hsilent : (∀ i rest, ¬ Reads packet 0 i rest) →
      s.server.handlePacket mem packet = some ⟨s.server, [], none⟩ →
      ∃ s', deliver mem (some s) (.toServer packet) = some s' ∧ AnswersExactly M packet s s' ∧
        Invariant M s' := by
    intro hnot hhandled
    refine ⟨_, hdeliver [] hhandled, ?_, hkeep [] fun packet hpacket =>
      absurd hpacket List.not_mem_nil⟩
    exact
      { inside := fun i rest hreads => absurd hreads (hnot i rest)
        outside := fun i rest hreads => absurd hreads (hnot i rest)
        otherwise := fun _ => List.append_nil _ }
  rcases handlePacket_cases mem s.server packet with
    ⟨t, i, rest, hreads, hhandled⟩ | ⟨hnot, hhandled⟩
  swap
  · exact hsilent (fun i rest => hnot 0 i rest) hhandled
  by_cases ht : t = 0
  swap
  · refine hsilent (fun i' rest' hreads' => ht (hreads.unique hreads').1) ?_
    rw [hhandled, if_neg ht, UTMetaData.data, UTMetaData.reject, hdown]
    split
    · rfl
    · split <;> rfl
  rw [ht] at hreads
  rw [if_pos ht] at hhandled
  by_cases hi : i < 0 ∨ pieceCount M ≤ i
  · obtain ⟨answer, hanswer, htype⟩ := request_outside htor hM hi
    rw [hanswer] at hhandled
    refine ⟨_, hdeliver [answer] hhandled, ?_, hkeep [answer] fun packet hpacket i p hreads => ?_⟩
    · exact
        { inside := fun j rest' hreads' hj => by
            have hsame := (hreads.unique hreads').2.1
            omega
          outside := fun _ _ _ _ => ⟨answer, rfl, htype⟩
          otherwise := fun hnot => absurd hreads (hnot i rest) }
    · rw [List.mem_singleton.mp hpacket] at hreads
      have htypes := hreads.hasType.unique htype
      norm_num at htypes
  · obtain ⟨n, rfl⟩ : ∃ n : ℕ, i = n := ⟨i.toNat, by omega⟩
    obtain ⟨answer, hanswer, hpiece⟩ := request_inside htor hM (i := n) (by omega)
    rw [hanswer] at hhandled
    refine ⟨_, hdeliver [answer] hhandled, ?_, hkeep [answer] fun packet hpacket i p hreads => ?_⟩
    · exact
        { inside := fun j rest' hreads' _ => by
            have hsame := (hreads.unique hreads').2.1
            rw [← Nat.cast_inj.mp hsame]
            exact ⟨answer, rfl, hpiece⟩
          outside := fun j rest' hreads' hj => by
            have hsame := (hreads.unique hreads').2.1
            omega
          otherwise := fun hnot => absurd hreads (hnot n rest) }
    · rw [List.mem_singleton.mp hpacket] at hreads
      obtain ⟨-, hi, hp⟩ := hreads.unique hpiece
      exact ⟨n, hi, hp⟩

/-- A packet at the client that is no piece changes nothing of the download. -/
theorem toClient_other (h : Invariant M s) {packet : List UInt8} {sent : List (List UInt8)}
    (hhandled : s.client.handlePacket mem packet = some ⟨s.client, sent, none⟩)
    (hbad : ∀ (i : ℕ) (p : List UInt8), Reads packet 1 i p →
      ¬ (i < pieceCount M ∧ p.length = (pieceOf M i).length)) :
    ∃ s', deliver mem (some s) (.toClient packet) = some s' ∧ AcceptsExactly M packet s s' ∧
      Invariant M s' := by
  refine ⟨{ s with toServer := s.toServer ++ sent }, ?_, ?_, ?_⟩
  · rw [deliver, Option.bind_some, hhandled, Option.map_some, Option.toList_none, List.append_nil]
  · exact
      { valid := fun i p hreads hi hp => absurd ⟨hi, hp⟩ (hbad i p hreads)
        invalid := fun _ _ _ _ => ⟨rfl, rfl⟩
        otherwise := fun _ => ⟨rfl, rfl⟩ }
  · exact ⟨h.serves, h.unloaded, h.collects, h.sent, h.complete, h.fromM⟩

/-- **A piece of `M` at the client.** -/
theorem toClient_valid (h : Invariant M s) (hM : M.length < 2 ^ 31) {packet : List UInt8}
    (hreads : Reads packet 1 i p) (hhandled : s.client.handlePacket mem packet = s.client.data mem i p)
    (hi : i < pieceCount M) (hp : p.length = (pieceOf M i).length) :
    ∃ s', deliver mem (some s) (.toClient packet) = some s' ∧ AcceptsExactly M packet s s' ∧
      Invariant M s' := by
  obtain ⟨d, hd, hcollects⟩ := h.collects
  have hcount := pieceCount_lt hM
  obtain ⟨d', requests, hcollects', hacc, hdata⟩ : ∃ d' requests, Collects M d' ∧
      d'.accepted = d.accepted ++ [(i, p)] ∧
        d.data mem i p = some (d', d'.pieces.allOn, requests) := hcollects.data_valid hM hi hp
  obtain ⟨reported, hreported⟩ : ∃ reported,
    reported = if d'.pieces.allOn then some d'.metadata else none := ⟨_, rfl⟩
  obtain ⟨s', hs'⟩ : ∃ s' : Exchange, s' =
      { s with
        client := { s.client with download := some d' }
        toServer := s.toServer ++ requests.map s.client.sendPacket
        reported := s.reported ++ reported.toList } := ⟨_, rfl⟩
  have hdeliver : deliver mem (some s) (.toClient packet) = some s' := by
    rw [deliver, Option.bind_some, hhandled, UTMetaData.data, hd]
    dsimp only
    rw [intToUint32_natCast (by omega), hdata, hs', hreported]
    rfl
  have hdown : s'.client.download = some d' := by rw [hs']
  have haccs : s.accepted = d.accepted := accepted_eq hd
  have haccs' : s'.accepted = s.accepted ++ [(i, p)] := by rw [accepted_eq hdown, hacc, haccs]
  have hall : d'.pieces.allOn = true ↔ AllAccepted M s' := by
    rw [hcollects'.allOn_iff, AllAccepted, accepted_eq hdown]
  have hgrows : AllAccepted M s → AllAccepted M s' := by
    intro hall j hj
    obtain ⟨q, hq⟩ := hall j hj
    rw [haccs']
    exact ⟨q, List.mem_append_left _ hq⟩
  have hrep : s'.reported = s.reported ++ reported.toList := by rw [hs']
  have hwhen : AllAccepted M s' → s'.reported = s.reported ++ [d'.metadata] := by
    intro h'
    rw [hrep, hreported, if_pos (hall.mpr h'), Option.toList_some]
  have hnot : ¬ AllAccepted M s' → s'.reported = s.reported := by
    intro h'
    rw [hrep, hreported, if_neg (fun hon => h' (hall.mp hon)), Option.toList_none, List.append_nil]
  refine ⟨s', hdeliver, ?_, ?_⟩
  · exact
      { valid := fun j q hreads' _ _ => by
          obtain ⟨-, hij, hpq⟩ := hreads.unique hreads'
          rw [← Nat.cast_inj.mp hij, ← hpq]
          exact ⟨haccs', fun h' => ⟨_, hwhen h'⟩, hnot⟩
        invalid := fun j q hreads' hbad => by
          obtain ⟨-, hij, hpq⟩ := hreads.unique hreads'
          rw [← hij, ← hpq, Int.toNat_natCast] at hbad
          rcases hbad with hneg | hge | hne
          · omega
          · omega
          · exact absurd hp hne
        otherwise := fun hno => absurd hreads (hno i p) }
  · refine ⟨by rw [hs']; exact h.serves, by rw [hs']; exact h.unloaded, ⟨d', hdown, hcollects'⟩,
      by rw [hs']; exact h.sent, ?_, ?_⟩
    · by_cases hcomplete : AllAccepted M s'
      · refine iff_of_true ?_ hcomplete
        rw [hwhen hcomplete]
        exact fun hnil => absurd hnil (by simp)
      · rw [hnot hcomplete]
        exact iff_of_false (fun hne => hcomplete (hgrows (h.complete.mp hne))) hcomplete
    · intro hfrom r hr
      have hbefore : ∀ a ∈ s.accepted, a.2 = pieceOf M a.1 := by
        intro a ha
        exact hfrom a (by rw [haccs']; exact List.mem_append_left _ ha)
      by_cases hcomplete : AllAccepted M s'
      · rw [hwhen hcomplete] at hr
        rcases List.mem_append.mp hr with hr | hr
        · exact h.fromM hbefore r hr
        · rw [List.mem_singleton.mp hr]
          rw [accepted_eq hdown] at hfrom
          exact hcollects'.result hfrom (hcollects'.allOn_iff.mp (hall.mpr hcomplete))
      · rw [hnot hcomplete] at hr
        exact h.fromM hbefore r hr

/-- **A packet at the client.** -/
theorem toClient_spec (h : Invariant M s) (hM : M.length < 2 ^ 31) (packet : List UInt8) :
    ∃ s', deliver mem (some s) (.toClient packet) = some s' ∧ AcceptsExactly M packet s s' ∧
      Invariant M s' := by
  obtain ⟨d, hd, hcollects⟩ := h.collects
  rcases handlePacket_cases mem s.client packet with
    ⟨t, i, rest, hreads, hhandled⟩ | ⟨hnot, hhandled⟩
  swap
  · exact toClient_other h hhandled fun i p hreads => absurd hreads (hnot 1 i p)
  by_cases ht : t = 1
  swap
  · have hsame : ∃ sent, s.client.handlePacket mem packet = some ⟨s.client, sent, none⟩ := by
      rw [hhandled, if_neg ht, UTMetaData.request, UTMetaData.reject, h.unloaded, hd]
      split
      · exact ⟨_, rfl⟩
      · split
        · exact ⟨_, rfl⟩
        · exact ⟨_, rfl⟩
    obtain ⟨sent, hsent⟩ := hsame
    exact toClient_other h hsent fun i' p' hreads' => absurd (hreads.unique hreads').1 ht
  rw [ht] at hreads
  rw [if_neg (by omega), if_pos ht] at hhandled
  obtain ⟨hlo, hhi⟩ := hreads.fits
  by_cases hvalid : 0 ≤ i ∧ i < pieceCount M ∧ rest.length = (pieceOf M i.toNat).length
  · obtain ⟨hnonneg, hlt, hlen⟩ := hvalid
    obtain ⟨n, rfl⟩ : ∃ n : ℕ, i = n := ⟨i.toNat, by omega⟩
    exact toClient_valid h hM hreads hhandled (by omega) hlen
  · have hcount := pieceCount_lt hM
    have hbad : pieceCount M ≤ intToUint32 i ∨
        rest.length ≠ (pieceOf M (intToUint32 i)).length := by
      by_cases hneg : i < 0
      · left
        rw [intToUint32]
        omega
      · obtain ⟨n, rfl⟩ : ∃ n : ℕ, i = n := ⟨i.toNat, by omega⟩
        rw [intToUint32_natCast (by omega)]
        by_contra hcon
        push Not at hcon
        exact hvalid ⟨by omega, by omega, hcon.2⟩
    have hdata : d.data mem (intToUint32 i) rest = some (d, false, d.downloadNext) :=
      hcollects.data_invalid hM hbad
    have hsame : s.client.handlePacket mem packet
        = some ⟨s.client, d.downloadNext.map s.client.sendPacket, none⟩ := by
      rw [hhandled, UTMetaData.data, hd]
      dsimp only
      rw [hdata, Option.map_some, ← hd]
      rfl
    refine toClient_other h hsame fun n p hreads' hgood => hvalid ?_
    obtain ⟨-, hin, hrest⟩ := hreads.unique hreads'
    rw [hin, hrest, Int.toNat_natCast]
    exact ⟨by omega, by omega, hgood.2⟩

/-- The invariant, of a state that exists. -/
def Holds (P : Exchange → Prop) : Option Exchange → Prop
  | none => False
  | some s => P s

/-- **Exchanging metadata is exact.**  A server that has `M`, a client that was told its size, and
any packets delivered to them in any order: the server answers a request with exactly the bytes of
the piece or with a reject, the client accepts exactly the pieces of the right size, writes nothing
outside its buffer, reports exactly when every piece has been accepted, and reports `M` when it has
accepted nothing that the server has not sent.  The size is an `int` where the client is told it,
and at most `MAX_METADATA_SIZE`. -/
theorem exchange_exact (mem : ℕ → UInt8) (serverId clientId : UInt8) (M : List UInt8)
    (hpos : 0 < M.length) (hM : M.length < 2 ^ 31) (deliveries : List MetadataDelivery) :
    AllSteps (deliver mem) (Exact mem M) (some (start mem serverId clientId M)) deliveries ∧
      AllStates (deliver mem) (Holds (ExactState M)) (some (start mem serverId clientId M))
        deliveries := by
  have hinv : Holds (Invariant M) (some (start mem serverId clientId M)) :=
    invariant_start serverId clientId hpos hM
  have hstep : ∀ s d, Holds (Invariant M) s →
      Exact mem M s d ∧ Holds (Invariant M) (deliver mem s d) := by
    intro s d hs
    cases s with
    | none => exact hs.elim
    | some s =>
      cases d with
      | toServer packet =>
        obtain ⟨s', hs', hexact, hinv'⟩ : ∃ s', deliver mem (some s) (.toServer packet) = some s' ∧
            AnswersExactly M packet s s' ∧ Invariant M s' := toServer_spec hs hM packet
        exact ⟨⟨s, s', rfl, hs', hexact⟩, by rw [hs']; exact hinv'⟩
      | toClient packet =>
        obtain ⟨s', hs', hexact, hinv'⟩ : ∃ s', deliver mem (some s) (.toClient packet) = some s' ∧
            AcceptsExactly M packet s s' ∧ Invariant M s' := toClient_spec hs hM packet
        exact ⟨⟨s, s', rfl, hs', hexact⟩, by rw [hs']; exact hinv'⟩
  refine ⟨allSteps_of_step (fun s d hs => (hstep s d hs).2) (fun s d hs => (hstep s d hs).1)
    deliveries _ hinv, ?_⟩
  refine AllStates.mono ?_ (allStates_of_step (fun s d hs => (hstep s d hs).2) deliveries _ hinv)
  intro s hs
  cases s with
  | none => exact hs
  | some s => exact Invariant.exactState hs

/-- Metadata of two pieces, the second one of a single byte. -/
def twoPieces : List UInt8 := List.replicate 16384 7 ++ [8]

/-- Both pieces are asked for, and one that does not exist; the second piece arrives first, and the
first one is cut short, then comes as a whole. -/
def lastPieceFirst : List MetadataDelivery :=
  [.toServer (20 :: 4 :: MetadataDownload.download 0),
    .toServer (20 :: 4 :: MetadataDownload.download 1),
    .toServer (20 :: 4 :: MetadataDownload.download 2),
    .toClient (UTMetaData.sendData ⟨3, none, none⟩ 1 16385 [8]),
    .toClient (UTMetaData.sendData ⟨3, none, none⟩ 0 16385 [7]),
    .toClient (UTMetaData.sendData ⟨3, none, none⟩ 0 16385 (List.replicate 16384 7))]

theorem exchange_exact_lastPieceFirst :
    0 < twoPieces.length ∧ twoPieces.length < 2 ^ 31 ∧ pieceCount twoPieces = 2 ∧
      (AllSteps (deliver fun _ => 0) (Exact (fun _ => 0) twoPieces)
          (some (start (fun _ => 0) 3 4 twoPieces)) lastPieceFirst ∧
        AllStates (deliver fun _ => 0) (Holds (ExactState twoPieces))
          (some (start (fun _ => 0) 3 4 twoPieces)) lastPieceFirst) := by
  have hlen : twoPieces.length = 16385 := by
    rw [twoPieces, List.length_append, List.length_replicate, List.length_singleton]
  refine ⟨by omega, by omega, ?_, exchange_exact _ 3 4 twoPieces (by omega) (by omega) _⟩
  rw [pieceCount, hlen]
  decide

end Exchange

end KTorrent
