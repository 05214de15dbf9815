import KTorrent.Bcodec.RoundTrip
import KTorrent.Lib.IndexLoop
import KTorrent.Lib.Run
import KTorrent.Peer.UTPex

/-!
# Peer exchange differences

What the other side of a `UTPex` knows after each update.

* `PexDiff` — what a receiver reads in the bytes of a message: the addresses that are
  added, their flags, and the addresses that are dropped.
* `PexSession` — a `UTPex` with a receiver that starts with nothing and applies what it
  reads in every message.
* `read_data` — the receiver reads what the sender encoded.
* `Exact` — after an update the receiver holds the peers that were visited, but its
  own; what is added is what it had not been told, with one flag for each.
* `allSteps_exact` — so it is at every update, whatever peers are seen.
-/

namespace KTorrent

open Std (TreeMap ReflCmp LawfulEqCmp)

/-! ## The receiver -/

/-- What a message says of an IP version. -/
structure PexDiff where
  added : List Address
  flags : List UInt8
  dropped : List Address

namespace PexDiff

/-- A byte string in front of other bytes, and these. -/
def readString (data : List UInt8) : Option (List UInt8 × List UInt8) :=
  let len := digitsValue (data.takeWhile isDigit)
  match data.dropWhile isDigit with
  | 58 :: rest => if len ≤ rest.length then some (rest.take len, rest.drop len) else none
  | _ => none

/-- The entries of a dictionary of byte strings, up to its end. -/
def readEntries : ℕ → List UInt8 → Option (List (List UInt8 × List UInt8))
  | 0, _ => none
  | fuel + 1, data =>
    if data.head? = some 101 then some []
    else do
      let (key, data) ← readString data
      let (value, data) ← readString data
      let entries ← readEntries fuel data
      return (key, value) :: entries

/-- A dictionary of byte strings. -/
def readDict : List UInt8 → Option (List (List UInt8 × List UInt8))
  | 100 :: data => readEntries data.length data
  | _ => none

/-- The value of a key, and nothing when there is none. -/
def value (entries : List (List UInt8 × List UInt8)) (key : String) : List UInt8 :=
  ((entries.find? fun e => e.1 = ascii key).map Prod.snd).getD []

/-- The three values of a message for a version. -/
def values (entries : List (List UInt8 × List UInt8)) : IpVersion → List UInt8 × List UInt8 × List UInt8
  | .v4 => (value entries "added", value entries "added.f", value entries "dropped")
  | .v6 => (value entries "added6", value entries "added6.f", value entries "dropped6")

/-- What the bytes of a message say of a version. -/
def read (v : IpVersion) (data : List UInt8) : Option PexDiff := do
  let entries ← readDict data
  let (added, flags, dropped) := values entries v
  let added ← v.readAddresses added
  let dropped ← v.readAddresses dropped
  return ⟨added, flags, dropped⟩

/-- What is dropped goes, then what is added comes. -/
def apply (diff : PexDiff) (held : Multiset Address) : Multiset Address :=
  held - diff.dropped + diff.added

end PexDiff

/-- The stats of a peer that has been seen. -/
structure PexStats where
  isSeeder : Bool
  fastExtensions : Bool

/-- A `UTPex`, what was seen at the last update, and what the receiver of its messages holds: an
address for each peer. -/
structure PexSession where
  ext : UTPex
  last : PexMap PexStats
  held : IpVersion → Multiset Address

namespace PexSession

/-- The extension for the peer `own`, and a receiver without peers. -/
def start (own : UInt32) : PexSession := ⟨.new own, ∅, fun _ => 0⟩

/-- The peers that are visited; `addr` are their addresses. -/
def visited (addr : UInt32 → Address) (seen : PexMap PexStats) : List PexPeer :=
  seen.toList.map fun e => ⟨e.1, addr e.1, e.2.isSeeder, e.2.fastExtensions⟩

/-- What the receiver does with the bytes that an update sends. -/
def receive (held : IpVersion → Multiset Address) : Option (List UInt8) → IpVersion → Multiset Address
  | none => held
  | some data => fun v =>
    match PexDiff.read v data with
    | some diff => diff.apply (held v)
    | none => held v

/-- An update while the peers `seen` are there. -/
def step (addr : UInt32 → Address) (s : PexSession) (seen : PexMap PexStats) : PexSession :=
  { ext := s.ext.update (visited addr seen)
    last := seen
    held := receive s.held (s.ext.message (visited addr seen)) }

/-- A peer that belongs to a version and is not the extension's own has been seen. -/
def Wanted (addr : UInt32 → Address) (own : UInt32) (seen : PexMap PexStats) (v : IpVersion)
    (id : UInt32) : Prop := id ∈ seen ∧ id ≠ own ∧ (addr id).ipVersion = v

instance {addr : UInt32 → Address} {own : UInt32} {seen : PexMap PexStats} {v : IpVersion}
    {id : UInt32} : Decidable (Wanted addr own seen v id) :=
  inferInstanceAs (Decidable (_ ∧ _ ∧ _))

/-- The ids of the peers of a version that were seen, all but `own`. -/
def wantedIds (addr : UInt32 → Address) (own : UInt32) (seen : PexMap PexStats) (v : IpVersion) :
    List UInt32 := seen.keys.filter fun id => Wanted addr own seen v id

/-- Those that were not seen before. -/
def newIds (addr : UInt32 → Address) (own : UInt32) (last seen : PexMap PexStats) (v : IpVersion) :
    List UInt32 := (wantedIds addr own seen v).filter fun id => ¬ Wanted addr own last v id

/-- The flag of a peer that has been seen. -/
def seenFlag (seen : PexMap PexStats) (id : UInt32) : Option UInt8 :=
  seen[id]?.map fun st => pexFlag st.isSeeder st.fastExtensions

/-- What is right about a message: added are the peers that were not seen at the update before, with
one flag for each of them, in the same order; dropped are those that were seen then and are not any
more. -/
structure DiffExact (addr : UInt32 → Address) (own : UInt32) (last seen : PexMap PexStats)
    (v : IpVersion) (diff : PexDiff) : Prop where
  added : diff.added = (newIds addr own last seen v).map addr
  flags : diff.flags.map some = (newIds addr own last seen v).map (seenFlag seen)
  dropped : diff.dropped = (newIds addr own seen last v).map addr

/-- The law of an update, for a version. -/
structure Exact (addr : UInt32 → Address) (own : UInt32) (s : PexSession) (seen : PexMap PexStats)
    (v : IpVersion) : Prop where
  /-- Afterwards the receiver holds the addresses of the peers that were seen. -/
  held : (step addr s seen).held v = (wantedIds addr own seen v).map addr
  /-- It can tell whether a peer was seen whose address no other one has. -/
  held_iff : ∀ id, (∀ other ∈ seen, addr other = addr id → other = id) →
    (addr id ∈ (step addr s seen).held v ↔ Wanted addr own seen v id)
  /-- The bytes that are sent can be read, and what they say is right. -/
  sent : ∀ data, s.ext.message (visited addr seen) = some data →
    ∃ diff, PexDiff.read v data = some diff ∧ DiffExact addr own s.last seen v diff
  /-- When nothing is sent there is nothing to say. -/
  notSent : s.ext.message (visited addr seen) = none →
    newIds addr own s.last seen v = [] ∧ newIds addr own seen s.last v = []

end PexSession

/-! ## One visit -/

/-- What the four maps have for one id. -/
structure PexEntry where
  peers : Option Address
  added : Option Address
  flags : Option UInt8
  npeers : Option Address

/-- A visit, for the id of the peer. -/
def PexEntry.visit (e : PexEntry) (peer : UInt32) (p : PexPeer) : PexEntry :=
  if p.id ≠ peer then
    { peers := none
      added := if e.peers = none then some (e.added.getD p.address) else e.added
      flags :=
        if e.peers = none then some (e.flags.getD (pexFlag p.isSeeder p.fastExtensions))
        else e.flags
      npeers := some (e.npeers.getD p.address) }
  else e

namespace PexMaps

/-- The entry of an id. -/
def entry (m : PexMaps) (id : UInt32) : PexEntry :=
  ⟨m.peers[id]?, m.added[id]?, m.flags[id]?, m.npeers[id]?⟩

theorem getElem?_insertIfNew_self {β : Type} (m : PexMap β) (id : UInt32) (b : β) :
    (m.insertIfNew id b)[id]? = some (m[id]?.getD b) := by
  rw [TreeMap.getElem?_insertIfNew]
  by_cases h : id ∈ m
  · have hsome : m[id]?.isSome := TreeMap.mem_iff_isSome_getElem?.mp h
    rw [if_neg fun hc => hc.2 h]
    obtain ⟨b', hb'⟩ := Option.isSome_iff_exists.mp hsome
    rw [hb', Option.getD_some]
  · rw [if_pos ⟨ReflCmp.compare_self, h⟩, TreeMap.getElem?_eq_none h, Option.getD_none]

theorem getElem?_insertIfNew_of_ne {β : Type} (m : PexMap β) {id k : UInt32} (h : id ≠ k) (b : β) :
    (m.insertIfNew id b)[k]? = m[k]? := by
  rw [TreeMap.getElem?_insertIfNew, if_neg]
  rintro ⟨hc, -⟩
  exact h (LawfulEqCmp.eq_of_compare hc)

theorem getElem?_erase_of_ne {β : Type} (m : PexMap β) {id k : UInt32} (h : id ≠ k) :
    (m.erase id)[k]? = m[k]? := by
  rw [TreeMap.getElem?_erase, if_neg]
  exact fun hc => h (LawfulEqCmp.eq_of_compare hc)

/-- A visit is about the id of the peer alone. -/
theorem entry_visit (m : PexMaps) (peer : UInt32) (p : PexPeer) (id : UInt32) :
    (m.visit peer p).entry id =
      if p.id = id then (m.entry id).visit peer p else m.entry id := by
  unfold visit entry PexEntry.visit
  by_cases hp : p.id ≠ peer
  · simp only [if_pos hp]
    by_cases hid : p.id = id
    · subst hid
      by_cases hm : p.id ∈ m.peers
      · have hsome : m.peers[p.id]? ≠ none := by
          rw [Option.ne_none_iff_isSome]
          exact TreeMap.mem_iff_isSome_getElem?.mp hm
        simp only [hm, hsome, not_true, if_true, if_false, getElem?_insertIfNew_self,
          TreeMap.getElem?_erase_self]
      · have hnone : m.peers[p.id]? = none := TreeMap.getElem?_eq_none hm
        simp only [hm, hnone, not_false_iff, if_true, getElem?_insertIfNew_self]
    · by_cases hm : p.id ∈ m.peers <;>
        simp [hm, hid, getElem?_insertIfNew_of_ne _ hid, getElem?_erase_of_ne _ hid]
  · simp only [if_neg hp, ite_self]

end PexMaps

/-! ## All visits -/

namespace UTPex

theorem maps_visit (ext : UTPex) (p : PexPeer) (v : IpVersion) :
    (ext.visit p).maps v =
      if p.address.ipVersion = v then (ext.maps v).visit ext.peer p else ext.maps v := by
  unfold visit
  cases hp : p.address.ipVersion <;> cases v <;> rfl

@[simp] theorem visit_peer (ext : UTPex) (p : PexPeer) : (ext.visit p).peer = ext.peer := by
  unfold visit
  cases p.address.ipVersion <;> rfl

@[simp] theorem visitAll_peer (ext : UTPex) (ps : List PexPeer) :
    (ext.visitAll ps).peer = ext.peer := by
  induction ps generalizing ext with
  | nil => rfl
  | cons p ps ih =>
    rw [visitAll, List.foldl_cons]
    exact (ih (ext.visit p)).trans (ext.visit_peer p)

/-- The maps of a version only see the peers of that version. -/
theorem maps_visitAll (ps : List PexPeer) (ext : UTPex) (v : IpVersion) :
    (ext.visitAll ps).maps v =
      ps.foldl (fun m p => if p.address.ipVersion = v then m.visit ext.peer p else m)
        (ext.maps v) := by
  induction ps generalizing ext with
  | nil => rfl
  | cons p ps ih =>
    rw [visitAll, List.foldl_cons, List.foldl_cons, ← maps_visit, ← ext.visit_peer p]
    exact ih (ext.visit p)

end UTPex

namespace PexSession

variable {addr : UInt32 → Address} {own : UInt32} {seen : PexMap PexStats} {ext : UTPex}
  {v : IpVersion} {id : UInt32} {st : PexStats}

/-- One visit, as a change of one entry. -/
theorem keywise_visit (v : IpVersion) (peer : UInt32) :
    IndexLoop.Keywise (fun p : PexPeer => p.id) PexMaps.entry
      (fun p e => if p.address.ipVersion = v then e.visit peer p else e)
      (fun m p => if p.address.ipVersion = v then m.visit peer p else m) := by
  intro m p id
  by_cases hv : p.address.ipVersion = v
  · simp only [if_pos hv, PexMaps.entry_visit]
  · simp only [if_neg hv, ite_self]

theorem visited_ids (addr : UInt32 → Address) (seen : PexMap PexStats) :
    (visited addr seen).map (·.id) = seen.keys := by
  rw [visited, List.map_map]
  exact TreeMap.map_fst_toList_eq_keys

theorem entry_visitAll_of_notMem (h : id ∉ seen) :
    ((ext.visitAll (visited addr seen)).maps v).entry id = (ext.maps v).entry id := by
  rw [UTPex.maps_visitAll]
  refine IndexLoop.get_foldl_of_notMem (keywise_visit v ext.peer) ?_
  intro p hp hid
  have hmem : p.id ∈ seen.keys := visited_ids addr seen ▸ List.mem_map_of_mem hp
  exact h (hid ▸ TreeMap.mem_keys.mp hmem)

theorem entry_visitAll_of_mem (h : seen[id]? = some st) :
    ((ext.visitAll (visited addr seen)).maps v).entry id =
      if (addr id).ipVersion = v then
        ((ext.maps v).entry id).visit ext.peer ⟨id, addr id, st.isSeeder, st.fastExtensions⟩
      else (ext.maps v).entry id := by
  have hmem : (⟨id, addr id, st.isSeeder, st.fastExtensions⟩ : PexPeer) ∈ visited addr seen :=
    List.mem_map.mpr ⟨(id, st), TreeMap.mem_toList_iff_getElem?_eq_some.mpr h, rfl⟩
  have hnodup : ((visited addr seen).map (·.id)).Nodup := by
    rw [visited_ids]
    exact TreeMap.nodup_keys
  rw [UTPex.maps_visitAll]
  exact IndexLoop.get_foldl_of_mem (keywise_visit v ext.peer) hnodup hmem

/-! ## Messages -/

theorem length_encodePeers (part : PexPart) (v : IpVersion) (enc : BEncoder) :
    enc.out.length ≤ (part.encodePeers v enc).out.length ∧
      (enc.out.length = (part.encodePeers v enc).out.length →
        part.added.isEmpty ∧ part.dropped.isEmpty) := by
  unfold PexPart.encodePeers
  by_cases ha : part.added.isEmpty <;> by_cases hd : part.dropped.isEmpty <;>
    simp [ha, hd, BEncoder.writeBytes, BEncoder.append]

/-- Where nothing is sent, there was nothing to send. -/
theorem isEmpty_of_length_le {msg : PexMessage} (h : msg.data.length ≤ 2) (v : IpVersion) :
    (msg.part v).added.isEmpty ∧ (msg.part v).dropped.isEmpty := by
  have h4 := length_encodePeers msg.part4 .v4 (BEncoder.mk []).beginDict
  have h6 := length_encodePeers msg.part6 .v6
    (msg.part4.encodePeers .v4 (BEncoder.mk []).beginDict)
  have hlen : msg.data.length =
      (msg.part6.encodePeers .v6 (msg.part4.encodePeers .v4
        (BEncoder.mk []).beginDict)).out.length + 1 := by
    rw [PexMessage.data, BEncoder.end_, BEncoder.append, List.length_append]
    rfl
  have hone : (BEncoder.mk []).beginDict.out.length = 1 := rfl
  cases v with
  | v4 => exact h4.2 (by omega)
  | v6 => exact h6.2 (by omega)

/-! ## Reading messages -/

/-- A byte string is read. -/
theorem readString_encodeBytes (str rest : List UInt8) :
    PexDiff.readString (BTree.encodeBytes str ++ rest) = some (str, rest) := by
  have hall := isDigit_of_mem_number str.length
  have htake : (BTree.encodeBytes str ++ rest).takeWhile isDigit = number str.length := by
    rw [BTree.encodeBytes, List.append_assoc, List.takeWhile_append_of_pos hall]
    simp [isDigit]
  have hdrop : (BTree.encodeBytes str ++ rest).dropWhile isDigit = 58 :: (str ++ rest) := by
    rw [BTree.encodeBytes, List.append_assoc, List.dropWhile_append_of_pos hall]
    simp [isDigit]
  rw [PexDiff.readString, htake, hdrop, digitsValue_number]
  show (if str.length ≤ (str ++ rest).length then
    some ((str ++ rest).take str.length, (str ++ rest).drop str.length) else none) = _
  rw [if_pos (by rw [List.length_append]; omega), List.take_left, List.drop_left]

/-- The bytes of an entry. -/
def encodeEntry (e : List UInt8 × List UInt8) : List UInt8 :=
  BTree.encodeBytes e.1 ++ BTree.encodeBytes e.2

/-- A byte string begins with a digit. -/
theorem head?_encodeBytes (str rest : List UInt8) :
    (BTree.encodeBytes str ++ rest).head? ≠ some 101 := by
  obtain ⟨c, cs, hcs⟩ := List.exists_cons_of_ne_nil (number_ne_nil str.length)
  have hc : isDigit c = true := isDigit_of_mem_number str.length c (by rw [hcs]; exact List.mem_cons_self)
  rw [BTree.encodeBytes, hcs]
  rintro ⟨⟩
  cases hc

/-- The entries of a dictionary are read. -/
theorem readEntries_encodeEntry (entries : List (List UInt8 × List UInt8)) :
    ∀ fuel, entries.length < fuel →
      PexDiff.readEntries fuel (entries.flatMap encodeEntry ++ [101]) = some entries := by
  induction entries with
  | nil =>
    intro fuel hfuel
    obtain ⟨n, rfl⟩ := Nat.exists_eq_succ_of_ne_zero hfuel.ne'
    rfl
  | cons e entries ih =>
    intro fuel hfuel
    obtain ⟨n, rfl⟩ := Nat.exists_eq_succ_of_ne_zero (Nat.ne_zero_of_lt hfuel)
    have hdata : (e :: entries).flatMap encodeEntry ++ [101] = BTree.encodeBytes e.1 ++
        (BTree.encodeBytes e.2 ++ (entries.flatMap encodeEntry ++ [101])) := by
      simp [encodeEntry]
    rw [hdata, PexDiff.readEntries, if_neg (head?_encodeBytes _ _), readString_encodeBytes,
      Option.bind_eq_bind, Option.bind_some]
    dsimp only
    rw [readString_encodeBytes, Option.bind_some]
    dsimp only
    rw [ih n (Nat.lt_of_succ_lt_succ hfuel)]
    rfl

theorem length_le_flatMap (entries : List (List UInt8 × List UInt8)) :
    entries.length ≤ (entries.flatMap encodeEntry).length := by
  induction entries with
  | nil => exact le_rfl
  | cons e entries ih =>
    have hpos := BDecoder.encodeBytes_length_pos e.1
    rw [List.flatMap_cons, List.length_append, List.length_cons, encodeEntry, List.length_append]
    omega

/-- The entries that `encodePeers` writes. -/
def partEntries (part : PexPart) (v : IpVersion) : List (List UInt8 × List UInt8) :=
  (if part.added.isEmpty then []
    else [(PexPart.key v "added" "added6", PexPart.compact part.added v),
      (PexPart.key v "added.f" "added6.f", PexPart.flagBytes part.flags)]) ++
    if part.dropped.isEmpty then []
    else [(PexPart.key v "dropped" "dropped6", PexPart.compact part.dropped v)]

theorem encodePeers_out (part : PexPart) (v : IpVersion) (enc : BEncoder) :
    (part.encodePeers v enc).out = enc.out ++ (partEntries part v).flatMap encodeEntry := by
  unfold PexPart.encodePeers partEntries
  by_cases ha : part.added.isEmpty <;> by_cases hd : part.dropped.isEmpty <;>
    simp [ha, hd, encodeEntry, BTree.writeBytes_out]

/-- **What is sent is a dictionary**, and can be read. -/
theorem readDict_data (msg : PexMessage) :
    PexDiff.readDict msg.data = some (partEntries msg.part4 .v4 ++ partEntries msg.part6 .v6) := by
  obtain ⟨entries, hentries⟩ : ∃ entries,
    entries = partEntries msg.part4 .v4 ++ partEntries msg.part6 .v6 := ⟨_, rfl⟩
  have hdata : msg.data = 100 :: (entries.flatMap encodeEntry ++ [101]) := by
    rw [PexMessage.data, BEncoder.end_, BEncoder.append, encodePeers_out, encodePeers_out, hentries]
    simp [BEncoder.beginDict, BEncoder.append]
  have hlen := length_le_flatMap entries
  rw [hdata, PexDiff.readDict, readEntries_encodeEntry entries _ (by
    rw [List.length_append, List.length_singleton]
    omega), hentries]

/-- A map without entries has nothing to say. -/
theorem compact_of_isEmpty {ps : PexMap Address} (h : ps.isEmpty) (v : IpVersion) :
    PexPart.compact ps v = [] := by
  rw [PexPart.compact, List.isEmpty_iff.mp (TreeMap.isEmpty_toList.trans h)]
  rfl

theorem flagBytes_of_isEmpty {flags : PexMap UInt8} (h : flags.isEmpty) :
    PexPart.flagBytes flags = [] := by
  rw [PexPart.flagBytes, List.isEmpty_iff.mp (TreeMap.isEmpty_toList.trans h)]
  rfl

theorem value_cons (e : List UInt8 × List UInt8) (entries : List (List UInt8 × List UInt8))
    (key : String) : PexDiff.value (e :: entries) key =
      if e.1 = ascii key then e.2 else PexDiff.value entries key := by
  rw [PexDiff.value, List.find?_cons]
  by_cases h : e.1 = ascii key
  · simp [h]
  · simp [h, PexDiff.value]

/-- The values of the keys are the strings that were encoded. -/
theorem values_partEntries (msg : PexMessage)
    (hflags : ∀ v, (msg.part v).added.isEmpty → (msg.part v).flags.isEmpty) (v : IpVersion) :
    PexDiff.values (partEntries msg.part4 .v4 ++ partEntries msg.part6 .v6) v =
      (PexPart.compact (msg.part v).added v, PexPart.flagBytes (msg.part v).flags,
        PexPart.compact (msg.part v).dropped v) := by
  have hnil : ∀ key, PexDiff.value [] key = [] := fun _ => rfl
  have hf4 : msg.part4.added.isEmpty → msg.part4.flags.isEmpty := hflags .v4
  have hf6 : msg.part6.added.isEmpty → msg.part6.flags.isEmpty := hflags .v6
  by_cases ha4 : msg.part4.added.isEmpty <;> by_cases hd4 : msg.part4.dropped.isEmpty <;>
    by_cases ha6 : msg.part6.added.isEmpty <;> by_cases hd6 : msg.part6.dropped.isEmpty <;>
    cases v <;>
    simp +decide [PexDiff.values, partEntries, PexMessage.part, PexPart.key, value_cons, hnil,
      ha4, hd4, ha6, hd6, hf4, hf6, compact_of_isEmpty, flagBytes_of_isEmpty]

/-! ## The invariant -/

/-- Between two updates: the maps but the first are empty, the first has the peers that were seen at
the last update, and the receiver holds their addresses. -/
structure Synced (addr : UInt32 → Address) (own : UInt32) (s : PexSession) : Prop where
  peer_eq : s.ext.peer = own
  cleared : ∀ v, (s.ext.maps v).added = ∅ ∧ (s.ext.maps v).flags = ∅ ∧ (s.ext.maps v).npeers = ∅
  peers_eq : ∀ v (id : UInt32), (s.ext.maps v).peers[id]? =
    if Wanted addr own s.last v id then some (addr id) else none
  held_eq : ∀ v, s.held v = (wantedIds addr own s.last v).map addr

variable {s : PexSession}

variable (seen) in
/-- The entry of an id after all visits. -/
theorem Synced.entry_eq (h : Synced addr own s) (v : IpVersion) (id : UInt32) :
    ((s.ext.visitAll (visited addr seen)).maps v).entry id =
      if Wanted addr own seen v id then
        { peers := none
          added := if Wanted addr own s.last v id then none else some (addr id)
          flags := if Wanted addr own s.last v id then none else seenFlag seen id
          npeers := some (addr id) }
      else ⟨if Wanted addr own s.last v id then some (addr id) else none, none, none, none⟩ := by
  obtain ⟨hadded, hflags, hnpeers⟩ := h.cleared v
  have hentry : (s.ext.maps v).entry id =
      ⟨if Wanted addr own s.last v id then some (addr id) else none, none, none, none⟩ := by
    simp only [PexMaps.entry, hadded, hflags, hnpeers, TreeMap.getElem?_emptyc, h.peers_eq]
  cases hst : seen[id]? with
  | none =>
    have hnot : id ∉ seen := fun hc => by
      rw [TreeMap.mem_iff_isSome_getElem?, hst] at hc
      cases hc
    have hw : ¬ Wanted addr own seen v id := fun hw => hnot hw.1
    rw [entry_visitAll_of_notMem hnot, hentry, if_neg hw]
  | some st =>
    have hmem : id ∈ seen := by rw [TreeMap.mem_iff_isSome_getElem?, hst]; rfl
    rw [entry_visitAll_of_mem hst, hentry, h.peer_eq, PexEntry.visit, seenFlag, hst, Option.map_some]
    by_cases hw : Wanted addr own seen v id
    · rw [if_pos hw, if_pos hw.2.2, if_pos hw.2.1]
      by_cases hlast : Wanted addr own s.last v id <;> simp [hlast]
    · rw [if_neg hw]
      by_cases hv : (addr id).ipVersion = v
      · have hid : id = own := by
          by_contra hne
          exact hw ⟨hmem, hne, hv⟩
        rw [if_pos hv, if_neg (not_not.mpr hid)]
      · rw [if_neg hv]

/-- A map that has something for the ids of a kind, taken from another map, has it in the same
order. -/
theorem toList_eq {β γ : Type} {m : PexMap β} {t : PexMap γ} {p : UInt32 → Prop} [DecidablePred p]
    {f : UInt32 → γ → β} (h : ∀ id, m[id]? = if p id then t[id]?.map (f id) else none) :
    m.toList = (t.toList.filter fun e => p e.1).map fun e => (e.1, f e.1 e.2) := by
  have hequiv : m.Equiv ((t.filter fun id _ => p id).map f) := by
    refine TreeMap.Equiv.of_forall_constGet?_eq fun id => ?_
    show m[id]? = ((t.filter fun id _ => p id).map f)[id]?
    rw [TreeMap.getElem?_map, TreeMap.getElem?_filter', h id]
    by_cases hp : p id
    · cases t[id]? with
      | none => simp [hp]
      | some st => simp [hp]
    · simp [hp]
  rw [hequiv.toList_eq, TreeMap.toList_map, TreeMap.toList_filter]

/-- The peers that are new, with what was seen of them. -/
theorem newIds_eq (last : PexMap PexStats) : newIds addr own last seen v =
    (seen.toList.filter fun e => Wanted addr own seen v e.1 ∧ ¬ Wanted addr own last v e.1).map
      (·.1) := by
  rw [newIds, wantedIds, List.filter_filter, ← TreeMap.map_fst_toList_eq_keys, List.filter_map]
  refine congrArg _ (List.filter_congr fun e _ => ?_)
  simp [Bool.and_comm]

theorem seenFlag_of_mem {e : UInt32 × PexStats} (h : e ∈ seen.toList) :
    seenFlag seen e.1 = some (pexFlag e.2.isSeeder e.2.fastExtensions) := by
  rw [seenFlag, TreeMap.mem_toList_iff_getElem?_eq_some.mp h]
  rfl

variable (seen) in
/-- **The parts of a message**, in the order of the ids. -/
theorem Synced.part_eq (h : Synced addr own s) (v : IpVersion) :
    let part := ((s.ext.visitAll (visited addr seen)).maps v).part
    part.added.toList.map (·.2) = (newIds addr own s.last seen v).map addr ∧
      (PexPart.flagBytes part.flags).map some = (newIds addr own s.last seen v).map (seenFlag seen) ∧
      part.dropped.toList.map (·.2) = (newIds addr own seen s.last v).map addr := by
  intro part
  have hentry := fun id => h.entry_eq seen v id
  have hget : ∀ id, part.added[id]? = (if Wanted addr own seen v id ∧ ¬ Wanted addr own s.last v id
        then seen[id]?.map (fun _ => addr id) else none) ∧
      part.flags[id]? = (if Wanted addr own seen v id ∧ ¬ Wanted addr own s.last v id
        then seen[id]?.map (fun st => pexFlag st.isSeeder st.fastExtensions) else none) ∧
      part.dropped[id]? = (if Wanted addr own s.last v id ∧ ¬ Wanted addr own seen v id
        then s.last[id]?.map (fun _ => addr id) else none) := by
    intro id
    have he := hentry id
    have hsome : ∀ t : PexMap PexStats, Wanted addr own t v id → t[id]?.map (fun _ => addr id) =
        some (addr id) := by
      intro t ht
      obtain ⟨st, hst⟩ := Option.isSome_iff_exists.mp (TreeMap.mem_iff_isSome_getElem?.mp ht.1)
      rw [hst]
      rfl
    by_cases hw : Wanted addr own seen v id <;> by_cases hl : Wanted addr own s.last v id <;>
      simp only [hw, hl, if_true, if_false, PexMaps.entry, PexEntry.mk.injEq] at he <;>
      simp only [part, PexMaps.part, hw, hl, he, hsome, seenFlag, not_true, not_false_eq_true,
        and_true, and_false, and_self, if_true, if_false]
  have hadded := toList_eq fun id => (hget id).1
  have hflags := toList_eq fun id => (hget id).2.1
  have hdropped := toList_eq fun id => (hget id).2.2
  refine ⟨?_, ?_, ?_⟩
  · rw [hadded, newIds_eq, List.map_map, List.map_map]
    rfl
  · rw [PexPart.flagBytes, hflags, newIds_eq, List.map_map, List.map_map, List.map_map]
    exact List.map_congr_left fun e he => (seenFlag_of_mem (List.mem_filter.mp he).1).symm
  · rw [hdropped, newIds_eq, List.map_map, List.map_map]
    rfl

/-- The addresses of a version. -/
theorem Synced.version (seen : PexMap PexStats) (h : Synced addr own s) (v : IpVersion) :
    let part := ((s.ext.visitAll (visited addr seen)).maps v).part
    (∀ a ∈ part.added.toList.map (·.2), a.ipVersion = v) ∧
      ∀ a ∈ part.dropped.toList.map (·.2), a.ipVersion = v := by
  intro part
  obtain ⟨hadded, -, hdropped⟩ := h.part_eq seen v
  have hnew : ∀ (last seen : PexMap PexStats), ∀ a ∈ (newIds addr own last seen v).map addr,
      a.ipVersion = v := by
    intro last seen a ha
    obtain ⟨id, hid, rfl⟩ := List.mem_map.mp ha
    have hw := (List.mem_filter.mp (List.mem_filter.mp hid).1).2
    exact (of_decide_eq_true hw).2.2
  rw [hadded, hdropped]
  exact ⟨hnew s.last seen, hnew seen s.last⟩

/-- A string of addresses of one version is read back. -/
theorem readAddresses_compact {ps : PexMap Address}
    (hv : ∀ a ∈ ps.toList.map (·.2), a.ipVersion = v) :
    v.readAddresses (PexPart.compact ps v) = some (ps.toList.map (·.2)) := by
  have hall : ps.toList.filter (fun e => e.2.ipVersion = v) = ps.toList :=
    List.filter_eq_self.mpr fun e he => decide_eq_true (hv e.2 (List.mem_map_of_mem he))
  rw [PexPart.compact, hall, ← List.flatMap_map]
  exact v.readAddresses_flatMap hv

/-- **The receiver reads what the sender encoded.** -/
theorem Synced.read_data (seen : PexMap PexStats) (h : Synced addr own s) (v : IpVersion) :
    let ext := s.ext.visitAll (visited addr seen)
    ∃ diff, PexDiff.read v (PexMessage.data ⟨ext.maps4.part, ext.maps6.part⟩) = some diff ∧
      DiffExact addr own s.last seen v diff := by
  intro ext
  have hpart : ∀ v, (PexMessage.mk ext.maps4.part ext.maps6.part).part v = (ext.maps v).part :=
    fun v => by cases v <;> rfl
  have hflags : ∀ v, ((PexMessage.mk ext.maps4.part ext.maps6.part).part v).added.isEmpty →
      ((PexMessage.mk ext.maps4.part ext.maps6.part).part v).flags.isEmpty := by
    intro v hadded
    obtain ⟨hids, hbytes, -⟩ := h.part_eq seen v
    rw [hpart] at hadded ⊢
    rw [List.isEmpty_iff.mp (TreeMap.isEmpty_toList.trans hadded), List.map_nil, eq_comm,
      List.map_eq_nil_iff] at hids
    rw [hids, List.map_nil, List.map_eq_nil_iff, PexPart.flagBytes, List.map_eq_nil_iff] at hbytes
    exact TreeMap.isEmpty_toList.symm.trans (List.isEmpty_iff.mpr hbytes)
  obtain ⟨hadded, hflagBytes, hdropped⟩ := h.part_eq seen v
  obtain ⟨hva, hvd⟩ := h.version seen v
  refine ⟨⟨_, _, _⟩, ?_, ⟨hadded, hflagBytes, hdropped⟩⟩
  rw [PexDiff.read, readDict_data, Option.bind_eq_bind, Option.bind_some,
    values_partEntries _ hflags v, hpart]
  dsimp only
  rw [readAddresses_compact hva, Option.bind_eq_bind, Option.bind_some, readAddresses_compact hvd]
  rfl

/-- Where nothing is sent, there was nothing to say. -/
theorem Synced.notSent (h : Synced addr own s)
    (hnone : s.ext.message (visited addr seen) = none) (v : IpVersion) :
    newIds addr own s.last seen v = [] ∧ newIds addr own seen s.last v = [] := by
  obtain ⟨hadded, -, hdropped⟩ := h.part_eq seen v
  rw [UTPex.message] at hnone
  split at hnone
  · cases hnone
  · have hpart : ∀ ext : UTPex, (PexMessage.mk ext.maps4.part ext.maps6.part).part v =
        (ext.maps v).part := fun ext => by cases v <;> rfl
    obtain ⟨ha, hd⟩ := isEmpty_of_length_le (not_lt.mp ‹_›) v
    rw [hpart] at ha hd
    rw [List.isEmpty_iff.mp (TreeMap.isEmpty_toList.trans ha), List.map_nil, eq_comm,
      List.map_eq_nil_iff] at hadded
    rw [List.isEmpty_iff.mp (TreeMap.isEmpty_toList.trans hd), List.map_nil, eq_comm,
      List.map_eq_nil_iff] at hdropped
    exact ⟨hadded, hdropped⟩

/-! ## What the receiver holds -/

theorem nodup_wantedIds (seen : PexMap PexStats) : (wantedIds addr own seen v).Nodup :=
  TreeMap.nodup_keys.filter _

theorem mem_wantedIds : id ∈ wantedIds addr own seen v ↔ Wanted addr own seen v id := by
  rw [wantedIds, List.mem_filter, TreeMap.mem_keys, decide_eq_true_eq]
  exact and_iff_right_of_imp fun h => h.1

/-- **The peers that were seen, less those that are gone, and those that are new.** -/
theorem wantedIds_apply (last seen : PexMap PexStats) :
    ((wantedIds addr own last v).map addr : Multiset Address) -
        ((newIds addr own seen last v).map addr : List Address) +
        ((newIds addr own last seen v).map addr : List Address) =
      ((wantedIds addr own seen v).map addr : List Address) := by
  obtain ⟨old, hold⟩ : ∃ old : Multiset UInt32, old = wantedIds addr own last v := ⟨_, rfl⟩
  obtain ⟨new, hnew⟩ : ∃ new : Multiset UInt32, new = wantedIds addr own seen v := ⟨_, rfl⟩
  -- those that were seen both times
  have hkept : old.filter (Wanted addr own seen v) = new.filter (Wanted addr own last v) := by
    refine (Multiset.Nodup.ext ?_ ?_).mpr fun id => ?_
    · exact (hold ▸ nodup_wantedIds last : old.Nodup).filter _
    · exact (hnew ▸ nodup_wantedIds seen : new.Nodup).filter _
    · rw [Multiset.mem_filter, Multiset.mem_filter, hold, hnew, Multiset.mem_coe, Multiset.mem_coe,
        mem_wantedIds, mem_wantedIds]
      exact and_comm
  have hgone : (newIds addr own seen last v : Multiset UInt32) =
      old.filter fun id => ¬ Wanted addr own seen v id := by
    rw [newIds, hold, Multiset.filter_coe]
  have hcome : (newIds addr own last seen v : Multiset UInt32) =
      new.filter fun id => ¬ Wanted addr own last v id := by
    rw [newIds, hnew, Multiset.filter_coe]
  have hsplit : old = old.filter (fun id => ¬ Wanted addr own seen v id) +
      old.filter (Wanted addr own seen v) := by
    rw [add_comm, Multiset.filter_add_not]
  rw [← Multiset.map_coe, ← Multiset.map_coe, ← Multiset.map_coe, ← Multiset.map_coe, ← hold, ← hnew,
    hgone, hcome]
  calc old.map addr - (old.filter fun id => ¬ Wanted addr own seen v id).map addr +
          (new.filter fun id => ¬ Wanted addr own last v id).map addr
      = (old.filter (Wanted addr own seen v)).map addr +
          (new.filter fun id => ¬ Wanted addr own last v id).map addr := by
        nth_rewrite 1 [hsplit]
        rw [Multiset.map_add, add_tsub_cancel_left]
    _ = new.map addr := by
        rw [hkept, ← Multiset.map_add, Multiset.filter_add_not]

/-- After an update the receiver holds what is wanted. -/
theorem Synced.held_step (h : Synced addr own s) (v : IpVersion) :
    (step addr s seen).held v = (wantedIds addr own seen v).map addr := by
  have hlast : ((wantedIds addr own s.last v).map addr : Multiset Address) -
        ((newIds addr own seen s.last v).map addr : List Address) +
        ((newIds addr own s.last seen v).map addr : List Address) =
      ((wantedIds addr own seen v).map addr : List Address) := wantedIds_apply s.last seen
  rw [step]
  dsimp only
  cases hmsg : s.ext.message (visited addr seen) with
  | none =>
    obtain ⟨hnew, hgone⟩ := h.notSent hmsg v
    rw [hnew, hgone, List.map_nil, Multiset.coe_nil, tsub_zero, add_zero] at hlast
    exact (h.held_eq v).trans hlast
  | some data =>
    obtain ⟨diff, hread, hexact⟩ := h.read_data seen v
    have hdata : data = PexMessage.data ⟨(s.ext.visitAll (visited addr seen)).maps4.part,
        (s.ext.visitAll (visited addr seen)).maps6.part⟩ := by
      rw [UTPex.message] at hmsg
      split at hmsg
      · exact (Option.some.inj hmsg).symm
      · cases hmsg
    rw [receive, hdata]
    dsimp only
    rw [hread]
    dsimp only
    rw [PexDiff.apply, h.held_eq, hexact.added, hexact.dropped]
    exact hlast

/-- Every update keeps the invariant. -/
theorem Synced.step (h : Synced addr own s) (seen : PexMap PexStats) :
    Synced addr own (step addr s seen) := by
  have hmaps : ∀ v, (PexSession.step addr s seen).ext.maps v =
      ((s.ext.visitAll (visited addr seen)).maps v).moveOn := fun v => by cases v <;> rfl
  refine ⟨?_, fun v => ?_, fun v id => ?_, fun v => h.held_step v⟩
  · exact (UTPex.visitAll_peer _ _).trans h.peer_eq
  · rw [hmaps]
    exact ⟨rfl, rfl, rfl⟩
  · have hentry := congrArg PexEntry.npeers (h.entry_eq seen v id)
    rw [hmaps]
    refine hentry.trans ?_
    show _ = if Wanted addr own seen v id then some (addr id) else none
    split <;> rfl

theorem synced_start (addr : UInt32 → Address) (own : UInt32) : Synced addr own (start own) := by
  have hnone : ∀ v id, ¬ Wanted addr own ∅ v id := fun v id h => TreeMap.not_mem_emptyc h.1
  refine ⟨rfl, fun v => ?_, fun v id => ?_, fun v => ?_⟩
  · cases v <;> exact ⟨rfl, rfl, rfl⟩
  · rw [show (start own).last = ∅ from rfl, if_neg (hnone v id)]
    cases v <;> rfl
  · rfl

/-- **Peer exchange differences are exact.**  At every update, whatever peers are seen, a receiver of
the bytes that are sent holds the addresses of the peers that were visited, but the extension's own;
no peer is announced twice, and every address that is added has its flag. -/
theorem allSteps_exact (addr : UInt32 → Address) (own : UInt32)
    (updates : List (PexMap PexStats)) :
    Runs.AllSteps (PexSession.step addr) (fun s seen => ∀ v, Exact addr own s seen v) (start own)
      updates := by
  refine Runs.allSteps_of_step (fun s seen h => h.step seen) (fun s seen h v => ?_) updates
    (start own) (synced_start addr own)
  refine ⟨h.held_step v, fun id hone => ?_, fun data hdata => ?_, fun hnone => h.notSent hnone v⟩
  · rw [h.held_step, Multiset.mem_coe, List.mem_map]
    constructor
    · rintro ⟨other, hother, heq⟩
      have hw := mem_wantedIds.mp hother
      exact hone other hw.1 heq ▸ hw
    · exact fun hw => ⟨id, mem_wantedIds.mpr hw, rfl⟩
  · rw [UTPex.message] at hdata
    split at hdata
    · obtain rfl := Option.some.inj hdata
      exact h.read_data _ v
    · cases hdata

end PexSession

end KTorrent
