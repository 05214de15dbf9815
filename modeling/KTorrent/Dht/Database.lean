import KTorrent.Dht.RPCMsg
import KTorrent.Lib.Run
import Mathlib.Data.List.AList

/-!
# Announced peers

The model of `dht/database.cpp` and of the requests `get_peers` and `announce_peer`
in `dht/dht.cpp`.  `sha1` is the hash from which tokens are made.

* `Database.store`, `sample`, `genToken`, `checkToken` — as the source has them.
* `DHT.getPeers`, `DHT.announce` — the requests, with the responses that are sent.
* `step` — a request is received; the accepted announces are remembered.
* `allStates_handsOut_iff` — exactly the announced peers are handed out as long as
  the peers that can be handed out announce the port that they sent from.
-/

namespace KTorrent

open Runs

/-! ## The database -/

/-- `Database`. -/
structure Database where
  items : AList fun _ : Key => List DBItem
  /-- The tokens with the times at which they were made. -/
  tokens : AList fun _ : List UInt8 => UInt64

namespace Database

/-- An empty database. -/
def new : Database := ⟨∅, ∅⟩

/-- The items of a key; a key that is not there has none. -/
def itemsOf (db : Database) (key : Key) : List DBItem := (db.items.lookup key).getD []

/-- `Database::store`. -/
def store (db : Database) (key : Key) (dbi : DBItem) : Database :=
  { db with items := db.items.insert key (db.itemsOf key ++ [dbi]) }

/-- The loop of `sample`. -/
def sampleLoop (maxEntries : ℕ) (ipVersion : IpVersion) : List DBItem → List DBItem → List DBItem
  | [], tdbl => tdbl
  | i :: dbl, tdbl =>
    if tdbl.length < maxEntries then
      if ipVersion = i.addr.ipVersion then sampleLoop maxEntries ipVersion dbl (tdbl ++ [i])
      else sampleLoop maxEntries ipVersion dbl tdbl
    else tdbl

/-- `Database::sample`. -/
def sample (db : Database) (key : Key) (maxEntries : ℕ) (ipVersion : IpVersion) : List DBItem :=
  sampleLoop maxEntries ipVersion (db.itemsOf key) []

/-- What a token is made from. -/
def tokenData (addr : Address) (time : UInt64) : List UInt8 := addr.writeCompact ++ writeUint64 time

/-- `Database::genToken`. -/
def genToken (sha1 : List UInt8 → List UInt8) (now : UInt64) (db : Database) (addr : Address) :
    List UInt8 × Database :=
  let token := sha1 (tokenData addr now)
  (token, { db with tokens := db.tokens.insert token now })

/-- `Database::checkToken`. -/
def checkToken (sha1 : List UInt8 → List UInt8) (db : Database) (token : List UInt8)
    (addr : Address) : Bool × Database :=
  match db.tokens.lookup token with
  | none => (false, db)
  | some time =>
    if token ≠ sha1 (tokenData addr time) then (false, db)
    else (true, { db with tokens := db.tokens.erase token })

end Database

/-! ## The requests -/

/-- The fields of `DHT` that the two requests use. -/
structure DHT where
  ourId : Key
  db : Database

namespace DHT

/-- `DHT::announce`, with the response that is sent when the announce is accepted. -/
def announce (sha1 : List UInt8 → List UInt8) (d : DHT) (origin : Address) (r : AnnounceReq) :
    Option AnnounceRsp × DHT :=
  if r.id = d.ourId then (none, d)
  else
    match d.db.checkToken sha1 r.token origin with
    | (false, _) => (none, d)
    | (true, db) =>
      (some { mtid := r.mtid, id := d.ourId }, { d with db := db.store r.infoHash ⟨origin⟩ })

/-- `DHT::getPeers`, with the response that is sent.  The nodes come from the routing table. -/
def getPeers (sha1 : List UInt8 → List UInt8) (now : UInt64) (nodes nodes6 : List UInt8) (d : DHT)
    (origin : Address) (r : GetPeersReq) : Option GetPeersRsp × DHT :=
  if r.id = d.ourId then (none, d)
  else
    let dbl := d.db.sample r.infoHash 50 origin.ipVersion
    let (token, db) := d.db.genToken sha1 now origin
    (some { mtid := r.mtid, id := d.ourId, items := dbl, token, nodes, nodes6 }, { d with db })

end DHT

/-! ## Histories -/

/-- The DHT, with the peers whose announces were accepted: the info hash, and the address of the
sender with the port that it announced. -/
structure Announced where
  dht : DHT
  accepted : List (Key × Address)

namespace Announced

/-- A DHT that has stored nothing. -/
def new (ourId : Key) : Announced := ⟨⟨ourId, Database.new⟩, []⟩

/-- A request that is received, with its origin. -/
inductive Request where
  | getPeers (now : UInt64) (nodes nodes6 : List UInt8) (origin : Address) (r : GetPeersReq)
  | announce (origin : Address) (r : AnnounceReq)

/-- It is handled. -/
def step (sha1 : List UInt8 → List UInt8) (s : Announced) : Request → Announced
  | .getPeers now nodes nodes6 origin r =>
    { s with dht := (s.dht.getPeers sha1 now nodes nodes6 origin r).2 }
  | .announce origin r =>
    match s.dht.announce sha1 origin r with
    | (none, dht) => { s with dht }
    | (some _, dht) => ⟨dht, s.accepted ++ [(r.infoHash, ⟨origin.host, r.port⟩)]⟩

/-- The accepted peers for an info hash with this IP version, in order. -/
def peersOf (s : Announced) (key : Key) (v : IpVersion) : List Address :=
  (s.accepted.filter fun p => p.1 = key ∧ v = p.2.ipVersion).map Prod.snd

/-- **The values of every response are the accepted peers**, up to 50 of them. -/
def HandsOut (sha1 : List UInt8 → List UInt8) (s : Announced) : Prop :=
  ∀ now nodes nodes6 origin r rsp,
    (s.dht.getPeers sha1 now nodes nodes6 origin r).1 = some rsp →
    rsp.items.map DBItem.addr = (s.peersOf r.infoHash origin.ipVersion).take 50

/-- A peer that can be handed out announces the port it sent from: when its announce is accepted
and there are less than 50 peers before it, then the two ports are the same. -/
def SourcePort (sha1 : List UInt8 → List UInt8) (s : Announced) : Request → Prop
  | .getPeers .. => True
  | .announce origin r =>
    (s.dht.announce sha1 origin r).1.isSome →
      (s.peersOf r.infoHash origin.ipVersion).length < 50 → r.port = origin.portNumber

/-! ## What the database has -/

variable {sha1 : List UInt8 → List UInt8} {s : Announced} {key : Key} {v : IpVersion}

theorem sampleLoop_eq (n : ℕ) (v : IpVersion) : ∀ (dbl tdbl : List DBItem),
    Database.sampleLoop n v dbl tdbl =
      tdbl ++ (dbl.filter fun i => v = i.addr.ipVersion).take (n - tdbl.length) := by
  intro dbl
  induction dbl with
  | nil => exact fun tdbl => by simp [Database.sampleLoop]
  | cons i dbl ih =>
    intro tdbl
    rw [Database.sampleLoop]
    split
    case isTrue hroom =>
      obtain ⟨k, hk⟩ : ∃ k, n - tdbl.length = k + 1 := ⟨n - tdbl.length - 1, by omega⟩
      split
      case isTrue hv =>
        rw [ih, List.filter_cons_of_pos (by simpa using hv), hk, List.take_succ_cons,
          List.append_assoc, List.length_append, List.length_singleton,
          show n - (tdbl.length + 1) = k by omega]
        rfl
      case isFalse hv => rw [ih, List.filter_cons_of_neg (by simpa using hv)]
    case isFalse hfull => rw [show n - tdbl.length = 0 by omega, List.take_zero, List.append_nil]

theorem itemsOf_store (db : Database) (key key' : Key) (dbi : DBItem) :
    (db.store key dbi).itemsOf key' =
      if key' = key then db.itemsOf key ++ [dbi] else db.itemsOf key' := by
  rw [Database.itemsOf, Database.store]
  split
  case isTrue heq => rw [heq, AList.lookup_insert, Option.getD_some]
  case isFalse hne =>
    rw [AList.lookup_insert_ne hne]
    rfl

/-- The addresses that are stored for an info hash, with this IP version. -/
def storedOf (s : Announced) (key : Key) (v : IpVersion) : List Address :=
  ((s.dht.db.itemsOf key).filter fun i => v = i.addr.ipVersion).map DBItem.addr

theorem sample_addr (s : Announced) (key : Key) (v : IpVersion) :
    (s.dht.db.sample key 50 v).map DBItem.addr = (s.storedOf key v).take 50 := by
  rw [Database.sample, sampleLoop_eq, List.nil_append, List.length_nil, Nat.sub_zero, storedOf,
    List.map_take]

/-- Checking a token changes the tokens only. -/
theorem checkToken_items (db : Database) (token : List UInt8) (addr : Address) :
    (db.checkToken sha1 token addr).2.items = db.items := by
  rw [Database.checkToken]
  split
  · rfl
  · split <;> rfl

/-- An announce is refused and changes nothing, or it is accepted and its sender is stored. -/
theorem announce_cases (sha1 : List UInt8 → List UInt8) (d : DHT) (origin : Address)
    (r : AnnounceReq) :
    d.announce sha1 origin r = (none, d) ∨
      ∃ rsp d', d.announce sha1 origin r = (some rsp, d') ∧ d'.ourId = d.ourId ∧
        ∀ key, d'.db.itemsOf key =
          if key = r.infoHash then d.db.itemsOf r.infoHash ++ [⟨origin⟩] else d.db.itemsOf key := by
  rw [DHT.announce]
  split
  · exact .inl rfl
  · split
    case h_1 => exact .inl rfl
    case h_2 db heq =>
      refine .inr ⟨_, _, rfl, rfl, fun key => ?_⟩
      have hitems : (d.db.checkToken sha1 r.token origin).2.items = d.db.items :=
        checkToken_items d.db r.token origin
      rw [heq] at hitems
      have hsame : ∀ k, db.itemsOf k = d.db.itemsOf k := fun k => by
        rw [Database.itemsOf, Database.itemsOf, hitems]
      rw [itemsOf_store, hsame, hsame]

/-- What is stored agrees with what was accepted, as far as it can be handed out. -/
def Agrees (s : Announced) : Prop :=
  ∀ key v, (s.storedOf key v).length = (s.peersOf key v).length ∧
    (s.storedOf key v).take 50 = (s.peersOf key v).take 50

theorem getPeers_items {now : UInt64} {nodes nodes6 : List UInt8} {d : DHT} {origin : Address}
    {r : GetPeersReq} {rsp : GetPeersRsp}
    (h : (d.getPeers sha1 now nodes nodes6 origin r).1 = some rsp) :
    rsp.items = d.db.sample r.infoHash 50 origin.ipVersion := by
  rw [DHT.getPeers] at h
  split at h
  · cases h
  · rw [← Option.some.inj h]

theorem Agrees.handsOut (h : s.Agrees) : s.HandsOut sha1 := by
  intro now nodes nodes6 origin r rsp hrsp
  rw [getPeers_items hrsp, sample_addr]
  exact (h _ _).2

/-- Every list of stored peers can be asked for. -/
theorem HandsOut.take (h : s.HandsOut sha1) (key : Key) (v : IpVersion) :
    (s.storedOf key v).take 50 = (s.peersOf key v).take 50 := by
  obtain ⟨id, hid⟩ : ∃ id : Key, id ≠ s.dht.ourId := by
    by_cases hmin : Key.min = s.dht.ourId
    · exact ⟨Key.max, fun hmax => absurd (hmin.trans hmax.symm) (by decide)⟩
    · exact ⟨Key.min, hmin⟩
  obtain ⟨origin, rfl⟩ : ∃ origin : Address, origin.ipVersion = v := by
    cases v with
    | v4 => exact ⟨⟨.ipv4 0, 0⟩, rfl⟩
    | v6 => exact ⟨⟨.ipv6 ⟨List.replicate 16 0, rfl⟩, 0⟩, rfl⟩
  let r : GetPeersReq := ⟨⟨[], id⟩, key, []⟩
  obtain ⟨rsp, hrsp⟩ : ∃ rsp, (s.dht.getPeers sha1 0 [] [] origin r).1 = some rsp := by
    rw [DHT.getPeers, if_neg hid]
    exact ⟨_, rfl⟩
  have hitems := h 0 [] [] origin r rsp hrsp
  rw [getPeers_items hrsp, sample_addr] at hitems
  exact hitems

/-! ## The steps -/

/-- Two lists with one more each begin alike exactly when what was added does not matter or is
the same. -/
theorem take_append_singleton {l l' : List Address} {a b : Address} {n : ℕ}
    (hlen : l.length = l'.length) (h : l.take n = l'.take n) :
    (l ++ [a]).take n = (l' ++ [b]).take n ↔ (l.length < n → a = b) := by
  rcases Nat.lt_or_ge l.length n with hlt | hge
  · rw [List.take_of_length_le (by simp; omega), List.take_of_length_le (by simp; omega)]
    rw [List.take_of_length_le hlt.le, List.take_of_length_le (by omega)] at h
    rw [h]
    simp only [List.append_cancel_left_eq, List.cons.injEq, and_true]
    exact ⟨fun hab _ => hab, fun hab => hab (by omega)⟩
  · rw [List.take_append_of_le_length hge, List.take_append_of_le_length (by omega)]
    exact iff_of_true h fun hlt => absurd hlt (by omega)

/-- **An accepted announce** adds one address on both sides, for its info hash and IP version. -/
theorem accepted_spec {origin : Address} {r : AnnounceReq} {d : DHT}
    (hitems : ∀ key, d.db.itemsOf key = if key = r.infoHash then
      s.dht.db.itemsOf r.infoHash ++ [⟨origin⟩] else s.dht.db.itemsOf key) (key : Key) (v : IpVersion) :
    let s' : Announced := ⟨d, s.accepted ++ [(r.infoHash, ⟨origin.host, r.port⟩)]⟩
    if key = r.infoHash ∧ v = origin.ipVersion then
      s'.storedOf key v = s.storedOf key v ++ [origin] ∧
        s'.peersOf key v = s.peersOf key v ++ [⟨origin.host, r.port⟩]
    else s'.storedOf key v = s.storedOf key v ∧ s'.peersOf key v = s.peersOf key v := by
  have hversion : (⟨origin.host, r.port⟩ : Address).ipVersion = origin.ipVersion := rfl
  dsimp only
  rw [storedOf, hitems, peersOf, List.filter_append, List.map_append, storedOf, peersOf]
  by_cases hkey : key = r.infoHash
  · subst hkey
    rw [if_pos rfl, List.filter_append, List.map_append]
    by_cases hv : v = origin.ipVersion
    · rw [if_pos ⟨rfl, hv⟩]
      simp [hv, hversion]
    · rw [if_neg fun h => hv h.2]
      simp [hv, hversion]
  · rw [if_neg hkey, if_neg fun h => hkey h.1]
    simp [Ne.symm hkey]

theorem agrees_step (sha1 : List UInt8 → List UInt8) (h : s.Agrees) (req : Request)
    (hok : s.SourcePort sha1 req) : (s.step sha1 req).Agrees := by
  cases req with
  | getPeers now nodes nodes6 origin r =>
    rw [step, DHT.getPeers]
    split <;> exact h
  | announce origin r =>
    rw [step]
    obtain heq | ⟨rsp, d, heq, -, hitems⟩ := announce_cases sha1 s.dht origin r
    · rw [heq]
      exact h
    · rw [SourcePort, heq] at hok
      rw [heq]
      intro key v
      have hspec := accepted_spec (s := s) hitems key v
      obtain ⟨hlen, htake⟩ := h key v
      dsimp only at hspec ⊢
      split at hspec
      case isTrue hmine =>
        obtain ⟨rfl, rfl⟩ := hmine
        rw [hspec.1, hspec.2]
        refine ⟨by simp [hlen], (take_append_singleton hlen htake).mpr fun hlt => ?_⟩
        rw [hok rfl (by omega)]
      case isFalse =>
        rw [hspec.1, hspec.2]
        exact ⟨hlen, htake⟩

/-- A peer that can be handed out and announces another port is handed out wrongly. -/
theorem not_handsOut_step (sha1 : List UInt8 → List UInt8) (h : s.Agrees) (req : Request)
    (hbad : ¬ s.SourcePort sha1 req) : ¬ (s.step sha1 req).HandsOut sha1 := by
  cases req with
  | getPeers => exact absurd trivial hbad
  | announce origin r =>
    rw [SourcePort, Classical.not_imp, Classical.not_imp] at hbad
    obtain ⟨hsome, hroom, hport⟩ := hbad
    rw [step]
    obtain heq | ⟨rsp, d, heq, -, hitems⟩ := announce_cases sha1 s.dht origin r
    · rw [heq] at hsome
      cases hsome
    · rw [heq]
      intro hout
      have hspec := accepted_spec (s := s) hitems r.infoHash origin.ipVersion
      obtain ⟨hlen, htake⟩ := h r.infoHash origin.ipVersion
      rw [if_pos ⟨rfl, rfl⟩] at hspec
      have hnext := hout.take r.infoHash origin.ipVersion
      dsimp only at hnext
      rw [hspec.1, hspec.2, take_append_singleton hlen htake] at hnext
      have hsame := hnext (by omega)
      exact hport (congrArg Address.portNumber hsame).symm

/-- **Exactly the announced peers are handed out** as long as every peer that can be handed out
announces the port that it sent from. -/
theorem allStates_handsOut_iff (sha1 : List UInt8 → List UInt8) (ourId : Key) (reqs : List Request) :
    AllStates (step sha1) (HandsOut sha1) (new ourId) reqs ↔
      AllSteps (step sha1) (SourcePort sha1) (new ourId) reqs :=
  allStates_iff_allSteps (fun _ h => h.handsOut) (fun _ req h hok => agrees_step sha1 h req hok)
    (fun _ req h hbad => not_handsOut_step sha1 h req hbad) reqs _ fun _ _ => ⟨rfl, rfl⟩

/-- A peer asks for a token and announces port 1, with the token it got. -/
def announcesPortOne (sha1 : List UInt8 → List UInt8) : List Request :=
  let origin : Address := ⟨.ipv4 1, 6881⟩
  [.getPeers 0 [] [] origin ⟨⟨[97], Key.max⟩, Key.min, []⟩,
    .announce origin ⟨⟨⟨[98], Key.max⟩, Key.min, []⟩, 1, sha1 (Database.tokenData origin 0)⟩]

/-- Port 6881 is handed out for it, whatever the hash is. -/
theorem portOne_not_handsOut :
    ¬ ∃ sha1, (run (step sha1) (new Key.min) (announcesPortOne sha1)).HandsOut sha1 := by
  rintro ⟨sha1, h⟩
  have hfirst : (new Key.min).Agrees := fun _ _ => ⟨rfl, rfl⟩
  refine not_handsOut_step sha1 (agrees_step sha1 hfirst (.getPeers ..) trivial) (.announce ..) ?_ h
  intro hok
  have hother : Key.max ≠ Key.min := by decide
  have hports : (1 : UInt16) ≠ 6881 := by decide
  refine hports (hok ?_ (Nat.succ_pos 49))
  simp [step, new, DHT.getPeers, DHT.announce, Database.genToken, Database.checkToken, hother]

end Announced

end KTorrent
