import KTorrent.Net.Address
import Mathlib.Data.List.AList

/-!
# Peer exchange: what is received

The model of the receiving side of peer exchange, `PeerManager::pex`: a string of
compact addresses, as long as the peer likes, of which every one becomes a
potential peer.

* `PotentialPeers` — what `PeerManager` keeps of addresses; `addPotentialPeer`, `pex`.
* `Decoded` — the addresses of the whole records of a string.
* `PexLaw` — a message adds exactly these.
* `pexLaw_iff` — that is so exactly when it is for IPv4, or has no partial record.
-/

namespace KTorrent

/-! ## The model -/

/-- The addresses a `PeerManager` may connect to, and whether they are of the local network. -/
structure PotentialPeers where
  pexOn : Bool
  potentialPeers : AList fun _ : Address => Bool

namespace PotentialPeers

/-- `PeerManager::addPotentialPeer`. -/
def addPotentialPeer (s : PotentialPeers) (addr : Address) (isLocal : Bool) : PotentialPeers :=
  if s.potentialPeers.keys.length < 500 then
    { s with potentialPeers := s.potentialPeers.insert addr isLocal }
  else s

/-- `PeerManager::pex`; `none` where it slices outside the string. -/
def pex (s : PotentialPeers) (arr : List UInt8) (v : IpVersion) : Option PotentialPeers :=
  if !s.pexOn then some s
  else (v.readAddresses arr).map (List.foldl (fun s addr => s.addPotentialPeer addr false) s)

end PotentialPeers

/-! ## Whole records -/

namespace IpVersion

/-- The addresses of the whole records of a string, in order. -/
structure Decoded (v : IpVersion) (arr : List UInt8) (addrs : List Address) : Prop where
  /-- There are as many as the string has room for. -/
  length_eq : addrs.length = arr.length / v.compactWidth
  /-- Each is that of its record. -/
  record : ∀ k addr, addrs[k]? = some addr →
    v.fromCompact ((arr.drop (v.compactWidth * k)).take v.compactWidth) = some addr

theorem compactWidth_pos (v : IpVersion) : 0 < v.compactWidth := by
  cases v
  · decide
  · decide

/-- Two bytes make a number, and fewer do not. -/
theorem readUint16_isSome_iff (buf : List UInt8) (off : ℕ) :
    (∃ n, readUint16 buf off = some n) ↔ off + 2 ≤ buf.length := by
  have hlen : (buf.drop off).length = buf.length - off := List.length_drop
  unfold readUint16
  rcases hdrop : buf.drop off with _ | ⟨a, _ | ⟨b, rest⟩⟩
  · simp only [hdrop, List.length_nil] at hlen
    simp only [reduceCtorEq, exists_false, false_iff]
    omega
  · simp only [hdrop, List.length_cons, List.length_nil] at hlen
    simp only [reduceCtorEq, exists_false, false_iff]
    omega
  · simp only [hdrop, List.length_cons] at hlen
    simp only [Option.some.injEq, exists_eq', true_iff]
    omega

/-- Four bytes make a number. -/
theorem readUint32_isSome {buf : List UInt8} {off : ℕ} (h : off + 4 ≤ buf.length) :
    ∃ n, readUint32 buf off = some n := by
  have hlen : (buf.drop off).length = buf.length - off := List.length_drop
  unfold readUint32
  rcases hdrop : buf.drop off with _ | ⟨a, _ | ⟨b, _ | ⟨c, _ | ⟨d, rest⟩⟩⟩⟩
  case cons.cons.cons.cons => exact ⟨_, rfl⟩
  all_goals
    simp only [hdrop, List.length_cons, List.length_nil] at hlen
    omega

/-- A whole record has an address. -/
theorem fromCompact_whole (v : IpVersion) {arr : List UInt8} (h : v.compactWidth ≤ arr.length) :
    ∃ addr, v.fromCompact (arr.take v.compactWidth) = some addr := by
  cases v with
  | v4 =>
    have hlen : (arr.take 6).length = 6 := List.length_take_of_le h
    obtain ⟨ip, hip⟩ := readUint32_isSome (show 0 + 4 ≤ (arr.take 6).length by omega)
    obtain ⟨port, hport⟩ := (readUint16_isSome_iff (arr.take 6) 4).mpr (by omega)
    refine ⟨⟨.ipv4 ip, port⟩, ?_⟩
    simp [fromCompact, compactWidth, Address.fromCompactIPv4, hip, hport]
  | v6 =>
    have hlen : (arr.take 18).length = 18 := List.length_take_of_le h
    obtain ⟨port, hport⟩ := (readUint16_isSome_iff (arr.take 18) 16).mpr (by omega)
    have hip : ((arr.take 18).take 16).length = 16 := by
      rw [List.length_take, hlen]
      rfl
    refine ⟨⟨.ipv6 ⟨(arr.take 18).take 16, hip⟩, port⟩, ?_⟩
    show Address.fromCompactIPv6 (arr.take 18) = _
    rw [Address.fromCompactIPv6, hport]
    exact dif_pos hip

/-- A part of an IPv6 record has none. -/
theorem fromCompact_partial {arr : List UInt8} (h : arr.length < 18) :
    IpVersion.v6.fromCompact (arr.take 18) = none := by
  have hport : readUint16 (arr.take 18) 16 = none := by
    cases hread : readUint16 (arr.take 18) 16 with
    | none => rfl
    | some n =>
      have hlen := (readUint16_isSome_iff (arr.take 18) 16).mp ⟨n, hread⟩
      rw [List.length_take] at hlen
      omega
  simp [fromCompact, Address.fromCompactIPv6, hport]

/-- Where a loop without partial records goes on, a whole record is left, and where it
stops there is none. -/
theorem goesOn_iff {v : IpVersion} {arr : List UInt8} (h : v = .v4 ∨ v.compactWidth ∣ arr.length) :
    v.goesOn arr = true ↔ v.compactWidth ≤ arr.length := by
  cases v with
  | v4 => simp [goesOn, compactWidth]
  | v6 =>
    obtain ⟨k, hk⟩ := h.resolve_left (by decide)
    simp only [compactWidth] at hk
    simp only [goesOn, compactWidth, decide_eq_true_eq]
    omega

/-- One more record in front. -/
theorem Decoded.cons {v : IpVersion} {arr : List UInt8} {addr : Address} {addrs : List Address}
    (hlen : v.compactWidth ≤ arr.length)
    (haddr : v.fromCompact (arr.take v.compactWidth) = some addr)
    (h : v.Decoded (arr.drop v.compactWidth) addrs) : v.Decoded arr (addr :: addrs) where
  length_eq := by
    rw [List.length_cons, h.length_eq, List.length_drop, Nat.div_eq_sub_div v.compactWidth_pos hlen]
  record := by
    intro k a hk
    cases k with
    | zero =>
      obtain rfl : addr = a := by simpa using hk
      rwa [Nat.mul_zero, List.drop_zero]
    | succ k =>
      have hrec := h.record k a (by simpa using hk)
      rwa [List.drop_drop, show v.compactWidth + v.compactWidth * k = v.compactWidth * (k + 1) by
        ring] at hrec

/-- Less than a record. -/
theorem decoded_nil {v : IpVersion} {arr : List UInt8} (h : arr.length < v.compactWidth) :
    v.Decoded arr [] where
  length_eq := by rw [Nat.div_eq_of_lt h, List.length_nil]
  record := by
    intro k addr hk
    cases hk

/-- Every string has its whole records. -/
theorem exists_decoded (v : IpVersion) (arr : List UInt8) : ∃ addrs, v.Decoded arr addrs := by
  induction hn : arr.length using Nat.strong_induction_on generalizing arr with
  | h n ih =>
    have hw := v.compactWidth_pos
    rcases Nat.lt_or_ge arr.length v.compactWidth with hshort | hlong
    · exact ⟨[], decoded_nil hshort⟩
    · obtain ⟨addr, haddr⟩ := v.fromCompact_whole hlong
      have hless : (arr.drop v.compactWidth).length < n := by
        rw [List.length_drop]
        omega
      obtain ⟨addrs, hdec⟩ := ih _ hless _ rfl
      exact ⟨addr :: addrs, hdec.cons hlong haddr⟩

/-- The loops read the whole records, if they come to no partial one. -/
theorem readAddresses_decoded (v : IpVersion) (arr : List UInt8)
    (h : v = .v4 ∨ v.compactWidth ∣ arr.length) :
    ∃ addrs, v.readAddresses arr = some addrs ∧ v.Decoded arr addrs := by
  induction hn : arr.length using Nat.strong_induction_on generalizing arr with
  | h n ih =>
    have hgo := goesOn_iff h
    rw [readAddresses]
    rcases Nat.lt_or_ge arr.length v.compactWidth with hshort | hlong
    · exact ⟨[], if_neg (by rw [hgo]; omega), decoded_nil hshort⟩
    · have hw := v.compactWidth_pos
      obtain ⟨addr, haddr⟩ := v.fromCompact_whole hlong
      have hless : (arr.drop v.compactWidth).length < n := by
        rw [List.length_drop]
        omega
      have hrest : v = .v4 ∨ v.compactWidth ∣ (arr.drop v.compactWidth).length := by
        refine h.imp_right fun hdvd => ?_
        rw [List.length_drop]
        exact Nat.dvd_sub hdvd dvd_rfl
      obtain ⟨addrs, haddrs, hdec⟩ := ih _ hless _ hrest rfl
      refine ⟨addr :: addrs, ?_, hdec.cons hlong haddr⟩
      rw [if_pos (hgo.mpr hlong), haddr, haddrs]
      rfl

/-- The IPv6 loop goes on to a partial record. -/
theorem readAddresses_partial (arr : List UInt8) (h : ¬ 18 ∣ arr.length) :
    IpVersion.v6.readAddresses arr = none := by
  induction hn : arr.length using Nat.strong_induction_on generalizing arr with
  | h n ih =>
    have hgo : IpVersion.v6.goesOn arr = true := by
      simp only [goesOn, decide_eq_true_eq]
      by_contra hzero
      exact h ⟨0, by omega⟩
    rw [readAddresses, if_pos hgo]
    rcases Nat.lt_or_ge arr.length 18 with hshort | hlong
    · rw [show compactWidth .v6 = 18 from rfl, fromCompact_partial hshort]
      rfl
    · have hrest : ¬ 18 ∣ (arr.drop 18).length := by
        rw [List.length_drop]
        omega
      have hnone := ih _ (by rw [List.length_drop]; omega) _ hrest rfl
      obtain ⟨addr, haddr⟩ := IpVersion.v6.fromCompact_whole hlong
      rw [haddr, show compactWidth .v6 = 18 from rfl, hnone]
      rfl

end IpVersion

/-! ## The law -/

namespace PotentialPeers

/-- A message adds the addresses of its whole records, and nothing outside it is read.  With peer
exchange off it adds none. -/
def PexLaw (s : PotentialPeers) (arr : List UInt8) (v : IpVersion) : Prop :=
  ∃ addrs, v.Decoded arr addrs ∧ s.pex arr v =
    some (if s.pexOn then addrs.foldl (fun s addr => s.addPotentialPeer addr false) s else s)

/-- **What a message adds.**  A string of addresses adds those of its whole records, and
nothing outside it is read, exactly when it is one of IPv4 or has no partial record, or
peer exchange is off. -/
theorem pexLaw_iff (s : PotentialPeers) (arr : List UInt8) (v : IpVersion) :
    s.PexLaw arr v ↔ s.pexOn = false ∨ v = .v4 ∨ 18 ∣ arr.length := by
  unfold PexLaw pex
  cases hon : s.pexOn with
  | false =>
    obtain ⟨addrs, hdec⟩ := v.exists_decoded arr
    exact iff_of_true ⟨addrs, hdec, rfl⟩ (Or.inl rfl)
  | true =>
    constructor
    · rintro ⟨addrs, -, hpex⟩
      by_contra hbad
      push Not at hbad
      obtain ⟨-, hv, hpart⟩ := hbad
      obtain rfl : v = .v6 := by
        cases v with
        | v4 => exact absurd rfl hv
        | v6 => rfl
      rw [IpVersion.readAddresses_partial arr hpart] at hpex
      cases hpex
    · intro h
      have hwhole : v = .v4 ∨ v.compactWidth ∣ arr.length := by
        rcases h with hoff | hv | hdvd
        · cases hoff
        · exact Or.inl hv
        · cases v with
          | v4 => exact Or.inl rfl
          | v6 => exact Or.inr hdvd
      obtain ⟨addrs, haddrs, hdec⟩ := v.readAddresses_decoded arr hwhole
      refine ⟨addrs, hdec, ?_⟩
      rw [haddrs]
      rfl

/-- **A partial record.**  A single byte for IPv6 is sliced as if it were eighteen. -/
theorem partial_record_sliced : ¬ PexLaw ⟨true, ∅⟩ [0] .v6 := by
  rintro ⟨addrs, -, hpex⟩
  have hnone : pex ⟨true, ∅⟩ [0] .v6 = none := by
    unfold pex
    rw [IpVersion.readAddresses_partial [0] (by decide)]
    rfl
  rw [hnone] at hpex
  cases hpex

end PotentialPeers

end KTorrent
