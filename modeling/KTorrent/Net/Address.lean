import KTorrent.Bcodec.BEncoder
import KTorrent.Util.Endian

/-!
# Addresses and their compact form

`net::Address` is a host address with a port number.  Peer exchange and trackers
write it in a compact form of 6 bytes for IPv4 and 18 for IPv6.

* `Address.writeCompact`, `fromCompactIPv4`, `fromCompactIPv6` — as the source has them.
* `fromCompact_writeCompact` — what is written is read back.
* `IpVersion.readAddresses` — the loops by which `PeerManager::pex` reads a string of them.
* `readAddresses_flatMap` — so are many addresses, one after the other.
-/

namespace KTorrent

/-- The two protocols for which `ipVersion` has a number, 4 and 6. -/
inductive IpVersion where
  | v4
  | v6
  deriving DecidableEq, Repr

/-- `QHostAddress`; what is no IPv4 address stands by the sixteen bytes of `toIPv6Address`. -/
inductive HostAddress where
  | ipv4 (ip : UInt32)
  | ipv6 (bytes : { l : List UInt8 // l.length = 16 })
  deriving DecidableEq

/-- `net::Address`. -/
structure Address where
  host : HostAddress
  portNumber : UInt16
  deriving DecidableEq

namespace Address

/-- `Address::ipVersion`. -/
def ipVersion (a : Address) : IpVersion :=
  match a.host with
  | .ipv4 _ => .v4
  | .ipv6 _ => .v6

/-- `Address::writeCompact`: the bytes it writes. -/
def writeCompact (a : Address) : List UInt8 :=
  match a.host with
  | .ipv4 ip => writeUint32 ip ++ writeUint16 a.portNumber
  | .ipv6 bytes => bytes.1 ++ writeUint16 a.portNumber

/-- `Address::fromCompactIPv4`. -/
def fromCompactIPv4 (ba : List UInt8) : Option Address := do
  let ip ← readUint32 ba 0
  let port ← readUint16 ba 4
  return ⟨.ipv4 ip, port⟩

/-- `Address::fromCompactIPv6`. -/
def fromCompactIPv6 (ba : List UInt8) : Option Address := do
  let port ← readUint16 ba 16
  if h : (ba.take 16).length = 16 then return ⟨.ipv6 ⟨ba.take 16, h⟩, port⟩ else none

end Address

namespace IpVersion

/-- The length of a compact address. -/
def compactWidth : IpVersion → ℕ
  | .v4 => 6
  | .v6 => 18

/-- The reader of a compact address. -/
def fromCompact : IpVersion → List UInt8 → Option Address
  | .v4 => Address.fromCompactIPv4
  | .v6 => Address.fromCompactIPv6

/-- The conditions of the loops of `PeerManager::pex`: `i + 6 <= arr.size()` and
`i < arr.size()`. -/
def goesOn : IpVersion → List UInt8 → Bool
  | .v4, arr => 6 ≤ arr.length
  | .v6, arr => 0 < arr.length

theorem length_pos_of_goesOn {v : IpVersion} {arr : List UInt8} (h : v.goesOn arr) :
    0 < arr.length := by
  cases v <;> simp only [goesOn, decide_eq_true_eq] at h <;> omega

/-- The loops of `PeerManager::pex`, which read the addresses of a string; `none` where a read
goes past its end. -/
def readAddresses (v : IpVersion) (arr : List UInt8) : Option (List Address) :=
  if v.goesOn arr then do
    let addr ← v.fromCompact (arr.take v.compactWidth)
    let addrs ← v.readAddresses (arr.drop v.compactWidth)
    return addr :: addrs
  else some []
  termination_by arr.length
  decreasing_by
    have hpos : 0 < arr.length := length_pos_of_goesOn ‹_›
    have : 0 < v.compactWidth := by cases v <;> decide
    rw [List.length_drop]
    omega

end IpVersion

/-! ## Round trips -/

namespace Address

theorem writeCompact_length (a : Address) : a.writeCompact.length = a.ipVersion.compactWidth := by
  obtain ⟨host, port⟩ := a
  cases host with
  | ipv4 ip => rfl
  | ipv6 bytes => simp [writeCompact, ipVersion, IpVersion.compactWidth, bytes.2]

/-- The bytes of an address. -/
def bytes (a : Address) : BString :=
  ⟨a.writeCompact, by rw [a.writeCompact_length]; cases a.ipVersion <;> decide⟩

/-- A compact address is read back. -/
theorem fromCompact_writeCompact (a : Address) : a.ipVersion.fromCompact a.writeCompact = some a := by
  obtain ⟨host, port⟩ := a
  cases host with
  | ipv4 ip =>
    have hip : readUint32 (writeUint32 ip ++ writeUint16 port) 0 = some ip :=
      readUint32_writeUint32 [] _ ip
    have hport : readUint16 (writeUint32 ip ++ writeUint16 port) 4 = some port := by
      simpa using readUint16_writeUint16 (writeUint32 ip) [] port
    simp [ipVersion, IpVersion.fromCompact, writeCompact, fromCompactIPv4, hip, hport]
  | ipv6 bytes =>
    have hport : readUint16 (bytes.1 ++ writeUint16 port) 16 = some port := by
      simpa [bytes.2] using readUint16_writeUint16 bytes.1 [] port
    have htake : (bytes.1 ++ writeUint16 port).take 16 = bytes.1 := by
      simp [bytes.2]
    simp [ipVersion, IpVersion.fromCompact, writeCompact, fromCompactIPv6, hport, htake, bytes.2]

end Address

/-- **Addresses written one after the other are read back.** -/
theorem IpVersion.readAddresses_flatMap (v : IpVersion) {addrs : List Address}
    (hv : ∀ a ∈ addrs, a.ipVersion = v) :
    v.readAddresses (addrs.flatMap Address.writeCompact) = some addrs := by
  induction addrs with
  | nil =>
    rw [List.flatMap_nil, readAddresses, if_neg]
    cases v <;> decide
  | cons a addrs ih =>
    have ha : a.ipVersion = v := hv a List.mem_cons_self
    have hlen : a.writeCompact.length = v.compactWidth := ha ▸ a.writeCompact_length
    have hgo : v.goesOn (a.writeCompact ++ addrs.flatMap Address.writeCompact) := by
      cases v <;> simp [goesOn, hlen, compactWidth]
    rw [List.flatMap_cons, readAddresses, if_pos hgo, ← hlen, List.take_left, List.drop_left]
    subst ha
    rw [a.fromCompact_writeCompact, ih fun b hb => hv b (List.mem_cons_of_mem a hb)]
    rfl

end KTorrent
