import KTorrent.Util.Constants

/-!
# Parsing datagrams

The model of `PacketParser::parse`, which walks the extensions behind the header
of a datagram.  Every extension is the id of the next one, a length, and as many
bytes; the remote writes all of them.

* `Datagram` — what `UTPServer` hands over; `parse` — as the source computes it.
* `ParsesInside` — nothing outside the datagram is read, and what is reported is inside.
* `ChainInside` — the extensions are inside, or a selective ack is cut off where it can be seen.
* `parsesInside_iff` — the first is so exactly when the second is.
-/

namespace KTorrent

/-! ## The model -/

/-- `Header::size()`. -/
def headerSize : ℕ := 20

/-- `SELECTIVE_ACK_ID`. -/
def selectiveAckId : UInt8 := 1

/-- A datagram that `UTPServer` does not discard; one of UDP has less than 64 KiB. -/
structure Datagram where
  packet : List UInt8
  long : headerSize ≤ packet.length
  short : packet.length < 2 ^ 16

/-- The `SelectiveAck` of a parser; `bitmask` is where its bytes are in the datagram. -/
structure SackField where
  extension : UInt8
  length : UInt8
  bitmask : ℕ
  deriving DecidableEq, Repr

/-- How `parse` ends: with what it returns, or with a read outside the datagram. -/
inductive ParseResult where
  | parsed (dataOff dataSize : ℕ) (sack : Option SackField)
  | rejected
  | outside
  deriving DecidableEq, Repr

namespace PacketParser

/-- The loop of `parse`.  A datagram is too short for `dataOff` to wrap around. -/
def extensions (packet : List UInt8) (dataOff : ℕ) (extId : UInt8) (sack : Option SackField) :
    ParseResult :=
  if dataOff < packet.length ∧ extId ≠ 0 then
    match packet[dataOff]?, packet[dataOff + 1]? with
    | some next, some len =>
      if extId = selectiveAckId ∧ dataOff + 2 + len.toNat > packet.length then .rejected
      else
        extensions packet (dataOff + 2 + len.toNat) next
          (if extId = selectiveAckId then some ⟨next, len, dataOff + 2⟩ else sack)
    | _, _ => .outside
  else .parsed dataOff (sub32 packet.length dataOff) sack
  termination_by packet.length - dataOff

/-- `PacketParser::parse`; the header has the id of the first extension. -/
def parse (packet : List UInt8) : ParseResult :=
  if packet.length < headerSize then .rejected
  else extensions packet headerSize (packet.getD 1 0) none

end PacketParser

/-! ## The law -/

/-- A result that reads and reports nothing outside `size` bytes. -/
def ParseResult.Inside (size : ℕ) : ParseResult → Prop
  | .parsed dataOff dataSize sack =>
    headerSize ≤ dataOff ∧ dataOff ≤ size ∧ dataSize = size - dataOff ∧
      ∀ s, sack = some s → s.bitmask + s.length.toNat ≤ size
  | .rejected => True
  | .outside => False

namespace Datagram

/-- Parsing reads and reports nothing outside the datagram. -/
def ParsesInside (d : Datagram) : Prop := (PacketParser.parse d.packet).Inside d.packet.length

end Datagram

/-- The extensions from `off` on, the first one with the id `extId`. -/
inductive ChainInside (packet : List UInt8) : ℕ → UInt8 → Prop
  /-- No extension is left. -/
  | done {off : ℕ} (hoff : off ≤ packet.length) : ChainInside packet off 0
  /-- The datagram ends. -/
  | ends (extId : UInt8) : ChainInside packet packet.length extId
  /-- The bytes of a selective ack are cut off. -/
  | cut {off : ℕ} {next len : UInt8} (hnext : packet[off]? = some next)
      (hlen : packet[off + 1]? = some len) (hout : packet.length < off + 2 + len.toNat) :
      ChainInside packet off selectiveAckId
  /-- An extension is inside the datagram, and so are those behind it. -/
  | record {off : ℕ} {extId next len : UInt8} (hnext : packet[off]? = some next)
      (hlen : packet[off + 1]? = some len) (hin : off + 2 + len.toNat ≤ packet.length)
      (hrest : ChainInside packet (off + 2 + len.toNat) next) : ChainInside packet off extId

namespace ChainInside

variable {packet : List UInt8} {off : ℕ} {extId : UInt8}

theorem off_le (h : ChainInside packet off extId) : off ≤ packet.length := by
  cases h with
  | done hoff => exact hoff
  | ends => exact le_rfl
  | cut hnext => exact (List.getElem?_eq_some_iff.mp hnext).1.le
  | record hnext => exact (List.getElem?_eq_some_iff.mp hnext).1.le

end ChainInside

namespace PacketParser

variable {packet : List UInt8} {off : ℕ} {extId : UInt8} {sack : Option SackField}

/-- The selective ack found so far is inside. -/
def SackInside (size : ℕ) (sack : Option SackField) : Prop :=
  ∀ s, sack = some s → s.bitmask + s.length.toNat ≤ size

/-- **The loop**: with a selective ack inside so far, it stays inside exactly when the
extensions from here on are chained. -/
theorem extensions_inside_iff (hshort : packet.length < 2 ^ 16) (hoff : headerSize ≤ off)
    (hsack : SackInside packet.length sack) :
    (extensions packet off extId sack).Inside packet.length ↔ ChainInside packet off extId := by
  induction off, extId, sack using extensions.induct packet with
  | case1 off extId sack hgo next len hlen hnext hcut =>
    -- a selective ack that is cut off is refused
    rw [extensions, if_pos hgo, hnext, hlen]
    dsimp only
    rw [if_pos hcut]
    obtain ⟨rfl, hout⟩ := hcut
    exact iff_of_true trivial (.cut hnext hlen hout)
  | case2 off extId sack hgo next len hlen hnext hcut ih =>
    rw [extensions, if_pos hgo, hnext, hlen]
    dsimp only
    rw [if_neg hcut]
    have hfield : off + 2 + len.toNat ≤ packet.length → SackInside packet.length
        (if extId = selectiveAckId then some ⟨next, len, off + 2⟩ else sack) := by
      intro hin
      split_ifs
      · rintro s ⟨⟩
        exact hin
      · exact hsack
    rcases Nat.lt_or_ge packet.length (off + 2 + len.toNat) with hout | hin
    · -- the offset leaves the datagram, and the loop stops there
      refine iff_of_false ?_ ?_
      · rw [extensions, if_neg (by omega)]
        rintro ⟨-, hle, -⟩
        omega
      · intro h
        cases h with
        | done hle => exact hgo.2 rfl
        | ends => omega
        | cut hnext' hlen' hout' =>
          rw [hlen] at hlen'
          obtain rfl := Option.some.inj hlen'
          exact hcut ⟨rfl, hout'⟩
        | record hnext' hlen' hin' =>
          rw [hlen] at hlen'
          obtain rfl := Option.some.inj hlen'
          omega
    · refine (ih (by omega) (hfield hin)).trans ?_
      constructor
      · exact .record hnext hlen hin
      · intro h
        cases h with
        | done hle => exact absurd rfl hgo.2
        | ends => omega
        | cut hnext' hlen' hout' =>
          rw [hlen] at hlen'
          obtain rfl := Option.some.inj hlen'
          omega
        | record hnext' hlen' _ hrest =>
          rw [hnext] at hnext'
          rw [hlen] at hlen'
          obtain rfl := Option.some.inj hnext'
          obtain rfl := Option.some.inj hlen'
          exact hrest
  | case3 off extId sack hgo hno =>
    -- the id is the last byte of the datagram, or the length is behind it
    have hlast : packet[off + 1]? = none := by
      cases hlen : packet[off + 1]? with
      | none => rfl
      | some len => exact (hno _ len (List.getElem?_eq_getElem hgo.1) hlen).elim
    rw [extensions, if_pos hgo, hlast]
    refine iff_of_false ?_ ?_
    · rw [List.getElem?_eq_getElem hgo.1]
      exact id
    · intro h
      cases h with
      | done hle => exact hgo.2 rfl
      | ends => omega
      | cut _ hlen => simp [hlast] at hlen
      | record _ hlen => simp [hlast] at hlen
  | case4 off extId sack hstop =>
    rw [extensions, if_neg hstop]
    constructor
    · rintro ⟨-, hle, -⟩
      by_cases hend : off = packet.length
      · rw [hend]
        exact .ends extId
      · obtain rfl : extId = 0 := by
          by_contra hne
          exact hstop ⟨by omega, hne⟩
        exact .done hle
    · intro h
      have hle := h.off_le
      exact ⟨hoff, hle, sub32_of_le hle (by omega), hsack⟩

end PacketParser

namespace Datagram

/-- **What a parser reports.**  Parsing a datagram ends, reads nothing outside it and reports only
what is inside exactly when its extensions are chained. -/
theorem parsesInside_iff (d : Datagram) :
    d.ParsesInside ↔ ChainInside d.packet headerSize (d.packet.getD 1 0) := by
  unfold ParsesInside PacketParser.parse
  rw [if_neg (not_lt.mpr d.long)]
  refine PacketParser.extensions_inside_iff d.short le_rfl ?_
  intro s hs
  cases hs

/-- A header, and an unknown extension that claims to be 255 bytes long. -/
def longExtension : Datagram where
  packet := [0x21, 2] ++ List.replicate 18 0 ++ [0, 255]
  long := by decide
  short := by decide

/-- **An unknown extension** is not checked: the data seem to be behind the datagram. -/
theorem longExtension_outside : ¬ longExtension.ParsesInside := by
  have hparse : PacketParser.parse longExtension.packet = .parsed 277 4294967041 none := by
    decide +kernel
  unfold ParsesInside
  rw [hparse]
  rintro ⟨-, hle, -⟩
  revert hle
  decide

end Datagram

end KTorrent
