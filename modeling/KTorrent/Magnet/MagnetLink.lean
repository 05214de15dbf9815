import KTorrent.Lib.BigEndian

/-!
# Magnet links: `MagnetLink`

A magnet link names a torrent by its info hash, written with 40 hexadecimal or 32 base32 digits
(`magnet/magnetlink.cpp`).  A base32 hash is first written in hexadecimal: the 20 bits of four
digits become five nibbles.

* `Unicode` — what is used of `QChar` and `QString`, with what their documentation says about
  ASCII; `Url` — what is used of `QUrl` and `QUrlQuery`.
* `charToHex`, `base32ToHexString`, `MagnetLink.parse` — as in the source; `none` is an exception.
* `denoted` — the bytes that a string denotes, in either notation.
* `parse_notation_iff` — **when the link is read as the notations say**: the tests for letters and
  digits are wider than either alphabet.
-/

namespace KTorrent

open BigEndian (positional)

/-- A `QChar`: a UTF-16 code unit. -/
abbrev QChar := UInt16

abbrev QString := List QChar

/-- A literal. -/
def QString.ofLatin1 (s : String) : QString := s.toList.map fun c => UInt16.ofNat c.toNat

/-- A character in upper case, for ASCII. -/
def asciiUpper (c : QChar) : QChar := if 97 ≤ c.toNat ∧ c.toNat ≤ 122 then c - 32 else c

/-- The character tables of Qt, with what is documented of them.  `toLatin1` gives a `char`, which
is signed on some platforms. -/
structure Unicode where
  isDigit : QChar → Bool
  digitValue : QChar → ℤ
  isLetter : QChar → Bool
  isLower : QChar → Bool
  toLatin1 : QChar → ℤ
  toUpper : QString → QString
  isDigit_ascii : ∀ c : QChar, c.toNat < 128 →
    isDigit c = decide (48 ≤ c.toNat ∧ c.toNat ≤ 57)
  digitValue_ascii : ∀ c : QChar, 48 ≤ c.toNat → c.toNat ≤ 57 → digitValue c = c.toNat - 48
  isLetter_ascii : ∀ c : QChar, c.toNat < 128 →
    isLetter c = decide (65 ≤ c.toNat ∧ c.toNat ≤ 90 ∨ 97 ≤ c.toNat ∧ c.toNat ≤ 122)
  isLower_ascii : ∀ c : QChar, c.toNat < 128 →
    isLower c = decide (97 ≤ c.toNat ∧ c.toNat ≤ 122)
  toLatin1_ascii : ∀ c : QChar, c.toNat < 128 → toLatin1 c = c.toNat
  toUpper_ascii : ∀ s : QString, (∀ c ∈ s, c.toNat < 128) → toUpper s = s.map asciiUpper
  -- a character can become several, never none
  length_le_toUpper : ∀ s : QString, s.length ≤ (toUpper s).length

/-- How much of a query item is percent-decoded. -/
inductive Decoding where
  | prettyDecoded
  | fullyDecoded
deriving DecidableEq

/-- An URL as `parse` reads it.  `stripped` is the path without its trailing slash; `btihHost` is
what is captured in the host by `([^\.]+).btih`. -/
structure Url where
  scheme : QString
  path : QString
  stripped : QString
  btihHost : Option QString
  queryItemValue : QString → Decoding → QString
  allQueryItemValues : QString → Decoding → List QString
  toString : QString
  toString_ne : scheme ≠ [] → toString ≠ []

structure MagnetLink where
  magnet_string : QString := []
  info_hash : List UInt8 := List.replicate 20 0
  torrent_url : QString := []
  tracker_urls : List QString := []
  path : QString := []
  name : QString := []

namespace MagnetLink

def isValid (m : MagnetLink) : Bool := !m.magnet_string.isEmpty

/-! ## The two notations as they are read -/

variable (u : Unicode)

/-- `MagnetLink::charToHex`. -/
def charToHex (ch : QChar) : Option UInt8 :=
  if u.isDigit ch then some (UInt8.ofInt (u.digitValue ch))
  else if !u.isLetter ch then none
  else if u.isLower ch then some (UInt8.ofInt (10 + u.toLatin1 ch - 97))
  else some (UInt8.ofInt (10 + u.toLatin1 ch - 65))

/-- The bits of one base32 digit. -/
def base32Bits (ch : QChar) : Option UInt32 :=
  if u.isDigit ch && (u.digitValue ch < 2 || u.digitValue ch > 7) then none
  else if u.isDigit ch then some (UInt32.ofInt (u.digitValue ch + 24))
  else some (UInt32.ofInt (u.toLatin1 ch - 65))

/-- The 20 bits of the `i`-th four digits. -/
def base32Part (str : QString) (i : ℕ) : Option UInt32 :=
  (List.range 4).foldlM (fun part j => do
    let tmp ← base32Bits u (← str[i * 4 + j]?)
    return part + tmp <<< (5 * (3 - UInt32.ofNat j))) 0

def hexDigit (tmp : UInt32) : QChar :=
  if tmp ≥ 10 then tmp.toUInt16 - 10 + 97 else tmp.toUInt16 + 48

/-- The `j`-th of the five nibbles. -/
def nibble (part : UInt32) (j : ℕ) : UInt32 := (part >>> (4 * (4 - UInt32.ofNat j))) &&& 0xf

/-- `MagnetLink::base32ToHexString`. -/
def base32ToHexString (s : QString) : Option QString := do
  let str := u.toUpper s
  let parts ← (List.range 8).mapM (base32Part u str)
  return parts.flatMap fun part => (List.range 5).map fun j => hexDigit (nibble part j)

/-- The loop over the 20 bytes; an index outside the string gives nothing, as an exception does. -/
def bytesOfHex (ih : QString) : Option (List UInt8) :=
  (List.range 20).mapM fun i => do
    let low ← charToHex u (← ih[2 * i + 1]?)
    let high ← charToHex u (← ih[2 * i]?)
    return high <<< 4 ||| low

/-- The bytes of the hash. -/
def hashBytes (ih : QString) : Option (List UInt8) :=
  if ih.length = 32 then (base32ToHexString u ih).bind (bytesOfHex u) else bytesOfHex u ih

/-! ## The link -/

def btih : QString := QString.ofLatin1 "urn:btih:"

/-- The value of `xt` that is used, if the link has one. -/
def exactTopic (url : Url) : Option QString :=
  let xt := url.queryItemValue (QString.ofLatin1 "xt") .prettyDecoded
  if xt.isEmpty || !btih.isPrefixOf xt then
    url.btihHost.map fun captured => btih ++ captured.takeWhile fun c => c != 45
  else some xt

/-- `s.replace('+', ' ')`. -/
def plusToSpace (s : QString) : QString := s.map fun c => if c = 43 then 32 else c

/-- `GetTrackers`: the texts of the addresses. -/
def getTrackers (url : Url) : List QString :=
  (url.allQueryItemValues (QString.ofLatin1 "tr") .fullyDecoded).map plusToSpace

/-- `MagnetLink::parse`, for a new link. -/
def parse (url : Url) : MagnetLink :=
  if url.scheme ≠ QString.ofLatin1 "magnet" then {}
  else
    let toUrl := url.queryItemValue (QString.ofLatin1 "to") .fullyDecoded
    let torrent_url :=
      if toUrl.isEmpty then url.queryItemValue (QString.ofLatin1 "xs") .fullyDecoded else toUrl
    let pt := url.queryItemValue (QString.ofLatin1 "pt") .prettyDecoded
    let path :=
      if pt.isEmpty && url.path != [47] then
        if url.stripped.head? = some 47 then url.stripped.tail else url.stripped
      else pt
    let m : MagnetLink := { torrent_url := torrent_url, path := path }
    match exactTopic url with
    | none => m
    | some xt =>
      let ih := xt.drop 9
      if ih.length ≠ 40 ∧ ih.length ≠ 32 then m
      else
        match hashBytes u ih with
        | none => m
        | some hash =>
          { m with
            info_hash := hash
            tracker_urls := getTrackers url
            name := plusToSpace (url.queryItemValue (QString.ofLatin1 "dn") .prettyDecoded)
            magnet_string := url.toString }

/-! ## The two notations -/

def hexValue (c : QChar) : Option ℕ :=
  if 48 ≤ c.toNat ∧ c.toNat ≤ 57 then some (c.toNat - 48)
  else if 97 ≤ c.toNat ∧ c.toNat ≤ 102 then some (c.toNat - 87)
  else if 65 ≤ c.toNat ∧ c.toNat ≤ 70 then some (c.toNat - 55)
  else none

def base32Value (c : QChar) : Option ℕ :=
  if 50 ≤ c.toNat ∧ c.toNat ≤ 55 then some (c.toNat - 24)
  else if 97 ≤ c.toNat ∧ c.toNat ≤ 122 then some (c.toNat - 97)
  else if 65 ≤ c.toNat ∧ c.toNat ≤ 90 then some (c.toNat - 65)
  else none

/-- The 20 bytes that 40 hexadecimal or 32 base32 digits denote. -/
def denoted (h : QString) : Option (List UInt8) :=
  if h.length = 40 then (h.mapM hexValue).map fun ds => BigEndian.padded 20 (positional 16 ds)
  else if h.length = 32 then
    (h.mapM base32Value).map fun ds => BigEndian.padded 20 (positional 32 ds)
  else none

/-- A magnet link for the hash that is written `h`. -/
structure Carries (url : Url) (h : QString) : Prop where
  scheme : url.scheme = QString.ofLatin1 "magnet"
  topic : url.queryItemValue (QString.ofLatin1 "xt") .prettyDecoded = btih ++ h

/-- What `parse` owes to a link for `h`: it is valid when `h` denotes bytes, and these are then the
info hash, as they are when they are written otherwise. -/
structure ReadRight (url : Url) (h : QString) : Prop where
  valid_iff : (parse u url).isValid ↔ (denoted h).isSome
  info_hash : ∀ bytes ∈ denoted h, (parse u url).info_hash = bytes
  same_hash : ∀ url' h', Carries url' h' → (denoted h).isSome → denoted h' = denoted h →
    (parse u url').info_hash = (parse u url).info_hash

/-- The condition: `h` denotes bytes, or it has a character that is refused, one that is neither a
letter nor a digit in 40 characters, a digit other than 2 to 7 in 32. -/
def Readable (h : QString) : Prop :=
  (denoted h).isSome ∨
    if h.length = 40 then ∃ c ∈ h, u.isDigit c = false ∧ u.isLetter c = false
    else ∃ c ∈ (u.toUpper h).take 32, u.isDigit c ∧ (u.digitValue c < 2 ∨ 7 < u.digitValue c)

/-! ## Loops that can fail -/

section

variable {α β : Type*} {f : α → Option β} {g : α → β} {l : List α}

theorem mapM_eq_map (h : ∀ a ∈ l, f a = some (g a)) : l.mapM f = some (l.map g) := by
  induction l with
  | nil => rfl
  | cons a l ih =>
    rw [List.mapM_cons, h a List.mem_cons_self, ih fun b hb => h b (List.mem_cons_of_mem a hb)]
    rfl

theorem mapM_eq_none_iff : l.mapM f = none ↔ ∃ a ∈ l, f a = none := by
  induction l with
  | nil => simp
  | cons a l ih =>
    rw [List.mapM_cons, List.exists_mem_cons_iff, ← ih]
    cases f a with
    | none => simp
    | some b =>
      cases l.mapM f <;> simp

theorem exists_of_mapM [Inhabited β] {bs : List β} (h : l.mapM f = some bs) :
    ∃ g, bs = l.map g ∧ ∀ a ∈ l, f a = some (g a) := by
  have hsome : ∀ a ∈ l, f a = some ((f a).getD default) := by
    intro a ha
    cases hfa : f a with
    | none =>
      rw [mapM_eq_none_iff.mpr ⟨a, ha, hfa⟩] at h
      cases h
    | some b => rfl
  rw [mapM_eq_map hsome] at h
  cases h
  exact ⟨_, rfl, hsome⟩

end

/-! ## One digit -/

variable {u : Unicode} {c : QChar} {v : ℕ}

theorem charToHex_eq_none_iff :
    charToHex u c = none ↔ u.isDigit c = false ∧ u.isLetter c = false := by
  rw [charToHex]
  cases u.isDigit c <;> cases u.isLetter c <;> cases u.isLower c <;> simp

theorem base32Bits_eq_none_iff :
    base32Bits u c = none ↔ u.isDigit c ∧ (u.digitValue c < 2 ∨ 7 < u.digitValue c) := by
  rw [base32Bits]
  cases u.isDigit c <;> simp
  grind

theorem ofInt_eq_ofNat {n : ℕ} {z : ℤ} (h : z = n) :
    UInt8.ofInt z = UInt8.ofNat n ∧ UInt32.ofInt z = UInt32.ofNat n := by
  rw [h, UInt8.ofInt, UInt32.ofInt, ← UInt8.toNat_inj, ← UInt32.toNat_inj, UInt8.toNat_ofNat',
    UInt8.toNat_ofNat', UInt32.toNat_ofNat', UInt32.toNat_ofNat']
  constructor <;> omega

/-- **A hexadecimal digit is read as its value.** -/
theorem charToHex_of_hexValue (h : hexValue c = some v) :
    charToHex u c = some (UInt8.ofNat v) ∧ v < 16 := by
  rw [hexValue] at h
  split at h
  case isTrue hdigit =>
    cases h
    rw [charToHex, u.isDigit_ascii c (by omega), if_pos (decide_eq_true hdigit),
      u.digitValue_ascii c hdigit.1 hdigit.2, (ofInt_eq_ofNat (n := c.toNat - 48) (by omega)).1]
    exact ⟨rfl, by omega⟩
  case isFalse =>
    split at h
    case isTrue hlower =>
      cases h
      rw [charToHex, u.isDigit_ascii c (by omega), if_neg (by simp; omega),
        u.isLetter_ascii c (by omega), if_neg (by simp; omega), u.isLower_ascii c (by omega),
        if_pos (by simp; omega), u.toLatin1_ascii c (by omega),
        (ofInt_eq_ofNat (n := c.toNat - 87) (by omega)).1]
      exact ⟨rfl, by omega⟩
    case isFalse =>
      split at h
      case isTrue hupper =>
        cases h
        rw [charToHex, u.isDigit_ascii c (by omega), if_neg (by simp; omega),
          u.isLetter_ascii c (by omega), if_neg (by simp; omega), u.isLower_ascii c (by omega),
          if_neg (by simp; omega), u.toLatin1_ascii c (by omega),
          (ofInt_eq_ofNat (n := c.toNat - 55) (by omega)).1]
        exact ⟨rfl, by omega⟩
      case isFalse => cases h

/-- **A base32 digit, in upper case, is read as its value.** -/
theorem base32Bits_of_base32Value (h : base32Value c = some v) :
    c.toNat < 128 ∧ base32Bits u (asciiUpper c) = some (UInt32.ofNat v) ∧ v < 32 := by
  rw [base32Value] at h
  split at h
  case isTrue hdigit =>
    cases h
    have hvalue := u.digitValue_ascii c (by omega) (by omega)
    rw [asciiUpper, if_neg (by omega), base32Bits, u.isDigit_ascii c (by omega), hvalue,
      if_neg (by simp; omega), if_pos (by simp; omega),
      (ofInt_eq_ofNat (n := c.toNat - 24) (by omega)).2]
    exact ⟨by omega, rfl, by omega⟩
  case isFalse =>
    have hletter : 65 ≤ (asciiUpper c).toNat ∧ (asciiUpper c).toNat ≤ 90 ∧
        v = (asciiUpper c).toNat - 65 ∧ c.toNat < 128 := by
      split at h
      case isTrue hlower =>
        cases h
        have hsub : (c - 32).toNat = c.toNat - 32 :=
          UInt16.toNat_sub_of_le c 32 (UInt16.le_iff_toNat_le.mpr (by simp; omega))
        rw [asciiUpper, if_pos hlower, hsub]
        omega
      case isFalse hlower =>
        split at h
        case isTrue hupper =>
          cases h
          rw [asciiUpper, if_neg hlower]
          omega
        case isFalse => cases h
    obtain ⟨hge, hle, hv, hascii⟩ := hletter
    rw [base32Bits, u.isDigit_ascii _ (by omega), if_neg (by simp; omega), if_neg (by simp; omega),
      u.toLatin1_ascii _ (by omega),
      (ofInt_eq_ofNat (n := (asciiUpper c).toNat - 65) (by omega)).2, hv]
    exact ⟨hascii, rfl, by omega⟩

/-- A nibble is written as the digit of its value. -/
theorem hexValue_hexDigit {tmp : UInt32} (h : tmp.toNat < 16) :
    hexValue (hexDigit tmp) = some tmp.toNat := by
  have hall : ∀ n < 16, hexValue (hexDigit (UInt32.ofNat n)) = some n := by decide
  have hdigit := hall tmp.toNat h
  rwa [UInt32.ofNat_toNat] at hdigit

/-! ## The bytes of 40 digits -/

/-- The digits of a string in a notation, as a function of the position. -/
theorem digits_of_mapM {value : QChar → Option ℕ} {h : QString} {ds : List ℕ}
    (hds : h.mapM value = some ds) :
    ∃ f : ℕ → ℕ, ds = (List.range h.length).map f ∧
      ∀ i (hi : i < h.length), value h[i] = some (f i) := by
  obtain ⟨g, rfl, hg⟩ := exists_of_mapM hds
  have hget : ∀ i (hi : i < h.length), h[i]?.getD 0 = h[i] := by
    intro i hi
    rw [List.getElem?_eq_getElem hi, Option.getD_some]
  refine ⟨fun i => g (h[i]?.getD 0), ?_, fun i hi => ?_⟩
  · refine List.ext_getElem (by simp) fun i hi _ => ?_
    rw [List.getElem_map, List.getElem_map, List.getElem_range,
      hget i (by simpa using hi)]
  · rw [hg _ (List.getElem_mem hi)]
    exact congrArg (fun c => some (g c)) (hget i hi).symm

/-- **40 hexadecimal digits** give the bytes of their number. -/
theorem bytesOfHex_eq {t : QString} {g : ℕ → ℕ} (hlen : t.length = 40)
    (hg : ∀ i (hi : i < t.length), hexValue t[i] = some (g i)) :
    bytesOfHex u t = some (BigEndian.padded 20 (positional 16 ((List.range 40).map g))) := by
  obtain ⟨byte, hbyte⟩ : ∃ byte : ℕ → UInt8,
      byte = fun i => UInt8.ofNat (g (2 * i)) <<< 4 ||| UInt8.ofNat (g (2 * i + 1)) := ⟨_, rfl⟩
  have hread : ∀ i < 40, ∃ c, t[i]? = some c ∧ charToHex u c = some (UInt8.ofNat (g i)) ∧
      g i < 16 := by
    intro i hi
    exact ⟨t[i], List.getElem?_eq_getElem (by omega), charToHex_of_hexValue (hg i (by omega))⟩
  have hmap : bytesOfHex u t = some ((List.range 20).map byte) := by
    refine mapM_eq_map fun i hi => ?_
    have hi := List.mem_range.mp hi
    obtain ⟨low, hlow, hlowHex, -⟩ := hread (2 * i + 1) (by omega)
    obtain ⟨high, hhigh, hhighHex, -⟩ := hread (2 * i) (by omega)
    rw [hlow, hhigh, hbyte]
    simp [hlowHex, hhighHex]
  have hpair : ∀ high < 16, ∀ low < 16,
      (UInt8.ofNat high <<< 4 ||| UInt8.ofNat low).toNat = 16 * high + low := by decide
  have hnumber : BigEndian.number ((List.range 20).map byte)
      = positional 16 ((List.range 40).map g) := by
    rw [BigEndian.number_eq_positional, List.map_map]
    refine Eq.trans (congrArg _ (List.map_congr_left fun i hi => ?_))
      (BigEndian.positional_regroup 16 2 g 20)
    have hi := List.mem_range.mp hi
    obtain ⟨-, -, -, hlow⟩ := hread (2 * i + 1) (by omega)
    obtain ⟨-, -, -, hhigh⟩ := hread (2 * i) (by omega)
    rw [Function.comp_apply, hbyte, hpair _ hhigh _ hlow]
    simp [positional, List.range_succ, Nat.ofDigits_cons]
    omega
  rw [hmap, ← hnumber, BigEndian.padded_eq (by simp)]

theorem bytesOfHex_eq_none_iff {t : QString} (hlen : t.length = 40) :
    bytesOfHex u t = none ↔ ∃ c ∈ t, u.isDigit c = false ∧ u.isLetter c = false := by
  simp only [← charToHex_eq_none_iff]
  rw [bytesOfHex, mapM_eq_none_iff]
  constructor
  · rintro ⟨i, hi, hnone⟩
    have hi := List.mem_range.mp hi
    rw [List.getElem?_eq_getElem (by omega), List.getElem?_eq_getElem (by omega)] at hnone
    cases hlow : charToHex u t[2 * i + 1] with
    | none => exact ⟨_, List.getElem_mem _, hlow⟩
    | some low =>
      cases hhigh : charToHex u t[2 * i] with
      | none => exact ⟨_, List.getElem_mem _, hhigh⟩
      | some high => simp [hlow, hhigh] at hnone
  · rintro ⟨c, hc, hnone⟩
    obtain ⟨k, hk, rfl⟩ := List.getElem_of_mem hc
    refine ⟨k / 2, List.mem_range.mpr (by omega), ?_⟩
    rcases Nat.even_or_odd' k with ⟨i, rfl | rfl⟩
    · have hi : 2 * i / 2 = i := by omega
      rw [hi, List.getElem?_eq_getElem hk, List.getElem?_eq_getElem (by omega)]
      cases charToHex u t[2 * i + 1] <;> simp [hnone]
    · have hi : (2 * i + 1) / 2 = i := by omega
      rw [hi, List.getElem?_eq_getElem hk]
      simp [hnone]

/-! ## The nibbles of 32 digits -/

section

variable {str : QString} {i : ℕ}

/-- The four digits of a part, one after the other. -/
theorem base32Part_eq_bind {bits : ℕ → Option UInt32}
    (hbits : ∀ j < 4, (str[i * 4 + j]?).bind (base32Bits u) = bits j) :
    base32Part u str i =
      (bits 0).bind fun v₀ => (bits 1).bind fun v₁ => (bits 2).bind fun v₂ =>
        (bits 3).bind fun v₃ => some (v₀ <<< 15 + v₁ <<< 10 + v₂ <<< 5 + v₃ <<< 0) := by
  have hrange : List.range 4 = [0, 1, 2, 3] := rfl
  -- one turn of the loop
  have hturn : ∀ j < 4, ∀ part : UInt32,
      (do let tmp ← base32Bits u (← str[i * 4 + j]?)
          return part + tmp <<< (5 * (3 - UInt32.ofNat j)) : Option UInt32)
        = (bits j).bind fun v => some (part + v <<< (5 * (3 - UInt32.ofNat j))) := by
    intro j hj part
    rw [← hbits j hj]
    cases str[i * 4 + j]? <;> rfl
  rw [base32Part, hrange, List.foldlM_cons, hturn 0 (by decide)]
  simp only [List.foldlM_cons, List.foldlM_nil, hturn 1 (by decide), hturn 2 (by decide),
    hturn 3 (by decide)]
  cases bits 0 <;> cases bits 1 <;> cases bits 2 <;> cases bits 3 <;> simp

theorem base32Part_eq_none_iff :
    base32Part u str i = none ↔ ∃ j < 4, (str[i * 4 + j]?).bind (base32Bits u) = none := by
  rw [base32Part_eq_bind fun _ _ => rfl]
  constructor
  · intro hnone
    by_contra hall
    have hsome : ∀ j < 4, ∃ v, (str[i * 4 + j]?).bind (base32Bits u) = some v :=
      fun j hj => Option.ne_none_iff_exists'.mp fun hj' => hall ⟨j, hj, hj'⟩
    obtain ⟨v₀, h₀⟩ := hsome 0 (by decide)
    obtain ⟨v₁, h₁⟩ := hsome 1 (by decide)
    obtain ⟨v₂, h₂⟩ := hsome 2 (by decide)
    obtain ⟨v₃, h₃⟩ := hsome 3 (by decide)
    rw [h₀, h₁, h₂, h₃] at hnone
    cases hnone
  · rintro ⟨j, hj, hnone⟩
    interval_cases j <;> rw [hnone] <;> simp

/-- **Four digits are 20 bits.** -/
theorem base32Part_eq {f : ℕ → ℕ}
    (hf : ∀ j < 4, (str[i * 4 + j]?).bind (base32Bits u) = some (UInt32.ofNat (f j)) ∧ f j < 32) :
    ∃ part, base32Part u str i = some part ∧
      part.toNat = positional 32 ((List.range 4).map f) ∧ part.toNat < 16 ^ 5 := by
  obtain ⟨h₀, hlt₀⟩ := hf 0 (by decide)
  obtain ⟨h₁, hlt₁⟩ := hf 1 (by decide)
  obtain ⟨h₂, hlt₂⟩ := hf 2 (by decide)
  obtain ⟨h₃, hlt₃⟩ := hf 3 (by decide)
  rw [base32Part_eq_bind fun _ _ => rfl]
  refine ⟨_, by rw [h₀, h₁, h₂, h₃]; rfl, ?_⟩
  have hrange : List.range 4 = [0, 1, 2, 3] := rfl
  rw [hrange]
  simp [positional, Nat.ofDigits_cons, Nat.shiftLeft_eq]
  omega

theorem nibble_lt (part : UInt32) (j : ℕ) : (nibble part j).toNat < 16 := by
  rw [nibble, UInt32.toNat_and]
  exact Nat.lt_of_le_of_lt Nat.and_le_right (by decide)

/-- The nibbles of a part are its digits in base 16. -/
theorem positional_nibbles {part : UInt32} (hlt : part.toNat < 16 ^ 5) :
    positional 16 ((List.range 5).map fun j => (nibble part j).toNat) = part.toNat := by
  have hand : ∀ n : ℕ, n &&& 15 = n % 16 := fun n => Nat.and_two_pow_sub_one_eq_mod n 4
  have hrange : List.range 5 = [0, 1, 2, 3, 4] := rfl
  rw [hrange]
  simp [nibble, positional, Nat.ofDigits_cons, Nat.shiftRight_eq_div_pow, hand]
  omega

end

/-! ## The hexadecimal form of 32 digits -/

section

variable {s t : QString}

/-- The hexadecimal form, digit by digit. -/
theorem exists_of_base32ToHexString (h : base32ToHexString u s = some t) :
    ∃ P : ℕ → UInt32, (∀ i < 8, base32Part u (u.toUpper s) i = some (P i)) ∧
      t = (List.range 40).map fun k => hexDigit (nibble (P (k / 5)) (k % 5)) := by
  rw [base32ToHexString] at h
  cases hparts : (List.range 8).mapM (base32Part u (u.toUpper s)) with
  | none => simp [hparts] at h
  | some parts =>
    obtain ⟨P, rfl, hP⟩ := exists_of_mapM hparts
    refine ⟨P, fun i hi => hP i (List.mem_range.mpr hi), ?_⟩
    rw [BigEndian.range_mul_map _ 5 8]
    simp only [hparts, bind, pure, Option.bind_some, Option.some.injEq] at h
    rw [← h, List.flatMap_map]
    refine List.flatMap_congr fun i _ => List.map_congr_left fun j hj => ?_
    have hj := List.mem_range.mp hj
    have hdiv : (5 * i + j) / 5 = i := by omega
    have hmod : (5 * i + j) % 5 = j := by omega
    rw [hdiv, hmod]

/-- It is 40 hexadecimal digits, whatever the characters were. -/
theorem bytesOfHex_base32ToHexString (h : base32ToHexString u s = some t) :
    (bytesOfHex u t).isSome := by
  obtain ⟨P, -, rfl⟩ := exists_of_base32ToHexString h
  rw [bytesOfHex_eq (g := fun k => (nibble (P (k / 5)) (k % 5)).toNat) (by simp)]
  · rfl
  · intro k hk
    rw [List.getElem_map, List.getElem_range, hexValue_hexDigit (nibble_lt _ _)]

/-- **The hexadecimal form stands for the same number.** -/
theorem base32ToHexString_eq {f : ℕ → ℕ}
    (hf : ∀ i < 32, ((u.toUpper s)[i]?).bind (base32Bits u) = some (UInt32.ofNat (f i)) ∧
      f i < 32) :
    ∃ t, base32ToHexString u s = some t ∧
      bytesOfHex u t = some (BigEndian.padded 20 (positional 32 ((List.range 32).map f))) := by
  have hpart : ∀ i < 8, ∃ part, base32Part u (u.toUpper s) i = some part ∧
      part.toNat = positional 32 ((List.range 4).map fun j => f (4 * i + j)) ∧
        part.toNat < 16 ^ 5 := by
    intro i hi
    refine base32Part_eq fun j hj => ?_
    rw [Nat.mul_comm i 4]
    exact hf (4 * i + j) (by omega)
  obtain ⟨t, ht⟩ : ∃ t, base32ToHexString u s = some t := by
    rw [base32ToHexString, mapM_eq_map (g := fun i => (base32Part u (u.toUpper s) i).getD 0)]
    · exact ⟨_, rfl⟩
    · intro i hi
      obtain ⟨part, hsome, -⟩ := hpart i (List.mem_range.mp hi)
      rw [hsome, Option.getD_some]
  refine ⟨t, ht, ?_⟩
  obtain ⟨P, hP, rfl⟩ := exists_of_base32ToHexString ht
  rw [bytesOfHex_eq (g := fun k => (nibble (P (k / 5)) (k % 5)).toNat) (by simp)]
  swap
  · intro k hk
    rw [List.getElem_map, List.getElem_range, hexValue_hexDigit (nibble_lt _ _)]
  -- five nibbles are a part, and a part is four digits
  rw [← BigEndian.positional_regroup 16 5 _ 8, ← BigEndian.positional_regroup 32 4 f 8]
  refine congrArg (fun n => some (BigEndian.padded 20 n)) (congrArg _ ?_)
  refine List.map_congr_left fun i hi => ?_
  have hi := List.mem_range.mp hi
  obtain ⟨part, hsome, hvalue, hlt⟩ := hpart i hi
  rw [hP i hi, Option.some.injEq] at hsome
  rw [← hvalue, ← hsome, ← positional_nibbles (hsome ▸ hlt)]
  refine congrArg _ (List.map_congr_left fun j hj => ?_)
  have hj := List.mem_range.mp hj
  have hdiv : (5 * i + j) / 5 = i := by omega
  have hmod : (5 * i + j) % 5 = j := by omega
  rw [hdiv, hmod]

/-- The conversion fails at a digit outside the alphabet, and nowhere else. -/
theorem base32ToHexString_eq_none_iff (hlen : 32 ≤ (u.toUpper s).length) :
    base32ToHexString u s = none ↔ ∃ c ∈ (u.toUpper s).take 32, base32Bits u c = none := by
  have hnone : base32ToHexString u s = none ↔
      (List.range 8).mapM (base32Part u (u.toUpper s)) = none := by
    rw [base32ToHexString]
    cases (List.range 8).mapM (base32Part u (u.toUpper s)) <;> simp
  rw [hnone, mapM_eq_none_iff]
  constructor
  · rintro ⟨i, hi, hpart⟩
    have hi := List.mem_range.mp hi
    obtain ⟨j, hj, hbits⟩ := base32Part_eq_none_iff.mp hpart
    rw [List.getElem?_eq_getElem (by omega), Option.bind_some] at hbits
    exact ⟨_, List.mem_take_iff_getElem.mpr ⟨i * 4 + j, by omega, rfl⟩, hbits⟩
  · rintro ⟨c, hc, hbits⟩
    obtain ⟨k, hk, rfl⟩ := List.mem_take_iff_getElem.mp hc
    refine ⟨k / 4, List.mem_range.mpr (by omega), ?_⟩
    refine base32Part_eq_none_iff.mpr ⟨k % 4, Nat.mod_lt _ (by decide), ?_⟩
    rw [Nat.div_add_mod' k 4, List.getElem?_eq_getElem (by omega), Option.bind_some, hbits]

end

/-! ## The hash -/

variable {h : QString} {bytes : List UInt8} {url : Url}

/-- **What denotes bytes is read as these bytes.** -/
theorem hashBytes_of_denoted (hb : denoted h = some bytes) : hashBytes u h = some bytes := by
  rw [denoted] at hb
  split at hb
  case isTrue hlen =>
    obtain ⟨ds, hds, rfl⟩ := Option.map_eq_some_iff.mp hb
    obtain ⟨f, rfl, hf⟩ := digits_of_mapM hds
    rw [hashBytes, if_neg (by omega), bytesOfHex_eq hlen hf, hlen]
  case isFalse =>
    split at hb
    case isTrue hlen =>
      obtain ⟨ds, hds, rfl⟩ := Option.map_eq_some_iff.mp hb
      obtain ⟨f, rfl, hf⟩ := digits_of_mapM hds
      have hread := fun i hi => base32Bits_of_base32Value (u := u) (hf i hi)
      have hupper : u.toUpper h = h.map asciiUpper := by
        refine u.toUpper_ascii h fun c hc => ?_
        obtain ⟨i, hi, rfl⟩ := List.getElem_of_mem hc
        exact (hread i hi).1
      obtain ⟨t, ht, hbytes⟩ := base32ToHexString_eq (u := u) (s := h) (f := f) fun i hi => by
        rw [hupper, List.getElem?_map, List.getElem?_eq_getElem (by omega), Option.map_some,
          Option.bind_some]
        exact (hread i (by omega)).2
      rw [hashBytes, if_pos hlen, ht, Option.bind_some, hbytes, hlen]
    case isFalse => cases hb

/-- The hash is refused at the first character outside a class, which is not the alphabet. -/
theorem hashBytes_eq_none_iff (hlen : h.length = 40 ∨ h.length = 32) :
    hashBytes u h = none ↔
      if h.length = 40 then ∃ c ∈ h, u.isDigit c = false ∧ u.isLetter c = false
      else ∃ c ∈ (u.toUpper h).take 32,
        u.isDigit c ∧ (u.digitValue c < 2 ∨ 7 < u.digitValue c) := by
  rcases hlen with hlen | hlen
  · rw [hashBytes, if_neg (by omega), if_pos hlen, bytesOfHex_eq_none_iff hlen]
  · have hupper := u.length_le_toUpper h
    rw [hashBytes, if_pos hlen, if_neg (by omega)]
    simp only [← base32Bits_eq_none_iff]
    rw [← base32ToHexString_eq_none_iff (hlen ▸ hupper)]
    cases ht : base32ToHexString u h with
    | none => simp
    | some t =>
      have hsome := bytesOfHex_base32ToHexString ht
      rw [Option.bind_some]
      exact iff_of_false (Option.isSome_iff_ne_none.mp hsome) (by simp)

/-! ## The link -/

theorem length_of_denoted (hb : (denoted h).isSome) : h.length = 40 ∨ h.length = 32 := by
  by_contra hne
  rw [denoted, if_neg fun h40 => hne (.inl h40), if_neg fun h32 => hne (.inr h32)] at hb
  cases hb

/-- A link for `h` is what the hash makes of it. -/
theorem parse_of_carries (hc : Carries url h) (hlen : h.length = 40 ∨ h.length = 32) :
    ((parse u url).isValid ↔ (hashBytes u h).isSome) ∧
      ∀ hash ∈ hashBytes u h, (parse u url).info_hash = hash := by
  have htopic : exactTopic url = some (btih ++ h) := by
    have hprefix : btih.isPrefixOf (btih ++ h) = true :=
      List.isPrefixOf_iff_prefix.mpr (List.prefix_append _ _)
    have hempty : (btih ++ h).isEmpty = false := rfl
    rw [exactTopic, hc.topic, hprefix, hempty]
    rfl
  have hdrop : (btih ++ h).drop 9 = h := rfl
  have hmagnet : url.scheme ≠ [] := by rw [hc.scheme]; decide
  have htext : url.toString.isEmpty = false := by
    rw [List.isEmpty_eq_false_iff]
    exact url.toString_ne hmagnet
  rw [parse, if_neg (not_not.mpr hc.scheme), htopic]
  simp only [hdrop]
  rw [if_neg (by omega)]
  cases hashBytes u h with
  | none => exact ⟨by simp [isValid], fun hash hhash => by cases hhash⟩
  | some hash => exact ⟨by simp [isValid, htext], fun hash' hhash => Option.mem_some_iff.mp hhash⟩

/-- **When a magnet link is read as its notation says.**  For every string of 40 or 32 characters
the link is valid exactly when the string denotes 20 bytes, with these as its info hash in either
notation, exactly when the string denotes bytes or has a character of a class that is refused. -/
theorem parse_notation_iff (u : Unicode) (url : Url) (h : QString) (hc : Carries url h)
    (hlen : h.length = 40 ∨ h.length = 32) : ReadRight u url h ↔ Readable u h := by
  obtain ⟨hvalid, hinfo⟩ := parse_of_carries (u := u) hc hlen
  rw [Readable, ← hashBytes_eq_none_iff hlen]
  constructor
  · intro hright
    cases hhash : hashBytes u h with
    | none => exact .inr rfl
    | some hash => exact .inl (hright.valid_iff.mp (hvalid.mpr (by rw [hhash]; rfl)))
  · intro hread
    cases hb : denoted h with
    | none =>
      have hnone : hashBytes u h = none := by simpa [hb] using hread
      rw [hnone] at hvalid
      exact
        { valid_iff := by rw [hvalid, hb]
          info_hash := fun bytes hbytes => by rw [hb] at hbytes; cases hbytes
          same_hash := fun _ _ _ hsome => by rw [hb] at hsome; cases hsome }
    | some bytes =>
      have hhash := hashBytes_of_denoted (u := u) hb
      refine
        { valid_iff := by rw [hvalid, hb, hhash]
          info_hash := fun bytes' hbytes => ?_
          same_hash := fun url' h' hc' _ hsame => ?_ }
      · rw [hb, Option.mem_some_iff] at hbytes
        rw [← hbytes]
        exact hinfo bytes hhash
      · have hb' : denoted h' = some bytes := hsame.trans hb
        have hlen' := length_of_denoted (h := h') (by rw [hb']; rfl)
        rw [hinfo bytes hhash]
        exact (parse_of_carries hc' hlen').2 bytes (hashBytes_of_denoted hb')

/-! ## Digits that are not -/

/-- Qt's tables as far as ASCII goes. -/
def asciiTables : Unicode where
  isDigit c := decide (48 ≤ c.toNat ∧ c.toNat ≤ 57)
  digitValue c := c.toNat - 48
  isLetter c := decide (65 ≤ c.toNat ∧ c.toNat ≤ 90 ∨ 97 ≤ c.toNat ∧ c.toNat ≤ 122)
  isLower c := decide (97 ≤ c.toNat ∧ c.toNat ≤ 122)
  toLatin1 c := c.toNat
  toUpper s := s.map asciiUpper
  isDigit_ascii _ _ := rfl
  digitValue_ascii _ _ _ := rfl
  isLetter_ascii _ _ := rfl
  isLower_ascii _ _ := rfl
  toLatin1_ascii _ _ := rfl
  toUpper_ascii _ _ := rfl
  length_le_toUpper _ := (List.length_map asciiUpper).ge

/-- The link `magnet:?xt=urn:btih:h`. -/
def linkTo (h : QString) : Url where
  scheme := QString.ofLatin1 "magnet"
  path := []
  stripped := []
  btihHost := none
  queryItemValue key _ := if key = QString.ofLatin1 "xt" then btih ++ h else []
  allQueryItemValues key _ := if key = QString.ofLatin1 "xt" then [btih ++ h] else []
  toString := QString.ofLatin1 "magnet:?xt=" ++ btih ++ h
  toString_ne _ := List.cons_ne_nil _ _

/-- 40 digits `1` are read as they should be. -/
theorem parse_notation_ones :
    ReadRight asciiTables (linkTo (List.replicate 40 49)) (List.replicate 40 49) ↔
      Readable asciiTables (List.replicate 40 49) :=
  parse_notation_iff _ _ _ ⟨rfl, rfl⟩ (.inl rfl)

/-- 40 letters `g` make a valid link. -/
theorem gees_valid :
    ¬ ReadRight asciiTables (linkTo (List.replicate 40 103)) (List.replicate 40 103) := by
  intro hright
  have hvalid : (parse asciiTables (linkTo (List.replicate 40 103))).isValid = true := by
    decide +kernel
  have hnone : (denoted (List.replicate 40 103)).isSome = false := by decide +kernel
  rw [hright.valid_iff.mp hvalid] at hnone
  cases hnone

end MagnetLink

end KTorrent
