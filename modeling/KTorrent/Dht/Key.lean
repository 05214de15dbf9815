import KTorrent.Bcodec.BEncoder
import KTorrent.Lib.Words
import KTorrent.Util.Endian

/-!
# Keys of the DHT

`dht::Key` is a hash of twenty bytes with an order and some arithmetic, which goes
over its five words of 32 bits.

* `Key` — the twenty bytes; `toNat` — the number they stand for.
* The operators, `mid`, `max` and `min` — as the source has them.
* `le_iff`, `toNat_addValue`, `toNat_mid` — what they are on numbers.
-/

namespace KTorrent

/-- `dht::Key`. -/
def Key : Type := { hash : List UInt8 // hash.length = 20 }

namespace Key

instance : DecidableEq Key := inferInstanceAs (DecidableEq { hash : List UInt8 // hash.length = 20 })

/-- The bytes of a key. -/
def bytes (k : Key) : BString := ⟨k.1, by rw [k.2]; norm_num⟩

/-- The number that the bytes of a key stand for. -/
def toNat (k : Key) : ℕ := Words.value (2 ^ 8) (k.1.map UInt8.toNat)

theorem inBase_bytes (l : List UInt8) : Words.InBase (2 ^ 8) (l.map UInt8.toNat) := by
  intro a ha
  obtain ⟨u, -, rfl⟩ := List.mem_map.mp ha
  exact u.toNat_lt

theorem toNat_lt (k : Key) : k.toNat < 2 ^ 160 := by
  have h := Words.value_lt (inBase_bytes k.1)
  rw [List.length_map, k.2] at h
  exact h

theorem toNat_inj {a b : Key} : a.toNat = b.toNat ↔ a = b := by
  constructor
  · intro h
    have hmap := Words.value_inj (by rw [List.length_map, List.length_map, a.2, b.2])
      (inBase_bytes a.1) (inBase_bytes b.1) h
    exact Subtype.ext (List.map_injective_iff.mpr (fun _ _ => UInt8.toNat_inj.mp) hmap)
  · exact fun h => h ▸ rfl

/-! ## The order -/

/-- `operator<=`: `memcmp` of the bytes. -/
instance : LE Key :=
  ⟨fun a b => Words.memcmp (a.1.map UInt8.toNat) (b.1.map UInt8.toNat) ≠ .gt⟩

/-- `operator<`. -/
instance : LT Key :=
  ⟨fun a b => Words.memcmp (a.1.map UInt8.toNat) (b.1.map UInt8.toNat) = .lt⟩

instance (a b : Key) : Decidable (a ≤ b) :=
  inferInstanceAs (Decidable (Words.memcmp (a.1.map UInt8.toNat) (b.1.map UInt8.toNat) ≠ .gt))

instance (a b : Key) : Decidable (a < b) :=
  inferInstanceAs (Decidable (Words.memcmp (a.1.map UInt8.toNat) (b.1.map UInt8.toNat) = .lt))

theorem memcmp_eq (a b : Key) :
    Words.memcmp (a.1.map UInt8.toNat) (b.1.map UInt8.toNat) = compare a.toNat b.toNat :=
  Words.memcmp_eq (by rw [List.length_map, List.length_map, a.2, b.2]) (inBase_bytes a.1)
    (inBase_bytes b.1)

theorem le_iff {a b : Key} : a ≤ b ↔ a.toNat ≤ b.toNat := by
  change Words.memcmp _ _ ≠ .gt ↔ _
  rw [memcmp_eq, Nat.compare_ne_gt]

theorem lt_iff {a b : Key} : a < b ↔ a.toNat < b.toNat := by
  change Words.memcmp _ _ = .lt ↔ _
  rw [memcmp_eq, Nat.compare_eq_lt]

instance : LinearOrder Key where
  le a b := a ≤ b
  lt a b := a < b
  le_refl a := le_iff.mpr le_rfl
  le_trans a b c h h' := le_iff.mpr ((le_iff.mp h).trans (le_iff.mp h'))
  lt_iff_le_not_ge a b := by rw [lt_iff, le_iff, le_iff, lt_iff_le_not_ge]
  le_antisymm a b h h' := toNat_inj.mp (Nat.le_antisymm (le_iff.mp h) (le_iff.mp h'))
  le_total a b := by rw [le_iff, le_iff]; exact Nat.le_total _ _
  toDecidableLE := inferInstance

/-! ## Words -/

/-- The words of `hash`, as `htonl` gives them. -/
def wordsOf : List UInt8 → List ℕ
  | a :: b :: c :: d :: l =>
    (a.toNat * 2 ^ 24 + b.toNat * 2 ^ 16 + c.toNat * 2 ^ 8 + d.toNat) :: wordsOf l
  | _ => []

/-- The bytes of words, as `htonl` stores them. -/
def bytesOf (ws : List ℕ) : List UInt8 := ws.flatMap fun w => writeUint32 (UInt32.ofNat w)

theorem bytesOf_length (ws : List ℕ) : (bytesOf ws).length = 4 * ws.length := by
  induction ws with
  | nil => rfl
  | cons w ws ih => rw [bytesOf, List.flatMap_cons, List.length_append, ← bytesOf, ih]; simp; ring

theorem wordsOf_spec : ∀ (n : ℕ) (l : List UInt8), l.length = 4 * n →
    (wordsOf l).length = n ∧ Words.InBase (2 ^ 32) (wordsOf l) ∧
      Words.value (2 ^ 32) (wordsOf l) = Words.value (2 ^ 8) (l.map UInt8.toNat) := by
  intro n
  induction n with
  | zero =>
    intro l hl
    obtain rfl := List.length_eq_zero_iff.mp hl
    exact ⟨rfl, fun _ h => (nomatch h), rfl⟩
  | succ n ih =>
    intro l hl
    match l, hl with
    | a :: b :: c :: d :: l, hl =>
      have hl' : l.length = 4 * n := by simp only [List.length_cons] at hl; omega
      obtain ⟨hlen, hbase, hvalue⟩ := ih l hl'
      refine ⟨congrArg Nat.succ hlen, Words.inBase_cons.mpr ⟨?_, hbase⟩, ?_⟩
      · have ha := a.toNat_lt
        have hb := b.toNat_lt
        have hc := c.toNat_lt
        have hd := d.toNat_lt
        omega
      · have hpow : (2 ^ 32) ^ n = (2 ^ 8) ^ (4 * n) := by rw [← pow_mul, ← pow_mul]; ring_nf
        rw [wordsOf, Words.value, hlen, hvalue, hpow]
        simp only [Words.value, List.map_cons, List.length_cons, List.length_map, hl']
        ring

theorem wordsOf_bytesOf {ws : List ℕ} (h : Words.InBase (2 ^ 32) ws) : wordsOf (bytesOf ws) = ws := by
  induction ws with
  | nil => rfl
  | cons w ws ih =>
    obtain ⟨hw, hws⟩ := Words.inBase_cons.mp h
    have hn : (UInt32.ofNat w).toNat = w := by
      rw [UInt32.toNat_ofNat']
      exact Nat.mod_eq_of_lt hw
    rw [bytesOf, List.flatMap_cons, ← bytesOf]
    simp only [writeUint32, List.cons_append, List.nil_append, wordsOf, UInt8.toNat_ofNat', hn, ih hws,
      List.cons.injEq, and_true]
    omega

/-- The words of a key. -/
def words (k : Key) : List ℕ := wordsOf k.1

theorem words_spec (k : Key) :
    k.words.length = 5 ∧ Words.InBase (2 ^ 32) k.words ∧ Words.value (2 ^ 32) k.words = k.toNat :=
  wordsOf_spec 5 k.1 k.2

/-- The key with these words. -/
def ofWords (ws : List ℕ) (h : ws.length = 5) : Key := ⟨bytesOf ws, by rw [bytesOf_length, h]⟩

theorem toNat_ofWords {ws : List ℕ} (h : ws.length = 5) (hbase : Words.InBase (2 ^ 32) ws) :
    (ofWords ws h).toNat = Words.value (2 ^ 32) ws := by
  rw [← (words_spec (ofWords ws h)).2.2]
  exact congrArg _ (wordsOf_bytesOf hbase)

/-! ## The operators -/

/-- `operator+` of a key and a small number. -/
def addValue (a : Key) (value : UInt8) : Key :=
  ofWords (Words.addWord (2 ^ 32) a.words value.toNat).1
    (by rw [Words.addWord_length, a.words_spec.1])

/-- `operator+`. -/
instance : Add Key :=
  ⟨fun a b => ofWords (Words.addWords (2 ^ 32) a.words b.words 0).1
    (by rw [Words.addWords_length (by rw [a.words_spec.1, b.words_spec.1]), a.words_spec.1])⟩

/-- One round of the loop of `operator-`.  The sum `0xFFFFFFFF + 1` is of 32 bits. -/
def subWord (a32 b32 carry : ℕ) : ℕ × ℕ :=
  if b32 + carry ≤ a32 then (a32 - b32 - carry, 0)
  else
    let max := (0xFFFFFFFF + 1) % 2 ^ 32
    ((max + 2 ^ 64 - (b32 - a32) - carry) % 2 ^ 64 % 2 ^ 32, 1)

/-- The loop of `operator-`: the words, and the carry. -/
def subLoop : List ℕ → List ℕ → List ℕ × ℕ
  | a :: as, b :: bs =>
    let r := subLoop as bs
    let d := subWord a b r.2
    (d.1 :: r.1, d.2)
  | _, _ => ([], 0)

/-- The wrapped sum makes no difference: the loop is subtraction with a borrow. -/
theorem subLoop_eq : ∀ {as bs : List ℕ}, Words.InBase (2 ^ 32) as → Words.InBase (2 ^ 32) bs →
    subLoop as bs = Words.subWords (2 ^ 32) as bs := by
  intro as
  induction as with
  | nil => exact fun _ _ => rfl
  | cons a as ih =>
    intro bs ha hb
    cases bs with
    | nil => rfl
    | cons b bs =>
      obtain ⟨haB, has⟩ := Words.inBase_cons.mp ha
      obtain ⟨hbB, hbs⟩ := Words.inBase_cons.mp hb
      have hborrow : (Words.subWords (2 ^ 32) as bs).2 ≤ 1 := Words.subWords_borrow
      rw [subLoop, Words.subWords, ih has hbs, subWord]
      split
      · rfl
      · have hword : ((0xFFFFFFFF + 1) % 2 ^ 32 + 2 ^ 64 - (b - a) -
            (Words.subWords (2 ^ 32) as bs).2) % 2 ^ 64 % 2 ^ 32 =
              a + 2 ^ 32 - b - (Words.subWords (2 ^ 32) as bs).2 := by
          omega
        rw [← hword]

theorem subLoop_length {as bs : List ℕ} (hlen : as.length = bs.length) :
    (subLoop as bs).1.length = as.length := by
  induction as generalizing bs with
  | nil => rfl
  | cons a as ih =>
    cases bs with
    | nil => cases hlen
    | cons b bs => exact congrArg Nat.succ (ih (Nat.succ.inj hlen))

/-- `operator-`. -/
instance : Sub Key :=
  ⟨fun a b => ofWords (subLoop a.words b.words).1
    (by rw [subLoop_length (by rw [a.words_spec.1, b.words_spec.1]), a.words_spec.1])⟩

/-- `operator/`. -/
def div (k : Key) (value : ℕ) : Key :=
  ofWords (Words.divWords (2 ^ 32) value 0 k.words) (by rw [Words.divWords_length, k.words_spec.1])

/-- `Key::mid`. -/
def mid (a b : Key) : Key := if a ≤ b then a + (b - a).div 2 else b + (a - b).div 2

/-- `Key(const QByteArray &)` and `Key(const bt::Uint8 *)`: at most twenty bytes are copied
over zeros. -/
def ofBytes (ba : List UInt8) : Key :=
  ⟨ba.take 20 ++ List.replicate (20 - ba.length) 0, by
    rw [List.length_append, List.length_take, List.length_replicate]; omega⟩

/-- `val_max`: the initializer names the first byte. -/
def valMax : List UInt8 := 0xFF :: List.replicate 19 0

/-- `val_min`. -/
def valMin : List UInt8 := List.replicate 20 0

/-- `Key::max`. -/
def max : Key := ofBytes valMax

/-- `Key::min`. -/
def min : Key := ofBytes valMin

/-! ## What the operators are on numbers -/

theorem toNat_addValue (a : Key) (v : UInt8) : (a.addValue v).toNat = (a.toNat + v.toNat) % 2 ^ 160 := by
  obtain ⟨hlen, hbase, hvalue⟩ := a.words_spec
  have hsum : Words.value (2 ^ 32) (Words.addWord (2 ^ 32) a.words v.toNat).1 +
      (Words.addWord (2 ^ 32) a.words v.toNat).2 * (2 ^ 32) ^ a.words.length =
        Words.value (2 ^ 32) a.words + v.toNat := Words.addWord_value v.toNat
  have hlt := (a.addValue v).toNat_lt
  have hres : (a.addValue v).toNat = Words.value (2 ^ 32) (Words.addWord (2 ^ 32) a.words v.toNat).1 :=
    toNat_ofWords _ (Words.addWord_inBase hbase _)
  rw [← hres, hlen, hvalue] at hsum
  omega

theorem toNat_add (a b : Key) : (a + b).toNat = (a.toNat + b.toNat) % 2 ^ 160 := by
  obtain ⟨hlen, hbase, hvalue⟩ := a.words_spec
  obtain ⟨hlen', hbase', hvalue'⟩ := b.words_spec
  have hsum := Words.addWords_value (B := 2 ^ 32) (hlen.trans hlen'.symm) 0
  have hlt := (a + b).toNat_lt
  have hres : (a + b).toNat = Words.value (2 ^ 32) (Words.addWords (2 ^ 32) a.words b.words 0).1 :=
    toNat_ofWords _ (Words.addWords_inBase (by norm_num) _)
  rw [← hres, hlen, hvalue, hvalue'] at hsum
  omega

theorem toNat_sub {a b : Key} (h : b ≤ a) : (a - b).toNat = a.toNat - b.toNat := by
  obtain ⟨hlen, hbase, hvalue⟩ := a.words_spec
  obtain ⟨hlen', hbase', hvalue'⟩ := b.words_spec
  have hdiff := Words.subWords_value (B := 2 ^ 32) (hlen.trans hlen'.symm) hbase'
  have hlt := (a - b).toNat_lt
  have hlta := a.toNat_lt
  have hres : (a - b).toNat = Words.value (2 ^ 32) (Words.subWords (2 ^ 32) a.words b.words).1 := by
    rw [← subLoop_eq hbase hbase']
    refine toNat_ofWords _ ?_
    rw [subLoop_eq hbase hbase']
    exact Words.subWords_inBase hbase
  rw [← hres, hlen, hvalue, hvalue'] at hdiff
  rw [le_iff] at h
  omega

theorem toNat_div (k : Key) {n : ℕ} (hn : 0 < n) : (k.div n).toNat = k.toNat / n := by
  obtain ⟨-, hbase, hvalue⟩ := k.words_spec
  have hres : (k.div n).toNat = Words.value (2 ^ 32) (Words.divWords (2 ^ 32) n 0 k.words) :=
    toNat_ofWords _ (Words.divWords_inBase hn _ _ hbase hn)
  rw [hres, Words.divWords_value hn _ _ hn, hvalue, zero_mul, zero_add]

/-- The middle is rounded down. -/
theorem toNat_mid {a b : Key} (h : a ≤ b) : (mid a b).toNat = a.toNat + (b.toNat - a.toNat) / 2 := by
  have hlt := b.toNat_lt
  rw [mid, if_pos h, toNat_add, toNat_div _ two_pos, toNat_sub h]
  rw [le_iff] at h
  omega

theorem toNat_max : max.toNat = 0xFF * 2 ^ 152 := by decide

theorem toNat_min : min.toNat = 0 := by decide

theorem min_le (k : Key) : min ≤ k := by
  rw [le_iff, toNat_min]
  exact Nat.zero_le _

theorem ofBytes_hash (k : Key) : ofBytes k.1 = k := by
  refine Subtype.ext ?_
  change k.1.take 20 ++ List.replicate (20 - k.1.length) 0 = k.1
  rw [k.2, Nat.sub_self, List.replicate_zero, List.append_nil]
  exact List.take_of_length_le k.2.le

end Key

end KTorrent
