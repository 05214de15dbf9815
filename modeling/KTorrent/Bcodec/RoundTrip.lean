import KTorrent.Bcodec.BDecoder
import KTorrent.Bcodec.BEncoder

/-!
# What is written can be read again

* `write_out` — the calls for a tree emit its encoding.
* `decode_encode` — where the encoding stands in the data, the decoder finds the
  tree and stops behind it.
* `readsBack_iff` — the data are the encoding and any suffix: the tree comes back
  exactly when the encoding lies within the size that the decoder sees.
-/

namespace KTorrent

/-! ## Digits -/

theorem isDigit_digitChar {d : ℕ} (h : d < 10) :
    isDigit (UInt8.ofNat d.digitChar.toNat) = true := by
  interval_cases d <;> decide

theorem digitChar_value {d : ℕ} (h : d < 10) :
    (UInt8.ofNat d.digitChar.toNat).toNat - 48 = d := by
  interval_cases d <;> decide

theorem number_of_lt {n : ℕ} (h : n < 10) : number n = [UInt8.ofNat n.digitChar.toNat] := by
  unfold number
  rw [Nat.toDigits_of_lt_base h, List.map_singleton]

theorem number_of_ge {n : ℕ} (h : 10 ≤ n) :
    number n = number (n / 10) ++ [UInt8.ofNat (n % 10).digitChar.toNat] := by
  unfold number
  rw [Nat.toDigits_of_base_le (by decide) h, List.map_append, List.map_singleton]

theorem number_ne_nil (n : ℕ) : number n ≠ [] := by
  rcases lt_or_ge n 10 with h | h
  · rw [number_of_lt h]
    exact List.cons_ne_nil _ _
  · rw [number_of_ge h]
    simp

theorem isDigit_of_mem_number (n : ℕ) : ∀ c ∈ number n, isDigit c = true := by
  induction n using Nat.strong_induction_on with
  | _ n ih =>
    rcases lt_or_ge n 10 with h | h
    · rw [number_of_lt h]
      intro c hc
      rw [List.mem_singleton.mp hc]
      exact isDigit_digitChar h
    · rw [number_of_ge h]
      intro c hc
      rcases List.mem_append.mp hc with hc | hc
      · exact ih (n / 10) (by omega) c hc
      · rw [List.mem_singleton.mp hc]
        exact isDigit_digitChar (Nat.mod_lt _ (by decide))

theorem digitsValue_append_singleton (cs : List UInt8) (c : UInt8) :
    digitsValue (cs ++ [c]) = 10 * digitsValue cs + (c.toNat - 48) := by
  simp [digitsValue]

theorem digitsValue_number (n : ℕ) : digitsValue (number n) = n := by
  induction n using Nat.strong_induction_on with
  | _ n ih =>
    rcases lt_or_ge n 10 with h | h
    · rw [number_of_lt h]
      simp only [digitsValue, List.foldl_cons, List.foldl_nil]
      rw [digitChar_value h]
      omega
    · rw [number_of_ge h, digitsValue_append_singleton, ih (n / 10) (by omega),
        digitChar_value (Nat.mod_lt _ (by decide))]
      omega

theorem unsignedValue_number (n : ℕ) : unsignedValue (number n) = some n := by
  have hall : (number n).all isDigit = true := List.all_eq_true.mpr (isDigit_of_mem_number n)
  rw [unsignedValue, if_pos ⟨number_ne_nil n, hall⟩, digitsValue_number]

/-! ## Whole numbers -/

theorem isDigit_iff (c : UInt8) : isDigit c = true ↔ 48 ≤ c.toNat ∧ c.toNat ≤ 57 := by
  simp [isDigit, UInt8.le_iff_toNat_le]

theorem isSpace_of_isDigit {c : UInt8} (h : isDigit c = true) : isSpace c = false := by
  obtain ⟨hge, hle⟩ := (isDigit_iff c).mp h
  simp only [isSpace, UInt8.le_iff_toNat_le, Bool.or_eq_false_iff, beq_eq_false_iff_ne, ne_eq,
    Bool.and_eq_false_iff, decide_eq_false_iff_not, ← UInt8.toNat_inj, UInt8.reduceToNat]
  omega

theorem dropWhile_isSpace {cs : List UInt8} (h : ∀ c ∈ cs, isDigit c = true) :
    cs.dropWhile isSpace = cs := by
  cases cs with
  | nil => rfl
  | cons c cs =>
    have hc : isSpace c = false := isSpace_of_isDigit (h c List.mem_cons_self)
    rw [List.dropWhile_cons, hc]
    rfl

theorem trimmed_of_digits {cs : List UInt8} (h : ∀ c ∈ cs, isDigit c = true) :
    ((cs.dropWhile isSpace).reverse.dropWhile isSpace).reverse = cs := by
  rw [dropWhile_isSpace h, dropWhile_isSpace (fun c hc => h c (List.mem_reverse.mp hc)),
    List.reverse_reverse]

theorem wholeNumber_of_digits {cs : List UInt8} (h : ∀ c ∈ cs, isDigit c = true) :
    wholeNumber cs = (unsignedValue cs).map fun v => (v : ℤ) := by
  unfold wholeNumber
  rw [trimmed_of_digits h]
  split
  · have h45 := h 45 List.mem_cons_self
    exact absurd h45 (by decide)
  · have h43 := h 43 List.mem_cons_self
    exact absurd h43 (by decide)
  · rfl

theorem wholeNumber_number (n : ℕ) : wholeNumber (number n) = some (n : ℤ) := by
  rw [wholeNumber_of_digits (isDigit_of_mem_number n), unsignedValue_number]
  rfl

theorem toIntegral_number {w n : ℕ} (h : n < 2 ^ (w - 1)) :
    toIntegral w (number n) = some (n : ℤ) := by
  have hlt : (n : ℤ) < 2 ^ (w - 1) := by exact_mod_cast h
  have hge : -2 ^ (w - 1) ≤ (n : ℤ) := by
    have : (0 : ℤ) < 2 ^ (w - 1) := by positivity
    omega
  rw [toIntegral, wholeNumber_number, Option.filter_some]
  simp [hlt, hge]

theorem toIntegral_number_of_ge {w n : ℕ} (h : 2 ^ (w - 1) ≤ n) :
    toIntegral w (number n) = none := by
  have hge : ¬ (n : ℤ) < 2 ^ (w - 1) := by
    rw [not_lt]
    exact_mod_cast h
  rw [toIntegral, wholeNumber_number, Option.filter_some]
  simp [hge]

/-! ## What the calls emit -/

namespace BTree

theorem writeBytes_out (e : BEncoder) (s : List UInt8) :
    (e.writeBytes s).out = e.out ++ encodeBytes s := by
  simp [BEncoder.writeBytes, BEncoder.append, encodeBytes]

mutual

/-- **The calls for a tree emit its encoding.** -/
theorem write_out (t : BTree) (e : BEncoder) : (write t e).out = e.out ++ encode t := by
  cases t with
  | string s => exact writeBytes_out e s
  | int n => rfl
  | list items =>
    rw [write, encode, BEncoder.end_, BEncoder.append, writeItems_out items]
    simp [BEncoder.beginList, BEncoder.append]
  | dict entries =>
    rw [write, encode, BEncoder.end_, BEncoder.append, writeEntries_out entries]
    simp [BEncoder.beginDict, BEncoder.append]

theorem writeItems_out (ts : List BTree) (e : BEncoder) :
    (writeItems ts e).out = e.out ++ encodeItems ts := by
  cases ts with
  | nil => simp [writeItems, encodeItems]
  | cons t ts =>
    rw [writeItems, encodeItems, writeItems_out ts, write_out t, List.append_assoc]

theorem writeEntries_out (es : List (BString × BTree)) (e : BEncoder) :
    (writeEntries es e).out = e.out ++ encodeEntries es := by
  match es with
  | [] => simp [writeEntries, encodeEntries]
  | (key, t) :: es =>
    rw [writeEntries, encodeEntries, writeEntries_out es, write_out t, writeBytes_out,
      List.append_assoc, List.append_assoc]

end

end BTree

/-! ## Where bytes stand in the data -/

namespace BDecoder

variable {data : List UInt8}

theorem size_lt : size data < 2 ^ 32 := u32_lt _

theorem size_le : size data ≤ data.length := Nat.mod_le _ _

theorem prefix_append {u v : List UInt8} {pos : ℕ} (h : u ++ v <+: data.drop pos) :
    u <+: data.drop pos ∧ v <+: data.drop (pos + u.length) := by
  obtain ⟨rest, hrest⟩ := h
  refine ⟨⟨v ++ rest, by rw [← hrest, List.append_assoc]⟩, ⟨rest, ?_⟩⟩
  rw [← List.drop_drop, ← hrest, List.append_assoc, List.drop_left]

theorem prefix_cons {c : UInt8} {w : List UInt8} {pos : ℕ} (h : c :: w <+: data.drop pos) :
    data[pos]? = some c ∧ w <+: data.drop (pos + 1) := by
  obtain ⟨rest, hrest⟩ := h
  refine ⟨?_, ⟨rest, ?_⟩⟩
  · rw [← Nat.add_zero pos, ← List.getElem?_drop, ← hrest]
    rfl
  · rw [← List.drop_drop, ← hrest]
    rfl

theorem take_of_starts {w : List UInt8} {pos : ℕ} (h : w <+: data.drop pos) :
    (data.drop pos).take w.length = w := (List.prefix_iff_eq_take.mp h).symm

theorem sliced_of_le {pos len : ℕ} (h : pos + len ≤ size data) :
    sliced data pos len = .ok ((data.drop pos).take len) :=
  if_pos (h.trans size_le)

theorem scanTo_of_prefix {c : UInt8} {w : List UInt8} (hc : c ∉ w) :
    ∀ {pos : ℕ}, w ++ [c] <+: data.drop pos → pos + w.length < size data →
      scanTo data c pos = pos + w.length := by
  have hlt : size data < 2 ^ 32 := size_lt
  induction w with
  | nil =>
    intro pos h hsize
    rw [scanTo, if_neg]
    · rfl
    · rw [(prefix_cons h).1]
      simp
  | cons b w ih =>
    intro pos h hsize
    rw [List.mem_cons, not_or] at hc
    rw [List.length_cons] at hsize
    obtain ⟨hb, hw⟩ := prefix_cons h
    have hne : data[pos]? ≠ some c := by
      rw [hb]
      exact fun heq => hc.1 (Option.some.inj heq).symm
    rw [scanTo, if_pos ⟨by omega, hne⟩, u32_of_lt (by omega), ih hc.2 hw (by omega),
      List.length_cons]
    omega

/-! ## The four parsers -/

theorem not_mem_number {c : UInt8} (n : ℕ) (h : isDigit c = false) : c ∉ number n := by
  intro hc
  rw [isDigit_of_mem_number n c hc] at h
  exact Bool.noConfusion h

/-- **`parseInt` reads a number** and stops behind its `e`. -/
theorem parseInt_number {n off : ℕ} (hn : n < 2 ^ 63)
    (h : 105 :: (number n ++ [101]) <+: data.drop off)
    (hsize : off + (number n).length + 2 ≤ size data) :
    ∃ v bytes, parseInt data off = .ok (.value v bytes, off + (number n).length + 2) ∧
      (v = .int n ∨ v = .int64 n) := by
  have hlt : size data < 2 ^ 32 := size_lt
  have htext := (prefix_cons h).2
  have hstart : u32 (off + 1) = off + 1 := u32_of_lt (by omega)
  have hscan : scanTo data 101 (off + 1) = off + 1 + (number n).length :=
    scanTo_of_prefix (not_mem_number n (by decide)) htext (by omega)
  have hin : ¬ off + 1 + (number n).length ≥ size data := by omega
  have hstop : u32 (off + 1 + (number n).length + 1) = off + (number n).length + 2 := by
    rw [u32_of_lt (by omega)]
    omega
  have hsub : sub32 (off + (number n).length + 2) off = (number n).length + 2 := by
    rw [sub32_of_le (by omega) (by omega)]
    omega
  have hslice : sliced data off ((number n).length + 2) = .ok _ := sliced_of_le (by omega)
  have htake : (data.drop (off + 1)).take (off + 1 + (number n).length - (off + 1)) = number n := by
    rw [Nat.add_sub_cancel_left]
    exact take_of_starts (prefix_append htext).1
  unfold parseInt
  simp only [hstart, hscan, if_neg hin, htake, hstop, hsub, hslice]
  rcases lt_or_ge n (2 ^ 31) with hsmall | hbig
  · rw [toInt, toIntegral_number hsmall]
    exact ⟨_, _, rfl, .inl rfl⟩
  · rw [toInt, toIntegral_number_of_ge hbig, toLongLong, toIntegral_number hn]
    exact ⟨_, _, rfl, .inr rfl⟩

theorem parseLength_digits {cs : List UInt8} (h : ∀ c ∈ cs, isDigit c = true) :
    ∀ len, parseLength cs len =
      some (cs.foldl (fun v c => u32 ((v <<< 3) + (v <<< 1) + (c.toNat - 48))) len) := by
  induction cs with
  | nil => exact fun len => rfl
  | cons c cs ih =>
    intro len
    rw [parseLength, if_pos (h c List.mem_cons_self),
      ih (fun d hd => h d (List.mem_cons_of_mem c hd)), List.foldl_cons]

/-- The loop computes modulo `2 ^ 32`. -/
theorem foldl_length (cs : List UInt8) : ∀ len,
    cs.foldl (fun v c => u32 ((v <<< 3) + (v <<< 1) + (c.toNat - 48))) (u32 len) =
      u32 (cs.foldl (fun v c => 10 * v + (c.toNat - 48)) len) := by
  induction cs with
  | nil => exact fun len => rfl
  | cons c cs ih =>
    intro len
    have hstep : u32 ((u32 len <<< 3) + (u32 len <<< 1) + (c.toNat - 48)) =
        u32 (10 * len + (c.toNat - 48)) := by
      simp only [u32, Nat.shiftLeft_eq]
      omega
    rw [List.foldl_cons, List.foldl_cons, hstep, ih]

theorem parseLength_number {n : ℕ} (hn : n < 2 ^ 32) : parseLength (number n) 0 = some n := by
  rw [parseLength_digits (isDigit_of_mem_number n)]
  have hfold := foldl_length (number n) 0
  rw [show u32 0 = 0 from rfl] at hfold
  rw [hfold]
  change some (u32 (digitsValue (number n))) = some n
  rw [digitsValue_number, u32_of_lt hn]

/-- **`parseString` reads a string** and stops behind it, whatever bytes are in it. -/
theorem parseString_encodeBytes {s : List UInt8} {off : ℕ} (hs : s.length < 2 ^ 31)
    (h : BTree.encodeBytes s <+: data.drop off)
    (hsize : off + (BTree.encodeBytes s).length ≤ size data) :
    ∃ bytes, parseString data off =
      .ok (.value (.string s) bytes, off + (BTree.encodeBytes s).length) := by
  have hlt : size data < 2 ^ 32 := size_lt
  have hlen : (BTree.encodeBytes s).length = (number s.length).length + 1 + s.length := by
    simp only [BTree.encodeBytes, List.length_append, List.length_cons]
    omega
  rw [hlen] at hsize ⊢
  have hsplit : (number s.length ++ [58]) ++ s <+: data.drop off := by
    rw [List.append_assoc]
    exact h
  obtain ⟨htext, hstr⟩ := prefix_append hsplit
  rw [List.length_append, List.length_singleton] at hstr
  have hscan : scanTo data 58 off = off + (number s.length).length :=
    scanTo_of_prefix (not_mem_number _ (by decide)) htext (by omega)
  have hin : ¬ off + (number s.length).length ≥ size data := by omega
  have htake : (data.drop off).take (off + (number s.length).length - off) = number s.length := by
    rw [Nat.add_sub_cancel_left]
    exact take_of_starts (prefix_append htext).1
  have hpos : u32 (off + (number s.length).length + 1) = off + ((number s.length).length + 1) := by
    rw [u32_of_lt (by omega)]
    omega
  have hstop : u32 (off + ((number s.length).length + 1) + s.length) =
      off + ((number s.length).length + 1 + s.length) := by
    rw [u32_of_lt (by omega)]
    omega
  have hneg : ¬ s.length ≥ 2 ^ 31 := by omega
  have hfits : ¬ off + ((number s.length).length + 1 + s.length) > size data := by omega
  have hslice : sliced data (off + ((number s.length).length + 1)) s.length = .ok s := by
    rw [sliced_of_le (by omega), take_of_starts hstr]
  have hsub : sub32 (off + ((number s.length).length + 1 + s.length)) off =
      (number s.length).length + 1 + s.length := by
    rw [sub32_of_le (by omega) (by omega)]
    omega
  have hbytes : sliced data off ((number s.length).length + 1 + s.length) = .ok _ :=
    sliced_of_le (by omega)
  unfold parseString
  simp only [hscan, if_neg hin, htake, parseLength_number (by omega : s.length < 2 ^ 32), if_neg hneg,
    hpos, hstop, if_neg hfits, hslice, hsub, hbytes]
  exact ⟨_, rfl⟩

/-- The end of a list or a dictionary. -/
theorem closeAt_of_prefix {off pos : ℕ} (hle : off ≤ pos) (h : data[pos]? = some 101)
    (hsize : pos + 1 ≤ size data) :
    ∃ bytes, closeAt data off pos = .ok (bytes, pos + 1) := by
  have hlt : size data < 2 ^ 32 := size_lt
  have hstop : u32 (pos + 1) = pos + 1 := u32_of_lt (by omega)
  have hsub : sub32 (pos + 1) off = pos + 1 - off := sub32_of_le (by omega) (by omega)
  have hbytes : sliced data off (pos + 1 - off) = .ok _ := sliced_of_le (by omega)
  have hin : ¬ (pos ≥ size data ∨ data[pos]? ≠ some 101) := by
    rw [h]
    simp only [ge_iff_le, ne_eq, not_true_eq_false, or_false]
    omega
  unfold closeAt
  simp only [if_neg hin, hstop, hsub, hbytes]
  exact ⟨_, rfl⟩

/-! ## Trees -/

theorem decode_eq {fuel pos : ℕ} {c : UInt8} (hc : data[pos]? = some c) (hpos : pos < size data) :
    decode data (fuel + 1) pos =
      if c = 100 then found (parseDict data (decode data fuel) fuel pos)
      else if c = 108 then found (parseList data (decode data fuel) fuel pos)
      else if c = 105 then found (parseInt data pos)
      else if isDigit c then found (parseString data pos)
      else .error (.illegalToken c) := by
  rw [decode, if_neg (not_le.mpr hpos), hc]

/-- The encoding of a string begins with a digit. -/
theorem encodeBytes_head (s : List UInt8) :
    ∃ c w, BTree.encodeBytes s = c :: w ∧ isDigit c = true := by
  cases hnum : number s.length with
  | nil => exact absurd hnum (number_ne_nil _)
  | cons c w =>
    refine ⟨c, w ++ 58 :: s, ?_, isDigit_of_mem_number s.length c ?_⟩
    · rw [BTree.encodeBytes, hnum, List.cons_append]
    · rw [hnum]
      exact List.mem_cons_self

theorem encodeBytes_length_pos (s : List UInt8) : 0 < (BTree.encodeBytes s).length := by
  obtain ⟨c, w, hcw, -⟩ := encodeBytes_head s
  rw [hcw]
  exact Nat.succ_pos _

/-- No encoding begins with the byte that ends a list. -/
theorem encode_head (t : BTree) : ∃ c w, t.encode = c :: w ∧ c ≠ 101 := by
  cases t with
  | string s =>
    obtain ⟨c, w, hcw, hc⟩ := encodeBytes_head s
    refine ⟨c, w, hcw, ?_⟩
    rintro rfl
    exact absurd hc (by decide)
  | int n => exact ⟨105, _, rfl, by decide⟩
  | list items => exact ⟨108, _, rfl, by decide⟩
  | dict entries => exact ⟨100, _, rfl, by decide⟩

theorem encode_length_pos (t : BTree) : 0 < t.encode.length := by
  obtain ⟨c, w, hcw, -⟩ := encode_head t
  rw [hcw]
  exact Nat.succ_pos _

theorem length_le_encodeItems (ts : List BTree) : ts.length ≤ (BTree.encodeItems ts).length := by
  induction ts with
  | nil => exact Nat.zero_le _
  | cons t ts ih =>
    have := encode_length_pos t
    rw [BTree.encodeItems, List.length_append, List.length_cons]
    omega

theorem length_le_encodeEntries (es : List (BString × BTree)) :
    es.length ≤ (BTree.encodeEntries es).length := by
  induction es with
  | nil => exact Nat.zero_le _
  | cons e es ih =>
    have := encode_length_pos e.2
    rw [BTree.encodeEntries, List.length_append, List.length_append, List.length_cons]
    omega

theorem inside_of_ne {pos : ℕ} {c : UInt8} (hpos : pos < size data) (h : data[pos]? = some c)
    (hc : c ≠ 101) : inside data pos = true := by
  simp [inside, hpos, h, hc]

theorem inside_of_end {pos : ℕ} (h : data[pos]? = some 101) : inside data pos = false := by
  simp [inside, h]

/-- A string is decoded wherever it stands. -/
theorem decode_string {s : List UInt8} {pos : ℕ} (hs : s.length < 2 ^ 31)
    (h : BTree.encodeBytes s <+: data.drop pos)
    (hsize : pos + (BTree.encodeBytes s).length ≤ size data) :
    ∃ bytes, ∀ fuel > 0, decode data fuel pos =
      .ok (some (.value (.string s) bytes), pos + (BTree.encodeBytes s).length) := by
  obtain ⟨c, w, hcw, hc⟩ := encodeBytes_head s
  have hpos : pos < size data := by
    have := encodeBytes_length_pos s
    omega
  have hat : data[pos]? = some c := by
    rw [hcw] at h
    exact (prefix_cons h).1
  have hne : ∀ d : UInt8, isDigit d = false → c ≠ d := by
    rintro d hd rfl
    rw [hc] at hd
    exact Bool.noConfusion hd
  obtain ⟨bytes, hparse⟩ := parseString_encodeBytes hs h hsize
  refine ⟨bytes, fun fuel hfuel => ?_⟩
  obtain ⟨fuel, rfl⟩ := Nat.exists_eq_succ_of_ne_zero hfuel.ne'
  rw [Nat.succ_eq_add_one, decode_eq hat hpos, if_neg (hne 100 (by decide)),
    if_neg (hne 108 (by decide)), if_neg (hne 105 (by decide)), if_pos hc, hparse]
  rfl

-- The induction is over the tree and the two kinds of rows in it.  The position may be
-- anywhere in the data, so what stands behind an item does not matter.
mutual

/-- **The decoder finds a tree where its encoding stands**, and stops behind it. -/
theorem decode_encode (t : BTree) {pos : ℕ} (h : t.encode <+: data.drop pos)
    (hsize : pos + t.encode.length ≤ size data) :
    ∃ node, t.Equals node ∧ ∀ fuel ≥ t.encode.length,
      decode data fuel pos = .ok (some node, pos + t.encode.length) := by
  have hlt : size data < 2 ^ 32 := size_lt
  have hlen := encode_length_pos t
  have hpos : pos < size data := by omega
  have hfuel : ∀ fuel ≥ t.encode.length, ∃ n, fuel = n + 1 := by
    intro fuel hge
    exact Nat.exists_eq_succ_of_ne_zero (by omega)
  cases t with
  | string s =>
    obtain ⟨bytes, hdec⟩ := decode_string s.2 h hsize
    exact ⟨.value (.string s) bytes, rfl, fun fuel hge => hdec fuel (hlen.trans_le hge)⟩
  | int n =>
    rw [BTree.encode] at h hsize ⊢
    rw [List.length_cons, List.length_append, List.length_singleton, ← Nat.add_assoc] at hsize
    obtain ⟨v, bytes, hparse, hv⟩ := parseInt_number n.2 h hsize
    refine ⟨.value v bytes, ?_, fun fuel hge => ?_⟩
    · rcases hv with rfl | rfl <;> rfl
    · obtain ⟨fuel, rfl⟩ := hfuel fuel hge
      rw [decode_eq (prefix_cons h).1 hpos, if_neg (by decide), if_neg (by decide), if_pos rfl, hparse,
        List.length_cons, List.length_append, List.length_singleton]
      rfl
  | list items =>
    rw [BTree.encode] at h hsize ⊢
    rw [List.length_cons, List.length_append, List.length_singleton] at hsize ⊢
    obtain ⟨hl, hitems⟩ := prefix_cons h
    have hcount := length_le_encodeItems items
    obtain ⟨ns, hns, hloop⟩ := listLoop_encodeItems items hitems (by omega)
    have hend := (prefix_cons (prefix_append hitems).2).1
    obtain ⟨bytes, hclose⟩ := closeAt_of_prefix (by omega : pos ≤ pos + 1 + _) hend (by omega)
    refine ⟨.list ns bytes, hns, fun fuel hge => ?_⟩
    obtain ⟨fuel, rfl⟩ := Nat.exists_eq_succ_of_ne_zero (by omega : fuel ≠ 0)
    rw [Nat.succ_eq_add_one, decode_eq hl hpos, if_neg (by decide), if_pos rfl, parseList,
      u32_of_lt (by omega), hloop fuel fuel [] (by omega) (by omega)]
    simp only [found, bind, Except.bind, hclose]
    simp only [pure, Except.pure, Except.map, List.nil_append]
    congr 2
    omega
  | dict entries =>
    rw [BTree.encode] at h hsize ⊢
    rw [List.length_cons, List.length_append, List.length_singleton] at hsize ⊢
    obtain ⟨hd, hentries⟩ := prefix_cons h
    have hcount := length_le_encodeEntries entries
    obtain ⟨ns, hns, hloop⟩ := dictLoop_encodeEntries entries hentries (by omega)
    have hend := (prefix_cons (prefix_append hentries).2).1
    obtain ⟨bytes, hclose⟩ := closeAt_of_prefix (by omega : pos ≤ pos + 1 + _) hend (by omega)
    refine ⟨.dict ns bytes, hns, fun fuel hge => ?_⟩
    obtain ⟨fuel, rfl⟩ := Nat.exists_eq_succ_of_ne_zero (by omega : fuel ≠ 0)
    rw [Nat.succ_eq_add_one, decode_eq hd hpos, if_pos rfl, parseDict, u32_of_lt (by omega),
      hloop fuel fuel [] (by omega) (by omega)]
    simp only [found, bind, Except.bind, hclose]
    simp only [pure, Except.pure, Except.map, List.nil_append]
    congr 2
    omega

theorem listLoop_encodeItems (ts : List BTree) {pos : ℕ}
    (h : BTree.encodeItems ts ++ [101] <+: data.drop pos)
    (hsize : pos + (BTree.encodeItems ts).length + 1 ≤ size data) :
    ∃ ns, BTree.EqualsItems ts ns ∧
      ∀ fuel n children, (BTree.encodeItems ts).length ≤ fuel → ts.length < n →
        listLoop data (decode data fuel) n pos children =
          .ok (children ++ ns, pos + (BTree.encodeItems ts).length) := by
  cases ts with
  | nil =>
    refine ⟨[], trivial, fun fuel n children _ hn => ?_⟩
    obtain ⟨n, rfl⟩ := Nat.exists_eq_succ_of_ne_zero (by omega : n ≠ 0)
    rw [listLoop, inside_of_end (prefix_cons h).1, List.append_nil]
    rfl
  | cons t ts =>
    rw [BTree.encodeItems, List.append_assoc] at h
    rw [BTree.encodeItems, List.length_append] at hsize ⊢
    obtain ⟨ht, hts⟩ := prefix_append h
    obtain ⟨node, hnode, hdec⟩ := decode_encode t ht (by omega)
    obtain ⟨ns, hns, hloop⟩ := listLoop_encodeItems ts hts (by omega)
    have hin : inside data pos = true := by
      obtain ⟨c, w, hcw, hc⟩ := encode_head t
      have := encode_length_pos t
      rw [hcw] at ht
      exact inside_of_ne (by omega) (prefix_cons ht).1 hc
    refine ⟨node :: ns, ⟨hnode, hns⟩, fun fuel n children hfuel hn => ?_⟩
    rw [List.length_cons] at hn
    obtain ⟨n, rfl⟩ := Nat.exists_eq_succ_of_ne_zero (by omega : n ≠ 0)
    rw [listLoop, hin, if_pos rfl]
    simp only [bind, Except.bind, hdec fuel (by omega), Option.toList_some]
    rw [hloop fuel n _ (by omega) (by omega), List.append_assoc, List.singleton_append, Nat.add_assoc]

theorem dictLoop_encodeEntries (es : List (BString × BTree)) {pos : ℕ}
    (h : BTree.encodeEntries es ++ [101] <+: data.drop pos)
    (hsize : pos + (BTree.encodeEntries es).length + 1 ≤ size data) :
    ∃ ns, BTree.EqualsEntries es ns ∧
      ∀ fuel n children, (BTree.encodeEntries es).length ≤ fuel → es.length < n →
        dictLoop data (decode data fuel) n pos children =
          .ok (children ++ ns, pos + (BTree.encodeEntries es).length) := by
  match es with
  | [] =>
    refine ⟨[], trivial, fun fuel n children _ hn => ?_⟩
    obtain ⟨n, rfl⟩ := Nat.exists_eq_succ_of_ne_zero (by omega : n ≠ 0)
    rw [dictLoop, inside_of_end (prefix_cons h).1, List.append_nil]
    rfl
  | (key, t) :: es =>
    rw [BTree.encodeEntries, List.append_assoc, List.append_assoc] at h
    rw [BTree.encodeEntries, List.length_append, List.length_append] at hsize ⊢
    have hkeypos := encodeBytes_length_pos key
    obtain ⟨hkey, hrest⟩ := prefix_append h
    obtain ⟨ht, hes⟩ := prefix_append hrest
    obtain ⟨bytes, hkeydec⟩ := decode_string key.2 hkey (by omega)
    obtain ⟨node, hnode, hdec⟩ := decode_encode t ht (by omega)
    obtain ⟨ns, hns, hloop⟩ := dictLoop_encodeEntries es hes (by omega)
    have hin : inside data pos = true := by
      obtain ⟨c, w, hcw, hc⟩ := encodeBytes_head key
      rw [hcw] at hkey
      refine inside_of_ne (by omega) (prefix_cons hkey).1 ?_
      rintro rfl
      exact absurd hc (by decide)
    refine ⟨(key.1, node) :: ns, ⟨rfl, hnode, hns⟩, fun fuel n children hfuel hn => ?_⟩
    rw [List.length_cons] at hn
    obtain ⟨n, rfl⟩ := Nat.exists_eq_succ_of_ne_zero (by omega : n ≠ 0)
    rw [dictLoop, hin, if_pos rfl]
    simp only [bind, Except.bind, hkeydec fuel (by omega), keyOf, hdec fuel (by omega)]
    rw [hloop fuel n _ (by omega) (by omega), List.append_assoc, List.singleton_append, Nat.add_assoc,
      Nat.add_assoc]

end

/-! ## The position that is left behind -/

theorem u32_succ_le {pos : ℕ} (h : ¬ pos ≥ size data) : u32 (pos + 1) ≤ size data :=
  (Nat.mod_le _ _).trans (not_le.mp h)

theorem parseInt_pos_le {off pos : ℕ} {node : BNode} (h : parseInt data off = .ok (node, pos)) :
    pos ≤ size data := by
  unfold parseInt at h
  simp only [bind, Except.bind, throw, throwThe, MonadExceptOf.throw, pure, Except.pure] at h
  split at h
  · cases h
  · rename_i hin
    -- both kinds of integers leave the position behind the `e`
    have hle := u32_succ_le hin
    split at h
    · split at h
      · cases h
      · cases h
        exact hle
    · split at h
      · split at h
        · cases h
        · cases h
          exact hle
      · cases h

theorem parseString_pos_le {off pos : ℕ} {node : BNode}
    (h : parseString data off = .ok (node, pos)) : pos ≤ size data := by
  unfold parseString at h
  simp only [bind, Except.bind, throw, throwThe, MonadExceptOf.throw, pure, Except.pure] at h
  split at h
  · cases h
  · split at h
    · cases h
    · split at h
      · cases h
      · split at h
        · cases h
        · rename_i hfits
          split at h
          · cases h
          · split at h
            · cases h
            · cases h
              exact not_lt.mp hfits

theorem closeAt_pos_le {off pos stop : ℕ} {bytes : List UInt8}
    (h : closeAt data off pos = .ok (bytes, stop)) : stop ≤ size data := by
  unfold closeAt at h
  simp only [bind, Except.bind, throw, throwThe, MonadExceptOf.throw, pure, Except.pure] at h
  split at h
  · cases h
  · rename_i hin
    split at h
    · cases h
    · cases h
      exact u32_succ_le fun hge => hin (.inl hge)

theorem parseDict_pos_le {dec : ℕ → Except DecodeError (Option BNode × ℕ)} {fuel off pos : ℕ}
    {node : BNode} (h : parseDict data dec fuel off = .ok (node, pos)) : pos ≤ size data := by
  unfold parseDict at h
  simp only [bind, Except.bind, pure, Except.pure] at h
  split at h
  · cases h
  · split at h
    · cases h
    · rename_i hclose
      cases h
      exact closeAt_pos_le hclose

theorem parseList_pos_le {dec : ℕ → Except DecodeError (Option BNode × ℕ)} {fuel off pos : ℕ}
    {node : BNode} (h : parseList data dec fuel off = .ok (node, pos)) : pos ≤ size data := by
  unfold parseList at h
  simp only [bind, Except.bind, pure, Except.pure] at h
  split at h
  · cases h
  · split at h
    · cases h
    · rename_i hclose
      cases h
      exact closeAt_pos_le hclose

theorem found_eq_ok {r : Except DecodeError (BNode × ℕ)} {node : BNode} {pos : ℕ}
    (h : found r = .ok (some node, pos)) : r = .ok (node, pos) := by
  cases r with
  | error e => cases h
  | ok r =>
    simp only [found, Except.map, Except.ok.injEq, Prod.mk.injEq, Option.some.injEq] at h
    rw [← h.1, ← h.2]

/-- **A node that is found ends within the size that the decoder sees.** -/
theorem decode_pos_le {fuel pos stop : ℕ} {node : BNode}
    (h : decode data fuel pos = .ok (some node, stop)) : stop ≤ size data := by
  cases fuel with
  | zero => cases h
  | succ fuel =>
    rw [decode] at h
    split at h
    · cases h
    · split at h
      · cases h
      · split at h
        · exact parseDict_pos_le (found_eq_ok h)
        · split at h
          · exact parseList_pos_le (found_eq_ok h)
          · split at h
            · exact parseInt_pos_le (found_eq_ok h)
            · split at h
              · exact parseString_pos_le (found_eq_ok h)
              · cases h

end BDecoder

/-! ## Reading back -/

namespace BTree

/-! ### Getters -/

/-- The tree that was written under a key. -/
def lookup (es : List (BString × BTree)) (key : List UInt8) : Option BTree :=
  (es.find? fun e => e.1.1 == key).map Prod.snd

section Getters

variable {es : List (BString × BTree)} {ns : BDictNode} (key : List UInt8)

/-- The getters find what was written under the key. -/
theorem EqualsEntries.getData (h : EqualsEntries es ns) :
    match lookup es key with
    | none => ns.getData key = none
    | some t => ∃ node, ns.getData key = some node ∧ t.Equals node := by
  induction es generalizing ns with
  | nil =>
    match ns, h with
    | [], _ => rfl
  | cons e es ih =>
    match e, ns, h with
    | (k, t), (k', node) :: ns, h =>
      obtain ⟨rfl, ht, hes⟩ := h
      unfold lookup BDictNode.getData
      rw [List.find?_cons, List.find?_cons]
      by_cases hk : (k.1 == key) = true
      · simp only [hk, Option.map_some]
        exact ⟨node, rfl, ht⟩
      · rw [Bool.not_eq_true] at hk
        simp only [hk]
        exact ih hes

theorem EqualsEntries.getData_none (h : EqualsEntries es ns) (hkey : lookup es key = none) :
    ns.getData key = none := by
  have hget := h.getData key
  rw [hkey] at hget
  exact hget

theorem EqualsEntries.getDict {inner : List (BString × BTree)} (h : EqualsEntries es ns)
    (hkey : lookup es key = some (.dict inner)) :
    ∃ d, ns.getDict key = some d ∧ EqualsEntries inner d := by
  have hget := h.getData key
  rw [hkey] at hget
  obtain ⟨node, hnode, hequals⟩ := hget
  unfold BDictNode.getDict
  rw [hnode]
  match node, hequals with
  | .dict children _, hequals => exact ⟨children, rfl, hequals⟩

theorem EqualsEntries.getList {items : List BTree} (h : EqualsEntries es ns)
    (hkey : lookup es key = some (.list items)) :
    ∃ children, ns.getList key = some children ∧ EqualsItems items children := by
  have hget := h.getData key
  rw [hkey] at hget
  obtain ⟨node, hnode, hequals⟩ := hget
  unfold BDictNode.getList
  rw [hnode]
  match node, hequals with
  | .list children _, hequals => exact ⟨children, rfl, hequals⟩

theorem EqualsEntries.getInt64 {n : Fin (2 ^ 63)} (h : EqualsEntries es ns)
    (hkey : lookup es key = some (.int n)) : ns.getInt64 key = .ok (n : ℕ) := by
  have hget := h.getData key
  rw [hkey] at hget
  obtain ⟨node, hnode, hequals⟩ := hget
  unfold BDictNode.getInt64 BDictNode.getValue
  rw [hnode]
  match node, hequals with
  | .value (.int ival) _, hequals => exact congrArg Except.ok hequals
  | .value (.int64 bigIval) _, hequals => exact congrArg Except.ok hequals

theorem EqualsEntries.getByteArrayView {s : BString} (h : EqualsEntries es ns)
    (hkey : lookup es key = some (.string s)) : ns.getByteArrayView key = .ok s.1 := by
  have hget := h.getData key
  rw [hkey] at hget
  obtain ⟨node, hnode, hequals⟩ := hget
  unfold BDictNode.getByteArrayView BDictNode.getValue
  rw [hnode]
  match node, hequals with
  | .value (.string strval) _, hequals => exact congrArg Except.ok hequals

end Getters

/-! ### The whole data -/

/-- The bytes that the calls for a tree emit. -/
def emitted (t : BTree) : List UInt8 := (t.write ⟨[]⟩).out

theorem emitted_eq (t : BTree) : t.emitted = t.encode := by
  unfold emitted
  rw [write_out]
  rfl

/-- A tree of less than 4 GiB is read back from its bytes. -/
theorem decode_emitted (t : BTree) (h : t.emitted.length < 2 ^ 32) :
    ∃ node, t.Equals node ∧
      BDecoder.decode t.emitted t.emitted.length 0 = .ok (some node, t.emitted.length) := by
  rw [emitted_eq] at h ⊢
  have hsize : BDecoder.size t.encode = t.encode.length := Nat.mod_eq_of_lt h
  have hat : t.encode <+: t.encode.drop 0 := List.prefix_refl _
  obtain ⟨node, hnode, hdec⟩ := BDecoder.decode_encode t hat (by rw [hsize, Nat.zero_add])
  rw [Nat.zero_add] at hdec
  exact ⟨node, hnode, hdec _ le_rfl⟩

/-- `decode` on the emitted bytes and a suffix returns a tree equal to the one that
was written, and leaves the position at the end of the emitted bytes. -/
def ReadsBack (t : BTree) (suffix : List UInt8) : Prop :=
  ∃ node enough, t.Equals node ∧
    ∀ fuel ≥ enough, BDecoder.decode (t.emitted ++ suffix) fuel 0 = .ok (some node, t.emitted.length)

/-- **A tree reads back exactly when its bytes lie within the size that the decoder
sees**, which is the size of all the data cut to 32 bits. -/
theorem readsBack_iff (t : BTree) (suffix : List UInt8) :
    t.ReadsBack suffix ↔
      t.emitted.length ≤ (t.emitted.length + suffix.length) % 2 ^ 32 := by
  have hsize : BDecoder.size (t.emitted ++ suffix) =
      (t.emitted.length + suffix.length) % 2 ^ 32 := by
    rw [BDecoder.size, u32, List.length_append]
  constructor
  · rintro ⟨node, enough, -, hdec⟩
    rw [← hsize]
    exact BDecoder.decode_pos_le (hdec enough le_rfl)
  · intro hle
    rw [← hsize] at hle
    have hat : t.encode <+: (t.emitted ++ suffix).drop 0 := by
      rw [emitted_eq, List.drop_zero]
      exact List.prefix_append _ _
    have hends : 0 + t.encode.length ≤ BDecoder.size (t.emitted ++ suffix) := by
      rw [Nat.zero_add, ← emitted_eq]
      exact hle
    obtain ⟨node, hnode, hdec⟩ := BDecoder.decode_encode t hat hends
    refine ⟨node, t.encode.length, hnode, fun fuel hge => ?_⟩
    rw [hdec fuel hge, Nat.zero_add, emitted_eq]

end BTree

/-- The number 0, in data of exactly 4 GiB: the decoder sees no data at all. -/
theorem number_not_read_back :
    ¬ (BTree.int 0).ReadsBack (List.replicate (2 ^ 32 - 3) 0) := by
  rintro ⟨node, enough, -, hdec⟩
  have hle := BDecoder.decode_pos_le (hdec enough le_rfl)
  rw [BDecoder.size, List.length_append, List.length_replicate,
    show (BTree.int 0).emitted.length = 3 from rfl] at hle
  exact absurd hle (by decide)

end KTorrent
