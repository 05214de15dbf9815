import KTorrent.Bcodec.Progress

/-!
# The length of a string

`parseString` reads digits up to a colon, and as many bytes as they say.  The
number is added up in an `int` that wraps around, and no digit at all is a number,
too.

* `StringAt` — a string, as the format has it.
* `Reads` — `parseString` finds the string, or throws where there is none.
* `Accepted` — what `parseString` tests, with the number wrapped around.
* `parseString_run`, `parseString_late`, `parseString_other` — what it does.
* `reads_iff` — when it is right.
-/

namespace KTorrent

namespace BDecoder

variable {data : List UInt8} {off : ℕ} {digits : List UInt8}

/-! ## The law -/

/-- A row of decimal digits, perhaps an empty one, and a colon. -/
def RunAt (data : List UInt8) (off : ℕ) (digits : List UInt8) : Prop :=
  (∀ c ∈ digits, isDigit c = true) ∧ digits ++ [58] <+: data.drop off

/-- Digits, at least one, that denote a number, a colon, and as many bytes. -/
structure StringAt (data : List UInt8) (off : ℕ) (digits str : List UInt8) : Prop where
  run : RunAt data off digits
  ne_nil : digits ≠ []
  value_eq : digitsValue digits = str.length
  bytes : str <+: data.drop (off + digits.length + 1)

/-- `parseString` returns the string that is there and moves behind it, or throws where there is
none. -/
def Reads (data : List UInt8) (off : ℕ) : Prop :=
  match parseString data off with
  | .ok (node, stop) => ∃ digits str bytes, StringAt data off digits str ∧
      node = .value (.string str) bytes ∧ stop = off + digits.length + 1 + str.length
  | .error e => e.thrown = true ∧ ∀ digits str, ¬ StringAt data off digits str

/-! ## The digits in front of the colon -/

theorem run_cons_inj {c : UInt8} {w v : List UInt8} {l : List UInt8} (hw : c ∉ w) (hv : c ∉ v)
    (h : w ++ [c] <+: l) (h' : v ++ [c] <+: l) : w = v := by
  induction w generalizing v l with
  | nil =>
    obtain ⟨t, rfl⟩ := h
    cases v with
    | nil => rfl
    | cons b v =>
      rw [List.cons_append, List.nil_append, List.cons_append, List.cons_prefix_cons] at h'
      rw [h'.1] at hv
      exact absurd List.mem_cons_self hv
  | cons a w ih =>
    obtain ⟨t, rfl⟩ := h
    cases v with
    | nil =>
      rw [List.nil_append, List.cons_append, List.cons_append, List.cons_prefix_cons] at h'
      rw [h'.1] at hw
      exact absurd List.mem_cons_self hw
    | cons b v =>
      rw [List.cons_append, List.cons_append, List.cons_append, List.cons_prefix_cons] at h'
      obtain ⟨rfl, h'⟩ := h'
      rw [ih (fun hc => hw (List.mem_cons_of_mem _ hc)) (fun hc => hv (List.mem_cons_of_mem _ hc))
        (List.prefix_append _ _) h']

theorem not_mem_of_digits (h : ∀ c ∈ digits, isDigit c = true) : (58 : UInt8) ∉ digits :=
  fun hc => absurd (h 58 hc) (by decide)

/-- There is at most one such row. -/
theorem RunAt.unique {ds : List UInt8} (h : RunAt data off digits) (h' : RunAt data off ds) :
    ds = digits :=
  run_cons_inj (not_mem_of_digits h'.1) (not_mem_of_digits h.1) h'.2 h.2

/-- The number of a row of digits, wrapped around. -/
theorem parseLength_wraps (h : ∀ c ∈ digits, isDigit c = true) :
    parseLength digits 0 = some (u32 (digitsValue digits)) := by
  have hfold := foldl_length digits 0
  rw [show u32 0 = 0 from rfl] at hfold
  rw [parseLength_digits h, hfold]
  rfl

theorem parseLength_other (h : ¬ ∀ c ∈ digits, isDigit c = true) :
    ∀ len, parseLength digits len = none := by
  induction digits with
  | nil => exact absurd (fun c hc => nomatch hc) h
  | cons c cs ih =>
    intro len
    rw [parseLength]
    by_cases hc : isDigit c = true
    · rw [if_pos hc]
      refine ih (fun hall => h fun d hd => ?_) _
      rcases List.mem_cons.mp hd with rfl | hd
      · exact hc
      · exact hall d hd
    · rw [if_neg hc]

/-- Where the scan stops: in front of the `c`, or at the end. -/
theorem scanTo_spec (c : UInt8) (pos : ℕ) : pos ≤ scanTo data c pos ∧
    (scanTo data c pos < size data →
      ∃ w, c ∉ w ∧ w.length = scanTo data c pos - pos ∧ w ++ [c] <+: data.drop pos) := by
  induction hn : size data - pos generalizing pos with
  | zero =>
    rw [scanTo, if_neg (by omega)]
    exact ⟨le_rfl, fun h => by omega⟩
  | succ n ih =>
    have hlt : size data < 2 ^ 32 := size_lt
    rw [scanTo]
    split
    · rename_i hgo
      rw [u32_of_lt (by omega)]
      obtain ⟨hge, hfound⟩ := ih (pos + 1) (by omega)
      refine ⟨by omega, fun h => ?_⟩
      obtain ⟨w, hw, hlen, hpre⟩ := hfound h
      have hin : pos < data.length := lt_of_lt_of_le hgo.1 size_le
      refine ⟨data[pos] :: w, ?_, by rw [List.length_cons]; omega, ?_⟩
      · rw [List.mem_cons, not_or]
        refine ⟨fun heq => hgo.2 ?_, hw⟩
        rw [List.getElem?_eq_getElem hin, heq]
      · rw [List.drop_eq_getElem_cons hin, List.cons_append, List.cons_prefix_cons]
        exact ⟨rfl, hpre⟩
    · rename_i hstop
      refine ⟨le_rfl, fun h => ⟨[], List.not_mem_nil, by simp, ?_⟩⟩
      have hin : pos < data.length := lt_of_lt_of_le h size_le
      have hc : data[pos]? = some c := by
        by_contra hne
        exact hstop ⟨h, hne⟩
      rw [List.getElem?_eq_getElem hin, Option.some.injEq] at hc
      rw [List.drop_eq_getElem_cons hin, hc]
      exact ⟨_, rfl⟩

/-! ## What `parseString` does -/

/-- Where the bytes of a string begin, with these digits in front. -/
def bytesAt (off : ℕ) (digits : List UInt8) : ℕ := off + digits.length + 1

/-- The tests of `parseString`, on the number as it wraps around. -/
def Accepted (data : List UInt8) (off : ℕ) (digits : List UInt8) : Prop :=
  bytesAt off digits ≤ size data ∧ u32 (digitsValue digits) < 2 ^ 31 ∧
    u32 (bytesAt off digits + u32 (digitsValue digits)) ≤ size data

/-- Without digits and a colon it throws. -/
theorem parseString_other (h : ∀ digits, ¬ RunAt data off digits) :
    ∃ e, parseString data off = .error e ∧ e.thrown = true := by
  obtain ⟨hge, hfound⟩ := @scanTo_spec data 58 off
  unfold parseString
  by_cases hin : scanTo data 58 off ≥ size data
  · exact ⟨.unexpectedEndOfInput, by simp only [if_pos hin]; rfl, rfl⟩
  · obtain ⟨w, hw, hlen, hpre⟩ := hfound (not_le.mp hin)
    have htext : (data.drop off).take (scanTo data 58 off - off) = w := by
      rw [← hlen]
      exact take_of_starts ((List.prefix_append _ _).trans hpre)
    have hnone : parseLength w 0 = none := parseLength_other (fun hall => h w ⟨hall, hpre⟩) 0
    refine ⟨.cannotConvert w, ?_, rfl⟩
    simp only [if_neg hin, htext, hnone]
    rfl

/-- A colon behind what the decoder takes for the size is not seen. -/
theorem parseString_late (h : RunAt data off digits) (hlate : size data < bytesAt off digits) :
    parseString data off = .error .unexpectedEndOfInput := by
  have hin : scanTo data 58 off ≥ size data := by
    by_contra hlt
    obtain ⟨hge, hfound⟩ := @scanTo_spec data 58 off
    obtain ⟨w, hw, hlen, hpre⟩ := hfound (not_le.mp hlt)
    obtain rfl := run_cons_inj hw (not_mem_of_digits h.1) hpre h.2
    rw [bytesAt] at hlate
    omega
  unfold parseString
  simp only [if_pos hin]
  rfl

/-- With digits and a colon it goes by the number as it wraps around. -/
theorem parseString_run (h : RunAt data off digits) (hin : bytesAt off digits ≤ size data) :
    parseString data off =
      if u32 (digitsValue digits) ≥ 2 ^ 31 then .error (.cannotConvert digits)
      else if u32 (bytesAt off digits + u32 (digitsValue digits)) > size data then
        .error .torrentIsIncomplete
      else do
        let str ← sliced data (bytesAt off digits) (u32 (digitsValue digits))
        let stop := u32 (bytesAt off digits + u32 (digitsValue digits))
        return (.value (.string str) (← sliced data off (sub32 stop off)), stop) := by
  have hlt : size data < 2 ^ 32 := size_lt
  have hscan : scanTo data 58 off = off + digits.length :=
    scanTo_of_prefix (not_mem_of_digits h.1) h.2 (by rw [bytesAt] at hin; omega)
  have hpos : u32 (off + digits.length + 1) = bytesAt off digits :=
    u32_of_lt (by rw [bytesAt] at hin; omega)
  have htext : (data.drop off).take (off + digits.length - off) = digits := by
    rw [Nat.add_sub_cancel_left]
    exact take_of_starts ((List.prefix_append _ _).trans h.2)
  have hnot : ¬ off + digits.length ≥ size data := by
    rw [bytesAt] at hin
    omega
  unfold parseString
  simp only [hscan, if_neg hnot, htext, parseLength_wraps h.1, hpos]
  by_cases hneg : u32 (digitsValue digits) ≥ 2 ^ 31
  · simp only [if_pos hneg]
    rfl
  · simp only [if_neg hneg]
    by_cases hfits : u32 (bytesAt off digits + u32 (digitsValue digits)) > size data
    · simp only [if_pos hfits]
      rfl
    · simp only [if_neg hfits]

/-- What is not accepted is thrown out. -/
theorem parseString_refused (h : RunAt data off digits) (hno : ¬ Accepted data off digits) :
    ∃ e, parseString data off = .error e ∧ e.thrown = true := by
  by_cases hin : bytesAt off digits ≤ size data
  · rw [parseString_run h hin]
    split_ifs with hneg hfits
    · exact ⟨_, rfl, rfl⟩
    · exact ⟨_, rfl, rfl⟩
    · exact absurd ⟨hin, not_le.mp hneg, not_lt.mp hfits⟩ hno
  · exact ⟨_, parseString_late h (not_le.mp hin), rfl⟩

/-- A number that does not wrap around the end: the bytes are those of the string. -/
theorem parseString_inside (h : RunAt data off digits) (hneg : u32 (digitsValue digits) < 2 ^ 31)
    (hfits : bytesAt off digits + u32 (digitsValue digits) ≤ size data) :
    parseString data off =
      .ok (.value (.string ((data.drop (bytesAt off digits)).take (u32 (digitsValue digits))))
          ((data.drop off).take (bytesAt off digits + u32 (digitsValue digits) - off)),
        bytesAt off digits + u32 (digitsValue digits)) := by
  have hlt : size data < 2 ^ 32 := size_lt
  have hoff : off ≤ bytesAt off digits := by
    rw [bytesAt]
    omega
  rw [parseString_run h (by omega), if_neg (by omega), u32_of_lt (by omega), if_neg (by omega),
    sliced_of_le hfits]
  have hsub : sub32 (bytesAt off digits + u32 (digitsValue digits)) off =
      bytesAt off digits + u32 (digitsValue digits) - off := sub32_of_le (by omega) (by omega)
  have hbytes : sliced data off (bytesAt off digits + u32 (digitsValue digits) - off) = .ok _ :=
    sliced_of_le (by omega)
  dsimp only
  rw [hsub, hbytes]
  rfl

/-- A number that does: an access outside the data, or a position that is not behind the string. -/
theorem parseString_around (h : RunAt data off digits) (hacc : Accepted data off digits)
    (hwrap : 2 ^ 32 ≤ bytesAt off digits + u32 (digitsValue digits)) :
    parseString data off = .error .slicedOutside ∨
      ∃ node stop, parseString data off = .ok (node, stop) ∧
        stop < bytesAt off digits := by
  have hlt : size data < 2 ^ 32 := size_lt
  obtain ⟨hin, hneg, hfits⟩ := hacc
  have hstop : u32 (bytesAt off digits + u32 (digitsValue digits)) < bytesAt off digits := by
    rw [u32]
    omega
  rw [parseString_run h hin, if_neg (not_le.mpr hneg), if_neg (not_lt.mpr hfits)]
  dsimp only
  unfold sliced
  by_cases hstr : bytesAt off digits + u32 (digitsValue digits) ≤ data.length
  · rw [if_pos hstr]
    by_cases hbytes : off + sub32 (u32 (bytesAt off digits + u32 (digitsValue digits))) off
        ≤ data.length
    · rw [if_pos hbytes]
      exact Or.inr ⟨_, _, rfl, hstop⟩
    · rw [if_neg hbytes]
      exact Or.inl rfl
  · rw [if_neg hstr]
    exact Or.inl rfl

/-! ## When it is right -/

/-- Where a string is, its number is that of an `int` and it ends within the size; where none
is, the number as it wraps around is not accepted. -/
def LengthRight (data : List UInt8) (off : ℕ) : Prop :=
  ∀ digits, RunAt data off digits →
    if digits ≠ [] ∧ bytesAt off digits + digitsValue digits ≤ data.length then
      digitsValue digits < 2 ^ 31 ∧ bytesAt off digits + digitsValue digits ≤ size data
    else ¬ Accepted data off digits

/-- Digits, a colon and enough bytes are a string. -/
theorem exists_stringAt_iff (h : RunAt data off digits) :
    (∃ ds str, StringAt data off ds str) ↔
      digits ≠ [] ∧ bytesAt off digits + digitsValue digits ≤ data.length := by
  have hcolon : off + digits.length + 1 ≤ data.length := by
    have hle := h.2.length_le
    rw [List.length_append, List.length_singleton, List.length_drop] at hle
    omega
  constructor
  · rintro ⟨ds, str, hstr⟩
    obtain rfl := h.unique hstr.run
    have hle := hstr.bytes.length_le
    rw [List.length_drop] at hle
    rw [hstr.value_eq, bytesAt]
    exact ⟨hstr.ne_nil, by omega⟩
  · rintro ⟨hne, hle⟩
    refine ⟨digits, (data.drop (bytesAt off digits)).take (digitsValue digits), h, hne, ?_, ?_⟩
    · rw [List.length_take_of_le]
      rw [List.length_drop]
      omega
    · exact List.take_prefix _ _

/-- Where no digits and colon are, nothing has to be found. -/
theorem reads_other (h : ∀ digits, ¬ RunAt data off digits) : Reads data off := by
  obtain ⟨e, he, hthrown⟩ := parseString_other h
  unfold Reads
  rw [he]
  exact ⟨hthrown, fun digits str hstr => h digits hstr.run⟩

/-- **With digits and a colon.** -/
theorem reads_run_iff (h : RunAt data off digits) : Reads data off ↔
    if digits ≠ [] ∧ bytesAt off digits + digitsValue digits ≤ data.length then
      digitsValue digits < 2 ^ 31 ∧ bytesAt off digits + digitsValue digits ≤ size data
    else ¬ Accepted data off digits := by
  have hlt : size data < 2 ^ 32 := size_lt
  have hstring := exists_stringAt_iff h
  unfold Reads
  by_cases hacc : Accepted data off digits
  · obtain ⟨hin, hneg, hfits⟩ := hacc
    rcases Nat.lt_or_ge (bytesAt off digits + u32 (digitsValue digits)) (2 ^ 32) with hno | hwrap
    · rw [u32_of_lt hno] at hfits
      rw [parseString_inside h hneg hfits]
      dsimp only
      constructor
      · rintro ⟨ds, str, bytes', hstr, hnode, hstop⟩
        obtain rfl := h.unique hstr.run
        have hvalue : digitsValue ds = u32 (digitsValue ds) := by
          rw [bytesAt] at hstop
          have := hstr.value_eq
          omega
        rw [if_pos (hstring.mp ⟨ds, str, hstr⟩), hvalue]
        exact ⟨hneg, hfits⟩
      · intro hcond
        split_ifs at hcond with hthere
        · obtain ⟨hsmall, -⟩ := hcond
          have hvalue : u32 (digitsValue digits) = digitsValue digits := u32_of_lt (by omega)
          have hroom : off + digits.length + 1 + digitsValue digits ≤ data.length := hthere.2
          refine ⟨digits, _, _, ⟨h, hthere.1, ?_, List.take_prefix _ _⟩, rfl, ?_⟩
          · rw [List.length_take_of_le, hvalue]
            rw [List.length_drop, hvalue]
            omega
          · rw [List.length_take_of_le, bytesAt]
            rw [List.length_drop, hvalue]
            omega
        · exact absurd ⟨hin, hneg, by rwa [u32_of_lt hno]⟩ hcond
    · refine iff_of_false ?_ ?_
      · rcases parseString_around h ⟨hin, hneg, hfits⟩ hwrap with heq | ⟨node, stop, heq, hstop⟩
        · rw [heq]
          rintro ⟨hthrown, -⟩
          cases hthrown
        · rw [heq]
          rintro ⟨ds, str, bytes, hstr, -, rfl⟩
          obtain rfl := h.unique hstr.run
          rw [bytesAt] at hstop
          omega
      · intro hcond
        split_ifs at hcond
        · rw [u32] at hwrap
          omega
        · exact hcond ⟨hin, hneg, hfits⟩
  · obtain ⟨e, he, hthrown⟩ := parseString_refused h hacc
    rw [he]
    dsimp only
    have hnone : (∀ ds str, ¬ StringAt data off ds str) ↔
        ¬ (digits ≠ [] ∧ bytesAt off digits + digitsValue digits ≤ data.length) := by
      rw [← hstring]
      push Not
      rfl
    rw [hnone]
    constructor
    · rintro ⟨-, hno⟩
      rw [if_neg hno]
      exact hacc
    · intro hcond
      refine ⟨hthrown, fun hthere => ?_⟩
      rw [if_pos hthere] at hcond
      obtain ⟨hsmall, hend⟩ := hcond
      have hvalue : u32 (digitsValue digits) = digitsValue digits := u32_of_lt (by omega)
      refine hacc ⟨by omega, by rwa [hvalue], ?_⟩
      rw [hvalue, u32_of_lt (by omega)]
      exact hend

/-- **What `parseString` accepts.**  It finds the string that is there, or throws where there is
none, exactly when the number in front of the colon is right. -/
theorem reads_iff (data : List UInt8) (off : ℕ) : Reads data off ↔ LengthRight data off := by
  by_cases hrun : ∃ digits, RunAt data off digits
  · obtain ⟨digits, h⟩ := hrun
    rw [reads_run_iff h]
    constructor
    · intro hright ds hds
      obtain rfl := h.unique hds
      exact hright
    · exact fun hright => hright digits h
  · exact iff_of_true (reads_other fun digits h => hrun ⟨digits, h⟩)
      fun digits h => absurd ⟨digits, h⟩ hrun

/-- **A length of 2³² + 1** is taken for 1. -/
theorem long_length_accepted : ¬ ∀ data off, Reads data off := by
  intro hall
  -- the bytes of "4294967297:a"
  have hreads := hall [52, 50, 57, 52, 57, 54, 55, 50, 57, 55, 58, 97] 0
  have hrun : RunAt [52, 50, 57, 52, 57, 54, 55, 50, 57, 55, 58, 97] 0
      [52, 50, 57, 52, 57, 54, 55, 50, 57, 55] := ⟨by decide +kernel, ⟨[97], rfl⟩⟩
  rw [reads_run_iff hrun, if_neg (by decide)] at hreads
  exact hreads ⟨by decide, by decide, by decide⟩

end BDecoder

end KTorrent
