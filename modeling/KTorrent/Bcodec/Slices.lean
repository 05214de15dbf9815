import KTorrent.Bcodec.LengthPrefix

/-!
# The bytes of a node

Every node keeps the slice of the data that it was decoded from.  The parsers
record the positions at different moments, and the size of the data and the
positions have 32 bits.

* `BNode.Exact` — the bytes of a node are a text of it.
* `decode_sound` — in data of less than 4 GiB the decoder finds such nodes, where
  their bytes stand.
* `decode_exact` — and it finds a node wherever its bytes stand.
* `Placed` — a node and its children are where they came from, and are decoded anew
  from their bytes alone.
* `placed_iff` — when all nodes that are decoded are.
* `decode_node` — what is emitted for a tree is decoded to its node.
-/

namespace KTorrent

/-- The value of the text of a number: one of 32 bits if it fits. -/
def intValue (text : List UInt8) : Option Value :=
  match toInt text with
  | some val => some (.int val)
  | none => (toLongLong text).map .int64

/-- The bytes of the node are a text of it, and so it is with its children. -/
inductive BNode.Exact : BNode → Prop where
  | int {text : List UInt8} {v : Value} (hend : 101 ∉ text) (hval : intValue text = some v) :
      Exact (.value v (105 :: (text ++ [101])))
  | string {digits str : List UInt8} (hdigits : ∀ c ∈ digits, isDigit c = true)
      (hne : digits ≠ []) (hlen : u32 (digitsValue digits) = str.length)
      (hsmall : str.length < 2 ^ 31) : Exact (.value (.string str) (digits ++ 58 :: str))
  | list {children : List BNode} (h : ∀ n ∈ children, Exact n) :
      Exact (.list children (108 :: (children.flatMap getBytes ++ [101])))
  /-- The entries with the bytes of their keys. -/
  | dict {entries : List (List UInt8 × List UInt8 × BNode)}
      (hkeys : ∀ e ∈ entries, Exact (.value (.string e.1) e.2.1))
      (hvalues : ∀ e ∈ entries, Exact e.2.2) :
      Exact (.dict (entries.map fun e => (e.1, e.2.2))
        (100 :: (entries.flatMap (fun e => e.2.1 ++ e.2.2.getBytes) ++ [101])))

namespace BDecoder

variable {data : List UInt8}

theorem prefix_append_of {u v : List UInt8} {pos : ℕ} (hu : u <+: data.drop pos)
    (hv : v <+: data.drop (pos + u.length)) : u ++ v <+: data.drop pos := by
  obtain ⟨rest, hrest⟩ := hu
  rw [← List.drop_drop, ← hrest, List.drop_left] at hv
  rw [← hrest]
  exact List.prefix_append_right_inj u |>.mpr hv

theorem prefix_cons_of {c : UInt8} {w : List UInt8} {pos : ℕ} (hc : data[pos]? = some c)
    (hw : w <+: data.drop (pos + 1)) : c :: w <+: data.drop pos := by
  obtain ⟨hlt, rfl⟩ := List.getElem?_eq_some_iff.mp hc
  rw [List.drop_eq_getElem_cons hlt, List.cons_prefix_cons]
  exact ⟨rfl, hw⟩

/-! ## Numbers and strings -/

/-- A number in the data. -/
theorem parseInt_text {off : ℕ} {text : List UInt8} (hend : 101 ∉ text)
    (h : 105 :: (text ++ [101]) <+: data.drop off) (hsize : off + text.length + 2 ≤ size data) :
    parseInt data off = match intValue text with
      | some v => .ok (.value v (105 :: (text ++ [101])), off + text.length + 2)
      | none => .error (.cannotConvert text) := by
  have hlt : size data < 2 ^ 32 := size_lt
  have htext := (prefix_cons h).2
  have hstart : u32 (off + 1) = off + 1 := u32_of_lt (by omega)
  have hscan : scanTo data 101 (off + 1) = off + 1 + text.length :=
    scanTo_of_prefix hend htext (by omega)
  have hin : ¬ off + 1 + text.length ≥ size data := by omega
  have hstop : u32 (off + 1 + text.length + 1) = off + text.length + 2 := by
    rw [u32_of_lt (by omega)]
    omega
  have hsub : sub32 (off + text.length + 2) off = text.length + 2 := by
    rw [sub32_of_le (by omega) (by omega)]
    omega
  have hslice : sliced data off (text.length + 2) = .ok (105 :: (text ++ [101])) := by
    rw [sliced_of_le (by omega)]
    have htake := take_of_starts h
    rw [List.length_cons, List.length_append, List.length_singleton] at htake
    rw [htake]
  have htake : (data.drop (off + 1)).take (off + 1 + text.length - (off + 1)) = text := by
    rw [Nat.add_sub_cancel_left]
    exact take_of_starts (prefix_append htext).1
  unfold parseInt intValue
  simp only [hstart, hscan, if_neg hin, htake, hstop, hsub, hslice]
  cases toInt text with
  | some val => rfl
  | none =>
    cases toLongLong text with
    | some bi => rfl
    | none => rfl

/-- A node with its bytes where it was decoded. -/
structure Found (data : List UInt8) (pos : ℕ) (node : BNode) (stop : ℕ) : Prop where
  exact_ : node.Exact
  bytes : node.getBytes <+: data.drop pos
  stop_eq : stop = pos + node.getBytes.length

theorem parseInt_sound {off stop : ℕ} {node : BNode} (hc : data[off]? = some 105)
    (hoff : off < size data) (h : parseInt data off = .ok (node, stop)) :
    Found data off node stop := by
  have hlt : size data < 2 ^ 32 := size_lt
  have hstart : u32 (off + 1) = off + 1 := u32_of_lt (by omega)
  have hin : scanTo data 101 (off + 1) < size data := by
    by_contra hge
    unfold parseInt at h
    simp only [hstart, if_pos (not_lt.mp hge)] at h
    cases h
  obtain ⟨hge, hfound⟩ := @scanTo_spec data 101 (off + 1)
  obtain ⟨text, hend, hlen, hpre⟩ := hfound hin
  have hbytes := prefix_cons_of hc hpre
  rw [parseInt_text hend hbytes (by omega)] at h
  split at h
  · rename_i v hval
    cases h
    refine ⟨.int hend hval, hbytes, ?_⟩
    simp only [BNode.getBytes, List.length_cons, List.length_append, List.length_nil]
    omega
  · cases h

theorem parseString_exact {off : ℕ} {digits str : List UInt8}
    (hdigits : ∀ c ∈ digits, isDigit c = true) (hlen : u32 (digitsValue digits) = str.length)
    (hsmall : str.length < 2 ^ 31) (h : digits ++ 58 :: str <+: data.drop off)
    (hsize : off + digits.length + 1 + str.length ≤ size data) :
    parseString data off = .ok (.value (.string str) (digits ++ 58 :: str),
      off + digits.length + 1 + str.length) := by
  have hsplit : (digits ++ [58]) ++ str <+: data.drop off := by
    rwa [List.append_assoc]
  obtain ⟨hrun, hstr⟩ := prefix_append hsplit
  rw [List.length_append, List.length_singleton] at hstr
  have hbytes := take_of_starts h
  rw [List.length_append, List.length_cons] at hbytes
  rw [parseString_inside ⟨hdigits, hrun⟩ (by rwa [hlen]) (by rwa [hlen])]
  rw [hlen, bytesAt, Nat.add_assoc off digits.length 1, take_of_starts hstr,
    show off + (digits.length + 1) + str.length - off = digits.length + (str.length + 1) by omega,
    hbytes]

theorem parseString_sound (hdata : data.length < 2 ^ 32) {off stop : ℕ} {node : BNode} {c : UInt8}
    (hc : data[off]? = some c) (hdigit : isDigit c = true)
    (h : parseString data off = .ok (node, stop)) : Found data off node stop := by
  have hlt : size data < 2 ^ 32 := size_lt
  obtain ⟨digits, hrun⟩ : ∃ digits, RunAt data off digits := by
    by_contra hno
    obtain ⟨e, he, -⟩ := parseString_other fun digits hrun => hno ⟨digits, hrun⟩
    rw [he] at h
    cases h
  have hacc : Accepted data off digits := by
    by_contra hno
    obtain ⟨e, he, -⟩ := parseString_refused hrun hno
    rw [he] at h
    cases h
  obtain ⟨hin, hneg, hfits⟩ := hacc
  -- in less than 4 GiB a string that goes around the end is outside the data
  have hno : bytesAt off digits + u32 (digitsValue digits) ≤ data.length := by
    by_contra hout
    rw [parseString_run hrun hin, if_neg (not_le.mpr hneg), if_neg (not_lt.mpr hfits), sliced,
      if_neg hout] at h
    cases h
  rw [u32_of_lt (by omega)] at hfits
  have hroom : ((data.drop (bytesAt off digits)).take (u32 (digitsValue digits))).length =
      u32 (digitsValue digits) := List.length_take_of_le (by rw [List.length_drop]; omega)
  have hne : digits ≠ [] := by
    rintro rfl
    have hcolon := (prefix_cons hrun.2).1
    rw [hc] at hcolon
    obtain rfl := Option.some.inj hcolon
    exact absurd hdigit (by decide)
  have hbytes : digits ++ 58 :: (data.drop (bytesAt off digits)).take (u32 (digitsValue digits))
      <+: data.drop off := by
    have hall := prefix_append_of hrun.2 (v := (data.drop (bytesAt off digits)).take
      (u32 (digitsValue digits))) (by
        rw [List.length_append, List.length_singleton, ← Nat.add_assoc]
        exact List.take_prefix _ _)
    rwa [List.append_assoc] at hall
  rw [bytesAt] at hfits
  rw [parseString_exact hrun.1 hroom.symm (by omega) hbytes (by omega)] at h
  cases h
  refine ⟨.string hrun.1 hne hroom.symm (by omega), hbytes, ?_⟩
  simp only [BNode.getBytes, List.length_append, List.length_cons]
  omega

/-! ## Lists and dictionaries -/

theorem closeAt_sound {off pos stop : ℕ} {bytes : List UInt8} (hle : off ≤ pos)
    (h : closeAt data off pos = .ok (bytes, stop)) :
    data[pos]? = some 101 ∧ stop = pos + 1 ∧ bytes = (data.drop off).take (pos + 1 - off) := by
  have hlt : size data < 2 ^ 32 := size_lt
  unfold closeAt at h
  by_cases hout : pos ≥ size data ∨ data[pos]? ≠ some 101
  · simp only [if_pos hout] at h
    cases h
  · have hin := not_or.mp hout
    have hstop : u32 (pos + 1) = pos + 1 := u32_of_lt (by omega)
    have hsub : sub32 (pos + 1) off = pos + 1 - off := sub32_of_le (by omega) (by omega)
    have hbytes : sliced data off (pos + 1 - off) = .ok _ := sliced_of_le (by omega)
    simp only [if_neg hout, hstop, hsub, hbytes] at h
    cases h
    exact ⟨not_not.mp hin.2, rfl, rfl⟩

/-- The end of a list or a dictionary, with the bytes. -/
theorem closeAt_exact {off pos : ℕ} (hle : off ≤ pos) (h : data[pos]? = some 101)
    (hsize : pos + 1 ≤ size data) :
    closeAt data off pos = .ok ((data.drop off).take (pos + 1 - off), pos + 1) := by
  obtain ⟨bytes, hclose⟩ := closeAt_of_prefix hle h hsize
  rw [hclose, (closeAt_sound hle hclose).2.2]

/-- The bytes of a list or a dictionary that is closed. -/
theorem close_bytes {off pos stop : ℕ} {c : UInt8} {w bytes : List UInt8}
    (hc : data[off]? = some c) (hw : w <+: data.drop (off + 1)) (hpos : pos = off + 1 + w.length)
    (h : closeAt data off pos = .ok (bytes, stop)) :
    bytes = c :: (w ++ [101]) ∧ c :: (w ++ [101]) <+: data.drop off ∧ stop = off + w.length + 2 := by
  obtain ⟨hend, rfl, hbytes⟩ := closeAt_sound (by omega) h
  have hall : c :: (w ++ [101]) <+: data.drop off := by
    refine prefix_cons_of hc (prefix_append_of hw ?_)
    rw [← hpos]
    exact prefix_cons_of hend List.nil_prefix
  have htake := take_of_starts hall
  rw [List.length_cons, List.length_append, List.length_singleton] at htake
  refine ⟨?_, hall, by omega⟩
  rw [hbytes, show pos + 1 - off = w.length + 1 + 1 by omega, htake]

/-- What is decoded inside a list or a dictionary is found there. -/
structure Sound (data : List UInt8) (dec : ℕ → Except DecodeError (Option BNode × ℕ)) : Prop where
  found : ∀ pos node stop, dec pos = .ok (some node, stop) → Found data pos node stop
  node : ∀ pos stop, inside data pos = true → dec pos ≠ .ok (none, stop)

section Loops

variable {dec : ℕ → Except DecodeError (Option BNode × ℕ)} (hdec : Sound data dec)

include hdec

theorem listLoop_sound (fuel : ℕ) {pos stop : ℕ} {children items : List BNode}
    (h : listLoop data dec fuel pos children = .ok (items, stop)) :
    ∃ ns, items = children ++ ns ∧ (∀ n ∈ ns, n.Exact) ∧
      ns.flatMap BNode.getBytes <+: data.drop pos ∧
      stop = pos + (ns.flatMap BNode.getBytes).length := by
  induction fuel generalizing pos children with
  | zero => cases h
  | succ fuel ih =>
    rw [listLoop] at h
    split at h
    · rename_i hin
      simp only [bind, Except.bind] at h
      cases hitem : dec pos with
      | error e =>
        rw [hitem] at h
        cases h
      | ok r =>
        rw [hitem] at h
        obtain ⟨node, next⟩ := r
        cases node with
        | none => exact absurd hitem (hdec.node pos next hin)
        | some node =>
          obtain ⟨hexact, hbytes, rfl⟩ := hdec.found pos node next hitem
          obtain ⟨ns, rfl, hns, hpre, rfl⟩ := ih h
          refine ⟨node :: ns, by simp, ?_, ?_, ?_⟩
          · rintro n (_ | ⟨_, hn⟩)
            · exact hexact
            · exact hns n hn
          · rw [List.flatMap_cons]
            exact prefix_append_of hbytes hpre
          · rw [List.flatMap_cons, List.length_append, Nat.add_assoc]
    · cases h
      exact ⟨[], by simp, by simp, List.nil_prefix, rfl⟩

theorem dictLoop_sound (fuel : ℕ) {pos stop : ℕ} {children items : BDictNode}
    (h : dictLoop data dec fuel pos children = .ok (items, stop)) :
    ∃ es : List (List UInt8 × List UInt8 × BNode),
      items = children ++ es.map (fun e => (e.1, e.2.2)) ∧
      (∀ e ∈ es, BNode.Exact (.value (.string e.1) e.2.1)) ∧ (∀ e ∈ es, e.2.2.Exact) ∧
      es.flatMap (fun e => e.2.1 ++ e.2.2.getBytes) <+: data.drop pos ∧
      stop = pos + (es.flatMap fun e => e.2.1 ++ e.2.2.getBytes).length := by
  induction fuel generalizing pos children with
  | zero => cases h
  | succ fuel ih =>
    rw [dictLoop] at h
    split at h
    · rename_i hin
      simp only [bind, Except.bind] at h
      cases hkey : dec pos with
      | error e =>
        rw [hkey] at h
        cases h
      | ok r =>
        rw [hkey] at h
        obtain ⟨kn, next⟩ := r
        cases kn with
        | none => exact absurd hkey (hdec.node pos next hin)
        | some kn =>
          obtain ⟨hkexact, hkbytes, rfl⟩ := hdec.found pos kn next hkey
          obtain ⟨key, kb, rfl⟩ : ∃ key kb, kn = .value (.string key) kb := by
            cases kn with
            | value v kb =>
              cases v with
              | string key => exact ⟨key, kb, rfl⟩
              | int _ => cases h
              | int64 _ => cases h
            | list _ _ => cases h
            | dict _ _ => cases h
          simp only [keyOf, BNode.getBytes] at h hkbytes
          cases hvalue : dec (pos + kb.length) with
          | error e =>
            rw [hvalue] at h
            cases h
          | ok r =>
            rw [hvalue] at h
            obtain ⟨value, next⟩ := r
            cases value with
            | none => cases h
            | some value =>
              obtain ⟨hvexact, hvbytes, rfl⟩ := hdec.found _ value next hvalue
              obtain ⟨es, rfl, hkeys, hvalues, hpre, rfl⟩ := ih h
              refine ⟨(key, kb, value) :: es, by simp, ?_, ?_, ?_, ?_⟩
              · rintro e (_ | ⟨_, he⟩)
                · exact hkexact
                · exact hkeys e he
              · rintro e (_ | ⟨_, he⟩)
                · exact hvexact
                · exact hvalues e he
              · rw [List.flatMap_cons]
                refine prefix_append_of (prefix_append_of hkbytes hvbytes) ?_
                rwa [List.length_append, ← Nat.add_assoc]
              · rw [List.flatMap_cons, List.length_append, List.length_append]
                dsimp only
                omega
    · cases h
      exact ⟨[], by simp, by simp, by simp, List.nil_prefix, rfl⟩

end Loops

/-! ## The decoder -/

theorem found_ne_none {r : Except DecodeError (BNode × ℕ)} {stop : ℕ} :
    found r ≠ .ok (none, stop) := by
  cases r with
  | error e => exact nofun
  | ok r => exact nofun

theorem decode_ne_none {fuel pos stop : ℕ} (hin : inside data pos = true) :
    decode data fuel pos ≠ .ok (none, stop) := by
  cases fuel with
  | zero =>
    intro h
    cases h
  | succ fuel =>
    have hpos : pos < size data := by
      rw [inside, Bool.and_eq_true, decide_eq_true_eq] at hin
      exact hin.1
    have hlt : pos < data.length := lt_of_lt_of_le hpos size_le
    rw [decode_eq (List.getElem?_eq_getElem hlt) hpos]
    split_ifs
    · exact found_ne_none
    · exact found_ne_none
    · exact found_ne_none
    · exact found_ne_none
    · intro h
      cases h

/-- **In less than 4 GiB a node has the bytes that it was decoded from.** -/
theorem decode_sound (hdata : data.length < 2 ^ 32) (fuel : ℕ) {pos stop : ℕ} {node : BNode}
    (h : decode data fuel pos = .ok (some node, stop)) : Found data pos node stop := by
  induction fuel generalizing pos stop node with
  | zero => cases h
  | succ fuel ih =>
    have hdec : Sound data (decode data fuel) :=
      ⟨fun pos node stop => ih, fun pos stop => decode_ne_none⟩
    have hlt : size data < 2 ^ 32 := size_lt
    by_cases hpos : pos ≥ size data
    · rw [decode, if_pos hpos] at h
      cases h
    · have hin : pos < data.length := lt_of_lt_of_le (not_le.mp hpos) size_le
      have hc := List.getElem?_eq_getElem hin
      have hstart : u32 (pos + 1) = pos + 1 := u32_of_lt (by omega)
      rw [decode_eq hc (not_le.mp hpos)] at h
      split_ifs at h with hd hl hi hdigit
      · -- a dictionary
        replace h := found_eq_ok h
        unfold parseDict at h
        simp only [bind, Except.bind, pure, Except.pure, hstart] at h
        cases hloop : dictLoop data (decode data fuel) fuel (pos + 1) [] with
        | error e =>
          rw [hloop] at h
          cases h
        | ok r =>
          rw [hloop] at h
          obtain ⟨es, hes, hkeys, hvalues, hpre, hstop⟩ := dictLoop_sound hdec fuel hloop
          rw [List.nil_append] at hes
          dsimp only at h
          cases hclose : closeAt data pos r.2 with
          | error e =>
            rw [hclose] at h
            cases h
          | ok q =>
            rw [hclose] at h
            obtain ⟨hq, hbytes, hend⟩ := close_bytes hc hpre hstop hclose
            cases h
            rw [hd] at hq hbytes
            rw [hes, hq]
            refine ⟨.dict hkeys hvalues, hbytes, ?_⟩
            rw [BNode.getBytes, List.length_cons, List.length_append, List.length_singleton]
            omega
      · -- a list
        replace h := found_eq_ok h
        unfold parseList at h
        simp only [bind, Except.bind, pure, Except.pure, hstart] at h
        cases hloop : listLoop data (decode data fuel) fuel (pos + 1) [] with
        | error e =>
          rw [hloop] at h
          cases h
        | ok r =>
          rw [hloop] at h
          obtain ⟨ns, hns, hexact, hpre, hstop⟩ := listLoop_sound hdec fuel hloop
          rw [List.nil_append] at hns
          dsimp only at h
          cases hclose : closeAt data pos r.2 with
          | error e =>
            rw [hclose] at h
            cases h
          | ok q =>
            rw [hclose] at h
            obtain ⟨hq, hbytes, hend⟩ := close_bytes hc hpre hstop hclose
            cases h
            rw [hl] at hq hbytes
            rw [hns, hq]
            refine ⟨.list hexact, hbytes, ?_⟩
            rw [BNode.getBytes, List.length_cons, List.length_append, List.length_singleton]
            omega
      · rw [hi] at hc
        exact parseInt_sound hc (not_le.mp hpos) (found_eq_ok h)
      · exact parseString_sound hdata hc hdigit (found_eq_ok h)

/-! ## Decoding the bytes anew -/

end BDecoder

/-- Bytes of a node begin with no `e`, and are at least two. -/
theorem BNode.Exact.head {node : BNode} (h : node.Exact) :
    ∃ c w, node.getBytes = c :: w ∧ w ≠ [] ∧ c ≠ 101 := by
  cases h with
  | int => exact ⟨_, _, rfl, by simp, by decide⟩
  | @string digits str hdigits hne =>
    obtain ⟨c, w, rfl⟩ := List.exists_cons_of_ne_nil hne
    refine ⟨c, w ++ 58 :: str, rfl, by simp, ?_⟩
    rintro rfl
    exact absurd (hdigits 101 List.mem_cons_self) (by decide)
  | list => exact ⟨_, _, rfl, by simp, by decide⟩
  | dict => exact ⟨_, _, rfl, by simp, by decide⟩

theorem BNode.Exact.two_le {node : BNode} (h : node.Exact) : 2 ≤ node.getBytes.length := by
  obtain ⟨c, w, hcw, hw, -⟩ := h.head
  have hpos := List.length_pos_iff.mpr hw
  rw [hcw, List.length_cons]
  omega

namespace BDecoder

/-- A node is decoded where its bytes stand, with as much fuel as it has bytes. -/
def DecodedAt (node : BNode) : Prop :=
  ∀ (data : List UInt8) (pos : ℕ), node.getBytes <+: data.drop pos →
    pos + node.getBytes.length ≤ size data → ∀ fuel ≥ node.getBytes.length,
      decode data fuel pos = .ok (some node, pos + node.getBytes.length)

/-- A node stands inside a list or a dictionary, not its end. -/
theorem inside_of_exact {node : BNode} (h : node.Exact) {pos : ℕ}
    (hpre : node.getBytes <+: data.drop pos) (hsize : pos + node.getBytes.length ≤ size data) :
    inside data pos = true := by
  obtain ⟨c, w, hcw, -, hc⟩ := h.head
  have hlen := h.two_le
  rw [hcw] at hpre
  exact inside_of_ne (by omega) (prefix_cons hpre).1 hc

theorem listLoop_exact (ns : List BNode) (hns : ∀ n ∈ ns, n.Exact) (hdec : ∀ n ∈ ns, DecodedAt n)
    {pos : ℕ} (hpre : ns.flatMap BNode.getBytes ++ [101] <+: data.drop pos)
    (hsize : pos + (ns.flatMap BNode.getBytes).length + 1 ≤ size data) {fuel n : ℕ}
    (hfuel : (ns.flatMap BNode.getBytes).length ≤ fuel)
    (hn : (ns.flatMap BNode.getBytes).length < n) (children : List BNode) :
    listLoop data (decode data fuel) n pos children =
      .ok (children ++ ns, pos + (ns.flatMap BNode.getBytes).length) := by
  induction ns generalizing pos n children with
  | nil =>
    obtain ⟨n, rfl⟩ := Nat.exists_eq_succ_of_ne_zero (by omega : n ≠ 0)
    rw [listLoop, inside_of_end (prefix_cons hpre).1, List.append_nil]
    rfl
  | cons node ns ih =>
    rw [List.flatMap_cons, List.append_assoc] at hpre
    rw [List.flatMap_cons, List.length_append] at hsize hfuel hn ⊢
    obtain ⟨hnode, hrest⟩ := prefix_append hpre
    have hexact := hns node List.mem_cons_self
    have hlen := hexact.two_le
    obtain ⟨n, rfl⟩ := Nat.exists_eq_succ_of_ne_zero (by omega : n ≠ 0)
    rw [listLoop, inside_of_exact hexact hnode (by omega), if_pos rfl]
    simp only [bind, Except.bind, Option.toList_some,
      hdec node List.mem_cons_self data pos hnode (by omega) fuel (by omega)]
    rw [ih (fun m hm => hns m (List.mem_cons_of_mem _ hm))
      (fun m hm => hdec m (List.mem_cons_of_mem _ hm)) hrest (by omega) (by omega) (by omega),
      List.append_assoc, List.singleton_append, Nat.add_assoc]

theorem dictLoop_exact (es : List (List UInt8 × List UInt8 × BNode))
    (hkeys : ∀ e ∈ es, BNode.Exact (.value (.string e.1) e.2.1))
    (hkdec : ∀ e ∈ es, DecodedAt (.value (.string e.1) e.2.1))
    (hvalues : ∀ e ∈ es, e.2.2.Exact) (hvdec : ∀ e ∈ es, DecodedAt e.2.2)
    {pos : ℕ} (hpre : es.flatMap (fun e => e.2.1 ++ e.2.2.getBytes) ++ [101] <+: data.drop pos)
    (hsize : pos + (es.flatMap fun e => e.2.1 ++ e.2.2.getBytes).length + 1 ≤ size data) {fuel n : ℕ}
    (hfuel : (es.flatMap fun e => e.2.1 ++ e.2.2.getBytes).length ≤ fuel)
    (hn : (es.flatMap fun e => e.2.1 ++ e.2.2.getBytes).length < n) (children : BDictNode) :
    dictLoop data (decode data fuel) n pos children =
      .ok (children ++ es.map (fun e => (e.1, e.2.2)),
        pos + (es.flatMap fun e => e.2.1 ++ e.2.2.getBytes).length) := by
  induction es generalizing pos n children with
  | nil =>
    obtain ⟨n, rfl⟩ := Nat.exists_eq_succ_of_ne_zero (by omega : n ≠ 0)
    rw [dictLoop, inside_of_end (prefix_cons hpre).1, List.map_nil, List.append_nil]
    rfl
  | cons e es ih =>
    obtain ⟨key, kb, node⟩ := e
    rw [List.flatMap_cons, List.append_assoc, List.append_assoc] at hpre
    rw [List.flatMap_cons, List.length_append, List.length_append] at hsize hfuel hn ⊢
    dsimp only at hpre hsize hfuel hn ⊢
    obtain ⟨hkey, hpre⟩ := prefix_append hpre
    obtain ⟨hnode, hrest⟩ := prefix_append hpre
    have hkexact := hkeys _ List.mem_cons_self
    have hklen := hkexact.two_le
    have hlen := (hvalues _ List.mem_cons_self).two_le
    dsimp only at hlen
    dsimp only [BNode.getBytes] at hklen
    have hkd : decode data fuel pos = .ok (some (.value (.string key) kb), pos + kb.length) :=
      hkdec _ List.mem_cons_self data pos hkey (by dsimp only [BNode.getBytes]; omega) fuel
        (by dsimp only [BNode.getBytes]; omega)
    have hvd : decode data fuel (pos + kb.length) =
        .ok (some node, pos + kb.length + node.getBytes.length) :=
      hvdec _ List.mem_cons_self data (pos + kb.length) hnode (by dsimp only; omega) fuel
        (by dsimp only; omega)
    obtain ⟨n, rfl⟩ := Nat.exists_eq_succ_of_ne_zero (by omega : n ≠ 0)
    rw [dictLoop, inside_of_exact hkexact hkey (by dsimp only [BNode.getBytes]; omega), if_pos rfl]
    simp only [bind, Except.bind, hkd, keyOf, hvd]
    rw [ih (fun e he => hkeys e (List.mem_cons_of_mem _ he))
      (fun e he => hkdec e (List.mem_cons_of_mem _ he))
      (fun e he => hvalues e (List.mem_cons_of_mem _ he))
      (fun e he => hvdec e (List.mem_cons_of_mem _ he)) hrest (by omega) (by omega) (by omega)]
    simp only [List.append_assoc, List.singleton_append, List.map_cons, Nat.add_assoc]

/-- **A node is decoded wherever its bytes stand**, whatever is around them. -/
theorem decode_exact {node : BNode} (h : node.Exact) : DecodedAt node := by
  induction h with
  | @int text v hend hval =>
    intro data pos hpre hsize fuel hfuel
    have hlen : (105 :: (text ++ [101])).length = text.length + 2 := by simp
    dsimp only [BNode.getBytes] at hpre hsize hfuel ⊢
    rw [hlen] at hsize hfuel ⊢
    obtain ⟨fuel, rfl⟩ := Nat.exists_eq_succ_of_ne_zero (by omega : fuel ≠ 0)
    rw [Nat.succ_eq_add_one, decode_eq (prefix_cons hpre).1 (by omega), if_neg (by decide),
      if_neg (by decide), if_pos rfl, parseInt_text hend hpre (by omega), hval]
    rfl
  | @string digits str hdigits hne hlen hsmall =>
    intro data pos hpre hsize fuel hfuel
    have hbytes : (digits ++ 58 :: str).length = digits.length + 1 + str.length := by
      rw [List.length_append, List.length_cons]
      omega
    dsimp only [BNode.getBytes] at hpre hsize hfuel ⊢
    rw [hbytes] at hsize hfuel ⊢
    obtain ⟨fuel, rfl⟩ := Nat.exists_eq_succ_of_ne_zero (by omega : fuel ≠ 0)
    obtain ⟨c, w, rfl⟩ := List.exists_cons_of_ne_nil hne
    have hc := hdigits c List.mem_cons_self
    have hother : ∀ d : UInt8, isDigit d = false → c ≠ d := by
      rintro d hd rfl
      rw [hc] at hd
      cases hd
    rw [Nat.succ_eq_add_one, decode_eq (prefix_cons hpre).1 (by omega),
      if_neg (hother 100 (by decide)), if_neg (hother 108 (by decide)),
      if_neg (hother 105 (by decide)), if_pos hc,
      parseString_exact hdigits hlen hsmall hpre (by omega)]
    simp only [found, Except.map]
    congr 2
    omega
  | @list children hns ih =>
    intro data pos hpre hsize fuel hfuel
    have hlt : size data < 2 ^ 32 := size_lt
    have hlen : (108 :: (children.flatMap BNode.getBytes ++ [101])).length =
        (children.flatMap BNode.getBytes).length + 2 := by simp
    have hbytes := take_of_starts hpre
    rw [BNode.getBytes] at hpre hsize hfuel hbytes ⊢
    rw [hlen] at hsize hfuel hbytes ⊢
    obtain ⟨hl, hitems⟩ := prefix_cons hpre
    have hend := (prefix_cons (prefix_append hitems).2).1
    obtain ⟨fuel, rfl⟩ := Nat.exists_eq_succ_of_ne_zero (by omega : fuel ≠ 0)
    have hclose := closeAt_exact (by omega : pos ≤ pos + 1 + _) hend (by omega)
    rw [Nat.succ_eq_add_one, decode_eq hl (by omega), if_neg (by decide), if_pos rfl, parseList,
      u32_of_lt (by omega), listLoop_exact children hns ih hitems (by omega) (by omega) (by omega)]
    simp only [found, bind, Except.bind, hclose]
    simp only [pure, Except.pure, Except.map, List.nil_append]
    rw [show pos + 1 + (children.flatMap BNode.getBytes).length + 1 - pos =
      (children.flatMap BNode.getBytes).length + 2 by omega, hbytes]
    congr 2
    omega
  | @dict entries hkeys hvalues ihk ihv =>
    intro data pos hpre hsize fuel hfuel
    have hlt : size data < 2 ^ 32 := size_lt
    have hlen : (100 :: (entries.flatMap (fun e => e.2.1 ++ e.2.2.getBytes) ++ [101])).length =
        (entries.flatMap fun e => e.2.1 ++ e.2.2.getBytes).length + 2 := by simp
    have hbytes := take_of_starts hpre
    rw [BNode.getBytes] at hpre hsize hfuel hbytes ⊢
    rw [hlen] at hsize hfuel hbytes ⊢
    obtain ⟨hd, hentries⟩ := prefix_cons hpre
    have hend := (prefix_cons (prefix_append hentries).2).1
    obtain ⟨fuel, rfl⟩ := Nat.exists_eq_succ_of_ne_zero (by omega : fuel ≠ 0)
    have hclose := closeAt_exact (by omega : pos ≤ pos + 1 + _) hend (by omega)
    rw [Nat.succ_eq_add_one, decode_eq hd (by omega), if_pos rfl, parseDict, u32_of_lt (by omega),
      dictLoop_exact entries hkeys ihk hvalues ihv hentries (by omega) (by omega) (by omega)]
    simp only [found, bind, Except.bind, hclose]
    simp only [pure, Except.pure, Except.map, List.nil_append]
    rw [show pos + 1 + (entries.flatMap fun e => e.2.1 ++ e.2.2.getBytes).length + 1 - pos =
      (entries.flatMap fun e => e.2.1 ++ e.2.2.getBytes).length + 2 by omega, hbytes]
    congr 2
    omega

end BDecoder

/-! ## The node of a tree -/

/-- The value that a number is decoded to: one of 32 bits if it fits. -/
def numberValue (n : ℕ) : Value := if n < 2 ^ 31 then .int n else .int64 n

namespace BTree

mutual

/-- The node that a tree is decoded to. -/
def node : BTree → BNode
  | .string s => .value (.string s.1) (encodeBytes s.1)
  | .int n => .value (numberValue n) (105 :: (number n ++ [101]))
  | .list items => .list (nodes items) (108 :: (encodeItems items ++ [101]))
  | .dict entries => .dict (nodeEntries entries) (100 :: (encodeEntries entries ++ [101]))

/-- The nodes of the items of a list. -/
def nodes : List BTree → List BNode
  | [] => []
  | t :: ts => node t :: nodes ts

/-- The nodes of the entries of a dictionary. -/
def nodeEntries : List (BString × BTree) → BDictNode
  | [] => []
  | (key, t) :: es => (key.1, node t) :: nodeEntries es

end

theorem getBytes_node (t : BTree) : t.node.getBytes = t.encode := by
  cases t with
  | string s => rfl
  | int n => rfl
  | list items => rfl
  | dict entries => rfl

theorem encodeItems_eq (ts : List BTree) : encodeItems ts = (nodes ts).flatMap BNode.getBytes := by
  induction ts with
  | nil => rfl
  | cons t ts ih => rw [encodeItems, nodes, List.flatMap_cons, getBytes_node, ih]

/-- The entries of a dictionary with the bytes of their keys. -/
def keyedNodes (es : List (BString × BTree)) : List (List UInt8 × List UInt8 × BNode) :=
  es.map fun e => (e.1.1, encodeBytes e.1.1, e.2.node)

theorem nodeEntries_eq (es : List (BString × BTree)) :
    nodeEntries es = (keyedNodes es).map fun e => (e.1, e.2.2) := by
  induction es with
  | nil => rfl
  | cons e es ih =>
    rw [nodeEntries, ih]
    rfl

theorem encodeEntries_eq (es : List (BString × BTree)) :
    encodeEntries es = (keyedNodes es).flatMap fun e => e.2.1 ++ e.2.2.getBytes := by
  induction es with
  | nil => rfl
  | cons e es ih =>
    rw [encodeEntries, ih, keyedNodes, keyedNodes, List.map_cons, List.flatMap_cons, getBytes_node,
      List.append_assoc]

theorem exact_string (s : BString) :
    BNode.Exact (.value (.string s.1) (encodeBytes s.1)) := by
  refine .string (isDigit_of_mem_number _) (number_ne_nil _) ?_ s.2
  rw [digitsValue_number, u32_of_lt (s.2.trans (by norm_num))]

theorem intValue_number {n : ℕ} (h : n < 2 ^ 63) : intValue (number n) = some (numberValue n) := by
  unfold intValue numberValue
  rcases lt_or_ge n (2 ^ 31) with hsmall | hbig
  · rw [if_pos hsmall, toInt, toIntegral_number hsmall]
  · rw [if_neg (not_lt.mpr hbig), toInt, toIntegral_number_of_ge hbig, toLongLong,
      toIntegral_number h]
    rfl

mutual

/-- The bytes of the node are its text. -/
theorem node_exact (t : BTree) : t.node.Exact := by
  cases t with
  | string s => exact exact_string s
  | int n => exact .int (BDecoder.not_mem_number n.1 (by decide)) (intValue_number n.2)
  | list items =>
    rw [node, encodeItems_eq]
    exact .list (nodes_exact items)
  | dict entries =>
    rw [node, encodeEntries_eq, nodeEntries_eq]
    refine .dict (fun e he => ?_) (nodeEntries_exact entries)
    obtain ⟨e', -, rfl⟩ := List.mem_map.mp he
    exact exact_string e'.1

theorem nodes_exact (ts : List BTree) : ∀ n ∈ nodes ts, n.Exact := by
  cases ts with
  | nil => exact fun n hn => by cases hn
  | cons t ts =>
    intro n hn
    rcases List.mem_cons.mp hn with rfl | hn
    · exact node_exact t
    · exact nodes_exact ts n hn

theorem nodeEntries_exact (es : List (BString × BTree)) : ∀ e ∈ keyedNodes es, e.2.2.Exact := by
  cases es with
  | nil => exact fun e he => by cases he
  | cons e' es =>
    intro e he
    rcases List.mem_cons.mp he with rfl | he
    · exact node_exact e'.2
    · exact nodeEntries_exact es e he

end

/-- **What is emitted is decoded to the node of the tree**, bytes and all, with as much fuel as
there are bytes. -/
theorem decode_node (t : BTree) (h : t.emitted.length < 2 ^ 32) {fuel : ℕ}
    (hfuel : t.emitted.length ≤ fuel) :
    BDecoder.decode t.emitted fuel 0 = .ok (some t.node, t.emitted.length) := by
  have hbytes : t.node.getBytes = t.emitted := by rw [getBytes_node, emitted_eq]
  have hsize : BDecoder.size t.emitted = t.emitted.length := Nat.mod_eq_of_lt h
  have hdec := BDecoder.decode_exact t.node_exact t.emitted 0
    (by rw [hbytes, List.drop_zero]) (by rw [hbytes, hsize, Nat.zero_add]) fuel (by rwa [hbytes])
  rwa [hbytes, Nat.zero_add] at hdec

end BTree

namespace BDecoder

variable {data : List UInt8}

/-! ## Where the nodes are -/

/-- The node has the slice of the data at `a`, and a new decoder that is given it alone returns
the node and comes to its end. -/
structure Here (data : List UInt8) (a : ℕ) (node : BNode) : Prop where
  inside : a + node.getBytes.length ≤ data.length
  slice : node.getBytes = (data.drop a).take node.getBytes.length
  anew : ∃ fuel, decode node.getBytes fuel 0 = .ok (some node, node.getBytes.length)

-- Behind the first byte of a list its children follow one another up to its last byte, so that
-- their slices are disjoint, in order and strictly inside; in a dictionary the keys are between them.
mutual

/-- A node and its children are where they came from, the node at `a`. -/
def Placed (data : List UInt8) : BNode → ℕ → Prop
  | .value v bytes, a => Here data a (.value v bytes)
  | .list children bytes, a =>
    Here data a (.list children bytes) ∧ PlacedItems data children (a + 1) (a + bytes.length - 1)
  | .dict children bytes, a =>
    Here data a (.dict children bytes) ∧ PlacedEntries data children (a + 1) (a + bytes.length - 1)

/-- The children of a list, from `lo` up to `hi`. -/
def PlacedItems (data : List UInt8) : List BNode → ℕ → ℕ → Prop
  | [], lo, hi => lo = hi
  | n :: ns, lo, hi => Placed data n lo ∧ PlacedItems data ns (lo + n.getBytes.length) hi

/-- The entries of a dictionary, from `lo` up to `hi`. -/
def PlacedEntries (data : List UInt8) : List (List UInt8 × BNode) → ℕ → ℕ → Prop
  | [], lo, hi => lo = hi
  | (key, n) :: es, lo, hi =>
    ∃ kb, Here data lo (.value (.string key) kb) ∧ Placed data n (lo + kb.length) ∧
      PlacedEntries data es (lo + kb.length + n.getBytes.length) hi

end

theorem here_of_exact {node : BNode} (h : node.Exact) {a : ℕ} (hpre : node.getBytes <+: data.drop a)
    (hsmall : node.getBytes.length < 2 ^ 32) : Here data a node := by
  have hlen := hpre.length_le
  have htwo := h.two_le
  rw [List.length_drop] at hlen
  refine ⟨by omega, (take_of_starts hpre).symm, node.getBytes.length, ?_⟩
  have hsize : size node.getBytes = node.getBytes.length := u32_of_lt hsmall
  have hdec := decode_exact h node.getBytes 0 (by rw [List.drop_zero]) (by omega) _ le_rfl
  rwa [Nat.zero_add] at hdec

theorem placedItems_of {ns : List BNode} (hplaced : ∀ n ∈ ns, ∀ a, n.getBytes <+: data.drop a →
    n.getBytes.length < 2 ^ 32 → Placed data n a) {lo : ℕ}
    (hpre : ns.flatMap BNode.getBytes <+: data.drop lo)
    (hsmall : (ns.flatMap BNode.getBytes).length < 2 ^ 32) :
    PlacedItems data ns lo (lo + (ns.flatMap BNode.getBytes).length) := by
  induction ns generalizing lo with
  | nil => rfl
  | cons n ns ih =>
    rw [List.flatMap_cons] at hpre
    rw [List.flatMap_cons, List.length_append] at hsmall ⊢
    obtain ⟨hn, hns⟩ := prefix_append hpre
    refine ⟨hplaced n List.mem_cons_self lo hn (by omega), ?_⟩
    have hrest := ih (fun m hm => hplaced m (List.mem_cons_of_mem _ hm)) hns (by omega)
    rwa [Nat.add_assoc] at hrest

theorem placedEntries_of {es : List (List UInt8 × List UInt8 × BNode)}
    (hkeys : ∀ e ∈ es, BNode.Exact (.value (.string e.1) e.2.1))
    (hplaced : ∀ e ∈ es, ∀ a, e.2.2.getBytes <+: data.drop a →
      e.2.2.getBytes.length < 2 ^ 32 → Placed data e.2.2 a) {lo : ℕ}
    (hpre : es.flatMap (fun e => e.2.1 ++ e.2.2.getBytes) <+: data.drop lo)
    (hsmall : (es.flatMap fun e => e.2.1 ++ e.2.2.getBytes).length < 2 ^ 32) :
    PlacedEntries data (es.map fun e => (e.1, e.2.2)) lo
      (lo + (es.flatMap fun e => e.2.1 ++ e.2.2.getBytes).length) := by
  induction es generalizing lo with
  | nil => rfl
  | cons e es ih =>
    obtain ⟨key, kb, node⟩ := e
    rw [List.flatMap_cons, List.append_assoc] at hpre
    rw [List.flatMap_cons, List.length_append, List.length_append] at hsmall ⊢
    dsimp only at hpre hsmall ⊢
    obtain ⟨hkey, hpre⟩ := prefix_append hpre
    obtain ⟨hnode, hrest⟩ := prefix_append hpre
    refine ⟨kb, here_of_exact (hkeys _ List.mem_cons_self) hkey ?_,
      hplaced _ List.mem_cons_self _ hnode ?_, ?_⟩
    · dsimp only [BNode.getBytes]
      omega
    · dsimp only
      omega
    · have hplacedrest := ih (fun e he => hkeys e (List.mem_cons_of_mem _ he))
        (fun e he => hplaced e (List.mem_cons_of_mem _ he)) hrest (by omega)
      rwa [Nat.add_assoc lo kb.length, Nat.add_assoc lo, ← Nat.add_assoc lo] at hplacedrest

/-- **A node with its bytes is placed where they stand.** -/
theorem placed_of_exact {node : BNode} (h : node.Exact) : ∀ a, node.getBytes <+: data.drop a →
    node.getBytes.length < 2 ^ 32 → Placed data node a := by
  induction h with
  | int hend hval => exact fun a hpre hsmall => here_of_exact (.int hend hval) hpre hsmall
  | string hdigits hne hlen hstr =>
    exact fun a hpre hsmall => here_of_exact (.string hdigits hne hlen hstr) hpre hsmall
  | @list children hns ih =>
    intro a hpre hsmall
    refine ⟨here_of_exact (.list hns) hpre hsmall, ?_⟩
    rw [BNode.getBytes] at hpre hsmall
    have hitems := (prefix_append (prefix_cons hpre).2).1
    rw [List.length_cons, List.length_append, List.length_singleton] at hsmall ⊢
    have hplaced := placedItems_of ih hitems (by omega)
    rwa [show a + ((children.flatMap BNode.getBytes).length + 1 + 1) - 1 =
      a + 1 + (children.flatMap BNode.getBytes).length by omega]
  | @dict entries hkeys hvalues ihk ihv =>
    intro a hpre hsmall
    refine ⟨here_of_exact (.dict hkeys hvalues) hpre hsmall, ?_⟩
    rw [BNode.getBytes] at hpre hsmall
    have hentries := (prefix_append (prefix_cons hpre).2).1
    rw [List.length_cons, List.length_append, List.length_singleton] at hsmall ⊢
    have hplaced := placedEntries_of hkeys ihv hentries (by omega)
    rwa [show a + ((entries.flatMap fun e => e.2.1 ++ e.2.2.getBytes).length + 1 + 1) - 1 =
      a + 1 + (entries.flatMap fun e => e.2.1 ++ e.2.2.getBytes).length by omega]

/-! ## All nodes that are decoded -/

section Mono

variable {dec dec' : ℕ → Except DecodeError (Option BNode × ℕ)}
  (hdec : ∀ pos r, dec pos = .ok r → dec' pos = .ok r) {fuel fuel' : ℕ} (hle : fuel ≤ fuel')

include hdec hle

theorem listLoop_mono {pos : ℕ} {children : List BNode} {r : List BNode × ℕ}
    (h : listLoop data dec fuel pos children = .ok r) :
    listLoop data dec' fuel' pos children = .ok r := by
  induction fuel generalizing fuel' pos children with
  | zero => cases h
  | succ fuel ih =>
    obtain ⟨fuel', rfl⟩ := Nat.exists_eq_succ_of_ne_zero (by omega : fuel' ≠ 0)
    rw [listLoop] at h ⊢
    split_ifs at h ⊢ with hin
    · simp only [bind, Except.bind] at h ⊢
      cases hitem : dec pos with
      | error e =>
        rw [hitem] at h
        cases h
      | ok q =>
        rw [hitem] at h
        rw [hdec pos q hitem]
        exact ih (by omega) h
    · exact h

theorem dictLoop_mono {pos : ℕ} {children : BDictNode} {r : BDictNode × ℕ}
    (h : dictLoop data dec fuel pos children = .ok r) :
    dictLoop data dec' fuel' pos children = .ok r := by
  induction fuel generalizing fuel' pos children with
  | zero => cases h
  | succ fuel ih =>
    obtain ⟨fuel', rfl⟩ := Nat.exists_eq_succ_of_ne_zero (by omega : fuel' ≠ 0)
    rw [dictLoop] at h ⊢
    split_ifs at h ⊢ with hin
    · simp only [bind, Except.bind] at h ⊢
      cases hkey : dec pos with
      | error e =>
        rw [hkey] at h
        cases h
      | ok q =>
        rw [hkey] at h
        rw [hdec pos q hkey]
        dsimp only at h ⊢
        cases hname : keyOf q.1 with
        | error e =>
          rw [hname] at h
          cases h
        | ok key =>
          rw [hname] at h
          dsimp only at h ⊢
          cases hvalue : dec q.2 with
          | error e =>
            rw [hvalue] at h
            cases h
          | ok v =>
            rw [hvalue] at h
            rw [hdec q.2 v hvalue]
            dsimp only at h ⊢
            cases hv : v.1 with
            | none =>
              rw [hv] at h
              cases h
            | some value =>
              rw [hv] at h
              exact ih (by omega) h
    · exact h

end Mono

/-- More fuel does not change what is decoded. -/
theorem decode_mono {fuel fuel' : ℕ} (hle : fuel ≤ fuel') {pos : ℕ} {r : Option BNode × ℕ}
    (h : decode data fuel pos = .ok r) : decode data fuel' pos = .ok r := by
  induction fuel generalizing fuel' pos r with
  | zero => cases h
  | succ fuel ih =>
    obtain ⟨fuel', rfl⟩ := Nat.exists_eq_succ_of_ne_zero (by omega : fuel' ≠ 0)
    have hdec : ∀ pos r, decode data fuel pos = .ok r → decode data fuel' pos = .ok r :=
      fun pos r => ih (by omega)
    rw [Nat.succ_eq_add_one]
    rw [decode] at h ⊢
    split_ifs at h ⊢ with hend
    · exact h
    · cases hc : data[pos]? with
      | none =>
        rw [hc] at h
        exact h
      | some c =>
        rw [hc] at h
        dsimp only at h ⊢
        split_ifs at h ⊢
        · unfold parseDict at h ⊢
          simp only [bind, Except.bind] at h ⊢
          cases hloop : dictLoop data (decode data fuel) fuel (u32 (pos + 1)) [] with
          | error e =>
            rw [hloop] at h
            cases h
          | ok q =>
            rw [hloop] at h
            rw [dictLoop_mono hdec (by omega) hloop]
            exact h
        · unfold parseList at h ⊢
          simp only [bind, Except.bind] at h ⊢
          cases hloop : listLoop data (decode data fuel) fuel (u32 (pos + 1)) [] with
          | error e =>
            rw [hloop] at h
            cases h
          | ok q =>
            rw [hloop] at h
            rw [listLoop_mono hdec (by omega) hloop]
            exact h
        · exact h
        · exact h

theorem sliced_length {pos len : ℕ} {s : List UInt8} (h : sliced data pos len = .ok s) :
    s.length = len := by
  unfold sliced at h
  split_ifs at h with hin
  cases h
  rw [List.length_take_of_le]
  rw [List.length_drop]
  omega

theorem parseInt_length {off stop : ℕ} {node : BNode} (h : parseInt data off = .ok (node, stop)) :
    node.getBytes.length = sub32 stop off := by
  unfold parseInt at h
  simp only [bind, Except.bind, throw, throwThe, MonadExceptOf.throw, pure, Except.pure] at h
  split at h
  · cases h
  · split at h
    · split at h
      · cases h
      · rename_i hslice
        cases h
        exact sliced_length hslice
    · split at h
      · split at h
        · cases h
        · rename_i hslice
          cases h
          exact sliced_length hslice
      · cases h

theorem parseString_length {off stop : ℕ} {node : BNode}
    (h : parseString data off = .ok (node, stop)) : node.getBytes.length = sub32 stop off := by
  unfold parseString at h
  simp only [bind, Except.bind, throw, throwThe, MonadExceptOf.throw, pure, Except.pure] at h
  split at h
  · cases h
  · split at h
    · cases h
    · split at h
      · cases h
      · split at h
        · cases h
        · split at h
          · cases h
          · split at h
            · cases h
            · rename_i hslice
              cases h
              exact sliced_length hslice

theorem closeAt_length {off pos stop : ℕ} {bytes : List UInt8}
    (h : closeAt data off pos = .ok (bytes, stop)) : bytes.length = sub32 stop off := by
  unfold closeAt at h
  simp only [bind, Except.bind, throw, throwThe, MonadExceptOf.throw, pure, Except.pure] at h
  split at h
  · cases h
  · split at h
    · cases h
    · rename_i hslice
      cases h
      exact sliced_length hslice

/-- A node has as many bytes as the position was moved, in 32 bits. -/
theorem decode_length {fuel pos stop : ℕ} {node : BNode}
    (h : decode data fuel pos = .ok (some node, stop)) :
    node.getBytes.length = sub32 stop pos := by
  cases fuel with
  | zero => cases h
  | succ fuel =>
    rw [decode] at h
    split at h
    · cases h
    · split at h
      · cases h
      · split_ifs at h
        · have hparse := found_eq_ok h
          unfold parseDict at hparse
          simp only [bind, Except.bind, pure, Except.pure] at hparse
          split at hparse
          · cases hparse
          · split at hparse
            · cases hparse
            · rename_i hclose
              cases hparse
              exact closeAt_length hclose
        · have hparse := found_eq_ok h
          unfold parseList at hparse
          simp only [bind, Except.bind, pure, Except.pure] at hparse
          split at hparse
          · cases hparse
          · split at hparse
            · cases hparse
            · rename_i hclose
              cases hparse
              exact closeAt_length hclose
        · exact parseInt_length (found_eq_ok h)
        · exact parseString_length (found_eq_ok h)

/-- The data begin with the text of a node, within the size that the decoder sees. -/
def BeginsWithNode (data : List UInt8) : Prop :=
  ∃ node : BNode, node.Exact ∧ node.getBytes <+: data ∧ node.getBytes.length ≤ size data

/-- **The bytes of the nodes.**  When decoding succeeds, every node of the tree has the slice that
it came from, with those of its children one after the other inside, and a new decoder that is
given the slice returns the node, exactly when the data begin with the text of a node within the
size cut to 32 bits. -/
theorem placed_iff {fuel stop : ℕ} {node : BNode} (h : decode data fuel 0 = .ok (some node, stop)) :
    Placed data node 0 ↔ BeginsWithNode data := by
  have hlt : size data < 2 ^ 32 := size_lt
  constructor
  · intro hplaced
    have hhere : Here data 0 node := by
      cases node with
      | value v bytes => exact hplaced
      | list children bytes => exact hplaced.1
      | dict children bytes => exact hplaced.1
    obtain ⟨fuel', hanew⟩ := hhere.anew
    have hsize := decode_pos_le hanew
    have hsmall : size node.getBytes < 2 ^ 32 := size_lt
    have hle : size node.getBytes ≤ node.getBytes.length := size_le
    have hpre : node.getBytes <+: data := by
      have hslice := hhere.slice
      rw [List.drop_zero] at hslice
      rw [hslice]
      exact List.take_prefix _ _
    have hstop := decode_pos_le h
    have hlen : node.getBytes.length = stop := by
      rw [decode_length h, sub32_of_le (Nat.zero_le _) (by omega)]
      rfl
    exact ⟨node, (decode_sound (by omega) fuel' hanew).exact_, hpre, by omega⟩
  · rintro ⟨n, hexact, hpre, hlen⟩
    have hdec := decode_exact hexact data 0 (by rwa [List.drop_zero]) (by omega)
      (max fuel n.getBytes.length) (le_max_right _ _)
    rw [decode_mono (le_max_left fuel n.getBytes.length) h] at hdec
    cases hdec
    exact placed_of_exact hexact 0 (by rwa [List.drop_zero]) (by omega)

/-- Less than 4 GiB: every node is placed. -/
theorem placed_of_lt (hdata : data.length < 2 ^ 32) {fuel stop : ℕ} {node : BNode}
    (h : decode data fuel 0 = .ok (some node, stop)) : Placed data node 0 := by
  have hfound := decode_sound hdata fuel h
  have hpre := hfound.bytes
  exact placed_of_exact hfound.exact_ 0 hpre (by
    have hlen := hpre.length_le
    rw [List.length_drop] at hlen
    omega)

/-- A dictionary of a list and a dictionary. -/
def nestedTree : BTree :=
  .dict [(bkey "k", .list [.int ⟨7, by decide⟩, .string (bkey "xy")]),
    (bkey "l", .dict [(bkey "m", .string (bkey ""))])]

/-- Its node. -/
def nestedNode : BNode :=
  .dict
    [(ascii "k", .list [.value (.int 7) (ascii "i7e"), .value (.string (ascii "xy")) (ascii "2:xy")]
      (ascii "li7e2:xye")),
    (ascii "l", .dict [(ascii "m", .value (.string []) (ascii "0:"))] (ascii "d1:m0:e"))]
    (ascii "d1:kli7e2:xye1:ld1:m0:ee")

/-- Every node of it is placed, with two bytes behind it. -/
theorem placed_nested : Placed (ascii "d1:kli7e2:xye1:ld1:m0:eezz") nestedNode 0 := by
  have hexact : nestedNode.Exact := nestedTree.node_exact
  have hpre : nestedNode.getBytes <+: ascii "d1:kli7e2:xye1:ld1:m0:eezz" := by decide
  have hlen : nestedNode.getBytes.length ≤ size (ascii "d1:kli7e2:xye1:ld1:m0:eezz") := by decide
  have hdec := decode_exact hexact (ascii "d1:kli7e2:xye1:ld1:m0:eezz") 0 hpre
    (by rwa [Nat.zero_add]) 24 (by decide)
  exact (placed_iff hdec).mpr ⟨nestedNode, hexact, hpre, hlen⟩

/-! ### More than 4 GiB -/

theorem digitsValue_zeros (k : ℕ) : digitsValue (List.replicate k 48) = 0 := by
  induction k with
  | zero => rfl
  | succ k ih =>
    rw [List.replicate_succ']
    rw [digitsValue_append_singleton, ih]
    rfl

/-- A nine behind so many zeros that the string begins nine bytes in front of 4 GiB. -/
def lateDigits : List UInt8 := List.replicate (2 ^ 32 - 11) 48 ++ [57]

/-- A string whose end is at 4 GiB, in more than 4 GiB. -/
def lateString : List UInt8 := lateDigits ++ 58 :: List.replicate (2 ^ 32) 0

/-- **The end of a string wraps around.**  It is taken for the beginning of the data, and the node
has no bytes. -/
theorem lateString_not_placed : ¬ ∀ data fuel stop node,
    decode data fuel 0 = .ok (some node, stop) → Placed data node 0 := by
  intro hall
  have hdlen : lateDigits.length = 2 ^ 32 - 10 := by
    rw [lateDigits, List.length_append, List.length_replicate, List.length_singleton]
    norm_num
  have hlen : lateString.length = 2 ^ 32 - 10 + (2 ^ 32 + 1) := by
    rw [lateString, List.length_append, hdlen, List.length_cons, List.length_replicate]
  have hsize : size lateString = 2 ^ 32 - 9 := by
    rw [size, hlen]
    rfl
  have hvalue : u32 (digitsValue lateDigits) = 9 := by
    rw [lateDigits, digitsValue_append_singleton, digitsValue_zeros]
    rfl
  have hrun : RunAt lateString 0 lateDigits := by
    refine ⟨fun c hc => ?_, ⟨List.replicate (2 ^ 32) 0, ?_⟩⟩
    · rw [lateDigits, List.mem_append] at hc
      rcases hc with hc | hc
      · rw [List.eq_of_mem_replicate hc]
        decide
      · rw [List.mem_singleton.mp hc]
        decide
    · rw [List.drop_zero, lateString, List.append_assoc]
      rfl
  have hat : bytesAt 0 lateDigits = 2 ^ 32 - 9 := by
    rw [bytesAt, hdlen]
    norm_num
  have hfirst : lateString[0]? = some 48 := by
    rw [lateString, List.getElem?_append_left (by rw [hdlen]; norm_num), lateDigits,
      List.getElem?_append_left (by rw [List.length_replicate]; norm_num), List.getElem?_replicate,
      if_pos (by norm_num)]
  have hparse : ∃ str, parseString lateString 0 = .ok (.value (.string str) [], 0) := by
    have hstop : u32 (2 ^ 32 - 9 + 9) = 0 := by decide
    have hcontent : sliced lateString (2 ^ 32 - 9) 9 =
        .ok ((lateString.drop (2 ^ 32 - 9)).take 9) := if_pos (by rw [hlen]; norm_num)
    have hbytes : sliced lateString 0 (sub32 0 0) = .ok [] := by
      rw [show sub32 0 0 = 0 by decide, sliced, if_pos (Nat.zero_le _), List.take_zero]
    rw [parseString_run hrun (by rw [hat, hsize]), hvalue, hat, hsize, if_neg (by norm_num), hstop,
      if_neg (by norm_num), hcontent]
    dsimp only
    rw [hbytes]
    exact ⟨_, rfl⟩
  obtain ⟨str, hstr⟩ := hparse
  have hdec : decode lateString 1 0 = .ok (some (.value (.string str) []), 0) := by
    rw [decode_eq hfirst (by rw [hsize]; decide), hstr]
    rfl
  obtain ⟨fuel, hanew⟩ := (hall lateString 1 0 _ hdec : Here lateString 0 _).anew
  cases fuel with
  | zero => cases hanew
  | succ fuel => cases hanew

end BDecoder

end KTorrent
