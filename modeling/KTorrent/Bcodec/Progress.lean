import KTorrent.Bcodec.RoundTrip

/-!
# The decoder stops

In data of less than 2 GiB the decoder reads no byte outside the data and comes to
an end: every node that it reads moves the position forward.

* `Progress` — an error that is thrown, or a position further on.
* `decode_progress` — `decode` makes progress, with fuel for one more call than
  there are bytes in front of it.
-/

namespace KTorrent

/-- The errors that the source throws.  The others are a slice outside the data, and a
recursion that has not come to its end. -/
def DecodeError.thrown : DecodeError → Bool
  | .slicedOutside => false
  | .outOfFuel => false
  | _ => true

namespace BDecoder

/-- The decoder throws, or it has moved past `lo` and not beyond the data. -/
def Progress (data : List UInt8) {α : Type*} (lo : ℕ) : Except DecodeError (α × ℕ) → Prop
  | .error e => e.thrown = true
  | .ok (_, pos) => lo < pos ∧ pos ≤ size data

section Progress

variable {data : List UInt8} {α : Type*} {lo : ℕ}

theorem size_eq (h : data.length < 2 ^ 31) : size data = data.length := by
  unfold size
  exact u32_of_lt (by omega)

theorem size_lt_of_length (h : data.length < 2 ^ 31) : size data < 2 ^ 31 := by
  rw [size_eq h]
  exact h

theorem Progress.found {r : Except DecodeError (BNode × ℕ)} (h : Progress data lo r) :
    Progress data lo (found r) := by
  cases r with
  | error e => exact h
  | ok r => exact h

theorem scanTo_bounds (c : UInt8) (hsize : size data < 2 ^ 31) (pos : ℕ) (hpos : pos ≤ size data) :
    pos ≤ scanTo data c pos ∧ scanTo data c pos ≤ size data := by
  induction hn : size data - pos generalizing pos with
  | zero =>
    rw [scanTo, if_neg (by omega)]
    exact ⟨le_rfl, hpos⟩
  | succ n ih =>
    rw [scanTo]
    split
    · have hnext : u32 (pos + 1) = pos + 1 := u32_of_lt (by omega)
      rw [hnext]
      obtain ⟨hge, hle⟩ := ih (pos + 1) (by omega) (by omega)
      exact ⟨by omega, hle⟩
    · exact ⟨le_rfl, hpos⟩

theorem parseInt_progress (hsize : size data < 2 ^ 31) {off : ℕ} (hoff : off < size data) :
    Progress data off (parseInt data off) := by
  have hstart : u32 (off + 1) = off + 1 := u32_of_lt (by omega)
  obtain ⟨hge, -⟩ := scanTo_bounds 101 hsize (off + 1) hoff
  unfold parseInt
  rw [hstart]
  by_cases hin : scanTo data 101 (off + 1) ≥ size data
  · simp only [if_pos hin]
    rfl
  · have hstop : u32 (scanTo data 101 (off + 1) + 1) = scanTo data 101 (off + 1) + 1 :=
      u32_of_lt (by omega)
    have hsub : sub32 (scanTo data 101 (off + 1) + 1) off = scanTo data 101 (off + 1) + 1 - off :=
      sub32_of_le (by omega) (by omega)
    have hslice : sliced data off (scanTo data 101 (off + 1) + 1 - off) = .ok _ :=
      sliced_of_le (by omega)
    have hend : off < scanTo data 101 (off + 1) + 1 ∧ scanTo data 101 (off + 1) + 1 ≤ size data := by
      omega
    simp only [if_neg hin, hstop, hsub, hslice]
    split
    · exact hend
    · split
      · exact hend
      · rfl

theorem parseString_progress (hsize : size data < 2 ^ 31) {off : ℕ} (hoff : off < size data) :
    Progress data off (parseString data off) := by
  obtain ⟨hge, -⟩ := scanTo_bounds 58 hsize off hoff.le
  unfold parseString
  by_cases hin : scanTo data 58 off ≥ size data
  · simp only [if_pos hin]
    rfl
  · simp only [if_neg hin]
    split
    · rfl
    · rename_i len hlen
      by_cases hneg : len ≥ 2 ^ 31
      · simp only [if_pos hneg]
        rfl
      · have hpos : u32 (scanTo data 58 off + 1) = scanTo data 58 off + 1 := u32_of_lt (by omega)
        have hstop : u32 (scanTo data 58 off + 1 + len) = scanTo data 58 off + 1 + len :=
          u32_of_lt (by omega)
        simp only [if_neg hneg, hpos, hstop]
        by_cases hfits : scanTo data 58 off + 1 + len > size data
        · simp only [if_pos hfits]
          rfl
        · have hsub : sub32 (scanTo data 58 off + 1 + len) off = scanTo data 58 off + 1 + len - off :=
            sub32_of_le (by omega) (by omega)
          have hstr : sliced data (scanTo data 58 off + 1) len = .ok _ := sliced_of_le (by omega)
          have hbytes : sliced data off (scanTo data 58 off + 1 + len - off) = .ok _ :=
            sliced_of_le (by omega)
          simp only [if_neg hfits, hstr, hsub, hbytes]
          show off < scanTo data 58 off + 1 + len ∧ scanTo data 58 off + 1 + len ≤ size data
          omega

theorem closeAt_progress (hsize : size data < 2 ^ 31) {off pos : ℕ} (hle : off ≤ pos) :
    Progress data off (closeAt data off pos) := by
  unfold closeAt
  by_cases hin : pos ≥ size data ∨ data[pos]? ≠ some 101
  · simp only [if_pos hin]
    rfl
  · have hlt : pos < size data := not_le.mp fun hge => hin (.inl hge)
    have hstop : u32 (pos + 1) = pos + 1 := u32_of_lt (by omega)
    have hsub : sub32 (pos + 1) off = pos + 1 - off := sub32_of_le (by omega) (by omega)
    have hbytes : sliced data off (pos + 1 - off) = .ok _ := sliced_of_le (by omega)
    simp only [if_neg hin, hstop, hsub, hbytes]
    show off < pos + 1 ∧ pos + 1 ≤ size data
    omega

theorem inside_lt {pos : ℕ} (h : inside data pos = true) : pos < size data := by
  simp only [inside, Bool.and_eq_true, decide_eq_true_eq] at h
  exact h.1

end Progress

/-! ## Loops -/

/-- A loop stops at or behind the position it starts from. -/
def LoopEnds (data : List UInt8) {α : Type*} (lo : ℕ) : Except DecodeError (α × ℕ) → Prop
  | .error e => e.thrown = true
  | .ok (_, pos) => lo ≤ pos ∧ pos ≤ size data

section Loops

variable {data : List UInt8} {dec : ℕ → Except DecodeError (Option BNode × ℕ)} {lo : ℕ}

/-- Inside the data every call of `decode` makes progress; at the end of it there is none. -/
structure Progresses (data : List UInt8) (dec : ℕ → Except DecodeError (Option BNode × ℕ))
    (lo : ℕ) : Prop where
  inside : ∀ pos, lo ≤ pos → pos < size data → Progress data pos (dec pos)
  atEnd : ∀ pos, size data ≤ pos → dec pos = .ok (none, pos)

theorem listLoop_ends (hdec : Progresses data dec lo) : ∀ (fuel pos : ℕ) (children : List BNode),
    lo ≤ pos → pos ≤ size data → size data - pos < fuel →
    LoopEnds data pos (listLoop data dec fuel pos children) := by
  intro fuel
  induction fuel with
  | zero =>
    intro pos children _ _ hfuel
    exact absurd hfuel (Nat.not_lt_zero _)
  | succ fuel ih =>
    intro pos children hlo hpos hfuel
    rw [listLoop]
    by_cases hin : inside data pos = true
    · rw [if_pos hin]
      have hnode := hdec.inside pos hlo (inside_lt hin)
      cases hn : dec pos with
      | error e =>
        rw [hn] at hnode
        exact hnode
      | ok r =>
        obtain ⟨n, next⟩ := r
        rw [hn] at hnode
        obtain ⟨hgt, hle⟩ := hnode
        have hrest := ih next (children ++ n.toList) (by omega) hle (by omega)
        show LoopEnds data pos (listLoop data dec fuel next (children ++ n.toList))
        cases hloop : listLoop data dec fuel next (children ++ n.toList) with
        | error e =>
          rw [hloop] at hrest
          exact hrest
        | ok r =>
          rw [hloop] at hrest
          exact ⟨hgt.le.trans hrest.1, hrest.2⟩
    · rw [if_neg hin]
      exact ⟨le_rfl, hpos⟩

theorem keyOf_thrown {kn : Option BNode} {e : DecodeError} (h : keyOf kn = .error e) :
    e.thrown = true := by
  unfold keyOf at h
  split at h
  · cases h
  · cases h
    rfl

theorem dictLoop_ends (hdec : Progresses data dec lo) :
    ∀ (fuel pos : ℕ) (children : List (List UInt8 × BNode)),
    lo ≤ pos → pos ≤ size data → size data - pos < fuel →
    LoopEnds data pos (dictLoop data dec fuel pos children) := by
  intro fuel
  induction fuel with
  | zero =>
    intro pos children _ _ hfuel
    exact absurd hfuel (Nat.not_lt_zero _)
  | succ fuel ih =>
    intro pos children hlo hpos hfuel
    rw [dictLoop]
    by_cases hin : inside data pos = true
    · rw [if_pos hin]
      have hkey := hdec.inside pos hlo (inside_lt hin)
      cases hk : dec pos with
      | error e =>
        rw [hk] at hkey
        exact hkey
      | ok r =>
        obtain ⟨kn, behind⟩ := r
        rw [hk] at hkey
        obtain ⟨hgt, hle⟩ := hkey
        simp only [bind, Except.bind]
        cases hname : keyOf kn with
        | error e => exact keyOf_thrown hname
        | ok key =>
          dsimp only
          -- at the end of the data there is no value, which is an error
          rcases lt_or_ge behind (size data) with hlt | hge
          · have hvalue := hdec.inside behind (by omega) hlt
            cases hv : dec behind with
            | error e =>
              rw [hv] at hvalue
              exact hvalue
            | ok r =>
              obtain ⟨value, next⟩ := r
              rw [hv] at hvalue
              obtain ⟨hgt', hle'⟩ := hvalue
              cases value with
              | none => rfl
              | some value =>
                have hrest := ih next (children ++ [(key, value)]) (by omega) hle' (by omega)
                dsimp only
                cases hloop : dictLoop data dec fuel next (children ++ [(key, value)]) with
                | error e =>
                  rw [hloop] at hrest
                  exact hrest
                | ok r =>
                  rw [hloop] at hrest
                  exact ⟨by have := hrest.1; omega, hrest.2⟩
          · rw [hdec.atEnd behind hge]
            rfl
    · rw [if_neg hin]
      exact ⟨le_rfl, hpos⟩

theorem parseList_progress (hsize : size data < 2 ^ 31) {fuel off : ℕ}
    (hdec : Progresses data dec (off + 1)) (hoff : off < size data) (hfuel : size data - off ≤ fuel) :
    Progress data off (parseList data dec fuel off) := by
  have hstart : u32 (off + 1) = off + 1 := u32_of_lt (by omega)
  have hends := listLoop_ends hdec fuel (off + 1) [] le_rfl hoff (by omega)
  unfold parseList
  rw [hstart]
  cases hloop : listLoop data dec fuel (off + 1) [] with
  | error e =>
    rw [hloop] at hends
    exact hends
  | ok r =>
    obtain ⟨children, pos⟩ := r
    rw [hloop] at hends
    have hle : off ≤ pos := by
      have := hends.1
      omega
    have hclose := closeAt_progress hsize hle
    simp only [bind, Except.bind]
    cases hc : closeAt data off pos with
    | error e =>
      rw [hc] at hclose
      exact hclose
    | ok r =>
      rw [hc] at hclose
      exact hclose

theorem parseDict_progress (hsize : size data < 2 ^ 31) {fuel off : ℕ}
    (hdec : Progresses data dec (off + 1)) (hoff : off < size data) (hfuel : size data - off ≤ fuel) :
    Progress data off (parseDict data dec fuel off) := by
  have hstart : u32 (off + 1) = off + 1 := u32_of_lt (by omega)
  have hends := dictLoop_ends hdec fuel (off + 1) [] le_rfl hoff (by omega)
  unfold parseDict
  rw [hstart]
  cases hloop : dictLoop data dec fuel (off + 1) [] with
  | error e =>
    rw [hloop] at hends
    exact hends
  | ok r =>
    obtain ⟨children, pos⟩ := r
    rw [hloop] at hends
    have hle : off ≤ pos := by
      have := hends.1
      omega
    have hclose := closeAt_progress hsize hle
    simp only [bind, Except.bind]
    cases hc : closeAt data off pos with
    | error e =>
      rw [hc] at hclose
      exact hclose
    | ok r =>
      rw [hc] at hclose
      exact hclose

end Loops

/-! ## The decoder -/

variable {data : List UInt8}

theorem decode_atEnd {fuel pos : ℕ} (hfuel : 0 < fuel) (hpos : size data ≤ pos) :
    decode data fuel pos = .ok (none, pos) := by
  obtain ⟨fuel, rfl⟩ := Nat.exists_eq_succ_of_ne_zero hfuel.ne'
  rw [Nat.succ_eq_add_one, decode, if_pos hpos]

/-- **The decoder makes progress**, and reads nothing outside the data. -/
theorem decode_progress (hdata : data.length < 2 ^ 31) : ∀ (fuel pos : ℕ), pos < size data →
    size data - pos < fuel → Progress data pos (decode data fuel pos) := by
  have hsize := size_lt_of_length hdata
  intro fuel
  induction fuel with
  | zero =>
    intro pos _ hfuel
    exact absurd hfuel (Nat.not_lt_zero _)
  | succ fuel ih =>
    intro pos hpos hfuel
    have hdec : Progresses data (decode data fuel) (pos + 1) := by
      refine ⟨fun next hge hlt => ih next hlt (by omega), fun next hge => ?_⟩
      exact decode_atEnd (by omega) hge
    obtain ⟨c, hc⟩ : ∃ c, data[pos]? = some c := by
      rw [size_eq hdata] at hpos
      exact ⟨data[pos], List.getElem?_eq_getElem hpos⟩
    rw [decode_eq hc hpos]
    split
    · exact (parseDict_progress hsize hdec hpos (by omega)).found
    · split
      · exact (parseList_progress hsize hdec hpos (by omega)).found
      · split
        · exact (parseInt_progress hsize hpos).found
        · split
          · exact (parseString_progress hsize hpos).found
          · rfl

end BDecoder

end KTorrent
