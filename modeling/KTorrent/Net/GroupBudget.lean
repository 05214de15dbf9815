import KTorrent.Net.SocketGroup

/-!
# The budget of a group

What `processLimited` and `process` do with an allowance.

* `Turn.le_run` — whatever the sockets do, what is moved and what is left make up for what
  there was.
* `Turn.run_ok` — with bounds that are kept, and a slot that is not 0, the loop ends and they are
  what there was: `Spends`.
* `processLimited_ok` — the slot is 0 in one case only, one socket that may move 2³² − 1 bytes.
* `process_ok` — two nested budgets: `Kept`.
* `process_still` — a group that cannot move anything.
-/

namespace KTorrent

variable {b : Behaviour} {bslot allowance : UInt32} {fuel calls : ℕ} {t t' : Turn}

theorem Fault.bind_eq_ok {α β : Type} {x : Except Fault α} {f : α → Except Fault β} {r : β} :
    (x >>= f) = .ok r ↔ ∃ a, x = .ok a ∧ f a = .ok r := by
  cases x with
  | error e => simp [bind, Except.bind]
  | ok a => simp [bind, Except.bind]

/-- There is a socket, not only null pointers. -/
def HasSocket (sockets : List (Option TrafficShapedSocket)) : Prop := ∃ s ∈ sockets, s.isSome

instance (sockets : List (Option TrafficShapedSocket)) : Decidable (HasSocket sockets) :=
  inferInstanceAs (Decidable (∃ s ∈ sockets, s.isSome))

/-! ## The loop, whatever the sockets do -/

namespace Turn

@[simp] theorem sockets_wrapAround (t : Turn) : t.wrapAround.sockets = t.sockets := by
  rw [wrapAround]
  split
  · rename_i h
    simp [sockets, h]
  · rfl

@[simp] theorem allowance_wrapAround (t : Turn) : t.wrapAround.allowance = t.allowance := by
  rw [wrapAround]
  split <;> rfl

@[simp] theorem moved_wrapAround (t : Turn) : t.wrapAround.moved = t.moved := by
  rw [wrapAround]
  split <;> rfl

/-- The iterator is not at the end, unless nobody is left. -/
def Wrapped (t : Turn) : Prop := t.ahead = [] → t.before = []

theorem wrapped_wrapAround (t : Turn) : t.wrapAround.Wrapped := by
  rw [wrapAround]
  split
  · exact fun h => rfl
  · rename_i h
    exact fun hnil => absurd hnil h

/-- The bound that a socket gets. -/
def slot (bslot : UInt32) (t : Turn) : UInt32 := if bslot > t.allowance then t.allowance else bslot

theorem slot_le : (t.slot bslot).toNat ≤ t.allowance.toNat := by
  rw [slot]
  split
  · exact le_refl _
  · rename_i h
    exact UInt32.le_iff_toNat_le.mp (UInt32.not_lt.mp h)

theorem slot_ne_zero (hslot : bslot ≠ 0) (hpos : t.allowance > 0) : t.slot bslot ≠ 0 := by
  rw [slot]
  split
  · exact fun h0 => by simp [h0] at hpos
  · exact hslot

theorem take_some (sockets : List (Option TrafficShapedSocket)) (s : TrafficShapedSocket) :
    t.take b bslot sockets (some s) =
      { before := if b t.calls s (t.slot bslot) ≠ t.slot bslot then t.before
          else t.before ++ [some s]
        ahead := sockets
        allowance := if b t.calls s (t.slot bslot) > t.allowance then 0
          else t.allowance - b t.calls s (t.slot bslot)
        calls := t.calls + 1
        moved := t.moved + (b t.calls s (t.slot bslot)).toNat } := rfl

/-- Whatever a socket does, what it moves and what is left make up for what there was. -/
theorem le_take (sockets : List (Option TrafficShapedSocket)) (s : Option TrafficShapedSocket) :
    t.moved + t.allowance.toNat ≤
        (t.take b bslot sockets s).moved + (t.take b bslot sockets s).allowance.toNat ∧
      (t.take b bslot sockets s).allowance.toNat ≤ t.allowance.toNat := by
  cases s with
  | none => exact ⟨le_refl _, le_refl _⟩
  | some s =>
    rw [take_some]
    dsimp only
    split
    · rename_i hlt
      have := UInt32.lt_iff_toNat_lt.mp hlt
      simp
      omega
    · rename_i hle
      have hret := UInt32.not_lt.mp hle
      have := UInt32.le_iff_toNat_le.mp hret
      rw [UInt32.toNat_sub_of_le _ _ hret]
      omega

theorem le_run (h : run b bslot fuel t = .ok t') :
    t.moved + t.allowance.toNat ≤ t'.moved + t'.allowance.toNat ∧
      t'.allowance.toNat ≤ t.allowance.toNat := by
  induction fuel generalizing t with
  | zero => cases h
  | succ fuel ih =>
    rw [run] at h
    split at h
    · cases h
      exact ⟨le_refl _, le_refl _⟩
    · rename_i s sockets hahead
      split at h
      · have htake := @le_take b bslot t sockets s
        have hrest := ih h
        rw [moved_wrapAround, allowance_wrapAround] at hrest
        omega
      · cases h
        exact ⟨le_refl _, le_refl _⟩

/-! ## The loop, when bounds are kept -/

/-- The allowance is accounted for, and the loop ends for a reason. -/
structure Spends (t t' : Turn) : Prop where
  total : t'.moved + t'.allowance.toNat = t.moved + t.allowance.toNat
  done : t'.sockets = [] ∨ t'.allowance = 0
  fewer : t'.sockets.length ≤ t.sockets.length

/-- One turn: either the socket moves all it may, or it is erased. -/
theorem take_spends (hb : b.Bounded) {sockets : List (Option TrafficShapedSocket)}
    {s : Option TrafficShapedSocket} (hahead : t.ahead = s :: sockets) (hpos : t.allowance > 0)
    (hslot : bslot ≠ 0 ∨ ¬ HasSocket t.sockets) :
    (t.take b bslot sockets s).moved + (t.take b bslot sockets s).allowance.toNat
        = t.moved + t.allowance.toNat ∧
      (t.take b bslot sockets s).sockets.length + (t.take b bslot sockets s).allowance.toNat
        < t.sockets.length + t.allowance.toNat ∧
      (t.take b bslot sockets s).sockets.length ≤ t.sockets.length ∧
      (bslot ≠ 0 ∨ ¬ HasSocket (t.take b bslot sockets s).sockets) := by
  have hlen : t.sockets.length = t.before.length + sockets.length + 1 := by
    simp [Turn.sockets, hahead]
    omega
  cases s with
  | none =>
    have hsockets : (t.take b bslot sockets none).sockets = t.before ++ sockets := rfl
    refine ⟨rfl, ?_, ?_, hslot.imp_right fun hno => ?_⟩
    · rw [hsockets, hlen, List.length_append]
      exact Nat.add_lt_add_right (Nat.lt_succ_self _) _
    · rw [hsockets, hlen, List.length_append]
      omega
    · rintro ⟨s, hs, hsome⟩
      refine hno ⟨s, ?_, hsome⟩
      rw [hsockets] at hs
      rw [Turn.sockets, hahead]
      simp only [List.mem_append, List.mem_cons] at hs ⊢
      tauto
  | some s =>
    have hbslot : bslot ≠ 0 := hslot.resolve_right fun hno =>
      hno ⟨some s, by simp [Turn.sockets, hahead], rfl⟩
    obtain ⟨as, has⟩ : ∃ as, as = t.slot bslot := ⟨_, rfl⟩
    have hne : as ≠ 0 := has ▸ slot_ne_zero hbslot hpos
    have hle : as.toNat ≤ t.allowance.toNat := has ▸ slot_le
    have hret := UInt32.le_iff_toNat_le.mp (hb t.calls s as hne)
    have hkept : b t.calls s as ≤ t.allowance := UInt32.le_iff_toNat_le.mpr (hret.trans hle)
    rw [take_some, ← has, if_neg (UInt32.not_lt.mpr hkept)]
    simp only [Turn.sockets, List.length_append] at hlen ⊢
    rw [UInt32.toNat_sub_of_le _ _ hkept]
    refine ⟨by omega, ?_, ?_, .inl hbslot⟩
    · by_cases hall : b t.calls s as = as
      · have hmoved : 0 < as.toNat := by
          have := UInt32.toNat_inj.not.mpr hne
          simp at this
          omega
        rw [if_neg (not_not.mpr hall), hall, List.length_append]
        simp only [List.length_cons, List.length_nil]
        omega
      · rw [if_pos hall]
        omega
    · split
      · omega
      · simp only [List.length_append, List.length_cons, List.length_nil]
        omega

/-- **The loop ends**, and accounts for the allowance. -/
theorem run_ok (hb : b.Bounded) (hslot : bslot ≠ 0 ∨ ¬ HasSocket t.sockets) (hwrapped : t.Wrapped)
    (hfuel : t.sockets.length + t.allowance.toNat < fuel) :
    ∃ t', run b bslot fuel t = .ok t' ∧ Spends t t' := by
  induction fuel generalizing t with
  | zero => omega
  | succ fuel ih =>
    rw [run]
    split
    · rename_i hahead
      exact ⟨t, rfl, rfl, .inl (by simp [Turn.sockets, hahead, hwrapped hahead]), le_refl _⟩
    · rename_i s sockets hahead
      split
      · rename_i hpos
        obtain ⟨htotal, hmeasure, hfewer, hslot'⟩ := take_spends hb hahead hpos hslot
        obtain ⟨t', hrun, hspends⟩ := ih (t := (t.take b bslot sockets s).wrapAround)
          (by simpa using hslot') (wrapped_wrapAround _) (by simp; omega)
        refine ⟨t', hrun, ?_, hspends.done, ?_⟩
        · rw [hspends.total, moved_wrapAround, allowance_wrapAround, htotal]
        · have := hspends.fewer
          rw [sockets_wrapAround] at this
          exact this.trans hfewer
      · rename_i hzero
        refine ⟨t, rfl, rfl, .inr ?_, le_refl _⟩
        exact UInt32.le_zero_iff.mp (UInt32.not_lt.mp hzero)

/-- Without a socket nothing is moved. -/
theorem moved_run (hno : ¬ HasSocket t.sockets) (h : run b bslot fuel t = .ok t') :
    t'.moved = t.moved ∧ t'.allowance = t.allowance ∧ ¬ HasSocket t'.sockets := by
  induction fuel generalizing t with
  | zero => cases h
  | succ fuel ih =>
    rw [run] at h
    split at h
    · cases h
      exact ⟨rfl, rfl, hno⟩
    · rename_i s sockets hahead
      split at h
      · cases s with
        | some s => exact absurd ⟨some s, by simp [Turn.sockets, hahead], rfl⟩ hno
        | none =>
          have hstill : ¬ HasSocket (t.take b bslot sockets none).sockets := by
            rintro ⟨s, hs, hsome⟩
            refine hno ⟨s, ?_, hsome⟩
            change s ∈ t.before ++ sockets at hs
            rw [Turn.sockets, hahead]
            simp only [List.mem_append, List.mem_cons] at hs ⊢
            tauto
          have hrest := ih (by simpa using hstill) h
          rw [moved_wrapAround, allowance_wrapAround] at hrest
          exact hrest
      · cases h
        exact ⟨rfl, rfl, hno⟩

end Turn

/-! ## `processLimited` -/

section
variable {sockets : List (Option TrafficShapedSocket)}

/-- The slot is 0 in one case only. -/
theorem slot_eq_zero (hne : sockets.length ≠ 0) :
    UInt32.ofNat (allowance.toNat / sockets.length + 1) = 0 ↔
      sockets.length = 1 ∧ allowance.toNat = 2 ^ 32 - 1 := by
  have hlt := allowance.toNat_lt
  rw [← UInt32.toNat_inj, UInt32.toNat_ofNat', UInt32.toNat_zero]
  constructor
  · intro h
    have hle : allowance.toNat / sockets.length ≤ allowance.toNat := Nat.div_le_self _ _
    have hquotient : allowance.toNat / sockets.length = 2 ^ 32 - 1 := by
      generalize allowance.toNat / sockets.length = q at h hle
      omega
    have hone : sockets.length = 1 := by
      by_contra hmore
      have hhalf : allowance.toNat / sockets.length ≤ allowance.toNat / 2 :=
        Nat.div_le_div_left (by omega) (by norm_num)
      omega
    rw [hone, Nat.div_one] at hquotient
    exact ⟨hone, hquotient⟩
  · rintro ⟨hone, hmax⟩
    rw [hone, hmax]
    norm_num

/-- Every socket gets a slot, or there is none. -/
theorem slot_ne_zero_or_noSocket (hne : sockets.length ≠ 0)
    (hsafe : allowance.toNat = 2 ^ 32 - 1 → ∀ s, sockets ≠ [some s]) :
    UInt32.ofNat (allowance.toNat / sockets.length + 1) ≠ 0 ∨ ¬ HasSocket sockets := by
  by_cases h0 : UInt32.ofNat (allowance.toNat / sockets.length + 1) = 0
  · right
    obtain ⟨hone, hmax⟩ := (slot_eq_zero hne).mp h0
    obtain ⟨x, rfl⟩ := List.length_eq_one_iff.mp hone
    rintro ⟨s, hs, hsome⟩
    obtain rfl := List.mem_singleton.mp hs
    obtain ⟨s, rfl⟩ := Option.isSome_iff_exists.mp hsome
    exact hsafe hmax s rfl
  · exact .inl h0

/-- What a call of `processLimited` does with its allowance. -/
structure Spent (sockets : List (Option TrafficShapedSocket)) (allowance : UInt32) (t : Turn) :
    Prop where
  total : t.moved + t.allowance.toNat = allowance.toNat
  done : t.sockets = [] ∨ t.allowance = 0
  fewer : t.sockets.length ≤ sockets.length

/-- **`processLimited` ends**, and accounts for its allowance. -/
theorem processLimited_ok (hb : b.Bounded) (hne : sockets.length ≠ 0)
    (hsafe : allowance.toNat = 2 ^ 32 - 1 → ∀ s, sockets ≠ [some s])
    (hfuel : sockets.length + 2 ^ 32 < fuel) :
    ∃ t, processLimited b fuel calls sockets allowance = .ok t ∧ Spent sockets allowance t := by
  have hslot := slot_ne_zero_or_noSocket hne hsafe
  have hlt := allowance.toNat_lt
  obtain ⟨t, hrun, hspends⟩ := Turn.run_ok (t := ⟨[], sockets, allowance, calls, 0⟩) hb hslot
    (fun _ => rfl) (show sockets.length + allowance.toNat < fuel by omega)
  refine ⟨t, ?_, ?_, hspends.done, hspends.fewer⟩
  · rw [processLimited, if_neg hne, hrun]
  · rw [hspends.total, Nat.zero_add]

/-- Whatever the sockets do. -/
theorem le_processLimited (h : processLimited b fuel calls sockets allowance = .ok t) :
    allowance.toNat ≤ t.moved + t.allowance.toNat ∧ t.allowance.toNat ≤ allowance.toNat := by
  rw [processLimited] at h
  split at h
  · cases h
  · simpa using Turn.le_run h

/-- Without a socket nothing is moved. -/
theorem moved_processLimited (hno : ¬ HasSocket sockets)
    (h : processLimited b fuel calls sockets allowance = .ok t) :
    t.moved = 0 ∧ t.allowance = allowance ∧ ¬ HasSocket t.sockets := by
  rw [processLimited] at h
  split at h
  · cases h
  · exact Turn.moved_run (t := ⟨[], sockets, allowance, calls, 0⟩) hno h

theorem processUnlimited_still (hno : ¬ HasSocket sockets) :
    processUnlimited b calls sockets = (calls, 0) := by
  induction sockets with
  | nil => rfl
  | cons s sockets ih =>
    cases s with
    | some s => exact absurd ⟨some s, by simp, rfl⟩ hno
    | none =>
      rw [processUnlimited]
      exact ih fun ⟨s, hs, hsome⟩ => hno ⟨s, List.mem_cons_of_mem _ hs, hsome⟩

end

/-! ## `process` -/

namespace SocketGroup

variable {g : SocketGroup} {globalAllowance : UInt32} {r : Processed}

theorem leftOf_toNat (allowance done : UInt32) :
    (leftOf allowance done).toNat = allowance.toNat - done.toNat := by
  rw [leftOf]
  split
  · rename_i h
    have := UInt32.lt_iff_toNat_lt.mp h
    simp
    omega
  · rename_i h
    exact UInt32.toNat_sub_of_le _ _ (UInt32.not_lt.mp h)

/-- What a group with a socket may move of an allowance. -/
def share (g : SocketGroup) (allowance : ℕ) : ℕ :=
  if g.limit = 0 then allowance else min allowance g.groupAllowance.toNat

theorem share_le (g : SocketGroup) (allowance : ℕ) : g.share allowance ≤ allowance := by
  rw [share]
  split
  · exact le_refl _
  · exact min_le_left _ _

/-- What a call of `process` with an allowance does: both budgets are accounted for, a group
that moves nothing is not ready any more. -/
structure Kept (g : SocketGroup) (globalAllowance : UInt32) (r : Processed) : Prop where
  total : r.group.moved + r.globalAllowance.toNat = g.moved + globalAllowance.toNat
  own : g.limit ≠ 0 →
    r.group.moved + r.group.groupAllowance.toNat = g.moved + g.groupAllowance.toNat
  limit : r.group.limit = g.limit
  fewer : r.group.sockets.length ≤ g.sockets.length
  idle : r.group.moved = g.moved → r.group.sockets = []
  again : r.again = true → r.group.sockets ≠ []

theorem Kept.checked (h : Kept g globalAllowance r) :
    Kept g globalAllowance (Processed.checked r) := by
  rw [Processed.checked]
  split
  · exact ⟨h.total, h.own, h.limit, Nat.zero_le _, fun _ => rfl, fun ha => by cases ha⟩
  · exact h

/-- The smaller of two budgets is spent. -/
theorem kept_after {t : Turn} {allowance groupLeft globalLeft : UInt32}
    (h : Spent g.sockets allowance t) (hpos : allowance ≠ 0)
    (hglobal : t.moved + globalLeft.toNat = globalAllowance.toNat)
    (hgroup : g.limit ≠ 0 → t.moved + groupLeft.toNat = g.groupAllowance.toNat) :
    Kept g globalAllowance ⟨t.sockets.length > 0,
      { g.after t with groupAllowance := groupLeft }, globalLeft, t.calls⟩ where
  total := by
    show g.moved + t.moved + globalLeft.toNat = g.moved + globalAllowance.toNat
    omega
  own := by
    intro hlimit
    have hown := hgroup hlimit
    show g.moved + t.moved + groupLeft.toNat = g.moved + g.groupAllowance.toNat
    omega
  limit := rfl
  fewer := h.fewer
  idle := by
    intro hidle
    have hmoved : t.moved = 0 := by
      change g.moved + t.moved = g.moved at hidle
      omega
    obtain hnone | hzero := h.done
    · exact hnone
    · have htotal := h.total
      rw [hmoved, hzero] at htotal
      exact absurd (UInt32.toNat_inj.mp htotal.symm) hpos
  again := by
    intro ha
    exact List.length_pos_iff.mp (of_decide_eq_true ha)

/-- **Two nested budgets.**  With an allowance, `process` ends and keeps to both. -/
theorem process_ok (hb : b.Bounded) (hsockets : g.sockets.length ≠ 0) (hpos : globalAllowance ≠ 0)
    (hsafe : g.share globalAllowance.toNat = 2 ^ 32 - 1 → ∀ s, g.sockets ≠ [some s])
    (hfuel : g.sockets.length + 2 ^ 32 < fuel) :
    ∃ r, g.process b fuel calls globalAllowance = .ok r ∧ Kept g globalAllowance r := by
  rw [process]
  by_cases hlimit : g.limit = 0
  · rw [share, if_pos hlimit] at hsafe
    obtain ⟨t, ht, hspent⟩ : ∃ t, processLimited b fuel calls g.sockets globalAllowance = .ok t ∧
        Spent g.sockets globalAllowance t := processLimited_ok hb hsockets hsafe hfuel
    rw [if_neg (by simp [hlimit]), if_pos (UInt32.pos_iff_ne_zero.mpr hpos), ht]
    exact ⟨_, rfl, kept_after hspent hpos hspent.total fun h => absurd hlimit h⟩
  rw [if_pos (UInt32.pos_iff_ne_zero.mpr hlimit)]
  rw [share, if_neg hlimit] at hsafe
  by_cases hgroup : g.groupAllowance = 0
  · rw [if_pos hgroup]
    exact ⟨_, rfl, rfl, fun _ => rfl, rfl, Nat.zero_le _, fun _ => rfl, fun h => by cases h⟩
  have hown : ∃ r, g.processOwn b fuel calls globalAllowance = .ok r ∧ Kept g globalAllowance r := by
    rw [processOwn, if_neg hpos]
    by_cases hle : globalAllowance ≤ g.groupAllowance
    · have hnat := UInt32.le_iff_toNat_le.mp hle
      rw [min_eq_left hnat] at hsafe
      obtain ⟨t, ht, hspent⟩ : ∃ t, processLimited b fuel calls g.sockets globalAllowance = .ok t ∧
        Spent g.sockets globalAllowance t := processLimited_ok hb hsockets hsafe hfuel
      have htotal := hspent.total
      have hleft : t.allowance ≤ globalAllowance := UInt32.le_iff_toNat_le.mpr (by omega)
      rw [if_pos hle, ht]
      refine ⟨_, rfl, kept_after hspent hpos htotal fun _ => ?_⟩
      rw [leftOf_toNat, UInt32.toNat_sub_of_le _ _ hleft]
      omega
    · have hnat := UInt32.lt_iff_toNat_lt.mp (UInt32.not_le.mp hle)
      rw [min_eq_right hnat.le] at hsafe
      obtain ⟨t, ht, hspent⟩ : ∃ t, processLimited b fuel calls g.sockets g.groupAllowance = .ok t ∧
        Spent g.sockets g.groupAllowance t := processLimited_ok hb hsockets hsafe hfuel
      have htotal := hspent.total
      have hleft : t.allowance ≤ g.groupAllowance := UInt32.le_iff_toNat_le.mpr (by omega)
      rw [if_neg hle, ht]
      refine ⟨_, rfl, kept_after hspent hgroup ?_ fun _ => htotal⟩
      rw [leftOf_toNat, UInt32.toNat_sub_of_le _ _ hleft]
      omega
  obtain ⟨r, hr, hkept⟩ := hown
  rw [if_neg hgroup, hr]
  exact ⟨_, rfl, hkept.checked⟩

/-- A group that can move something. -/
def Movable (g : SocketGroup) : Prop :=
  HasSocket g.sockets ∧ (g.limit = 0 ∨ g.groupAllowance ≠ 0)

instance (g : SocketGroup) : Decidable g.Movable :=
  inferInstanceAs (Decidable (HasSocket g.sockets ∧ (g.limit = 0 ∨ g.groupAllowance ≠ 0)))

/-- What a call of `process` does that moves nothing. -/
structure Still (g : SocketGroup) (globalAllowance : UInt32) (r : Processed) : Prop where
  globalAllowance : r.globalAllowance = globalAllowance
  moved : r.group.moved = g.moved
  groupAllowance : r.group.groupAllowance = g.groupAllowance
  limit : r.group.limit = g.limit
  fewer : r.group.sockets.length ≤ g.sockets.length
  dead : ¬ r.group.Movable

theorem Still.checked (h : Still g globalAllowance r) :
    Still g globalAllowance (Processed.checked r) := by
  rw [Processed.checked]
  split
  · exact ⟨h.globalAllowance, h.moved, h.groupAllowance, h.limit, Nat.zero_le _,
      fun hm => by simpa [clear, HasSocket] using hm.1⟩
  · exact h

/-- **A group that cannot move anything**, with or without an allowance. -/
theorem process_still (hb : b.Bounded) (hsockets : g.sockets.length ≠ 0) (hno : ¬ g.Movable)
    (hfuel : g.sockets.length + 2 ^ 32 < fuel) :
    ∃ r, g.process b fuel calls globalAllowance = .ok r ∧ Still g globalAllowance r := by
  by_cases hsocket : HasSocket g.sockets
  · -- its limit is used up
    obtain ⟨hlimit, hgroup⟩ : g.limit ≠ 0 ∧ g.groupAllowance = 0 := by
      rw [Movable] at hno
      tauto
    rw [process, if_pos (UInt32.pos_iff_ne_zero.mpr hlimit), if_pos hgroup]
    exact ⟨_, rfl, rfl, rfl, rfl, rfl, Nat.zero_le _, fun hm => by
      simpa [clear, HasSocket] using hm.1⟩
  -- there are null pointers only
  have hlimited : ∀ allowance, ∃ t, processLimited b fuel calls g.sockets allowance = .ok t ∧
      t.moved = 0 ∧ t.allowance = allowance ∧ ¬ HasSocket t.sockets ∧
      t.sockets.length ≤ g.sockets.length := by
    intro allowance
    obtain ⟨t, ht, hspent⟩ : ∃ t, processLimited b fuel calls g.sockets allowance = .ok t ∧
        Spent g.sockets allowance t :=
      processLimited_ok hb hsockets (fun _ s hs => hsocket ⟨some s, by simp [hs], rfl⟩) hfuel
    obtain ⟨hmoved, hallowance, hnone⟩ := moved_processLimited hsocket ht
    exact ⟨t, ht, hmoved, hallowance, hnone, hspent.fewer⟩
  rw [process]
  by_cases hlimit : g.limit = 0
  · rw [if_neg (by simp [hlimit])]
    split
    · obtain ⟨t, ht, hmoved, hallowance, hnone, hfewer⟩ := hlimited globalAllowance
      rw [ht]
      exact ⟨_, rfl, hallowance, by simp [after, hmoved], rfl, rfl, hfewer, fun hm => hnone hm.1⟩
    · rw [processUnlimited_still hsocket]
      exact ⟨_, rfl, rfl, rfl, rfl, rfl, le_refl _, hno⟩
  rw [if_pos (UInt32.pos_iff_ne_zero.mpr hlimit)]
  by_cases hgroup : g.groupAllowance = 0
  · rw [if_pos hgroup]
    exact ⟨_, rfl, rfl, rfl, rfl, rfl, Nat.zero_le _, fun hm => by
      simpa [clear, HasSocket] using hm.1⟩
  have hown : ∃ r, g.processOwn b fuel calls globalAllowance = .ok r ∧
      Still g globalAllowance r := by
    rw [processOwn]
    split
    · obtain ⟨t, ht, hmoved, hallowance, hnone, hfewer⟩ := hlimited g.groupAllowance
      rw [ht]
      exact ⟨_, rfl, rfl, by simp [after, hmoved], hallowance, rfl, hfewer, fun hm => hnone hm.1⟩
    · split
      · obtain ⟨t, ht, hmoved, hallowance, hnone, hfewer⟩ := hlimited globalAllowance
        rw [ht]
        exact ⟨_, rfl, hallowance, by simp [after, hmoved], by simp [leftOf, hallowance], rfl,
          hfewer, fun hm => hnone hm.1⟩
      · obtain ⟨t, ht, hmoved, hallowance, hnone, hfewer⟩ := hlimited g.groupAllowance
        rw [ht]
        exact ⟨_, rfl, by simp [leftOf, hallowance], by simp [after, hmoved], hallowance, rfl,
          hfewer, fun hm => hnone hm.1⟩
  obtain ⟨r, hr, hstill⟩ := hown
  rw [if_neg hgroup, hr]
  exact ⟨_, rfl, hstill.checked⟩

/-- Whatever the sockets do, what is moved and what is left make up for the allowance. -/
theorem le_process (h : g.process b fuel calls globalAllowance = .ok r) :
    g.moved + globalAllowance.toNat ≤ r.group.moved + r.globalAllowance.toNat ∧
      r.globalAllowance.toNat ≤ globalAllowance.toNat ∧ g.moved ≤ r.group.moved := by
  have hchecked : ∀ r : Processed, (Processed.checked r).group.moved = r.group.moved ∧
      (Processed.checked r).globalAllowance = r.globalAllowance := by
    intro r
    rw [Processed.checked]
    split <;> exact ⟨rfl, rfl⟩
  rw [process] at h
  split at h
  · split at h
    · cases h
      exact ⟨le_refl _, le_refl _, le_refl _⟩
    · obtain ⟨r', hown, hr⟩ := Fault.bind_eq_ok.mp h
      cases hr
      rw [(hchecked r').1, (hchecked r').2]
      rw [processOwn] at hown
      split at hown
      · obtain ⟨t, ht, hr⟩ := Fault.bind_eq_ok.mp hown
        cases hr
        show _ ≤ g.moved + t.moved + globalAllowance.toNat ∧ globalAllowance.toNat ≤ _ ∧
          _ ≤ g.moved + t.moved
        omega
      · split at hown
        · obtain ⟨t, ht, hr⟩ := Fault.bind_eq_ok.mp hown
          cases hr
          have hle := le_processLimited ht
          show _ ≤ g.moved + t.moved + t.allowance.toNat ∧ t.allowance.toNat ≤ _ ∧
            _ ≤ g.moved + t.moved
          omega
        · obtain ⟨t, ht, hr⟩ := Fault.bind_eq_ok.mp hown
          cases hr
          have hle := le_processLimited ht
          show _ ≤ g.moved + t.moved + (leftOf _ _).toNat ∧ (leftOf _ _).toNat ≤ _ ∧
            _ ≤ g.moved + t.moved
          rw [leftOf_toNat, UInt32.toNat_sub_of_le _ _ (UInt32.le_iff_toNat_le.mpr hle.2)]
          omega
  · split at h
    · obtain ⟨t, ht, hr⟩ := Fault.bind_eq_ok.mp h
      cases hr
      have hle := le_processLimited ht
      show _ ≤ g.moved + t.moved + t.allowance.toNat ∧ t.allowance.toNat ≤ _ ∧
        _ ≤ g.moved + t.moved
      omega
    · cases h
      show _ ≤ g.moved + _ + globalAllowance.toNat ∧ globalAllowance.toNat ≤ _ ∧ _ ≤ g.moved + _
      omega

end SocketGroup

end KTorrent
