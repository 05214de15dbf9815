import KTorrent.Net.GroupBudget
import KTorrent.Net.NetworkThread

/-!
# The global limit

Whether a call of `doGroups` with a limit keeps to it.

* `LimitHolds` — the law: whatever the sockets do within the bounds they get, the call ends,
  without a division by zero, and neither budget is overdrawn.
* `Unexhausted` — the allowance lasts for all groups that are assured something.
* `Fits` — and no socket gets 2³² − 1 bytes for itself.
* `Held` — the invariant of a group; `assuredPass_ok` and `limitedPasses_ok` are the two loops.
* `NetworkThread.limitHolds_of_fits` — then the limit holds.
-/

namespace KTorrent

open SocketGroup

variable {b : Behaviour} {undefined : ℤ → UInt32} {fuel calls : ℕ} {now : UInt64}

/-! ## The shares -/

theorem groupShare_ne_zero {numSockets numReady allowance : UInt32} (hpos : allowance ≠ 0) :
    groupShare undefined numSockets numReady allowance ≠ 0 := by
  rw [groupShare]
  split
  · exact hpos
  · rename_i h
    exact fun h0 => h (.inr h0)

theorem groupShare_le {numSockets numReady allowance : UInt32} :
    (groupShare undefined numSockets numReady allowance).toNat ≤ allowance.toNat := by
  rw [groupShare]
  split
  · exact le_refl _
  · rename_i h
    exact UInt32.le_iff_toNat_le.mp (UInt32.not_lt.mp fun hlt => h (.inl hlt))

/-- One socket of two or more gets something, and at most one half. -/
theorem ceilShare_one {numReady allowance : UInt32} (hready : 2 ≤ numReady.toNat)
    (hpos : 0 < allowance.toNat) :
    0 < (ceilShare undefined 1 numReady allowance).toNat ∧
      (ceilShare undefined 1 numReady allowance).toNat ≤ 2 ^ 31 := by
  have htwo : (2 : ℚ) ≤ numReady.toNat := by exact_mod_cast hready
  have hposQ : (0 : ℚ) < allowance.toNat := by exact_mod_cast hpos
  obtain ⟨part, hpart⟩ : ∃ part, part =
    Binary64.round (((1 : UInt32).toNat : ℚ) / numReady.toNat) := ⟨_, rfl⟩
  have hpart0 : 0 < part := by
    rw [hpart, UInt32.toNat_one, Nat.cast_one]
    exact Binary64.round_pos (by positivity)
  have hhalf : part ≤ 2 ^ (-1 : ℤ) := by
    rw [hpart, UInt32.toNat_one, Nat.cast_one]
    refine Binary64.round_le_zpow (by positivity) ?_
    rw [div_le_iff₀ (by linarith), zpow_neg_one]
    linarith
  have hallowance : (allowance.toNat : ℚ) ≤ 2 ^ 32 := by exact_mod_cast allowance.toNat_lt.le
  have hx0 : 0 < part * allowance.toNat := mul_pos hpart0 hposQ
  have hxle : part * allowance.toNat ≤ 2 ^ (31 : ℤ) := by
    calc part * allowance.toNat ≤ 2 ^ (-1 : ℤ) * 2 ^ 32 :=
          mul_le_mul hhalf hallowance hposQ.le (by positivity)
      _ = 2 ^ (31 : ℤ) := by norm_num
  have hceil : ⌈Binary64.round (part * allowance.toNat)⌉ ≤ 2 ^ 31 := by
    refine Int.ceil_le.mpr ((Binary64.round_le_zpow hx0.le hxle).trans ?_)
    norm_num
  have hceil0 : 0 < ⌈Binary64.round (part * allowance.toNat)⌉ :=
    Int.ceil_pos.mpr (Binary64.round_pos hx0)
  rw [ceilShare, ← hpart, Binary64.toUint32, if_pos ⟨hceil0.le, by omega⟩, UInt32.toNat_ofNat']
  omega

/-- The only one that is ready gets all. -/
theorem groupShare_one : groupShare undefined 1 1 4294967295 = 4294967295 := by
  have hceil : ⌈Binary64.round (Binary64.round (((1 : UInt32).toNat : ℚ) / (1 : UInt32).toNat) *
      (4294967295 : UInt32).toNat)⌉ = 4294967295 := by decide +kernel
  have hshare : ceilShare undefined 1 1 4294967295 = 4294967295 := by
    rw [ceilShare, hceil, Binary64.toUint32, if_pos (by norm_num)]
    rfl
  rw [groupShare, hshare]
  exact if_neg (by decide)

/-! ## The condition -/

namespace SocketGroup

/-- A group that gets something of the allowance in the first loop. -/
def Draws (g : SocketGroup) : Prop := g.Movable ∧ g.numSockets > 0 ∧ g.groupAssured > 0

instance (g : SocketGroup) : Decidable g.Draws :=
  inferInstanceAs (Decidable (g.Movable ∧ g.numSockets > 0 ∧ g.groupAssured > 0))

/-- And how much at most. -/
def draw (g : SocketGroup) : ℕ := if g.Draws then g.share g.groupAssured.toNat else 0

/-- One socket alone, which nothing keeps from moving 2³² − 1 bytes. -/
def Alone (g : SocketGroup) : Prop :=
  (∃ s, g.sockets = [some s]) ∧ g.share (2 ^ 32 - 1) = 2 ^ 32 - 1

end SocketGroup

/-- There is something left for each group that draws, after what those before it may have
drawn. -/
def Unexhausted (allowance : ℕ) : ℕ → List SocketGroup → Prop
  | _, [] => True
  | drawn, g :: groups =>
    (g.Draws → drawn < allowance) ∧ Unexhausted allowance (drawn + g.draw) groups

instance Unexhausted.decidable (allowance : ℕ) :
    ∀ (drawn : ℕ) (groups : List SocketGroup), Decidable (Unexhausted allowance drawn groups)
  | _, [] => .isTrue trivial
  | drawn, g :: groups =>
    have := Unexhausted.decidable allowance (drawn + g.draw) groups
    inferInstanceAs (Decidable ((g.Draws → drawn < allowance) ∧ _))

/-- **The condition**, on the groups as `calcAllowance` leaves them. -/
structure Fits (allowance : UInt32) (numReady : UInt32) (groups : List SocketGroup) : Prop where
  unexhausted : Unexhausted allowance.toNat 0 groups
  alone : allowance.toNat = 2 ^ 32 - 1 → ∀ g ∈ groups, g.Alone →
    g.groupAssured.toNat ≠ 2 ^ 32 - 1 ∧ (numReady = 1 → g.groupAssured ≠ 0)

namespace NetworkThread

variable (undefined) (net : NetworkThread) (numReady limit : UInt32) (now : UInt64)

/-- The bytes that the limit allows. -/
def allowance : UInt32 := allowanceFor undefined limit now net.prevRunTime

/-- **The law.** -/
def LimitHolds : Prop :=
  ∀ b : Behaviour, b.Bounded →
    ∃ fuel groups, net.doGroups b undefined fuel now numReady limit = .ok groups ∧
      (groups.map SocketGroup.moved).sum ≤ (net.allowance undefined limit now).toNat ∧
      List.Forall₂ (fun g g' => g.limit ≠ 0 →
        g'.moved ≤ (allowanceFor undefined g.limit now g.prevRunTime).toNat) net.groups groups

end NetworkThread

/-! ## The invariant -/

/-- A group since its allowance was calculated: its own budget is accounted for, and one with an
allowance of 2³² − 1 bytes that has moved nothing was not assured anything. -/
structure Held (allowance : ℕ) (g₀ g : SocketGroup) : Prop where
  limit : g.limit = g₀.limit
  own : g₀.limit ≠ 0 → g.moved + g.groupAllowance.toNat = g₀.groupAllowance.toNat
  fewer : g.sockets.length ≤ g₀.sockets.length
  idle : allowance = 2 ^ 32 - 1 → g.moved = 0 → g.Alone → g₀.Alone ∧ g₀.groupAssured = 0

variable {allowance numReady : UInt32} {total drawn : ℕ} {g g₀ : SocketGroup}

theorem SocketGroup.Alone.movable (h : g.Alone) : g.Movable := by
  obtain ⟨⟨s, hs⟩, hshare⟩ := h
  refine ⟨⟨some s, by simp [hs], rfl⟩, ?_⟩
  by_contra hno
  push Not at hno
  rw [share, if_neg hno.1, hno.2] at hshare
  simp at hshare

theorem numSockets_ne_zero (h : g.numSockets > 0) : g.sockets.length ≠ 0 := by
  intro h0
  rw [numSockets, h0] at h
  exact absurd h (by decide)

/-- A group in the first loop. -/
theorem assureGroup_ok (hb : b.Bounded) (hmoved : g.moved = 0) (hdraws : g.Draws → allowance ≠ 0)
    (halone : allowance.toNat = 2 ^ 32 - 1 → g.Alone → g.groupAssured.toNat ≠ 2 ^ 32 - 1)
    (hfuel : g.sockets.length + 2 ^ 32 < fuel) :
    ∃ r, assureGroup b fuel calls allowance g = .ok r ∧
      r.group.moved + r.globalAllowance.toNat = allowance.toNat ∧ r.group.moved ≤ g.draw ∧
      Held total g r.group := by
  rw [assureGroup]
  by_cases hready : g.numSockets > 0 ∧ g.groupAssured > 0
  swap
  · rw [if_neg hready]
    refine ⟨_, rfl, by simp [hmoved], by simp [hmoved], rfl, fun _ => by simp [hmoved], le_refl _,
      fun _ _ h => ⟨h, ?_⟩⟩
    obtain ⟨⟨s, hs⟩, -⟩ := h
    change g.sockets = [some s] at hs
    have hone : g.numSockets > 0 := by
      rw [numSockets, hs]
      exact (by decide : UInt32.ofNat 1 > 0)
    exact UInt32.le_zero_iff.mp (UInt32.not_lt.mp fun hassured => hready ⟨hone, hassured⟩)
  rw [if_pos hready]
  obtain ⟨as, has⟩ : ∃ as, as = if g.groupAssured > allowance then allowance else g.groupAssured :=
    ⟨_, rfl⟩
  have hasNat : as.toNat = min g.groupAssured.toNat allowance.toNat := by
    rw [has]
    split
    · rename_i h
      exact (min_eq_right (UInt32.lt_iff_toNat_lt.mp h).le).symm
    · rename_i h
      exact (min_eq_left (UInt32.le_iff_toNat_le.mp (UInt32.not_lt.mp h))).symm
  have hassured := UInt32.lt_iff_toNat_lt.mp hready.2
  rw [UInt32.toNat_zero] at hassured
  have hsockets := numSockets_ne_zero hready.1
  rw [← has]
  dsimp only
  by_cases hmovable : g.Movable
  · have hdraw : g.Draws := ⟨hmovable, hready⟩
    have hposNat : 0 < allowance.toNat := by
      have := UInt32.toNat_inj.not.mpr (hdraws hdraw)
      rw [UInt32.toNat_zero] at this
      omega
    have has0 : as ≠ 0 := by
      intro h0
      rw [h0, UInt32.toNat_zero] at hasNat
      omega
    have hsafe : g.share as.toNat = 2 ^ 32 - 1 → ∀ s, g.sockets ≠ [some s] := by
      intro hshare s hs
      have hle := g.share_le as.toNat
      have hlt := allowance.toNat_lt
      have hlt' := g.groupAssured.toNat_lt
      have hmax : as.toNat = 2 ^ 32 - 1 := by omega
      rw [hmax] at hshare
      exact halone (by omega) ⟨⟨s, hs⟩, hshare⟩ (by omega)
    obtain ⟨r, hr, hkept⟩ : ∃ r, g.process b fuel calls as = .ok r ∧ Kept g as r :=
      process_ok hb hsockets has0 hsafe hfuel
    have htotal := hkept.total
    rw [hmoved, Nat.zero_add] at htotal
    have hsub : r.globalAllowance ≤ as := UInt32.le_iff_toNat_le.mpr (by omega)
    have hsub' : as - r.globalAllowance ≤ allowance := by
      rw [UInt32.le_iff_toNat_le, UInt32.toNat_sub_of_le _ _ hsub]
      omega
    rw [hr]
    refine ⟨_, rfl, ?_, ?_, hkept.limit, fun h => ?_, hkept.fewer, fun _ h0 h => ?_⟩
    · rw [UInt32.toNat_sub_of_le _ _ hsub', UInt32.toNat_sub_of_le _ _ hsub]
      show r.group.moved + _ = _
      omega
    · rw [draw, if_pos hdraw, share]
      split
      · show r.group.moved ≤ _
        omega
      · rename_i hlimit
        have hown := hkept.own hlimit
        show r.group.moved ≤ _
        omega
    · have hown := hkept.own h
      rw [hmoved, Nat.zero_add] at hown
      exact hown
    · obtain ⟨⟨s, hs⟩, -⟩ := h
      have hnone := hkept.idle (h0.trans hmoved.symm)
      exact absurd (hnone.symm.trans hs) (by simp)
  · obtain ⟨r, hr, hstill⟩ : ∃ r, g.process b fuel calls as = .ok r ∧ Still g as r :=
      process_still hb hsockets hmovable hfuel
    have hnone := hstill.moved.trans hmoved
    rw [hr]
    refine ⟨_, rfl, ?_, ?_, hstill.limit, fun _ => ?_, hstill.fewer,
      fun _ _ h => absurd h.movable hstill.dead⟩
    · show r.group.moved + (allowance - (as - r.globalAllowance)).toNat = _
      rw [hnone, hstill.globalAllowance]
      simp
    · show r.group.moved ≤ _
      omega
    · show r.group.moved + r.group.groupAllowance.toNat = _
      rw [hnone, hstill.groupAllowance, Nat.zero_add]

/-- The bytes that a list of groups has moved. -/
def movedBy (groups : List SocketGroup) : ℕ := (groups.map SocketGroup.moved).sum

@[simp] theorem movedBy_nil : movedBy [] = 0 := rfl

@[simp] theorem movedBy_cons (g : SocketGroup) (groups : List SocketGroup) :
    movedBy (g :: groups) = g.moved + movedBy groups := by
  simp [movedBy]

/-- **The first loop.** -/
theorem assuredPass_ok (hb : b.Bounded) (groups : List SocketGroup)
    (hdraws : Unexhausted total drawn (groups.map (calcAllowance undefined now)))
    (hleft : total ≤ allowance.toNat + drawn) (hle : allowance.toNat ≤ total)
    (htotal : total < 2 ^ 32)
    (halone : total = 2 ^ 32 - 1 → ∀ g ∈ groups.map (calcAllowance undefined now), g.Alone →
      g.groupAssured.toNat ≠ 2 ^ 32 - 1)
    (hfuel : ∀ g ∈ groups, g.sockets.length + 2 ^ 32 < fuel) :
    ∃ s, assuredPass b undefined fuel now calls allowance groups = .ok s ∧
      List.Forall₂ (Held total) (groups.map (calcAllowance undefined now)) s.groups ∧
      movedBy s.groups + s.allowance.toNat = allowance.toNat := by
  induction groups generalizing calls allowance drawn with
  | nil => exact ⟨_, rfl, .nil, by simp⟩
  | cons g groups ih =>
    obtain ⟨hfirst, hrest⟩ := hdraws
    obtain ⟨r, hr, haccount, hdrawn, hheld⟩ :
        ∃ r, assureGroup b fuel calls allowance (g.calcAllowance undefined now) = .ok r ∧
          r.group.moved + r.globalAllowance.toNat = allowance.toNat ∧
          r.group.moved ≤ (g.calcAllowance undefined now).draw ∧
          Held total (g.calcAllowance undefined now) r.group := by
      refine assureGroup_ok hb rfl (fun hdraws h0 => ?_) (fun hmax => ?_)
        (hfuel g List.mem_cons_self)
      · have hlt := hfirst hdraws
        rw [h0, UInt32.toNat_zero] at hleft
        omega
      · exact halone (by omega) _ List.mem_cons_self
    obtain ⟨s, hs, hall, hsum⟩ :
        ∃ s, assuredPass b undefined fuel now r.calls r.globalAllowance groups = .ok s ∧
          List.Forall₂ (Held total) (groups.map (calcAllowance undefined now)) s.groups ∧
          movedBy s.groups + s.allowance.toNat = r.globalAllowance.toNat := ih hrest
      (by omega) (by omega) (fun hmax g' hg' => halone hmax g' (List.mem_cons_of_mem _ hg'))
      (fun g' hg' => hfuel g' (List.mem_cons_of_mem _ hg'))
    rw [assuredPass, hr]
    dsimp only [bind, Except.bind]
    rw [hs]
    refine ⟨_, rfl, .cons hheld hall, ?_⟩
    show movedBy (r.group :: s.groups) + s.allowance.toNat = _
    rw [movedBy_cons]
    omega

/-- A group in the second loop, `numReady₀` being what the call began with. -/
theorem shareGroup_ok (hb : b.Bounded) (hheld : Held total g₀ g) (hpos : allowance ≠ 0)
    (hready : numReady ≠ 0) (htotal : total < 2 ^ 32) (hsum : allowance.toNat + g.moved ≤ total)
    (halone : total = 2 ^ 32 - 1 → numReady = 1 → allowance.toNat = 2 ^ 32 - 1 → g₀.Alone →
      g₀.groupAssured ≠ 0)
    (hfuel : g₀.sockets.length + 2 ^ 32 < fuel) :
    ∃ r, shareGroup b undefined fuel numReady calls allowance g = .ok r ∧
      r.group.moved + r.globalAllowance.toNat = g.moved + allowance.toNat ∧
      Held total g₀ r.group ∧ r.globalAllowance.toNat ≤ allowance.toNat ∧
      (r.again = true → r.globalAllowance.toNat < allowance.toNat) := by
  rw [shareGroup]
  by_cases hsockets : g.numSockets > 0
  swap
  · rw [if_neg hsockets]
    exact ⟨_, rfl, rfl, hheld, le_refl _, fun h => by cases h⟩
  rw [if_pos hsockets, if_neg hready]
  dsimp only
  obtain ⟨share, hshare⟩ : ∃ share, share = groupShare undefined g.numSockets numReady allowance :=
    ⟨_, rfl⟩
  have hshare0 : share ≠ 0 := hshare ▸ groupShare_ne_zero hpos
  have hshareLe : share.toNat ≤ allowance.toNat := hshare ▸ groupShare_le
  have hlt := allowance.toNat_lt
  have hsafe : g.share share.toNat = 2 ^ 32 - 1 → ∀ s, g.sockets ≠ [some s] := by
    intro hmax s hs
    have hle := g.share_le share.toNat
    have hmaxShare : share.toNat = 2 ^ 32 - 1 := by
      have := share.toNat_lt
      omega
    rw [hmaxShare] at hmax
    obtain ⟨halone₀, hassured⟩ := hheld.idle (by omega) (by omega) ⟨⟨s, hs⟩, hmax⟩
    have hone : g.numSockets = 1 := by
      rw [numSockets, hs]
      rfl
    by_cases hnum : numReady = 1
    · exact halone (by omega) hnum (by omega) halone₀ hassured
    · have htwo : 2 ≤ numReady.toNat := by
        have h0 := UInt32.toNat_inj.not.mpr hready
        have h1 := UInt32.toNat_inj.not.mpr hnum
        rw [UInt32.toNat_zero] at h0
        rw [UInt32.toNat_one] at h1
        omega
      obtain ⟨hceil0, hceil⟩ : 0 < (ceilShare undefined 1 numReady allowance).toNat ∧
          (ceilShare undefined 1 numReady allowance).toNat ≤ 2 ^ 31 :=
        ceilShare_one htwo (by omega)
      have hshareCeil : share = ceilShare undefined 1 numReady allowance := by
        rw [hshare, groupShare, hone, if_neg]
        rintro (hgt | h0)
        · have := UInt32.lt_iff_toNat_lt.mp hgt
          omega
        · rw [h0] at hceil0
          exact absurd hceil0 (by decide)
      rw [hshareCeil] at hmaxShare
      omega
  obtain ⟨r, hr, hkept⟩ : ∃ r, g.process b fuel calls share = .ok r ∧ Kept g share r :=
    process_ok hb (numSockets_ne_zero hsockets) hshare0 hsafe
      (lt_of_le_of_lt (Nat.add_le_add_right hheld.fewer _) hfuel)
  have haccount := hkept.total
  have hgrows := (le_process hr).2.2
  have hless : r.globalAllowance ≤ share := UInt32.le_iff_toNat_le.mpr (by omega)
  have hdone := UInt32.toNat_sub_of_le _ _ hless
  have henough : share - r.globalAllowance ≤ allowance :=
    UInt32.le_iff_toNat_le.mpr (by omega)
  have hleft := UInt32.toNat_sub_of_le _ _ henough
  rw [← hshare, hr]
  dsimp only [bind, Except.bind]
  rw [if_pos henough]
  have hgroup : ∀ g', (if r.again then r.group else r.group.clear) = g' →
      g'.moved = r.group.moved ∧ Held total g₀ g' := by
    have hown : g₀.limit ≠ 0 →
        r.group.moved + r.group.groupAllowance.toNat = g₀.groupAllowance.toNat := fun hlimit =>
      (hkept.own (hheld.limit ▸ hlimit)).trans (hheld.own hlimit)
    rintro g' rfl
    split
    · refine ⟨rfl, hkept.limit.trans hheld.limit, hown, hkept.fewer.trans hheld.fewer,
        fun _ h0 h => ?_⟩
      obtain ⟨⟨s, hs⟩, -⟩ := h
      exact absurd ((hkept.idle (by omega)).symm.trans hs) (by simp)
    · refine ⟨rfl, hkept.limit.trans hheld.limit, hown, Nat.zero_le _, fun _ _ h => ?_⟩
      obtain ⟨⟨s, hs⟩, -⟩ := h
      cases hs
  obtain ⟨hmoved, hheld'⟩ := hgroup _ rfl
  refine ⟨_, rfl, ?_, hheld', ?_, fun hagain => ?_⟩
  · dsimp only
    rw [hmoved]
    omega
  · dsimp only
    omega
  · have hmore : r.group.moved ≠ g.moved := fun h => hkept.again hagain (hkept.idle h)
    dsimp only
    omega

theorem toNat_pos_of_ne_zero {x : UInt32} (h : x ≠ 0) : 0 < x.toNat :=
  UInt32.lt_iff_toNat_lt.mp (UInt32.pos_iff_ne_zero.mpr h)

/-- One pass over the groups. -/
theorem doGroupsLimited_ok (hb : b.Bounded) {groups₀ groups : List SocketGroup}
    (hheld : List.Forall₂ (Held total) groups₀ groups) (hready : numReady ≠ 0)
    (htotal : total < 2 ^ 32) (hsum : allowance.toNat + movedBy groups ≤ total)
    (halone : total = 2 ^ 32 - 1 → numReady = 1 → allowance.toNat = 2 ^ 32 - 1 →
      ∀ g ∈ groups₀, g.Alone → g.groupAssured ≠ 0)
    (hfuel : ∀ g ∈ groups₀, g.sockets.length + 2 ^ 32 < fuel) :
    ∃ s, doGroupsLimited b undefined fuel numReady calls allowance groups = .ok s ∧
      List.Forall₂ (Held total) groups₀ s.groups ∧
      movedBy s.groups + s.allowance.toNat = movedBy groups + allowance.toNat ∧
      s.allowance.toNat ≤ allowance.toNat ∧
      (s.stillReady ≠ 0 → s.allowance.toNat < allowance.toNat) := by
  induction hheld generalizing calls allowance with
  | nil => exact ⟨_, rfl, .nil, rfl, le_refl _, fun h => absurd rfl h⟩
  | @cons g₀ g groups₀ groups hg hgroups ih =>
    rw [movedBy_cons] at hsum
    rw [doGroupsLimited]
    by_cases hpos : allowance = 0
    · rw [if_neg (by simp [hpos])]
      exact ⟨_, rfl, .cons hg hgroups, rfl, le_refl _, fun h => absurd rfl h⟩
    obtain ⟨r, hr, haccount, hheld, hle, hagain⟩ :
        ∃ r, shareGroup b undefined fuel numReady calls allowance g = .ok r ∧
          r.group.moved + r.globalAllowance.toNat = g.moved + allowance.toNat ∧
          Held total g₀ r.group ∧ r.globalAllowance.toNat ≤ allowance.toNat ∧
          (r.again = true → r.globalAllowance.toNat < allowance.toNat) :=
      shareGroup_ok hb hg hpos hready htotal (by omega)
        (fun hmax hone hall => halone hmax hone hall g₀ List.mem_cons_self)
        (hfuel g₀ List.mem_cons_self)
    obtain ⟨s, hs, hall, hsum', hle', hstill⟩ :
        ∃ s, doGroupsLimited b undefined fuel numReady r.calls r.globalAllowance groups = .ok s ∧
          List.Forall₂ (Held total) groups₀ s.groups ∧
          movedBy s.groups + s.allowance.toNat = movedBy groups + r.globalAllowance.toNat ∧
          s.allowance.toNat ≤ r.globalAllowance.toNat ∧
          (s.stillReady ≠ 0 → s.allowance.toNat < r.globalAllowance.toNat) := ih (by omega)
      (fun hmax hone hall g' hg' => halone hmax hone (by have := allowance.toNat_lt; omega) g'
        (List.mem_cons_of_mem _ hg'))
      (fun g' hg' => hfuel g' (List.mem_cons_of_mem _ hg'))
    rw [if_pos (UInt32.pos_iff_ne_zero.mpr hpos), hr]
    dsimp only [bind, Except.bind]
    rw [hs]
    refine ⟨_, rfl, .cons hheld hall, ?_, hle'.trans hle, fun hready' => ?_⟩
    · show movedBy (r.group :: s.groups) + s.allowance.toNat = _
      rw [movedBy_cons, movedBy_cons]
      omega
    · show s.allowance.toNat < _
      by_cases hagain' : r.again = true
      · have := hagain hagain'
        omega
      · have hrest : s.stillReady ≠ 0 := by
          intro h0
          apply hready'
          show (if r.again then r.group.numSockets else 0) + s.stillReady = 0
          rw [if_neg hagain', h0]
          rfl
        have := hstill hrest
        omega

/-- **The second loop.** -/
theorem limitedPasses_ok (hb : b.Bounded) {groups₀ : List SocketGroup} {s : Stage} {passes : ℕ}
    (hheld : List.Forall₂ (Held total) groups₀ s.groups) (htotal : total < 2 ^ 32)
    (hsum : movedBy s.groups + s.allowance.toNat = total)
    (halone : total = 2 ^ 32 - 1 → numReady = 1 → s.allowance.toNat = 2 ^ 32 - 1 →
      ∀ g ∈ groups₀, g.Alone → g.groupAssured ≠ 0)
    (hfuel : ∀ g ∈ groups₀, g.sockets.length + 2 ^ 32 < fuel)
    (hpasses : (numReady = 0 ∧ 0 < passes) ∨ s.allowance.toNat + 1 < passes) :
    ∃ s', limitedPasses b undefined fuel passes numReady s = .ok s' ∧
      List.Forall₂ (Held total) groups₀ s'.groups ∧
      movedBy s'.groups + s'.allowance.toNat = total := by
  induction passes generalizing numReady s with
  | zero => omega
  | succ passes ih =>
    rw [limitedPasses]
    split
    · rename_i hgo
      have hready : numReady ≠ 0 := UInt32.pos_iff_ne_zero.mp hgo.2
      obtain ⟨s', hs', hheld', hsum', hle, hstill⟩ :
          ∃ s', doGroupsLimited b undefined fuel numReady s.calls s.allowance s.groups = .ok s' ∧
            List.Forall₂ (Held total) groups₀ s'.groups ∧
            movedBy s'.groups + s'.allowance.toNat = movedBy s.groups + s.allowance.toNat ∧
            s'.allowance.toNat ≤ s.allowance.toNat ∧
            (s'.stillReady ≠ 0 → s'.allowance.toNat < s.allowance.toNat) :=
        doGroupsLimited_ok hb hheld hready htotal (by omega) halone hfuel
      rw [hs']
      show ∃ s'', limitedPasses b undefined fuel passes _ s' = .ok s'' ∧ _
      have hmeasure := hpasses.resolve_left fun h => hready h.1
      by_cases h0 : s'.stillReady = 0
      · rw [if_neg (by simp [h0])]
        exact ih hheld' (by omega) (fun _ hone => absurd hone (by decide))
          (.inl ⟨rfl, by omega⟩)
      · have hless := hstill h0
        exact ih hheld' (by omega) (fun _ _ hmax => by omega) (.inr (by omega))
    · exact ⟨s, rfl, hheld, hsum⟩

/-! ## The call -/

/-- **The limit holds** on what fits. -/
theorem NetworkThread.limitHolds_of_fits {net : NetworkThread} {limit : UInt32} (hlimit : limit ≠ 0)
    (h : Fits (net.allowance undefined limit now) numReady
      (net.groups.map (calcAllowance undefined now))) :
    net.LimitHolds undefined numReady limit now := by
  intro b hb
  obtain ⟨total, hA⟩ : ∃ total, total = (net.allowance undefined limit now).toNat := ⟨_, rfl⟩
  have htotal : total < 2 ^ 32 := hA ▸ UInt32.toNat_lt _
  obtain ⟨longest, hlongest⟩ : ∃ longest, longest =
    (net.groups.map fun g => g.sockets.length).sum := ⟨_, rfl⟩
  obtain ⟨fuel, hfuel⟩ : ∃ fuel, fuel = longest + 2 ^ 32 + 2 := ⟨_, rfl⟩
  have hlen : ∀ g ∈ net.groups, g.sockets.length + 2 ^ 32 < fuel := by
    intro g hg
    have := List.single_le_sum (by simp) _ (List.mem_map_of_mem (f := fun g => g.sockets.length) hg)
    omega
  have hlen' : ∀ g ∈ net.groups.map (calcAllowance undefined now),
      g.sockets.length + 2 ^ 32 < fuel := by
    intro g hg
    obtain ⟨g', hg', rfl⟩ := List.mem_map.mp hg
    exact hlen g' hg'
  have halone := h.alone
  rw [← hA] at halone
  have hunexhausted := h.unexhausted
  rw [← hA] at hunexhausted
  obtain ⟨s, hs, hheld, hsum⟩ :
      ∃ s, assuredPass b undefined fuel now 0 (net.allowance undefined limit now)
          net.groups = .ok s ∧
        List.Forall₂ (Held total) (net.groups.map (calcAllowance undefined now)) s.groups ∧
        movedBy s.groups + s.allowance.toNat = (net.allowance undefined limit now).toNat :=
    assuredPass_ok hb net.groups hunexhausted (by omega) (by omega) htotal
      (fun hmax g hg hg' => (halone hmax g hg hg').1) hlen
  have hle := s.allowance.toNat_lt
  obtain ⟨s', hs', hheld', hsum'⟩ :
      ∃ s', limitedPasses b undefined fuel fuel numReady s
          = .ok s' ∧
        List.Forall₂ (Held total) (net.groups.map (calcAllowance undefined now)) s'.groups ∧
        movedBy s'.groups + s'.allowance.toNat = total :=
    limitedPasses_ok hb hheld htotal (by omega)
      (fun hmax hone _ g hg hg' => (halone hmax g hg hg').2 hone) hlen' (.inr (by omega))
  refine ⟨fuel, s'.groups.map clear, ?_, ?_, ?_⟩
  · rw [doGroups, if_neg hlimit, ← allowance, hs]
    dsimp only [bind, Except.bind]
    rw [hs']
  · rw [List.map_map]
    show movedBy s'.groups ≤ _
    omega
  · rw [List.forall₂_map_left_iff] at hheld'
    rw [List.forall₂_map_right_iff]
    refine hheld'.imp fun g g' hg hg0 => ?_
    have hown := hg.own hg0
    have hallowance : (g.calcAllowance undefined now).groupAllowance
        = allowanceFor undefined g.limit now g.prevRunTime :=
      if_pos (UInt32.pos_iff_ne_zero.mpr hg0)
    rw [hallowance] at hown
    show g'.moved ≤ _
    omega

end KTorrent
