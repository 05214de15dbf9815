import KTorrent.Net.GlobalLimit

/-!
# When the global limit is broken

The condition of `limitHolds_of_fits` is needed: where it fails, some sockets break the law.

* `greedy` — sockets that do all they may.  If the allowance is up before a group that is assured
  something, that group gets the bound 0, which is none: `exhausted`.
* `lazy` — sockets that do nothing.  One that alone gets 2³² − 1 bytes gets the slot 0, and when
  it does nothing the loop takes that for all it may do: `Turn.lazy_diverges`.
* `NetworkThread.limitHolds_iff` — the law holds exactly on what fits.
-/

namespace KTorrent

open SocketGroup

variable {b : Behaviour} {undefined : ℤ → UInt32} {fuel calls : ℕ} {now : UInt64}
  {allowance globalAllowance numReady : UInt32} {total drawn : ℕ} {g : SocketGroup} {t t' : Turn}
  {r : Processed} {groups : List SocketGroup} {s : Stage}

/-! ## Whatever the sockets do -/

theorem le_assureGroup (h : assureGroup b fuel calls allowance g = .ok r) :
    g.moved + allowance.toNat ≤ r.group.moved + r.globalAllowance.toNat ∧
      r.globalAllowance.toNat ≤ allowance.toNat ∧ g.moved ≤ r.group.moved := by
  rw [assureGroup] at h
  split at h
  · dsimp only at h
    obtain ⟨as, has⟩ : ∃ as, as = if g.groupAssured > allowance then allowance else
      g.groupAssured := ⟨_, rfl⟩
    have hle : as.toNat ≤ allowance.toNat := by
      rw [has]
      split
      · exact le_refl _
      · rename_i hgt
        exact UInt32.le_iff_toNat_le.mp (UInt32.not_lt.mp hgt)
    rw [← has] at h
    obtain ⟨r', hr', hr⟩ := Fault.bind_eq_ok.mp h
    cases hr
    have hprocess := le_process hr'
    have hsub := UInt32.toNat_sub_of_le _ _ (UInt32.le_iff_toNat_le.mpr hprocess.2.1)
    have hsub' : as - r'.globalAllowance ≤ allowance := UInt32.le_iff_toNat_le.mpr (by omega)
    dsimp only
    rw [UInt32.toNat_sub_of_le _ _ hsub', hsub]
    omega
  · cases h
    exact ⟨le_refl _, le_refl _, le_refl _⟩

theorem le_assuredPass (h : assuredPass b undefined fuel now calls allowance groups = .ok s) :
    allowance.toNat ≤ movedBy s.groups + s.allowance.toNat ∧
      s.allowance.toNat ≤ allowance.toNat := by
  induction groups generalizing calls allowance s with
  | nil =>
    cases h
    simp
  | cons g groups ih =>
    rw [assuredPass] at h
    obtain ⟨r, hr, h⟩ := Fault.bind_eq_ok.mp h
    obtain ⟨s', hs', h⟩ := Fault.bind_eq_ok.mp h
    cases h
    have hgroup := le_assureGroup hr
    have hrest := ih hs'
    change _ ≤ movedBy (r.group :: s'.groups) + s'.allowance.toNat ∧ s'.allowance.toNat ≤ _
    rw [movedBy_cons]
    omega

/-! ## Sockets that do all they may -/

/-- All they may; without a bound, as much as they can say. -/
def greedy : Behaviour := fun _ _ m => if m = 0 then 4294967295 else m

theorem greedy_bounded : greedy.Bounded := by
  intro n s m hm
  rw [greedy, if_neg hm]
  exact UInt32.le_refl m

theorem Turn.greedy_run {bslot : UInt32} (h : Turn.run greedy bslot fuel t = .ok t')
    (hwrapped : t.Wrapped) (hsome : HasSocket t.sockets ∨ t.allowance = 0) : t'.allowance = 0 := by
  induction fuel generalizing t with
  | zero => cases h
  | succ fuel ih =>
    rw [run] at h
    split at h
    · rename_i hahead
      cases h
      refine hsome.resolve_left ?_
      rintro ⟨x, hx, -⟩
      simp [sockets, hahead, hwrapped hahead] at hx
    · rename_i x rest hahead
      split at h
      · rename_i hpos
        refine ih h (wrapped_wrapAround _) ?_
        rw [sockets_wrapAround, allowance_wrapAround]
        have hsocket : HasSocket t.sockets := hsome.resolve_right fun h0 => by simp [h0] at hpos
        cases x with
        | none =>
          left
          obtain ⟨y, hy, hysome⟩ := hsocket
          refine ⟨y, ?_, hysome⟩
          show y ∈ t.before ++ rest
          rw [sockets, hahead, List.mem_append, List.mem_cons] at hy
          rw [List.mem_append]
          exact hy.imp_right fun hy => hy.resolve_left fun hnone => by simp [hnone] at hysome
        | some x =>
          rw [take_some]
          by_cases h0 : t.slot bslot = 0
          · -- no bound: everything is moved
            right
            have hmax : greedy t.calls x (t.slot bslot) = 4294967295 := by rw [greedy, if_pos h0]
            have hlt := t.allowance.toNat_lt
            rw [hmax]
            dsimp only
            split
            · rfl
            · rename_i hle
              have hge := UInt32.le_iff_toNat_le.mp (UInt32.not_lt.mp hle)
              have heq : t.allowance = 4294967295 := UInt32.toNat_inj.mp (by
                change 4294967295 ≤ t.allowance.toNat at hge
                change t.allowance.toNat = 4294967295
                omega)
              rw [heq]
              rfl
          · left
            have hall : greedy t.calls x (t.slot bslot) = t.slot bslot := by rw [greedy, if_neg h0]
            refine ⟨some x, ?_, rfl⟩
            simp [sockets, hall]
      · rename_i hzero
        cases h
        exact UInt32.le_zero_iff.mp (UInt32.not_lt.mp hzero)

/-- A group with a socket uses all it gets. -/
theorem greedy_processLimited {sockets : List (Option TrafficShapedSocket)}
    (hsocket : HasSocket sockets)
    (h : processLimited greedy fuel calls sockets allowance = .ok t) :
    t.allowance = 0 ∧ allowance.toNat ≤ t.moved := by
  have hle := (le_processLimited h).1
  rw [processLimited] at h
  split at h
  · cases h
  · rename_i hne
    have hzero := Turn.greedy_run h (fun hnil => rfl) (.inl hsocket)
    rw [hzero, UInt32.toNat_zero] at hle
    exact ⟨hzero, hle⟩

/-- Without an allowance, which is no limit, a group that can move something does so. -/
theorem greedy_process_zero (hmovable : g.Movable) (h : g.process greedy fuel calls 0 = .ok r) :
    g.moved < r.group.moved := by
  obtain ⟨hsocket, hlimit⟩ := hmovable
  rw [process] at h
  split at h
  · rename_i hpos
    have hgroup : g.groupAllowance ≠ 0 := hlimit.resolve_left (UInt32.pos_iff_ne_zero.mp hpos)
    rw [if_neg hgroup] at h
    obtain ⟨r', hown, hr⟩ := Fault.bind_eq_ok.mp h
    cases hr
    rw [processOwn, if_pos rfl] at hown
    obtain ⟨t, ht, hr⟩ := Fault.bind_eq_ok.mp hown
    cases hr
    have hmoved := (greedy_processLimited hsocket ht).2
    have hposNat := toNat_pos_of_ne_zero hgroup
    rw [Processed.checked]
    split <;> · show g.moved < g.moved + t.moved; omega
  · rw [if_neg (by decide)] at h
    cases h
    have hmoves : ∀ (sockets : List (Option TrafficShapedSocket)) (calls : ℕ),
        HasSocket sockets → 0 < (processUnlimited greedy calls sockets).2 := by
      intro sockets
      induction sockets with
      | nil =>
        rintro _ ⟨s, hs, -⟩
        cases hs
      | cons x sockets ih =>
        intro calls hsocket
        cases x with
        | some x =>
          show 0 < (greedy calls x 0).toNat + _
          exact Nat.add_pos_left (by decide : 0 < (4294967295 : UInt32).toNat) _
        | none =>
          rw [processUnlimited]
          refine ih calls ?_
          obtain ⟨y, hy, hysome⟩ := hsocket
          exact ⟨y, (List.mem_cons.mp hy).resolve_left fun hnone => by simp [hnone] at hysome,
            hysome⟩
    have := hmoves g.sockets calls hsocket
    show g.moved < g.moved + _
    omega

/-- With one, it uses its share of it. -/
theorem greedy_process (hmovable : g.Movable) (hpos : globalAllowance ≠ 0)
    (h : g.process greedy fuel calls globalAllowance = .ok r) :
    r.globalAllowance.toNat ≤ globalAllowance.toNat - g.share globalAllowance.toNat := by
  obtain ⟨hsocket, hlimit⟩ := hmovable
  rw [process] at h
  rw [share]
  by_cases hlimit0 : g.limit = 0
  · rw [if_neg (by simp [hlimit0]), if_pos (UInt32.pos_iff_ne_zero.mpr hpos)] at h
    rw [if_pos hlimit0]
    obtain ⟨t, ht, hr⟩ := Fault.bind_eq_ok.mp h
    cases hr
    simp [(greedy_processLimited hsocket ht).1]
  rw [if_neg hlimit0]
  rw [if_pos (UInt32.pos_iff_ne_zero.mpr hlimit0), if_neg (hlimit.resolve_left hlimit0)] at h
  obtain ⟨r', hown, hr⟩ := Fault.bind_eq_ok.mp h
  cases hr
  have hchecked : (Processed.checked r').globalAllowance = r'.globalAllowance := by
    rw [Processed.checked]
    split <;> rfl
  rw [hchecked]
  rw [processOwn, if_neg hpos] at hown
  split at hown
  · rename_i hle
    have hnat := UInt32.le_iff_toNat_le.mp hle
    obtain ⟨t, ht, hr⟩ := Fault.bind_eq_ok.mp hown
    cases hr
    simp [(greedy_processLimited hsocket ht).1]
  · obtain ⟨t, ht, hr⟩ := Fault.bind_eq_ok.mp hown
    cases hr
    rw [(greedy_processLimited hsocket ht).1, leftOf_toNat]
    simp
    omega

/-- A group that draws leaves nothing, or what its draw leaves; with nothing left for it, it moves
something all the same. -/
theorem greedy_assureGroup (hdraws : g.Draws)
    (h : assureGroup greedy fuel calls allowance g = .ok r) :
    r.globalAllowance.toNat ≤ allowance.toNat - g.draw ∧
      (allowance = 0 → g.moved < r.group.moved) := by
  have hle := (le_assureGroup h).2.1
  rw [assureGroup, if_pos hdraws.2] at h
  dsimp only at h
  obtain ⟨as, has⟩ : ∃ as, as = if g.groupAssured > allowance then allowance else
    g.groupAssured := ⟨_, rfl⟩
  rw [← has] at h
  obtain ⟨r', hr', hr⟩ := Fault.bind_eq_ok.mp h
  cases hr
  by_cases hpos : allowance = 0
  · have has0 : as = 0 := by
      rw [has, hpos]
      exact if_pos hdraws.2.2
    have hzero : allowance.toNat = 0 := by
      rw [hpos]
      rfl
    rw [has0] at hr'
    refine ⟨by omega, fun _ => ?_⟩
    show g.moved < r'.group.moved
    exact greedy_process_zero hdraws.1 hr'
  have hasNat : as.toNat = min g.groupAssured.toNat allowance.toNat := by
    rw [has]
    split
    · rename_i hgt
      exact (min_eq_right (UInt32.lt_iff_toNat_lt.mp hgt).le).symm
    · rename_i hgt
      exact (min_eq_left (UInt32.le_iff_toNat_le.mp (UInt32.not_lt.mp hgt))).symm
  have has0 : as ≠ 0 := by
    intro h0
    have hassured := UInt32.lt_iff_toNat_lt.mp hdraws.2.2
    have hposNat := toNat_pos_of_ne_zero hpos
    rw [h0, UInt32.toNat_zero] at hasNat
    rw [UInt32.toNat_zero] at hassured
    omega
  refine ⟨?_, fun h0 => absurd h0 hpos⟩
  have hshare := greedy_process hdraws.1 has0 hr'
  have hsub : r'.globalAllowance ≤ as := UInt32.le_iff_toNat_le.mpr (by omega)
  have hdone := UInt32.toNat_sub_of_le _ _ hsub
  have hsub' : as - r'.globalAllowance ≤ allowance := UInt32.le_iff_toNat_le.mpr (by omega)
  dsimp only
  rw [UInt32.toNat_sub_of_le _ _ hsub', hdone, draw, if_pos hdraws]
  have hcapped : g.share as.toNat = min allowance.toNat (g.share g.groupAssured.toNat) := by
    rw [hasNat, share, share]
    split <;> omega
  have hle' := g.share_le g.groupAssured.toNat
  rw [hcapped] at hshare
  omega

/-- **The allowance is up** before a group that draws: more is moved. -/
theorem exhausted (groups : List SocketGroup)
    (hno : ¬ Unexhausted total drawn (groups.map (calcAllowance undefined now)))
    (hleft : allowance.toNat ≤ total - drawn)
    (h : assuredPass greedy undefined fuel now calls allowance groups = .ok s) :
    allowance.toNat < movedBy s.groups ∧ s.allowance = 0 := by
  induction groups generalizing calls allowance drawn s with
  | nil => exact absurd trivial hno
  | cons g groups ih =>
    rw [assuredPass] at h
    obtain ⟨r, hr, h⟩ := Fault.bind_eq_ok.mp h
    obtain ⟨s', hs', h⟩ := Fault.bind_eq_ok.mp h
    cases h
    have hgroup := le_assureGroup hr
    change _ < movedBy (r.group :: s'.groups) ∧ s'.allowance = 0
    rw [movedBy_cons]
    by_cases hup : (g.calcAllowance undefined now).Draws ∧ total ≤ drawn
    · -- this one finds nothing left
      have hzero : allowance = 0 := UInt32.toNat_inj.mp (by
        rw [UInt32.toNat_zero]
        omega)
      have hmoved := (greedy_assureGroup hup.1 hr).2 hzero
      rw [hzero, UInt32.toNat_zero] at hgroup ⊢
      have hrest := (le_assuredPass hs').2
      refine ⟨by omega, UInt32.toNat_inj.mp ?_⟩
      rw [UInt32.toNat_zero]
      omega
    · have hrestNo : ¬ Unexhausted total (drawn + (g.calcAllowance undefined now).draw)
          (groups.map (calcAllowance undefined now)) := fun hrest =>
        hno ⟨fun hdraws => by by_contra hge; exact hup ⟨hdraws, not_lt.mp hge⟩, hrest⟩
      have hleft' : r.globalAllowance.toNat
          ≤ total - (drawn + (g.calcAllowance undefined now).draw) := by
        by_cases hdraws : (g.calcAllowance undefined now).Draws
        · have := (greedy_assureGroup hdraws hr).1
          omega
        · rw [draw, if_neg hdraws]
          omega
      obtain ⟨hmore, hzero⟩ := ih hrestNo hleft' hs'
      have hgroup' : (g.calcAllowance undefined now).moved = 0 := rfl
      exact ⟨by omega, hzero⟩

/-! ## Sockets that do nothing -/

/-- Nothing. -/
def lazy : Behaviour := fun _ _ _ => 0

theorem lazy_bounded : lazy.Bounded := fun _ _ _ _ => UInt32.zero_le

/-- With the slot 0, doing nothing is doing all one may. -/
theorem Turn.lazy_diverges {x : TrafficShapedSocket} {moved : ℕ} (hpos : allowance ≠ 0) :
    Turn.run lazy 0 fuel ⟨[], [some x], allowance, calls, moved⟩ ≠ .ok t' := by
  induction fuel generalizing calls moved with
  | zero => exact fun h => by cases h
  | succ fuel ih =>
    rw [run]
    dsimp only
    rw [if_pos (UInt32.pos_iff_ne_zero.mpr hpos)]
    have hturn : (Turn.take lazy 0 ⟨[], [some x], allowance, calls, moved⟩ [] (some x)).wrapAround
        = ⟨[], [some x], allowance, calls + 1, moved⟩ := by
      have hslot : Turn.slot 0 ⟨[], [some x], allowance, calls, moved⟩ = 0 := if_neg (by simp)
      rw [take_some, hslot, wrapAround]
      simp [lazy]
    rw [hturn]
    exact ih

theorem Turn.lazy_run {bslot : UInt32} (h : Turn.run lazy bslot fuel t = .ok t') :
    t'.allowance = t.allowance := by
  induction fuel generalizing t with
  | zero => cases h
  | succ fuel ih =>
    rw [run] at h
    split at h
    · cases h
      rfl
    · rename_i x rest hahead
      split at h
      · rw [ih h, allowance_wrapAround]
        cases x with
        | none => rfl
        | some x =>
          rw [take_some]
          simp [lazy]
      · cases h
        rfl

theorem lazy_processLimited {sockets : List (Option TrafficShapedSocket)}
    (h : processLimited lazy fuel calls sockets allowance = .ok t) : t.allowance = allowance := by
  rw [processLimited] at h
  split at h
  · cases h
  · exact Turn.lazy_run h

theorem lazy_process (h : g.process lazy fuel calls globalAllowance = .ok r) :
    r.globalAllowance = globalAllowance := by
  rw [process] at h
  split at h
  · split at h
    · cases h
      rfl
    · obtain ⟨r', hown, hr⟩ := Fault.bind_eq_ok.mp h
      cases hr
      have hchecked : (Processed.checked r').globalAllowance = r'.globalAllowance := by
        rw [Processed.checked]
        split <;> rfl
      rw [hchecked]
      rw [processOwn] at hown
      split at hown
      · obtain ⟨t, ht, hr⟩ := Fault.bind_eq_ok.mp hown
        cases hr
        rfl
      · split at hown
        · obtain ⟨t, ht, hr⟩ := Fault.bind_eq_ok.mp hown
          cases hr
          exact lazy_processLimited ht
        · obtain ⟨t, ht, hr⟩ := Fault.bind_eq_ok.mp hown
          cases hr
          simp [lazy_processLimited ht, leftOf]
  · split at h
    · obtain ⟨t, ht, hr⟩ := Fault.bind_eq_ok.mp h
      cases hr
      exact lazy_processLimited ht
    · cases h
      rfl

/-- One socket alone that may move 2³² − 1 bytes. -/
theorem lazy_process_alone (halone : g.Alone) :
    g.process lazy fuel calls 4294967295 ≠ .ok r := by
  obtain ⟨⟨x, hx⟩, hshare⟩ := halone
  have hlimited : ∀ t, processLimited lazy fuel calls g.sockets 4294967295 ≠ .ok t := by
    intro t h
    have hslot : UInt32.ofNat ((4294967295 : UInt32).toNat / [some x].length + 1) = 0 :=
      (slot_eq_zero (by simp)).mpr ⟨rfl, rfl⟩
    rw [processLimited, hx, if_neg (by simp), hslot] at h
    exact Turn.lazy_diverges (by decide) h
  intro h
  rw [process] at h
  rw [share] at hshare
  by_cases hlimit : g.limit = 0
  · rw [if_neg (by simp [hlimit]), if_pos (by decide)] at h
    obtain ⟨t, ht, -⟩ := Fault.bind_eq_ok.mp h
    exact hlimited t ht
  · rw [if_neg hlimit] at hshare
    have hmax : g.groupAllowance = 4294967295 := by
      have hlt := g.groupAllowance.toNat_lt
      refine UInt32.toNat_inj.mp ?_
      change g.groupAllowance.toNat = 4294967295
      omega
    rw [if_pos (UInt32.pos_iff_ne_zero.mpr hlimit), hmax, if_neg (by decide)] at h
    obtain ⟨r', hown, -⟩ := Fault.bind_eq_ok.mp h
    rw [processOwn, if_neg (by decide), hmax, if_pos (UInt32.le_refl _)] at hown
    obtain ⟨t, ht, -⟩ := Fault.bind_eq_ok.mp hown
    exact hlimited t ht

theorem numSockets_alone (halone : g.Alone) : g.numSockets = 1 := by
  obtain ⟨⟨x, hx⟩, -⟩ := halone
  rw [numSockets, hx]
  rfl

/-- In the first loop. -/
theorem lazy_assureGroup (h : assureGroup lazy fuel calls allowance g = .ok r) :
    r.globalAllowance = allowance ∧
      (g.Alone → allowance = 4294967295 → g.groupAssured ≠ 4294967295) := by
  rw [assureGroup] at h
  split at h
  · rename_i hready
    obtain ⟨r', hr', hr⟩ := Fault.bind_eq_ok.mp h
    cases hr
    refine ⟨?_, fun halone hmax hassured => ?_⟩
    · dsimp only
      rw [lazy_process hr', UInt32.sub_self, UInt32.sub_zero]
    · rw [hmax, hassured] at hr'
      exact lazy_process_alone halone hr'
  · rename_i hready
    cases h
    refine ⟨rfl, fun halone _ hassured => hready ⟨?_, ?_⟩⟩
    · rw [numSockets_alone halone]
      decide
    · rw [hassured]
      decide

theorem lazy_assuredPass (groups : List SocketGroup)
    (h : assuredPass lazy undefined fuel now calls allowance groups = .ok s) :
    s.allowance = allowance ∧
      ∀ g ∈ groups.map (calcAllowance undefined now), g.Alone → allowance = 4294967295 →
        g.groupAssured ≠ 4294967295 ∧ (g.groupAssured = 0 → g ∈ s.groups) := by
  induction groups generalizing calls allowance s with
  | nil =>
    cases h
    simp
  | cons g groups ih =>
    rw [assuredPass] at h
    obtain ⟨r, hr, h⟩ := Fault.bind_eq_ok.mp h
    obtain ⟨s', hs', h⟩ := Fault.bind_eq_ok.mp h
    cases h
    obtain ⟨hleft, hnot⟩ := lazy_assureGroup hr
    obtain ⟨hleft', hrest⟩ := ih hs'
    refine ⟨hleft'.trans hleft, fun g' hg' halone hmax => ?_⟩
    obtain rfl | hg' := List.mem_cons.mp hg'
    · refine ⟨hnot halone hmax, fun hassured => ?_⟩
      rw [assureGroup, if_neg (by rw [hassured]; simp)] at hr
      cases hr
      exact List.mem_cons_self
    · obtain ⟨hnot', hmem⟩ := hrest g' hg' halone (hleft.trans hmax)
      exact ⟨hnot', fun hassured => List.mem_cons_of_mem _ (hmem hassured)⟩

/-- In the second loop, when it is the only one that is ready. -/
theorem lazy_doGroupsLimited (groups : List SocketGroup) (hg : g ∈ groups) (halone : g.Alone) :
    doGroupsLimited lazy undefined fuel 1 calls 4294967295 groups ≠ .ok s := by
  induction groups generalizing calls s with
  | nil => cases hg
  | cons g' groups ih =>
    intro h
    rw [doGroupsLimited, if_pos (by decide)] at h
    obtain ⟨r, hr, h⟩ := Fault.bind_eq_ok.mp h
    obtain ⟨s', hs', -⟩ := Fault.bind_eq_ok.mp h
    rw [shareGroup] at hr
    obtain rfl | hg' := List.mem_cons.mp hg
    · rw [numSockets_alone halone, if_pos (by decide), if_neg (by decide), groupShare_one] at hr
      obtain ⟨r', hr', -⟩ := Fault.bind_eq_ok.mp hr
      exact lazy_process_alone halone hr'
    · have hleft : r.globalAllowance = 4294967295 := by
        split at hr
        · rw [if_neg (by decide)] at hr
          obtain ⟨r', hr', hr⟩ := Fault.bind_eq_ok.mp hr
          cases hr
          dsimp only
          rw [lazy_process hr', UInt32.sub_self]
          rfl
        · cases hr
          rfl
      rw [hleft] at hs'
      exact ih hg' hs'

/-! ## The law -/

/-- What does not fit breaks the limit. -/
theorem NetworkThread.fits_of_limitHolds {net : NetworkThread} {limit : UInt32} (hlimit : limit ≠ 0)
    (h : net.LimitHolds undefined numReady limit now) :
    Fits (net.allowance undefined limit now) numReady
      (net.groups.map (calcAllowance undefined now)) := by
  refine ⟨?_, ?_⟩
  · by_contra hno
    obtain ⟨fuel, groups, hrun, htotal, -⟩ := h greedy greedy_bounded
    rw [doGroups, if_neg hlimit, ← allowance] at hrun
    obtain ⟨s, hs, hrun⟩ := Fault.bind_eq_ok.mp hrun
    obtain ⟨s', hs', hrun⟩ := Fault.bind_eq_ok.mp hrun
    cases hrun
    obtain ⟨hmore, hzero⟩ := exhausted net.groups hno (by simp) hs
    have hsame : s' = s := by
      cases fuel with
      | zero => cases hs'
      | succ fuel =>
        rw [limitedPasses, if_neg (by simp [hzero])] at hs'
        exact (Except.ok.inj hs').symm
    rw [hsame, List.map_map] at htotal
    exact absurd hmore (not_lt.mpr htotal)
  · intro hmax g hg halone
    have hmax' : net.allowance undefined limit now = 4294967295 := UInt32.toNat_inj.mp hmax
    obtain ⟨fuel, groups, hrun, -⟩ := h lazy lazy_bounded
    rw [doGroups, if_neg hlimit, ← allowance, hmax'] at hrun
    obtain ⟨s, hs, hrun⟩ := Fault.bind_eq_ok.mp hrun
    obtain ⟨s', hs', -⟩ := Fault.bind_eq_ok.mp hrun
    obtain ⟨hleft, hgroups⟩ := lazy_assuredPass net.groups hs
    obtain ⟨hassured, hmem⟩ := hgroups g hg halone rfl
    refine ⟨fun heq => hassured (UInt32.toNat_inj.mp heq), fun hone hzero => ?_⟩
    cases fuel with
    | zero => cases hs'
    | succ fuel =>
      rw [limitedPasses, hleft, hone, if_pos (by decide)] at hs'
      obtain ⟨s'', hs'', -⟩ := Fault.bind_eq_ok.mp hs'
      exact lazy_doGroupsLimited s.groups (hmem hzero) halone hs''

/-- **The limit holds** exactly on what fits. -/
theorem NetworkThread.limitHolds_iff (undefined : ℤ → UInt32) (net : NetworkThread)
    (numReady limit : UInt32) (now : UInt64) (hlimit : limit ≠ 0) :
    net.LimitHolds undefined numReady limit now ↔
      Fits (net.allowance undefined limit now) numReady
        (net.groups.map (calcAllowance undefined now)) :=
  ⟨fits_of_limitHolds hlimit, limitHolds_of_fits hlimit⟩

/-- A group that is assured `rate` bytes a second and has one socket, at the time 0. -/
def assuredGroup (rate : UInt32) (s : TrafficShapedSocket) : SocketGroup where
  limit := 0
  assuredRate := rate
  sockets := [some s]
  prevRunTime := 0
  groupAllowance := 0
  groupAssured := 0
  moved := 0

/-- Two groups that are assured 1000 bytes a second together, and the limit is 1000. -/
theorem sharedRate_fits :
    (⟨[assuredGroup 600 1, assuredGroup 400 2], 0⟩ : NetworkThread).LimitHolds (fun _ => 0) 2 1000
      1000 := by
  refine (NetworkThread.limitHolds_iff _ _ _ _ _ (by decide)).mpr ⟨?_, ?_⟩
  · decide +kernel
  · intro hmax
    exact absurd hmax (by decide +kernel)

/-- Two that are assured 1000 bytes a second each: the first one may use the whole limit. -/
theorem fullRate_breaks :
    ¬ (⟨[assuredGroup 1000 1, assuredGroup 1000 2], 0⟩ : NetworkThread).LimitHolds (fun _ => 0) 2
      1000 1000 := by
  intro h
  have hfits := NetworkThread.fits_of_limitHolds (by decide) h
  exact absurd hfits.unexhausted (by decide +kernel)

end KTorrent
