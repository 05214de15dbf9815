import KTorrent.Net.LimitBroken
import Mathlib.Data.List.ReduceOption

/-!
# The turns of `processLimited`

Sockets that are ready share an allowance: each in its turn may move a slot of it, those that move
less are not ready any more, and the others go on until nothing is left.

* `Turn.offers` — the calls that the loop makes; `InTurn` — they are made round robin.
* `Served` — what a call of `processLimited` owes to the sockets and to the allowance.
* `Turn.run_serves` — the rule for the loop.
* `served_iff` — **exactly** the calls with sockets, except one socket with all that 32 bits can
  count: there the slot wraps to 0, which is no bound.
-/

namespace KTorrent

/-- A call of `read` or `write`: the socket, its bound, 0 for none, and what it moved. -/
structure Offer where
  socket : TrafficShapedSocket
  bound : UInt32
  moved : UInt32
deriving DecidableEq

/-- The bytes that the calls moved. -/
def movedIn (offers : List Offer) : ℕ := (offers.map fun o => o.moved.toNat).sum

/-- Round robin: the next one is in front, and goes to the back when it moves all it may. -/
def InTurn : List TrafficShapedSocket → List Offer → Prop
  | _, [] => True
  | [], _ :: _ => False
  | s :: queue, o :: offers =>
    o.socket = s ∧ InTurn (if o.moved = o.bound then queue ++ [s] else queue) offers

namespace Turn

variable (b : Behaviour) (bslot : UInt32)

/-- The call for a socket. -/
def offer (t : Turn) (s : TrafficShapedSocket) : Offer :=
  ⟨s, t.slot bslot, b t.calls s (t.slot bslot)⟩

/-- The calls of the loop. -/
def offers : ℕ → Turn → List Offer
  | 0, _ => []
  | fuel + 1, t =>
    match t.ahead with
    | [] => []
    | s :: sockets =>
      if t.allowance > 0 then
        (s.map (t.offer b bslot)).toList ++
          offers fuel (t.take b bslot sockets s).wrapAround
      else []

/-- The sockets in the order of their turns. -/
def queue (t : Turn) : List TrafficShapedSocket := (t.ahead ++ t.before).reduceOption

end Turn

/-- The calls of `processLimited`. -/
def offersOf (b : Behaviour) (fuel calls : ℕ) (sockets : List (Option TrafficShapedSocket))
    (allowance : UInt32) : List Offer :=
  Turn.offers b (UInt32.ofNat (allowance.toNat / sockets.length + 1)) fuel
    ⟨[], sockets, allowance, calls, 0⟩

/-- What `processLimited` owes: the allowance is not exceeded and decreases by what is moved, the
loop stops when it is used up or every socket moved less than it might, and the sockets get their
slots round robin. -/
structure Served (sockets : List (Option TrafficShapedSocket)) (allowance : UInt32)
    (offers : List Offer) (t : Turn) : Prop where
  within : movedIn offers ≤ allowance.toNat
  left : t.allowance.toNat = allowance.toNat - movedIn offers
  done : t.allowance = 0 ∨
    ∀ s, some s ∈ sockets → ∃ o ∈ offers, o.socket = s ∧ o.moved < o.bound
  slots : ∀ o ∈ offers, o.bound ≠ 0 ∧ o.bound.toNat ≤ allowance.toNat / sockets.length + 1
  order : InTurn sockets.reduceOption offers

/-- A call of `processLimited` ends, as it owes. -/
def ServesAll (b : Behaviour) (calls : ℕ) (sockets : List (Option TrafficShapedSocket))
    (allowance : UInt32) : Prop :=
  ∃ fuel t, processLimited b fuel calls sockets allowance = .ok t ∧
    Served sockets allowance (offersOf b fuel calls sockets allowance) t

/-- The condition: there is a list, and the slot can be counted. -/
def Countable (sockets : List (Option TrafficShapedSocket)) (allowance : UInt32) : Prop :=
  sockets ≠ [] ∧ (allowance.toNat = 2 ^ 32 - 1 → ∀ s, sockets ≠ [some s])

variable {b : Behaviour} {bslot allowance : UInt32} {fuel calls : ℕ} {t t' : Turn}
  {sockets : List (Option TrafficShapedSocket)}

/-! ## One turn -/

namespace Turn

@[simp] theorem queue_wrapAround (t : Turn) : t.wrapAround.queue = t.queue := by
  rw [wrapAround]
  split
  case isTrue h => rw [queue, queue, h, List.nil_append, List.append_nil]
  case isFalse => rfl

theorem slot_le_bslot : t.slot bslot ≤ bslot := by
  rw [slot]
  split
  case isTrue h => exact UInt32.le_of_lt h
  case isFalse => exact UInt32.le_refl bslot

theorem slot_zero (t : Turn) : t.slot 0 = 0 := if_neg (UInt32.not_lt.mpr UInt32.zero_le)

theorem queue_eq_cons {s : TrafficShapedSocket} (hahead : t.ahead = some s :: sockets) :
    t.queue = s :: (sockets ++ t.before).reduceOption := by
  rw [queue, hahead, List.cons_append, List.reduceOption_cons_of_some]

/-- The socket that had its turn is behind the others, if it moved all it might. -/
theorem queue_take (s : TrafficShapedSocket) :
    (t.take b bslot sockets (some s)).queue =
      if (t.offer b bslot s).moved = (t.offer b bslot s).bound then
        (sockets ++ t.before).reduceOption ++ [s]
      else (sockets ++ t.before).reduceOption := by
  rw [take_some, queue, offer]
  dsimp only
  by_cases hall : b t.calls s (t.slot bslot) = t.slot bslot
  · rw [if_neg (not_not.mpr hall), if_pos hall, ← List.append_assoc, List.reduceOption_append]
    rfl
  · rw [if_pos hall, if_neg hall]

/-- What the loop does from `t` to `t'`. -/
structure Serves (bslot : UInt32) (t t' : Turn) (offers : List Offer) : Prop where
  moved : t'.moved = t.moved + movedIn offers
  slots : ∀ o ∈ offers, o.bound ≠ 0 ∧ o.bound ≤ bslot
  order : InTurn t.queue offers
  done : t'.sockets = [] → ∀ s ∈ t.queue, ∃ o ∈ offers, o.socket = s ∧ o.moved < o.bound

/-- **The rule for the loop.** -/
theorem run_serves (hb : b.Bounded) (hslot : bslot ≠ 0 ∨ ¬ HasSocket t.sockets)
    (hwrapped : t.Wrapped) (h : run b bslot fuel t = .ok t') :
    Serves bslot t t' (offers b bslot fuel t) := by
  induction fuel generalizing t with
  | zero => cases h
  | succ fuel ih =>
    rw [run] at h
    rw [offers]
    obtain ⟨ahead, hahead⟩ : ∃ ahead, t.ahead = ahead := ⟨_, rfl⟩
    rw [hahead] at h ⊢
    cases ahead with
    | nil =>
      have hend : t = t' := Except.ok.inj h
      have hempty : t.queue = [] := by rw [queue, hahead, hwrapped hahead]; rfl
      rw [← hend]
      refine ⟨rfl, fun o ho => absurd ho List.not_mem_nil, trivial, fun _ s hs => ?_⟩
      rw [hempty] at hs
      exact absurd hs List.not_mem_nil
    | cons s sockets =>
      dsimp only at h ⊢
      by_cases hpos : t.allowance > 0
      swap
      · rw [if_neg hpos] at h ⊢
        rw [Except.ok.injEq] at h
        rw [← h]
        refine ⟨rfl, fun o ho => absurd ho List.not_mem_nil, trivial, fun hnone => ?_⟩
        rw [Turn.sockets, hahead] at hnone
        exact absurd (List.append_eq_nil_iff.mp hnone).2 (List.cons_ne_nil _ _)
      rw [if_pos hpos] at h ⊢
      obtain ⟨-, -, -, hslot'⟩ := take_spends hb hahead hpos hslot
      have hrest := ih (by simpa using hslot') (wrapped_wrapAround _) h
      cases s with
      | none =>
        -- a null pointer is erased without a call
        have hqueue : t.queue = (t.take b bslot sockets none).wrapAround.queue := by
          rw [queue_wrapAround, queue, hahead]
          rfl
        refine ⟨?_, hrest.slots, ?_, ?_⟩
        · rw [hrest.moved, moved_wrapAround]
          rfl
        · rw [hqueue]
          exact hrest.order
        · rw [hqueue]
          exact hrest.done
      | some s =>
        have hbslot : bslot ≠ 0 := hslot.resolve_right fun hno =>
          hno ⟨some s, by simp [Turn.sockets, hahead], rfl⟩
        have hbound : (t.offer b bslot s).bound ≠ 0 := slot_ne_zero hbslot hpos
        have hkept : (t.offer b bslot s).moved ≤ (t.offer b bslot s).bound := hb _ _ _ hbound
        have hqueue : (t.take b bslot sockets (some s)).queue = _ := queue_take s
        refine ⟨?_, ?_, ?_, fun hnone s' hs' => ?_⟩
        · rw [hrest.moved, moved_wrapAround, take_some, movedIn, movedIn]
          simp only [Option.map_some, Option.toList_some, List.singleton_append, List.map_cons,
            List.sum_cons, offer]
          omega
        · intro o ho
          rcases List.mem_cons.mp ho with rfl | ho
          · exact ⟨hbound, slot_le_bslot⟩
          · exact hrest.slots o ho
        · rw [queue_eq_cons hahead]
          refine ⟨rfl, ?_⟩
          rw [← hqueue, ← queue_wrapAround]
          exact hrest.order
        · by_cases hs : s' ∈ (t.take b bslot sockets (some s)).wrapAround.queue
          · obtain ⟨o, ho, hdropped⟩ := hrest.done hnone s' hs
            exact ⟨o, List.mem_cons_of_mem _ ho, hdropped⟩
          · -- who is not in the queue any more has just been dropped
            rw [queue_wrapAround, hqueue] at hs
            rw [queue_eq_cons hahead] at hs'
            refine ⟨t.offer b bslot s, List.mem_cons_self, ?_⟩
            by_cases hall : (t.offer b bslot s).moved = (t.offer b bslot s).bound
            · rw [if_pos hall, List.mem_append, List.mem_singleton] at hs
              rw [List.mem_cons] at hs'
              exact absurd hs'.symm hs
            · rw [if_neg hall] at hs
              have hsame : s' = s := (List.mem_cons.mp hs').resolve_right hs
              exact ⟨hsame.symm, UInt32.lt_of_le_of_ne hkept hall⟩

end Turn

/-! ## The call -/

/-- **When the ready sockets are served as they should.**  For sockets that keep their bounds and
every allowance, `processLimited` ends, within the allowance, round robin and only for a reason,
exactly when there are sockets and they are not one socket with the largest allowance. -/
theorem served_iff (b : Behaviour) (hb : b.Bounded) (calls : ℕ)
    (sockets : List (Option TrafficShapedSocket)) (allowance : UInt32) (hpos : allowance > 0) :
    ServesAll b calls sockets allowance ↔ Countable sockets allowance := by
  constructor
  · rintro ⟨fuel, t, hrun, hserved⟩
    refine ⟨?_, ?_⟩
    · rintro rfl
      cases hrun
    · rintro hmax s rfl
      cases fuel with
      | zero => cases hrun
      | succ fuel =>
        -- the first call has no bound
        have hzero : UInt32.ofNat (allowance.toNat / [some s].length + 1) = 0 :=
          (slot_eq_zero (by simp)).mpr ⟨rfl, hmax⟩
        obtain ⟨o, ho, hbound⟩ : ∃ o ∈ offersOf b (fuel + 1) calls [some s] allowance,
            o.bound = 0 := by
          rw [offersOf, hzero, Turn.offers]
          dsimp only
          rw [if_pos hpos]
          exact ⟨_, List.mem_cons_self, Turn.slot_zero ⟨[], [some s], allowance, calls, 0⟩⟩
        exact (hserved.slots o ho).1 hbound
  · rintro ⟨hne, hsafe⟩
    have hlength : sockets.length ≠ 0 := fun h => hne (List.length_eq_zero_iff.mp h)
    obtain ⟨t, hrun, hspent⟩ := processLimited_ok hb hlength hsafe
      (Nat.lt_succ_self (sockets.length + 2 ^ 32))
    refine ⟨_, t, hrun, ?_⟩
    rw [processLimited, if_neg hlength] at hrun
    have hserves := Turn.run_serves (t := ⟨[], sockets, allowance, calls, 0⟩) hb
      (slot_ne_zero_or_noSocket hlength hsafe) (fun _ => rfl) hrun
    have hmoved : t.moved = movedIn (offersOf b (sockets.length + 2 ^ 32).succ calls sockets
        allowance) := hserves.moved.trans (Nat.zero_add _)
    have htotal := hspent.total
    refine ⟨by omega, by omega, ?_, ?_, ?_⟩
    · refine hspent.done.symm.imp_right fun hnone s hs => ?_
      refine hserves.done hnone s ?_
      rw [Turn.queue, List.append_nil]
      exact List.reduceOption_mem_iff.mpr hs
    · intro o ho
      obtain ⟨hbound, hle⟩ := hserves.slots o ho
      refine ⟨hbound, (UInt32.le_iff_toNat_le.mp hle).trans ?_⟩
      rw [UInt32.toNat_ofNat']
      exact Nat.mod_le _ _
    · have horder := hserves.order
      rwa [Turn.queue, List.append_nil] at horder

/-- Two sockets and three bytes: the first is offered two, and moves one. -/
theorem served_twoSockets :
    ServesAll (fun _ s m => if s = 0 ∧ m ≠ 0 then 1 else m) 0 [some 0, some 1] 3 ↔
      Countable [some 0, some 1] 3 := by
  refine served_iff _ (fun n s m hm => ?_) 0 _ _ (by decide)
  split
  · refine UInt32.le_iff_toNat_le.mpr ?_
    have hpos := UInt32.toNat_inj.not.mpr hm
    simp at hpos ⊢
    omega
  · exact UInt32.le_refl m

/-- One socket with the largest allowance has no bound. -/
theorem largestAllowance_unbounded : ¬ ServesAll greedy 0 [some 0] 4294967295 := by
  rintro ⟨fuel, t, hrun, hserved⟩
  cases fuel with
  | zero => cases hrun
  | succ fuel => exact (hserved.slots ⟨0, 0, 4294967295⟩ List.mem_cons_self).1 rfl

end KTorrent
