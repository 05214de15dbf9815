import Mathlib.Data.List.Rotate
import Mathlib.Tactic

/-!
# Queues served in turn

Queues of waiting elements stand in a circle, each under its key.  A circle is a list with the
queue that is looked at next in front; a turn takes the first element of that queue and moves the
queue to the back.

* `waiting`, `turn` — who waits, and one turn.
* `Fair` — the group served last does not come again before another group that waits.
* `fair_serve`, `fair_turn_iff` — serving a group makes the circle fair for it, and turns over
  empty queues change nothing.
* `rotate_set` — a circle kept as an array with a position in it.
-/

namespace RoundRobin

variable {κ α : Type*} {g h : κ} {q : List α} {x : α} {L : List (κ × List α)}

/-- Everyone who waits. -/
def waiting (L : List (κ × List α)) : List α := L.flatMap Prod.snd

/-- The queue in front gives its first element and goes to the back. -/
def turn : List (κ × List α) → List (κ × List α)
  | [] => []
  | (g, q) :: L => L ++ [(g, q.tail)]

/-- Nobody waits outside the queue of `g`. -/
def OnlyIn (g : κ) (L : List (κ × List α)) : Prop := ∀ p ∈ L, p.1 ≠ g → p.2 = []

/-- The group `g` is not next: somebody waits in a queue that comes before its own, nobody waits
in its own, or nobody waits elsewhere. -/
def Fair [DecidableEq κ] (g : κ) (L : List (κ × List α)) : Prop :=
  (∃ p ∈ L.takeWhile fun p => p.1 ≠ g, p.2 ≠ []) ∨ (∀ p ∈ L, p.1 = g → p.2 = []) ∨ OnlyIn g L

/-! ## Who waits -/

theorem mem_waiting : x ∈ waiting L ↔ ∃ p ∈ L, x ∈ p.2 := List.mem_flatMap

theorem waiting_cons (g : κ) (q : List α) (L : List (κ × List α)) :
    waiting ((g, q) :: L) = q ++ waiting L := List.flatMap_cons

theorem waiting_eq_nil : waiting L = [] ↔ ∀ p ∈ L, p.2 = [] := List.flatMap_eq_nil_iff

theorem waiting_turn (g : κ) (q : List α) (L : List (κ × List α)) :
    waiting (turn ((g, q) :: L)) = waiting L ++ q.tail := by
  simp [waiting, turn]

/-! ## Fairness -/

section Fair

variable [DecidableEq κ]

/-- With the served group in front and somebody in its queue, fair means that nobody waits
elsewhere. -/
theorem fair_cons (hkeys : g ∉ L.map Prod.fst) :
    Fair g ((g, x :: q) :: L) ↔ ∀ p ∈ L, p.2 = [] := by
  have hnone : ¬ ∃ p ∈ ((g, x :: q) :: L).takeWhile fun p => decide (p.1 ≠ g), p.2 ≠ [] := by
    rw [List.takeWhile_cons_of_neg (by simp)]
    exact fun ⟨p, hp, _⟩ => absurd hp List.not_mem_nil
  have hself : ¬ ∀ p ∈ (g, x :: q) :: L, p.1 = g → p.2 = [] :=
    fun hall => List.cons_ne_nil x q (hall (g, x :: q) List.mem_cons_self rfl)
  rw [Fair, or_iff_right hnone, or_iff_right hself]
  constructor
  · intro honly p hp
    refine honly p (List.mem_cons_of_mem _ hp) fun hkey => hkeys ?_
    exact List.mem_map.mpr ⟨p, hp, hkey⟩
  · intro hall p hp hkey
    rcases List.mem_cons.mp hp with rfl | hp
    · exact absurd rfl hkey
    · exact hall p hp

/-- **Serving a group is fair to the others**: its queue goes behind all of them. -/
theorem fair_serve (hkeys : g ∉ L.map Prod.fst) : Fair g (turn ((g, q) :: L)) := by
  have hother : ∀ p ∈ L, p.1 ≠ g := fun p hp hkey => hkeys (List.mem_map.mpr ⟨p, hp, hkey⟩)
  by_cases hwait : ∃ p ∈ L, p.2 ≠ []
  · left
    obtain ⟨p, hp, hne⟩ := hwait
    refine ⟨p, ?_, hne⟩
    rw [turn, List.takeWhile_append_of_pos fun p hp => decide_eq_true (hother p hp)]
    exact List.mem_append_left _ hp
  · right; right
    intro p hp hkey
    rcases List.mem_append.mp hp with hp | hp
    · by_contra hne
      exact hwait ⟨p, hp, hne⟩
    · rw [List.mem_singleton.mp hp] at hkey
      exact absurd rfl hkey

/-- A turn over an empty queue changes nothing for the group served last. -/
theorem fair_turn_iff (hkeys : h ∉ L.map Prod.fst) :
    Fair g (turn ((h, []) :: L)) ↔ Fair g ((h, []) :: L) := by
  have hmem : ∀ p : κ × List α, p ∈ turn ((h, []) :: L) ↔ p ∈ (h, []) :: L := by
    intro p
    rw [turn, List.tail_nil, List.mem_append, List.mem_singleton, List.mem_cons, or_comm]
  by_cases hgh : h = g
  · subst hgh
    -- its own queue is empty, before and after
    have hown : ∀ p ∈ (h, ([] : List α)) :: L, p.1 = h → p.2 = [] := by
      intro p hp hkey
      rcases List.mem_cons.mp hp with rfl | hp
      · rfl
      · exact absurd (List.mem_map.mpr ⟨p, hp, hkey⟩) hkeys
    exact iff_of_true (.inr (.inl fun p hp => hown p ((hmem p).mp hp))) (.inr (.inl hown))
  · refine or_congr ?_ (or_congr ?_ ?_)
    · rw [turn, List.takeWhile_cons_of_pos (by simpa using hgh)]
      constructor
      · rintro ⟨p, hp, hne⟩
        refine ⟨p, List.mem_cons_of_mem _ ?_, hne⟩
        rw [List.takeWhile_append] at hp
        split at hp
        case isTrue hlen =>
          rcases List.mem_append.mp hp with hp | hp
          · rwa [(List.takeWhile_sublist _).eq_of_length hlen]
          · rw [List.mem_singleton.mp ((List.takeWhile_sublist _).subset hp)] at hne
            exact absurd rfl hne
        case isFalse => exact hp
      · rintro ⟨p, hp, hne⟩
        rcases List.mem_cons.mp hp with rfl | hp
        · exact absurd rfl hne
        · refine ⟨p, ?_, hne⟩
          rw [List.takeWhile_append]
          split
          case isTrue => exact List.mem_append_left _ ((List.takeWhile_sublist _).subset hp)
          case isFalse => exact hp
    · exact forall_congr' fun p => imp_congr_left (hmem p)
    · exact forall_congr' fun p => imp_congr_left (hmem p)

end Fair

/-! ## A circle in an array -/

/-- The position after `i` in a circle of `n` queues. -/
def next (n i : ℕ) : ℕ := if i + 1 = n then 0 else i + 1

theorem next_lt {n i : ℕ} (hi : i < n) : next n i < n := by
  rw [next]
  split <;> omega

theorem rotate_eq_cons {i : ℕ} (hi : L[i]? = some (g, q)) :
    L.rotate i = (g, q) :: (L.drop (i + 1) ++ L.take i) := by
  obtain ⟨hlt, hget⟩ := List.getElem?_eq_some_iff.mp hi
  rw [List.rotate_eq_drop_append_take hlt.le, List.drop_eq_getElem_cons hlt, hget,
    List.cons_append]

/-- **A turn in the array**: the queue at the position is replaced and the position moves on. -/
theorem rotate_set {i : ℕ} (hi : L[i]? = some (g, q)) :
    (L.set i (g, q.tail)).rotate (next L.length i) = turn (L.rotate i) := by
  obtain ⟨hlt, -⟩ := List.getElem?_eq_some_iff.mp hi
  have hnext : (L.set i (g, q.tail)).rotate (next L.length i)
      = (L.set i (g, q.tail)).rotate (i + 1) := by
    rw [next]
    split
    case isTrue hend =>
      have hlen : i + 1 = (L.set i (g, q.tail)).length := by rw [List.length_set, hend]
      rw [hlen, List.rotate_length, List.rotate_zero]
    case isFalse => rfl
  have hlen : i + 1 ≤ (L.set i (g, q.tail)).length := by rw [List.length_set]; exact hlt
  rw [hnext, List.rotate_eq_drop_append_take hlen, List.drop_set_of_lt (Nat.lt_succ_self i),
    List.take_set, List.take_succ_eq_append_getElem hlt, List.set_append_right _ _ (by simp),
    rotate_eq_cons hi, turn]
  simp [List.length_take, Nat.min_eq_left hlt.le]

end RoundRobin
