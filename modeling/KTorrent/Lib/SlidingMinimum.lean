import Mathlib.Data.List.TakeWhile
import Mathlib.Order.Bounds.Basic
import Mathlib.Tactic

/-!
# The minimum of a sliding window

A queue that answers for the smallest value of everything recent: what a newer entry is not above
can go, since the newer entry stays in the window for longer.

* `Summary` — the queue stands for a history, as far back as a horizon.
* `Summary.advance` — the horizon moves: entries go at the front.
* `Summary.push` — a new entry takes the place of all that are not below it.
* `Summary.isLeast_head` — the front is the minimum.
-/

namespace SlidingMinimum

variable {ε α τ : Type*} [LinearOrder α] [LinearOrder τ] {value : ε → α} {time : ε → τ}

/-- The entries of a history from the horizon on. -/
def Recent (time : ε → τ) (horizon : τ) (history : List ε) : Set ε :=
  {e | e ∈ history ∧ horizon ≤ time e}

/-- The queue stands for what is recent: values and times ascend, and for every recent entry there
is one in the queue that is not above it and not older. -/
structure Summary (value : ε → α) (time : ε → τ) (horizon : τ) (queue history : List ε) : Prop where
  values : queue.Pairwise fun e e' => value e < value e'
  times : queue.Pairwise fun e e' => time e ≤ time e'
  member : ∀ e ∈ queue, e ∈ history
  covered : ∀ e ∈ Recent time horizon history, ∃ q ∈ queue, value q ≤ value e ∧ time e ≤ time q

variable {horizon horizon' : τ} {queue history : List ε} {e q : ε} {rest : List ε}

/-- The queue without what is older than the horizon. -/
def expire (time : ε → τ) (horizon : τ) (queue : List ε) : List ε :=
  queue.dropWhile fun q => decide (time q < horizon)

/-- What is below a new entry. -/
def below (value : ε → α) (e : ε) (queue : List ε) : List ε :=
  queue.takeWhile fun q => decide (value q < value e)

theorem dropWhile_eq_expire {old : ε → Bool} (h : ∀ q ∈ queue, old q = decide (time q < horizon)) :
    queue.dropWhile old = expire time horizon queue := by
  induction queue with
  | nil => rfl
  | cons first queue ih =>
    rw [expire, List.dropWhile_cons, List.dropWhile_cons, h first List.mem_cons_self,
      ih fun q hmem => h q (List.mem_cons_of_mem _ hmem)]
    rfl

theorem Summary.nil : Summary value time horizon [] [] where
  values := List.Pairwise.nil
  times := List.Pairwise.nil
  member := fun _ hmem => hmem
  covered := fun _ hrecent => absurd hrecent.1 List.not_mem_nil

/-- In a queue with ascending times every entry from the horizon on survives. -/
theorem mem_expire (htimes : queue.Pairwise fun e e' => time e ≤ time e') (hmem : q ∈ queue)
    (hrecent : horizon ≤ time q) : q ∈ expire time horizon queue := by
  induction queue with
  | nil => exact hmem
  | cons first queue ih =>
    obtain ⟨hfirst, hrest⟩ := List.pairwise_cons.mp htimes
    by_cases hold : time first < horizon
    · have hne : q ≠ first := fun heq => absurd hold (not_lt.mpr (heq ▸ hrecent))
      rw [expire, List.dropWhile_cons_of_pos (by simpa using hold)]
      exact ih hrest (List.mem_of_ne_of_mem hne hmem)
    · rw [expire, List.dropWhile_cons_of_neg (by simpa using hold)]
      exact hmem

/-- In a queue with ascending times nothing older than the horizon survives. -/
theorem recent_of_mem_expire (htimes : queue.Pairwise fun e e' => time e ≤ time e')
    (hmem : q ∈ expire time horizon queue) : horizon ≤ time q := by
  induction queue with
  | nil => exact absurd hmem List.not_mem_nil
  | cons first queue ih =>
    obtain ⟨hfirst, hrest⟩ := List.pairwise_cons.mp htimes
    by_cases hold : time first < horizon
    · rw [expire, List.dropWhile_cons_of_pos (by simpa using hold)] at hmem
      exact ih hrest hmem
    · rw [expire, List.dropWhile_cons_of_neg (by simpa using hold)] at hmem
      rcases List.mem_cons.mp hmem with rfl | hlater
      · exact not_lt.mp hold
      · exact (not_lt.mp hold).trans (hfirst q hlater)

/-- In a queue with ascending values every entry below the new one is kept. -/
theorem mem_below (hvalues : queue.Pairwise fun e e' => value e < value e') (hmem : q ∈ queue)
    (hless : value q < value e) : q ∈ below value e queue := by
  induction queue with
  | nil => exact hmem
  | cons first queue ih =>
    obtain ⟨hfirst, hrest⟩ := List.pairwise_cons.mp hvalues
    have hstart : value first < value e := by
      rcases List.mem_cons.mp hmem with rfl | hlater
      · exact hless
      · exact (hfirst q hlater).trans hless
    rw [below, List.takeWhile_cons_of_pos (by simpa using hstart)]
    rcases List.mem_cons.mp hmem with rfl | hlater
    · exact List.mem_cons_self
    · exact List.mem_cons_of_mem _ (ih hrest hlater)

theorem value_lt_of_mem_below (hmem : q ∈ below value e queue) : value q < value e := by
  simpa using List.mem_takeWhile_imp hmem

/-- **The horizon moves.** -/
theorem Summary.advance (h : Summary value time horizon queue history)
    (hhorizon : horizon ≤ horizon') :
    Summary value time horizon' (expire time horizon' queue) history where
  values := h.values.sublist (List.dropWhile_sublist _)
  times := h.times.sublist (List.dropWhile_sublist _)
  member := fun q hmem => h.member q ((List.dropWhile_sublist _).subset hmem)
  covered := by
    rintro e ⟨hmem, hrecent⟩
    obtain ⟨q, hq, hvalue, htime⟩ := h.covered e ⟨hmem, hhorizon.trans hrecent⟩
    exact ⟨q, mem_expire h.times hq (hrecent.trans htime), hvalue, htime⟩

/-- **A new entry**, not older than any: what is not below it goes. -/
theorem Summary.push (h : Summary value time horizon queue history)
    (hlatest : ∀ e' ∈ history, time e' ≤ time e) :
    Summary value time horizon (below value e queue ++ [e]) (history ++ [e]) where
  values := by
    refine List.pairwise_append.mpr
      ⟨h.values.sublist (List.takeWhile_sublist _), List.pairwise_singleton _ _, ?_⟩
    intro q hq e' he'
    rw [List.mem_singleton.mp he']
    exact value_lt_of_mem_below hq
  times := by
    refine List.pairwise_append.mpr
      ⟨h.times.sublist (List.takeWhile_sublist _), List.pairwise_singleton _ _, ?_⟩
    intro q hq e' he'
    rw [List.mem_singleton.mp he']
    exact hlatest q (h.member q ((List.takeWhile_sublist _).subset hq))
  member := by
    intro q hq
    rcases List.mem_append.mp hq with hkept | hnew
    · exact List.mem_append_left _ (h.member q ((List.takeWhile_sublist _).subset hkept))
    · exact List.mem_append_right _ hnew
  covered := by
    rintro e' ⟨hmem, hrecent⟩
    have hself : e ∈ below value e queue ++ [e] := List.mem_append_right _ (List.mem_singleton_self e)
    rcases List.mem_append.mp hmem with hold | hnew
    · obtain ⟨q, hq, hvalue, htime⟩ := h.covered e' ⟨hold, hrecent⟩
      by_cases hless : value q < value e
      · exact ⟨q, List.mem_append_left _ (mem_below h.values hq hless), hvalue, htime⟩
      · -- the entry of the queue is dropped, and the new one stands in for it
        exact ⟨e, hself, (not_lt.mp hless).trans hvalue, hlatest e' hold⟩
    · rw [List.mem_singleton.mp hnew]
      exact ⟨e, hself, le_rfl, le_rfl⟩

/-- **The front** of a queue without old entries is the minimum of what is recent. -/
theorem Summary.isLeast_head (h : Summary value time horizon (q :: rest) history)
    (hrecent : horizon ≤ time q) : IsLeast (value '' Recent time horizon history) (value q) := by
  refine ⟨⟨q, ⟨h.member q List.mem_cons_self, hrecent⟩, rfl⟩, ?_⟩
  rintro _ ⟨e, he, rfl⟩
  obtain ⟨q', hq', hvalue, -⟩ := h.covered e he
  rcases List.mem_cons.mp hq' with rfl | hlater
  · exact hvalue
  · exact ((List.rel_of_pairwise_cons h.values hlater).le).trans hvalue

end SlidingMinimum
