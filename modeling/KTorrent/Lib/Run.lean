import Mathlib.Tactic

/-!
# Runs of a guarded state machine

A state machine is a step function `σ → α → σ`; a run is the list of actions it
performs.  This file is the small theory of runs the rest of the development
uses, over arbitrary state and action types.

* `run` — the state a list of actions leads to.
* `AllSteps ok s as` — every action of the run meets the guard `ok` in the state
  it is taken from; `AllStates P s as` — every state the run passes through
  meets `P`.
* `allStates_of_invariant` — the invariant rule: an invariant kept by every
  guarded step holds in every state of a guarded run; `allSteps_of_invariant` is
  the same for what an invariant says about steps.
* `allStates_iff_allSteps` — the **exactness rule**: when, moreover, every step
  that breaks the guard breaks the law at once, the runs on which the law always
  holds are exactly the guarded ones.
-/

namespace Runs

variable {σ α : Type*}

/-- The state a list of actions leads to. -/
def run (step : σ → α → σ) (s : σ) (as : List α) : σ := as.foldl step s

/-- Every action of the run meets `ok` in the state it is taken from. -/
def AllSteps (step : σ → α → σ) (ok : σ → α → Prop) : σ → List α → Prop
  | _, [] => True
  | s, a :: as => ok s a ∧ AllSteps step ok (step s a) as

/-- Every state of the run, the first and the last included, meets `P`. -/
def AllStates (step : σ → α → σ) (P : σ → Prop) : σ → List α → Prop
  | s, [] => P s
  | s, a :: as => P s ∧ AllStates step P (step s a) as

instance AllSteps.decidable (step : σ → α → σ) (ok : σ → α → Prop) [∀ s a, Decidable (ok s a)] :
    ∀ (s : σ) (as : List α), Decidable (AllSteps step ok s as)
  | _, [] => inferInstanceAs (Decidable True)
  | s, a :: as =>
    have : Decidable (AllSteps step ok (step s a) as) := AllSteps.decidable step ok (step s a) as
    inferInstanceAs (Decidable (ok s a ∧ AllSteps step ok (step s a) as))

variable {step : σ → α → σ} {ok : σ → α → Prop} {P Inv : σ → Prop}

@[simp] theorem run_nil (s : σ) : run step s [] = s := rfl

@[simp] theorem run_cons (s : σ) (a : α) (as : List α) :
    run step s (a :: as) = run step (step s a) as := rfl

theorem run_append (s : σ) (as bs : List α) :
    run step s (as ++ bs) = run step (run step s as) bs := by
  rw [run, run, run, List.foldl_append]

/-- The steps of two runs, one after the other. -/
theorem allSteps_append : ∀ (as : List α) (s : σ) (bs : List α),
    AllSteps step ok s (as ++ bs) ↔ AllSteps step ok s as ∧ AllSteps step ok (run step s as) bs := by
  intro as
  induction as with
  | nil => intro s bs; exact ⟨fun h => ⟨trivial, h⟩, fun h => h.2⟩
  | cons a as ih =>
    intro s bs
    rw [List.cons_append, AllSteps, AllSteps, ih, run_cons, and_assoc]

theorem allSteps_congr {law : σ → α → Prop} (h : ∀ s a, ok s a ↔ law s a) :
    ∀ (as : List α) (s : σ), AllSteps step ok s as ↔ AllSteps step law s as := by
  intro as
  induction as with
  | nil => exact fun s => Iff.rfl
  | cons a as ih => exact fun s => and_congr (h s a) (ih (step s a))

theorem AllSteps.mono {law : σ → α → Prop} (h : ∀ s a, ok s a → law s a) :
    ∀ {as : List α} {s : σ}, AllSteps step ok s as → AllSteps step law s as := by
  intro as
  induction as with
  | nil => exact fun _ => trivial
  | cons a as ih => exact fun hall => ⟨h _ a hall.1, ih hall.2⟩

/-- A law of the actions alone. -/
theorem allSteps_of_mem : ∀ {as : List α} {s : σ}, (∀ a ∈ as, ∀ s, ok s a) →
    AllSteps step ok s as := by
  intro as
  induction as with
  | nil => exact fun _ => trivial
  | cons a as ih => exact fun h => ⟨h a (by simp) _, ih fun b hb => h b (by simp [hb])⟩

theorem allSteps_const_iff {law : α → Prop} : ∀ {as : List α} {s : σ},
    AllSteps step (fun _ a => law a) s as ↔ ∀ a ∈ as, law a := by
  intro as
  induction as with
  | nil => exact fun {s} => ⟨fun _ _ ha => absurd ha List.not_mem_nil, fun _ => trivial⟩
  | cons a as ih => intro s; rw [AllSteps, ih, List.forall_mem_cons]

/-- Two laws of the steps are one. -/
theorem allSteps_and {law : σ → α → Prop} : ∀ {as : List α} {s : σ},
    AllSteps step (fun s a => ok s a ∧ law s a) s as ↔
      AllSteps step ok s as ∧ AllSteps step law s as := by
  intro as
  induction as with
  | nil => exact fun {s} => ⟨fun _ => ⟨trivial, trivial⟩, fun _ => trivial⟩
  | cons a as ih => intro s; rw [AllSteps, AllSteps, AllSteps, ih, and_and_and_comm]

/-- A law of the states is one of the first state and of where the steps lead. -/
theorem allStates_iff_steps : ∀ {as : List α} {s : σ},
    AllStates step P s as ↔ P s ∧ AllSteps step (fun s a => P (step s a)) s as := by
  intro as
  induction as with
  | nil => exact fun {s} => ⟨fun h => ⟨h, trivial⟩, fun h => h.1⟩
  | cons a as ih => intro s; rw [AllStates, AllSteps, ih]

/-- The first state of a run is one of its states. -/
theorem AllStates.head : ∀ {as : List α} {s : σ}, AllStates step P s as → P s
  | [], _, h => h
  | _ :: _, _, h => h.1

/-- The last state of a run is one of its states. -/
theorem AllStates.last : ∀ {as : List α} {s : σ}, AllStates step P s as → P (run step s as)
  | [], _, h => h
  | _ :: _, _, h => h.2.last

/-- **The invariant rule.**  An invariant that every guarded step keeps holds in
every state of a guarded run. -/
theorem allStates_of_invariant (hstep : ∀ s a, Inv s → ok s a → Inv (step s a)) :
    ∀ (as : List α) (s : σ), Inv s → AllSteps step ok s as → AllStates step Inv s as := by
  intro as
  induction as with
  | nil => intro s hs _; exact hs
  | cons a as ih =>
    intro s hs hok
    exact ⟨hs, ih (step s a) (hstep s a hs hok.1) hok.2⟩

/-- The invariant rule for an invariant that every step keeps. -/
theorem allStates_of_step (hstep : ∀ s a, Inv s → Inv (step s a)) :
    ∀ (as : List α) (s : σ), Inv s → AllStates step Inv s as := by
  intro as
  induction as with
  | nil => intro s hs; exact hs
  | cons a as ih => intro s hs; exact ⟨hs, ih (step s a) (hstep s a hs)⟩

/-- The invariant rule for the steps of a run: what follows from the invariant and the
guard holds of every step. -/
theorem allSteps_of_invariant {law : σ → α → Prop}
    (hstep : ∀ s a, Inv s → ok s a → Inv (step s a))
    (hlaw : ∀ s a, Inv s → ok s a → law s a) :
    ∀ (as : List α) (s : σ), Inv s → AllSteps step ok s as → AllSteps step law s as := by
  intro as
  induction as with
  | nil => intro s _ _; trivial
  | cons a as ih =>
    intro s hs hok
    exact ⟨hlaw s a hs hok.1, ih (step s a) (hstep s a hs hok.1) hok.2⟩

/-- The invariant rule for the steps, for an invariant that every step keeps. -/
theorem allSteps_of_step {law : σ → α → Prop} (hstep : ∀ s a, Inv s → Inv (step s a))
    (hlaw : ∀ s a, Inv s → law s a) :
    ∀ (as : List α) (s : σ), Inv s → AllSteps step law s as := by
  intro as
  induction as with
  | nil => intro s _; trivial
  | cons a as ih => intro s hs; exact ⟨hlaw s a hs, ih (step s a) (hstep s a hs)⟩

/-- The exactness rule for the steps: as long as the invariant holds, a step is guarded exactly when
it meets the law, and guarded steps keep the invariant. -/
theorem allSteps_iff_of_invariant {law : σ → α → Prop}
    (hstep : ∀ s a, Inv s → ok s a → Inv (step s a))
    (hiff : ∀ s a, Inv s → (law s a ↔ ok s a)) :
    ∀ (as : List α) (s : σ), Inv s → (AllSteps step law s as ↔ AllSteps step ok s as) := by
  intro as
  induction as with
  | nil => exact fun s _ => Iff.rfl
  | cons a as ih =>
    intro s hs
    rw [AllSteps, AllSteps, hiff s a hs]
    exact and_congr_right fun hok => ih (step s a) (hstep s a hs hok)

/-- The invariant rule for the last state alone. -/
theorem run_of_invariant (hstep : ∀ s a, Inv s → ok s a → Inv (step s a)) :
    ∀ (as : List α) (s : σ), Inv s → AllSteps step ok s as → Inv (run step s as) := by
  intro as
  induction as with
  | nil => intro s hs _; exact hs
  | cons a as ih =>
    intro s hs hok
    exact ih (step s a) (hstep s a hs hok.1) hok.2

theorem AllStates.mono (h : ∀ s, Inv s → P s) :
    ∀ {as : List α} {s : σ}, AllStates step Inv s as → AllStates step P s as := by
  intro as
  induction as with
  | nil => intro s hs; exact h s hs
  | cons a as ih => intro s hs; exact ⟨h s hs.1, ih hs.2⟩

/-- **The exactness rule.**  Guarded steps keep the invariant, the invariant
gives the law, and a step that breaks the guard breaks the law in the very next
state: then the law holds along a run exactly when every step is guarded. -/
theorem allStates_iff_allSteps (hlaw : ∀ s, Inv s → P s)
    (hstep : ∀ s a, Inv s → ok s a → Inv (step s a))
    (hbad : ∀ s a, Inv s → ¬ ok s a → ¬ P (step s a)) :
    ∀ (as : List α) (s : σ), Inv s → (AllStates step P s as ↔ AllSteps step ok s as) := by
  intro as
  induction as with
  | nil => intro s hs; exact ⟨fun _ => trivial, fun _ => hlaw s hs⟩
  | cons a as ih =>
    intro s hs
    constructor
    · rintro ⟨-, h⟩
      have hok : ok s a := by
        by_contra hc
        exact hbad s a hs hc h.head
      exact ⟨hok, (ih (step s a) (hstep s a hs hok)).1 h⟩
    · rintro ⟨hok, h⟩
      exact ⟨hlaw s hs, (ih (step s a) (hstep s a hs hok)).2 h⟩

end Runs
