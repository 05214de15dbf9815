import Mathlib.Tactic

/-!
# Loops over the entries of a table

A loop that runs an index from zero and changes one entry in each round leaves a
table whose entries have each been changed once.  This file states that once, for
any state with a way to read its entries.

* `Entrywise` — the body of the loop changes the entry it is at, keeps the others,
  and keeps an invariant of the table; `Entrywise.guarded` is for a body under a test.
* `get_foldl_range` — what the loop leaves.
* `Keywise`, `get_foldl_of_mem`, `get_foldl_of_notMem` — the same for a loop over entries with
  keys of their own.
-/

namespace IndexLoop

variable {σ β : Type*}

/-- The body of the loop in round `k`: it keeps the invariant, and changes the `k`-th entry
alone. -/
def Entrywise (Inv : σ → Prop) (get : σ → ℕ → β) (f : ℕ → β → β) (body : σ → ℕ → σ) (k : ℕ) :
    Prop :=
  ∀ s, Inv s → Inv (body s k) ∧ ∀ i, get (body s k) i = if k = i then f k (get s i) else get s i

variable {Inv : σ → Prop} {get : σ → ℕ → β} {f : ℕ → β → β} {body : σ → ℕ → σ} {n : ℕ}

/-- A body that does something in some rounds only. -/
theorem Entrywise.guarded {k : ℕ} (h : Entrywise Inv get f body k) (b : ℕ → Bool) :
    Entrywise Inv get (fun k v => if b k then f k v else v) (fun s k => if b k then body s k else s)
      k := by
  intro s hs
  cases hb : b k with
  | false => simp [hb, hs]
  | true => simpa [hb] using h s hs

/-- **The loop rule.**  After the first `n` rounds every entry below `n` has been changed once,
and no other. -/
theorem get_foldl_range (hbody : ∀ k < n, Entrywise Inv get f body k) (s : σ) (hs : Inv s) :
    Inv ((List.range n).foldl body s) ∧
      ∀ i, get ((List.range n).foldl body s) i = if i < n then f i (get s i) else get s i := by
  induction n with
  | zero => exact ⟨hs, fun i => rfl⟩
  | succ n ih =>
    obtain ⟨hinv, hget⟩ := ih fun k hk => hbody k (Nat.lt_succ_of_lt hk)
    rw [List.range_succ, List.foldl_append, List.foldl_cons, List.foldl_nil]
    obtain ⟨hinv', hget'⟩ := hbody n (Nat.lt_succ_self n) _ hinv
    refine ⟨hinv', fun i => ?_⟩
    rw [hget' i, hget i]
    rcases lt_trichotomy i n with hi | hi | hi
    · rw [if_neg hi.ne', if_pos hi, if_pos (Nat.lt_succ_of_lt hi)]
    · subst hi
      rw [if_pos rfl, if_neg (lt_irrefl i), if_pos (Nat.lt_succ_self i)]
    · rw [if_neg hi.ne, if_neg hi.not_gt, if_neg (Nat.not_lt.mpr hi)]

/-! ## Keys -/

section Keys

variable {κ α : Type*} [DecidableEq κ]

/-- The body of the loop changes the entry at the key of its round alone. -/
def Keywise (key : α → κ) (get : σ → κ → β) (f : α → β → β) (body : σ → α → σ) : Prop :=
  ∀ s a i, get (body s a) i = if key a = i then f a (get s i) else get s i

variable {key : α → κ} {get : σ → κ → β} {f : α → β → β} {body : σ → α → σ}

/-- No round is about the key. -/
theorem get_foldl_of_notMem (hbody : Keywise key get f body) {i : κ} :
    ∀ {l : List α} {s : σ}, (∀ a ∈ l, key a ≠ i) → get (l.foldl body s) i = get s i := by
  intro l
  induction l with
  | nil => intro s _; rfl
  | cons a l ih =>
    intro s hl
    rw [List.foldl_cons, ih fun b hb => hl b (List.mem_cons_of_mem a hb), hbody,
      if_neg (hl a List.mem_cons_self)]

/-- **The loop rule for keys.**  When no key comes twice, the entry of a key that comes has been
changed once. -/
theorem get_foldl_of_mem (hbody : Keywise key get f body) :
    ∀ {l : List α} {s : σ} {a : α}, (l.map key).Nodup → a ∈ l →
      get (l.foldl body s) (key a) = f a (get s (key a)) := by
  intro l
  induction l with
  | nil => intro s a _ ha; cases ha
  | cons b l ih =>
    intro s a hl ha
    rw [List.map_cons, List.nodup_cons] at hl
    rw [List.foldl_cons]
    rcases List.mem_cons.mp ha with rfl | ha
    · have hnot : ∀ c ∈ l, key c ≠ key a := by
        intro c hc h
        exact hl.1 (h ▸ List.mem_map_of_mem hc)
      rw [get_foldl_of_notMem hbody hnot, hbody, if_pos rfl]
    · have hne : key b ≠ key a := fun h => hl.1 (h ▸ List.mem_map_of_mem ha)
      rw [ih hl.2 ha, hbody, if_neg hne]

end Keys

end IndexLoop
