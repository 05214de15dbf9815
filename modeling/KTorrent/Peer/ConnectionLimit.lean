import KTorrent.Lib.FiniteMap
import KTorrent.Lib.Run
import Mathlib.Tactic

/-!
# The connection limit

The model of `ConnectionLimit`.  A connection holds a token of its torrent, and
the limit counts the tokens twice: all of them, and by torrent.

* `acquire`, `release`, `setLimits` — as the source computes them.
* `Balanced` — the counters are what they should be.
* `allStates_balanced` — they always are, and the limits are kept as long as they
  are not lowered.
-/

namespace KTorrent

/-- `ConnectionLimit`, for hashes of any kind.  There are fewer sockets than a `Uint32` can
count, so the counters do not wrap. -/
structure ConnectionLimit (Hash : Type) [DecidableEq Hash] where
  globalLimit : ℕ
  globalTotal : ℕ
  torrentLimit : ℕ
  torrentTotals : AList fun _ : Hash => ℕ

namespace ConnectionLimit

variable {Hash : Type} [DecidableEq Hash]

/-- `ConnectionLimit()`, for the limit of the system. -/
def new (systemLimit : ℕ) : ConnectionLimit Hash :=
  { globalLimit := systemLimit, globalTotal := 0, torrentLimit := 0, torrentTotals := ∅ }

/-- `ConnectionLimit::setLimits`. -/
def setLimits (c : ConnectionLimit Hash) (systemLimit globalLimit torrentLimit : ℕ) :
    ConnectionLimit Hash :=
  { c with
    globalLimit := if globalLimit > systemLimit then systemLimit else globalLimit
    torrentLimit := torrentLimit }

/-- `ConnectionLimit::acquire`: whether there is a token, and the new state. -/
def acquire (c : ConnectionLimit Hash) (hash : Hash) : Bool × ConnectionLimit Hash :=
  if c.globalLimit ≠ 0 ∧ c.globalTotal ≥ c.globalLimit then (false, c)
  else
    match c.torrentTotals.lookup hash with
    | none =>
      (true, { c with
        torrentTotals := c.torrentTotals.insert hash 1
        globalTotal := c.globalTotal + 1 })
    | some n =>
      if c.torrentLimit = 0 ∨ n < c.torrentLimit then
        (true, { c with
          torrentTotals := c.torrentTotals.insert hash (n + 1)
          globalTotal := c.globalTotal + 1 })
      else (false, c)

/-- `ConnectionLimit::release`. -/
def release (c : ConnectionLimit Hash) (hash : Hash) : ConnectionLimit Hash :=
  match c.torrentTotals.lookup hash with
  | none => c
  | some n =>
    let n := if n > 0 then n - 1 else n
    { c with
      torrentTotals :=
        if n = 0 then c.torrentTotals.erase hash else c.torrentTotals.insert hash n
      globalTotal := if c.globalTotal > 0 then c.globalTotal - 1 else c.globalTotal }

end ConnectionLimit

/-! ## Tokens -/

/-- The limit and the tokens that are alive, each by its hash. -/
structure Tokens (Hash : Type) [DecidableEq Hash] where
  limit : ConnectionLimit Hash
  live : List Hash

/-- What happens to the tokens. -/
inductive TokenEvent (Hash : Type) where
  | acquire (hash : Hash)
  /-- The destructor of the `i`-th token that is alive. -/
  | destroy (i : ℕ)
  | setLimits (systemLimit globalLimit torrentLimit : ℕ)

namespace Tokens

open Runs FiniteMap

variable {Hash : Type} [DecidableEq Hash]

/-- No tokens. -/
def start (systemLimit : ℕ) : Tokens Hash := { limit := .new systemLimit, live := [] }

/-- One event. -/
def step (s : Tokens Hash) : TokenEvent Hash → Tokens Hash
  | .acquire hash =>
    let (ok, limit) := s.limit.acquire hash
    { limit := limit, live := if ok then hash :: s.live else s.live }
  | .destroy i =>
    match s.live[i]? with
    | none => s
    | some hash => { limit := s.limit.release hash, live := s.live.eraseIdx i }
  | .setLimits systemLimit globalLimit torrentLimit =>
    { s with limit := s.limit.setLimits systemLimit globalLimit torrentLimit }

/-- The counters are the numbers of tokens. -/
structure Balanced (s : Tokens Hash) : Prop where
  /-- The global counter is the sum of the others. -/
  total : s.limit.globalTotal = total (fun _ n => n) s.limit.torrentTotals
  length : s.limit.globalTotal = s.live.length
  /-- An entry is positive and counts the tokens of its hash. -/
  entry : ∀ hash n, s.limit.torrentTotals.lookup hash = some n → 0 < n ∧ n = s.live.count hash
  /-- A hash without an entry has no tokens. -/
  noEntry : ∀ hash, s.limit.torrentTotals.lookup hash = none → s.live.count hash = 0

/-- There are not more tokens than the limits allow; zero is no limit. -/
structure WithinLimits (s : Tokens Hash) : Prop where
  global : s.limit.globalLimit ≠ 0 → s.live.length ≤ s.limit.globalLimit
  torrent : s.limit.torrentLimit ≠ 0 → ∀ hash, s.live.count hash ≤ s.limit.torrentLimit

/-- The limit `new` allows as much as `old`. -/
def AtLeast (old new : ℕ) : Prop := new = 0 ∨ (old ≠ 0 ∧ old ≤ new)

/-- The event does not lower a limit. -/
def NotLowered (s : Tokens Hash) (e : TokenEvent Hash) : Prop :=
  AtLeast s.limit.globalLimit (s.step e).limit.globalLimit ∧
    AtLeast s.limit.torrentLimit (s.step e).limit.torrentLimit

instance (old new : ℕ) : Decidable (AtLeast old new) := inferInstanceAs (Decidable (_ ∨ _))

instance (s : Tokens Hash) (e : TokenEvent Hash) : Decidable (s.NotLowered e) :=
  inferInstanceAs (Decidable (_ ∧ _))

/-! ## One event -/

variable {s : Tokens Hash} {hash : Hash} {n : ℕ}

theorem Balanced.lookup (h : s.Balanced) :
    (s.limit.torrentTotals.lookup hash).getD 0 = s.live.count hash := by
  cases hl : s.limit.torrentTotals.lookup hash with
  | none => exact (h.noEntry hash hl).symm
  | some n => exact (h.entry hash n hl).2

/-- A token more. -/
theorem Balanced.insert (h : s.Balanced) (hl : (s.limit.torrentTotals.lookup hash).getD 0 = n) :
    Balanced { s with
      limit := { s.limit with
        torrentTotals := s.limit.torrentTotals.insert hash (n + 1)
        globalTotal := s.limit.globalTotal + 1 }
      live := hash :: s.live } := by
  have hcount : s.live.count hash = n := h.lookup.symm.trans hl
  refine ⟨?_, ?_, fun hash' n' hn' => ?_, fun hash' hn' => ?_⟩
  · show s.limit.globalTotal + 1 =
      FiniteMap.total (fun _ n => n) (s.limit.torrentTotals.insert hash (n + 1))
    rw [h.total]
    cases hlookup : s.limit.torrentTotals.lookup hash with
    | none =>
      rw [hlookup, Option.getD_none] at hl
      rw [total_insert_of_notMem (AList.lookup_eq_none.mp hlookup), ← hl]
      omega
    | some n' =>
      rw [hlookup, Option.getD_some] at hl
      have hreplace := total_insert (f := fun (_ : Hash) n => n) hlookup (n + 1)
      omega
  · show s.limit.globalTotal + 1 = (hash :: s.live).length
    rw [h.length, List.length_cons]
  · by_cases heq : hash' = hash
    · subst heq
      rw [AList.lookup_insert] at hn'
      obtain rfl := Option.some.inj hn'
      rw [List.count_cons_self, hcount]
      exact ⟨Nat.succ_pos _, rfl⟩
    · rw [AList.lookup_insert_ne heq] at hn'
      rw [List.count_cons_of_ne (Ne.symm heq)]
      exact h.entry hash' n' hn'
  · by_cases heq : hash' = hash
    · subst heq
      rw [AList.lookup_insert] at hn'
      cases hn'
    · rw [AList.lookup_insert_ne heq] at hn'
      rw [List.count_cons_of_ne (Ne.symm heq)]
      exact h.noEntry hash' hn'

theorem acquire_cases (c : ConnectionLimit Hash) (hash : Hash) :
    c.acquire hash = (false, c) ∨
      ((c.globalLimit ≠ 0 → c.globalTotal < c.globalLimit) ∧
        (c.torrentLimit ≠ 0 → (c.torrentTotals.lookup hash).getD 0 < c.torrentLimit) ∧
        c.acquire hash = (true, { c with
          torrentTotals := c.torrentTotals.insert hash ((c.torrentTotals.lookup hash).getD 0 + 1)
          globalTotal := c.globalTotal + 1 })) := by
  unfold ConnectionLimit.acquire
  split
  · exact .inl rfl
  · rename_i hglobal
    have hroom : c.globalLimit ≠ 0 → c.globalTotal < c.globalLimit :=
      fun hne => not_le.mp fun hle => hglobal ⟨hne, hle⟩
    split
    · rename_i hlookup
      right
      rw [hlookup]
      exact ⟨hroom, fun hne => Nat.pos_of_ne_zero hne, rfl⟩
    · rename_i n hlookup
      split
      · rename_i hlimit
        right
        rw [hlookup]
        exact ⟨hroom, fun hne => hlimit.resolve_left hne, rfl⟩
      · exact .inl rfl

theorem Balanced.acquire (h : s.Balanced) (hash : Hash) : (s.step (.acquire hash)).Balanced := by
  rcases acquire_cases s.limit hash with hfail | ⟨-, -, hok⟩
  · unfold step
    simp only [hfail]
    exact h
  · unfold step
    simp only [hok]
    exact h.insert rfl

theorem step_destroy_none {i : ℕ} (h : s.live[i]? = none) : s.step (.destroy i) = s := by
  simp only [step, h]

theorem step_destroy {i : ℕ} (h : s.live[i]? = some hash) :
    s.step (.destroy i) = { limit := s.limit.release hash, live := s.live.eraseIdx i } := by
  simp only [step, h]

/-- A token less. -/
theorem Balanced.destroy (h : s.Balanced) (i : ℕ) : (s.step (.destroy i)).Balanced := by
  cases hi : s.live[i]? with
  | none =>
    rw [step_destroy_none hi]
    exact h
  | some hash =>
    rw [step_destroy hi]
    obtain ⟨hlt, hget⟩ := List.getElem?_eq_some_iff.mp hi
    -- the token is counted, so it has an entry
    have hmem : 0 < s.live.count hash := by
      rw [List.count_pos_iff, ← hget]
      exact List.getElem_mem hlt
    have hcount : ∀ hash', (s.live.eraseIdx i).count hash' =
        s.live.count hash' - if hash' = hash then 1 else 0 := by
      intro hash'
      have hperm := (List.getElem_cons_eraseIdx_perm hlt).count_eq hash'
      rw [hget, List.count_cons] at hperm
      by_cases heq : hash' = hash
      · rw [if_pos heq]
        rw [if_pos (beq_iff_eq.mpr heq.symm)] at hperm
        omega
      · rw [if_neg heq]
        rw [if_neg (fun hc => heq (beq_iff_eq.mp hc).symm)] at hperm
        omega
    cases hlookup : s.limit.torrentTotals.lookup hash with
    | none =>
      rw [h.noEntry hash hlookup] at hmem
      exact absurd hmem (lt_irrefl 0)
    | some n =>
      obtain ⟨hpos, hn⟩ := h.entry hash n hlookup
      have htotal := h.total
      have hle := le_total (f := fun (_ : Hash) n => n) hlookup
      have hglobal : s.limit.globalTotal > 0 := by omega
      simp only [ConnectionLimit.release, hlookup, if_pos hpos, if_pos hglobal]
      refine ⟨?_, ?_, fun hash' n' hn' => ?_, fun hash' hn' => ?_⟩
      · show s.limit.globalTotal - 1 = _
        dsimp only
        split
        · have herase := total_erase (f := fun (_ : Hash) n => n) hlookup
          omega
        · have hreplace := total_insert (f := fun (_ : Hash) n => n) hlookup (n - 1)
          omega
      · show s.limit.globalTotal - 1 = (s.live.eraseIdx i).length
        rw [h.length, List.length_eraseIdx_of_lt hlt]
      · show 0 < n' ∧ n' = (s.live.eraseIdx i).count hash'
        dsimp only at hn'
        rw [hcount]
        by_cases heq : hash' = hash
        · subst heq
          rw [if_pos rfl]
          split at hn'
          · rw [AList.lookup_erase] at hn'
            cases hn'
          · rw [AList.lookup_insert] at hn'
            obtain rfl := Option.some.inj hn'
            omega
        · rw [if_neg heq, Nat.sub_zero]
          apply h.entry hash' n'
          split at hn'
          · rw [AList.lookup_erase_ne heq] at hn'
            exact hn'
          · rw [AList.lookup_insert_ne heq] at hn'
            exact hn'
      · show (s.live.eraseIdx i).count hash' = 0
        dsimp only at hn'
        rw [hcount]
        by_cases heq : hash' = hash
        · subst heq
          rw [if_pos rfl]
          split at hn'
          · omega
          · rw [AList.lookup_insert] at hn'
            cases hn'
        · rw [if_neg heq, Nat.sub_zero]
          apply h.noEntry hash'
          split at hn'
          · rw [AList.lookup_erase_ne heq] at hn'
            exact hn'
          · rw [AList.lookup_insert_ne heq] at hn'
            exact hn'

theorem balanced_step (s : Tokens Hash) (e : TokenEvent Hash) (h : s.Balanced) : (s.step e).Balanced := by
  cases e with
  | acquire hash => exact h.acquire hash
  | destroy i => exact h.destroy i
  | setLimits systemLimit globalLimit torrentLimit => exact ⟨h.total, h.length, h.entry, h.noEntry⟩

/-! ## The limits -/

theorem WithinLimits.acquire (h : s.WithinLimits) (hbal : s.Balanced) (hash : Hash) :
    (s.step (.acquire hash)).WithinLimits := by
  rcases acquire_cases s.limit hash with hfail | ⟨hglobal, htorrent, hok⟩
  · unfold step
    simp only [hfail]
    exact h
  · unfold step
    simp only [hok]
    refine ⟨fun hne => ?_, fun hne hash' => ?_⟩
    · have hlt := hglobal hne
      rw [hbal.length] at hlt
      exact hlt
    · have hlt := htorrent hne
      rw [hbal.lookup] at hlt
      show (hash :: s.live).count hash' ≤ s.limit.torrentLimit
      by_cases heq : hash' = hash
      · rw [heq, List.count_cons_self]
        exact hlt
      · rw [List.count_cons_of_ne (Ne.symm heq)]
        exact h.torrent hne hash'

theorem WithinLimits.destroy (h : s.WithinLimits) (i : ℕ) : (s.step (.destroy i)).WithinLimits := by
  cases hi : s.live[i]? with
  | none =>
    rw [step_destroy_none hi]
    exact h
  | some hash =>
    rw [step_destroy hi]
    have hsub := List.eraseIdx_sublist s.live i
    have hlimits : (s.limit.release hash).globalLimit = s.limit.globalLimit ∧
        (s.limit.release hash).torrentLimit = s.limit.torrentLimit := by
      unfold ConnectionLimit.release
      split
      · exact ⟨rfl, rfl⟩
      · exact ⟨rfl, rfl⟩
    refine ⟨fun hne => ?_, fun hne hash' => ?_⟩
    · dsimp only at hne ⊢
      rw [hlimits.1] at hne ⊢
      exact hsub.length_le.trans (h.global hne)
    · dsimp only at hne ⊢
      rw [hlimits.2] at hne ⊢
      exact (hsub.count_le hash').trans (h.torrent hne hash')

theorem AtLeast.le {old new n : ℕ} (h : AtLeast old new) (hne : new ≠ 0) (hold : old ≠ 0 → n ≤ old) :
    n ≤ new := by
  obtain ⟨hpos, hle⟩ := h.resolve_left hne
  exact (hold hpos).trans hle

theorem withinLimits_step (s : Tokens Hash) (e : TokenEvent Hash) (h : s.Balanced ∧ s.WithinLimits)
    (hok : s.NotLowered e) : (s.step e).Balanced ∧ (s.step e).WithinLimits := by
  refine ⟨balanced_step s e h.1, ?_⟩
  cases e with
  | acquire hash => exact h.2.acquire h.1 hash
  | destroy i => exact h.2.destroy i
  | setLimits systemLimit globalLimit torrentLimit =>
    refine ⟨fun hne => ?_, fun hne hash => ?_⟩
    · exact hok.1.le hne h.2.global
    · exact hok.2.le hne fun hold => h.2.torrent hold hash

theorem balanced_start (systemLimit : ℕ) : (start systemLimit : Tokens Hash).Balanced where
  total := rfl
  length := rfl
  entry := fun hash n h => by cases h
  noEntry := fun _ _ => rfl

theorem withinLimits_start (systemLimit : ℕ) : (start systemLimit : Tokens Hash).WithinLimits :=
  ⟨fun _ => Nat.zero_le _, fun _ _ => Nat.zero_le _⟩

/-- **The counters are balanced** in every state, and as long as no limit is lowered there
are not more tokens than the limits allow.  To the source's `Uint32`s this applies as long as
fewer than `2 ^ 32` tokens are alive, which each hold a socket. -/
theorem allStates_balanced (systemLimit : ℕ) (events : List (TokenEvent Hash)) :
    AllStates step Balanced (start systemLimit) events ∧
      (AllSteps step NotLowered (start systemLimit) events →
        AllStates step WithinLimits (start systemLimit) events) := by
  constructor
  · exact allStates_of_step balanced_step events _ (balanced_start systemLimit)
  · intro hok
    have hstart : (start systemLimit : Tokens Hash).Balanced ∧
        (start systemLimit : Tokens Hash).WithinLimits :=
      ⟨balanced_start systemLimit, withinLimits_start systemLimit⟩
    exact (allStates_of_invariant withinLimits_step events _ hstart hok).mono fun s h => h.2

/-- Two tokens, one of which is given back, and a higher limit. -/
theorem allStates_balanced_raised :
    AllStates step WithinLimits (start 2)
      [TokenEvent.acquire 7, .acquire 7, .acquire 8, .destroy 0, .setLimits 3 3 0, .acquire 8] := by
  apply (allStates_balanced 2 _).2
  decide +kernel

end Tokens

end KTorrent
