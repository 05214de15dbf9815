import KTorrent.Lib.Run
import KTorrent.Utp.DelayWindow
import Mathlib.Data.List.TakeWhile

/-!
# Delays and the offset of two clocks

The clocks of two hosts are not related: a constant may be added to every time stamp difference.
The window compares the differences as plain numbers, so this shows when one of two numbers
passes the end of 32 bits and the other does not.

* `Sample.shift`, `DelayWindow.shift` — a constant added to every difference.
* `WrapsAlike` — the new sample passes the end together with the front of the window, or not.
* `update_shift` — then the window moves with the constant.
* `delays_shift_iff` — exactly then every delay stays what it was.
* `delayMeasurement_exact` — that, and when the reply is the difference of the two clocks.
-/

namespace KTorrent.Utp

open Runs

/-- A packet as the measurement sees it, and the two clocks. -/
structure Sample where
  hdr : Timestamps
  tms : UInt32
  now : UInt64
  deriving DecidableEq, Repr

/-- The difference of a sample. -/
def Sample.diff (s : Sample) : UInt32 := s.hdr.timestampDifferenceMicroseconds

/-- The sample with `k` added to its difference. -/
def Sample.shift (k : UInt32) (s : Sample) : Sample :=
  { s with
    hdr := { s.hdr with timestampDifferenceMicroseconds := s.diff + k } }

/-- The entry that the window makes of a sample. -/
def Sample.entry (s : Sample) : DelayEntry := ⟨s.diff, s.now⟩

namespace DelayMeasurement

/-- One sample. -/
def step (m : DelayMeasurement) (s : Sample) : DelayMeasurement := (m.update s.hdr s.tms s.now).1

/-- `our_delay_us` for a sample. -/
def ourDelay (m : DelayMeasurement) (s : Sample) : UInt32 := (m.update s.hdr s.tms s.now).2

/-- `our_delay_us` for one sample after the other. -/
def delays : DelayMeasurement → List Sample → List UInt32
  | _, [] => []
  | m, s :: samples => m.ourDelay s :: (m.step s).delays samples

end DelayMeasurement

/-! ## Adding a constant -/

/-- `x + k` passes the end of 32 bits. -/
def Wraps (k x : UInt32) : Prop := 2 ^ 32 ≤ x.toNat + k.toNat

instance (k x : UInt32) : Decidable (Wraps k x) :=
  inferInstanceAs (Decidable (2 ^ 32 ≤ x.toNat + k.toNat))

section Constant

variable {k x y : UInt32}

theorem toNat_add_of_wraps (h : Wraps k x) : (x + k).toNat + 2 ^ 32 = x.toNat + k.toNat := by
  have hx := x.toNat_lt
  have hk := k.toNat_lt
  rw [UInt32.toNat_add, Nat.mod_eq_sub_mod h, Nat.mod_eq_of_lt (by omega)]
  exact Nat.sub_add_cancel h

theorem toNat_add_of_not_wraps (h : ¬ Wraps k x) : (x + k).toNat = x.toNat + k.toNat := by
  rw [UInt32.toNat_add, Nat.mod_eq_of_lt (not_le.mp h)]

theorem add_lt_add_iff_of_alike (h : Wraps k x ↔ Wraps k y) : x + k < y + k ↔ x < y := by
  rw [UInt32.lt_iff_toNat_lt, UInt32.lt_iff_toNat_lt]
  by_cases hx : Wraps k x
  · have hx' := toNat_add_of_wraps hx
    have hy' := toNat_add_of_wraps (h.mp hx)
    omega
  · rw [toNat_add_of_not_wraps hx, toNat_add_of_not_wraps (fun hy => hx (h.mpr hy))]
    omega

theorem add_lt_add_of_wraps (hx : Wraps k x) (hy : ¬ Wraps k y) : x + k < y + k := by
  have hlt := x.toNat_lt
  have hx' := toNat_add_of_wraps hx
  rw [UInt32.lt_iff_toNat_lt, toNat_add_of_not_wraps hy]
  omega

theorem add_sub_add_constant : x + k - (y + k) = x - y := by
  grind

theorem eq_of_sub_eq_zero (h : x - y = 0) : x = y := by
  grind

theorem not_lt_of_lt (h : x < y) : ¬ y < x := by
  rw [UInt32.lt_iff_toNat_lt] at h ⊢
  omega

theorem lt_of_wraps (hx : Wraps k x) (hy : ¬ Wraps k y) : y < x := by
  rw [Wraps] at hx hy
  rw [UInt32.lt_iff_toNat_lt]
  omega

end Constant

/-! ## The window, moved -/

/-- The entry with `k` added to its difference. -/
def DelayEntry.shift (k : UInt32) (e : DelayEntry) : DelayEntry :=
  { e with timestampDifferenceMicroseconds := e.timestampDifferenceMicroseconds + k }

@[simp] theorem Sample.diff_shift (k : UInt32) (s : Sample) : (s.shift k).diff = s.diff + k := rfl

@[simp] theorem DelayEntry.diff_shift (k : UInt32) (e : DelayEntry) :
    (e.shift k).timestampDifferenceMicroseconds = e.timestampDifferenceMicroseconds + k := rfl

namespace DelayWindow

variable {k : UInt32} {w : DelayWindow} {hdr : Timestamps} {t : UInt64} {e : DelayEntry}

/-- The window with `k` added to every difference. -/
def shift (k : UInt32) (w : DelayWindow) : DelayWindow :=
  { w with entries := w.entries.map (DelayEntry.shift k) }

/-- The entries pass the end of 32 bits like `x` does and ascend, and there is room for two. -/
structure Aligned (k x : UInt32) (w : DelayWindow) : Prop where
  alike : ∀ e ∈ w.entries, (Wraps k e.timestampDifferenceMicroseconds ↔ Wraps k x)
  ascending : w.entries.Pairwise fun e e' =>
    e.timestampDifferenceMicroseconds < e'.timestampDifferenceMicroseconds
  room : 1 < w.capacity

theorem shift_pushBack : (w.pushBack e).shift k = (w.shift k).pushBack (e.shift k) := by
  simp only [pushBack, shift, List.length_map]
  split <;> simp

theorem shift_cleanup : (w.cleanup t).shift k = (w.shift k).cleanup t := by
  simp only [cleanup, shift, List.dropWhile_map]
  rfl

theorem shift_restart : (w.restart e).shift k = (w.shift k).restart (e.shift k) := by
  simp only [restart, shift_pushBack, apply_ite (shift k)]
  rfl

theorem lowerBound_shift {x : UInt32} (h : Aligned k x w) :
    (w.shift k).lowerBound (x + k) = w.lowerBound x := by
  have habove : ∀ i : ℕ,
      (((w.shift k).entries[i]?).all fun e => !decide (e.timestampDifferenceMicroseconds < x + k)) =
        ((w.entries[i]?).all fun e => !decide (e.timestampDifferenceMicroseconds < x)) := by
    intro i
    rw [shift, List.getElem?_map]
    cases hi : w.entries[i]? with
    | none => rfl
    | some e =>
      have hlt := add_lt_add_iff_of_alike (h.alike e (List.mem_of_getElem? hi))
      simp [DelayEntry.shift, hlt]
  simp only [lowerBound, funext habove]
  simp [shift]

theorem shift_insert (h : Aligned k e.timestampDifferenceMicroseconds w) :
    (w.insert e).shift k = (w.shift k).insert (e.shift k) := by
  have hbound : (w.shift k).lowerBound (e.shift k).timestampDifferenceMicroseconds =
      w.lowerBound e.timestampDifferenceMicroseconds := lowerBound_shift h
  rw [insert, insert, shift_pushBack, hbound]
  simp [shift, List.map_take]

theorem Aligned.shift {x : UInt32} (h : Aligned k x w) :
    (w.shift k).entries.Pairwise fun e e' =>
      e.timestampDifferenceMicroseconds < e'.timestampDifferenceMicroseconds := by
  refine List.pairwise_map.mpr (h.ascending.imp_of_mem ?_)
  intro e e' hmem hmem' hlt
  have hsame := (h.alike e hmem).trans (h.alike e' hmem').symm
  exact (add_lt_add_iff_of_alike hsame).mpr hlt

/-- In an ascending window the search keeps the entries below the new one. -/
theorem take_lowerBound (x : UInt32)
    (h : w.entries.Pairwise fun e e' =>
      e.timestampDifferenceMicroseconds < e'.timestampDifferenceMicroseconds) :
    w.entries.take (w.lowerBound x) =
      w.entries.takeWhile fun e => decide (e.timestampDifferenceMicroseconds < x) := by
  rw [List.takeWhile_eq_take_findIdx_not, lowerBound, Search.upperBound_findIdx]
  refine h.imp ?_
  intro e e' hlt hreached
  simp only [Bool.not_eq_true', decide_eq_false_iff_not, UInt32.lt_iff_toNat_lt] at hlt hreached ⊢
  omega

theorem Aligned.sublist {x : UInt32} {entries : List DelayEntry} (h : Aligned k x w)
    (hsub : entries.Sublist w.entries) : Aligned k x { w with entries := entries } :=
  ⟨fun e hmem => h.alike e (hsub.subset hmem), h.ascending.sublist hsub, h.room⟩

theorem Aligned.pushBack {x : UInt32} (h : Aligned k x w)
    (he : Wraps k e.timestampDifferenceMicroseconds ↔ Wraps k x)
    (hlast : ∀ e' ∈ w.entries,
      e'.timestampDifferenceMicroseconds < e.timestampDifferenceMicroseconds) :
    Aligned k x (w.pushBack e) := by
  have hlonger : Aligned k x { w with entries := w.entries ++ [e] } := by
    refine ⟨fun e' hmem => ?_, ?_, h.room⟩
    · rcases List.mem_append.mp hmem with hold | hnew
      · exact h.alike e' hold
      · rw [List.mem_singleton.mp hnew]
        exact he
    · refine List.pairwise_append.mpr ⟨h.ascending, List.pairwise_singleton _ _, ?_⟩
      intro e' hold e'' hnew
      rw [List.mem_singleton.mp hnew]
      exact hlast e' hold
  refine hlonger.sublist ?_
  split
  · exact List.Sublist.refl _
  · exact List.drop_sublist 1 _

theorem Aligned.cleanup {x : UInt32} (h : Aligned k x w) : Aligned k x (w.cleanup t) :=
  h.sublist (List.dropWhile_sublist _)

theorem Aligned.restart {x : UInt32} (h : Aligned k x w) :
    Aligned k e.timestampDifferenceMicroseconds (w.restart e) := by
  have hroom : ¬ ([] : List DelayEntry).length = w.capacity := by
    have := h.room
    simp only [List.length_nil]
    omega
  rw [DelayWindow.restart, if_neg hroom]
  refine Aligned.pushBack ⟨fun e' hmem => ?_, List.Pairwise.nil, h.room⟩ Iff.rfl ?_
  · cases hmem
  · exact fun e' hmem => by cases hmem

theorem Aligned.insert (h : Aligned k e.timestampDifferenceMicroseconds w) :
    Aligned k e.timestampDifferenceMicroseconds (w.insert e) := by
  refine (h.sublist (List.take_sublist _ _)).pushBack Iff.rfl ?_
  intro e' hmem
  dsimp only at hmem
  rw [take_lowerBound _ h.ascending] at hmem
  simpa using List.mem_takeWhile_imp hmem

theorem front_shift (h : w.entries ≠ []) : (w.shift k).front = w.front + k := by
  cases hentries : w.entries with
  | nil => exact absurd hentries h
  | cons e entries => simp [front, shift, hentries, DelayEntry.shift]

theorem pushBack_ne_nil (h : 1 < w.capacity) : (w.pushBack e).entries ≠ [] := by
  cases hentries : w.entries with
  | nil =>
    have hpos : 0 < w.capacity := by omega
    simp [pushBack, hentries, hpos]
  | cons e' entries =>
    simp only [pushBack, hentries]
    split <;> simp

/-! ## One sample -/

variable {s : Sample}

/-- The front of the window passes the end of 32 bits like the new sample does. -/
def FrontAlike (k : UInt32) (w : DelayWindow) (s : Sample) : Prop :=
  ∀ e ∈ (w.cleanup s.now).entries.head?, (Wraps k e.timestampDifferenceMicroseconds ↔ Wraps k s.diff)

theorem Aligned.of_frontAlike {x : UInt32} (h : Aligned k x w) (hfront : FrontAlike k w s) :
    Aligned k s.diff (w.cleanup s.now) := by
  refine ⟨fun e hmem => ?_, h.cleanup.ascending, h.room⟩
  have hclean := (h.cleanup (t := s.now)).alike
  cases hentries : (w.cleanup s.now).entries with
  | nil =>
    rw [hentries] at hmem
    cases hmem
  | cons e' entries =>
    have hhead := hclean e' (by simp [hentries])
    have hsample := hfront e' (by simp [hentries])
    exact (hclean e hmem).trans (hhead.symm.trans hsample)

theorem update_of_nil (h : (w.cleanup s.now).entries = []) :
    w.update s.hdr s.now = (s.diff, (w.cleanup s.now).restart s.entry) := by
  unfold update
  simp only [h]
  rfl

theorem update_of_lt (h : (w.cleanup s.now).entries.head? = some e)
    (hlt : s.diff < e.timestampDifferenceMicroseconds) :
    w.update s.hdr s.now = (s.diff, (w.cleanup s.now).restart s.entry) := by
  obtain ⟨entries, hentries⟩ := List.head?_eq_some_iff.mp h
  unfold update
  simp only [hentries]
  rw [if_pos (by exact hlt)]
  rfl

theorem update_of_not_lt (h : (w.cleanup s.now).entries.head? = some e)
    (hlt : ¬ s.diff < e.timestampDifferenceMicroseconds) :
    w.update s.hdr s.now =
      (((w.cleanup s.now).insert s.entry).front, (w.cleanup s.now).insert s.entry) := by
  obtain ⟨entries, hentries⟩ := List.head?_eq_some_iff.mp h
  unfold update
  simp only [hentries]
  rw [if_neg (by exact hlt)]
  rfl

theorem head?_cleanup_shift (h : (w.cleanup s.now).entries.head? = some e) :
    ((w.shift k).cleanup (s.shift k).now).entries.head? = some (e.shift k) := by
  have hclean : (w.shift k).cleanup (s.shift k).now = (w.cleanup s.now).shift k :=
    shift_cleanup.symm
  rw [hclean, shift, List.head?_map, h]
  rfl

/-- **One sample**: base delay and window move with the constant. -/
theorem update_shift (h : Aligned k s.diff (w.cleanup s.now)) :
    (w.shift k).update (s.shift k).hdr (s.shift k).now =
      ((w.update s.hdr s.now).1 + k, (w.update s.hdr s.now).2.shift k) := by
  have hclean : (w.shift k).cleanup (s.shift k).now = (w.cleanup s.now).shift k :=
    shift_cleanup.symm
  cases hhead : (w.cleanup s.now).entries.head? with
  | none =>
    have hnil := List.head?_eq_none_iff.mp hhead
    have hnil' : ((w.shift k).cleanup (s.shift k).now).entries = [] := by
      rw [hclean, shift, hnil, List.map_nil]
    rw [update_of_nil hnil, update_of_nil (s := s.shift k) hnil', hclean, shift_restart]
    rfl
  | some e =>
    have hhead' := head?_cleanup_shift (k := k) hhead
    have halike := h.alike e (List.mem_of_head? hhead)
    have hlt : (s.shift k).diff < (e.shift k).timestampDifferenceMicroseconds ↔
        s.diff < e.timestampDifferenceMicroseconds := by
      rw [Sample.diff_shift, DelayEntry.diff_shift]
      exact add_lt_add_iff_of_alike halike.symm
    by_cases hbelow : s.diff < e.timestampDifferenceMicroseconds
    · rw [update_of_lt hhead hbelow, update_of_lt (s := s.shift k) hhead' (hlt.mpr hbelow), hclean,
        shift_restart]
      rfl
    · have hinsert : ((w.cleanup s.now).shift k).insert (s.shift k).entry =
          ((w.cleanup s.now).insert s.entry).shift k := (shift_insert (e := s.entry) h).symm
      have habove : ¬ (s.shift k).diff < (e.shift k).timestampDifferenceMicroseconds :=
        fun hd => hbelow (hlt.mp hd)
      rw [update_of_not_lt hhead hbelow, update_of_not_lt (s := s.shift k) hhead' habove, hclean,
        hinsert, front_shift (w := (w.cleanup s.now).insert s.entry) (pushBack_ne_nil h.room)]

theorem Aligned.update (h : Aligned k s.diff (w.cleanup s.now)) :
    Aligned k s.diff (w.update s.hdr s.now).2 := by
  cases hhead : (w.cleanup s.now).entries.head? with
  | none =>
    rw [update_of_nil (List.head?_eq_none_iff.mp hhead)]
    exact h.restart (e := s.entry)
  | some e =>
    by_cases hbelow : s.diff < e.timestampDifferenceMicroseconds
    · rw [update_of_lt hhead hbelow]
      exact h.restart (e := s.entry)
    · rw [update_of_not_lt hhead hbelow]
      exact Aligned.insert (e := s.entry) h

/-- In front of a sample above it the front of the window stays smaller. -/
theorem front_insert_ne
    (hascending : w.entries.Pairwise fun e e' =>
      e.timestampDifferenceMicroseconds < e'.timestampDifferenceMicroseconds)
    (hroom : 1 < w.capacity) {e' : DelayEntry} (hhead : w.entries.head? = some e')
    (hlt : e'.timestampDifferenceMicroseconds < e.timestampDifferenceMicroseconds) :
    (w.insert e).front ≠ e.timestampDifferenceMicroseconds := by
  obtain ⟨entries, hentries⟩ := List.head?_eq_some_iff.mp hhead
  have htake := take_lowerBound e.timestampDifferenceMicroseconds hascending
  rw [hentries, List.takeWhile_cons_of_pos (by simpa using hlt), ← hentries] at htake
  obtain ⟨kept, hkept⟩ : ∃ kept, kept = entries.takeWhile fun e' =>
    decide (e'.timestampDifferenceMicroseconds < e.timestampDifferenceMicroseconds) := ⟨_, rfl⟩
  rw [← hkept] at htake
  have hne := (UInt32.lt_iff_toNat_lt.mp hlt).ne
  simp only [DelayWindow.insert, pushBack, htake, List.length_cons]
  split
  · exact fun heq => hne (congrArg UInt32.toNat heq)
  · cases hrest : kept with
    | nil =>
      rename_i hfull
      simp only [hrest, List.length_nil] at hfull
      omega
    | cons e'' rest =>
      have hless : e''.timestampDifferenceMicroseconds < e.timestampDifferenceMicroseconds := by
        have hmem : e'' ∈ kept := by simp [hrest]
        rw [hkept] at hmem
        simpa using List.mem_takeWhile_imp hmem
      exact fun heq => (UInt32.lt_iff_toNat_lt.mp hless).ne (congrArg UInt32.toNat heq)

/-- A sample that passes the end of 32 bits without the front of the window, or the other way
round, has another delay. -/
theorem delay_shift_ne {x : UInt32} (h : Aligned k x w) (hfront : ¬ FrontAlike k w s) :
    (s.shift k).diff - ((w.shift k).update (s.shift k).hdr (s.shift k).now).1 ≠
      s.diff - (w.update s.hdr s.now).1 := by
  obtain ⟨e, hhead, hunlike⟩ : ∃ e, (w.cleanup s.now).entries.head? = some e ∧
      ¬ (Wraps k e.timestampDifferenceMicroseconds ↔ Wraps k s.diff) := by
    simpa [FrontAlike] using hfront
  have hhead' := head?_cleanup_shift (k := k) hhead
  have hclean : (w.shift k).cleanup (s.shift k).now = (w.cleanup s.now).shift k :=
    shift_cleanup.symm
  have hroom := h.room
  by_cases hwraps : Wraps k s.diff
  · -- the sample passes the end: it was behind the front and comes before it
    have hfirst : ¬ Wraps k e.timestampDifferenceMicroseconds := fun he => hunlike (by simp [*])
    have hbehind : e.timestampDifferenceMicroseconds < s.diff := lt_of_wraps hwraps hfirst
    have hlt : (s.shift k).diff < (e.shift k).timestampDifferenceMicroseconds :=
      add_lt_add_of_wraps hwraps hfirst
    have hne := front_insert_ne (e := s.entry) h.cleanup.ascending hroom hhead hbehind
    rw [update_of_lt (s := s.shift k) hhead' hlt, update_of_not_lt hhead (not_lt_of_lt hbehind)]
    intro heq
    rw [UInt32.sub_self] at heq
    exact hne (eq_of_sub_eq_zero heq.symm).symm
  · -- the front passes the end: the sample was before it and comes behind
    have hfirst : Wraps k e.timestampDifferenceMicroseconds := by
      by_contra he
      exact hunlike (by simp [*])
    have hbefore : s.diff < e.timestampDifferenceMicroseconds := lt_of_wraps hfirst hwraps
    have hlt : (e.shift k).timestampDifferenceMicroseconds < (s.shift k).diff :=
      add_lt_add_of_wraps hfirst hwraps
    have hne := front_insert_ne (e := (s.shift k).entry) (w := (w.cleanup s.now).shift k)
      h.cleanup.shift hroom (by rw [← hclean, hhead']) hlt
    rw [update_of_not_lt (s := s.shift k) hhead' (not_lt_of_lt hlt), update_of_lt hhead hbefore,
      hclean]
    intro heq
    rw [UInt32.sub_self] at heq
    exact hne (eq_of_sub_eq_zero heq).symm

end DelayWindow

namespace DelayMeasurement

variable {k : UInt32} {m m' : DelayMeasurement}

/-- The guard of one sample. -/
def WrapsAlike (k : UInt32) (m : DelayMeasurement) (s : Sample) : Prop :=
  DelayWindow.FrontAlike k m.delayWindow s

theorem delays_shift {x : UInt32} (samples : List Sample)
    (hwindow : m'.delayWindow = m.delayWindow.shift k)
    (haligned : DelayWindow.Aligned k x m.delayWindow) :
    m'.delays (samples.map (Sample.shift k)) = m.delays samples ↔
      AllSteps step (WrapsAlike k) m samples := by
  induction samples generalizing m m' x with
  | nil => exact ⟨fun _ => trivial, fun _ => rfl⟩
  | cons s samples ih =>
    by_cases hfront : WrapsAlike k m s
    · have hal := haligned.of_frontAlike hfront
      have hone := DelayWindow.update_shift hal
      rw [← hwindow] at hone
      have hdelay : m'.ourDelay (s.shift k) = m.ourDelay s := by
        simp only [ourDelay, update, hone]
        exact add_sub_add_constant
      have hstep : (m'.step (s.shift k)).delayWindow = (m.step s).delayWindow.shift k := by
        simp only [step, update, hone]
      have hrest := ih hstep hal.update
      rw [List.map_cons, delays, delays, hdelay, List.cons.injEq, eq_self, true_and, hrest]
      exact ⟨fun h => ⟨hfront, h⟩, fun h => h.2⟩
    · constructor
      · intro h
        have hne := DelayWindow.delay_shift_ne haligned hfront
        rw [← hwindow] at hne
        exact absurd (List.cons.inj h).1 hne
      · exact fun h => absurd h.1 hfront

/-- **Delays** do not change with the offset of the clocks, exactly when no sample passes the end
of 32 bits without the front of the window. -/
theorem delays_shift_iff (k : UInt32) (samples : List Sample) :
    new.delays (samples.map (Sample.shift k)) = new.delays samples ↔
      AllSteps step (WrapsAlike k) new samples :=
  delays_shift (x := 0) samples rfl ⟨fun _ hmem => (by cases hmem), List.Pairwise.nil, by decide⟩

/-- The answer is the difference of the clocks when the peer's is behind, and by chance. -/
theorem replyMicro_eq_iff (m : DelayMeasurement) (hdr : Timestamps) (tms : UInt32) (now : UInt64) :
    (m.update hdr tms now).1.replyMicro = tms - hdr.timestampMicroseconds ↔
      hdr.timestampMicroseconds < tms ∨
        hdr.timestampDifferenceMicroseconds = tms + (tms - hdr.timestampMicroseconds) := by
  simp only [update]
  split
  · rename_i hbehind
    simp [show hdr.timestampMicroseconds < tms from hbehind]
  · rename_i hahead
    have hnot : ¬ hdr.timestampMicroseconds < tms := hahead
    simp only [hnot, false_or]
    constructor <;> intro h <;> grind

/-- **The measurement** does not depend on the offset, for the answer when the clock of the peer is
behind, and for the delays when no sample passes the end of 32 bits alone. -/
theorem delayMeasurement_exact (m : DelayMeasurement) (hdr : Timestamps) (tms : UInt32)
    (now : UInt64) (k : UInt32) (samples : List Sample) :
    ((m.update hdr tms now).1.replyMicro = tms - hdr.timestampMicroseconds ↔
      hdr.timestampMicroseconds < tms ∨
        hdr.timestampDifferenceMicroseconds = tms + (tms - hdr.timestampMicroseconds)) ∧
      (new.delays (samples.map (Sample.shift k)) = new.delays samples ↔
        AllSteps step (WrapsAlike k) new samples) :=
  ⟨replyMicro_eq_iff m hdr tms now, delays_shift_iff k samples⟩

/-- The clock of the peer is two microseconds ahead, and the answer is not `-2`. -/
def ahead : Timestamps := ⟨7, 0⟩

/-- Two samples, 16 apart, of which the second has passed zero downwards. -/
def twoSamples : List Sample := [⟨⟨0, 10⟩, 20, 1⟩, ⟨⟨0, 4294967290⟩, 30, 2⟩]

/-- The answer is wrong, and the second delay goes from `-16` to zero when 16 is added. -/
theorem offset_shows :
    (new.update ahead 5 1).1.replyMicro = 4294967291 ∧
      (5 : UInt32) - ahead.timestampMicroseconds = 4294967294 ∧
      new.delays twoSamples = [0, 4294967280] ∧
      new.delays (twoSamples.map (Sample.shift 16)) = [0, 0] := by
  refine ⟨by decide, by decide, by decide +kernel, by decide +kernel⟩

end DelayMeasurement

end KTorrent.Utp
