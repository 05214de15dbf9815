import KTorrent.Lib.SlidingMinimum
import KTorrent.Utp.DelayOffset

/-!
# The smallest delay of two minutes

What `DelayWindow::update` returns, against a plain scan of every sample that came.  The window is
a circular buffer for a hundred entries, and the branch that would make it larger asks for this
right after it cleared the buffer.

* `scan` — the smallest difference of the last `DELAY_WINDOW_SIZE` milliseconds.
* `HasRoom` — there is a free place behind the entries that are below the new sample.
* `Tracks` — the window stands for the history.
* `least_iff` — the window returns the minimum exactly as long as there is room.
-/

namespace KTorrent.Utp

open Runs SlidingMinimum

/-- A window, and every sample that it got. -/
structure Watched where
  window : DelayWindow
  history : List DelayEntry
  deriving DecidableEq, Repr

/-- The delay of an entry, as a number. -/
def DelayEntry.delay (e : DelayEntry) : ℕ := e.timestampDifferenceMicroseconds.toNat

/-- The time of an entry, as a number. -/
def DelayEntry.time (e : DelayEntry) : ℕ := e.receiveTime.toNat

/-- From when on a sample counts at `t`. -/
def horizonAt (t : UInt64) : ℕ := t.toNat - delayWindowSize.toNat

/-- A plain scan: the smallest difference of the samples of the last `DELAY_WINDOW_SIZE`
milliseconds, the new one included. -/
def scan (history : List DelayEntry) (s : Sample) : UInt32 :=
  history.foldl
    (fun least e =>
      if s.now - e.receiveTime ≤ delayWindowSize ∧ e.timestampDifferenceMicroseconds < least then
        e.timestampDifferenceMicroseconds
      else least)
    s.diff

namespace Watched

/-- Before the first sample. -/
def start : Watched := { window := DelayWindow.new, history := [] }

/-- One sample. -/
def step (x : Watched) (s : Sample) : Watched :=
  { window := (x.window.update s.hdr s.now).2, history := x.history ++ [s.entry] }

/-- What `update` returns for a sample. -/
def answer (x : Watched) (s : Sample) : UInt32 := (x.window.update s.hdr s.now).1

/-- `update` returns what the scan finds. -/
def ReturnsLeast (x : Watched) (s : Sample) : Prop := x.answer s = scan x.history s

/-- The entries that stay in front of the new sample. -/
def kept (x : Watched) (s : Sample) : List DelayEntry :=
  (x.window.cleanup s.now).entries.takeWhile fun e =>
    decide (e.timestampDifferenceMicroseconds < s.diff)

/-- There is a free place behind the entries that stay. -/
def HasRoom (x : Watched) (s : Sample) : Prop := (x.kept s).length < x.window.capacity

instance (x : Watched) (s : Sample) : Decidable (x.ReturnsLeast s) :=
  inferInstanceAs (Decidable (_ = _))

instance (x : Watched) (s : Sample) : Decidable (x.HasRoom s) :=
  inferInstanceAs (Decidable (_ < _))

end Watched

/-! ## Times and delays as numbers -/

theorem too_old_iff {t r : UInt64} (h : r ≤ t) : t - r > delayWindowSize ↔ r.toNat < horizonAt t := by
  have hle := UInt64.le_iff_toNat_le.mp h
  rw [gt_iff_lt, UInt64.lt_iff_toNat_lt, UInt64.toNat_sub_of_le _ _ h, horizonAt]
  omega

theorem recent_iff {t r : UInt64} (h : r ≤ t) : t - r ≤ delayWindowSize ↔ horizonAt t ≤ r.toNat := by
  rw [← not_iff_not, UInt64.not_le, not_le]
  exact too_old_iff h

theorem horizonAt_mono {t t' : UInt64} (h : t ≤ t') : horizonAt t ≤ horizonAt t' :=
  Nat.sub_le_sub_right (UInt64.le_iff_toNat_le.mp h) _

theorem horizonAt_le (t : UInt64) : horizonAt t ≤ t.toNat := Nat.sub_le _ _

/-! ## The scan -/

section Scan

variable {s : Sample} {history : List DelayEntry}

/-- One entry of the scan. -/
def scanStep (s : Sample) (least : UInt32) (e : DelayEntry) : UInt32 :=
  if s.now - e.receiveTime ≤ delayWindowSize ∧ e.timestampDifferenceMicroseconds < least then
    e.timestampDifferenceMicroseconds
  else least

theorem scan_eq : scan history s = history.foldl (scanStep s) s.diff := rfl

theorem scanStep_le (least : UInt32) (e : DelayEntry) :
    (scanStep s least e).toNat ≤ least.toNat := by
  rw [scanStep]
  split
  · rename_i hless
    exact (UInt32.lt_iff_toNat_lt.mp hless.2).le
  · exact le_rfl

theorem scanStep_le_delay (least : UInt32) {e : DelayEntry}
    (hrecent : s.now - e.receiveTime ≤ delayWindowSize) :
    (scanStep s least e).toNat ≤ e.delay := by
  rw [scanStep]
  split
  · exact le_rfl
  · rename_i hnot
    exact not_lt.mp fun hless => hnot ⟨hrecent, UInt32.lt_iff_toNat_lt.mpr hless⟩

theorem foldl_scanStep_le (history : List DelayEntry) :
    ∀ least : UInt32, (history.foldl (scanStep s) least).toNat ≤ least.toNat := by
  induction history with
  | nil => exact fun least => le_rfl
  | cons e history ih => exact fun least => (ih _).trans (scanStep_le least e)

theorem foldl_scanStep_le_delay (history : List DelayEntry) :
    ∀ least : UInt32, ∀ e ∈ history, s.now - e.receiveTime ≤ delayWindowSize →
      (history.foldl (scanStep s) least).toNat ≤ e.delay := by
  induction history with
  | nil => exact fun least e hmem => absurd hmem List.not_mem_nil
  | cons first history ih =>
    intro least e hmem hrecent
    rw [List.foldl_cons]
    rcases List.mem_cons.mp hmem with rfl | hlater
    · exact (foldl_scanStep_le history _).trans (scanStep_le_delay least hrecent)
    · exact ih _ e hlater hrecent

theorem foldl_scanStep_mem (history : List DelayEntry) :
    ∀ least : UInt32, history.foldl (scanStep s) least = least ∨
      ∃ e ∈ history, s.now - e.receiveTime ≤ delayWindowSize ∧
        history.foldl (scanStep s) least = e.timestampDifferenceMicroseconds := by
  induction history with
  | nil => exact fun least => Or.inl rfl
  | cons first history ih =>
    intro least
    rw [List.foldl_cons]
    rcases ih (scanStep s least first) with heq | ⟨e, hmem, hrecent, heq⟩
    · by_cases hless : s.now - first.receiveTime ≤ delayWindowSize ∧
          first.timestampDifferenceMicroseconds < least
      · refine Or.inr ⟨first, List.mem_cons_self, hless.1, ?_⟩
        rw [heq, scanStep, if_pos hless]
      · left
        rw [heq, scanStep, if_neg hless]
    · exact Or.inr ⟨e, List.mem_cons_of_mem _ hmem, hrecent, heq⟩

/-- **The scan** finds the minimum of the recent samples. -/
theorem scan_isLeast (htimes : ∀ e ∈ history, e.receiveTime ≤ s.now) :
    IsLeast (DelayEntry.delay '' Recent DelayEntry.time (horizonAt s.now) (history ++ [s.entry]))
      (scan history s).toNat := by
  have hself : s.entry ∈ Recent DelayEntry.time (horizonAt s.now) (history ++ [s.entry]) :=
    ⟨List.mem_append_right _ (List.mem_singleton_self _), horizonAt_le s.now⟩
  rw [scan_eq]
  constructor
  · rcases foldl_scanStep_mem (s := s) history s.diff with heq | ⟨e, hmem, hrecent, heq⟩
    · exact ⟨s.entry, hself, by rw [heq]; rfl⟩
    · refine ⟨e, ⟨List.mem_append_left _ hmem, ?_⟩, by rw [heq]; rfl⟩
      exact (recent_iff (htimes e hmem)).mp hrecent
  · rintro _ ⟨e, ⟨hmem, hrecent⟩, rfl⟩
    rcases List.mem_append.mp hmem with hold | hnew
    · exact foldl_scanStep_le_delay history s.diff e hold ((recent_iff (htimes e hold)).mpr hrecent)
    · rw [List.mem_singleton.mp hnew]
      exact foldl_scanStep_le history s.diff

end Scan

/-! ## One sample -/

namespace Watched

variable {x : Watched} {s : Sample}

/-- The window stands for the history up to `last`, and has its first capacity. -/
structure Tracks (last : UInt64) (x : Watched) : Prop where
  capacity : x.window.capacity = 100
  latest : ∀ e ∈ x.history, e.receiveTime ≤ last
  summary :
    Summary DelayEntry.delay DelayEntry.time (horizonAt last) x.window.entries x.history

theorem tracks_start : Tracks 0 start where
  capacity := rfl
  latest := fun _ hmem => absurd hmem List.not_mem_nil
  summary := Summary.nil

variable {last : UInt64}

theorem Tracks.ascending (h : Tracks last x) : x.window.entries.Pairwise fun e e' =>
    e.timestampDifferenceMicroseconds < e'.timestampDifferenceMicroseconds :=
  h.summary.values.imp fun hless => UInt32.lt_iff_toNat_lt.mpr hless

theorem Tracks.cleanup_eq (h : Tracks last x) (hlast : last ≤ s.now) :
    (x.window.cleanup s.now).entries =
      expire DelayEntry.time (horizonAt s.now) x.window.entries := by
  have hle : ∀ e ∈ x.window.entries, e.receiveTime ≤ s.now := fun e hmem =>
    UInt64.le_trans (h.latest e (h.summary.member e hmem)) hlast
  rw [DelayWindow.cleanup]
  refine dropWhile_eq_expire fun e hmem => ?_
  exact decide_eq_decide.mpr (too_old_iff (hle e hmem))

theorem Tracks.kept_eq (h : Tracks last x) (hlast : last ≤ s.now) :
    x.kept s = below DelayEntry.delay s.entry
      (expire DelayEntry.time (horizonAt s.now) x.window.entries) := by
  rw [kept, h.cleanup_eq hlast, below]
  refine congrArg (fun p => List.takeWhile p _) (funext fun e => ?_)
  exact decide_eq_decide.mpr UInt32.lt_iff_toNat_lt

/-- Both branches of `update` push the new sample behind the entries that stay. -/
theorem Tracks.update_eq (h : Tracks last x) :
    x.window.update s.hdr s.now =
      (({ x.window with entries := x.kept s }.pushBack s.entry).front,
        { x.window with entries := x.kept s }.pushBack s.entry) := by
  have hcapacity := h.capacity
  have hrestart : x.kept s = [] → (s.diff, (x.window.cleanup s.now).restart s.entry) =
      (({ x.window with entries := x.kept s }.pushBack s.entry).front,
        { x.window with entries := x.kept s }.pushBack s.entry) := by
    intro hkept
    rw [hkept]
    simp [DelayWindow.restart, DelayWindow.pushBack, DelayWindow.cleanup, DelayWindow.front,
      hcapacity, Sample.entry]
  cases hhead : (x.window.cleanup s.now).entries.head? with
  | none =>
    have hnil := List.head?_eq_none_iff.mp hhead
    rw [DelayWindow.update_of_nil hnil]
    exact hrestart (by rw [kept, hnil, List.takeWhile_nil])
  | some e =>
    by_cases hbefore : s.diff < e.timestampDifferenceMicroseconds
    · obtain ⟨entries, hentries⟩ := List.head?_eq_some_iff.mp hhead
      rw [DelayWindow.update_of_lt hhead hbefore]
      refine hrestart ?_
      rw [kept, hentries, List.takeWhile_cons_of_neg]
      simpa using not_lt_of_lt hbefore
    · have hclean : (x.window.cleanup s.now).entries.Pairwise fun e e' =>
          e.timestampDifferenceMicroseconds < e'.timestampDifferenceMicroseconds :=
        h.ascending.sublist (List.dropWhile_sublist _)
      rw [DelayWindow.update_of_not_lt hhead hbefore, DelayWindow.insert,
        DelayWindow.take_lowerBound _ hclean]
      rfl

/-- What stays, and the new sample, stand for the history with it. -/
theorem Tracks.summary_kept (h : Tracks last x) (hlast : last ≤ s.now) :
    Summary DelayEntry.delay DelayEntry.time (horizonAt s.now) (x.kept s ++ [s.entry])
      (x.history ++ [s.entry]) := by
  rw [h.kept_eq hlast]
  refine (h.summary.advance (horizonAt_mono hlast)).push fun e hmem => ?_
  exact UInt64.le_iff_toNat_le.mp (UInt64.le_trans (h.latest e hmem) hlast)

theorem Tracks.recent_kept (h : Tracks last x) (hlast : last ≤ s.now) {e : DelayEntry}
    (hmem : e ∈ x.kept s ++ [s.entry]) : horizonAt s.now ≤ e.time := by
  rcases List.mem_append.mp hmem with hkept | hnew
  · rw [h.kept_eq hlast] at hkept
    exact recent_of_mem_expire h.summary.times ((List.takeWhile_sublist _).subset hkept)
  · rw [List.mem_singleton.mp hnew]
    exact horizonAt_le s.now

/-- The front of what stays is what the scan finds. -/
theorem Tracks.scan_eq_head (h : Tracks last x) (hlast : last ≤ s.now) {q : DelayEntry}
    {rest : List DelayEntry} (hqueue : x.kept s ++ [s.entry] = q :: rest) :
    scan x.history s = q.timestampDifferenceMicroseconds := by
  have htimes : ∀ e ∈ x.history, e.receiveTime ≤ s.now := fun e hmem =>
    UInt64.le_trans (h.latest e hmem) hlast
  have hsummary := h.summary_kept hlast (s := s)
  rw [hqueue] at hsummary
  have hhead := hsummary.isLeast_head (h.recent_kept hlast (hqueue ▸ List.mem_cons_self))
  exact UInt32.toNat_inj.mp ((scan_isLeast htimes).unique hhead)

theorem Tracks.step (h : Tracks last x) (hlast : last ≤ s.now) (hroom : x.HasRoom s) :
    Tracks s.now (x.step s) := by
  have hwindow : (x.step s).window = { x.window with entries := x.kept s ++ [s.entry] } := by
    rw [Watched.step, h.update_eq, DelayWindow.pushBack, if_pos (by exact hroom)]
  refine ⟨by rw [hwindow]; exact h.capacity, fun e hmem => ?_, ?_⟩
  · rcases List.mem_append.mp hmem with hold | hnew
    · exact UInt64.le_trans (h.latest e hold) hlast
    · rw [List.mem_singleton.mp hnew]
      exact UInt64.le_refl _
  · rw [hwindow]
    exact h.summary_kept hlast

/-- **One sample**: the result is the minimum exactly when there is room. -/
theorem Tracks.returnsLeast_iff (h : Tracks last x) (hlast : last ≤ s.now) :
    x.ReturnsLeast s ↔ x.HasRoom s := by
  obtain ⟨q, rest, hqueue⟩ : ∃ q rest, x.kept s ++ [s.entry] = q :: rest :=
    List.exists_cons_of_ne_nil (by simp)
  rw [ReturnsLeast, h.scan_eq_head hlast hqueue, answer, h.update_eq]
  constructor
  · intro hleast
    by_contra hfull
    -- the front makes place for the new sample
    rw [DelayWindow.pushBack, if_neg (by exact hfull)] at hleast
    simp only [hqueue, List.drop_one, List.tail_cons] at hleast
    have hlength : (x.kept s).length + 1 = rest.length + 1 := by
      simpa using congrArg List.length hqueue
    obtain ⟨q', rest', hrest⟩ : ∃ q' rest', rest = q' :: rest' := by
      refine List.exists_cons_of_ne_nil fun hnil => ?_
      rw [HasRoom, h.capacity] at hfull
      rw [hnil, List.length_nil] at hlength
      omega
    have hsummary := h.summary_kept hlast (s := s)
    rw [hqueue, hrest] at hsummary
    have hless := List.rel_of_pairwise_cons hsummary.values List.mem_cons_self
    rw [hrest, DelayWindow.front] at hleast
    exact hless.ne' (congrArg UInt32.toNat hleast)
  · intro hroom
    rw [DelayWindow.pushBack, if_pos (by exact hroom)]
    simp only [hqueue, DelayWindow.front]

theorem Tracks.returnsLeast_run : ∀ {samples : List Sample} {last : UInt64} {x : Watched},
    Tracks last x → (∀ s ∈ samples, last ≤ s.now) →
      samples.Pairwise (fun s s' => s.now ≤ s'.now) →
        (AllSteps Watched.step ReturnsLeast x samples ↔ AllSteps Watched.step HasRoom x samples) := by
  intro samples
  induction samples with
  | nil => exact fun _ _ _ => Iff.rfl
  | cons s samples ih =>
    intro last x h hlater htimes
    obtain ⟨hfirst, hrest⟩ := List.pairwise_cons.mp htimes
    have hlast := hlater s List.mem_cons_self
    rw [AllSteps, AllSteps, h.returnsLeast_iff hlast]
    exact and_congr_right fun hroom => ih (h.step hlast hroom) hfirst hrest

end Watched

open Watched

/-- **The minimum of two minutes.**  Over samples in the order of their times, `update` returns for
every one what a scan of the whole history finds, exactly when for every one the recent entries
below it leave a free place in the buffer. -/
theorem least_iff (samples : List Sample) (htimes : samples.Pairwise fun s s' => s.now ≤ s'.now) :
    AllSteps Watched.step ReturnsLeast start samples ↔ AllSteps Watched.step HasRoom start samples :=
  tracks_start.returnsLeast_run (fun _ _ => UInt64.zero_le) htimes

/-- Two samples, a second apart. -/
theorem least_two :
    [(⟨⟨0, 300⟩, 0, 1000⟩ : Sample), ⟨⟨0, 500⟩, 0, 2000⟩].Pairwise (fun s s' => s.now ≤ s'.now) ∧
      AllSteps Watched.step ReturnsLeast start [⟨⟨0, 300⟩, 0, 1000⟩, ⟨⟨0, 500⟩, 0, 2000⟩] :=
  ⟨by decide, (least_iff _ (by decide)).mpr (by decide)⟩

/-- A sample with a difference of `n`, always at the same time. -/
def slower (n : ℕ) : Sample := { hdr := ⟨0, n.toUInt32⟩, tms := 0, now := 1000 }

/-- A hundred and one samples, each slower than the one before: with the last one the smallest
leaves the buffer. -/
theorem smallest_dropped :
    ((List.range 101).map slower).Pairwise (fun s s' => s.now ≤ s'.now) ∧
      ¬ AllSteps Watched.step ReturnsLeast start ((List.range 101).map slower) := by
  refine ⟨by decide +kernel, ?_⟩
  decide +kernel

end KTorrent.Utp
