import KTorrent.Tracker.TrackerManager

/-!
# The current tracker

A private torrent uses one tracker at a time.  Several operations take it away; some of them leave
the pointer behind or start the next tracker without a look at `started`.

* `CurrRegistered` — the current tracker is one of the manager's.
* `SilentWhenStopped` — a step that leaves the manager stopped makes no tracker announce.
* `Considerate` — the steps that do not meet the faults.
* `consistent_iff` — the steps of a run are consistent exactly when they are considerate.
-/

namespace KTorrent.TrackerManager

open Runs

variable {Url : Type}

/-! ## The law -/

/-- The current tracker is registered. -/
def CurrRegistered (m : TrackerManager Url) : Prop :=
  ∀ id, m.curr = some id → ∃ t ∈ m.trackers, t.id = id

/-- The calls between `m` and `m'` make a tracker announce only if the manager is started. -/
def SilentWhenStopped (m m' : TrackerManager Url) : Prop :=
  m'.started = false → ∃ cs, m'.calls = m.calls ++ cs ∧ ∀ c ∈ cs, c.2.announces = false

section Law

variable [LinearOrder Url]

/-- **A step is consistent.** -/
def Consistent (scheme : Url → String) :
    Option (TrackerManager Url) → TrackerFacts × Event Url → Prop
  | none, _ => True
  | some m, e => ∀ m', step scheme (some m) e = some m' → m'.CurrRegistered ∧ SilentWhenStopped m m'

/-- The tracker with this url is the current one. -/
def IsCurrent (m : TrackerManager Url) (url : Url) : Prop :=
  ∃ t, m.find url = some t ∧ m.curr = some t.id

/-- No tracker with another url is enabled. -/
def NoOther (m : TrackerManager Url) (url : Url) : Prop :=
  ∀ t ∈ m.trackers, t.url ≠ url → t.enabled = false

/-- **The condition on a step**: a stopped manager is not asked to use another tracker, nor to
announce; and the current tracker is removed only while there is another one. -/
def Considerate : Option (TrackerManager Url) → TrackerFacts × Event Url → Prop
  | none, _ => True
  | some m, (_, .removeTracker url) => url ∈ m.customTrackers → m.IsCurrent url →
      (∃ t ∈ m.trackers, t.url ≠ url) ∧ (m.started = true ∨ m.NoOther url)
  | some m, (_, .setCurrentTracker url) =>
      ∀ t, m.find url = some t → m.curr ≠ some t.id → m.started = true
  | some m, (_, .setTrackerEnabled url false) => m.IsCurrent url →
      m.started = true ∨ m.NoOther url
  | some m, (_, .completed) => m.curr ≠ none → m.started = true
  | some m, (_, .manualUpdate) => m.curr ≠ none → m.started = true
  | some _, (_, .setTrackerEnabled _ true) => True
  | some _, (_, .addTracker _ _ _) => True
  | some _, (_, .restoreDefault) => True
  | some _, (_, .start) => True
  | some _, (_, .stop) => True
  | some _, (_, .trackerError _) => True
  | some _, (_, .trackerOK _) => True

end Law

/-! ## Selection -/

section Selection

variable {facts : TrackerFacts} {m m' : TrackerManager Url}

theorem selectTracker_mem {t : TrackerEntry Url} (h : m.selectTracker facts = some t) :
    t ∈ m.trackers ∧ t.enabled = true := by
  have hfold : ∀ (ts : List (TrackerEntry Url)) (n : Option (TrackerEntry Url)),
      (∀ t ∈ n, t ∈ m.trackers ∧ t.enabled = true) → (∀ t ∈ ts, t ∈ m.trackers) →
        ∀ t ∈ ts.foldl (better facts) n, t ∈ m.trackers ∧ t.enabled = true := by
    intro ts
    induction ts with
    | nil => exact fun n hn _ => hn
    | cons a ts ih =>
      intro n hn hts
      refine ih _ (fun t ht => ?_) fun t ht => hts t (List.mem_cons_of_mem a ht)
      unfold better at ht
      split at ht
      · rename_i henabled
        have hnew : a ∈ m.trackers ∧ a.enabled = true := ⟨hts a List.mem_cons_self, henabled⟩
        repeat' split at ht
        all_goals first
          | exact hn t ht
          | exact Option.some.inj ht ▸ hnew
      · exact hn t ht
  exact hfold m.trackers none (fun t ht => by cases ht) (fun t ht => ht) t h

/-- Nothing is selected exactly when no tracker is enabled. -/
theorem selectTracker_eq_none_iff :
    m.selectTracker facts = none ↔ ∀ t ∈ m.trackers, t.enabled = false := by
  have hfold : ∀ (ts : List (TrackerEntry Url)) (n : Option (TrackerEntry Url)),
      ts.foldl (better facts) n = none ↔ n = none ∧ ∀ t ∈ ts, t.enabled = false := by
    intro ts
    induction ts with
    | nil => simp
    | cons a ts ih =>
      intro n
      rw [List.foldl_cons, ih, List.forall_mem_cons, ← and_assoc]
      refine and_congr_left fun _ => ?_
      unfold better
      cases henabled : a.enabled <;> cases n <;> simp
      split
      · simp
      · split
        · split <;> simp
        · simp
  exact (hfold m.trackers none).trans (and_iff_right rfl)

theorem currRegistered_select : (m.switchTracker (m.selectTracker facts)).CurrRegistered := by
  intro id hid
  obtain ⟨t, ht, rfl⟩ := Option.map_eq_some_iff.mp hid
  exact ⟨t, (selectTracker_mem ht).1, rfl⟩

/-- The calls of a step that leaves the manager stopped. -/
theorem silent_iff {cs : List (ℕ × TrackerCall)} (h : m'.calls = m.calls ++ cs) :
    SilentWhenStopped m m' ↔ (m'.started = false → ∀ c ∈ cs, c.2.announces = false) := by
  refine forall_congr' fun _ => ⟨?_, fun hall => ⟨cs, h, hall⟩⟩
  rintro ⟨cs', h', hall⟩
  rwa [List.append_cancel_left (h.symm.trans h')]

/-- What `askCurr` appends. -/
theorem askCurr_calls (call : TrackerCall) :
    (m.askCurr call).calls = m.calls ++ m.curr.toList.map fun id => (id, call) := by
  unfold askCurr
  split
  · rename_i hnone
    simp [hnone]
  · rename_i id hsome
    simp [ask, hsome]

@[simp] theorem askCurr_curr (call : TrackerCall) : (m.askCurr call).curr = m.curr := by
  unfold askCurr
  split <;> rfl

@[simp] theorem askCurr_trackers (call : TrackerCall) : (m.askCurr call).trackers = m.trackers := by
  unfold askCurr
  split <;> rfl

@[simp] theorem askCurr_started (call : TrackerCall) : (m.askCurr call).started = m.started := by
  unfold askCurr
  split <;> rfl

@[simp] theorem askCurr_privTorrent (call : TrackerCall) :
    (m.askCurr call).privTorrent = m.privTorrent := by
  unfold askCurr
  split <;> rfl

/-- A step that asks nothing which announces. -/
theorem silent_of {m m' : TrackerManager Url} {cs : List (ℕ × TrackerCall)}
    (h : m'.calls = m.calls ++ cs) (hall : ∀ c ∈ cs, c.2.announces = false) :
    SilentWhenStopped m m' := (silent_iff h).mpr fun _ => hall

theorem silent_self {m m' : TrackerManager Url} (h : m'.calls = m.calls) : SilentWhenStopped m m' :=
  silent_of (h.trans (List.append_nil _).symm) fun c hc => by cases hc

/-- The next tracker is selected and started. -/
def startNext (m : TrackerManager Url) (facts : TrackerFacts) : TrackerManager Url :=
  (m.switchTracker (m.selectTracker facts)).askCurr .start

/-- **Starting the next tracker** is silent exactly when the manager is started, or when there is
none to start. -/
theorem startNext_iff {m₀ : TrackerManager Url} {cs : List (ℕ × TrackerCall)}
    (hcalls : m.calls = m₀.calls ++ cs) (hcs : ∀ c ∈ cs, c.2.announces = false) :
    ((m.startNext facts).CurrRegistered ∧ SilentWhenStopped m₀ (m.startNext facts)) ↔
      m.started = true ∨ ∀ t ∈ m.trackers, t.enabled = false := by
  have hcurr : (m.startNext facts).CurrRegistered := by
    intro id hid
    rw [startNext, askCurr_curr] at hid
    rw [startNext, askCurr_trackers]
    exact currRegistered_select id hid
  have hnext : (m.startNext facts).calls = m₀.calls ++ (cs ++
      (m.selectTracker facts).toList.map fun t => (t.id, TrackerCall.start)) := by
    rw [startNext, askCurr_calls]
    show m.calls ++ _ = _
    rw [hcalls, List.append_assoc]
    cases hselect : m.selectTracker facts <;> simp [switchTracker]
  have hstarted : (m.startNext facts).started = m.started := by
    rw [startNext, askCurr_started]
    rfl
  rw [and_iff_right hcurr, silent_iff hnext, hstarted, ← @selectTracker_eq_none_iff _ facts]
  constructor
  · intro h
    by_contra hnot
    rw [not_or, Bool.not_eq_true] at hnot
    obtain ⟨t, ht⟩ := Option.ne_none_iff_exists'.mp hnot.2
    have hstart := h hnot.1 (t.id, .start) (by simp [ht])
    cases hstart
  · rintro (h | h) hstopped c hc
    · rw [h] at hstopped
      cases hstopped
    · rw [h, Option.toList_none, List.map_nil, List.append_nil] at hc
      exact hcs c hc

theorem silent_trans {a b c : TrackerManager Url} (hab : SilentWhenStopped a b)
    (hbc : SilentWhenStopped b c) (hstarted : c.started = b.started) : SilentWhenStopped a c := by
  intro hstopped
  obtain ⟨xs, hxs, hx⟩ := hab (hstarted ▸ hstopped)
  obtain ⟨ys, hys, hy⟩ := hbc hstopped
  refine ⟨xs ++ ys, by rw [hys, hxs, List.append_assoc], fun e he => ?_⟩
  rcases List.mem_append.mp he with he | he
  · exact hx e he
  · exact hy e he

end Selection

/-! ## The trackers of a manager -/

/-- A manager of a private torrent between two steps. -/
structure Registry [LinearOrder Url] (m : TrackerManager Url) : Prop where
  privTorrent : m.privTorrent = true
  sorted : OrderedSet.Sorted TrackerEntry.url m.trackers
  curr : m.CurrRegistered

section Registry

variable [LinearOrder Url] {scheme : Url → String} {facts : TrackerFacts}
  {m : TrackerManager Url} {url : Url} {t : TrackerEntry Url}

theorem find_mem (h : m.find url = some t) : t ∈ m.trackers ∧ t.url = url :=
  ⟨List.mem_of_find?_eq_some h, by simpa using List.find?_some h⟩

theorem find_of_mem (hsorted : OrderedSet.Sorted TrackerEntry.url m.trackers)
    (ht : t ∈ m.trackers) : m.find t.url = some t := by
  cases hfind : m.find t.url with
  | none =>
    have hnone := List.find?_eq_none.mp hfind t ht
    simp at hnone
  | some t' =>
    obtain ⟨hmem, hurl⟩ := find_mem hfind
    rw [OrderedSet.eq_of_key hsorted hmem ht hurl]

theorem sorted_erase (hsorted : OrderedSet.Sorted TrackerEntry.url m.trackers) (url : Url) :
    OrderedSet.Sorted TrackerEntry.url (m.erase url).trackers :=
  hsorted.sublist List.filter_sublist

/-- A tracker that is not the current one is erased. -/
theorem currRegistered_erase (hsorted : OrderedSet.Sorted TrackerEntry.url m.trackers)
    (h : m.CurrRegistered) (hother : ¬ m.IsCurrent url) : (m.erase url).CurrRegistered := by
  intro id hid
  obtain ⟨t, ht, rfl⟩ := h id hid
  refine ⟨t, List.mem_filter.mpr ⟨ht, ?_⟩, rfl⟩
  rw [decide_eq_true_iff]
  rintro rfl
  exact hother ⟨t, find_of_mem hsorted ht, hid⟩

/-! ## The operations -/

/-- What `removeTracker` does to the current tracker before it looks for another one. -/
def dropCurrent (m : TrackerManager Url) (t : TrackerEntry Url) (url : Url) : TrackerManager Url :=
  (({ m with customTrackers := m.customTrackers.filter fun u => u ≠ url }.ask t.id .stop).ask t.id
    .timedDelete).erase url

theorem removeTracker_current (hcustom : url ∈ m.customTrackers) (hfind : m.find url = some t)
    (hcurr : m.curr = some t.id) (hpriv : m.privTorrent = true) :
    m.removeTracker facts url =
      if (m.dropCurrent t url).trackers.length > 0 then (m.dropCurrent t url).startNext facts
      else m.dropCurrent t url := by
  have hfind' : { m with customTrackers := m.customTrackers.filter fun u => u ≠ url }.find url =
      some t := hfind
  unfold removeTracker
  rw [if_neg (not_not.mpr hcustom)]
  dsimp only
  rw [hfind']
  exact if_pos ⟨hcurr, hpriv⟩

theorem removeTracker_other (hcustom : url ∈ m.customTrackers) (hcurr : ¬ m.IsCurrent url) :
    m.removeTracker facts url =
      { m with customTrackers := m.customTrackers.filter fun u => u ≠ url }.erase url := by
  simp only [removeTracker, hcustom, not_true_eq_false, if_false]
  cases hfind : m.find url with
  | none =>
    have hfind' : { m with customTrackers := m.customTrackers.filter fun u => u ≠ url }.find url =
        none := hfind
    simp only [hfind']
  | some t =>
    have hfind' : { m with customTrackers := m.customTrackers.filter fun u => u ≠ url }.find url =
        some t := hfind
    simp only [hfind']
    rw [if_neg fun h => hcurr ⟨t, hfind, h.1⟩]

/-- Other trackers than the one that is erased. -/
theorem dropCurrent_length_pos :
    (m.dropCurrent t url).trackers.length > 0 ↔ ∃ t ∈ m.trackers, t.url ≠ url := by
  show (m.trackers.filter fun t => t.url ≠ url).length > 0 ↔ _
  simp [List.length_pos_iff, List.filter_eq_nil_iff]

theorem dropCurrent_disabled :
    (∀ t' ∈ (m.dropCurrent t url).trackers, t'.enabled = false) ↔ m.NoOther url := by
  show (∀ t' ∈ m.trackers.filter fun t' => t'.url ≠ url, t'.enabled = false) ↔ _
  simp [NoOther]

theorem removeTracker_iff (h : Registry m) (facts : TrackerFacts) (url : Url) :
    ((m.removeTracker facts url).CurrRegistered ∧
        SilentWhenStopped m (m.removeTracker facts url)) ↔
      Considerate (some m) (facts, .removeTracker url) := by
  by_cases hcustom : url ∈ m.customTrackers
  swap
  · have hsame : m.removeTracker facts url = m := if_pos hcustom
    rw [hsame]
    exact iff_of_true ⟨h.curr, silent_self rfl⟩ fun hc => absurd hc hcustom
  by_cases hcurrent : m.IsCurrent url
  · obtain ⟨t, hfind, hcurr⟩ := id hcurrent
    have hguard : Considerate (some m) (facts, .removeTracker url) ↔
        (∃ t ∈ m.trackers, t.url ≠ url) ∧ (m.started = true ∨ m.NoOther url) :=
      ⟨fun hc => hc hcustom hcurrent, fun hc _ _ => hc⟩
    rw [hguard, removeTracker_current hcustom hfind hcurr h.privTorrent,
      ← dropCurrent_length_pos (t := t)]
    split
    · rename_i hothers
      rw [and_iff_right hothers, ← dropCurrent_disabled (t := t)]
      refine @startNext_iff _ _ (m.dropCurrent t url) _ [(t.id, .stop), (t.id, .timedDelete)] ?_ ?_
      · show (m.calls ++ [_]) ++ [_] = _
        rw [List.append_assoc]
        rfl
      · intro c hc
        rcases List.mem_cons.mp hc with rfl | hc
        · rfl
        · rw [List.mem_singleton.mp hc]
          rfl
    · rename_i hnone
      refine iff_of_false (fun hlaw => hnone ?_) fun hc => hnone hc.1
      obtain ⟨t', ht', -⟩ := hlaw.1 t.id hcurr
      exact List.length_pos_of_mem ht'
  · rw [removeTracker_other hcustom hcurrent]
    refine iff_of_true ⟨?_, silent_self rfl⟩ fun _ hc => absurd hc hcurrent
    exact currRegistered_erase (m := { m with
      customTrackers := m.customTrackers.filter fun u => u ≠ url }) h.sorted h.curr hcurrent

theorem setCurrentTracker_iff (h : Registry m) (facts : TrackerFacts) (url : Url) :
    ((m.setCurrentTracker url).CurrRegistered ∧
        SilentWhenStopped m (m.setCurrentTracker url)) ↔
      Considerate (some m) (facts, .setCurrentTracker url) := by
  unfold setCurrentTracker
  cases hfind : m.find url with
  | none =>
    refine iff_of_true ⟨h.curr, silent_self rfl⟩ fun t ht => ?_
    rw [hfind] at ht
    cases ht
  | some t =>
    have hguard : Considerate (some m) (facts, .setCurrentTracker url) ↔
        (m.curr ≠ some t.id → m.started = true) := by
      refine ⟨fun hc => hc t hfind, fun hc t' ht' hne => ?_⟩
      rw [hfind, Option.some.injEq] at ht'
      exact hc (ht' ▸ hne)
    rw [hguard]
    simp only [h.privTorrent, Bool.not_true, Bool.false_eq_true, if_false]
    by_cases hcurr : m.curr = some t.id
    · rw [if_neg (not_not.mpr hcurr)]
      exact iff_of_true ⟨h.curr, silent_self rfl⟩ fun hc => absurd hcurr hc
    · rw [if_pos hcurr]
      have hcalls : ((m.askCurr .stop).switchTracker (some t)).calls ++ [(t.id, .start)] =
          m.calls ++ ((m.curr.toList.map fun id => (id, TrackerCall.stop)) ++
            [(t.id, .start)]) := by
        show (m.askCurr .stop).calls ++ _ = _
        rw [askCurr_calls, List.append_assoc]
      have hregistered : (((m.askCurr .stop).switchTracker (some t)).ask t.id .start).CurrRegistered := by
        intro id hid
        refine ⟨t, ?_, Option.some.inj hid⟩
        show t ∈ (m.askCurr .stop).trackers
        rw [askCurr_trackers]
        exact (find_mem hfind).1
      have hstarted : (((m.askCurr .stop).switchTracker (some t)).ask t.id .start).started =
          m.started := askCurr_started .stop
      rw [and_iff_right hregistered, silent_iff hcalls, hstarted]
      constructor
      · intro hsilent _
        by_contra hstopped
        rw [Bool.not_eq_true] at hstopped
        have hstart := hsilent hstopped (t.id, .start) (by simp)
        cases hstart
      · intro hc hstopped
        rw [hc hcurr] at hstopped
        cases hstopped

theorem currRegistered_setEnabled (h : m.CurrRegistered) {enabled : Bool} :
    (m.setEnabled url enabled).CurrRegistered := by
  intro id hid
  obtain ⟨t, ht, rfl⟩ := h id hid
  refine ⟨_, List.mem_map_of_mem ht, ?_⟩
  split <;> rfl

theorem setTrackerEnabled_iff (h : Registry m) (facts : TrackerFacts) (url : Url)
    (enabled : Bool) :
    ((m.setTrackerEnabled facts url enabled).CurrRegistered ∧
        SilentWhenStopped m (m.setTrackerEnabled facts url enabled)) ↔
      Considerate (some m) (facts, .setTrackerEnabled url enabled) := by
  have hregistered : (m.setEnabled url enabled).CurrRegistered :=
    currRegistered_setEnabled h.curr
  unfold setTrackerEnabled
  cases hfind : m.find url with
  | none =>
    refine iff_of_true ⟨h.curr, silent_self rfl⟩ ?_
    cases enabled with
    | true => trivial
    | false =>
      rintro ⟨t, ht, -⟩
      rw [hfind] at ht
      cases ht
  | some t =>
    dsimp only
    cases enabled with
    | true =>
      have hpriv : (m.setEnabled url true).privTorrent = true := h.privTorrent
      rw [if_neg (by decide), if_neg (by simp [hpriv])]
      exact iff_of_true ⟨hregistered, silent_self rfl⟩ trivial
    | false =>
      rw [if_pos (by decide)]
      have hcalls : ((m.setEnabled url false).ask t.id .stop).calls =
          m.calls ++ [(t.id, .stop)] := rfl
      have hstop : ∀ c ∈ [(t.id, TrackerCall.stop)], c.2.announces = false := by
        intro c hc
        rw [List.mem_singleton.mp hc]
        rfl
      by_cases hcurr : m.curr = some t.id
      · have hguard : Considerate (some m) (facts, .setTrackerEnabled url false) ↔
            (m.started = true ∨ m.NoOther url) :=
          ⟨fun hc => hc ⟨t, hfind, hcurr⟩, fun hc _ => hc⟩
        have hdisabled : (∀ t ∈ ((m.setEnabled url false).ask t.id .stop).trackers,
            t.enabled = false) ↔ m.NoOther url := by
          show (∀ t ∈ m.trackers.map fun t => if t.url = url then _ else t, t.enabled = false) ↔ _
          rw [List.forall_mem_map, NoOther]
          refine forall₂_congr fun t' _ => ?_
          by_cases hurl : t'.url = url <;> simp [hurl]
        rw [if_pos (by exact hcurr), hguard, ← hdisabled]
        exact startNext_iff hcalls hstop
      · rw [if_neg (by exact hcurr)]
        refine iff_of_true ⟨hregistered, silent_of hcalls hstop⟩ ?_
        rintro ⟨t', ht', hcurr'⟩
        rw [hfind, Option.some.injEq] at ht'
        exact absurd (ht' ▸ hcurr') hcurr

/-- A call of the current tracker that announces. -/
theorem askCurr_iff (h : Registry m) {call : TrackerCall} (hcall : call.announces = true) :
    ((m.askCurr call).CurrRegistered ∧ SilentWhenStopped m (m.askCurr call)) ↔
      (m.curr ≠ none → m.started = true) := by
  have hregistered : (m.askCurr call).CurrRegistered := by
    intro id hid
    rw [askCurr_curr] at hid
    rw [askCurr_trackers]
    exact h.curr id hid
  rw [and_iff_right hregistered, silent_iff (askCurr_calls call), askCurr_started]
  cases hcurr : m.curr with
  | none => simp
  | some id => simp [hcall]

theorem addTracker_registered (h : Registry m) (url : Url) (custom : Bool) (tier : ℤ) :
    Registry (addTracker scheme m url custom tier) ∧
      (addTracker scheme m url custom tier).calls = m.calls := by
  unfold addTracker
  split
  · exact ⟨h, rfl⟩
  · split
    · refine ⟨⟨h.privTorrent, OrderedSet.sorted_insert h.sorted, fun id hid => ?_⟩, rfl⟩
      obtain ⟨t, ht, rfl⟩ := h.curr id hid
      exact ⟨t, (OrderedSet.mem_insert h.sorted).mpr (.inl ht), rfl⟩
    · exact ⟨h, rfl⟩

/-- **One round of `restoreDefault`** takes the current tracker away before it erases it. -/
theorem restoreOne_registered (h : Registry m) (facts : TrackerFacts) (url : Url) :
    Registry (restoreOne facts m url) ∧ SilentWhenStopped m (restoreOne facts m url) ∧
      (restoreOne facts m url).started = m.started := by
  cases hfind : m.find url with
  | none =>
    have hsame : restoreOne facts m url = m := by rw [restoreOne, hfind]
    rw [hsame]
    exact ⟨h, silent_self rfl, rfl⟩
  | some t =>
    -- the stop of a started tracker is its only call
    obtain ⟨a, ha⟩ : ∃ a, a = if facts.isStarted t.id then m.ask t.id .stop else m := ⟨_, rfl⟩
    have hasked : Registry a ∧ SilentWhenStopped m a ∧ a.started = m.started ∧
        a.find url = some t := by
      rw [ha]
      split
      · refine ⟨⟨h.privTorrent, h.sorted, h.curr⟩, silent_of rfl fun c hc => ?_, rfl, hfind⟩
        rw [List.mem_singleton.mp hc]
        rfl
      · exact ⟨h, silent_self rfl, rfl, hfind⟩
    have hround : restoreOne facts m url =
        (if a.curr = some t.id ∧ a.privTorrent then { a with curr := none } else a).erase url := by
      rw [restoreOne, hfind, ha]
    obtain ⟨hreg, hsilent, hstarted, hfind'⟩ := hasked
    rw [hround]
    split
    · exact ⟨⟨hreg.privTorrent, sorted_erase hreg.sorted url, fun id hid => by cases hid⟩, hsilent,
        hstarted⟩
    · rename_i hother
      have hnot : ¬ a.IsCurrent url := by
        rintro ⟨t', ht', hcurr⟩
        rw [hfind', Option.some.injEq] at ht'
        exact hother ⟨ht' ▸ hcurr, hreg.privTorrent⟩
      exact ⟨⟨hreg.privTorrent, sorted_erase hreg.sorted url,
        currRegistered_erase hreg.sorted hreg.curr hnot⟩, hsilent, hstarted⟩

theorem restoreLoop_registered (facts : TrackerFacts) (urls : List Url) :
    ∀ {m : TrackerManager Url}, Registry m →
      Registry (urls.foldl (restoreOne facts) m) ∧
        SilentWhenStopped m (urls.foldl (restoreOne facts) m) ∧
        (urls.foldl (restoreOne facts) m).started = m.started := by
  induction urls with
  | nil => exact fun h => ⟨h, silent_self rfl, rfl⟩
  | cons url urls ih =>
    intro m h
    obtain ⟨hone, hsilent, hstarted⟩ := restoreOne_registered h facts url
    obtain ⟨hall, hrest, hsame⟩ := ih hone
    exact ⟨hall, silent_trans hsilent hrest hsame, hsame.trans hstarted⟩

theorem restoreDefault_registered (h : Registry m) (facts : TrackerFacts) :
    Registry (m.restoreDefault facts) ∧ SilentWhenStopped m (m.restoreDefault facts) := by
  obtain ⟨hall, hsilent, -⟩ := restoreLoop_registered facts m.customTrackers h
  unfold restoreDefault
  dsimp only
  split
  · exact ⟨⟨hall.privTorrent, hall.sorted, currRegistered_select⟩, hsilent⟩
  · exact ⟨⟨hall.privTorrent, hall.sorted, hall.curr⟩, hsilent⟩

theorem Registry.select (h : Registry m) (facts : TrackerFacts) :
    Registry (m.switchTracker (m.selectTracker facts)) :=
  ⟨h.privTorrent, h.sorted, currRegistered_select⟩

theorem Registry.askCurr (h : Registry m) (call : TrackerCall) : Registry (m.askCurr call) := by
  unfold TrackerManager.askCurr
  split
  · exact h
  · exact ⟨h.privTorrent, h.sorted, h.curr⟩

theorem start_registered (h : Registry m) (facts : TrackerFacts) :
    Registry (m.start facts) ∧ SilentWhenStopped m (m.start facts) := by
  unfold start
  split
  · exact ⟨h, silent_self rfl⟩
  · refine ⟨?_, fun hstopped => by cases hstopped⟩
    dsimp only
    rw [if_pos h.privTorrent]
    split
    · split
      · have hnext := (h.select facts).askCurr .start
        exact ⟨hnext.privTorrent, hnext.sorted, hnext.curr⟩
      · exact ⟨h.privTorrent, h.sorted, h.curr⟩
    · have hasked := h.askCurr .start
      exact ⟨hasked.privTorrent, hasked.sorted, hasked.curr⟩

theorem stop_registered (h : Registry m) : Registry m.stop ∧ SilentWhenStopped m m.stop := by
  unfold stop
  split
  · exact ⟨h, silent_self rfl⟩
  · dsimp only
    rw [if_pos h.privTorrent]
    obtain ⟨m₁, hm₁⟩ : ∃ m₁, m₁ = { m with started := false } := ⟨_, rfl⟩
    have hone : Registry m₁ := by
      rw [hm₁]
      exact ⟨h.privTorrent, h.sorted, h.curr⟩
    have hasked := hone.askCurr .stop
    have hcalls : m₁.calls = m.calls := by rw [hm₁]
    rw [← hm₁]
    refine ⟨⟨hasked.privTorrent, hasked.sorted, hasked.curr⟩,
      @silent_of _ _ _ ((m₁.curr.toList.map fun id => (id, TrackerCall.stop)) ++
        m.trackers.flatMap fun t => [TrackerCall.reset].map fun c => (t.id, c)) ?_ ?_⟩
    · show (m₁.askCurr .stop).calls ++ _ = _
      rw [askCurr_calls, hcalls, List.append_assoc]
    · intro c hc
      rcases List.mem_append.mp hc with hc | hc
      · obtain ⟨id, -, rfl⟩ := List.mem_map.mp hc
        rfl
      · obtain ⟨t, -, ht⟩ := List.mem_flatMap.mp hc
        rw [List.mem_singleton.mp ht]
        rfl

theorem trackerError_registered (h : Registry m) (facts : TrackerFacts) (sender : ℕ)
    {m' : TrackerManager Url} (hm' : m.onTrackerError facts sender = some m') :
    Registry m' ∧ SilentWhenStopped m m' := by
  have hasked : ∀ call, Registry (m.ask sender call) := fun _ =>
    ⟨h.privTorrent, h.sorted, h.curr⟩
  unfold onTrackerError at hm'
  split at hm'
  · rw [← Option.some.inj hm']
    exact ⟨h, silent_self rfl⟩
  · rename_i hstarted
    have hrunning : m.started = true := by simpa using hstarted
    rw [if_neg (by simp [h.privTorrent])] at hm'
    have hregistry : Registry m' ∧ m'.started = m.started := by
      split at hm'
      · dsimp only at hm'
        split at hm'
        · rw [← Option.some.inj hm']
          exact ⟨hasked .handleFailure, rfl⟩
        · split at hm'
          · cases hm'
          · rename_i trk hselect
            have hnext : Registry ((m.ask sender .stop).switchTracker (some trk)) := by
              refine ⟨h.privTorrent, h.sorted, fun id hid => ?_⟩
              exact ⟨trk, (selectTracker_mem hselect).1, Option.some.inj hid⟩
            split at hm'
            · rw [← Option.some.inj hm']
              exact ⟨⟨hnext.privTorrent, hnext.sorted, hnext.curr⟩, rfl⟩
            · rw [← Option.some.inj hm']
              exact ⟨⟨hnext.privTorrent, hnext.sorted, hnext.curr⟩, rfl⟩
      · rw [← Option.some.inj hm']
        exact ⟨hasked .handleFailure, rfl⟩
    refine ⟨hregistry.1, fun hstopped => ?_⟩
    rw [hregistry.2, hrunning] at hstopped
    cases hstopped

theorem trackerOK_registered (h : Registry m) (facts : TrackerFacts) (sender : ℕ) :
    Registry (m.onTrackerOK facts sender) ∧ SilentWhenStopped m (m.onTrackerOK facts sender) := by
  unfold onTrackerOK
  split
  · refine ⟨⟨h.privTorrent, h.sorted, h.curr⟩, silent_of rfl fun c hc => ?_⟩
    rw [List.mem_singleton.mp hc]
    rfl
  · exact ⟨h, silent_self rfl⟩

/-! ## One step -/

/-- The order of the trackers does not depend on the current one. -/
structure Ordered (m : TrackerManager Url) : Prop where
  privTorrent : m.privTorrent = true
  sorted : OrderedSet.Sorted TrackerEntry.url m.trackers

theorem Ordered.startNext (h : Ordered m) (facts : TrackerFacts) : Ordered (m.startNext facts) := by
  refine ⟨?_, ?_⟩
  · rw [TrackerManager.startNext, askCurr_privTorrent]
    exact h.privTorrent
  · rw [TrackerManager.startNext, askCurr_trackers]
    exact h.sorted

theorem sorted_setEnabled (h : OrderedSet.Sorted TrackerEntry.url m.trackers) (url : Url)
    (enabled : Bool) : OrderedSet.Sorted TrackerEntry.url (m.setEnabled url enabled).trackers := by
  refine List.pairwise_map.mpr (h.imp fun {a b} hlt => ?_)
  have hurl : ∀ t : TrackerEntry Url,
      (if t.url = url then { t with enabled := enabled } else t).url = t.url := by
    intro t
    split <;> rfl
  rw [hurl, hurl]
  exact hlt

theorem ordered_removeTracker (h : Registry m) (facts : TrackerFacts) (url : Url) :
    Ordered (m.removeTracker facts url) := by
  by_cases hcustom : url ∈ m.customTrackers
  swap
  · have hsame : m.removeTracker facts url = m := if_pos hcustom
    rw [hsame]
    exact ⟨h.privTorrent, h.sorted⟩
  by_cases hcurrent : m.IsCurrent url
  · obtain ⟨t, hfind, hcurr⟩ := hcurrent
    have hdrop : Ordered (m.dropCurrent t url) := ⟨h.privTorrent, sorted_erase h.sorted url⟩
    rw [removeTracker_current hcustom hfind hcurr h.privTorrent]
    split
    · exact hdrop.startNext facts
    · exact hdrop
  · rw [removeTracker_other hcustom hcurrent]
    exact ⟨h.privTorrent, sorted_erase h.sorted url⟩

theorem ordered_setCurrentTracker (h : Registry m) (url : Url) :
    Ordered (m.setCurrentTracker url) := by
  unfold setCurrentTracker
  split
  · exact ⟨h.privTorrent, h.sorted⟩
  · split
    · exact ⟨h.privTorrent, h.sorted⟩
    · split
      · exact ⟨(askCurr_privTorrent .stop).trans h.privTorrent,
          (askCurr_trackers (m := m) .stop) ▸ h.sorted⟩
      · exact ⟨h.privTorrent, h.sorted⟩

theorem ordered_setTrackerEnabled (h : Registry m) (facts : TrackerFacts) (url : Url)
    (enabled : Bool) : Ordered (m.setTrackerEnabled facts url enabled) := by
  have hset : Ordered (m.setEnabled url enabled) :=
    ⟨h.privTorrent, sorted_setEnabled h.sorted url enabled⟩
  unfold setTrackerEnabled
  split
  · exact ⟨h.privTorrent, h.sorted⟩
  · dsimp only
    split
    · split
      · exact Ordered.startNext (m := (m.setEnabled url enabled).ask _ .stop)
          ⟨hset.privTorrent, hset.sorted⟩ facts
      · exact ⟨hset.privTorrent, hset.sorted⟩
    · split
      · exact ⟨hset.privTorrent, hset.sorted⟩
      · exact hset

/-- **One step** is consistent exactly when it is considerate, and then the registry is kept. -/
theorem consistent_step_iff (h : Registry m) (e : TrackerFacts × Event Url) :
    (Consistent scheme (some m) e ↔ Considerate (some m) e) ∧
      ∀ m', step scheme (some m) e = some m' → m'.CurrRegistered → Registry m' := by
  obtain ⟨facts, e⟩ := e
  have hone : ∀ {m' : TrackerManager Url}, step scheme (some m) (facts, e) = some m' →
      (Consistent scheme (some m) (facts, e) ↔ m'.CurrRegistered ∧ SilentWhenStopped m m') := by
    intro m' hm'
    refine ⟨fun hc => hc m' hm', fun hc m'' hm'' => ?_⟩
    rw [hm', Option.some.injEq] at hm''
    exact hm'' ▸ hc
  have hordered : ∀ {m' : TrackerManager Url}, Ordered m' → m'.CurrRegistered → Registry m' :=
    fun ho hc => ⟨ho.privTorrent, ho.sorted, hc⟩
  -- the operations that are always consistent
  have halways : ∀ {m' : TrackerManager Url}, step scheme (some m) (facts, e) = some m' →
      Registry m' ∧ SilentWhenStopped m m' → Considerate (some m) (facts, e) →
        (Consistent scheme (some m) (facts, e) ↔ Considerate (some m) (facts, e)) ∧
          ∀ m'', step scheme (some m) (facts, e) = some m'' → m''.CurrRegistered →
            Registry m'' := by
    intro m' hm' hlaw hguard
    refine ⟨iff_of_true ((hone hm').mpr ⟨hlaw.1.curr, hlaw.2⟩) hguard, fun m'' hm'' _ => ?_⟩
    rw [hm', Option.some.injEq] at hm''
    exact hm'' ▸ hlaw.1
  -- the operations with a condition
  have hsometimes : ∀ {m' : TrackerManager Url}, step scheme (some m) (facts, e) = some m' →
      (m'.CurrRegistered ∧ SilentWhenStopped m m' ↔ Considerate (some m) (facts, e)) →
        Ordered m' →
          (Consistent scheme (some m) (facts, e) ↔ Considerate (some m) (facts, e)) ∧
            ∀ m'', step scheme (some m) (facts, e) = some m'' → m''.CurrRegistered →
              Registry m'' := by
    intro m' hm' hiff ho
    refine ⟨(hone hm').trans hiff, fun m'' hm'' hc => ?_⟩
    rw [hm', Option.some.injEq] at hm''
    exact hordered (hm'' ▸ ho) hc
  cases e with
  | addTracker url custom tier =>
    obtain ⟨hreg, hcalls⟩ : Registry (addTracker scheme m url custom tier) ∧
        (addTracker scheme m url custom tier).calls = m.calls :=
      addTracker_registered h url custom tier
    exact halways rfl ⟨hreg, silent_self hcalls⟩ trivial
  | removeTracker url =>
    exact hsometimes rfl (removeTracker_iff h facts url) (ordered_removeTracker h facts url)
  | restoreDefault => exact halways rfl (restoreDefault_registered h facts) trivial
  | setCurrentTracker url =>
    exact hsometimes rfl (setCurrentTracker_iff h facts url) (ordered_setCurrentTracker h url)
  | setTrackerEnabled url enabled =>
    exact hsometimes rfl (setTrackerEnabled_iff h facts url enabled)
      (ordered_setTrackerEnabled h facts url enabled)
  | start => exact halways rfl (start_registered h facts) trivial
  | stop => exact halways rfl (stop_registered h) trivial
  | completed =>
    have hcompleted : m.completed = m.askCurr .completed := if_pos h.privTorrent
    have hasked := h.askCurr .completed
    refine @hsometimes (m.askCurr .completed) (congrArg some hcompleted) (askCurr_iff h rfl)
      ⟨hasked.privTorrent, hasked.sorted⟩
  | manualUpdate =>
    have hupdated : m.manualUpdate = m.askCurr .manualUpdate := if_pos h.privTorrent
    have hasked := h.askCurr .manualUpdate
    refine @hsometimes (m.askCurr .manualUpdate) (congrArg some hupdated) (askCurr_iff h rfl)
      ⟨hasked.privTorrent, hasked.sorted⟩
  | trackerError sender =>
    cases hm' : step scheme (some m) (facts, .trackerError sender) with
    | none =>
      refine ⟨iff_of_true (fun m' hm => ?_) trivial, fun m' hm => ?_⟩
      · rw [hm'] at hm
        cases hm
      · cases hm
    | some m' => exact hm' ▸ halways hm' (trackerError_registered h facts sender hm') trivial
  | trackerOK sender => exact halways rfl (trackerOK_registered h facts sender) trivial

/-! ## Runs -/

theorem registry_load (facts : TrackerFacts) (standard : List (Url × ℤ)) (custom disabled : List Url) :
    Registry (load scheme facts true standard custom disabled) := by
  have hempty : Registry (empty true : TrackerManager Url) :=
    ⟨rfl, List.Pairwise.nil, fun id hid => by cases hid⟩
  have hstandard : Registry (standard.foldl
      (fun m u => addTracker scheme m u.1 false u.2) (empty true)) :=
    List.foldlRecOn standard _ hempty fun m hm u _ => (addTracker_registered hm u.1 false u.2).1
  have hcustom := List.foldlRecOn custom (fun m url => addTracker scheme m url true 1) hstandard
    fun m hm url _ => (addTracker_registered hm url true 1).1
  have hdisabled := List.foldlRecOn disabled (fun m url => m.setEnabled url false) hcustom
    fun m hm url _ => (⟨hm.privTorrent, sorted_setEnabled hm.sorted url false,
      currRegistered_setEnabled hm.curr⟩ : Registry (m.setEnabled url false))
  unfold load
  dsimp only
  rw [if_pos hdisabled.privTorrent]
  exact hdisabled.select facts

/-- **Runs of a private torrent** are consistent in every step exactly when every step is
considerate. -/
theorem consistent_iff (scheme : Url → String) (facts : TrackerFacts) (standard : List (Url × ℤ))
    (custom disabled : List Url) (es : List (TrackerFacts × Event Url)) :
    AllSteps (step scheme) (Consistent scheme)
        (some (load scheme facts true standard custom disabled)) es ↔
      AllSteps (step scheme) Considerate
        (some (load scheme facts true standard custom disabled)) es := by
  refine @allSteps_iff_of_invariant _ _ _ _ (fun s => ∀ m, s = some m → Registry m) _ ?_ ?_ es _ ?_
  · intro s e hs hguard m' hm'
    cases s with
    | none => cases hm'
    | some m =>
      have hstep := @consistent_step_iff _ _ scheme _ (hs m rfl) e
      exact hstep.2 m' hm' ((hstep.1.mpr hguard) m' hm').1
  · intro s e hs
    cases s with
    | none => exact Iff.rfl
    | some m => exact (consistent_step_iff (hs m rfl) e).1
  · intro m hm
    rw [← Option.some.inj hm]
    exact registry_load facts standard custom disabled

end Registry

/-- No tracker has failed or is started. -/
def quietFacts : TrackerFacts := { failureCount := fun _ => 0, isStarted := fun _ => false }

/-- A private torrent whose trackers are the UDP urls with these numbers. -/
def udpTrackers (standard : List (ℕ × ℤ)) (custom : List ℕ) : TrackerManager ℕ :=
  load (fun _ => "udp") quietFacts true standard custom []

/-- The only tracker is removed and stays the current one; and a stopped manager starts the tracker
that it is told to use. -/
theorem currentTracker_breaks :
    ¬ AllSteps (step fun _ => "udp") (Consistent fun _ => "udp") (some (udpTrackers [] [0]))
        [(quietFacts, .removeTracker 0)] ∧
      ¬ AllSteps (step fun _ => "udp") (Consistent fun _ => "udp")
        (some (udpTrackers [(0, 1), (1, 1)] [])) [(quietFacts, .setCurrentTracker 1)] := by
  constructor
  · rintro ⟨h, -⟩
    have hcurr : ((udpTrackers [] [0]).removeTracker quietFacts 0).curr = some 0 := by decide +kernel
    have hgone : ((udpTrackers [] [0]).removeTracker quietFacts 0).trackers = [] := by
      decide +kernel
    obtain ⟨t, ht, -⟩ := (h _ rfl).1 0 hcurr
    rw [hgone] at ht
    cases ht
  · rintro ⟨h, -⟩
    have hcalls : ((udpTrackers [(0, 1), (1, 1)] []).setCurrentTracker 1).calls =
        (udpTrackers [(0, 1), (1, 1)] []).calls ++ [(0, .stop), (1, .start)] := by decide +kernel
    have hstopped : ((udpTrackers [(0, 1), (1, 1)] []).setCurrentTracker 1).started = false := by
      decide +kernel
    have hstart := (silent_iff hcalls).mp (h _ rfl).2 hstopped (1, .start) (by simp)
    cases hstart

end KTorrent.TrackerManager
