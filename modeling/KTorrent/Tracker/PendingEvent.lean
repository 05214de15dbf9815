import KTorrent.Tracker.UDPTracker

/-!
# The pending event of a UDP tracker

Whether the events get through: `UDPTracker` keeps one pending event, which every call
overwrites and every announce reply clears.

* `NoEventLost` — of what became of the announces: the first one answered after a start
  says so, the download is completed for a tracker that knows of it, and after every answer
  the tracker is started and its timer runs.
* `Sound` — the invariant; `sound_step` is its step lemma.
* `CallOk` — `completed()` is called when a start was answered and no other one is pending.
* `allStates_noEventLost` — then no event is lost along the run.
-/

namespace KTorrent.UDPTracker

open Runs

variable {env : TrackerEnv} {m : TrackerMoment} {s : UDPTracker} {log : List AnnounceEvent}

/-- A start was called and nothing answered since. -/
def StartPending (log : List AnnounceEvent) : Prop :=
  ∃ before after, log = before ++ .start :: after ∧
    ∀ event running, .answered event running ∉ after

/-- **The law**, of what became of the announces. -/
structure NoEventLost (log : List AnnounceEvent) : Prop where
  /-- The first announce that is answered after a start carries the event. -/
  started : ∀ before after event running, log = before ++ .answered event running :: after →
    StartPending before → event = .started
  /-- The download is completed for a tracker that has answered a start. -/
  completed : ∀ before after, log = before ++ .sent .completed :: after →
    ∃ running, .answered .started running ∈ before
  /-- After an answer the tracker is started and the timer runs. -/
  running : ∀ event running, .answered event running ∈ log → running = true

/-- What a step must not be: a stop, a completion before the start is answered, or the answer to
the announce in flight with an interval that no timer can be started with. -/
def CallOk (env : TrackerEnv) (s : UDPTracker) (i : Input × TrackerMoment) : Prop :=
  match i.1 with
  | .stop => False
  | .completed => s.started = true ∧ s.event ≠ .started
  | .packet buf => ∀ tid interval leechers seeders ipList,
      Reply.read buf = some (.announce tid interval leechers seeders ipList) →
        tid = s.transactionId → s.transactions.lookup tid = some .announce →
          env.timerStarts (reannounceMsec interval) = true
  | _ => True

/-! ## One more entry -/

theorem startPending_append {x : AnnounceEvent} :
    StartPending (log ++ [x]) ↔
      x = .start ∨ (StartPending log ∧ ∀ event running, x ≠ .answered event running) := by
  constructor
  · rintro ⟨before, after, h, hafter⟩
    obtain rfl | ⟨after, y, rfl⟩ := List.eq_nil_or_concat' after
    · obtain ⟨-, hx⟩ := List.append_inj' h rfl
      exact .inl (List.singleton_inj.mp hx)
    · rw [← List.cons_append, ← List.append_assoc] at h
      obtain ⟨hlog, hx⟩ := List.append_inj' h rfl
      obtain rfl := List.singleton_inj.mp hx
      exact .inr ⟨⟨before, after, hlog, fun e r he => hafter e r (List.mem_append_left _ he)⟩,
        fun e r he => hafter e r (by simp [he])⟩
  · rintro (rfl | ⟨⟨before, after, rfl, hafter⟩, hx⟩)
    · exact ⟨log, [], rfl, by simp⟩
    · refine ⟨before, after ++ [x], by simp, fun e r he => ?_⟩
      obtain he | he := List.mem_append.mp he
      · exact hafter e r he
      · exact hx e r (List.mem_singleton.mp he).symm

/-- Where an entry of the longer list stands. -/
theorem append_cases {x y : AnnounceEvent} {before after : List AnnounceEvent}
    (h : log ++ [x] = before ++ y :: after) :
    (log = before ∧ x = y) ∨ ∃ after', log = before ++ y :: after' := by
  obtain rfl | ⟨after, z, rfl⟩ := List.eq_nil_or_concat' after
  · obtain ⟨hlog, hx⟩ := List.append_inj' h rfl
    exact .inl ⟨hlog, List.singleton_inj.mp hx⟩
  · rw [← List.cons_append, ← List.append_assoc] at h
    exact .inr ⟨after, (List.append_inj' h rfl).1⟩

/-- A start is called, or an announce sent. -/
theorem NoEventLost.unanswered (h : NoEventLost log) {x : AnnounceEvent}
    (hx : ∀ event running, x ≠ .answered event running)
    (hcompleted : x = .sent .completed → ∃ running, .answered .started running ∈ log) :
    NoEventLost (log ++ [x]) where
  started := by
    intro before after event running heq hpending
    obtain ⟨-, rfl⟩ | ⟨after', heq'⟩ := append_cases heq
    · exact absurd rfl (hx event running)
    · exact h.started before after' event running heq' hpending
  completed := by
    intro before after heq
    obtain ⟨rfl, rfl⟩ | ⟨after', heq'⟩ := append_cases heq
    · exact hcompleted rfl
    · exact h.completed before after' heq'
  running := by
    intro event running hmem
    obtain hmem | hmem := List.mem_append.mp hmem
    · exact h.running event running hmem
    · exact absurd (List.mem_singleton.mp hmem).symm (hx event running)

/-- An announce is answered. -/
theorem NoEventLost.answered (h : NoEventLost log) {event : TrackerEvent}
    (hevent : StartPending log → event = .started) :
    NoEventLost (log ++ [.answered event true]) where
  started := by
    intro before after event' running heq hpending
    obtain ⟨rfl, hx⟩ | ⟨after', heq'⟩ := append_cases heq
    · cases hx
      exact hevent hpending
    · exact h.started before after' event' running heq' hpending
  completed := by
    intro before after heq
    obtain ⟨rfl, hx⟩ | ⟨after', heq'⟩ := append_cases heq
    · cases hx
    · exact h.completed before after' heq'
  running := by
    intro event' running hmem
    obtain hmem | hmem := List.mem_append.mp hmem
    · exact h.running event' running hmem
    · cases List.mem_singleton.mp hmem
      rfl

/-! ## The invariant -/

/-- What holds whatever is in flight. -/
structure Base (s : UDPTracker) : Prop where
  law : NoEventLost s.log
  notStopped : s.event ≠ .stopped
  completed : s.event = .completed → s.started = true
  pending : StartPending s.log → s.event = .started
  answered : s.started = true → ∃ running, .answered .started running ∈ s.log
  todo : s.todoAnnounce = true → s.started = true ∨ s.event = .started
  unresolved : s.resolved = false → ∀ tid, s.transactions.lookup tid = none

/-- And the announce in flight, if it is the current transaction, carries the pending event. -/
structure Sound (s : UDPTracker) : Prop extends Base s where
  flight : s.transactions.lookup s.transactionId = some .announce →
    s.announced.lookup s.transactionId = some s.event ∧ (s.started = true ∨ s.event = .started)

theorem sound_new (resolved : Bool) : Sound (new resolved) where
  law := ⟨by simp [new], by simp [new], by simp [new]⟩
  notStopped := by simp [new]
  completed := by simp [new]
  pending := by
    rintro ⟨before, after, h, -⟩
    simp [new] at h
  answered := by simp [new]
  todo := by simp [new]
  unresolved := fun _ tid => rfl
  flight := fun h => by cases h

/-- Only these fields matter. -/
theorem Sound.of_same {s' : UDPTracker} (h : Sound s) (hlog : s'.log = s.log)
    (hevent : s'.event = s.event) (hstarted : s'.started = s.started)
    (htodo : s'.todoAnnounce = s.todoAnnounce) (hresolved : s'.resolved = s.resolved)
    (htransactions : s'.transactions = s.transactions)
    (htid : s'.transactionId = s.transactionId) (hannounced : s'.announced = s.announced) :
    Sound s' where
  law := hlog ▸ h.law
  notStopped := hevent ▸ h.notStopped
  completed := by rw [hevent, hstarted]; exact h.completed
  pending := by rw [hlog, hevent]; exact h.pending
  answered := by rw [hstarted, hlog]; exact h.answered
  todo := by rw [htodo, hstarted, hevent]; exact h.todo
  unresolved := by rw [hresolved, htransactions]; exact h.unresolved
  flight := by rw [htransactions, htid, hannounced, hstarted, hevent]; exact h.flight

/-! ## Requests -/

theorem sound_sendConnect (h : Base s) (hresolved : s.resolved = true) :
    Sound (s.sendConnect env m) where
  law := h.law
  notStopped := h.notStopped
  completed := h.completed
  pending := h.pending
  answered := h.answered
  todo := h.todo
  unresolved := fun hno => absurd (hresolved.symm.trans hno) (by simp)
  flight := by
    intro hlookup
    rw [sendConnect, AList.lookup_insert] at hlookup
    cases hlookup

/-- An announce is sent by a tracker that is started, or starts. -/
theorem sound_sendAnnounce (h : Base s) (hresolved : s.resolved = true)
    (hcan : s.started = true ∨ s.event = .started) : Sound (s.sendAnnounce env m) where
  law := h.law.unanswered (by simp) fun hx => h.answered (h.completed (by simpa using hx))
  notStopped := h.notStopped
  completed := h.completed
  pending := by
    intro hpending
    obtain hx | ⟨hold, -⟩ := startPending_append.mp hpending
    · cases hx
    · exact h.pending hold
  answered := by
    intro hstarted
    obtain ⟨running, hmem⟩ := h.answered hstarted
    exact ⟨running, List.mem_append_left _ hmem⟩
  todo := by simp [sendAnnounce]
  unresolved := fun hno => absurd (hresolved.symm.trans hno) (by simp)
  flight := by
    intro _
    refine ⟨?_, hcan⟩
    rw [sendAnnounce, AList.lookup_insert]

theorem sound_sendScrape (h : Sound s) (hresolved : s.resolved = true) :
    Sound (s.sendScrape env m) where
  law := h.law
  notStopped := h.notStopped
  completed := h.completed
  pending := h.pending
  answered := h.answered
  todo := h.todo
  unresolved := fun hno => absurd (hresolved.symm.trans hno) (by simp)
  flight := by
    intro hlookup
    rw [sendScrape] at hlookup
    by_cases htid : s.transactionId = newTransactionID s.transactions m.otherId
    · rw [← htid, AList.lookup_insert] at hlookup
      cases hlookup
    · rw [AList.lookup_insert_ne htid] at hlookup
      exact h.flight hlookup

/-- A request of a tracker that is started, or starts. -/
theorem sound_doRequest (h : Base s) (hcan : s.started = true ∨ s.event = .started) :
    Sound (s.doRequest env m) := by
  rw [doRequest]
  split
  · rename_i hresolved
    have hno : s.resolved = false := by simpa using hresolved
    exact {
      law := h.law
      notStopped := h.notStopped
      completed := h.completed
      pending := h.pending
      answered := h.answered
      todo := fun _ => hcan
      unresolved := h.unresolved
      flight := fun hlookup => by
        have hnone := h.unresolved hno s.transactionId
        exact absurd (hnone.symm.trans hlookup) (by simp) }
  · rename_i hresolved
    have hyes : s.resolved = true := by simpa using hresolved
    split
    · have hbase : Base { s with todoAnnounce := true, failures := 0 } :=
        { h with todo := fun _ => hcan }
      exact (@sound_sendConnect env m _ hbase hyes).of_same
        rfl rfl rfl rfl rfl rfl rfl rfl
    · exact (@sound_sendAnnounce env m _ h hyes hcan).of_same
        rfl rfl rfl rfl rfl rfl rfl rfl

theorem sound_start (h : Base s) : Sound (s.start env m) := by
  refine sound_doRequest ?_ (.inr rfl)
  exact {
    law := h.law.unanswered (by simp) (by simp)
    notStopped := by simp
    completed := by simp
    pending := fun _ => rfl
    answered := fun hstarted => by
      obtain ⟨running, hmem⟩ := h.answered hstarted
      exact ⟨running, List.mem_append_left _ hmem⟩
    todo := fun _ => .inr rfl
    unresolved := h.unresolved }

theorem sound_completed (h : Base s) (hstarted : s.started = true) (hevent : s.event ≠ .started) :
    Sound (s.completed env m) := by
  refine sound_doRequest ?_ (.inl hstarted)
  exact {
    law := h.law
    notStopped := by simp
    completed := fun _ => hstarted
    pending := fun hpending => absurd (h.pending hpending) hevent
    answered := h.answered
    todo := fun _ => .inl hstarted
    unresolved := h.unresolved }

theorem sound_manualUpdate (h : Sound s) : Sound (s.manualUpdate env m) := by
  have hbase : Base { s with connTimer := false } := { h.toBase with }
  rw [manualUpdate]
  split
  · exact sound_start hbase
  · rename_i hstarted
    exact sound_doRequest hbase (.inl (by simpa using hstarted))

theorem sound_scrape (h : Sound s) : Sound (s.scrape env m) := by
  rw [scrape]
  split
  · exact h.of_same rfl rfl rfl rfl rfl rfl rfl rfl
  · rename_i hresolved
    have hyes : s.resolved = true := by simpa using hresolved
    split
    · exact sound_sendConnect { h.toBase with } hyes
    · exact sound_sendScrape h hyes

theorem sound_sendTodo (h : Sound s) (hresolved : s.resolved = true) :
    Sound (s.sendTodo env m) := by
  obtain ⟨s', hs'⟩ : ∃ s', s' = if s.todoAnnounce then s.sendAnnounce env m else s := ⟨_, rfl⟩
  have hannounce : Sound s' := by
    rw [hs']
    split
    · rename_i htodo
      exact sound_sendAnnounce h.toBase hresolved (h.todo htodo)
    · exact h
  have hstill : s'.resolved = true := by
    rw [hs']
    split <;> exact hresolved
  rw [sendTodo, ← hs']
  split
  · exact sound_sendScrape hannounce hstill
  · exact hannounce

/-! ## Replies -/

theorem sound_onError (h : Sound s) (tid : ℤ) (err : String) : Sound (s.onError tid err) := by
  rw [onError]
  split
  · exact h
  · exact h.of_same rfl rfl rfl rfl rfl rfl rfl rfl

theorem sound_onConnTimeout (h : Sound s) : Sound (s.onConnTimeout env) := by
  have hlater : Sound { s with timeOut := true, failures := s.failures + 1 } :=
    h.of_same rfl rfl rfl rfl rfl rfl rfl rfl
  have hlost : Sound { s with timeOut := true, failures := s.failures + 1, connectionId := 0 } :=
    h.of_same rfl rfl rfl rfl rfl rfl rfl rfl
  unfold onConnTimeout
  simp only [ne_eq, h.notStopped, not_false_eq_true, if_true]
  split
  · exact sound_onError hlost _ _
  · exact sound_onError hlater _ _

/-- A transaction is over. -/
theorem Sound.erase (h : Sound s) (tid : ℤ) : Sound { s with
    unanswered := s.unanswered.erase tid
    transactions := s.transactions.erase tid } where
  law := h.law
  notStopped := h.notStopped
  completed := h.completed
  pending := h.pending
  answered := h.answered
  todo := h.todo
  unresolved := fun hno tid' => by
    by_cases htid : tid' = tid
    · rw [htid]
      exact AList.lookup_erase _ _
    · show (s.transactions.erase tid).lookup tid' = none
      rw [AList.lookup_erase_ne htid]
      exact h.unresolved hno tid'
  flight := fun hlookup => by
    change (s.transactions.erase tid).lookup s.transactionId = _ at hlookup
    by_cases htid : s.transactionId = tid
    · rw [htid, AList.lookup_erase] at hlookup
      cases hlookup
    · rw [AList.lookup_erase_ne htid] at hlookup
      exact h.flight hlookup

/-- The announce in flight is answered: it carries the pending event. -/
theorem sound_announceReceived (h : Base s) {tid : ℤ} {interval : UInt32} {leechers seeders : ℤ}
    {ipList : List UInt8} (htid : tid = s.transactionId)
    (hlookup : s.transactions.lookup tid = none)
    (hcarried : s.announced.lookup tid = some s.event)
    (hcan : s.started = true ∨ s.event = .started)
    (htimer : env.timerStarts (reannounceMsec interval) = true) :
    Sound (s.announceReceived env tid interval leechers seeders ipList) := by
  have hstarted : s.started = true ∨ decide (s.event = TrackerEvent.started) = true := by
    simpa using hcan
  have hlog : (s.announceReceived env tid interval leechers seeders ipList).log
      = s.log ++ [.answered s.event true] := by
    rw [announceReceived, if_neg (not_not.mpr htid), hcarried]
    simp only [eventDone, emit, ne_eq, h.notStopped, not_false_eq_true, if_true, htimer]
    simpa using ⟨hstarted, .inl hstarted⟩
  have hfields : (s.announceReceived env tid interval leechers seeders ipList).event = .none ∧
      (s.announceReceived env tid interval leechers seeders ipList).started = true ∧
      (s.announceReceived env tid interval leechers seeders ipList).resolved = s.resolved ∧
      (s.announceReceived env tid interval leechers seeders ipList).transactions
        = s.transactions ∧
      (s.announceReceived env tid interval leechers seeders ipList).transactionId
        = s.transactionId := by
    rw [announceReceived, if_neg (not_not.mpr htid)]
    simp only [eventDone, emit, ne_eq, h.notStopped, not_false_eq_true, if_true, Bool.or_eq_true,
      and_true, true_and]
    exact hstarted
  obtain ⟨hevent, hstarted', hresolved, htransactions, htransactionId⟩ := hfields
  exact {
    law := by
      rw [hlog]
      exact h.law.answered h.pending
    notStopped := by simp [hevent]
    completed := by simp [hevent]
    pending := fun hpending => by
      rw [hlog] at hpending
      obtain hx | ⟨-, hx⟩ := startPending_append.mp hpending
      · cases hx
      · exact absurd rfl (hx s.event true)
    answered := fun _ => by
      rw [hlog]
      obtain hwas | hnow := hcan
      · obtain ⟨running, hmem⟩ := h.answered hwas
        exact ⟨running, List.mem_append_left _ hmem⟩
      · exact ⟨true, by simp [hnow]⟩
    todo := fun _ => .inl hstarted'
    unresolved := by rw [hresolved, htransactions]; exact h.unresolved
    flight := fun hflight => by
      rw [htransactions, htransactionId, ← htid, hlookup] at hflight
      cases hflight }

theorem sound_handleReply (h : Sound s) {r : Reply}
    (htimer : ∀ tid interval leechers seeders ipList,
      r = .announce tid interval leechers seeders ipList →
        tid = s.transactionId → s.transactions.lookup tid = some .announce →
          env.timerStarts (reannounceMsec interval) = true) : Sound (s.handleReply env m r) := by
  rw [handleReply]
  split
  · exact h.of_same rfl rfl rfl rfl rfl rfl rfl rfl
  · rename_i action hlookup
    have hresolved : s.resolved = true := by
      by_contra hno
      have hnone := h.unresolved (by simpa using hno) r.tid
      exact absurd (hnone.symm.trans hlookup) (by simp)
    have herased := h.erase r.tid
    split
    · exact sound_onError herased _ _
    · rename_i hsame
      cases r with
      | error tid msg => exact sound_onError herased _ _
      | scrape tid seeders completed leechers =>
        rw [received, scrapeReceived]
        split
        · exact herased
        · exact herased.of_same rfl rfl rfl rfl rfl rfl rfl rfl
      | connect tid cid =>
        rw [received, connectReceived]
        split
        · exact herased
        · exact sound_sendTodo (herased.of_same rfl rfl rfl rfl rfl rfl rfl rfl) hresolved
      | announce tid interval leechers seeders ipList =>
        obtain rfl : TrackerAction.announce = action := by simpa [Reply.action] using hsame
        by_cases htid : tid = s.transactionId
        · subst htid
          obtain ⟨hcarried, hcan⟩ := h.flight hlookup
          exact sound_announceReceived herased.toBase rfl (AList.lookup_erase _ _) hcarried hcan
            (htimer _ _ _ _ _ rfl rfl hlookup)
        · rw [received, announceReceived, if_pos htid]
          exact herased

/-! ## Runs -/

/-- **The step lemma.** -/
theorem sound_step (h : Sound s) (i : Input × TrackerMoment) (hok : s.CallOk env i) :
    Sound (s.step env i) := by
  obtain ⟨i, m⟩ := i
  cases i with
  | start => exact sound_start h.toBase
  | stop => exact absurd hok id
  | completed => exact sound_completed h.toBase hok.1 hok.2
  | manualUpdate => exact sound_manualUpdate h
  | scrape => exact sound_scrape h
  | packet buf =>
    show Sound (s.dataReceived env m buf)
    rw [dataReceived]
    split
    · exact h
    · rename_i r hread
      refine sound_handleReply h fun tid interval leechers seeders ipList hr => ?_
      exact hok tid interval leechers seeders ipList (hread.trans (congrArg some hr))
  | connTimeout =>
    show Sound (if s.connTimer then _ else s)
    split
    · exact sound_onConnTimeout (h.of_same rfl rfl rfl rfl rfl rfl rfl rfl)
    · exact h
  | reannounceTimeout =>
    show Sound (if s.reannounceTimer then _ else s)
    split
    · exact sound_manualUpdate (h.of_same rfl rfl rfl rfl rfl rfl rfl rfl)
    · exact h
  | resolved succeeded =>
    cases succeeded with
    | false => exact h.of_same rfl rfl rfl rfl rfl rfl rfl rfl
    | true =>
      have hresolved : Sound { s with resolved := true } :=
        { h with unresolved := fun hno => absurd hno (by simp) }
      show Sound (if s.connectionId = 0 then _ else _)
      split
      · exact sound_sendConnect { hresolved.toBase with } rfl
      · exact sound_sendTodo hresolved rfl

/-- **No event is lost** along a run without a stop on which the download is completed only when
a start was answered and no other one is pending, and all intervals are ones a timer can be
started with. -/
theorem allStates_noEventLost (env : TrackerEnv) (resolved : Bool)
    (is : List (Input × TrackerMoment)) (hok : AllSteps (step env) (CallOk env) (new resolved) is) :
    AllStates (step env) (fun s => NoEventLost s.log) (new resolved) is := by
  have hsound : AllStates (step env) Sound (new resolved) is :=
    allStates_of_invariant (fun _ i h hcall => sound_step h i hcall) is _ (sound_new resolved) hok
  exact hsound.mono fun _ h => h.law

/-- A connect reply to the transaction `tid`. -/
def connectReply (tid : UInt8) : List UInt8 := [0, 0, 0, 0, 0, 0, 0, tid, 0, 0, 0, 0, 0, 0, 0, 7]

/-- An announce reply to the transaction `tid`, without peers: come back in a minute. -/
def announceReply (tid : UInt8) : List UInt8 :=
  [0, 0, 0, 1, 0, 0, 0, tid, 0, 0, 0, 60, 0, 0, 0, 0, 0, 0, 0, 0]

/-- A start and, when it is answered, the completion. -/
def startedThenCompleted : List (Input × TrackerMoment) :=
  [(.start, momentOf 1), (.packet (connectReply 1), momentOf 2),
    (.packet (announceReply 2), momentOf 3), (.completed, momentOf 4),
    (.packet (connectReply 4), momentOf 5), (.packet (announceReply 5), momentOf 6)]

instance (i : Input × TrackerMoment) : Decidable (CallOk plainEnv s i) :=
  match i with
  | (.stop, _) => .isFalse id
  | (.completed, _) => inferInstanceAs (Decidable (s.started = true ∧ s.event ≠ .started))
  | (.packet buf, _) =>
    match hread : Reply.read buf with
    | some (.announce tid interval _ _ _) =>
      decidable_of_iff (tid = s.transactionId → s.transactions.lookup tid = some .announce →
          plainEnv.timerStarts (reannounceMsec interval) = true)
        ⟨fun h _ _ _ _ _ heq => by cases hread.symm.trans heq; exact h,
          fun h => h _ _ _ _ _ hread⟩
    | some (.connect ..) | some (.scrape ..) | some (.error ..) | none =>
      .isTrue fun _ _ _ _ _ heq => by cases hread.symm.trans heq
  | (.start, _) | (.manualUpdate, _) | (.scrape, _) | (.connTimeout, _)
  | (.reannounceTimeout, _) | (.resolved _, _) => .isTrue trivial

theorem startedThenCompleted_noEventLost :
    AllSteps (step plainEnv) (CallOk plainEnv) (new true) startedThenCompleted ∧
      AllStates (step plainEnv) (fun s => NoEventLost s.log) (new true) startedThenCompleted := by
  have hok : AllSteps (step plainEnv) (CallOk plainEnv) (new true) startedThenCompleted := by
    decide +kernel
  exact ⟨hok, allStates_noEventLost plainEnv true startedThenCompleted hok⟩

/-- A completion while the start is not answered yet. -/
def completedTooEarly : List (Input × TrackerMoment) :=
  [(.start, momentOf 1), (.completed, momentOf 2), (.packet (connectReply 2), momentOf 3),
    (.packet (announceReply 3), momentOf 4)]

/-- The first announce that is answered says that the download is completed, and no other one
is ever sent by a timer. -/
theorem completedTooEarly_lost :
    ¬ AllStates (step plainEnv) (fun s => NoEventLost s.log) (new true) completedTooEarly := by
  intro h
  have hlast : NoEventLost (run (step plainEnv) (new true) completedTooEarly).log := h.2.2.2.2
  have hlog : (run (step plainEnv) (new true) completedTooEarly).log
      = [.start, .sent .completed, .answered .completed false] := by decide +kernel
  rw [hlog] at hlast
  obtain ⟨running, hmem⟩ := hlast.completed [.start] _ rfl
  simp at hmem

end KTorrent.UDPTracker
