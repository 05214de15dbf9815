import KTorrent.Tracker.UDPTracker

/-!
# Timeouts of a UDP tracker

Whether a timeout that `UDPTracker` reports is one: some request that was sent since the
connection timer was started is still unanswered.

* `Honest` — if the timer expired now and that were reported, then something would be
  unanswered; `honest_iff` says it of the fields.
* `AnswerOk` — the last reply that is missing stops the timer or makes the tracker send
  something; a scrape reply and an error do neither.
* `allStates_honest_iff` — all timeouts along a run are honest exactly when all replies are
  of that kind.
-/

namespace KTorrent.UDPTracker

open Runs

variable {env : TrackerEnv} {m : TrackerMoment} {s : UDPTracker}

/-- The connection timer runs, and `onConnTimeout()` would report a failure. -/
def ReportsTimeout (env : TrackerEnv) (s : UDPTracker) : Prop :=
  s.connTimer = true ∧ (onConnTimeout env { s with connTimer := false }).signals
    = s.signals ++ [.requestFailed env.timeoutError]

/-- A timeout that would be reported is one. -/
def Honest (env : TrackerEnv) (s : UDPTracker) : Prop :=
  s.ReportsTimeout env → s.unanswered ≠ []

/-- The last request of a tracker that stops timed out: that is not reported as a failure. -/
def Unreported (s : UDPTracker) : Prop := s.connectionId ≠ 0 ∧ s.event = .stopped

/-- The tracker acts on the reply: it is one to its last connect or announce. -/
def Takes (s : UDPTracker) (r : Reply) : Prop :=
  s.transactions.lookup r.tid = r.action ∧ r.tid = s.transactionId

/-- After the reply the timer is stopped, or something is sent, or a timeout is not reported. -/
def GoesOn (s : UDPTracker) : Reply → Prop
  | r@(.announce ..) => s.Takes r ∨ s.Unreported
  | r@(.connect _ cid) =>
    (s.Takes r ∧ (s.todoAnnounce = true ∨ s.todoScrape = true ∨ (cid ≠ 0 ∧ s.event = .stopped))) ∨
      (¬ s.Takes r ∧ s.Unreported)
  | .scrape .. | .error .. => s.Unreported

/-- If nothing is unanswered after a reply while the timer runs, then the tracker goes on. -/
def AnswerOk (s : UDPTracker) (i : Input × TrackerMoment) : Prop :=
  match i.1 with
  | .packet buf => ∀ r ∈ Reply.read buf, s.connTimer = true → s.unanswered.erase r.tid = [] →
      s.GoesOn r
  | _ => True

/-! ## What a timeout reports -/

theorem reportsTimeout_iff : s.ReportsTimeout env ↔ s.connTimer = true ∧ ¬ s.Unreported := by
  rw [ReportsTimeout, Unreported, onConnTimeout]
  refine and_congr_right fun _ => ?_
  dsimp only
  split
  · rename_i hconn
    split
    · rename_i hevent
      simp [onError, failed, emit, hevent]
    · rename_i hevent
      have hstopped : s.event = .stopped := not_not.mp hevent
      simp [emit, hconn, hstopped]
  · rename_i hconn
    simp [onError, failed, emit, not_not.mp hconn]

/-- Honesty, said of the fields. -/
theorem honest_iff : s.Honest env ↔ (s.connTimer = true → s.unanswered = [] → s.Unreported) := by
  rw [Honest, reportsTimeout_iff]
  constructor
  · intro h htimer hnil
    by_contra hnot
    exact h ⟨htimer, hnot⟩ hnil
  · rintro h ⟨htimer, hnot⟩ hnil
    exact hnot (h htimer hnil)

/-- Without a timer there is no timeout. -/
theorem honest_of_idle (h : s.connTimer = false) : s.Honest env :=
  honest_iff.mpr fun htimer => absurd (h.symm.trans htimer) (by simp)

theorem honest_of_unanswered (h : s.unanswered ≠ []) : s.Honest env := fun _ => h

/-- A state with the same timer, requests, connection and event is as honest. -/
theorem honest_congr {s' : UDPTracker} (htimer : s'.connTimer = s.connTimer)
    (hunanswered : s'.unanswered = s.unanswered) (hconn : s'.connectionId = s.connectionId)
    (hevent : s'.event = s.event) : s'.Honest env ↔ s.Honest env := by
  rw [honest_iff, honest_iff, Unreported, Unreported, htimer, hunanswered, hconn, hevent]

theorem Honest.of_same {s' : UDPTracker} (h : s.Honest env) (htimer : s'.connTimer = s.connTimer)
    (hunanswered : s'.unanswered = s.unanswered) (hconn : s'.connectionId = s.connectionId)
    (hevent : s'.event = s.event) : s'.Honest env :=
  (honest_congr htimer hunanswered hconn hevent).mpr h

/-! ## Requests -/

theorem unanswered_sendAnnounce : (s.sendAnnounce env m).unanswered ≠ [] := by simp [sendAnnounce]

theorem unanswered_sendScrape : (s.sendScrape env m).unanswered ≠ [] := by simp [sendScrape]

theorem unanswered_sendConnect : (s.sendConnect env m).unanswered ≠ [] := by simp [sendConnect]

/-- A request that is made with the timer stopped. -/
theorem honest_doRequest (h : s.connTimer = false) : (s.doRequest env m).Honest env := by
  rw [doRequest]
  split
  · exact honest_of_idle h
  split
  · have hsent := @unanswered_sendConnect env m { s with todoAnnounce := true, failures := 0 }
    exact honest_of_unanswered hsent
  · have hsent := @unanswered_sendAnnounce env m s
    exact honest_of_unanswered hsent

/-- What is to be done is sent. -/
theorem unanswered_sendTodo (h : s.todoAnnounce = true ∨ s.todoScrape = true) :
    (s.sendTodo env m).unanswered ≠ [] := by
  rw [sendTodo]
  split
  · split
    · exact unanswered_sendScrape
    · exact unanswered_sendAnnounce
  · rename_i hannounce
    rw [if_pos (h.resolve_left hannounce)]
    exact unanswered_sendScrape

theorem sendTodo_nothing (hannounce : ¬ s.todoAnnounce = true) (hscrape : ¬ s.todoScrape = true) :
    s.sendTodo env m = s := by
  simp [sendTodo, hannounce, hscrape]

/-- Sending what is to be done leaves the state as honest, or more so. -/
theorem honest_sendTodo (h : s.Honest env) : (s.sendTodo env m).Honest env := by
  by_cases htodo : s.todoAnnounce = true ∨ s.todoScrape = true
  · exact honest_of_unanswered (unanswered_sendTodo htodo)
  · rw [sendTodo_nothing (fun ha => htodo (.inl ha)) (fun hs => htodo (.inr hs))]
    exact h

theorem honest_stop (h : s.Honest env) : (s.stop env m).Honest env := by
  rw [stop]
  split
  · refine h.of_same ?_ ?_ ?_ ?_
    all_goals split <;> rfl
  · have hrequest : (doRequest env m
        { s with event := .stopped, reannounceTimer := false, connTimer := false }).Honest env :=
      honest_doRequest rfl
    exact hrequest.of_same rfl rfl rfl rfl

theorem honest_manualUpdate : (s.manualUpdate env m).Honest env := by
  rw [manualUpdate]
  split
  · exact honest_doRequest rfl
  · exact honest_doRequest rfl

theorem honest_scrape (h : s.Honest env) : (s.scrape env m).Honest env := by
  rw [scrape]
  split
  · exact h.of_same rfl rfl rfl rfl
  split
  · exact honest_of_unanswered unanswered_sendConnect
  · exact honest_of_unanswered unanswered_sendScrape

theorem honest_onResolverResults (succeeded : Bool) (h : s.Honest env) :
    (s.onResolverResults env m succeeded).Honest env := by
  rw [onResolverResults]
  split
  · dsimp only
    split
    · exact honest_of_unanswered unanswered_sendConnect
    · exact honest_sendTodo (h.of_same rfl rfl rfl rfl)
  · exact h.of_same rfl rfl rfl rfl

theorem honest_onConnTimeout (h : s.connTimer = false) : (s.onConnTimeout env).Honest env := by
  rw [onConnTimeout]
  dsimp only
  split
  · split
    · exact honest_of_idle (by simpa [onError, failed, emit] using h)
    · exact honest_of_idle h
  · exact honest_of_idle (by simpa [onError, failed, emit] using h)

/-! ## Replies -/

section
variable {tid : ℤ}

theorem honest_onError {err : String} : (s.onError tid err).Honest env ↔ s.Honest env := by
  rw [onError]
  split
  · exact Iff.rfl
  · exact honest_congr rfl rfl rfl rfl

theorem honest_scrapeReceived {seeders completed leechers : ℤ} :
    (s.scrapeReceived tid seeders completed leechers).Honest env ↔ s.Honest env := by
  rw [scrapeReceived]
  split
  · exact Iff.rfl
  · exact honest_congr rfl rfl rfl rfl

theorem connTimer_eventDone (interval : UInt32) :
    (s.eventDone env interval).connTimer = s.connTimer := by
  rw [eventDone]
  split <;> rfl

/-- An announce reply that is taken stops the timer. -/
theorem honest_announceReceived {interval : UInt32} {leechers seeders : ℤ} {ipList : List UInt8}
    (htid : tid = s.transactionId) :
    (s.announceReceived env tid interval leechers seeders ipList).Honest env := by
  rw [announceReceived, if_neg (not_not.mpr htid)]
  refine honest_of_idle ?_
  show (eventDone env _ interval).connTimer = false
  rw [connTimer_eventDone]
  rfl

/-- A connect reply that is taken leaves the timer on; it is honest if something is sent. -/
theorem honest_connectReceived {cid : UInt64} (htid : tid = s.transactionId) :
    (s.connectReceived env m tid cid).Honest env ↔ (s.connTimer = true → s.unanswered = [] →
      s.todoAnnounce = true ∨ s.todoScrape = true ∨ (cid ≠ 0 ∧ s.event = .stopped)) := by
  rw [connectReceived, if_neg (not_not.mpr htid)]
  by_cases htodo : s.todoAnnounce = true ∨ s.todoScrape = true
  · refine iff_of_true (honest_of_unanswered (unanswered_sendTodo htodo)) fun _ _ => ?_
    exact htodo.elim .inl fun hs => .inr (.inl hs)
  · obtain ⟨hannounce, hscrape⟩ := not_or.mp htodo
    have hnothing : sendTodo env m { s with connectionId := cid, failures := 0 }
        = { s with connectionId := cid, failures := 0 } := sendTodo_nothing hannounce hscrape
    rw [hnothing, honest_iff, Unreported]
    have hrest : ∀ p : Prop, (s.todoAnnounce = true ∨ s.todoScrape = true ∨ p) ↔ p := fun p =>
      ⟨fun h => (h.resolve_left hannounce).resolve_left hscrape, fun h => .inr (.inr h)⟩
    rw [hrest]

end

/-- A reply is honest when the tracker goes on after it, or something else is missing. -/
theorem honest_handleReply (r : Reply) :
    (s.handleReply env m r).Honest env ↔
      (s.connTimer = true → s.unanswered.erase r.tid = [] → s.GoesOn r) := by
  -- a reply that changes the list of missing ones only
  have hquiet : ∀ s' : UDPTracker, s'.connTimer = s.connTimer →
      s'.unanswered = s.unanswered.erase r.tid → s'.connectionId = s.connectionId →
      s'.event = s.event → (s'.Honest env ↔
        (s.connTimer = true → s.unanswered.erase r.tid = [] → s.Unreported)) := by
    intro s' h1 h2 h3 h4
    rw [honest_iff, Unreported, Unreported, h1, h2, h3, h4]
  have hgoesOn : ¬ s.Takes r → (s.GoesOn r ↔ s.Unreported) := by
    intro hnot
    cases r <;> simp [GoesOn, hnot]
  rw [handleReply]
  dsimp only
  split
  · rename_i hlookup
    have hnot : r.action ≠ none → ¬ s.Takes r := fun ha h => ha (h.1.symm.trans hlookup)
    refine (hquiet { s with unanswered := s.unanswered.erase r.tid } rfl rfl rfl rfl).trans ?_
    cases r with
    | error tid msg => exact Iff.rfl
    | connect tid cid => rw [hgoesOn (hnot (by simp [Reply.action]))]
    | announce tid interval leechers seeders ipList =>
      rw [hgoesOn (hnot (by simp [Reply.action]))]
    | scrape tid seeders completed leechers => exact Iff.rfl
  · rename_i action hlookup
    split
    · -- a reply of another action
      rename_i hother
      have hnot : ¬ s.Takes r := by
        intro h
        rw [← h.1, hlookup] at hother
        simp at hother
      rw [honest_onError, hgoesOn hnot]
      exact hquiet _ rfl rfl rfl rfl
    · rename_i hsame
      cases r with
      | error tid msg =>
        rw [received, honest_onError]
        exact hquiet _ rfl rfl rfl rfl
      | scrape tid seeders completed leechers =>
        rw [received, honest_scrapeReceived]
        exact hquiet _ rfl rfl rfl rfl
      | connect tid cid =>
        obtain rfl : TrackerAction.connect = action := by simpa [Reply.action] using hsame
        rw [received]
        by_cases htid : tid = s.transactionId
        · have htakes : s.Takes (.connect tid cid) := ⟨hlookup, htid⟩
          have hconn := @honest_connectReceived env m { s with
            unanswered := s.unanswered.erase tid
            transactions := s.transactions.erase tid } tid cid htid
          refine hconn.trans ?_
          simp only [GoesOn, htakes, true_and, not_true, false_and, or_false]
          exact Iff.rfl
        · have hnot : ¬ s.Takes (.connect tid cid) := fun h => htid h.2
          rw [connectReceived, if_pos htid, hgoesOn hnot]
          exact hquiet _ rfl rfl rfl rfl
      | announce tid interval leechers seeders ipList =>
        obtain rfl : TrackerAction.announce = action := by simpa [Reply.action] using hsame
        rw [received]
        by_cases htid : tid = s.transactionId
        · have htaken := @honest_announceReceived env { s with
            unanswered := s.unanswered.erase tid
            transactions := s.transactions.erase tid } tid interval leechers seeders ipList htid
          exact iff_of_true htaken fun _ _ => .inl ⟨hlookup, htid⟩
        · have hnot : ¬ s.Takes (.announce tid interval leechers seeders ipList) :=
            fun h => htid h.2
          rw [announceReceived, if_pos htid, hgoesOn hnot]
          exact hquiet _ rfl rfl rfl rfl

/-! ## Runs -/

/-- **The step lemma.**  A step from an honest state leads to an honest one exactly when the
tracker goes on after the reply, if it is one. -/
theorem honest_step (h : s.Honest env) (i : Input × TrackerMoment) :
    (s.step env i).Honest env ↔ s.AnswerOk i := by
  obtain ⟨i, m⟩ := i
  cases i with
  | start => exact iff_of_true (honest_doRequest rfl) trivial
  | stop => exact iff_of_true (honest_stop h) trivial
  | completed => exact iff_of_true (honest_doRequest rfl) trivial
  | manualUpdate => exact iff_of_true honest_manualUpdate trivial
  | scrape => exact iff_of_true (honest_scrape h) trivial
  | packet buf =>
    show (s.dataReceived env m buf).Honest env ↔ ∀ r ∈ Reply.read buf, _
    rw [dataReceived]
    split
    · rename_i hread
      exact iff_of_true h fun r hr => by simp [hread] at hr
    · rename_i r hread
      rw [honest_handleReply, hread]
      simp
  | connTimeout =>
    refine iff_of_true ?_ trivial
    show (if s.connTimer then _ else s).Honest env
    split
    · exact honest_onConnTimeout rfl
    · exact h
  | reannounceTimeout =>
    refine iff_of_true ?_ trivial
    show (if s.reannounceTimer then _ else s).Honest env
    split
    · exact honest_manualUpdate
    · exact h
  | resolved succeeded => exact iff_of_true (honest_onResolverResults succeeded h) trivial

/-- **Timeouts are honest, exactly.**  Along every run a timeout would only be reported while
some request sent since the timer was started is unanswered, if and only if the tracker goes
on after every reply that leaves nothing unanswered while the timer runs. -/
theorem allStates_honest_iff (env : TrackerEnv) (resolved : Bool)
    (is : List (Input × TrackerMoment)) :
    AllStates (step env) (Honest env) (new resolved) is ↔
      AllSteps (step env) AnswerOk (new resolved) is :=
  allStates_iff_allSteps (fun _ h => h) (fun _ i h hok => (honest_step h i).mpr hok)
    (fun _ i h hbad => fun hnext => hbad ((honest_step h i).mp hnext)) is _
    (honest_of_idle rfl)

/-- A scrape: the connection is made, and both requests are answered. -/
def answeredScrape : List (Input × TrackerMoment) :=
  [(.scrape, momentOf 1),
    (.packet [0, 0, 0, 0, 0, 0, 0, 1, 0, 0, 0, 0, 0, 0, 0, 7], momentOf 2),
    (.packet [0, 0, 0, 2, 0, 0, 0, 2, 0, 0, 0, 0, 0, 0, 0, 0, 0, 0, 0, 0], momentOf 3)]

/-- The timer that the connect started runs on, and will report a timeout. -/
theorem answeredScrape_dishonest :
    ¬ AllStates (step plainEnv) (Honest plainEnv) (new true) answeredScrape := by
  intro h
  have hlast := honest_iff.mp h.2.2.2
  revert hlast
  rw [Unreported]
  decide +kernel

end KTorrent.UDPTracker
