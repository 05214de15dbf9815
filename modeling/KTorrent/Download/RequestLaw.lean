import KTorrent.Download.GrabCalls
import KTorrent.Lib.Run

/-!
# The requests of a chunk download

`ChunkDownload::sendRequests` serves its piece downloaders in turn, and every
request changes the table that the next one is chosen from.

* `Chosen` — a piece that is missing and that the piece downloader was not asked
  for; one that others were asked for only when there is no other, and then one
  that the fewest were asked for.
* `searchBest_found` — what the search for the best piece returns.
* `Rounds` — the rounds over the list of piece downloaders, which end when it is
  empty.
* `sendRequests_chosen` — the rounds end, and every request is chosen.
-/

namespace KTorrent

open Runs

namespace PeerTable

variable {PD : Type} [DecidableEq PD]

/-! ## What is promised -/

/-- The piece is one of the chunk's and has not arrived. -/
def Missing (t : PieceTable) (i : ℕ) : Prop := i < t.num ∧ t.pieces i = false

/-- Piece `i` was requested from `pd`. -/
def Outstanding (w : PeerTable PD) (pd : PD) (i : ℕ) : Prop :=
  ∃ ds, (pd, ds) ∈ w.dstatus ∧ i ∈ ds.status

/-- How many piece downloaders piece `i` was requested from. -/
def requestCount (w : PeerTable PD) (i : ℕ) : ℕ := (w.dstatus.filter (·.2.contains i)).length

/-- **What is promised of a request** for piece `e.2` to `e.1`. -/
structure Chosen (t : PieceTable) (w : PeerTable PD) (e : PD × ℕ) : Prop where
  missing : Missing t e.2
  fresh : ¬ Outstanding w e.1 e.2
  shared : ∀ other, Outstanding w other e.2 → ∀ j, Missing t j → ¬ Outstanding w e.1 j →
    (∃ pd, Outstanding w pd j) ∧ requestCount w e.2 ≤ requestCount w j

/-- What sending a request for piece `e.2` to `e.1` does. -/
def request (t : PieceTable) (w : PeerTable PD) (e : PD × ℕ) : PeerTable PD :=
  let w := (w.call (.download e.1 (requestFor t e.2 (some e.1)))).modifyStatus e.1 (·.add e.2)
  let left := sub32 t.num t.numDownloaded
  if left < 2 ∧ left > 0 then w.call (.nearlyDone e.1) else w

/-- The rounds over the list of piece downloaders end with the table `w'`. -/
inductive Rounds (t : PieceTable) :
    List PD → PeerTable PD → (PD → ℕ) → PeerTable PD → Prop where
  | done (w : PeerTable PD) (room : PD → ℕ) : Rounds t [] w room w
  | round {pd : PD} {pds : List PD} {w w' : PeerTable PD} {room : PD → ℕ}
      (next : Rounds t (sendRound t (pd :: pds) w room).1 (sendRound t (pd :: pds) w room).2.1
        (sendRound t (pd :: pds) w room).2.2 w') : Rounds t (pd :: pds) w room w'

variable {t : PieceTable} {w w' : PeerTable PD} {pd : PD} {i : ℕ}

/-! ## The status table -/

theorem mem_of_findStatus {ds : DownloadStatus} (h : w.findStatus pd = some ds) :
    (pd, ds) ∈ w.dstatus := by
  rw [findStatus, Option.map_eq_some_iff] at h
  obtain ⟨⟨q, ds'⟩, hfind, rfl⟩ := h
  have hq := List.find?_some hfind
  rw [decide_eq_true_eq] at hq
  obtain rfl : q = pd := hq
  exact List.mem_of_find?_eq_some hfind

theorem findStatus_of_mem (hkeys : (w.dstatus.map Prod.fst).Nodup) {ds : DownloadStatus}
    (h : (pd, ds) ∈ w.dstatus) : w.findStatus pd = some ds := by
  cases hfind : w.findStatus pd with
  | none =>
    rw [findStatus, Option.map_eq_none_iff, List.find?_eq_none] at hfind
    exact absurd (decide_eq_true rfl) (hfind _ h)
  | some ds' =>
    have heq := List.inj_on_of_nodup_map hkeys (mem_of_findStatus hfind) h rfl
    rw [(Prod.mk.inj heq).2]

/-- What the code asks before it counts who else was asked. -/
theorem contains_findStatus (hkeys : (w.dstatus.map Prod.fst).Nodup) :
    ((w.findStatus pd).map (·.contains i)).getD false = true ↔ Outstanding w pd i := by
  constructor
  · intro h
    cases hfind : w.findStatus pd with
    | none =>
      rw [hfind] at h
      exact absurd h Bool.false_ne_true
    | some ds =>
      rw [hfind] at h
      exact ⟨ds, mem_of_findStatus hfind, of_decide_eq_true h⟩
  · rintro ⟨ds, hmem, hi⟩
    rw [findStatus_of_mem hkeys hmem]
    exact decide_eq_true hi

/-- A piece that was not requested from `pd` was requested from others only. -/
theorem timesDownloading_eq (h : ¬ Outstanding w pd i) : w.timesDownloading pd i = w.requestCount i := by
  rw [timesDownloading, requestCount]
  congr 1
  refine List.filter_congr fun e he => ?_
  by_cases hpd : e.1 = pd
  · subst hpd
    have hnot : e.2.contains i = false := decide_eq_false fun hi => h ⟨e.2, he, hi⟩
    simp [hnot]
  · simp [hpd]

omit [DecidableEq PD] in
theorem requestCount_pos : 0 < w.requestCount i ↔ ∃ pd, Outstanding w pd i := by
  rw [requestCount, List.length_pos_iff_exists_mem]
  simp only [List.mem_filter, DownloadStatus.contains, decide_eq_true_eq, Outstanding, Prod.exists]

/-! ## The search -/

/-- The piece can be requested from `pd`. -/
def Open (t : PieceTable) (w : PeerTable PD) (pd : PD) (i : ℕ) : Prop :=
  t.pieces i = false ∧ ¬ Outstanding w pd i

/-- What the search keeps of the pieces it has seen. -/
def Kept (t : PieceTable) (w : PeerTable PD) (pd : PD) (seen : List ℕ) : Option (ℕ × ℕ) → Prop
  | none => ∀ j ∈ seen, ¬ Open t w pd j
  | some (b, count) => b ∈ seen ∧ Open t w pd b ∧ count = w.requestCount b ∧
      ∀ j ∈ seen, Open t w pd j → 0 < w.requestCount j ∧ count ≤ w.requestCount j

/-- What the search returns, for the pieces `all`. -/
def Found (t : PieceTable) (w : PeerTable PD) (pd : PD) (all : List ℕ) (r : ℕ) : Prop :=
  (r = t.num ∧ ∀ j ∈ all, ¬ Open t w pd j) ∨
    r ∈ all ∧ Open t w pd r ∧ (w.requestCount r = 0 ∨
      ∀ j ∈ all, Open t w pd j → 0 < w.requestCount j ∧ w.requestCount r ≤ w.requestCount j)

omit [DecidableEq PD] in
/-- A piece that cannot be requested changes nothing. -/
theorem Kept.skip {seen : List ℕ} {best : Option (ℕ × ℕ)} (h : Kept t w pd seen best)
    (hi : ¬ Open t w pd i) : Kept t w pd (seen ++ [i]) best := by
  cases best with
  | none =>
    intro j hj
    rcases List.mem_append.mp hj with hj | hj
    · exact h j hj
    · rwa [List.mem_singleton.mp hj]
  | some best =>
    obtain ⟨hmem, hopen, hcount, hall⟩ := h
    refine ⟨List.mem_append_left _ hmem, hopen, hcount, fun j hj hjo => ?_⟩
    rcases List.mem_append.mp hj with hj | hj
    · exact hall j hj hjo
    · rw [List.mem_singleton.mp hj] at hjo
      exact absurd hjo hi

omit [DecidableEq PD] in
/-- A piece that others were asked for becomes the best one if there was none, or if fewer were
asked for it. -/
theorem Kept.shared {seen : List ℕ} {best : Option (ℕ × ℕ)} (h : Kept t w pd seen best)
    (hi : Open t w pd i) (hpos : 0 < w.requestCount i) :
    Kept t w pd (seen ++ [i]) (match best with
      | none => some (i, w.requestCount i)
      | some (b, count) =>
        if count > w.requestCount i then some (i, w.requestCount i) else some (b, count)) := by
  have hlast : i ∈ seen ++ [i] := List.mem_append_right _ List.mem_cons_self
  cases best with
  | none =>
    refine ⟨hlast, hi, rfl, fun j hj hjo => ?_⟩
    rcases List.mem_append.mp hj with hj | hj
    · exact absurd hjo (h j hj)
    · rw [List.mem_singleton.mp hj]
      exact ⟨hpos, le_rfl⟩
  | some best =>
    obtain ⟨hmem, hopen, hcount, hall⟩ := h
    dsimp only
    split
    case isTrue hless =>
      refine ⟨hlast, hi, rfl, fun j hj hjo => ?_⟩
      rcases List.mem_append.mp hj with hj | hj
      · exact ⟨(hall j hj hjo).1, hless.le.trans (hall j hj hjo).2⟩
      · rw [List.mem_singleton.mp hj]
        exact ⟨hpos, le_rfl⟩
    case isFalse hmore =>
      refine ⟨List.mem_append_left _ hmem, hopen, hcount, fun j hj hjo => ?_⟩
      rcases List.mem_append.mp hj with hj | hj
      · exact hall j hj hjo
      · rw [List.mem_singleton.mp hj]
        exact ⟨hpos, not_lt.mp hmore⟩

/-- **What the search returns.** -/
theorem searchBest_found (hkeys : (w.dstatus.map Prod.fst).Nodup) :
    ∀ (is seen : List ℕ) (best : Option (ℕ × ℕ)), Kept t w pd seen best →
      Found t w pd (seen ++ is) (searchBest t w pd is best) := by
  intro is
  induction is with
  | nil =>
    intro seen best h
    rw [List.append_nil, searchBest]
    cases best with
    | none => exact .inl ⟨rfl, h⟩
    | some best =>
      obtain ⟨hmem, hopen, hcount, hall⟩ := h
      exact .inr ⟨hmem, hopen, .inr fun j hj hjo => hcount ▸ hall j hj hjo⟩
  | cons i is ih =>
    intro seen best h
    rw [searchBest]
    have hsplit : seen ++ i :: is = (seen ++ [i]) ++ is := (List.append_cons ..)
    by_cases hpiece : t.pieces i = true
    · rw [if_pos hpiece, hsplit]
      exact ih _ _ (h.skip fun ho => by rw [ho.1] at hpiece; cases hpiece)
    rw [if_neg hpiece]
    by_cases hout : Outstanding w pd i
    · rw [if_pos ((contains_findStatus hkeys).mpr hout), hsplit]
      exact ih _ _ (h.skip fun ho => ho.2 hout)
    rw [if_neg fun hc => hout ((contains_findStatus hkeys).mp hc)]
    have hopen : Open t w pd i := ⟨Bool.eq_false_iff.mpr hpiece, hout⟩
    dsimp only
    rw [timesDownloading_eq hout]
    by_cases hzero : w.requestCount i = 0
    · -- nobody was asked for it, so the search is over
      rw [if_pos hzero]
      exact .inr ⟨List.mem_append_right _ List.mem_cons_self, hopen, .inl hzero⟩
    · rw [if_neg hzero, hsplit]
      have hnext := h.shared hopen (Nat.pos_of_ne_zero hzero)
      cases best with
      | none => exact ih _ _ hnext
      | some best => exact ih _ _ hnext

/-- **The piece that is requested.** -/
theorem bestPiece_chosen (hkeys : (w.dstatus.map Prod.fst).Nodup) (h : bestPiece t w pd < t.num) :
    Chosen t w (pd, bestPiece t w pd) := by
  have hfound : Found t w pd ([] ++ List.range t.num) (searchBest t w pd (List.range t.num) none) :=
    searchBest_found hkeys _ [] none fun j hj => by cases hj
  rw [List.nil_append, ← bestPiece] at hfound
  rcases hfound with ⟨hnone, -⟩ | ⟨-, hopen, hleast⟩
  · omega
  refine ⟨⟨h, hopen.1⟩, hopen.2, fun other hother j hj hjo => ?_⟩
  have hpos : 0 < w.requestCount (bestPiece t w pd) := requestCount_pos.mpr ⟨other, hother⟩
  have hall := hleast.resolve_left hpos.ne' j (List.mem_range.mpr hj.1) ⟨hj.2, hjo⟩
  exact ⟨requestCount_pos.mp hall.1, hall.2⟩

/-! ## The rounds -/

theorem sendRequest_request (h : sendRequest t w pd = some w') :
    bestPiece t w pd < t.num ∧ w' = request t w (pd, bestPiece t w pd) := by
  rw [sendRequest] at h
  split at h
  · cases h
  · dsimp only at h
    split at h
    case isTrue => cases h
    case isFalse hbp => exact ⟨not_le.mp hbp, (Option.some.inj h).symm⟩

theorem keys_sendRequest (h : sendRequest t w pd = some w')
    (hkeys : (w.dstatus.map Prod.fst).Nodup) : (w'.dstatus.map Prod.fst).Nodup := by
  rw [(quiet_sendRequest h).keys]
  exact hkeys

/-- What one round requests. -/
theorem sendRound_chosen : ∀ (pds : List PD) (w : PeerTable PD) (room : PD → ℕ),
    (w.dstatus.map Prod.fst).Nodup → ∃ sent : List (PD × ℕ),
      (sendRound t pds w room).2.1 = run (request t) w sent ∧
        AllSteps (request t) (Chosen t) w sent := by
  intro pds
  induction pds with
  | nil => exact fun w _ _ => ⟨[], rfl, trivial⟩
  | cons pd pds ih =>
    intro w room hkeys
    rw [sendRound]
    split
    · exact ih w room hkeys
    next w' hw' =>
      split at hw'
      case isFalse => cases hw'
      case isTrue =>
        obtain ⟨hbp, hreq⟩ := sendRequest_request hw'
        obtain ⟨sent, hrun, hall⟩ := ih w' (Function.update room pd (room pd - 1))
          (keys_sendRequest hw' hkeys)
        refine ⟨(pd, bestPiece t w pd) :: sent, ?_, bestPiece_chosen hkeys hbp, ?_⟩
        · rw [run_cons, ← hreq]
          exact hrun
        · rw [← hreq]
          exact hall

/-- Everyone who stays in the list has room for one request less. -/
theorem sendRound_room : ∀ (pds : List PD) (w : PeerTable PD) (room : PD → ℕ),
    (∀ pd, (sendRound t pds w room).2.2 pd ≤ room pd) ∧
      ((sendRound t pds w room).1.map (sendRound t pds w room).2.2).sum +
        (sendRound t pds w room).1.length ≤ (pds.map room).sum := by
  intro pds
  induction pds with
  | nil => exact fun w room => ⟨fun _ => le_rfl, le_rfl⟩
  | cons pd pds ih =>
    intro w room
    rw [sendRound]
    split
    · obtain ⟨hle, hsum⟩ := ih w room
      refine ⟨hle, hsum.trans ?_⟩
      rw [List.map_cons, List.sum_cons]
      omega
    next w' hw' =>
      split at hw'
      case isFalse => cases hw'
      case isTrue hroom =>
        obtain ⟨room', hroom'⟩ : ∃ room', room' = Function.update room pd (room pd - 1) := ⟨_, rfl⟩
        rw [← hroom']
        obtain ⟨⟨tmp, w'', room''⟩, hrest⟩ : ∃ r, r = sendRound t pds w' room' := ⟨_, rfl⟩
        obtain ⟨hle, hsum⟩ := ih w' room'
        rw [← hrest] at hle hsum ⊢
        dsimp only at hle hsum ⊢
        have hless : ∀ q, room' q ≤ room q := by
          intro q
          rw [hroom', Function.update_apply]
          split
          case isTrue hq => rw [hq]; omega
          case isFalse => exact le_rfl
        have hown : room' pd = room pd - 1 := by rw [hroom', Function.update_self]
        have hothers : (pds.map room').sum ≤ (pds.map room).sum :=
          List.sum_le_sum fun q _ => hless q
        refine ⟨fun q => (hle q).trans (hless q), ?_⟩
        have hpd := hle pd
        simp only [List.map_cons, List.sum_cons, List.length_cons]
        omega

/-- **The rounds end** when there are as many as requests are taken, and one more. -/
theorem rounds_sendRounds : ∀ (fuel : ℕ) (pds : List PD) (w : PeerTable PD) (room : PD → ℕ),
    (pds.map room).sum < fuel → Rounds t pds w room (sendRounds t fuel pds w room) := by
  intro fuel
  induction fuel with
  | zero => intro pds w room h; omega
  | succ fuel ih =>
    intro pds w room h
    cases pds with
    | nil => exact .done w room
    | cons pd pds =>
      rw [sendRounds]
      refine .round ?_
      dsimp only
      have hsum := (sendRound_room (t := t) (pd :: pds) w room).2
      cases htmp : (sendRound t (pd :: pds) w room).1 with
      | nil =>
        have hnil : ∀ (w : PeerTable PD) (room : PD → ℕ), sendRounds t fuel [] w room = w := by
          intro w room
          cases fuel <;> rfl
        rw [hnil]
        exact .done _ _
      | cons q tmp =>
        refine ih _ _ _ ?_
        rw [htmp, List.length_cons] at hsum
        omega

/-- What all the rounds request. -/
theorem sendRounds_chosen : ∀ (fuel : ℕ) (pds : List PD) (w : PeerTable PD) (room : PD → ℕ),
    (w.dstatus.map Prod.fst).Nodup → ∃ sent : List (PD × ℕ),
      sendRounds t fuel pds w room = run (request t) w sent ∧
        AllSteps (request t) (Chosen t) w sent := by
  intro fuel
  induction fuel with
  | zero => exact fun _ w _ _ => ⟨[], rfl, trivial⟩
  | succ fuel ih =>
    intro pds w room hkeys
    cases pds with
    | nil => exact ⟨[], rfl, trivial⟩
    | cons pd pds =>
      obtain ⟨sent, hrun, hall⟩ := sendRound_chosen (t := t) (pd :: pds) w room hkeys
      have hkeys' : ((sendRound t (pd :: pds) w room).2.1.dstatus.map Prod.fst).Nodup := by
        rw [(quiet_sendRound t (pd :: pds) w room).keys]
        exact hkeys
      obtain ⟨sent', hrun', hall'⟩ := ih (sendRound t (pd :: pds) w room).1 _
        (sendRound t (pd :: pds) w room).2.2 hkeys'
      refine ⟨sent ++ sent', ?_, (allSteps_append ..).mpr ⟨hall, ?_⟩⟩
      · rw [sendRounds, run_append, ← hrun]
        exact hrun'
      · rw [← hrun]
        exact hall'

/-- **The requests of a chunk download.**  For every chunk download and every number of further
requests that its piece downloaders take, the rounds end; and what they do to the table is a run of
requests, each of which is chosen from the table at that time. -/
theorem sendRequests_chosen (t : PieceTable) (w : PeerTable PD) (room : PD → ℕ)
    (hkeys : (w.dstatus.map Prod.fst).Nodup) :
    Rounds t w.pdown w room (sendRequests t w room) ∧ ∃ sent : List (PD × ℕ),
      sendRequests t w room = run (request t) w sent ∧
        AllSteps (request t) (Chosen t) w sent :=
  ⟨rounds_sendRounds _ _ _ _ (Nat.lt_succ_self _), sendRounds_chosen _ _ _ _ hkeys⟩

/-- Two piece downloaders; piece 0 was requested from the first one. -/
def twoAssigned : PeerTable ℕ := ⟨[1, 2], [(1, ⟨0, [0]⟩), (2, .new)], [], []⟩

/-- Three pieces: each piece downloader gets the piece that nobody was asked for, and then one that
the other one was asked for. -/
theorem sendRequests_chosen_two :
    (sendRequests (PieceTable.new 0 40000) twoAssigned fun _ => 2).log =
        [.download 1 ⟨0, 16384, 16384, some 1⟩, .download 2 ⟨0, 32768, 7232, some 2⟩,
          .download 1 ⟨0, 32768, 7232, some 1⟩, .download 2 ⟨0, 0, 16384, some 2⟩] ∧
      Rounds (PieceTable.new 0 40000) [1, 2] twoAssigned (fun _ => 2)
        (sendRequests (PieceTable.new 0 40000) twoAssigned fun _ => 2) ∧
      ∃ sent : List (ℕ × ℕ), sendRequests (PieceTable.new 0 40000) twoAssigned (fun _ => 2) =
          run (request (PieceTable.new 0 40000)) twoAssigned sent ∧
        AllSteps (request (PieceTable.new 0 40000)) (Chosen (PieceTable.new 0 40000)) twoAssigned sent :=
  ⟨by decide +kernel, sendRequests_chosen (PieceTable.new 0 40000) twoAssigned (fun _ => 2) (by decide)⟩

end PeerTable
end KTorrent
