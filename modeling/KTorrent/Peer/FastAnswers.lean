import KTorrent.Lib.Run
import KTorrent.Peer.PeerUploader

/-!
# Answers to requests

With the fast extension every request is answered, by the piece or by a reject.
A request is due while it waits in the uploader, and answered by a packet in one
of the queues of the packet socket or in what was selected from them.

* `Answered` — every request that was received waits, or has its one answer.
* `answersOf_write`, `answersOf_dropPackets` — sending moves the answers and
  dropping a piece replaces one by another.
* `allStates_answered_iff` — all requests are answered along exactly the runs in
  which no request is cancelled while it waits in the uploader.
* `cancelled_waiting_unanswered` — such a request is forgotten.
-/

namespace KTorrent

namespace PacketSocket

open PeerMessageType

/-- The packets that were selected or are in a queue. -/
def packets (s : PacketSocket) : List Packet :=
  selectedPackets s.selected ++ (s.dataPackets ++ s.controlPackets)

/-- The number of packets that answer a request. -/
def answersOf (packets : List Packet) (r : Peer.Request) : ℕ :=
  packets.countP fun p => p.answers == some r

theorem answersOf_append (l l' : List Packet) (r : Peer.Request) :
    answersOf (l ++ l') r = answersOf l r + answersOf l' r := List.countP_append

theorem answersOf_singleton (p : Packet) (r : Peer.Request) :
    answersOf [p] r = if p.answers = some r then 1 else 0 := by
  unfold answersOf
  rw [List.countP_singleton]
  simp only [beq_iff_eq]

/-- The queue holds pieces, each for a request that is not too long. -/
def IsPieceOf (p : Packet) (r : Peer.Request) : Prop :=
  ∃ ch, 13 + r.length.toNat < 2 ^ 32 ∧ p = Packet.createPiece r.index r.offset r.length ch

/-- All packets in the queue of pieces are pieces of a request. -/
def PiecesQueued (s : PacketSocket) : Prop := ∀ p ∈ s.dataPackets, ∃ r, IsPieceOf p r

variable {s : PacketSocket} {p : Packet} {r r' : Peer.Request}

theorem IsPieceOf.answers_some (h : IsPieceOf p r) : p.answers = some r := by
  obtain ⟨ch, hlen, rfl⟩ := h
  exact Packet.answers_createPiece r.index r.offset ch hlen

theorem IsPieceOf.reject_eq (h : IsPieceOf p r) :
    p.makeRejectOfPiece = some (.createRequest r rejectRequest) := by
  obtain ⟨ch, hlen, rfl⟩ := h
  exact Packet.makeReject_createPiece r.index r.offset ch hlen

/-! ## Adding and sending -/

theorem answersOf_addPacket (s : PacketSocket) (p : Packet) (r : Peer.Request) :
    answersOf (s.addPacket p).packets r =
      answersOf s.packets r + if p.answers = some r then 1 else 0 := by
  rw [← answersOf_singleton]
  unfold addPacket packets
  split
  · simp only [answersOf_append]
    omega
  · simp only [answersOf_append]
    omega

theorem PiecesQueued.addPacket (h : s.PiecesQueued) (hp : p.type = piece → ∃ r, IsPieceOf p r) :
    (s.addPacket p).PiecesQueued := by
  unfold PacketSocket.addPacket
  split
  · rename_i hpiece
    intro q hq
    rcases List.mem_append.mp hq with hq | hq
    · exact h q hq
    · rw [List.mem_singleton.mp hq]
      exact hp hpiece
  · exact h

/-- What a part of a write does to the packets: their order changes, and pieces leave the queue. -/
def Moves (s s' : PacketSocket) : Prop :=
  s'.packets.Perm s.packets ∧ s'.dataPackets <:+ s.dataPackets

theorem Moves.refl (s : PacketSocket) : Moves s s := ⟨List.Perm.refl _, List.suffix_rfl⟩

theorem Moves.trans {s s' s'' : PacketSocket} (h : Moves s s') (h' : Moves s' s'') : Moves s s'' :=
  ⟨h'.1.trans h.1, h'.2.trans h.2⟩

theorem moves_selectPacket (s : PacketSocket) : Moves s s.selectPacket := by
  have hcontrol : ∀ (sel : List Selection) (data controls : List Packet) (p : Packet) (b : Bool),
      (selectedPackets (sel ++ [⟨p, b⟩]) ++ (data ++ controls)).Perm
        (selectedPackets sel ++ (data ++ p :: controls)) := by
    intro sel data controls p b
    rw [selectedPackets, List.map_append, List.append_assoc]
    have hmiddle : (p :: (data ++ controls)).Perm (data ++ p :: controls) := List.perm_middle.symm
    exact hmiddle.append_left _
  have hdata : ∀ (sel : List Selection) (data controls : List Packet) (p : Packet) (b : Bool),
      (selectedPackets (sel ++ [⟨p, b⟩]) ++ (data ++ controls)).Perm
        (selectedPackets sel ++ (p :: data ++ controls)) := by
    intro sel data controls p b
    rw [selectedPackets, List.map_append, List.append_assoc]
    rfl
  unfold selectPacket
  dsimp only
  split
  · split
    · rename_i p ps _ hqueue
      refine ⟨?_, List.suffix_rfl⟩
      unfold packets
      rw [hqueue]
      exact hcontrol _ _ _ _ _
    · rename_i p ps hnil hqueue
      refine ⟨?_, hqueue ▸ List.suffix_cons _ _⟩
      unfold packets
      rw [hqueue]
      exact hdata _ _ _ _ _
    · exact ⟨List.Perm.refl _, List.suffix_rfl⟩
  · split
    · rename_i p ps _ hqueue
      refine ⟨?_, hqueue ▸ List.suffix_cons _ _⟩
      unfold packets
      rw [hqueue]
      exact hdata _ _ _ _ _
    · rename_i p ps hnil hqueue
      refine ⟨?_, List.suffix_rfl⟩
      unfold packets
      rw [hqueue]
      exact hcontrol _ _ _ _ _
    · exact ⟨List.Perm.refl _, List.suffix_rfl⟩

theorem moves_writeLoop (max : ℕ) : ∀ (rooms : List ℕ) (s : PacketSocket) (written : ℕ),
    Moves s (writeLoop max s written rooms).1 := by
  intro rooms
  induction rooms with
  | nil => intro s written; exact Moves.refl s
  | cons room rooms ih =>
    intro s written
    unfold writeLoop
    cases hcurr : s.currPacket with
    | none => exact Moves.refl s
    | some p =>
      dsimp only
      have hsend : Moves s (s.sendCurrent p room (limit max written)) := by
        refine ⟨?_, ?_⟩
        · unfold packets
          rw [sendCurrent_selected, sendCurrent_dataPackets, sendCurrent_controlPackets]
        · rw [sendCurrent_dataPackets]
      split
      · split
        · split
          · have hnext := moves_selectPacket { s.sendCurrent p room (limit max written) with
              ctrlPacketsSent := if p.type = piece then 0 else
                (s.sendCurrent p room (limit max written)).ctrlPacketsSent + 1 }
            exact (hsend.trans hnext).trans (ih _ _)
          · exact hsend
        · exact Moves.refl s
      · exact Moves.refl s

theorem moves_write (s : PacketSocket) (connected : Bool) (max : ℕ) (rooms : List ℕ) :
    Moves s (s.write connected max rooms).1 := by
  unfold write
  split
  · exact Moves.refl s
  · refine Moves.trans ?_ (moves_writeLoop max rooms _ 0)
    split
    · exact moves_selectPacket s
    · exact Moves.refl s

theorem answersOf_write (s : PacketSocket) (connected : Bool) (max : ℕ) (rooms : List ℕ)
    (r : Peer.Request) :
    answersOf (s.write connected max rooms).1.packets r = answersOf s.packets r :=
  (moves_write s connected max rooms).1.countP_eq _

/-! ## Dropping -/

/-- A piece that is dropped is replaced by a reject of the same request. -/
theorem answersOf_dropPacket {rest : List Packet} (drop : Packet → Bool) (h : IsPieceOf p r')
    (r : Peer.Request) :
    answersOf (dropPacket drop true s p).packets r + answersOf rest r =
      answersOf s.packets r + answersOf (p :: rest) r := by
  have hcons : answersOf (p :: rest) r = (if r' = r then 1 else 0) + answersOf rest r := by
    rw [← List.singleton_append, answersOf_append, answersOf_singleton, h.answers_some]
    simp only [Option.some.injEq]
  rw [hcons]
  unfold dropPacket
  split
  · rw [if_pos rfl, h.reject_eq]
    dsimp only
    rw [answersOf_addPacket, Packet.answers_createRequest]
    simp only [Option.some.injEq]
    exact Nat.add_assoc _ _ _
  · have hkeep : answersOf ({ s with dataPackets := s.dataPackets ++ [p] } : PacketSocket).packets r =
        answersOf s.packets r + if r' = r then 1 else 0 := by
      have hone : answersOf [p] r = if r' = r then 1 else 0 := by
        rw [answersOf_singleton, h.answers_some]
        simp only [Option.some.injEq]
      rw [← hone]
      unfold packets
      simp only [answersOf_append]
      omega
    rw [hkeep, Nat.add_assoc]

theorem piecesQueued_dropPacket (drop : Packet → Bool) (h : IsPieceOf p r') (hs : s.PiecesQueued) :
    (dropPacket drop true s p).PiecesQueued := by
  unfold dropPacket
  split
  · rw [if_pos rfl, h.reject_eq]
    exact PiecesQueued.addPacket hs fun hc => by cases hc
  · intro q hq
    rcases List.mem_append.mp hq with hq | hq
    · exact hs q hq
    · rw [List.mem_singleton.mp hq]
      exact ⟨r', h⟩

theorem dropPackets_answers (h : s.PiecesQueued) (drop : Packet → Bool) :
    (s.dropPackets drop true).PiecesQueued ∧
      ∀ r, answersOf (s.dropPackets drop true).packets r = answersOf s.packets r := by
  have hloop : ∀ (rest : List Packet) (s : PacketSocket), (∀ p ∈ rest, ∃ r, IsPieceOf p r) →
      s.PiecesQueued → (rest.foldl (dropPacket drop true) s).PiecesQueued ∧
        ∀ r, answersOf (rest.foldl (dropPacket drop true) s).packets r =
          answersOf s.packets r + answersOf rest r := by
    intro rest
    induction rest with
    | nil => intro s _ hs; exact ⟨hs, fun r => rfl⟩
    | cons p rest ih =>
      intro s hrest hs
      obtain ⟨r', hp⟩ := hrest p List.mem_cons_self
      obtain ⟨hq, hcount⟩ := ih (dropPacket drop true s p)
        (fun q hq => hrest q (List.mem_cons_of_mem _ hq)) (piecesQueued_dropPacket drop hp hs)
      refine ⟨hq, fun r => ?_⟩
      rw [List.foldl_cons, hcount r, answersOf_dropPacket drop hp r]
  obtain ⟨hq, hcount⟩ := hloop s.dataPackets { s with dataPackets := [] } h fun p hp => by cases hp
  refine ⟨hq, fun r => (hcount r).trans ?_⟩
  unfold packets
  simp only [answersOf_append, List.nil_append]
  omega

end PacketSocket

namespace UploadPeer

open PacketSocket PeerMessageType Runs

/-- Every request that was received waits, or has its one answer, a piece or a reject; and once the
queues are empty the answers are those that were sent. -/
structure Answered (s : UploadPeer) : Prop where
  balance : ∀ r, s.received.count r = s.requests.count r + answersOf s.sock.packets r
  flushed : s.requests = [] → s.sock.dataPackets = [] → s.sock.controlPackets = [] →
    ∀ r, s.received.count r = answersOf (selectedPackets s.sock.selected) r

/-- No request is cancelled while it waits in the uploader. -/
def NotWaiting (s : UploadPeer) : UploadEvent → Prop
  | .cancel r => r ∉ s.requests
  | _ => True

/-- What the events keep in any case. -/
structure Fast (s : UploadPeer) : Prop where
  fast : s.fastExtensions = true
  short : ∀ r ∈ s.requests, r.length.toNat ≤ maxRequestLength
  pieces : s.sock.PiecesQueued

/-- The answers of `s'` are those of `s` and one more for each request of a list. -/
structure Answers (s s' : UploadPeer) (answered : List Peer.Request) : Prop where
  pieces : s'.sock.PiecesQueued
  count : ∀ r, answersOf s'.sock.packets r = answersOf s.sock.packets r + answered.count r
  fast : s'.fastExtensions = s.fastExtensions
  requests : s'.requests = s.requests
  received : s'.received = s.received

variable {s s' : UploadPeer} {r : Peer.Request}

theorem Answered.of_balance
    (h : ∀ r, s.received.count r = s.requests.count r + answersOf s.sock.packets r) :
    s.Answered := by
  refine ⟨h, fun hreq hdata hcontrol r => ?_⟩
  rw [h r, hreq, packets, hdata, hcontrol, List.append_nil, List.append_nil, List.count_nil,
    Nat.zero_add]

/-! ## Rejects and pieces -/

theorem Answers.refl (h : s.sock.PiecesQueued) : Answers s s [] :=
  ⟨h, fun _ => rfl, rfl, rfl, rfl⟩

theorem Answers.trans {s'' : UploadPeer} {l l' : List Peer.Request} (h : Answers s s' l)
    (h' : Answers s' s'' l') : Answers s s'' (l ++ l') := by
  refine ⟨h'.pieces, fun r => ?_, h'.fast.trans h.fast, h'.requests.trans h.requests,
    h'.received.trans h.received⟩
  rw [h'.count, h.count, List.count_append, Nat.add_assoc]

/-- A packet that answers a request. -/
theorem answers_addPacket (h : s.sock.PiecesQueued) {p : Packet} (hp : p.answers = some r)
    (hpiece : p.type = piece → ∃ r, IsPieceOf p r) : Answers s (s.addPacket p) [r] := by
  refine ⟨h.addPacket hpiece, fun r' => ?_, rfl, rfl, rfl⟩
  change answersOf (s.sock.addPacket p).packets r' = _
  rw [answersOf_addPacket, hp, List.count_singleton]
  simp only [Option.some.injEq, beq_iff_eq]

theorem answers_sendReject (h : s.sock.PiecesQueued) (r : Peer.Request) :
    Answers s (s.sendReject r) [r] :=
  answers_addPacket h (Packet.answers_createRequest r) fun hc => by cases hc

/-- **One request is handled**: by a piece, or by a reject. -/
theorem answers_answerRequest (chunks : UInt32 → Option Peer.Chunk) (h : s.sock.PiecesQueued)
    (hfast : s.fastExtensions = true) (hr : r.length.toNat ≤ maxRequestLength) :
    Answers s (answerRequest chunks s r) [r] := by
  have hreject : Answers s (s.rejectFast r) [r] := by
    unfold rejectFast
    rw [if_pos hfast]
    exact answers_sendReject h r
  unfold answerRequest
  split
  · rename_i c _
    unfold sendChunk
    split
    · have hlen : 13 + r.length.toNat < 2 ^ 32 := by
        unfold maxRequestLength at hr
        omega
      exact answers_addPacket h (Packet.answers_createPiece _ _ c hlen) fun _ => ⟨r, c, hlen, rfl⟩
    · exact hreject
  · exact hreject

theorem answers_handleLoop (chunks : UInt32 → Option Peer.Chunk) : ∀ (requests : List Peer.Request)
    (s : UploadPeer), s.sock.PiecesQueued → s.fastExtensions = true →
      (∀ r ∈ requests, r.length.toNat ≤ maxRequestLength) →
      Answers s (requests.foldl (answerRequest chunks) s) requests := by
  intro requests
  induction requests with
  | nil => intro s h _ _; exact Answers.refl h
  | cons r requests ih =>
    intro s h hfast hshort
    have hone := answers_answerRequest chunks h hfast (hshort r List.mem_cons_self)
    exact hone.trans (ih _ hone.pieces (hone.fast.trans hfast) fun r' hr' =>
      hshort r' (List.mem_cons_of_mem _ hr'))

theorem answers_rejectLoop : ∀ (requests : List Peer.Request) (s : UploadPeer),
    s.sock.PiecesQueued → Answers s (requests.foldl sendReject s) requests := by
  intro requests
  induction requests with
  | nil => intro s h; exact Answers.refl h
  | cons r requests ih =>
    intro s h
    have hone := answers_sendReject h r
    exact hone.trans (ih _ hone.pieces)

/-- A packet that answers nothing. -/
theorem answers_other (h : s.sock.PiecesQueued) {p : Packet} (hpiece : p.type ≠ piece)
    (hreject : p.type ≠ rejectRequest) : Answers s (s.addPacket p) [] := by
  have hp : p.answers = none := by rw [Packet.answers, if_neg hpiece, if_neg hreject]
  refine ⟨h.addPacket fun hc => absurd hc hpiece, fun r' => ?_, rfl, rfl, rfl⟩
  change answersOf (s.sock.addPacket p).packets r' = _
  rw [answersOf_addPacket, hp, List.count_nil]
  rfl

theorem answers_dropPackets (h : s.sock.PiecesQueued) (drop : Packet → Bool) :
    Answers s { s with sock := s.sock.dropPackets drop true } [] := by
  obtain ⟨hq, hcount⟩ := dropPackets_answers h drop
  exact ⟨hq, hcount, rfl, rfl, rfl⟩

/-! ## One event -/

/-- Nothing is answered, and nothing is received. -/
theorem Answers.keep (h : Answers s s' []) (hs : s.Fast) (ha : s.Answered) :
    s'.Fast ∧ s'.Answered := by
  refine ⟨⟨h.fast.trans hs.fast, ?_, h.pieces⟩, .of_balance fun r => ?_⟩
  · rw [h.requests]
    exact hs.short
  · rw [h.received, h.requests, h.count r, ha.balance r]
    rfl

/-- The requests that waited are answered, and none waits any more. -/
theorem Answers.flush (h : Answers s s' s.requests) (hs : s.Fast) (ha : s.Answered) :
    { s' with requests := [] }.Fast ∧ { s' with requests := [] }.Answered := by
  constructor
  · exact ⟨h.fast.trans hs.fast, fun r hr => (List.not_mem_nil hr).elim, h.pieces⟩
  · refine .of_balance fun r => ?_
    change s'.received.count r = 0 + answersOf s'.sock.packets r
    rw [h.received, ha.balance r, h.count r, Nat.zero_add, Nat.add_comm]

/-- The pieces and then the requests are rejected. -/
theorem answers_clearAllRequests (h : s.sock.PiecesQueued) (hfast : s.fastExtensions = true) :
    ∃ s', Answers s s' s.requests ∧ s.clearAllRequests = { s' with requests := [] } := by
  have hclear := answers_dropPackets h isCleared
  have hloop := answers_rejectLoop s.requests _ hclear.pieces
  refine ⟨_, hclear.trans hloop, ?_⟩
  simp only [clearAllRequests, hfast, if_true]
  rfl

/-- **A choke** answers all requests that wait. -/
theorem answered_choke (hs : s.Fast) (ha : s.Answered) : s.choke_.Fast ∧ s.choke_.Answered := by
  unfold choke_
  split
  · exact ⟨hs, ha⟩
  have hadd := answers_other hs.pieces (p := .createType choke) (by decide) (by decide)
  have hchoke : Answers s { s.addPacket (.createType choke) with hasUploadSlot := false } [] :=
    ⟨hadd.pieces, hadd.count, rfl, rfl, rfl⟩
  obtain ⟨s', hclear, heq⟩ := answers_clearAllRequests hchoke.pieces hs.fast
  rw [heq]
  exact (hchoke.trans hclear).flush hs ha

/-- A request is received. -/
theorem answered_request (hs : s.Fast) (ha : s.Answered) (hr : r.length.toNat ≤ maxRequestLength) :
    ((s.handleRequest r).record [r]).Fast ∧ ((s.handleRequest r).record [r]).Answered := by
  unfold handleRequest
  split
  · refine ⟨⟨hs.fast, fun r' hr' => ?_, hs.pieces⟩, .of_balance fun r' => ?_⟩
    · rcases List.mem_append.mp hr' with hr' | hr'
      · exact hs.short r' hr'
      · rw [List.mem_singleton.mp hr']
        exact hr
    · change (s.received ++ [r]).count r' = (s.requests ++ [r]).count r' + _
      rw [List.count_append, List.count_append, ha.balance r']
      exact Nat.add_right_comm _ _ _
  · rw [if_pos hs.fast]
    have hreject := answers_sendReject hs.pieces r
    refine ⟨⟨hs.fast, hs.short, hreject.pieces⟩, .of_balance fun r' => ?_⟩
    change (s.received ++ [r]).count r' = s.requests.count r' + _
    rw [List.count_append, ha.balance r', Nat.add_assoc]
    exact congrArg _ (hreject.count r').symm

/-- **A cancel** answers the pieces it drops, but not the requests. -/
theorem answered_cancel (hs : s.Fast) (ha : s.Answered) (r : Peer.Request) :
    (s.handleCancel r).Fast ∧ ((s.handleCancel r).Answered ↔ r ∉ s.requests) := by
  have hdrop := answers_dropPackets (s := s.removeRequest r) hs.pieces (isUnwanted r)
  have hcancel : s.handleCancel r = { s.removeRequest r with
      sock := (s.removeRequest r).sock.dropPackets (isUnwanted r) true } := by
    simp only [handleCancel, doNotSendPiece, removeRequest, hs.fast]
  rw [hcancel]
  refine ⟨⟨hs.fast, fun r' hr' => hs.short r' (List.mem_filter.mp hr').1, hdrop.pieces⟩, ?_⟩
  have hcount : ∀ r', (s.requests.filter fun q => q ≠ r).count r' =
      if r' = r then 0 else s.requests.count r' := by
    intro r'
    split
    · rename_i heq
      rw [List.count_eq_zero, List.mem_filter, heq]
      simp
    · rename_i hne
      exact List.count_filter (by simpa using hne)
  constructor
  · intro h hmem
    have hbalance := h.balance r
    have hpos := List.count_pos_iff.mpr hmem
    have hbefore := ha.balance r
    change s.received.count r = (s.requests.filter fun q => q ≠ r).count r + _ at hbalance
    rw [hdrop.count, hcount, if_pos rfl] at hbalance
    change s.received.count r = 0 + (answersOf s.sock.packets r + 0) at hbalance
    omega
  · intro hmem
    refine .of_balance fun r' => ?_
    change s.received.count r' = (s.requests.filter fun q => q ≠ r).count r' + _
    rw [hdrop.count, hcount, ha.balance r']
    split
    · rename_i heq
      rw [heq, List.count_eq_zero.mpr hmem]
      rfl
    · rfl

@[simp] theorem record_nil (s : UploadPeer) : s.record [] = s := by
  rw [record, List.append_nil]

/-- **One event** leaves every request answered unless it cancels one that waits. -/
theorem answered_step (hs : s.Fast) (ha : s.Answered) (e : UploadEvent) :
    (s.step e).Fast ∧ ((s.step e).Answered ↔ s.NotWaiting e) := by
  have hkeep : s.NotWaiting e → (s.step e).Fast ∧ (s.step e).Answered →
      (s.step e).Fast ∧ ((s.step e).Answered ↔ s.NotWaiting e) :=
    fun hok h => ⟨h.1, iff_of_true h.2 hok⟩
  have hhandle : ∀ e : UploadEvent, e.requests = [] → s.step e = s.handle e := by
    intro e he
    rw [step, he, record_nil]
  cases e with
  | request r => exact hkeep trivial (answered_request hs ha r.2)
  | cancel r =>
    rw [hhandle _ rfl]
    exact answered_cancel hs ha r
  | handleRequests chunks =>
    refine hkeep trivial ?_
    rw [hhandle _ rfl]
    change (s.handleRequests chunks).Fast ∧ (s.handleRequests chunks).Answered
    unfold handleRequests
    split
    · exact ⟨hs, ha⟩
    · exact (answers_handleLoop chunks s.requests s hs.pieces hs.fast hs.short).flush hs ha
  | choke =>
    refine hkeep trivial ?_
    rw [hhandle _ rfl]
    exact answered_choke hs ha
  | unchoke =>
    refine hkeep trivial ?_
    rw [hhandle _ rfl]
    change s.sendUnchoke.Fast ∧ s.sendUnchoke.Answered
    unfold sendUnchoke
    split
    · exact ⟨hs, ha⟩
    · have h := answers_other hs.pieces (p := .createType unchoke) (by decide) (by decide)
      exact Answers.keep ⟨h.pieces, h.count, rfl, rfl, rfl⟩ hs ha
  | pause =>
    refine hkeep trivial ?_
    rw [hhandle _ rfl]
    change s.pause.Fast ∧ s.pause.Answered
    unfold pause
    split
    · exact ⟨hs, ha⟩
    · obtain ⟨hf, hanswered⟩ := answered_choke hs ha
      exact ⟨⟨hf.fast, hf.short, hf.pieces⟩, .of_balance hanswered.balance⟩
  | unpause =>
    refine hkeep trivial ?_
    rw [hhandle _ rfl]
    exact ⟨⟨hs.fast, hs.short, hs.pieces⟩, .of_balance ha.balance⟩
  | addPacket packet =>
    refine hkeep trivial ?_
    rw [hhandle _ rfl]
    exact (answers_other hs.pieces packet.2.1 packet.2.2.1).keep hs ha
  | write connected max rooms =>
    have hpieces : (s.sock.write connected max rooms).1.PiecesQueued := fun p hp =>
      hs.pieces p ((moves_write s.sock connected max rooms).2.subset hp)
    have hwrite : Answers s { s with sock := (s.sock.write connected max rooms).1 } [] :=
      ⟨hpieces, answersOf_write s.sock connected max rooms, rfl, rfl, rfl⟩
    refine hkeep trivial ?_
    rw [hhandle _ rfl]
    exact hwrite.keep hs ha

/-! ## Whole runs -/

/-- **Every request is answered**, whatever the order of requests, chokes and writes and however
much the device accepts, exactly when no request is cancelled while it waits in the uploader. -/
theorem allStates_answered_iff (events : List UploadEvent) :
    AllStates step Answered (new true) events ↔ AllSteps step NotWaiting (new true) events := by
  have hstart : (new true).Fast ∧ (new true).Answered :=
    ⟨⟨rfl, fun r hr => (List.not_mem_nil hr).elim, fun p hp => (List.not_mem_nil hp).elim⟩,
      .of_balance fun r => rfl⟩
  have hlaw : ∀ s : UploadPeer, s.Fast ∧ s.Answered → s.Answered := fun _ h => h.2
  have hkeep : ∀ (s : UploadPeer) (e : UploadEvent), s.Fast ∧ s.Answered → s.NotWaiting e →
      (s.step e).Fast ∧ (s.step e).Answered :=
    fun _ e h hok => ⟨(answered_step h.1 h.2 e).1, (answered_step h.1 h.2 e).2.mpr hok⟩
  have hbreak : ∀ (s : UploadPeer) (e : UploadEvent), s.Fast ∧ s.Answered → ¬ s.NotWaiting e →
      ¬ (s.step e).Answered :=
    fun _ e h hno ha => hno ((answered_step h.1 h.2 e).2.mp ha)
  exact allStates_iff_allSteps hlaw hkeep hbreak events _ hstart

/-- **A request that is cancelled while it waits** is never answered: all queues are flushed and
the device has got the UNCHOKE alone. -/
theorem cancelled_waiting_unanswered :
    let r : Peer.Request := ⟨0, 0, 16384⟩
    let s := run step (new true)
      [.unchoke, .request ⟨r, by decide⟩, .cancel r, .handleRequests fun _ => none,
        .write true 0 [100, 100]]
    s.requests = [] ∧ s.sock.dataPackets = [] ∧ s.sock.controlPackets = [] ∧
      s.sock.currPacket = none ∧ s.received.count r = 1 ∧ s.sock.wire = [0, 0, 0, 1, 1] := by
  decide

end UploadPeer

end KTorrent
