import KTorrent.Dht.Task
import KTorrent.Lib.Run

/-!
# What a task does

* `TaskLaw` — no node is sent a request twice, the unanswered calls are counted and at
  most 16, and a task that finishes before its limits has queried every node.
* `Counted`, `Pending`, `Kept` — what every step keeps: what was sent and counted, what
  the todo list owes to the nodes, and both with the state of the task.
* `step_kept` — the step lemma, from one lemma for each loop and operation.
* `allStates_taskLaw` — the law holds as long as no second address is added for the
  zero id, and no timer of an answered call is over while another call waits.
-/

namespace KTorrent

open OrderedSet Runs

namespace Task

variable {t : Task} {n : TaskNode} {todo : List TaskNode} {W W' : TaskNode → Prop}

/-- The task is finished whatever is left to do. -/
def visitedLimit (t : Task) : Prop :=
  match t.kind with
  | .nodeLookup _ => t.visited.length > 200
  | .announce => t.answeredVisited.length > 50 ∨ t.visited.length > 200

/-! ## What is sent -/

/-- What was sent and counted. -/
structure Counted (t : Task) : Prop where
  sorted : Sorted Prod.snd t.visited
  answeredSorted : Sorted Prod.snd t.answeredVisited
  queried : ∀ n, (t.kind.query, n) ∈ t.sent ↔ n ∈ t.visited
  announced : ∀ n, (Method.announcePeer, n) ∈ t.sent ↔ n ∈ t.answeredVisited
  once : t.sent.Nodup
  counted : t.outstandingReqs = t.calls.length
  limited : t.outstandingReqs ≤ 16

theorem query_ne_announcePeer (kind : TaskKind) : kind.query ≠ .announcePeer := by
  cases kind <;> exact nofun

theorem rpcCall_eq (method : Method) (n : TaskNode) (h : t.canDoRequest) :
    t.rpcCall method n =
      { t with
        outstandingReqs := t.outstandingReqs + 1
        calls := t.calls ++ [⟨t.sent.length, method⟩]
        sent := t.sent ++ [(method, n)] } := if_pos h

theorem not_mem_of_not_contains {l : List TaskNode} (h : ¬ contains Prod.snd n l) : n ∉ l :=
  fun hn => h (contains_iff.mpr ⟨n, hn, rfl⟩)

/-- A request to a node of the todo list that was not visited. -/
theorem Counted.visit (h : Counted t) (hroom : t.canDoRequest)
    (hnew : ¬ contains Prod.snd n t.visited) :
    Counted { t.rpcCall t.kind.query n with visited := insert Prod.snd n t.visited } := by
  have hcount : t.outstandingReqs < 16 := of_decide_eq_true hroom
  rw [rpcCall_eq _ _ hroom]
  refine ⟨sorted_insert h.sorted, h.answeredSorted, fun m => ?_, fun m => ?_, ?_, ?_, hcount⟩
  · have hm := h.queried m
    simp [mem_insert h.sorted, hnew, hm]
  · have hm := h.announced m
    simp [(query_ne_announcePeer t.kind).symm, hm]
  · refine h.once.append (List.nodup_singleton _) (List.disjoint_singleton.mpr ?_)
    rw [h.queried]
    exact not_mem_of_not_contains hnew
  · simp [h.counted]

/-- An announce to a node that answered. -/
theorem Counted.announce (h : Counted t) (hroom : t.canDoRequest)
    (hnew : ¬ contains Prod.snd n t.answeredVisited) :
    Counted { t.rpcCall .announcePeer n with
      answeredVisited := insert Prod.snd n t.answeredVisited } := by
  have hcount : t.outstandingReqs < 16 := of_decide_eq_true hroom
  rw [rpcCall_eq _ _ hroom]
  refine ⟨h.sorted, sorted_insert h.answeredSorted, fun m => ?_, fun m => ?_, ?_, ?_, hcount⟩
  · have hm := h.queried m
    simp [query_ne_announcePeer t.kind, hm]
  · have hm := h.announced m
    simp [mem_insert h.answeredSorted, hnew, hm]
  · refine h.once.append (List.nodup_singleton _) (List.disjoint_singleton.mpr ?_)
    rw [h.announced]
    exact not_mem_of_not_contains hnew
  · simp [h.counted]

/-! ## What is left to do -/

/-- A node of the todo list is in no conflict with a visited node. -/
structure Pending (todo : List TaskNode) (t : Task) : Prop where
  sorted : Sorted Prod.snd todo
  same : ∀ n ∈ todo, ∀ m ∈ t.visited, m.2 = n.2 → m = n

/-- The fields that say how far the task is, and which task it is. -/
structure SameDuty (t t' : Task) : Prop where
  kind : t'.kind = t.kind
  finished : t'.finished = t.finished
  queued : t'.queued = t.queued

theorem SameDuty.trans {t₁ t₂ t₃ : Task} (h : SameDuty t₁ t₂) (h' : SameDuty t₂ t₃) :
    SameDuty t₁ t₃ :=
  ⟨h'.kind.trans h.kind, h'.finished.trans h.finished, h'.queued.trans h.queued⟩

theorem sameDuty_rpcCall (t : Task) (method : Method) (n : TaskNode) :
    SameDuty t (t.rpcCall method n) := by
  rw [rpcCall]
  split <;> exact ⟨rfl, rfl, rfl⟩

/-- **The loop over the todo list**: what was to be done is still to be done, or was. -/
theorem todoLoop_spec : ∀ (todo : List TaskNode) (t : Task), Counted t → Pending todo t →
    Counted (todoLoop todo t) ∧ SameDuty t (todoLoop todo t) ∧
      Pending (todoLoop todo t).todo (todoLoop todo t) ∧
      ∀ n, n ∈ todo ∨ n ∈ t.visited →
        n ∈ (todoLoop todo t).todo ∨ n ∈ (todoLoop todo t).visited := by
  intro todo
  induction todo with
  | nil =>
    intro t h hp
    exact ⟨⟨h.1, h.2, h.3, h.4, h.5, h.6, h.7⟩, ⟨rfl, rfl, rfl⟩, ⟨hp.1, hp.2⟩,
      fun _ h => h⟩
  | cons n todo ih =>
    intro t h hp
    obtain ⟨hlt, hrest⟩ := List.pairwise_cons.mp hp.sorted
    rw [todoLoop]
    split
    case isTrue hroom =>
      split
      case isTrue hnew =>
        rw [Bool.not_eq_true'] at hnew
        have hnew' : ¬ contains Prod.snd n t.visited := by simp [hnew]
        -- the visited node has another id than the rest of the list
        have hp' : Pending todo
            { t.rpcCall t.kind.query n with visited := insert Prod.snd n t.visited } := by
          refine ⟨hrest, fun m hm k hk hkey => ?_⟩
          rcases (mem_insert h.sorted).mp hk with hk | ⟨rfl, -⟩
          · exact hp.same m (List.mem_cons_of_mem _ hm) k hk hkey
          · exact absurd hkey (hlt m hm).ne
        obtain ⟨hc, hd, hq, hcov⟩ := ih _ (h.visit hroom hnew') hp'
        refine ⟨hc, ?_, hq, fun m hm => hcov m ?_⟩
        · have hsame := sameDuty_rpcCall t t.kind.query n
          have hvisit : SameDuty t
              { t.rpcCall t.kind.query n with visited := insert Prod.snd n t.visited } :=
            ⟨hsame.1, hsame.2, hsame.3⟩
          exact hvisit.trans hd
        · dsimp only
          rw [mem_insert h.sorted]
          rcases hm with hm | hm
          · rcases List.mem_cons.mp hm with rfl | hm
            · exact Or.inr (Or.inr ⟨rfl, hnew'⟩)
            · exact Or.inl hm
          · exact Or.inr (Or.inl hm)
      case isFalse hold =>
        rw [Bool.not_eq_true', Bool.not_eq_false, contains_iff] at hold
        obtain ⟨m, hm, hkey⟩ := hold
        have hn : n ∈ t.visited := hp.same n List.mem_cons_self m hm hkey ▸ hm
        obtain ⟨hc, hd, hq, hcov⟩ := ih t h
          ⟨hrest, fun k hk => hp.same k (List.mem_cons_of_mem _ hk)⟩
        refine ⟨hc, hd, hq, fun k hk => hcov k ?_⟩
        rcases hk with hk | hk
        · rcases List.mem_cons.mp hk with rfl | hk
          · exact Or.inr hn
          · exact Or.inl hk
        · exact Or.inr hk
    case isFalse =>
      exact ⟨⟨h.1, h.2, h.3, h.4, h.5, h.6, h.7⟩, ⟨rfl, rfl, rfl⟩, ⟨hp.1, hp.2⟩,
        fun _ h => h⟩

/-- The loop over the nodes that answered asks no node of the todo list. -/
theorem answeredLoop_spec : ∀ (answered : List (TaskNode × List UInt8)) (t : Task), Counted t →
    Counted (answeredLoop answered t) ∧ SameDuty t (answeredLoop answered t) ∧
      (answeredLoop answered t).todo = t.todo ∧ (answeredLoop answered t).visited = t.visited := by
  intro answered
  induction answered with
  | nil => exact fun t h => ⟨⟨h.1, h.2, h.3, h.4, h.5, h.6, h.7⟩, ⟨rfl, rfl, rfl⟩, rfl, rfl⟩
  | cons a answered ih =>
    intro t h
    obtain ⟨n, token⟩ := a
    rw [answeredLoop]
    split
    case isTrue hroom =>
      split
      case isTrue hnew =>
        have hnew' : ¬ contains Prod.snd n t.answeredVisited := by simpa using hnew
        obtain ⟨hc, hd, htodo, hvisited⟩ := ih _ (h.announce hroom hnew')
        refine ⟨hc, ?_, ?_, ?_⟩
        · have hsame := sameDuty_rpcCall t .announcePeer n
          have hannounce : SameDuty t { t.rpcCall .announcePeer n with
              answeredVisited := insert Prod.snd n t.answeredVisited } :=
            ⟨hsame.1, hsame.2, hsame.3⟩
          exact hannounce.trans hd
        · rw [htodo, rpcCall_eq _ _ hroom]
        · rw [hvisited, rpcCall_eq _ _ hroom]
      case isFalse => exact ih t h
    case isFalse => exact ⟨⟨h.1, h.2, h.3, h.4, h.5, h.6, h.7⟩, ⟨rfl, rfl, rfl⟩, rfl, rfl⟩

/-! ## The state of the task -/

/-- What every step keeps, of a task that has to query the nodes in `W`. -/
structure Kept (W : TaskNode → Prop) (t : Task) : Prop where
  counted : Counted t
  pending : t.finished = false → Pending t.todo t
  waits : t.finished = false → ∀ n, W n → n ∈ t.todo ∨ n ∈ t.visited
  covered : t.finished → ¬ t.visitedLimit → ∀ n, W n → n ∈ t.visited
  idle : t.queued → t.finished = false ∧ t.calls = []

/-- New nodes have to be queried when they are known. -/
theorem Kept.mono (h : Kept W t)
    (hnew : ∀ n, W' n → W n ∨ t.finished = false ∧ (n ∈ t.todo ∨ n ∈ t.visited)) : Kept W' t := by
  refine ⟨h.counted, h.pending, fun hfin n hn => ?_, fun hfin hlimit n hn => ?_, h.idle⟩
  · rcases hnew n hn with hn | ⟨-, hn⟩
    · exact h.waits hfin n hn
    · exact hn
  · rcases hnew n hn with hn | ⟨hnot, -⟩
    · exact h.covered hfin hlimit n hn
    · rw [hnot] at hfin
      cases hfin

/-- The loops keep it, for a task that is not finished. -/
theorem Kept.todoLoop (h : Kept W t) (hfin : t.finished = false) (hq : t.queued = false) :
    Kept W (todoLoop t.todo t) := by
  obtain ⟨hc, hd, hp, hcov⟩ := todoLoop_spec t.todo t h.counted (h.pending hfin)
  have hfin' := hd.finished.trans hfin
  refine ⟨hc, fun _ => hp, fun _ n hn => hcov n (h.waits hfin n hn), ?_, ?_⟩
  · rw [hfin']
    exact nofun
  · rw [hd.queued, hq]
    exact nofun

theorem Kept.answeredLoop (h : Kept W t) (hfin : t.finished = false) (hq : t.queued = false) :
    Kept W (answeredLoop t.answered t) := by
  obtain ⟨hc, hd, htodo, hvisited⟩ := answeredLoop_spec t.answered t h.counted
  have hfin' := hd.finished.trans hfin
  refine ⟨hc, fun _ => ?_, fun _ n hn => ?_, ?_, ?_⟩
  · rw [htodo]
    exact ⟨(h.pending hfin).sorted, hvisited ▸ (h.pending hfin).same⟩
  · rw [htodo, hvisited]
    exact h.waits hfin n hn
  · rw [hfin']
    exact nofun
  · rw [hd.queued, hq]
    exact nofun

/-- A task finishes with an empty todo list, or at its limits. -/
theorem Kept.done (h : Kept W t) (hfin : t.finished = false) (hq : t.queued = false)
    (hend : t.todo = [] ∨ t.visitedLimit) : Kept W t.done := by
  refine ⟨⟨h.1.1, h.1.2, h.1.3, h.1.4, h.1.5, h.1.6, h.1.7⟩, nofun, nofun, fun _ hlimit n hn => ?_, ?_⟩
  · rcases hend with hnil | hlim
    · have hplace := h.waits hfin n hn
      rw [hnil] at hplace
      exact hplace.resolve_left List.not_mem_nil
    · exact absurd hlim hlimit
  · intro hqueued
    exact absurd (hq.symm.trans hqueued) nofun

theorem Kept.lookupEnd {ourId : Key} (h : Kept W t) (hfin : t.finished = false)
    (hq : t.queued = false) (hkind : t.kind = .nodeLookup ourId) : Kept W t.lookupEnd := by
  rw [Task.lookupEnd]
  split
  case isTrue hempty =>
    refine h.done hfin hq (Or.inl ?_)
    simp only [Bool.and_eq_true] at hempty
    exact List.isEmpty_iff.mp hempty.1.1
  case isFalse =>
    split
    case isTrue hlimit =>
      refine h.done hfin hq (Or.inr ?_)
      rw [visitedLimit, hkind]
      exact hlimit
    case isFalse => exact h

theorem Kept.announceEnd (h : Kept W t) (hfin : t.finished = false) (hq : t.queued = false)
    (hkind : t.kind = .announce) : Kept W t.announceEnd := by
  rw [Task.announceEnd]
  split
  case isTrue hempty =>
    refine h.done hfin hq (Or.inl ?_)
    simp only [Bool.and_eq_true] at hempty
    exact List.isEmpty_iff.mp hempty.1.1.1
  case isFalse =>
    split
    case isTrue hlimit =>
      refine h.done hfin hq (Or.inr ?_)
      rw [visitedLimit, hkind]
      simpa using hlimit
    case isFalse => exact h

theorem queued_ends (t : Task) : t.lookupEnd.queued = t.queued ∧ t.announceEnd.queued = t.queued := by
  rw [lookupEnd, announceEnd]
  constructor <;> split <;> first | rfl | (split <;> rfl)

/-- **The step lemma of `update`.** -/
theorem Kept.update (h : Kept W t) (hfin : t.finished = false) (hq : t.queued = false) :
    Kept W t.update ∧ t.update.queued = false := by
  rw [Task.update]
  split
  case h_1 ourId hkind =>
    obtain ⟨-, hd, -⟩ := todoLoop_spec t.todo t h.counted (h.pending hfin)
    exact ⟨(h.todoLoop hfin hq).lookupEnd (hd.finished.trans hfin) (hd.queued.trans hq)
      (hd.kind.trans hkind), (queued_ends _).1.trans (hd.queued.trans hq)⟩
  case h_2 hkind =>
    obtain ⟨-, hd, -⟩ := answeredLoop_spec t.answered t h.counted
    have ha := h.answeredLoop hfin hq
    have hfin' := hd.finished.trans hfin
    have hq' := hd.queued.trans hq
    obtain ⟨-, hd', -⟩ := todoLoop_spec _ _ ha.counted (ha.pending hfin')
    exact ⟨(ha.todoLoop hfin' hq').announceEnd (hd'.finished.trans hfin') (hd'.queued.trans hq')
      (hd'.kind.trans (hd.kind.trans hkind)), (queued_ends _).2.trans (hd'.queued.trans hq')⟩

/-! ## New nodes -/

/-- A node is placed in the todo list, unless there is one with its id. -/
theorem Kept.insertTodo (h : Kept W t)
    (hsame : t.finished = false → ∀ m ∈ t.visited, m.2 = n.2 → m = n) : Kept W (t.insertTodo n) := by
  refine ⟨⟨h.1.1, h.1.2, h.1.3, h.1.4, h.1.5, h.1.6, h.1.7⟩, fun hfin => ?_, fun hfin m hm => ?_,
    h.covered, h.idle⟩
  · have hp := h.pending hfin
    refine ⟨sorted_insert hp.sorted, fun m hm k hk hkey => ?_⟩
    rcases (mem_insert hp.sorted).mp hm with hm | ⟨rfl, -⟩
    · exact hp.same m hm k hk hkey
    · exact hsame hfin k hk hkey
  · exact (h.waits hfin m hm).imp_left fun hm => (mem_insert (h.pending hfin).sorted).mpr (Or.inl hm)

/-- The nodes of a response that get into the todo list were not visited. -/
theorem Kept.handleNode (h : Kept W t) (n : TaskNode) : Kept W (t.handleNode n) := by
  have hnew : contains Prod.snd n t.visited = false → Kept W (t.insertTodo n) := by
    intro hnew
    refine h.insertTodo fun _ m hm hkey => ?_
    have hmem := contains_iff.mpr ⟨m, hm, hkey⟩
    exact absurd (hnew.symm.trans hmem) nofun
  rw [Task.handleNode]
  split
  · split
    case isTrue hnode =>
      simp only [Bool.and_eq_true, Bool.not_eq_true'] at hnode
      exact hnew hnode.2
    case isFalse => exact h
  · split
    case isTrue hnode =>
      simp only [Bool.and_eq_true, Bool.not_eq_true'] at hnode
      exact hnew hnode.1
    case isFalse => exact h

theorem handleNode_same (t : Task) (n : TaskNode) :
    (t.handleNode n).finished = t.finished ∧ (t.handleNode n).queued = t.queued := by
  rw [handleNode]
  split <;> split <;> exact ⟨rfl, rfl⟩

theorem Kept.handleNodes (h : Kept W t) (v : IpVersion) (nodes : List UInt8) :
    Kept W (t.handleNodes v nodes) ∧ (t.handleNodes v nodes).finished = t.finished ∧
      (t.handleNodes v nodes).queued = t.queued := by
  rw [Task.handleNodes]
  induction unpackNodes v nodes generalizing t with
  | nil => exact ⟨h, rfl, rfl⟩
  | cons n ns ih =>
    obtain ⟨hk, hfin, hq⟩ := ih (h.handleNode n)
    obtain ⟨hfin', hq'⟩ := handleNode_same t n
    exact ⟨hk, hfin.trans hfin', hq.trans hq'⟩

/-! ## Answers and timeouts -/

/-- A call that waits is answered, or no call waits. -/
theorem Kept.countDown {c : TaskCall} (h : Kept W t) (hq : t.queued = false)
    (hc : c ∈ t.calls ∨ t.calls = []) : Kept W (t.answer c).countDown := by
  have hcount := h.counted.counted
  have hmax := h.counted.limited
  refine ⟨⟨h.1.1, h.1.2, h.1.3, h.1.4, h.1.5, ?_, ?_⟩, fun hfin => ?_, h.waits, h.covered, ?_⟩
  · show (if t.outstandingReqs > 0 then t.outstandingReqs - 1 else t.outstandingReqs) =
      (t.calls.erase c).length
    rcases hc with hc | hnil
    · have hpos := List.length_pos_of_mem hc
      rw [List.length_erase_of_mem hc, if_pos (by omega), hcount]
    · rw [hcount, hnil]
      rfl
  · show (if t.outstandingReqs > 0 then t.outstandingReqs - 1 else t.outstandingReqs) ≤ 16
    split <;> omega
  · exact ⟨(h.pending hfin).1, (h.pending hfin).2⟩
  · intro hqueued
    exact absurd (hq.symm.trans hqueued) nofun

theorem Kept.callFinished (h : Kept W t) (c : TaskCall) (rsp : TaskResponse) :
    Kept W (t.callFinished c rsp) ∧ (t.callFinished c rsp).finished = t.finished ∧
      (t.callFinished c rsp).queued = t.queued := by
  obtain ⟨h4, hfin4, hq4⟩ := h.handleNodes .v4 rsp.nodes
  obtain ⟨h6, hfin6, hq6⟩ := h4.handleNodes .v6 rsp.nodes6
  have hfin := hfin6.trans hfin4
  have hq := hq6.trans hq4
  rw [Task.callFinished]
  split
  · exact ⟨h6, hfin, hq⟩
  · dsimp only
    split
    · refine ⟨⟨⟨h6.1.1, h6.1.2, h6.1.3, h6.1.4, h6.1.5, h6.1.6, h6.1.7⟩, fun hfin => ?_, h6.waits,
        h6.covered, h6.idle⟩, hfin, hq⟩
      exact ⟨(h6.pending hfin).1, (h6.pending hfin).2⟩
    · exact ⟨h6, hfin, hq⟩
  · exact ⟨h, rfl, rfl⟩

theorem Kept.goOn (h : Kept W t) (hq : t.queued = false) :
    Kept W t.goOn ∧ t.goOn.queued = false := by
  rw [Task.goOn]
  split
  case isTrue hgo =>
    simp only [Bool.and_eq_true, Bool.not_eq_true'] at hgo
    exact h.update hgo.2 hq
  case isFalse => exact ⟨h, hq⟩

end Task

/-! ## Runs -/

namespace Traversal

open KTorrent.Task

/-- **The law of a task.** -/
structure TaskLaw (s : Traversal) : Prop where
  once : s.task.sent.Nodup
  counted : s.task.outstandingReqs = s.task.calls.length
  limited : s.task.outstandingReqs ≤ 16
  placed : s.task.finished → ¬ s.task.visitedLimit →
    ∀ n ∈ s.placed, (s.task.kind.query, n) ∈ s.task.sent
  given : s.task.finished → ¬ s.task.visitedLimit →
    ∀ addr ∈ s.given, ∃ id, (s.task.kind.query, (addr, id)) ∈ s.task.sent

/-- A node that is added before the task is finished has the address of every node with the zero
id that the task knows, and the timer of an answered call is over only when no other call
waits. -/
def InTurn (s : Traversal) : Event → Prop
  | .addDHTNode addr =>
    s.task.finished = false → ∀ n ∈ s.task.todo ++ s.task.visited, n.2 = Key.null → n.1 = addr
  | .timeout c => c ∈ s.late → s.task.calls = []
  | _ => True

variable {s : Traversal}

/-- A node that has to be queried: it was placed in the todo list, or its address was given. -/
def Wanted (s : Traversal) (n : TaskNode) : Prop :=
  n ∈ s.placed ∨ n.2 = Key.null ∧ n.1 ∈ s.given

/-- What every step keeps. -/
structure Kept (s : Traversal) : Prop where
  task : Task.Kept s.Wanted s.task
  idle : s.task.queued → s.late = []

theorem Kept.law (h : Kept s) : TaskLaw s where
  once := h.task.counted.once
  counted := h.task.counted.counted
  limited := h.task.counted.limited
  placed := fun hfin hlimit n hn =>
    (h.task.counted.queried n).mpr (h.task.covered hfin hlimit n (Or.inl hn))
  given := fun hfin hlimit _ haddr =>
    ⟨Key.null, (h.task.counted.queried _).mpr (h.task.covered hfin hlimit _ (Or.inr ⟨rfl, haddr⟩))⟩

theorem Kept.not_queued {c : TaskCall} (h : Kept s) (hc : c ∈ s.task.calls ∨ c ∈ s.late) :
    s.task.queued = false := by
  by_contra hq
  rw [Bool.not_eq_false] at hq
  rcases hc with hc | hc
  · rw [(h.task.idle hq).2] at hc
    cases hc
  · rw [h.idle hq] at hc
    cases hc

theorem mem_newNodes {t t' : Task} {n : TaskNode} (h : n ∈ newNodes t t') :
    t.finished = false ∧ n ∈ t'.todo := by
  rw [newNodes] at h
  split at h
  · cases h
  · rename_i hfin
    exact ⟨Bool.not_eq_true _ ▸ hfin, (List.mem_filter.mp h).1⟩

/-- Adding the address of a node that fits those with the zero id. -/
theorem Kept.addDHTNode {addr : Address} (h : Kept s) (hok : s.InTurn (.addDHTNode addr)) :
    Kept (s.step (.addDHTNode addr)) := by
  have hi : Task.Kept s.Wanted (s.task.addDHTNode addr) := by
    refine h.task.insertTodo fun hfin m hm hkey => ?_
    exact Prod.ext (hok hfin m (List.mem_append_right _ hm) hkey) hkey
  refine ⟨hi.mono fun n hn => ?_, h.idle⟩
  rcases hn with hn | ⟨hid, hn⟩
  · rcases List.mem_append.mp hn with hn | hn
    · exact Or.inl (Or.inl hn)
    · exact Or.inr ⟨(mem_newNodes hn).1, Or.inl (mem_newNodes hn).2⟩
  · cases hfin : s.task.finished with
    | true =>
      simp only [step, hfin, if_true] at hn
      exact Or.inl (Or.inr ⟨hid, hn⟩)
    | false =>
      simp only [step, hfin, Bool.false_eq_true, if_false, List.mem_append, List.mem_singleton] at hn
      rcases hn with hn | rfl
      · exact Or.inl (Or.inr ⟨hid, hn⟩)
      · -- the node is new, or it is the one with the zero id
        have hp := h.task.pending hfin
        obtain ⟨addr, id⟩ := n
        obtain rfl : id = Key.null := hid
        refine Or.inr ⟨hfin, Or.inl ((mem_insert hp.sorted).mpr ?_)⟩
        by_cases hmem : contains Prod.snd (addr, Key.null) s.task.todo
        · obtain ⟨m, hm, hkey⟩ := contains_iff.mp hmem
          have hm' : m = (addr, Key.null) :=
            Prod.ext (hok hfin m (List.mem_append_left _ hm) hkey) hkey
          exact Or.inl (hm' ▸ hm)
        · exact Or.inr ⟨rfl, hmem⟩

/-- A call is answered: its new nodes are placed, and the task goes on. -/
theorem Kept.response {c : TaskCall} (h : Kept s) (hc : c ∈ s.task.calls) (rsp : TaskResponse) :
    Kept (s.step (.response c rsp)) := by
  have hq := h.not_queued (Or.inl hc)
  have hd := h.task.countDown hq (Or.inl hc)
  obtain ⟨hf, hfin', hq'⟩ := hd.callFinished c rsp
  have htask : Task.Kept (Wanted { s with
        placed := s.placed ++ newNodes s.task ((s.task.answer c).countDown.callFinished c rsp) })
      ((s.task.answer c).onResponse c rsp) ∧ ((s.task.answer c).onResponse c rsp).queued = false := by
    rw [onResponse]
    cases hfin : s.task.finished with
    | true =>
      have hnone : newNodes s.task ((s.task.answer c).countDown.callFinished c rsp) = [] := if_pos hfin
      have hnot : (!(s.task.answer c).countDown.finished) = false := by
        rw [Bool.not_eq_false']
        exact hfin
      simp only [hnot, Bool.false_eq_true, if_false, hnone, List.append_nil]
      exact ⟨hd, hq⟩
    | false =>
      have hnot : (!(s.task.answer c).countDown.finished) = true := by
        rw [Bool.not_eq_true']
        exact hfin
      simp only [hnot, if_true]
      refine (hf.mono fun n hn => ?_).goOn (hq'.trans hq)
      rcases hn with hn | hn
      · rcases List.mem_append.mp hn with hn | hn
        · exact Or.inl (Or.inl hn)
        · exact Or.inr ⟨hfin'.trans hfin, Or.inl (mem_newNodes hn).2⟩
      · exact Or.inl (Or.inr hn)
  rw [step, if_pos hc]
  refine ⟨htask.1, fun hqueued => ?_⟩
  rw [htask.2] at hqueued
  cases hqueued

/-- A timer is over that is in turn. -/
theorem Kept.timeout {c : TaskCall} (h : Kept s) (hok : s.InTurn (.timeout c)) :
    Kept (s.step (.timeout c)) := by
  rw [step]
  split
  case isTrue hc =>
    have hq := h.not_queued hc
    have hd := h.task.countDown hq (hc.imp_right hok)
    have htask : Task.Kept s.Wanted (s.task.answer c).onTimeout ∧
        (s.task.answer c).onTimeout.queued = false := by
      rw [onTimeout]
      split
      · exact hd.goOn hq
      · exact ⟨hd, hq⟩
    refine ⟨htask.1, fun hqueued => ?_⟩
    rw [htask.2] at hqueued
    cases hqueued
  case isFalse => exact h

theorem Kept.start (h : Kept s) : Kept (s.step .start) := by
  rw [step, Task.start]
  split
  case isTrue hq =>
    obtain ⟨ht, hq'⟩ := Task.Kept.update (W := s.Wanted) (t := { s.task with queued := false })
      ⟨⟨h.1.1.1, h.1.1.2, h.1.1.3, h.1.1.4, h.1.1.5, h.1.1.6, h.1.1.7⟩, fun hfin =>
        ⟨(h.task.pending hfin).1, (h.task.pending hfin).2⟩, h.task.waits, h.task.covered, nofun⟩
      (h.task.idle hq).1 rfl
    exact ⟨ht, fun _ => h.idle hq⟩
  case isFalse => exact ⟨h.task, h.idle⟩

/-- **The step lemma.** -/
theorem step_kept (s : Traversal) (ev : Event) (h : Kept s) (hok : s.InTurn ev) : Kept (s.step ev) := by
  cases ev with
  | start => exact h.start
  | addDHTNode addr => exact h.addDHTNode hok
  | response c rsp =>
    by_cases hc : c ∈ s.task.calls
    · exact h.response hc rsp
    · rw [step, if_neg hc]
      exact h
  | timeout c => exact h.timeout hok
  | deleted => exact ⟨h.task, fun _ => rfl⟩

/-- A task that has sent nothing yet. -/
theorem new_kept (kind : TaskKind) : Task.Kept (fun _ => False) (new kind) := by
  refine ⟨⟨List.Pairwise.nil, List.Pairwise.nil, ?_, ?_, List.nodup_nil, rfl, ?_⟩, fun _ => ?_,
    fun _ _ hn => hn.elim, nofun, fun _ => ⟨rfl, rfl⟩⟩
  · exact fun _ => iff_of_false List.not_mem_nil List.not_mem_nil
  · exact fun _ => iff_of_false List.not_mem_nil List.not_mem_nil
  · exact Nat.zero_le 16
  · exact ⟨List.Pairwise.nil, nofun⟩

/-- The closest nodes are placed in the todo list of a new task. -/
theorem foldl_insertTodo_kept (kns : List TaskNode) {t : Task} (h : Task.Kept (fun _ => False) t)
    (hvisited : t.visited = []) (hidle : t.finished = false ∧ t.calls = []) :
    Task.Kept (fun _ => False) (kns.foldl insertTodo t) ∧ (kns.foldl insertTodo t).finished = false ∧
      (kns.foldl insertTodo t).calls = [] := by
  induction kns generalizing t with
  | nil => exact ⟨h, hidle⟩
  | cons n kns ih =>
    refine ih (h.insertTodo fun _ m hm => ?_) hvisited hidle
    rw [hvisited] at hm
    cases hm

theorem started_kept (kind : TaskKind) (kns : List TaskNode) (queued : Bool) :
    Kept (started kind kns queued) := by
  obtain ⟨h, hfin, hcalls⟩ := foldl_insertTodo_kept kns (new_kept kind) rfl ⟨rfl, rfl⟩
  have hstart : Task.Kept (started kind kns queued).Wanted
      { kns.foldl insertTodo (new kind) with queued } := by
    refine Task.Kept.mono (W := fun _ => False) ⟨⟨h.1.1, h.1.2, h.1.3, h.1.4, h.1.5, h.1.6, h.1.7⟩,
      fun hfin => ⟨(h.pending hfin).1, (h.pending hfin).2⟩, h.waits, h.covered,
      fun _ => ⟨hfin, hcalls⟩⟩ fun n hn => Or.inr ⟨hfin, Or.inl ?_⟩
    rcases hn with hn | ⟨-, hn⟩
    · exact hn
    · cases hn
  refine ⟨?_, fun _ => rfl⟩
  rw [started, startWith]
  dsimp only
  split
  case isTrue hq =>
    rw [Bool.not_eq_true'] at hq
    exact (hstart.update hfin hq).1
  case isFalse => exact hstart

/-- **The traversal of a task** sends no request twice and counts its calls, and it is complete, as
long as every node that is added has the address of the nodes with the zero id, and no timer of an
answered call is over while another call waits. -/
theorem allStates_taskLaw (kind : TaskKind) (kns : List TaskNode) (queued : Bool)
    (events : List Event) (h : AllSteps step InTurn (started kind kns queued) events) :
    AllStates step TaskLaw (started kind kns queued) events :=
  (allStates_of_invariant step_kept events _ (started_kept kind kns queued) h).mono
    fun _ hk => hk.law

instance (s : Traversal) : ∀ ev, Decidable (s.InTurn ev)
  | .start => inferInstanceAs (Decidable True)
  | .addDHTNode addr => inferInstanceAs (Decidable (s.task.finished = false →
      ∀ n ∈ s.task.todo ++ s.task.visited, n.2 = Key.null → n.1 = addr))
  | .response _ _ => inferInstanceAs (Decidable True)
  | .timeout c => inferInstanceAs (Decidable (c ∈ s.late → s.task.calls = []))
  | .deleted => inferInstanceAs (Decidable True)

/-- A lookup that knows a node is given the address of another one twice.  The known node names a
third one; the given one does not answer, and at the end a timer is late. -/
def lateLookup : List Event :=
  [.addDHTNode ⟨.ipv4 1, 6881⟩, .addDHTNode ⟨.ipv4 1, 6881⟩, .start,
    .response ⟨1, .findNode⟩
      ⟨⟨.ipv4 5, 6881⟩, Key.ofBytes (List.replicate 20 5), [],
        List.replicate 20 7 ++ [0, 0, 0, 7, 26, 225], []⟩, .deleted,
    .response ⟨2, .findNode⟩ ⟨⟨.ipv4 7, 6881⟩, Key.ofBytes (List.replicate 20 7), [], [], []⟩,
    .timeout ⟨0, .findNode⟩, .timeout ⟨2, .findNode⟩]

/-- It finishes after it has queried the three nodes. -/
theorem allStates_taskLaw_lateLookup :
    let s := started (.nodeLookup Key.max) [(⟨.ipv4 5, 6881⟩, Key.ofBytes (List.replicate 20 5))] true
    AllStates step TaskLaw s lateLookup ∧ (run step s lateLookup).task.finished ∧
      (run step s lateLookup).placed.length = 3 ∧ (run step s lateLookup).task.sent.length = 3 := by
  intro s
  exact ⟨allStates_taskLaw _ _ _ _ (by decide +kernel), by decide +kernel, by decide +kernel,
    by decide +kernel⟩

/-- Two nodes are added to a lookup before it starts, and it gets no answer. -/
def twoNodes : Traversal :=
  run step (started (.nodeLookup Key.max) [] true)
    [.addDHTNode ⟨.ipv4 1, 6881⟩, .addDHTNode ⟨.ipv4 2, 6881⟩, .start, .timeout ⟨0, .findNode⟩]

/-- The lookup finishes, and the second node is not queried. -/
theorem twoNodes_not_taskLaw : ¬ TaskLaw twoNodes := by
  intro h
  have hsent : twoNodes.task.sent = [(.findNode, ⟨.ipv4 1, 6881⟩, Key.null)] := rfl
  have hlimit : ¬ twoNodes.task.visitedLimit := by
    change ¬ 1 > 200
    decide
  obtain ⟨id, hid⟩ := h.given rfl hlimit ⟨.ipv4 2, 6881⟩ (List.mem_cons_of_mem _ List.mem_cons_self)
  rw [hsent, List.mem_singleton] at hid
  have hhost : (2 : UInt32) = 1 := by
    injection hid with _ hnode
    injection hnode with haddr _
    injection haddr with hhost _
    exact HostAddress.ipv4.inj hhost
  exact absurd hhost (by decide)

end Traversal

end KTorrent
