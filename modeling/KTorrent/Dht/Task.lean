import KTorrent.Dht.RPCMsg
import KTorrent.Lib.OrderedSet

/-!
# The tasks of the DHT

The model of `dht/task.cpp`, `dht/nodelookup.cpp` and `dht/announcetask.cpp`.  A task
asks the nodes of its todo list, and the nodes that they answer with.

* `Task` — the fields of both classes; `Task.kind` says which class it is.
* `Task.start`, `addDHTNode`, `onResponse`, `onTimeout`, `update` — as the source has
  them.
* `Traversal` — a task with what was asked of it; a call that is answered is deleted
  later, and its timer runs until then.

The sets of nodes are ordered by `KBucketEntry::operator<`, which compares the ids.
-/

namespace KTorrent

open OrderedSet

/-- A `KBucketEntry` of a task: its address and its id. -/
abbrev TaskNode := Address × Key

/-- The class of a task. -/
inductive TaskKind where
  /-- `NodeLookup`, with our own id. -/
  | nodeLookup (ourId : Key)
  /-- `AnnounceTask`. -/
  | announce

/-- The requests that the class sends to the nodes of the todo list. -/
def TaskKind.query : TaskKind → Method
  | .nodeLookup _ => .findNode
  | .announce => .getPeers

/-- A call of a task that has no answer yet. -/
structure TaskCall where
  number : ℕ
  method : Method
  deriving DecidableEq

/-- `Task`, with the sets of `AnnounceTask`. -/
structure Task where
  kind : TaskKind
  visited : List TaskNode
  todo : List TaskNode
  outstandingReqs : ℕ
  /-- `task_finished`. -/
  finished : Bool
  queued : Bool
  /-- `answered`, with the tokens. -/
  answered : List (TaskNode × List UInt8)
  answeredVisited : List TaskNode
  /-- The calls of the task that have no answer yet. -/
  calls : List TaskCall
  /-- The requests that were sent, to the addresses of these nodes. -/
  sent : List (Method × TaskNode)

namespace Task

/-- The constructors of `NodeLookup` and `AnnounceTask`. -/
def new (kind : TaskKind) : Task := ⟨kind, [], [], 0, false, true, [], [], [], []⟩

/-- `canDoRequest`; 16 is `MAX_CONCURRENT_REQS`. -/
def canDoRequest (t : Task) : Bool := t.outstandingReqs < 16

/-- `rpcCall`. -/
def rpcCall (t : Task) (method : Method) (n : TaskNode) : Task :=
  if t.canDoRequest then
    { t with
      outstandingReqs := t.outstandingReqs + 1
      calls := t.calls ++ [⟨t.sent.length, method⟩]
      sent := t.sent ++ [(method, n)] }
  else t

/-- `todo.insert`. -/
def insertTodo (t : Task) (n : TaskNode) : Task := { t with todo := insert Prod.snd n t.todo }

/-! ## Updating -/

/-- The loop of `update` over the todo list. -/
def todoLoop : List TaskNode → Task → Task
  | [], t => { t with todo := [] }
  | n :: todo, t =>
    if t.canDoRequest then
      if !contains Prod.snd n t.visited then
        todoLoop todo { t.rpcCall t.kind.query n with visited := insert Prod.snd n t.visited }
      else todoLoop todo t
    else { t with todo := n :: todo }

/-- The loop of `AnnounceTask::update` over the nodes that answered. -/
def answeredLoop : List (TaskNode × List UInt8) → Task → Task
  | [], t => { t with answered := [] }
  | (n, token) :: answered, t =>
    if t.canDoRequest then
      if !contains Prod.snd n t.answeredVisited then
        answeredLoop answered { t.rpcCall .announcePeer n with
          answeredVisited := insert Prod.snd n t.answeredVisited }
      else answeredLoop answered t
    else { t with answered := (n, token) :: answered }

/-- `done`. -/
def done (t : Task) : Task := { t with finished := true }

/-- The end of `NodeLookup::update`. -/
def lookupEnd (t : Task) : Task :=
  if t.todo.isEmpty && t.outstandingReqs == 0 && !t.finished then t.done
  else if t.visited.length > 200 then t.done
  else t

/-- The end of `AnnounceTask::update`. -/
def announceEnd (t : Task) : Task :=
  if t.todo.isEmpty && t.answered.isEmpty && t.outstandingReqs == 0 && !t.finished then t.done
  else if t.answeredVisited.length > 50 || t.visited.length > 200 then t.done
  else t

/-- `update`. -/
def update (t : Task) : Task :=
  match t.kind with
  | .nodeLookup _ => (todoLoop t.todo t).lookupEnd
  | .announce =>
    let t := answeredLoop t.answered t
    (todoLoop t.todo t).announceEnd

/-! ## Responses -/

/-- `UnpackBucketEntry`; nothing when it throws. -/
def unpackBucketEntry (v : IpVersion) (ba : List UInt8) : Option TaskNode :=
  if ba.length < 20 + v.compactWidth then none
  else (v.fromCompact (ba.drop 20)).map fun addr => (addr, Key.ofBytes (ba.take 20))

/-- The nodes of a packed string, as the loops of `handleNodes` unpack them. -/
def unpackNodes (v : IpVersion) (nodes : List UInt8) : List TaskNode :=
  (List.range (nodes.length / (20 + v.compactWidth))).filterMap fun i =>
    unpackBucketEntry v (nodes.drop (i * (20 + v.compactWidth)))

/-- What the loops of `handleNodes` do with a node. -/
def handleNode (t : Task) (n : TaskNode) : Task :=
  match t.kind with
  | .nodeLookup ourId =>
    -- lets not talk to ourself
    if n.2 ≠ ourId && !contains Prod.snd n t.todo && !contains Prod.snd n t.visited then
      t.insertTodo n
    else t
  | .announce =>
    if !contains Prod.snd n t.visited && t.todo.length < 100 then t.insertTodo n else t

/-- `handleNodes`. -/
def handleNodes (t : Task) (v : IpVersion) (nodes : List UInt8) : Task :=
  (unpackNodes v nodes).foldl handleNode t

/-- What a task reads of a response. -/
structure TaskResponse where
  origin : Address
  id : Key
  token : List UInt8
  nodes : List UInt8
  nodes6 : List UInt8

/-- `callFinished`.  The class of a response is the one of its call. -/
def callFinished (t : Task) (c : TaskCall) (rsp : TaskResponse) : Task :=
  match t.kind, c.method with
  | .nodeLookup _, .findNode => (t.handleNodes .v4 rsp.nodes).handleNodes .v6 rsp.nodes6
  | .announce, .getPeers =>
    let t := (t.handleNodes .v4 rsp.nodes).handleNodes .v6 rsp.nodes6
    let n : TaskNode := (rsp.origin, rsp.id)
    if !contains Prod.snd n t.answeredVisited then
      { t with answered := insert (fun a => a.1.2) (n, rsp.token) t.answered }
    else t
  | _, _ => t

/-- What follows the answer or the timeout of a call. -/
def goOn (t : Task) : Task := if t.canDoRequest && !t.finished then t.update else t

/-- The requests are counted down. -/
def countDown (t : Task) : Task :=
  { t with
    outstandingReqs := if t.outstandingReqs > 0 then t.outstandingReqs - 1 else t.outstandingReqs }

/-- `Task::onResponse`. -/
def onResponse (t : Task) (c : TaskCall) (rsp : TaskResponse) : Task :=
  let t := t.countDown
  if !t.finished then (t.callFinished c rsp).goOn else t

/-- `Task::onTimeout`. -/
def onTimeout (t : Task) : Task :=
  let t := t.countDown
  if !t.finished then t.goOn else t

/-! ## Starting and adding nodes -/

/-- `Task::start` with the closest nodes. -/
def startWith (t : Task) (kns : List TaskNode) (queued : Bool) : Task :=
  let t := { kns.foldl insertTodo t with queued }
  if !queued then t.update else t

/-- `Task::start` of a queued task. -/
def start (t : Task) : Task := if t.queued then { t with queued := false }.update else t

/-- `Task::addDHTNode` with an address, and `onResolverResults` with the address of a name. -/
def addDHTNode (t : Task) (addr : Address) : Task := t.insertTodo (addr, Key.null)

/-- The call has an answer, or timed out. -/
def answer (t : Task) (c : TaskCall) : Task := { t with calls := t.calls.erase c }

end Task

/-! ## Events -/

/-- A task with what was asked of it. -/
structure Traversal where
  task : Task
  /-- The answered calls that are not deleted yet.  Their timers run. -/
  late : List TaskCall
  /-- The nodes that got into the todo list before the task was finished. -/
  placed : List TaskNode
  /-- The addresses given to `addDHTNode` before the task was finished. -/
  given : List Address

namespace Traversal

/-- What can happen to a task. -/
inductive Event where
  | start
  | addDHTNode (addr : Address)
  | response (c : TaskCall) (rsp : Task.TaskResponse)
  /-- The timer of the call is over. -/
  | timeout (c : TaskCall)
  /-- The event loop deletes the answered calls. -/
  | deleted

/-- The new nodes of the todo list, of a task that is not finished. -/
def newNodes (t t' : Task) : List TaskNode :=
  if t.finished then [] else t'.todo.filter (· ∉ t.todo)

/-- It happens. -/
def step (s : Traversal) : Event → Traversal
  | .start => { s with task := s.task.start }
  | .addDHTNode addr =>
    { s with
      task := s.task.addDHTNode addr
      placed := s.placed ++ newNodes s.task (s.task.addDHTNode addr)
      given := if s.task.finished then s.given else s.given ++ [addr] }
  | .response c rsp =>
    if c ∈ s.task.calls then
      { s with
        task := (s.task.answer c).onResponse c rsp
        late := s.late ++ [c]
        placed := s.placed ++ newNodes s.task ((s.task.answer c).countDown.callFinished c rsp) }
    else s
  | .timeout c =>
    if c ∈ s.task.calls ∨ c ∈ s.late then
      { s with task := (s.task.answer c).onTimeout, late := s.late.erase c }
    else s
  | .deleted => { s with late := [] }

/-- A new task with the closest nodes, which starts at once or is queued. -/
def started (kind : TaskKind) (kns : List TaskNode) (queued : Bool) : Traversal :=
  { task := (Task.new kind).startWith kns queued
    late := []
    placed := (kns.foldl Task.insertTodo (Task.new kind)).todo
    given := [] }

end Traversal

end KTorrent
