import KTorrent.Lib.Run
import Mathlib.Data.List.AList

/-!
# Calls of the RPC server

The model of the calls in `dht/rpcserver.cpp`.  A call is sent under a
transaction id of one byte that no other call in flight has, or it waits in a
queue.

* `RPCServer.doCall`, `doQueuedCalls`, `dataReceived`, `timedOut` — as the source
  has them; whoever is told about a response or a timeout may make calls.
* `SlotLaw` — what the ids, the queue and the results of calls look like.
* `allStates_slotLaw_iff` — the law holds in every state of a run exactly when no
  timer of a call that is about to be deleted fires.

Calls are numbered in the order in which they are made.  A call that is erased is
deleted later, by the event loop, and its timer runs until then.
-/

namespace KTorrent

open Runs

/-- How a call ends. -/
inductive CallResult where
  | response
  | timeout
  deriving DecidableEq, Repr

/-- `RPCServer::Private`. -/
structure RPCServer where
  /-- The calls in flight with their transaction ids. -/
  calls : AList fun _ : List UInt8 => ℕ
  /-- The calls that wait. -/
  callQueue : List ℕ
  /-- `next_mtid`. -/
  nextMtid : UInt8
  /-- The timers that run: the calls and the ids of their requests. -/
  timers : List (ℕ × List UInt8)
  /-- The calls that `deleteLater` was called for. -/
  leaving : List ℕ
  /-- How many calls were made. -/
  made : ℕ
  /-- The requests that were sent, with their transaction ids. -/
  sent : List (List UInt8 × ℕ)
  /-- What the listeners were told: the transaction id, the call and its result. -/
  resolved : List (List UInt8 × ℕ × CallResult)
  /-- A search for an id does not end. -/
  hung : Bool

namespace RPCServer

/-- A server that has made no calls. -/
def new : RPCServer := ⟨∅, [], 0, [], [], 0, [], [], false⟩

/-! ## Searching for an id -/

/-- The loop of `doCall`: the id that is found, or nothing when the search is back at its start.
No result at all means that `fuel` rounds were not enough. -/
def searchCall (calls : AList fun _ : List UInt8 => ℕ) (start : UInt8) :
    ℕ → UInt8 → Option (Option UInt8)
  | 0, _ => none
  | fuel + 1, next =>
    if [next] ∈ calls then
      if next + 1 = start then some none else searchCall calls start fuel (next + 1)
    else some (some next)

/-- The loop of `doQueuedCalls`.  It looks at an id again after 256 rounds, so when there is
no result then it does not end. -/
def searchQueued (calls : AList fun _ : List UInt8 => ℕ) : ℕ → UInt8 → Option UInt8
  | 0, _ => none
  | fuel + 1, next => if [next] ∈ calls then searchQueued calls fuel (next + 1) else some next

/-! ## Calls -/

/-- `sendMsg` of the request of a call, and `calls.insert`.  The timer of the call starts. -/
def send (s : RPCServer) (id : UInt8) (call : ℕ) : RPCServer :=
  { s with
    calls := s.calls.insert [id] call
    timers := s.timers ++ [(call, [id])]
    sent := s.sent ++ [([id], call)] }

/-- `RPCServer::Private::doCall`. -/
def doCall (s : RPCServer) (call : ℕ) : RPCServer :=
  match searchCall s.calls s.nextMtid 256 s.nextMtid with
  | none => { s with hung := true }
  | some none => { s with callQueue := s.callQueue ++ [call] }
  | some (some id) => { s.send id call with nextMtid := id }

/-- Calls made one after the other. -/
def doCalls (calls : List ℕ) (s : RPCServer) : RPCServer := calls.foldl doCall s

/-- The loop of `doQueuedCalls` over the queue. -/
def sendQueued : List ℕ → RPCServer → RPCServer
  | [], s => { s with callQueue := [] }
  | call :: queue, s =>
    if s.calls.entries.length < 256 then
      match searchQueued s.calls 256 s.nextMtid with
      | none => { s with callQueue := queue, hung := true }
      | some id => sendQueued queue { s.send id call with nextMtid := id + 1 }
    else { s with callQueue := call :: queue }

/-- `RPCServer::Private::doQueuedCalls`. -/
def doQueuedCalls (s : RPCServer) : RPCServer := sendQueued s.callQueue s

/-- `calls.erase` and `deleteLater`. -/
def eraseCall (s : RPCServer) (mtid : List UInt8) (call : ℕ) : RPCServer :=
  { s with calls := s.calls.erase mtid, leaving := s.leaving ++ [call] }

/-- `dataReceived`, for a response.  A response with an id that no call has cannot be built.
Applying it to the DHT makes the calls `applied`, and the listeners of the call make `told`. -/
def dataReceived (s : RPCServer) (mtid : List UInt8) (applied told : List ℕ) : RPCServer :=
  if mtid ∈ s.calls then
    let s := doCalls applied s
    match s.calls.lookup mtid with
    | none => s
    | some call =>
      let s := doCalls told { s with resolved := s.resolved ++ [(mtid, call, .response)] }
      (s.eraseCall mtid call).doQueuedCalls
  else s

/-- `timedOut`: whichever call has the id is erased. -/
def timedOut (s : RPCServer) (mtid : List UInt8) : RPCServer :=
  match s.calls.lookup mtid with
  | none => s.doQueuedCalls
  | some call => (s.eraseCall mtid call).doQueuedCalls

/-- `RPCCall::onTimeout`.  `RPCServer` is the first listener of a call; the others are told
after it, and make the calls `told`. -/
def onTimeout (s : RPCServer) (call : ℕ) (mtid : List UInt8) (told : List ℕ) : RPCServer :=
  let s := { s with
    timers := s.timers.filter (·.1 ≠ call)
    resolved := s.resolved ++ [(mtid, call, CallResult.timeout)] }
  doCalls told (s.timedOut mtid)

/-! ## Events -/

/-- What can happen to the server. -/
inductive Event where
  | doCall
  /-- A response arrives, and so many calls are made meanwhile. -/
  | response (mtid : List UInt8) (applied told : ℕ)
  /-- The timer of the call is over. -/
  | timeout (call told : ℕ)
  /-- The event loop deletes the calls that wait for it. -/
  | deleted

/-- The id of the call whose timer runs. -/
def timer (s : RPCServer) (call : ℕ) : Option (List UInt8) :=
  (s.timers.find? fun t => t.1 == call).map Prod.snd

/-- It happens. -/
def step (s : RPCServer) : Event → RPCServer
  | .doCall => { s.doCall s.made with made := s.made + 1 }
  | .response mtid applied told =>
    { s.dataReceived mtid (List.range' s.made applied) (List.range' (s.made + applied) told) with
      made := if mtid ∈ s.calls then s.made + applied + told else s.made }
  | .timeout call told =>
    match s.timer call with
    | none => s
    | some mtid => { s.onTimeout call mtid (List.range' s.made told) with made := s.made + told }
  | .deleted => { s with timers := s.timers.filter (·.1 ∉ s.leaving), leaving := [] }

/-! ## The law -/

/-- The calls whose listeners were told a result. -/
def told (s : RPCServer) : List ℕ := s.resolved.map fun r => r.2.1

/-- **The law of the slots.**  The calls in flight are those that were sent and have no result;
there are at most 256 of them, with different ids of one byte; calls wait only while all ids
are in use; calls are sent in the order in which they were made, one after the other, and
nothing else is sent; a call is resolved at most once, under the id it was sent with; and
every search for an id ends. -/
structure SlotLaw (s : RPCServer) : Prop where
  slots : s.calls.entries.length ≤ 256
  oneByte : ∀ mtid ∈ s.calls, ∃ id : UInt8, mtid = [id]
  inFlight : ∀ mtid call, s.calls.lookup mtid = some call ↔ (mtid, call) ∈ s.sent ∧ call ∉ s.told
  waits : s.callQueue ≠ [] → ∀ id : UInt8, [id] ∈ s.calls
  order : s.sent.map Prod.snd ++ s.callQueue = List.range s.made
  once : s.told.Nodup
  answered : ∀ r ∈ s.resolved, (r.1, r.2.1) ∈ s.sent
  ends : s.hung = false

/-! ## The searches -/

variable {calls : AList fun _ : List UInt8 => ℕ}

theorem add_ofNat_succ (a : UInt8) (i : ℕ) :
    a + UInt8.ofNat (i + 1) = a + UInt8.ofNat i + 1 := by
  rw [UInt8.ofNat_add, ← UInt8.add_assoc]
  rfl

theorem searchQueued_some : ∀ {fuel : ℕ} {next id : UInt8},
    searchQueued calls fuel next = some id → [id] ∉ calls := by
  intro fuel
  induction fuel with
  | zero => intro next id h; cases h
  | succ fuel ih =>
    intro next id h
    rw [searchQueued] at h
    split at h
    next => exact ih h
    next hfree => exact Option.some.inj h ▸ hfree

theorem searchQueued_none : ∀ {fuel : ℕ} {next : UInt8}, searchQueued calls fuel next = none →
    ∀ i < fuel, [next + UInt8.ofNat i] ∈ calls := by
  intro fuel
  induction fuel with
  | zero => exact fun _ i hi => absurd hi (Nat.not_lt_zero i)
  | succ fuel ih =>
    intro next h i hi
    rw [searchQueued] at h
    split at h
    next hused =>
      cases i with
      | zero => simpa using hused
      | succ i =>
        have hshift : next + UInt8.ofNat (i + 1) = next + 1 + UInt8.ofNat i := by
          rw [add_ofNat_succ, UInt8.add_assoc, UInt8.add_comm _ 1, ← UInt8.add_assoc]
        rw [hshift]
        exact ih h i (by omega)
    next => cases h

/-- No id is found when all are in use. -/
theorem all_used_of_search (next : UInt8) (h : searchQueued calls 256 next = none) (id : UInt8) :
    [id] ∈ calls := by
  have hmem := searchQueued_none h (id - next).toNat (UInt8.toNat_lt _)
  rwa [UInt8.ofNat_toNat, UInt8.add_comm, UInt8.sub_add_cancel] at hmem

/-- Both loops find the same id: the first one stops when it is back at its start, which is
when the other one has looked at all ids. -/
theorem searchCall_eq (start : UInt8) : ∀ k ≤ 255,
    searchCall calls start (k + 1) (start + UInt8.ofNat (255 - k)) =
      some (searchQueued calls (k + 1) (start + UInt8.ofNat (255 - k))) := by
  intro k hk
  induction k with
  | zero =>
    have hwrap : start + UInt8.ofNat (255 - 0) + 1 = start := by
      rw [← add_ofNat_succ]
      exact UInt8.add_zero start
    rw [searchCall, searchQueued, hwrap, if_pos rfl]
    split <;> rfl
  | succ k ih =>
    have hnext : start + UInt8.ofNat (255 - (k + 1)) + 1 = start + UInt8.ofNat (255 - k) := by
      rw [← add_ofNat_succ, show 255 - (k + 1) + 1 = 255 - k by omega]
    have hne : start + UInt8.ofNat (255 - k) ≠ start := by
      intro h
      have hnat := congrArg UInt8.toNat h
      have hlt := UInt8.toNat_lt start
      rw [UInt8.toNat_add, UInt8.toNat_ofNat'] at hnat
      omega
    rw [searchCall, searchQueued]
    split
    · rw [hnext, if_neg hne]
      exact ih (by omega)
    · rfl

/-- **The search of `doCall` ends**, and with the result of the other search. -/
theorem searchCall_ends (start : UInt8) :
    searchCall calls start 256 start = some (searchQueued calls 256 start) := by
  have h : searchCall calls start 256 (start + UInt8.ofNat (255 - 255)) =
      some (searchQueued calls 256 (start + UInt8.ofNat (255 - 255))) :=
    searchCall_eq start 255 le_rfl
  simpa using h

/-- The ids there are. -/
def ids : Finset (List UInt8) := (Finset.univ : Finset (Fin 256)).image fun n => [UInt8.ofFin n]

theorem mem_ids {mtid : List UInt8} : mtid ∈ ids ↔ ∃ id : UInt8, mtid = [id] := by
  constructor
  · intro h
    obtain ⟨n, -, rfl⟩ := Finset.mem_image.mp h
    exact ⟨_, rfl⟩
  · rintro ⟨id, rfl⟩
    exact Finset.mem_image.mpr ⟨id.toFin, Finset.mem_univ _, rfl⟩

theorem card_ids : ids.card = 256 := by
  rw [ids, Finset.card_image_of_injective, Finset.card_univ, Fintype.card_fin]
  intro a b hab
  exact congrArg UInt8.toFin (List.singleton_inj.mp hab)

theorem card_keys (calls : AList fun _ : List UInt8 => ℕ) :
    calls.keys.toFinset.card = calls.entries.length := by
  rw [List.toFinset_card_of_nodup calls.keys_nodup, AList.keys, List.keys, List.length_map]

/-- Fewer than 256 calls leave an id. -/
theorem exists_free (h : calls.entries.length < 256) : ∃ id : UInt8, [id] ∉ calls := by
  by_contra hall
  push Not at hall
  have hsub : ids ⊆ calls.keys.toFinset := by
    intro mtid hm
    obtain ⟨id, rfl⟩ := mem_ids.mp hm
    exact List.mem_toFinset.mpr (hall id)
  have hcard := Finset.card_le_card hsub
  rw [card_ids, card_keys] at hcard
  omega

/-- Calls with ids of one byte are at most 256. -/
theorem length_le (h : ∀ mtid ∈ calls, ∃ id : UInt8, mtid = [id]) : calls.entries.length ≤ 256 := by
  have hsub : calls.keys.toFinset ⊆ ids := fun mtid hm => mem_ids.mpr (h mtid (List.mem_toFinset.mp hm))
  have hcard := Finset.card_le_card hsub
  rwa [card_ids, card_keys] at hcard

/-- When there are 256 calls all ids are in use. -/
theorem all_used_of_full (h : ∀ mtid ∈ calls, ∃ id : UInt8, mtid = [id])
    (hfull : 256 ≤ calls.entries.length) (id : UInt8) : [id] ∈ calls := by
  have hsub : calls.keys.toFinset ⊆ ids := fun mtid hm => mem_ids.mpr (h mtid (List.mem_toFinset.mp hm))
  have heq := Finset.eq_of_subset_of_card_le hsub (by rw [card_ids, card_keys]; exact hfull)
  exact List.mem_toFinset.mp (heq ▸ mem_ids.mpr ⟨id, rfl⟩)

/-! ## The invariant -/

/-- A call only waits while all ids are in use. -/
def Waits (s : RPCServer) : Prop := s.callQueue ≠ [] → ∀ id : UInt8, [id] ∈ s.calls

/-- The law without the queue's part, after `n` calls were made, for a server that may be about to
erase the call `exempt`, whose listeners know already. -/
structure Inv (n : ℕ) (exempt : Option (List UInt8)) (s : RPCServer) : Prop where
  oneByte : ∀ mtid ∈ s.calls, ∃ id : UInt8, mtid = [id]
  inFlight : ∀ mtid call, s.calls.lookup mtid = some call → (mtid, call) ∈ s.sent
  kept : ∀ mtid call, (mtid, call) ∈ s.sent → call ∉ s.told → s.calls.lookup mtid = some call
  order : s.sent.map Prod.snd ++ s.callQueue = List.range n
  once : s.told.Nodup
  answered : ∀ r ∈ s.resolved, (r.1, r.2.1) ∈ s.sent
  done : ∀ mtid call, some mtid ≠ exempt → s.calls.lookup mtid = some call → call ∉ s.told
  erased : ∀ mtid, exempt = some mtid → ∃ call ∈ s.told, s.calls.lookup mtid = some call
  ends : s.hung = false
  -- the timers of the calls in flight run, and those of calls that were answered
  running : ∀ t ∈ s.timers, t.1 ∉ s.leaving → s.calls.lookup t.2 = some t.1
  left : ∀ call ∈ s.leaving, call ∈ s.told

variable {s : RPCServer} {n : ℕ} {exempt : Option (List UInt8)} {mtid : List UInt8} {call : ℕ}

/-- A call is sent once. -/
theorem Inv.sent_nodup (h : Inv n exempt s) : (s.sent.map Prod.snd).Nodup := by
  have hall := h.order ▸ List.nodup_range
  exact (List.nodup_append.mp hall).1

theorem Inv.mtid_eq (h : Inv n exempt s) {mtid' : List UInt8} (hs : (mtid, call) ∈ s.sent)
    (hs' : (mtid', call) ∈ s.sent) : mtid' = mtid := by
  have heq := List.inj_on_of_nodup_map h.sent_nodup hs' hs rfl
  exact congrArg Prod.fst heq

/-- The next call is sent under a free id. -/
theorem Inv.send {m : ℕ} (h : Inv m exempt s) {id : UInt8} (hfree : [id] ∉ s.calls) {queue : List ℕ}
    (horder : s.sent.map Prod.snd ++ call :: queue = List.range n) (next : UInt8) :
    Inv n exempt { s.send id call with callQueue := queue, nextMtid := next } := by
  have hnew : call ∉ s.sent.map Prod.snd := by
    intro hmem
    have hnodup := horder ▸ List.nodup_range
    exact (List.nodup_append.mp hnodup).2.2 call hmem call List.mem_cons_self rfl
  have hold : ∀ {mtid : List UInt8}, mtid ∈ s.calls →
      (s.calls.insert [id] call).lookup mtid = s.calls.lookup mtid := by
    intro mtid hm
    refine AList.lookup_insert_ne ?_
    rintro rfl
    exact hfree hm
  have hmem : ∀ {mtid : List UInt8} {c : ℕ}, s.calls.lookup mtid = some c → mtid ∈ s.calls :=
    fun hc => AList.lookup_isSome.mp (Option.isSome_iff_exists.mpr ⟨_, hc⟩)
  have hcases : ∀ {mtid : List UInt8} {c : ℕ}, (s.calls.insert [id] call).lookup mtid = some c →
      mtid = [id] ∧ c = call ∨ s.calls.lookup mtid = some c := by
    intro mtid c hc
    by_cases heq : mtid = [id]
    · subst heq
      rw [AList.lookup_insert] at hc
      exact .inl ⟨rfl, (Option.some.inj hc).symm⟩
    · rw [AList.lookup_insert_ne heq] at hc
      exact .inr hc
  refine ⟨fun mtid hm => ?_, fun mtid c hc => ?_, fun mtid c hc htold => ?_, ?_, h.once,
    fun r hr => ?_, fun mtid c hne hc => ?_, fun mtid he => ?_, h.ends, fun t ht hl => ?_, h.left⟩
  · rcases (AList.mem_insert _).mp hm with rfl | hm
    · exact ⟨id, rfl⟩
    · exact h.oneByte mtid hm
  · rcases hcases hc with ⟨rfl, rfl⟩ | hc
    · exact List.mem_append_right _ (List.mem_singleton_self _)
    · exact List.mem_append_left _ (h.inFlight mtid c hc)
  · rcases List.mem_append.mp hc with hc | hc
    · have hlookup := h.kept mtid c hc htold
      exact (hold (hmem hlookup)).trans hlookup
    · obtain ⟨rfl, rfl⟩ := Prod.mk.inj (List.mem_singleton.mp hc)
      exact AList.lookup_insert _
  · change (s.sent ++ [([id], call)]).map Prod.snd ++ queue = _
    rw [List.map_append, List.append_assoc]
    exact horder
  · exact List.mem_append_left _ (h.answered r hr)
  · rcases hcases hc with ⟨rfl, rfl⟩ | hc
    · intro hres
      obtain ⟨r, hr, hrc⟩ := List.mem_map.mp hres
      exact hnew (hrc ▸ List.mem_map_of_mem (h.answered r hr))
    · exact h.done mtid c hne hc
  · obtain ⟨c, htold, hc⟩ := h.erased mtid he
    exact ⟨c, htold, (hold (hmem hc)).trans hc⟩
  · rcases List.mem_append.mp ht with ht | ht
    · have hlookup := h.running t ht hl
      exact (hold (hmem hlookup)).trans hlookup
    · rw [List.mem_singleton.mp ht]
      exact AList.lookup_insert _

/-! ## Making calls -/

/-- Nobody is told anything or about to be deleted, and the calls in flight stay in flight. -/
structure Grows (s t : RPCServer) : Prop where
  resolved : t.resolved = s.resolved
  leaving : t.leaving = s.leaving
  lookup : ∀ mtid call, s.calls.lookup mtid = some call → t.calls.lookup mtid = some call

theorem Grows.refl (s : RPCServer) : Grows s s := ⟨rfl, rfl, fun _ _ hc => hc⟩

theorem Grows.trans {s t u : RPCServer} (h : Grows s t) (h' : Grows t u) : Grows s u :=
  ⟨h'.resolved.trans h.resolved, h'.leaving.trans h.leaving,
    fun mtid call hc => h'.lookup mtid call (h.lookup mtid call hc)⟩

theorem grows_send {s : RPCServer} {id : UInt8} (hfree : [id] ∉ s.calls) (call : ℕ) (next : UInt8) :
    Grows s { s.send id call with nextMtid := next } := by
  refine ⟨rfl, rfl, fun mtid c hc => ?_⟩
  have hne : mtid ≠ [id] := by
    rintro rfl
    exact hfree (AList.lookup_isSome.mp (Option.isSome_iff_exists.mpr ⟨c, hc⟩))
  exact (AList.lookup_insert_ne hne).trans hc

theorem grows_doCall (s : RPCServer) (call : ℕ) : Grows s (s.doCall call) := by
  unfold doCall
  rw [searchCall_ends]
  cases hsearch : searchQueued s.calls 256 s.nextMtid with
  | none => exact ⟨rfl, rfl, fun _ _ hc => hc⟩
  | some id => exact grows_send (searchQueued_some hsearch) call id

theorem grows_doCalls (calls : List ℕ) : ∀ s, Grows s (doCalls calls s) := by
  unfold doCalls
  induction calls with
  | nil => exact Grows.refl
  | cons call calls ih => exact fun s => (grows_doCall s call).trans (ih _)

theorem grows_sendQueued (queue : List ℕ) : ∀ s, Grows s (sendQueued queue s) := by
  induction queue with
  | nil => exact fun s => ⟨rfl, rfl, fun _ _ hc => hc⟩
  | cons call queue ih =>
    intro s
    rw [sendQueued]
    split
    · cases hsearch : searchQueued s.calls 256 s.nextMtid with
      | none => exact ⟨rfl, rfl, fun _ _ hc => hc⟩
      | some id => exact (grows_send (searchQueued_some hsearch) call (id + 1)).trans (ih _)
    · exact ⟨rfl, rfl, fun _ _ hc => hc⟩

theorem resolved_timedOut (s : RPCServer) (mtid : List UInt8) :
    (s.timedOut mtid).resolved = s.resolved := by
  unfold timedOut
  split
  · exact (grows_sendQueued _ s).resolved
  · exact (grows_sendQueued _ _).resolved

theorem doCall_spec (h : Inv n exempt s) (hw : s.Waits) :
    Inv (n + 1) exempt (s.doCall n) ∧ (s.doCall n).Waits := by
  unfold doCall
  rw [searchCall_ends]
  cases hsearch : searchQueued s.calls 256 s.nextMtid with
  | none =>
    have horder : s.sent.map Prod.snd ++ (s.callQueue ++ [n]) = List.range (n + 1) := by
      rw [List.range_succ, ← List.append_assoc, h.order]
    exact ⟨⟨h.oneByte, h.inFlight, h.kept, horder, h.once, h.answered, h.done, h.erased, h.ends,
      h.running, h.left⟩, fun _ => all_used_of_search _ hsearch⟩
  | some id =>
    have hfree := searchQueued_some hsearch
    have hqueue : s.callQueue = [] := by
      by_contra hne
      exact hfree (hw hne id)
    have horder : s.sent.map Prod.snd ++ [n] = List.range (n + 1) := by
      rw [List.range_succ, ← h.order, hqueue, List.append_nil]
    have hsent := h.send hfree horder id
    rw [← hqueue] at hsent
    exact ⟨hsent, fun hne => absurd hqueue hne⟩

theorem doCalls_spec (k : ℕ) (h : Inv n exempt s) (hw : s.Waits) :
    Inv (n + k) exempt (doCalls (List.range' n k) s) ∧ (doCalls (List.range' n k) s).Waits := by
  unfold doCalls
  induction k generalizing n s with
  | zero => exact ⟨h, hw⟩
  | succ k ih =>
    obtain ⟨h', hw'⟩ := doCall_spec h hw
    rw [List.range'_succ, List.foldl_cons, show n + (k + 1) = n + 1 + k by omega]
    exact ih h' hw'

/-- Calls that wait are sent until all ids are in use again. -/
theorem sendQueued_spec : ∀ (queue : List ℕ) (s : RPCServer),
    Inv n exempt { s with callQueue := queue } →
      Inv n exempt (sendQueued queue s) ∧ (sendQueued queue s).Waits := by
  intro queue
  induction queue with
  | nil => exact fun s h => ⟨h, fun hne => absurd rfl hne⟩
  | cons call queue ih =>
    intro s h
    rw [sendQueued]
    split
    next hroom =>
      cases hsearch : searchQueued s.calls 256 s.nextMtid with
      | none =>
        obtain ⟨id, hfree⟩ := exists_free hroom
        exact absurd (all_used_of_search _ hsearch id) hfree
      | some id =>
        exact ih _ (h.send (searchQueued_some hsearch) h.order (id + 1))
    next hfull => exact ⟨h, fun _ => all_used_of_full h.oneByte (not_lt.mp hfull)⟩

theorem doQueuedCalls_spec (h : Inv n exempt s) :
    Inv n exempt s.doQueuedCalls ∧ s.doQueuedCalls.Waits := sendQueued_spec s.callQueue s h

/-! ## Results -/

/-- The listeners of a call are told its result. -/
theorem Inv.resolve (h : Inv n none s) (hcall : s.calls.lookup mtid = some call) (r : CallResult) :
    Inv n (some mtid) { s with resolved := s.resolved ++ [(mtid, call, r)] } := by
  have hnew := h.done mtid call (fun hc => by cases hc) hcall
  have htold : told { s with resolved := s.resolved ++ [(mtid, call, r)] } = s.told ++ [call] :=
    List.map_append
  refine ⟨h.oneByte, h.inFlight, fun mtid' c hc hn => ?_, h.order, ?_, fun r' hr' => ?_,
    fun mtid' c hne hc => ?_, fun mtid' he => ?_, h.ends,
    h.running, fun c hc => ?_⟩
  · rw [htold, List.mem_append, not_or] at hn
    exact h.kept mtid' c hc hn.1
  · rw [htold]
    refine List.nodup_append.mpr ⟨h.once, List.nodup_singleton _, fun a ha b hb hab => ?_⟩
    rw [hab, List.mem_singleton.mp hb] at ha
    exact hnew ha
  · rcases List.mem_append.mp hr' with hr' | hr'
    · exact h.answered r' hr'
    · rw [List.mem_singleton.mp hr']
      exact h.inFlight mtid call hcall
  · rw [htold, List.mem_append, not_or]
    refine ⟨h.done mtid' c (fun hc => by cases hc) hc, fun hin => ?_⟩
    obtain rfl : c = call := List.mem_singleton.mp hin
    exact hne (congrArg some (h.mtid_eq (h.inFlight mtid c hcall) (h.inFlight mtid' c hc)))
  · obtain rfl := Option.some.inj he
    exact ⟨call, htold ▸ List.mem_append_right _ (List.mem_singleton_self _), hcall⟩
  · rw [htold]
    exact List.mem_append_left _ (h.left c hc)

/-- The call is erased. -/
theorem Inv.erase (h : Inv n (some mtid) s) (hcall : s.calls.lookup mtid = some call) :
    Inv n none (s.eraseCall mtid call) := by
  have hold : ∀ {mtid' : List UInt8} {c : ℕ}, (s.calls.erase mtid).lookup mtid' = some c →
      mtid' ≠ mtid ∧ s.calls.lookup mtid' = some c := by
    intro mtid' c hc
    by_cases heq : mtid' = mtid
    · subst heq
      rw [AList.lookup_erase] at hc
      cases hc
    · rw [AList.lookup_erase_ne heq] at hc
      exact ⟨heq, hc⟩
  obtain ⟨c', htold, hc'⟩ := h.erased mtid rfl
  obtain rfl := Option.some.inj (hcall.symm.trans hc')
  refine ⟨fun mtid' hm => h.oneByte mtid' (AList.mem_erase.mp hm).2,
    fun mtid' c hc => h.inFlight mtid' c (hold hc).2, fun mtid' c hc hn => ?_, h.order, h.once,
    h.answered, fun mtid' c _ hc => ?_, fun _ he => (by cases he), h.ends, fun t ht hl => ?_,
    fun c hc => ?_⟩
  · have hlookup := h.kept mtid' c hc hn
    have hne : mtid' ≠ mtid := by
      rintro rfl
      exact hn (Option.some.inj (hlookup.symm.trans hc') ▸ htold)
    exact (AList.lookup_erase_ne hne).trans hlookup
  · obtain ⟨hne, hc⟩ := hold hc
    exact h.done mtid' c (fun heq => hne (Option.some.inj heq)) hc
  · obtain ⟨hl, hne⟩ := not_or.mp fun hor => hl (List.mem_append.mpr hor)
    have hlookup := h.running t ht hl
    have hne' : t.2 ≠ mtid := by
      intro heq
      rw [heq, hcall] at hlookup
      exact hne (List.mem_singleton.mpr (Option.some.inj hlookup).symm)
    exact (AList.lookup_erase_ne hne').trans hlookup
  · rcases List.mem_append.mp hc with hc | hc
    · exact h.left c hc
    · rw [List.mem_singleton.mp hc]
      exact htold

/-! ## Every run -/

/-- No timer fires of a call that waits for its deletion. -/
def OnTime (s : RPCServer) : Event → Prop
  | .timeout call _ => s.timer call ≠ none → call ∉ s.leaving
  | _ => True

theorem mem_timers (h : s.timer call = some mtid) : (call, mtid) ∈ s.timers := by
  obtain ⟨t, ht, rfl⟩ := Option.map_eq_some_iff.mp h
  have hmem := List.mem_of_find?_eq_some ht
  have hcall : t.1 = call := by simpa using List.find?_some ht
  rw [← hcall]
  exact hmem

/-- What every step keeps while the timers are on time. -/
structure Kept (s : RPCServer) : Prop where
  inv : Inv s.made none s
  waits : s.Waits

theorem Inv.response (h : Inv n none s) (hw : s.Waits) (mtid : List UInt8) (applied told : ℕ) :
    Inv (if mtid ∈ s.calls then n + applied + told else n) none
        (s.dataReceived mtid (List.range' n applied) (List.range' (n + applied) told)) ∧
      (s.dataReceived mtid (List.range' n applied) (List.range' (n + applied) told)).Waits := by
  unfold dataReceived
  by_cases hmem : mtid ∈ s.calls
  · rw [if_pos hmem, if_pos hmem]
    obtain ⟨h₁, hw₁⟩ := doCalls_spec applied h hw
    -- the call is still in flight when its listeners are told
    obtain ⟨call, hcall⟩ := Option.isSome_iff_exists.mp (AList.lookup_isSome.mpr hmem)
    have hcall₁ := (grows_doCalls (List.range' n applied) s).lookup mtid call hcall
    simp only [hcall₁]
    have htold := h₁.resolve hcall₁ .response
    obtain ⟨h₂, -⟩ := doCalls_spec told htold hw₁
    exact doQueuedCalls_spec (h₂.erase ((grows_doCalls _ _).lookup mtid call hcall₁))
  · rw [if_neg hmem, if_neg hmem]
    exact ⟨h, hw⟩

theorem Inv.timeout (h : Inv n none s) (hlookup : s.calls.lookup mtid = some call) (told : ℕ) :
    Inv (n + told) none (s.onTimeout call mtid (List.range' n told)) ∧
      (s.onTimeout call mtid (List.range' n told)).Waits := by
  have hstopped : Inv n none { s with timers := s.timers.filter (·.1 ≠ call) } :=
    ⟨h.oneByte, h.inFlight, h.kept, h.order, h.once, h.answered, h.done, h.erased, h.ends,
      fun t ht => h.running t (List.mem_filter.mp ht).1, h.left⟩
  obtain ⟨h₁, hw₁⟩ := doQueuedCalls_spec ((hstopped.resolve hlookup .timeout).erase hlookup)
  unfold onTimeout timedOut
  simp only [hlookup]
  exact doCalls_spec told h₁ hw₁

/-- **The step lemma.** -/
theorem kept_step (s : RPCServer) (e : Event) (h : Kept s) (hok : s.OnTime e) : Kept (s.step e) := by
  obtain ⟨hinv, hw⟩ := h
  cases e with
  | doCall =>
    obtain ⟨h', hw'⟩ := doCall_spec hinv hw
    exact ⟨⟨h'.1, h'.2, h'.3, h'.4, h'.5, h'.6, h'.7, h'.8, h'.9, h'.10, h'.11⟩, hw'⟩
  | response mtid applied told =>
    obtain ⟨h', hw'⟩ := hinv.response hw mtid applied told
    exact ⟨⟨h'.1, h'.2, h'.3, h'.4, h'.5, h'.6, h'.7, h'.8, h'.9, h'.10, h'.11⟩, hw'⟩
  | timeout call told =>
    rw [step]
    cases htimer : s.timer call with
    | none => exact ⟨hinv, hw⟩
    | some mtid =>
      have hrunning : call ∉ s.leaving := hok (by rw [htimer]; exact Option.some_ne_none mtid)
      obtain ⟨h', hw'⟩ := hinv.timeout (hinv.running _ (mem_timers htimer) hrunning) told
      exact ⟨⟨h'.1, h'.2, h'.3, h'.4, h'.5, h'.6, h'.7, h'.8, h'.9, h'.10, h'.11⟩, hw'⟩
  | deleted =>
    refine ⟨⟨hinv.1, hinv.2, hinv.3, hinv.4, hinv.5, hinv.6, hinv.7, hinv.8, hinv.9, fun t ht _ => ?_,
      fun _ hc => absurd hc List.not_mem_nil⟩, hw⟩
    obtain ⟨ht, hl⟩ := List.mem_filter.mp ht
    exact hinv.running t ht (of_decide_eq_true hl)

theorem Kept.law (h : Kept s) : s.SlotLaw where
  slots := length_le h.inv.oneByte
  oneByte := h.inv.oneByte
  inFlight := fun mtid call =>
    ⟨fun hc => ⟨h.inv.inFlight mtid call hc, h.inv.done mtid call (fun hn => by cases hn) hc⟩,
      fun hc => h.inv.kept mtid call hc.1 hc.2⟩
  waits := h.waits
  order := h.inv.order
  once := h.inv.once
  answered := h.inv.answered
  ends := h.inv.ends

/-- A call whose timer is late is resolved twice. -/
theorem late_not_slotLaw (s : RPCServer) (e : Event) (h : Kept s) (hlate : ¬ s.OnTime e) :
    ¬ (s.step e).SlotLaw := by
  cases e with
  | doCall => exact absurd trivial hlate
  | response mtid applied told => exact absurd trivial hlate
  | deleted => exact absurd trivial hlate
  | timeout call told =>
    intro hlaw
    obtain ⟨hne, hleaving⟩ := Classical.not_imp.mp hlate
    obtain ⟨mtid, htimer⟩ := Option.ne_none_iff_exists'.mp hne
    have htold : (s.step (.timeout call told)).told = s.told ++ [call] := by
      rw [step, htimer]
      have hres : (s.onTimeout call mtid (List.range' s.made told)).resolved =
          s.resolved ++ [(mtid, call, .timeout)] :=
        (grows_doCalls _ _).resolved.trans (resolved_timedOut _ _)
      show (s.onTimeout call mtid (List.range' s.made told)).resolved.map (fun r => r.2.1) = _
      rw [hres, List.map_append]
      rfl
    have honce := hlaw.once
    rw [htold] at honce
    exact (List.nodup_append.mp honce).2.2 call (h.inv.left call (not_not.mp hleaving)) call
      (List.mem_singleton_self call) rfl

theorem kept_new : Kept new :=
  ⟨⟨fun _ h => absurd h (AList.notMem_empty _), fun _ _ h => (by cases h), fun _ _ h => (by cases h),
    rfl, List.nodup_nil, fun _ h => (by cases h), fun _ _ _ h => (by cases h), fun _ h => (by cases h),
    rfl, fun _ h => (by cases h), fun _ h => (by cases h)⟩, fun h => absurd rfl h⟩

/-- **The slots are in order** in every state of a run, whatever responses arrive, whichever timers
fire and however many calls are made in between, exactly when no timer is late: the timer of a call
does not fire between the response and the deletion of the call. -/
theorem allStates_slotLaw_iff (events : List Event) :
    AllStates step SlotLaw new events ↔ AllSteps step OnTime new events :=
  allStates_iff_allSteps (fun _ h => h.law) kept_step late_not_slotLaw events new kept_new

/-- The response and the end of the timer come in one turn of the event loop. -/
theorem lateTimer_not_slotLaw :
    ¬ AllStates step SlotLaw new [.doCall, .response [0] 0 0, .timeout 0 0] := by
  intro h
  have honce := h.last.once
  have htold : told (run step new [.doCall, .response [0] 0 0, .timeout 0 0]) = [0, 0] := by
    decide +kernel
  rw [htold] at honce
  exact absurd honce (by decide)

end RPCServer

end KTorrent
