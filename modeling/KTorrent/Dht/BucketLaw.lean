import KTorrent.Dht.KBucket
import KTorrent.Lib.Run

/-!
# What a bucket keeps

* `Event`, `step` — what can happen to a bucket: nodes are inserted, its pings are
  answered or not, and other requests to its nodes are not answered.
* `BucketLaw` — at most `K` entries, at most two pings, at most `K` nodes that wait,
  and no node twice.
* `Kept` — the part of it that every step keeps, with the calls that the bucket
  knows; `Kept.step` is the step lemma.
* `allStates_bucketLaw` — the law holds as long as no node that waited takes the place
  of an entry while it is already an entry.
-/

namespace KTorrent

open Runs

namespace KBucket

variable {accepts : ℕ → Bool} {now : UInt64} {b : KBucket} {srv : RPCCalls} {c : PingCall}
  {e : KBucketEntry}

/-- The nodes of the entries. -/
def nodes (b : KBucket) : List (Address × Key) := b.entries.map KBucketEntry.node

/-! ## Events -/

/-- What can happen to a bucket. -/
inductive Event where
  | insert (now : UInt64) (e : KBucketEntry)
  | response (now : UInt64) (c : PingCall)
  | callTimeout (now : UInt64) (c : PingCall)
  | timeout (addr : Address)

/-- It happens.  Only nodes in the range are inserted, and a call is answered once. -/
def step (accepts : ℕ → Bool) (s : KBucket × RPCCalls) : Event → KBucket × RPCCalls
  | .insert now e =>
    if s.1.keyInRange e.nodeId then (s.1.insert accepts now s.2 e).2 else s
  | .response now c =>
    if c ∈ s.2.outstanding then s.1.onResponse accepts now (s.2.done c) c else s
  | .callTimeout now c =>
    if c ∈ s.2.outstanding then s.1.onTimeout accepts now (s.2.done c) c else s
  | .timeout addr => (s.1.timeout addr, s.2)

/-- **The law of a bucket.** -/
structure BucketLaw (s : KBucket × RPCCalls) : Prop where
  entries : s.1.entries.length ≤ bucketK
  distinct : s.1.nodes.Nodup
  pings : s.2.outstanding.length ≤ 2
  waiting : s.1.pendingEntries.length ≤ bucketK
  waitingDistinct : (s.1.pendingEntries.map KBucketEntry.node).Nodup

/-- When an entry with `p` is replaced by `e`, then `e` is none of the others. -/
def Fits (b : KBucket) (p : KBucketEntry → Bool) (e : KBucketEntry) : Prop :=
  b.entries.any p → e.node ∉ (b.entries.eraseP p).map KBucketEntry.node

/-- No node that waited takes the place of an entry while it is another entry: not the
replacement of the pinged node, and not the node that waits longest after that. -/
def NewOnly (s : KBucket × RPCCalls) : Event → Prop
  | .insert _ _ => True
  | .response now c => ∀ e, s.1.waiting c = some e → s.1.Fits (·.isBad now) e
  | .callTimeout now c => ∀ e, s.1.waiting c = some e →
      s.1.Fits (·.addr = c.destination) e ∧
      ∀ pe, s.1.pendingEntries.head? = some pe → (s.1.removeCall c).busyPinging.length < 2 →
        (s.1.replaceTimedOut c e).Fits (·.isBad now) pe
  | .timeout _ => True

instance (b : KBucket) (p : KBucketEntry → Bool) (e : KBucketEntry) : Decidable (b.Fits p e) :=
  inferInstanceAs (Decidable (_ → _))

instance (s : KBucket × RPCCalls) : (ev : Event) → Decidable (NewOnly s ev)
  | .insert _ _ => .isTrue trivial
  | .response now c =>
    inferInstanceAs (Decidable (∀ e ∈ s.1.waiting c, s.1.Fits (·.isBad now) e))
  | .callTimeout now c =>
    inferInstanceAs (Decidable (∀ e ∈ s.1.waiting c, s.1.Fits (·.addr = c.destination) e ∧
      ∀ pe ∈ s.1.pendingEntries.head?, (s.1.removeCall c).busyPinging.length < 2 →
        (s.1.replaceTimedOut c e).Fits (·.isBad now) pe))
  | .timeout _ => .isTrue trivial

/-! ## What the operations do to the entries -/

theorem replaceFirst_length {p : KBucketEntry → Bool} {l : List KBucketEntry} (h : l.any p) :
    (replaceFirst p e l).length = l.length := by
  obtain ⟨x, hx, hpx⟩ := List.any_eq_true.mp h
  have hpos := List.length_pos_of_mem hx
  rw [replaceFirst, List.length_append, List.length_eraseP_of_mem hx hpx, List.length_singleton]
  omega

theorem replaceFirst_nodup {p : KBucketEntry → Bool} {l : List KBucketEntry}
    (hl : (l.map KBucketEntry.node).Nodup)
    (he : e.node ∉ (l.eraseP p).map KBucketEntry.node) :
    ((replaceFirst p e l).map KBucketEntry.node).Nodup := by
  rw [replaceFirst, List.map_append]
  have hrest : ((l.eraseP p).map KBucketEntry.node).Nodup :=
    hl.sublist ((List.eraseP_sublist).map _)
  refine hrest.append (List.nodup_singleton _) ?_
  exact List.disjoint_singleton.mpr he

/-- Erasing the entry of a node leaves no other entry of it. -/
theorem notMem_eraseP_same : ∀ {l : List KBucketEntry}, (l.map KBucketEntry.node).Nodup →
    l.any e.same → e.node ∉ (l.eraseP e.same).map KBucketEntry.node := by
  intro l
  induction l with
  | nil => exact fun _ h => (nomatch h)
  | cons x l ih =>
    intro hl hany
    obtain ⟨hx, hl⟩ := List.nodup_cons.mp hl
    by_cases hsame : e.same x
    · have hnode : e.node = x.node := of_decide_eq_true hsame
      rw [List.eraseP_cons_of_pos hsame, hnode]
      exact hx
    · have hnode : e.node ≠ x.node := fun h => hsame (decide_eq_true h)
      rw [List.any_cons, Bool.or_eq_true] at hany
      rw [List.eraseP_cons_of_neg hsame, List.map_cons, List.mem_cons, not_or]
      exact ⟨hnode, ih hl (hany.resolve_left hsame)⟩

variable (accepts now) in
theorem pingFirst_nodes : ∀ (l : List KBucketEntry) (srv : RPCCalls),
    (pingFirst accepts now l srv).1.map KBucketEntry.node = l.map KBucketEntry.node := by
  intro l
  induction l with
  | nil => exact fun _ => rfl
  | cons e es ih =>
    intro srv
    rw [pingFirst]
    split
    · split
      · rfl
      · exact congrArg (e.node :: ·) (ih _)
    · exact congrArg (e.node :: ·) (ih _)

variable (accepts) in
theorem doCall_outstanding (srv : RPCCalls) (destination : Address) :
    (srv.doCall accepts destination).2.outstanding =
      srv.outstanding ++ (srv.doCall accepts destination).1.toList := by
  rw [RPCCalls.doCall]
  split
  · rfl
  · exact (List.append_nil _).symm

variable (accepts now) in
/-- A call that is made is outstanding, and no other is. -/
theorem pingFirst_calls : ∀ (l : List KBucketEntry) (srv : RPCCalls),
    (pingFirst accepts now l srv).2.1.outstanding =
      srv.outstanding ++ (pingFirst accepts now l srv).2.2.toList := by
  intro l
  induction l with
  | nil => exact fun srv => (List.append_nil _).symm
  | cons e es ih =>
    intro srv
    have hcall := doCall_outstanding accepts srv e.addr
    rw [pingFirst]
    split
    · split
      case h_1 heq => rwa [heq] at hcall
      case h_2 srv' heq =>
        rw [heq, Option.toList_none, List.append_nil] at hcall
        dsimp only
        rw [ih srv', hcall]
    · exact ih srv

variable (accepts now) in
/-- What `pingQuestionable` does: the node waits, or a call is made for it, or nothing. -/
theorem pingQuestionable_cases (b : KBucket) (srv : RPCCalls) (e : KBucketEntry) :
    let r := b.pingQuestionable accepts now srv e
    r.1.nodes = b.nodes ∧
      ((2 ≤ b.busyPinging.length ∧ r.1.busyPinging = b.busyPinging ∧ r.2 = srv ∧
          r.1.pendingEntries = e :: (b.pendingEntries.eraseP e.same).take (bucketK - 1)) ∨
        (b.busyPinging.length < 2 ∧ r.1.pendingEntries = b.pendingEntries ∧
          ∃ c : Option PingCall, r.1.busyPinging = b.busyPinging ++ c.toList.map (·, e) ∧
            r.2.outstanding = srv.outstanding ++ c.toList)) := by
  have hnodes := pingFirst_nodes accepts now b.entries srv
  have hcalls := pingFirst_calls accepts now b.entries srv
  dsimp only
  rw [pingQuestionable]
  split
  case isTrue hbusy => exact ⟨rfl, .inl ⟨hbusy, rfl, rfl, rfl⟩⟩
  case isFalse hbusy =>
    have hlt : b.busyPinging.length < 2 := Nat.lt_of_not_le hbusy
    split
    case h_1 es srv' c heq =>
      rw [heq] at hnodes hcalls
      exact ⟨hnodes, .inr ⟨hlt, rfl, some c, rfl, hcalls⟩⟩
    case h_2 es srv' heq =>
      rw [heq] at hnodes hcalls
      exact ⟨hnodes, .inr ⟨hlt, rfl, none, (List.append_nil _).symm, hcalls⟩⟩

/-- What `offer` does to the entries. -/
theorem offer_nodes (b : KBucket) (srv : RPCCalls) (e : KBucketEntry) :
    (b.offer accepts now srv e).1.nodes =
      if b.entries.any (·.isBad now) then
        (replaceFirst (·.isBad now) e b.entries).map KBucketEntry.node
      else b.nodes := by
  rw [offer, replaceBadEntry]
  by_cases hbad : b.entries.any (·.isBad now)
  · rw [if_pos hbad, if_pos hbad]
    rfl
  · rw [if_neg hbad, if_neg hbad]
    exact (pingQuestionable_cases accepts now b srv e).1

/-! ## What every step keeps -/

/-- The law without the entries being different, and the calls the bucket knows. -/
structure Kept (b : KBucket) (srv : RPCCalls) : Prop where
  entries : b.entries.length ≤ bucketK
  calls : srv.outstanding = b.busyPinging.map Prod.fst
  pings : b.busyPinging.length ≤ 2
  waiting : b.pendingEntries.length ≤ bucketK
  waitingDistinct : (b.pendingEntries.map KBucketEntry.node).Nodup

theorem Kept.pingQuestionable (h : Kept b srv) :
    Kept (b.pingQuestionable accepts now srv e).1 (b.pingQuestionable accepts now srv e).2 := by
  obtain ⟨hnodes, hcases⟩ := pingQuestionable_cases accepts now b srv e
  have hentries : (b.pingQuestionable accepts now srv e).1.entries.length = b.entries.length := by
    simpa [nodes] using congrArg List.length hnodes
  refine ⟨hentries ▸ h.entries, ?_, ?_, ?_, ?_⟩
  · obtain ⟨-, hbusy, hsrv, -⟩ | ⟨-, -, c, hbusy, hsrv⟩ := hcases
    · rw [hbusy, hsrv]
      exact h.calls
    · rw [hbusy, hsrv, h.calls, List.map_append, List.map_map]
      exact congrArg _ (List.map_id _).symm
  · obtain ⟨-, hbusy, -, -⟩ | ⟨hlt, -, c, hbusy, -⟩ := hcases
    · rw [hbusy]
      exact h.pings
    · rw [hbusy, List.length_append, List.length_map]
      cases c <;> simp <;> omega
  · obtain ⟨-, -, -, hwait⟩ | ⟨-, hwait, -⟩ := hcases
    · rw [hwait, List.length_cons, List.length_take, bucketK]
      omega
    · rw [hwait]
      exact h.waiting
  · obtain ⟨-, -, -, hwait⟩ | ⟨-, hwait, -⟩ := hcases
    · rw [hwait, List.map_cons]
      have hsub : ((b.pendingEntries.eraseP e.same).take (bucketK - 1)).Sublist
          (b.pendingEntries.eraseP e.same) := List.take_sublist _ _
      refine List.nodup_cons.mpr
        ⟨fun hmem => ?_, h.waitingDistinct.sublist ((hsub.trans List.eraseP_sublist).map _)⟩
      have hmem' := (hsub.map KBucketEntry.node).subset hmem
      by_cases hany : b.pendingEntries.any e.same
      · exact notMem_eraseP_same h.waitingDistinct hany hmem'
      · rw [List.eraseP_of_forall_not (by simpa using hany)] at hmem'
        obtain ⟨x, hx, hnode⟩ := List.mem_map.mp hmem'
        exact hany (List.any_eq_true.mpr ⟨x, hx, decide_eq_true hnode.symm⟩)
    · rw [hwait]
      exact h.waitingDistinct

/-- Other entries in the same number do not matter. -/
theorem Kept.withEntries (h : Kept b srv) {l : List KBucketEntry}
    (hl : l.length = b.entries.length) : Kept { b with entries := l } srv :=
  ⟨hl ▸ h.entries, h.calls, h.pings, h.waiting, h.waitingDistinct⟩

theorem Kept.offer (h : Kept b srv) :
    Kept (b.offer accepts now srv e).1 (b.offer accepts now srv e).2 := by
  rw [KBucket.offer, replaceBadEntry]
  by_cases hbad : b.entries.any (·.isBad now)
  · rw [if_pos hbad]
    exact h.withEntries (replaceFirst_length hbad)
  · rw [if_neg hbad]
    exact h.pingQuestionable

theorem Kept.insert (h : Kept b srv) :
    Kept (b.insert accepts now srv e).2.1 (b.insert accepts now srv e).2.2 := by
  rw [KBucket.insert]
  split
  case isTrue hsame => exact h.withEntries (replaceFirst_length hsame)
  case isFalse =>
    split
    case isTrue hroom =>
      refine ⟨?_, h.calls, h.pings, h.waiting, h.waitingDistinct⟩
      rw [List.length_append, List.length_singleton]
      exact hroom
    case isFalse =>
      rw [replaceBadEntry]
      by_cases hbad : b.entries.any (·.isBad now)
      · rw [if_pos hbad]
        exact h.withEntries (replaceFirst_length hbad)
      · rw [if_neg hbad]
        dsimp only
        split
        · exact h
        · exact h.pingQuestionable

/-- A call that is done is forgotten on both sides. -/
theorem Kept.removeCall (h : Kept b srv) : Kept (b.removeCall c) (srv.done c) := by
  refine ⟨h.entries, ?_, (List.length_filter_le _ _).trans h.pings, h.waiting, h.waitingDistinct⟩
  rw [RPCCalls.done, h.calls, KBucket.removeCall, List.filter_map]
  rfl

theorem Kept.nextPending (h : Kept b srv) :
    Kept (b.nextPending accepts now srv).1 (b.nextPending accepts now srv).2 := by
  rw [KBucket.nextPending]
  split
  case h_1 pe rest hpend =>
    split
    · refine Kept.offer ⟨h.entries, h.calls, h.pings, ?_, ?_⟩
      · have hlen := h.waiting
        rw [hpend, List.length_cons] at hlen
        exact Nat.le_of_succ_le hlen
      · have hdistinct := h.waitingDistinct
        rw [hpend] at hdistinct
        exact (List.nodup_cons.mp hdistinct).2
    · exact h
  case h_2 => exact h

/-- An outstanding call is one that the bucket knows. -/
theorem Kept.waiting_of_mem (h : Kept b srv) (hc : c ∈ srv.outstanding) :
    ∃ e, b.waiting c = some e := by
  rw [h.calls] at hc
  obtain ⟨x, hx, rfl⟩ := List.mem_map.mp hc
  have hfound : (b.busyPinging.find? (·.1 = x.1)).isSome :=
    List.find?_isSome.mpr ⟨x, hx, decide_eq_true rfl⟩
  obtain ⟨y, hy⟩ := Option.isSome_iff_exists.mp hfound
  exact ⟨y.2, by rw [KBucket.waiting, hy]; rfl⟩

theorem Kept.replaceTimedOut (h : Kept b srv) : Kept (b.replaceTimedOut c e) (srv.done c) := by
  refine Kept.removeCall (h.withEntries ?_)
  split
  case isTrue hany => exact replaceFirst_length hany
  case isFalse => rfl

/-- **The step lemma.** -/
theorem Kept.step {s : KBucket × RPCCalls} (h : Kept s.1 s.2) (ev : Event) :
    Kept (KBucket.step accepts s ev).1 (KBucket.step accepts s ev).2 := by
  cases ev with
  | insert now e =>
    rw [KBucket.step]
    split
    · exact h.insert
    · exact h
  | response now c =>
    rw [KBucket.step]
    split
    case isTrue hc =>
      obtain ⟨e, he⟩ := h.waiting_of_mem hc
      rw [onResponse, he]
      exact h.removeCall.offer
    case isFalse => exact h
  | callTimeout now c =>
    rw [KBucket.step]
    split
    case isTrue hc =>
      obtain ⟨e, he⟩ := h.waiting_of_mem hc
      rw [onTimeout, he]
      exact h.replaceTimedOut.nextPending
    case isFalse => exact h
  | timeout addr => exact h.withEntries (List.length_modify _ _ _)

/-! ## Different entries -/

theorem distinct_offer (h : b.nodes.Nodup) (hfit : b.Fits (·.isBad now) e) :
    (b.offer accepts now srv e).1.nodes.Nodup := by
  rw [offer_nodes]
  split
  case isTrue hbad => exact replaceFirst_nodup h (hfit hbad)
  case isFalse => exact h

/-- `insert` looks for the node first, so that it never adds a second entry for it. -/
theorem distinct_insert (h : b.nodes.Nodup) :
    (b.insert accepts now srv e).2.1.nodes.Nodup := by
  rw [insert]
  split
  case isTrue hsame => exact replaceFirst_nodup h (notMem_eraseP_same h hsame)
  case isFalse hsame =>
    have hnew : e.node ∉ b.nodes := by
      intro hmem
      obtain ⟨x, hx, hnode⟩ := List.mem_map.mp hmem
      exact hsame (List.any_eq_true.mpr ⟨x, hx, decide_eq_true hnode.symm⟩)
    have hsub : ∀ p : KBucketEntry → Bool,
        e.node ∉ (b.entries.eraseP p).map KBucketEntry.node := fun p hmem =>
      hnew ((List.eraseP_sublist.map KBucketEntry.node).subset hmem)
    split
    · change ((b.entries ++ [e]).map KBucketEntry.node).Nodup
      rw [List.map_append]
      exact h.append (List.nodup_singleton _) (List.disjoint_singleton.mpr hnew)
    · rw [replaceBadEntry]
      by_cases hbad : b.entries.any (·.isBad now)
      · rw [if_pos hbad]
        exact replaceFirst_nodup h (hsub _)
      · rw [if_neg hbad]
        dsimp only
        split
        · exact h
        · rw [(pingQuestionable_cases accepts now b srv e).1]
          exact h

theorem distinct_replaceTimedOut (h : b.nodes.Nodup) (hfit : b.Fits (·.addr = c.destination) e) :
    (b.replaceTimedOut c e).nodes.Nodup := by
  change (List.map KBucketEntry.node (if _ then _ else _)).Nodup
  split
  case isTrue hany => exact replaceFirst_nodup h (hfit hany)
  case isFalse => exact h

theorem distinct_nextPending (h : b.nodes.Nodup)
    (hfit : ∀ pe, b.pendingEntries.head? = some pe → b.busyPinging.length < 2 →
      b.Fits (·.isBad now) pe) :
    (b.nextPending accepts now srv).1.nodes.Nodup := by
  rw [nextPending]
  split
  case h_1 pe rest hpend =>
    split
    case isTrue hlt =>
      have hfirst : b.pendingEntries.head? = some pe := by rw [hpend]; rfl
      exact distinct_offer (b := { b with pendingEntries := rest }) h (hfit pe hfirst hlt)
    case isFalse => exact h
  case h_2 => exact h

theorem nodes_timeout (addr : Address) : (b.timeout addr).nodes = b.nodes := by
  refine List.ext_getElem? fun i => ?_
  rw [nodes, nodes, timeout, List.getElem?_map, List.getElem?_map, List.getElem?_modify]
  cases b.entries[i]? with
  | none => rfl
  | some e =>
    simp only [Option.map_eq_map, Option.map_some]
    split <;> rfl

theorem distinct_step {s : KBucket × RPCCalls} (h : s.1.nodes.Nodup) (ev : Event)
    (hok : NewOnly s ev) : (step accepts s ev).1.nodes.Nodup := by
  cases ev with
  | insert now e =>
    rw [step]
    split
    · exact distinct_insert h
    · exact h
  | response now c =>
    rw [step]
    split
    · rw [onResponse]
      split
      case h_1 => exact h
      case h_2 e he => exact distinct_offer (b := s.1.removeCall c) h (hok e he)
    · exact h
  | callTimeout now c =>
    rw [step]
    split
    · rw [onTimeout]
      split
      case h_1 => exact h
      case h_2 e he =>
        obtain ⟨hfit, hnext⟩ := hok e he
        exact distinct_nextPending (distinct_replaceTimedOut h hfit) hnext
    · exact h
  | timeout addr =>
    rw [step, nodes_timeout]
    exact h

/-! ## Runs -/

/-- **No entry twice, and never too many.**  In every run of a new bucket in which no node
that waited takes the place of an entry while it is an entry already, the law holds in
every state. -/
theorem allStates_bucketLaw (accepts : ℕ → Bool) (minKey maxKey ourId : Key) (evs : List Event)
    (hok : AllSteps (step accepts) NewOnly (new minKey maxKey ourId, ⟨0, []⟩) evs) :
    AllStates (step accepts) BucketLaw (new minKey maxKey ourId, ⟨0, []⟩) evs := by
  have hinv : AllStates (step accepts) (fun s => Kept s.1 s.2 ∧ s.1.nodes.Nodup)
      (new minKey maxKey ourId, ⟨0, []⟩) evs := by
    refine allStates_of_invariant (fun s ev hs hev => ⟨hs.1.step ev, distinct_step hs.2 ev hev⟩)
      evs _ ⟨⟨Nat.zero_le _, rfl, Nat.zero_le _, Nat.zero_le _, List.nodup_nil⟩, List.nodup_nil⟩ hok
  refine hinv.mono fun s hs => ⟨hs.1.entries, hs.2, ?_, hs.1.waiting, hs.1.waitingDistinct⟩
  rw [hs.1.calls, List.length_map]
  exact hs.1.pings

/-- The node with the key zero at a host. -/
def nodeAt (now : UInt64) (host : ℕ) : KBucketEntry :=
  KBucketEntry.new now ⟨.ipv4 (UInt32.ofNat host), 6881⟩ Key.min

/-- A bucket that is too narrow to be split. -/
def narrow : KBucket := new Key.min (Key.min.addValue 5) Key.min

/-- It is full of nodes that were not heard of for a while.  Three new ones are inserted: two wait for
pings of the first entry, and the third for one of these.  The first ping is not answered; the second
entry goes bad, and then the second ping is answered. -/
def placesTaken : List Event :=
  ((List.range 20).map fun i => .insert 0 (nodeAt 0 i)) ++
    [.insert 1000000 (nodeAt 1000000 20), .insert 1000000 (nodeAt 1000000 21),
      .insert 1000000 (nodeAt 1000000 22), .callTimeout 1000000 ⟨0, (nodeAt 0 0).addr⟩] ++
    List.replicate 3 (.timeout (nodeAt 0 1).addr) ++ [.response 1000000 ⟨1, (nodeAt 0 0).addr⟩]

/-- The new nodes 20 and 21 take the places of the entries 0 and 1. -/
theorem allStates_bucketLaw_taken :
    AllStates (step fun _ => true) BucketLaw (narrow, ⟨0, []⟩) placesTaken ∧
      (run (step fun _ => true) (narrow, ⟨0, []⟩) placesTaken).1.entries.map KBucketEntry.addr =
        ((List.range 20).map fun i => (nodeAt 0 (i + 2)).addr) :=
  ⟨allStates_bucketLaw _ _ _ _ _ (by decide +kernel), by decide +kernel⟩

/-- The bucket is full of nodes that were not heard of for a while, one new node is inserted
two times, and two of the others go bad before its pings are answered. -/
def heldTwice : List Event :=
  ((List.range 20).map fun i => .insert 0 (nodeAt 0 i)) ++
    [.insert 1000000 (nodeAt 1000000 20), .insert 1000000 (nodeAt 1000000 20)] ++
    List.replicate 3 (.timeout (nodeAt 0 0).addr) ++ List.replicate 3 (.timeout (nodeAt 0 1).addr) ++
    [.response 1000000 ⟨0, (nodeAt 0 0).addr⟩, .response 1000000 ⟨1, (nodeAt 0 0).addr⟩]

/-- Then it is an entry two times. -/
theorem heldTwice_not_bucketLaw :
    ¬ BucketLaw (run (step fun _ => true) (narrow, ⟨0, []⟩) heldTwice) :=
  fun h => absurd h.distinct (by decide +kernel)

end KBucket

end KTorrent
