import KTorrent.Dht.BucketLaw
import KTorrent.Dht.KBucketTable
import KTorrent.Lib.Ranges
import Mathlib.Data.List.TakeWhile

/-!
# What the routing table covers

* `Steady` — what the operations of a bucket other than a split keep: its range, that
  its nodes are in it, and that there are at most `K` entries.
* `split_spec` — the halves of a bucket have its range together.
* `TableInv` — the buckets tile the keys up to `Key.max`, and there are at most 161 of
  them; the step lemma is `TableInv.step`.
* `allStates_tableLaw` — every key up to `Key.max` is in exactly one bucket, and the keys
  behind it are in none.
-/

namespace KTorrent

open Runs Ranges

namespace KBucket

variable {accepts : ℕ → Bool} {now : UInt64} {b b' : KBucket} {srv : RPCCalls} {c : PingCall}
  {e : KBucketEntry}

/-! ## Keys in a range -/

theorem keyInRange_iff {k : Key} :
    b.keyInRange k ↔ b.minKey.toNat ≤ k.toNat ∧ k.toNat ≤ b.maxKey.toNat := by
  rw [keyInRange, decide_eq_true_iff, Key.le_iff, Key.le_iff]

/-- The nodes that the bucket knows, as entries or as replacements. -/
def known (b : KBucket) : List KBucketEntry :=
  b.entries ++ (b.pendingEntries ++ b.busyPinging.map Prod.snd)

theorem mem_known : e ∈ b.known ↔
    e ∈ b.entries ∨ e ∈ b.pendingEntries ∨ e ∈ b.busyPinging.map Prod.snd := by
  rw [known, List.mem_append, List.mem_append]

/-- Every node that the bucket knows is in its range. -/
def InRange (b : KBucket) : Prop := ∀ e ∈ b.known, b.keyInRange e.nodeId

/-- What the operations on a bucket keep. -/
structure Steady (b b' : KBucket) : Prop where
  minKey : b'.minKey = b.minKey
  maxKey : b'.maxKey = b.maxKey
  ourId : b'.ourId = b.ourId
  inRange : b.InRange → b'.InRange
  room : b.entries.length ≤ bucketK → b'.entries.length ≤ bucketK

theorem Steady.refl (b : KBucket) : Steady b b := ⟨rfl, rfl, rfl, id, id⟩

theorem Steady.trans {b'' : KBucket} (h : Steady b b') (h' : Steady b' b'') : Steady b b'' :=
  ⟨h'.minKey.trans h.minKey, h'.maxKey.trans h.maxKey, h'.ourId.trans h.ourId,
    fun hb => h'.inRange (h.inRange hb), fun hb => h'.room (h.room hb)⟩

/-- Nodes of the same range in place of the others.  Only their keys matter. -/
theorem steady_of_known (hmin : b'.minKey = b.minKey) (hmax : b'.maxKey = b.maxKey)
    (hid : b'.ourId = b.ourId) (hlen : b.entries.length ≤ bucketK → b'.entries.length ≤ bucketK)
    (hknown : ∀ e' ∈ b'.known, b.keyInRange e'.nodeId ∨ ∃ e ∈ b.known, e.nodeId = e'.nodeId) :
    Steady b b' := by
  refine ⟨hmin, hmax, hid, fun hin e' he' => ?_, hlen⟩
  have hrange : b'.keyInRange e'.nodeId = b.keyInRange e'.nodeId := by
    rw [keyInRange, keyInRange, hmin, hmax]
  rw [hrange]
  obtain hk | ⟨e, he, hid⟩ := hknown e' he'
  · exact hk
  · exact hid ▸ hin e he

theorem mem_replaceFirst {p : KBucketEntry → Bool} {l : List KBucketEntry} {x : KBucketEntry}
    (h : x ∈ replaceFirst p e l) : x ∈ l ∨ x = e := by
  rw [replaceFirst, List.mem_append, List.mem_singleton] at h
  exact h.imp_left List.mem_of_mem_eraseP

/-- The first entry with `p` makes place for a node in the range. -/
theorem steady_replaceFirst {p : KBucketEntry → Bool} (hany : b.entries.any p)
    (he : b.keyInRange e.nodeId) : Steady b { b with entries := replaceFirst p e b.entries } := by
  refine steady_of_known rfl rfl rfl (fun h => (replaceFirst_length hany).trans_le h) ?_
  intro x hx
  rcases mem_known.mp hx with hx | hx
  · rcases mem_replaceFirst hx with hx | rfl
    · exact .inr ⟨x, mem_known.mpr (.inl hx), rfl⟩
    · exact .inl he
  · exact .inr ⟨x, mem_known.mpr (.inr hx), rfl⟩

theorem steady_pingQuestionable (he : b.keyInRange e.nodeId) :
    Steady b (b.pingQuestionable accepts now srv e).1 := by
  obtain ⟨hnodes, hcases⟩ := pingQuestionable_cases accepts now b srv e
  have hlen : (b.pingQuestionable accepts now srv e).1.entries.length = b.entries.length := by
    simpa [nodes] using congrArg List.length hnodes
  have hentry : ∀ x ∈ (b.pingQuestionable accepts now srv e).1.entries,
      ∃ y ∈ b.known, y.nodeId = x.nodeId := by
    intro x hx
    have hmem : x.node ∈ b.nodes := hnodes ▸ List.mem_map_of_mem hx
    obtain ⟨y, hy, hnode⟩ := List.mem_map.mp hmem
    exact ⟨y, mem_known.mpr (.inl hy), congrArg Prod.snd hnode⟩
  have hfixed : (b.pingQuestionable accepts now srv e).1.minKey = b.minKey ∧
      (b.pingQuestionable accepts now srv e).1.maxKey = b.maxKey ∧
      (b.pingQuestionable accepts now srv e).1.ourId = b.ourId := by
    rw [pingQuestionable]
    split
    · exact ⟨rfl, rfl, rfl⟩
    · split <;> exact ⟨rfl, rfl, rfl⟩
  refine steady_of_known hfixed.1 hfixed.2.1 hfixed.2.2 hlen.trans_le ?_
  intro x hx
  rcases mem_known.mp hx with hx | hx | hx
  · exact .inr (hentry x hx)
  · obtain ⟨-, -, -, hwait⟩ | ⟨-, hwait, -⟩ := hcases
    · rw [hwait] at hx
      rcases List.mem_cons.mp hx with rfl | hx
      · exact .inl he
      · have hmem := List.mem_of_mem_eraseP (List.mem_of_mem_take hx)
        exact .inr ⟨x, mem_known.mpr (.inr (.inl hmem)), rfl⟩
    · rw [hwait] at hx
      exact .inr ⟨x, mem_known.mpr (.inr (.inl hx)), rfl⟩
  · obtain ⟨-, hbusy, -, -⟩ | ⟨-, -, c, hbusy, -⟩ := hcases
    · rw [hbusy] at hx
      exact .inr ⟨x, mem_known.mpr (.inr (.inr hx)), rfl⟩
    · rw [hbusy, List.map_append, List.mem_append] at hx
      rcases hx with hx | hx
      · exact .inr ⟨x, mem_known.mpr (.inr (.inr hx)), rfl⟩
      · obtain ⟨y, hy, rfl⟩ := List.mem_map.mp hx
        obtain ⟨-, -, rfl⟩ := List.mem_map.mp hy
        exact .inl he

theorem steady_offer (he : b.keyInRange e.nodeId) : Steady b (b.offer accepts now srv e).1 := by
  rw [offer, replaceBadEntry]
  by_cases hbad : b.entries.any (·.isBad now)
  · rw [if_pos hbad]
    exact steady_replaceFirst hbad he
  · rw [if_neg hbad]
    exact steady_pingQuestionable he

theorem steady_insert (he : b.keyInRange e.nodeId) :
    Steady b (b.insert accepts now srv e).2.1 := by
  rw [insert]
  split
  case isTrue hsame => exact steady_replaceFirst hsame he
  case isFalse =>
    split
    case isTrue hroom =>
      refine steady_of_known rfl rfl rfl ?_ ?_
      · intro _
        rw [List.length_append, List.length_singleton]
        exact hroom
      · intro x hx
        rcases mem_known.mp hx with hx | hx
        · rcases List.mem_append.mp hx with hx | hx
          · exact .inr ⟨x, mem_known.mpr (.inl hx), rfl⟩
          · rw [List.mem_singleton.mp hx]
            exact .inl he
        · exact .inr ⟨x, mem_known.mpr (.inr hx), rfl⟩
    case isFalse =>
      rw [replaceBadEntry]
      by_cases hbad : b.entries.any (·.isBad now)
      · rw [if_pos hbad]
        exact steady_replaceFirst hbad he
      · rw [if_neg hbad]
        dsimp only
        split
        · exact Steady.refl b
        · exact steady_pingQuestionable he

theorem steady_removeCall (c : PingCall) : Steady b (b.removeCall c) := by
  refine steady_of_known rfl rfl rfl id fun x hx => .inr ⟨x, ?_, rfl⟩
  rcases mem_known.mp hx with hx | hx | hx
  · exact mem_known.mpr (.inl hx)
  · exact mem_known.mpr (.inr (.inl hx))
  · have hsub := (List.filter_sublist (p := fun y : PingCall × KBucketEntry => decide (y.1 ≠ c))
      (l := b.busyPinging)).map Prod.snd
    exact mem_known.mpr (.inr (.inr (hsub.subset hx)))

theorem mem_known_of_waiting (h : b.waiting c = some e) : e ∈ b.known := by
  obtain ⟨y, hy, rfl⟩ := Option.map_eq_some_iff.mp h
  exact mem_known.mpr (.inr (.inr (List.mem_map_of_mem (List.mem_of_find?_eq_some hy))))

theorem steady_onResponse (hb : b.InRange) : Steady b (b.onResponse accepts now srv c).1 := by
  rw [onResponse]
  split
  case h_1 => exact Steady.refl b
  case h_2 e he =>
    have hin : (b.removeCall c).keyInRange e.nodeId := hb e (mem_known_of_waiting he)
    exact (steady_removeCall c).trans (steady_offer hin)

theorem steady_replaceTimedOut (he : b.keyInRange e.nodeId) : Steady b (b.replaceTimedOut c e) := by
  by_cases hany : b.entries.any (·.addr = c.destination)
  · rw [replaceTimedOut, if_pos hany]
    exact (steady_replaceFirst hany he).trans (steady_removeCall c)
  · rw [replaceTimedOut, if_neg hany]
    exact steady_removeCall c

theorem steady_nextPending (hb : b.InRange) : Steady b (b.nextPending accepts now srv).1 := by
  rw [nextPending]
  split
  case h_1 pe rest hpend =>
    split
    · have hrest : Steady b { b with pendingEntries := rest } := by
        refine steady_of_known rfl rfl rfl id fun x hx => .inr ⟨x, ?_, rfl⟩
        rcases mem_known.mp hx with hx | hx | hx
        · exact mem_known.mpr (.inl hx)
        · exact mem_known.mpr (.inr (.inl (hpend ▸ List.mem_cons_of_mem pe hx)))
        · exact mem_known.mpr (.inr (.inr hx))
      have hfirst : pe ∈ b.known := mem_known.mpr (.inr (.inl (hpend ▸ List.mem_cons_self)))
      exact hrest.trans (steady_offer (hb pe hfirst))
    · exact Steady.refl b
  case h_2 => exact Steady.refl b

theorem steady_onTimeout (hb : b.InRange) : Steady b (b.onTimeout accepts now srv c).1 := by
  rw [onTimeout]
  split
  case h_1 => exact Steady.refl b
  case h_2 e he =>
    have hreplaced := steady_replaceTimedOut (c := c) (hb e (mem_known_of_waiting he))
    exact hreplaced.trans (steady_nextPending (hreplaced.inRange hb))

theorem steady_timeout (addr : Address) : Steady b (b.timeout addr) := by
  refine steady_of_known rfl rfl rfl (fun h => (List.length_modify _ _ _).trans_le h) ?_
  intro x hx
  rcases mem_known.mp hx with hx | hx
  · have hmem : x.node ∈ b.nodes := nodes_timeout (b := b) addr ▸ List.mem_map_of_mem hx
    obtain ⟨y, hy, hnode⟩ := List.mem_map.mp hmem
    exact .inr ⟨y, mem_known.mpr (.inl hy), congrArg Prod.snd hnode⟩
  · exact .inr ⟨x, mem_known.mpr (.inr hx), rfl⟩

/-! ## Splitting -/

/-- The middle of a bucket that can be split lies between its ends. -/
theorem mid_spec (hle : b.minKey ≤ b.maxKey) (hne : Key.mid b.minKey b.maxKey ≠ b.minKey) :
    (Key.mid b.minKey b.maxKey).toNat = b.minKey.toNat + (b.maxKey.toNat - b.minKey.toNat) / 2 ∧
      (Key.mid b.minKey b.maxKey).toNat < b.maxKey.toNat ∧
      ((Key.mid b.minKey b.maxKey).addValue 1).toNat = (Key.mid b.minKey b.maxKey).toNat + 1 := by
  have hmid := Key.toNat_mid hle
  have hmax := b.maxKey.toNat_lt
  have hmin : (Key.mid b.minKey b.maxKey).toNat ≠ b.minKey.toNat := fun h =>
    hne (Key.toNat_inj.mp h)
  have hsucc := Key.toNat_addValue (Key.mid b.minKey b.maxKey) 1
  rw [show (1 : UInt8).toNat = 1 from rfl] at hsucc
  rw [Key.le_iff] at hle
  omega

/-- The buckets are the halves of `b`. -/
structure Halves (b : KBucket) (halves : KBucket × KBucket) : Prop where
  leftMin : halves.1.minKey = b.minKey
  leftMax : halves.1.maxKey = Key.mid b.minKey b.maxKey
  rightMin : halves.2.minKey = (Key.mid b.minKey b.maxKey).addValue 1
  rightMax : halves.2.maxKey = b.maxKey
  ourId : halves.1.ourId = b.ourId ∧ halves.2.ourId = b.ourId
  inRange : halves.1.InRange ∧ halves.2.InRange
  room : halves.1.entries.length ≤ bucketK ∧ halves.2.entries.length ≤ bucketK

theorem Halves.steadyLeft {l l' r : KBucket} (h : Halves b (l, r)) (hs : Steady l l') :
    Halves b (l', r) :=
  ⟨hs.minKey.trans h.leftMin, hs.maxKey.trans h.leftMax, h.rightMin, h.rightMax,
    ⟨hs.ourId.trans h.ourId.1, h.ourId.2⟩, ⟨hs.inRange h.inRange.1, h.inRange.2⟩,
    ⟨hs.room h.room.1, h.room.2⟩⟩

theorem Halves.steadyRight {l r r' : KBucket} (h : Halves b (l, r)) (hs : Steady r r') :
    Halves b (l, r') :=
  ⟨h.leftMin, h.leftMax, hs.minKey.trans h.rightMin, hs.maxKey.trans h.rightMax,
    ⟨h.ourId.1, hs.ourId.trans h.ourId.2⟩, ⟨h.inRange.1, hs.inRange h.inRange.2⟩,
    ⟨h.room.1, hs.room h.room.2⟩⟩

/-- A key of `b` that is not in the left half is in the right one. -/
theorem Halves.right_of_not_left {halves : KBucket × KBucket} (h : Halves b halves)
    (hsucc : ((Key.mid b.minKey b.maxKey).addValue 1).toNat =
      (Key.mid b.minKey b.maxKey).toNat + 1)
    {k : Key} (hk : b.keyInRange k) (hl : ¬ halves.1.keyInRange k) : halves.2.keyInRange k := by
  rw [keyInRange_iff] at hk hl ⊢
  rw [h.leftMin, h.leftMax] at hl
  rw [h.rightMin, h.rightMax, hsucc]
  omega

theorem Halves.insertHalf {s : (KBucket × KBucket) × RPCCalls} (h : Halves b s.1)
    (hsucc : ((Key.mid b.minKey b.maxKey).addValue 1).toNat =
      (Key.mid b.minKey b.maxKey).toNat + 1)
    (he : b.keyInRange e.nodeId) : Halves b (KBucket.insertHalf accepts now s e).1 := by
  rw [KBucket.insertHalf]
  split
  case isTrue hl => exact h.steadyLeft (steady_insert hl)
  case isFalse hl => exact h.steadyRight (steady_insert (h.right_of_not_left hsucc he hl))

/-- **A split gives the halves of the bucket.** -/
theorem split_spec {halves : KBucket × KBucket} {srv' : RPCCalls} (hb : b.InRange)
    (hle : b.minKey ≤ b.maxKey) (h : b.split accepts now srv = some (halves, srv')) :
    Key.mid b.minKey b.maxKey ≠ b.minKey ∧ Halves b halves := by
  rw [split] at h
  split at h
  case isTrue => cases h
  case isFalse hsplit =>
    rw [not_or] at hsplit
    have hsucc := (mid_spec hle hsplit.1).2.2
    have hnew : ∀ minKey maxKey : Key, (new minKey maxKey b.ourId).InRange := fun _ _ _ hx =>
      (nomatch hx)
    have hloop : ∀ (es : List KBucketEntry) (s : (KBucket × KBucket) × RPCCalls),
        (∀ e ∈ es, b.keyInRange e.nodeId) → Halves b s.1 →
        Halves b (es.foldl (insertHalf accepts now) s).1 := by
      intro es
      induction es with
      | nil => exact fun _ _ hs => hs
      | cons e es ih =>
        intro s hes hs
        obtain ⟨he, hes⟩ := List.forall_mem_cons.mp hes
        exact ih _ hes (hs.insertHalf hsucc he)
    have hend := hloop b.entries
      ((new b.minKey (Key.mid b.minKey b.maxKey) b.ourId,
        new ((Key.mid b.minKey b.maxKey).addValue 1) b.maxKey b.ourId), srv)
      (fun e he => hb e (mem_known.mpr (.inl he)))
      ⟨rfl, rfl, rfl, rfl, ⟨rfl, rfl⟩, ⟨hnew _ _, hnew _ _⟩, ⟨Nat.zero_le _, Nat.zero_le _⟩⟩
    rw [Option.some.inj h] at hend
    exact ⟨hsplit.1, hend⟩

/-- A bucket that is to be split holds our own id, and more than twenty keys. -/
theorem splitAllowed_of_insert {b' : KBucket} {srv' : RPCCalls}
    (h : b.insert accepts now srv e = (true, b', srv')) : b' = b ∧ b.splitAllowed := by
  rw [insert] at h
  split at h
  · cases h
  · split at h
    · cases h
    · split at h
      · cases h
      · split at h
        case isTrue hsplit =>
          cases h
          exact ⟨rfl, hsplit.2⟩
        case isFalse => cases h

theorem splitAllowed_spec (hle : b.minKey.toNat + 20 < 2 ^ 160) (h : b.splitAllowed) :
    b.keyInRange b.ourId ∧ b.minKey.toNat + 20 < b.maxKey.toNat := by
  rw [splitAllowed] at h
  split at h
  case isTrue => cases h
  case isFalse hour =>
    split at h
    case isTrue => cases h
    case isFalse hsize =>
      rw [Key.le_iff, Key.toNat_addValue, show (20 : UInt8).toNat = 20 from rfl] at hsize
      rw [Bool.not_eq_true, Bool.not_eq_false'] at hour
      exact ⟨hour, by omega⟩

variable (accepts now srv) in
/-- **Inserting into a bucket of the table** leaves the bucket as it was, or the halves of a
bucket with our own id and more than twenty keys. -/
theorem insertInto_spec (hb : b.InRange) (hle : b.minKey ≤ b.maxKey)
    (hroom : b.minKey.toNat + 20 < 2 ^ 160) (he : b.keyInRange e.nodeId) :
    (∃ b', (b.insertInto accepts now srv e).1 = [b'] ∧ Steady b b') ∨
      ∃ l r, (b.insertInto accepts now srv e).1 = [l, r] ∧ Halves b (l, r) ∧
        Key.mid b.minKey b.maxKey ≠ b.minKey ∧ b.keyInRange b.ourId ∧
        b.minKey.toNat + 20 < b.maxKey.toNat := by
  have hsteady : Steady b (b.insert accepts now srv e).2.1 := steady_insert he
  rw [insertInto]
  split
  case h_1 b' srv' heq =>
    rw [heq] at hsteady
    exact .inl ⟨b', rfl, hsteady⟩
  case h_2 b' srv' heq =>
    obtain ⟨rfl, hallowed⟩ := splitAllowed_of_insert heq
    obtain ⟨hour, hsize⟩ := splitAllowed_spec hroom hallowed
    split
    case h_1 => exact .inl ⟨b', rfl, Steady.refl b'⟩
    case h_2 l r srv'' hsplit =>
      obtain ⟨hne, hhalves⟩ := split_spec hb hle hsplit
      have hsucc := (mid_spec hle hne).2.2
      split
      case isTrue hl =>
        exact .inr ⟨_, r, rfl, hhalves.steadyLeft (steady_insert hl), hne, hour, hsize⟩
      case isFalse hl =>
        have hr := hhalves.right_of_not_left hsucc he hl
        exact .inr ⟨l, _, rfl, hhalves.steadyRight (steady_insert hr), hne, hour, hsize⟩

end KBucket

/-! ## The file -/

/-- The key and the address of an entry are read from what was saved, and it is new then. -/
def KBucketEntry.reloaded (now : UInt64) (e : KBucketEntry) : KBucketEntry := .new now e.addr e.nodeId

/-- The bucket that is read from what was saved. -/
def KBucket.reloaded (now : UInt64) (b : KBucket) : KBucket :=
  { KBucket.new b.minKey b.maxKey b.ourId with entries := b.entries.map (·.reloaded now) }

/-- An address is read back, by the reader for its length. -/
theorem Address.ofBytes_bytes (a : Address) :
    (if a.writeCompact.length = 6 then fromCompactIPv4 a.writeCompact
      else fromCompactIPv6 a.writeCompact) = some a := by
  have hread := a.fromCompact_writeCompact
  rw [a.writeCompact_length]
  cases hv : a.ipVersion with
  | v4 =>
    rw [hv] at hread
    exact hread
  | v6 =>
    rw [hv] at hread
    exact hread

namespace KBucket

variable {now : UInt64} {b : KBucket}

theorem loadEntries_save (now : UInt64) : ∀ (es : List KBucketEntry) (nodes : List BNode),
    BTree.EqualsItems (es.map KBucketEntry.save) nodes →
    loadEntries now nodes = .ok (es.map (·.reloaded now)) := by
  intro es
  induction es with
  | nil =>
    intro nodes h
    match nodes, h with
    | [], _ => rfl
  | cons e es ih =>
    intro nodes h
    match nodes, h with
    | .dict entry bytes :: nodes, ⟨he, hes⟩ =>
      have hentry : BTree.EqualsEntries
          [(bkey "id", .string e.nodeId.bytes), (bkey "address", .string e.addr.bytes)] entry := he
      have hid := hentry.getByteArrayView (ascii "id") (s := e.nodeId.bytes) rfl
      have haddr := hentry.getByteArrayView (ascii "address") (s := e.addr.bytes) rfl
      have hread := e.addr.ofBytes_bytes
      simp only [loadEntries, BNode.asDict, hid, haddr, ih nodes hes, Except.bind, bind, pure,
        Except.pure]
      rw [show e.addr.bytes.1 = e.addr.writeCompact from rfl, hread,
        show Key.ofBytes e.nodeId.bytes.1 = e.nodeId from Key.ofBytes_hash e.nodeId]
      rfl

theorem load_save {dict : BDictNode} {bytes : List UInt8}
    (h : b.save.Equals (.dict dict bytes)) : load now b.ourId dict = .ok (b.reloaded now) := by
  have hdict : BTree.EqualsEntries
      [(bkey "min", .string b.minKey.bytes), (bkey "max", .string b.maxKey.bytes),
        (bkey "entries", .list (b.entries.map KBucketEntry.save))] dict := h
  have hmin := hdict.getByteArrayView (ascii "min") (s := b.minKey.bytes) rfl
  have hmax := hdict.getByteArrayView (ascii "max") (s := b.maxKey.bytes) rfl
  obtain ⟨nodes, hnodes, hitems⟩ := hdict.getList (ascii "entries") rfl
  have hentries := loadEntries_save now b.entries nodes hitems
  simp only [load, hmin, hmax, hnodes, Option.getD_some, hentries, Except.bind, bind, pure,
    Except.pure]
  rw [show Key.ofBytes b.minKey.bytes.1 = b.minKey from Key.ofBytes_hash b.minKey,
    show Key.ofBytes b.maxKey.bytes.1 = b.maxKey from Key.ofBytes_hash b.maxKey]
  rfl

theorem steady_reloaded : Steady b (b.reloaded now) := by
  refine steady_of_known rfl rfl rfl (fun h => ?_) fun x hx => ?_
  · rw [reloaded, List.length_map]
    exact h
  · rcases mem_known.mp hx with hx | hx | hx
    · obtain ⟨e, he, rfl⟩ := List.mem_map.mp hx
      exact .inr ⟨e, mem_known.mpr (.inl he), rfl⟩
    · cases hx
    · cases hx

/-! ### Its size -/

/-- A string of less than a hundred bytes has a length of at most two digits. -/
theorem encodeBytes_length_le {s : List UInt8} (h : s.length < 100) :
    (BTree.encodeBytes s).length ≤ s.length + 3 := by
  have hdigits : (number s.length).length ≤ 2 := by
    by_cases hn : s.length < 10
    · rw [number_of_lt hn]
      exact one_le_two
    · rw [number_of_ge (Nat.le_of_not_lt hn), number_of_lt (by omega)]
      exact le_rfl
  rw [BTree.encodeBytes, List.length_append, List.length_cons]
  omega

theorem encodeItems_length_le {n : ℕ} : ∀ (ts : List BTree), (∀ t ∈ ts, t.encode.length ≤ n) →
    (BTree.encodeItems ts).length ≤ ts.length * n := by
  intro ts
  induction ts with
  | nil => exact fun _ => Nat.zero_le _
  | cons t ts ih =>
    intro h
    obtain ⟨ht, hts⟩ := List.forall_mem_cons.mp h
    have hrest := ih hts
    rw [BTree.encodeItems, List.length_append, List.length_cons, Nat.succ_mul]
    omega

theorem saveEntry_length_le (e : KBucketEntry) : e.save.encode.length ≤ 70 := by
  have hid := encodeBytes_length_le (s := e.nodeId.1) (by rw [e.nodeId.2]; decide)
  have hkey := e.nodeId.2
  have haddr : e.addr.writeCompact.length ≤ 18 := by
    rw [e.addr.writeCompact_length]
    cases e.addr.ipVersion <;> decide
  have hcompact := encodeBytes_length_le (s := e.addr.writeCompact) (by omega)
  have hk₁ : (BTree.encodeBytes (bkey "id").1).length = 4 := by decide
  have hk₂ : (BTree.encodeBytes (bkey "address").1).length = 9 := by decide
  simp only [KBucketEntry.save, BTree.encode, BTree.encodeEntries, List.length_cons,
    List.length_append, List.length_nil, hk₁, hk₂, Key.bytes, Address.bytes]
  omega

theorem save_length_le (h : b.entries.length ≤ bucketK) : b.save.encode.length ≤ 1500 := by
  have hmin := encodeBytes_length_le (s := b.minKey.1) (by rw [b.minKey.2]; decide)
  have hmax := encodeBytes_length_le (s := b.maxKey.1) (by rw [b.maxKey.2]; decide)
  have hminLen := b.minKey.2
  have hmaxLen := b.maxKey.2
  have hitems := encodeItems_length_le (n := 70) (b.entries.map KBucketEntry.save) (by
    intro t ht
    obtain ⟨e, -, rfl⟩ := List.mem_map.mp ht
    exact saveEntry_length_le e)
  rw [List.length_map] at hitems
  have hk₁ : (BTree.encodeBytes (bkey "min").1).length = 5 := by decide
  have hk₂ : (BTree.encodeBytes (bkey "max").1).length = 5 := by decide
  have hk₃ : (BTree.encodeBytes (bkey "entries").1).length = 9 := by decide
  rw [bucketK] at h
  simp only [save, BTree.encode, BTree.encodeEntries, List.length_cons, List.length_append,
    List.length_nil, hk₁, hk₂, hk₃, Key.bytes]
  omega

end KBucket

namespace KBucketTable

variable {accepts : ℕ → Bool} {t t' : KBucketTable} {srv : RPCCalls}

theorem loadBuckets_save (now : UInt64) (ourId : Key) : ∀ (bs : List KBucket) (nodes : List BNode),
    (∀ b ∈ bs, b.ourId = ourId) → BTree.EqualsItems (bs.map KBucket.save) nodes →
    loadBuckets now ourId nodes = bs.map (·.reloaded now) := by
  intro bs
  induction bs with
  | nil =>
    intro nodes _ h
    match nodes, h with
    | [], _ => rfl
  | cons b bs ih =>
    intro nodes hid h
    match nodes, h with
    | .dict dict bytes :: nodes, ⟨hb, hbs⟩ =>
      obtain ⟨rfl, hid⟩ := List.forall_mem_cons.mp hid
      have hload : KBucket.load now b.ourId dict = .ok (b.reloaded now) := KBucket.load_save hb
      simp only [loadBuckets, BNode.asDict, hload, ih nodes hid hbs, List.map_cons]

/-- **The table is loaded as it was saved**, if it is not too large for the decoder. -/
theorem load_save (now : UInt64) (t : KBucketTable) (hid : ∀ b ∈ t.buckets, b.ourId = t.ourId)
    (hsize : t.save.length < 2 ^ 32) :
    (new t.ourId).load now t.save = { t with buckets := t.buckets.map (·.reloaded now) } := by
  obtain ⟨node, hnode, hdec⟩ := BTree.decode_emitted (.list (t.buckets.map KBucket.save)) hsize
  match node, hnode with
  | .list children bytes, hnode =>
    rw [load, save, hdec]
    dsimp only
    rw [new, List.nil_append, loadBuckets_save now t.ourId t.buckets children hid hnode]

/-! ## The invariant -/

/-- The ranges of buckets. -/
def ranges (bs : List KBucket) : List (ℕ × ℕ) := bs.map fun b => (b.minKey.toNat, b.maxKey.toNat)

/-- There are few ranges: each time that one was split it had the own id, and not more than half
of it is in the part that has the own id now. -/
def Few (own : ℕ) (rs : List (ℕ × ℕ)) : Prop :=
  rs.length ≤ 1 ∨ ∃ r ∈ rs, r.1 ≤ own ∧ own ≤ r.2 ∧ 1 ≤ r.2 - r.1 ∧
    2 ^ (rs.length - 1) * (r.2 - r.1) ≤ 2 ^ 160

/-- What every step of the table keeps. -/
structure TableInv (t : KBucketTable) : Prop where
  tiles : t.buckets = [] ∨ Tiles Prod.fst Prod.snd 0 (ranges t.buckets) (Key.max.toNat + 1)
  few : Few t.ourId.toNat (ranges t.buckets)
  ourId : ∀ b ∈ t.buckets, b.ourId = t.ourId
  inRange : ∀ b ∈ t.buckets, b.InRange
  room : ∀ b ∈ t.buckets, b.entries.length ≤ bucketK

theorem Few.length_le {own : ℕ} {rs : List (ℕ × ℕ)} (h : Few own rs) : rs.length ≤ 161 := by
  obtain h | ⟨r, -, -, -, hspan, hle⟩ := h
  · omega
  · have hpow : 2 ^ (rs.length - 1) ≤ 2 ^ 160 := (Nat.le_mul_of_pos_right _ hspan).trans hle
    have hexp := (Nat.pow_le_pow_iff_right one_lt_two).mp hpow
    omega

/-- The file of the table is small. -/
theorem TableInv.save_length (h : TableInv t) : t.save.length < 2 ^ 32 := by
  have hcount := h.few.length_le
  rw [ranges, List.length_map] at hcount
  have hitems := KBucket.encodeItems_length_le (n := 1500) (t.buckets.map KBucket.save) (by
    intro tree htree
    obtain ⟨b, hb, rfl⟩ := List.mem_map.mp htree
    exact KBucket.save_length_le (h.room b hb))
  rw [List.length_map] at hitems
  rw [save, BTree.emitted_eq, BTree.encode, List.length_cons, List.length_append,
    List.length_singleton]
  omega

theorem ranges_of_steady {bs bs' : List KBucket} (h : List.Forall₂ KBucket.Steady bs bs') :
    ranges bs' = ranges bs := by
  induction h with
  | nil => rfl
  | cons hb _ ih =>
    rw [ranges, List.map_cons, ← ranges, ih, hb.minKey, hb.maxKey]
    rfl

theorem steady_mem {bs bs' : List KBucket} (h : List.Forall₂ KBucket.Steady bs bs') :
    ∀ b' ∈ bs', ∃ b ∈ bs, KBucket.Steady b b' := by
  induction h with
  | nil => exact fun _ hb' => (nomatch hb')
  | cons hb _ ih =>
    rintro b' hb'
    rcases List.mem_cons.mp hb' with rfl | hb'
    · exact ⟨_, List.mem_cons_self, hb⟩
    · obtain ⟨b, hmem, hsb⟩ := ih b' hb'
      exact ⟨b, List.mem_cons_of_mem _ hmem, hsb⟩

theorem steady_refl (bs : List KBucket) : List.Forall₂ KBucket.Steady bs bs :=
  List.forall₂_same.mpr fun b _ => KBucket.Steady.refl b

/-- Buckets that were steady keep the invariant. -/
theorem TableInv.steady (h : TableInv t) (hid : t'.ourId = t.ourId)
    (hs : List.Forall₂ KBucket.Steady t.buckets t'.buckets) : TableInv t' := by
  have hranges := ranges_of_steady hs
  have hmem := steady_mem hs
  refine ⟨?_, ?_, ?_, ?_, ?_⟩
  · rw [hranges]
    refine h.tiles.imp_left fun hnil => ?_
    rw [hnil] at hs
    exact List.forall₂_nil_left_iff.mp hs
  · rw [hid, hranges]
    exact h.few
  · intro b' hb'
    obtain ⟨b, hb, hsb⟩ := hmem b' hb'
    rw [hsb.ourId, hid, h.ourId b hb]
  · intro b' hb'
    obtain ⟨b, hb, hsb⟩ := hmem b' hb'
    exact hsb.inRange (h.inRange b hb)
  · intro b' hb'
    obtain ⟨b, hb, hsb⟩ := hmem b' hb'
    exact hsb.room (h.room b hb)

/-- The ranges around the one that is split. -/
theorem ranges_append (before bs after : List KBucket) :
    ranges (before ++ (bs ++ after)) = ranges before ++ (ranges bs ++ ranges after) := by
  rw [ranges, List.map_append, List.map_append]
  rfl

/-- The halves of a range tile what it tiled. -/
theorem tiles_split {pre post : List (ℕ × ℕ)} {lo hi a m b : ℕ}
    (h : Tiles Prod.fst Prod.snd lo (pre ++ ([(a, b)] ++ post)) hi) (ham : a ≤ m) (hmb : m < b) :
    Tiles Prod.fst Prod.snd lo (pre ++ ([(a, m), (m + 1, b)] ++ post)) hi := by
  obtain ⟨mid, hpre, hmid⟩ := tiles_append.mp h
  obtain ⟨hstart, -, hpost⟩ := hmid
  exact tiles_append.mpr ⟨mid, hpre, hstart, ham, rfl, hmb, hpost⟩

/-- The half with our own id is not more than half of the range. -/
theorem few_split {pre post : List (ℕ × ℕ)} {own lo hi a m b : ℕ}
    (htiles : Tiles Prod.fst Prod.snd lo (pre ++ ([(a, b)] ++ post)) hi)
    (h : Few own (pre ++ ([(a, b)] ++ post))) (hown : a ≤ own ∧ own ≤ b) (hsize : a + 20 < b)
    (hb : b < 2 ^ 160) (hm : m = a + (b - a) / 2) :
    Few own (pre ++ ([(a, m), (m + 1, b)] ++ post)) := by
  have hmem : (a, b) ∈ pre ++ ([(a, b)] ++ post) :=
    List.mem_append_right _ (List.mem_append_left _ List.mem_cons_self)
  -- before the split the range with our own id was the one that is split
  have hspan : 2 ^ (pre.length + post.length) * (b - a) ≤ 2 ^ 160 := by
    obtain hone | ⟨r, hr, hr₁, hr₂, -, hle⟩ := h
    · simp only [List.length_append, List.length_singleton] at hone
      have hzero : pre.length + post.length = 0 := by omega
      rw [hzero, pow_zero, one_mul]
      omega
    · have hsame : r = (a, b) := htiles.unique hr hmem ⟨hr₁, hr₂⟩ hown
      rw [hsame] at hle
      simp only [List.length_append, List.length_singleton] at hle
      rwa [show pre.length + (1 + post.length) - 1 = pre.length + post.length by omega] at hle
  have hlen : (pre ++ ([(a, m), (m + 1, b)] ++ post)).length - 1 = pre.length + post.length + 1 := by
    simp only [List.length_append, List.length_cons, List.length_nil]
    omega
  -- so the half has at most half of its numbers
  have hhalf : ∀ d, 2 * d ≤ b - a → 2 ^ (pre.length + post.length + 1) * d ≤ 2 ^ 160 := by
    intro d hd
    calc 2 ^ (pre.length + post.length + 1) * d = 2 ^ (pre.length + post.length) * (2 * d) := by ring
      _ ≤ 2 ^ (pre.length + post.length) * (b - a) := Nat.mul_le_mul_left _ hd
      _ ≤ 2 ^ 160 := hspan
  refine .inr ?_
  rw [hlen]
  by_cases hleft : own ≤ m
  · refine ⟨(a, m), by simp, hown.1, hleft, ?_, hhalf _ ?_⟩ <;> dsimp only <;> omega
  · refine ⟨(m + 1, b), by simp, by dsimp only; omega, hown.2, ?_, hhalf _ ?_⟩ <;> dsimp only <;> omega

/-! ## The steps -/

theorem TableInv.firstBucket (h : TableInv t) :
    TableInv t.firstBucket ∧
      Tiles Prod.fst Prod.snd 0 (ranges t.firstBucket.buckets) (Key.max.toNat + 1) := by
  rw [KBucketTable.firstBucket]
  by_cases hnil : t.buckets = []
  · rw [hnil, List.isEmpty_nil, if_pos rfl]
    have htiles : Tiles Prod.fst Prod.snd 0
        (ranges [KBucket.new Key.min Key.max t.ourId]) (Key.max.toNat + 1) :=
      ⟨Key.toNat_min, Key.le_iff.mp (Key.min_le _), rfl⟩
    refine ⟨⟨.inr htiles, .inl le_rfl, ?_, ?_, ?_⟩, htiles⟩
    · exact fun b hb => by rw [List.mem_singleton.mp hb]; rfl
    · exact fun b hb e he => by rw [List.mem_singleton.mp hb] at he; cases he
    · exact fun b hb => by rw [List.mem_singleton.mp hb]; exact Nat.zero_le _
  · rw [if_neg (by simpa using hnil)]
    exact ⟨h, h.tiles.resolve_left hnil⟩

theorem findBucket_some {id : Key} {before after : List KBucket} {b : KBucket}
    (h : t.findBucket id = some (before, b, after)) :
    t.buckets = before ++ b :: after ∧ b.keyInRange id := by
  rw [findBucket, List.span_eq_takeWhile_dropWhile] at h
  split at h
  case h_1 => cases h
  case h_2 before' b' after' heq =>
    cases h
    obtain ⟨hbefore, hafter⟩ := Prod.mk.inj heq
    have hhead := List.head?_dropWhile_not (fun b : KBucket => !b.keyInRange id) t.buckets
    rw [hafter] at hhead
    refine ⟨?_, by simpa using hhead⟩
    rw [← hbefore, ← hafter, List.takeWhile_append_dropWhile]

theorem findBucket_none {id : Key} :
    t.findBucket id = none ↔ ∀ b ∈ t.buckets, ¬ b.keyInRange id := by
  rw [findBucket, List.span_eq_takeWhile_dropWhile]
  constructor
  · intro h
    split at h
    case h_1 before heq =>
      have hall := List.dropWhile_eq_nil_iff.mp (Prod.mk.inj heq).2
      exact fun b hb hin => by simpa [hin] using hall b hb
    case h_2 => cases h
  · intro h
    have hnil : t.buckets.dropWhile (fun b => !b.keyInRange id) = [] :=
      List.dropWhile_eq_nil_iff.mpr fun b hb => by simpa using h b hb
    rw [hnil]

theorem forall₂_around {before after : List KBucket} {b b' : KBucket} (h : KBucket.Steady b b') :
    List.Forall₂ KBucket.Steady (before ++ b :: after) (before ++ ([b'] ++ after)) :=
  List.rel_append (steady_refl before) (.cons h (steady_refl after))

/-- **Inserting a node keeps the invariant.** -/
theorem TableInv.insert {now : UInt64} {e : KBucketEntry} (h : TableInv t) :
    TableInv (t.insert accepts now srv e).1 := by
  obtain ⟨hfirst, htiles⟩ := h.firstBucket
  rw [KBucketTable.insert]
  generalize t.firstBucket = t at hfirst htiles ⊢
  split
  case h_1 => exact hfirst
  case h_2 before b after heq =>
    obtain ⟨hbuckets, hin⟩ := findBucket_some heq
    have hmem : b ∈ t.buckets := hbuckets ▸ List.mem_append_right _ List.mem_cons_self
    have hranges : ranges t.buckets = ranges before ++
        ([(b.minKey.toNat, b.maxKey.toNat)] ++ ranges after) := by
      rw [hbuckets]
      exact ranges_append before [b] after
    have hbound := htiles.bounds (a := (b.minKey.toNat, b.maxKey.toNat))
      (hranges ▸ List.mem_append_right _ (List.mem_append_left _ List.mem_cons_self))
    have hmax := Key.toNat_max
    dsimp only at hbound ⊢
    have hsize : b.minKey.toNat + 20 < 2 ^ 160 := by omega
    obtain ⟨b', hnew, hsteady⟩ | ⟨l, r, hnew, hhalves, hne, hour, hspan⟩ :=
      KBucket.insertInto_spec accepts now srv
        (hfirst.inRange b hmem) (Key.le_iff.mpr hbound.2.1) hsize hin
    · refine hfirst.steady (by rfl) ?_
      rw [hnew, hbuckets]
      exact forall₂_around hsteady
    · obtain ⟨hmid, hlt, hsucc⟩ := KBucket.mid_spec (Key.le_iff.mpr hbound.2.1) hne
      have hown := KBucket.keyInRange_iff.mp hour
      rw [hfirst.ourId b hmem] at hown
      have hsplit : ranges (before ++ ([l, r] ++ after)) = ranges before ++
          ([(b.minKey.toNat, (Key.mid b.minKey b.maxKey).toNat),
            ((Key.mid b.minKey b.maxKey).toNat + 1, b.maxKey.toNat)] ++ ranges after) := by
        have hl₁ : l.minKey = b.minKey := hhalves.leftMin
        have hl₂ : l.maxKey = Key.mid b.minKey b.maxKey := hhalves.leftMax
        have hr₁ : r.minKey = (Key.mid b.minKey b.maxKey).addValue 1 := hhalves.rightMin
        have hr₂ : r.maxKey = b.maxKey := hhalves.rightMax
        rw [ranges_append, ← hsucc, ← hr₁, ← hl₂, ← hl₁, ← hr₂]
        rfl
      have hfew := hfirst.few
      rw [hranges] at htiles hfew
      rw [hnew]
      -- of every bucket but the halves we know what we knew before
      have hall : ∀ P : KBucket → Prop, (∀ x ∈ t.buckets, P x) → P l → P r →
          ∀ x ∈ before ++ ([l, r] ++ after), P x := by
        intro P hP hl hr x hx
        rw [hbuckets] at hP
        simp only [List.mem_append, List.mem_cons, List.not_mem_nil, or_false] at hx hP
        rcases hx with hx | (rfl | rfl) | hx
        · exact hP x (.inl hx)
        · exact hl
        · exact hr
        · exact hP x (.inr (.inr hx))
      refine ⟨.inr ?_, ?_, ?_, ?_, ?_⟩
      · rw [hsplit]
        exact tiles_split htiles (by omega) hlt
      · rw [hsplit]
        exact few_split htiles hfew hown hspan b.maxKey.toNat_lt hmid
      · refine hall _ hfirst.ourId ?_ ?_
        · exact hhalves.ourId.1.trans (hfirst.ourId b hmem)
        · exact hhalves.ourId.2.trans (hfirst.ourId b hmem)
      · exact hall _ hfirst.inRange hhalves.inRange.1 hhalves.inRange.2
      · exact hall _ hfirst.room hhalves.room.1 hhalves.room.2

theorem steady_toBucket {f : KBucket → RPCCalls → KBucket × RPCCalls} {c : PingCall}
    (hf : ∀ b srv, b.InRange → KBucket.Steady b (f b srv).1) : ∀ (bs : List KBucket) (srv : RPCCalls),
    (∀ b ∈ bs, b.InRange) → List.Forall₂ KBucket.Steady bs (toBucket f c bs srv).1 := by
  intro bs
  induction bs with
  | nil => exact fun _ _ => .nil
  | cons b bs ih =>
    intro srv hin
    obtain ⟨hb, hbs⟩ := List.forall_mem_cons.mp hin
    rw [toBucket]
    split
    · exact .cons (hf b srv hb) (steady_refl bs)
    · exact .cons (KBucket.Steady.refl b) (ih srv hbs)

theorem steady_timeoutLoop (addr : Address) (bs : List KBucket) :
    List.Forall₂ KBucket.Steady bs (timeoutLoop addr bs) := by
  induction bs with
  | nil => exact .nil
  | cons b bs ih =>
    rw [timeoutLoop]
    split
    · exact .cons (KBucket.steady_timeout addr) (steady_refl bs)
    · exact .cons (KBucket.Steady.refl b) ih

/-- **The step lemma.** -/
theorem TableInv.step {s : KBucketTable × RPCCalls} (h : TableInv s.1) (ev : Event) :
    TableInv (KBucketTable.step accepts s ev).1 := by
  cases ev with
  | insert now e => exact h.insert
  | response now c =>
    exact h.steady rfl (steady_toBucket (fun _ _ hb => KBucket.steady_onResponse hb) _ _ h.inRange)
  | callTimeout now c =>
    exact h.steady rfl (steady_toBucket (fun _ _ hb => KBucket.steady_onTimeout hb) _ _ h.inRange)
  | timeout addr => exact h.steady rfl (steady_timeoutLoop addr _)
  | reload now =>
    rw [KBucketTable.step, load_save now s.1 h.ourId h.save_length]
    refine h.steady rfl ?_
    exact List.forall₂_map_right_iff.mpr
      (List.forall₂_same.mpr fun b _ => KBucket.steady_reloaded)

theorem tableInv_new (ourId : Key) : TableInv (new ourId) :=
  ⟨.inl rfl, .inl (Nat.zero_le _), fun _ hb => (nomatch hb), fun _ hb => (nomatch hb),
    fun _ hb => (nomatch hb)⟩

/-! ## The law -/

/-- Every key is in the range of exactly one bucket. -/
def CoversAll (t : KBucketTable) : Prop := ∀ k : Key, t.buckets.countP (·.keyInRange k) = 1

/-- **The law of the table.**  The buckets are in increasing order; once there is one, every key
up to `Key.max` is in exactly one of them, and no other key is in any; every entry is in the
range of its bucket; and inserting a node finds no bucket exactly for a key behind `Key.max`. -/
structure TableLaw (t : KBucketTable) : Prop where
  increasing : t.buckets.Pairwise fun a b => a.maxKey < b.minKey
  covers : t.buckets ≠ [] → ∀ k ≤ Key.max, t.buckets.countP (·.keyInRange k) = 1
  behind : ∀ k, Key.max < k → t.buckets.countP (·.keyInRange k) = 0
  entries : ∀ b ∈ t.buckets, ∀ e ∈ b.entries, b.keyInRange e.nodeId
  found : ∀ id, t.firstBucket.findBucket id = none ↔ Key.max < id

theorem countP_ranges (bs : List KBucket) (k : Key) :
    (ranges bs).countP (covers Prod.fst Prod.snd k.toNat) = bs.countP (·.keyInRange k) := by
  rw [ranges, List.countP_map]
  refine List.countP_congr fun b _ => ?_
  rw [KBucket.keyInRange_iff]
  exact decide_eq_true_iff

theorem TableInv.law (h : TableInv t) : TableLaw t := by
  obtain ⟨hfirst, htiles⟩ := h.firstBucket
  refine ⟨?_, ?_, ?_, fun b hb e he => h.inRange b hb e (KBucket.mem_known.mpr (.inl he)), ?_⟩
  · obtain hnil | ht := h.tiles
    · rw [hnil]
      exact List.Pairwise.nil
    · exact (List.pairwise_map.mp ht.pairwise).imp Key.lt_iff.mpr
  · intro hne k hk
    have hlt := Key.le_iff.mp hk
    rw [← countP_ranges]
    exact (h.tiles.resolve_left fun hnil => hne hnil).countP_inside (Nat.zero_le _) (by omega)
  · intro k hk
    have hlt := Key.lt_iff.mp hk
    obtain hnil | ht := h.tiles
    · rw [hnil]
      rfl
    · rw [← countP_ranges]
      exact ht.countP_outside (.inr hlt)
  · intro id
    rw [findBucket_none, ← List.countP_eq_zero (p := fun b : KBucket => b.keyInRange id),
      ← countP_ranges]
    constructor
    · intro hzero
      by_contra hle
      have hle' : id.toNat ≤ Key.max.toNat := by rwa [Key.lt_iff, Nat.not_lt] at hle
      rw [htiles.countP_inside (Nat.zero_le _) (by omega)] at hzero
      exact absurd hzero one_ne_zero
    · exact fun hlt => htiles.countP_outside (.inr (Key.lt_iff.mp hlt))

/-- The key of twenty bytes `FF`. -/
def allOnes : Key := ⟨List.replicate 20 0xFF, rfl⟩

/-- **The table covers the keys up to `Key.max`, and never all keys.**  `Key.max` is `FF`
followed by zeros. -/
theorem allStates_tableLaw (accepts : ℕ → Bool) (ourId : Key) (evs : List Event) :
    AllStates (step accepts) (fun s => ¬ CoversAll s.1 ∧ TableLaw s.1) (new ourId, ⟨0, []⟩) evs := by
  have hinv : AllStates (step accepts) (fun s => TableInv s.1) (new ourId, ⟨0, []⟩) evs :=
    allStates_of_step (fun _ ev h => h.step ev) evs _ (tableInv_new ourId)
  refine hinv.mono fun s hs => ⟨fun hall => ?_, hs.law⟩
  have hnone := hs.law.behind allOnes (by decide)
  rw [hall allOnes] at hnone
  exact absurd hnone one_ne_zero

/-- The first node that is inserted makes a bucket, which does not have the last key. -/
theorem firstNode_not_coversAll :
    ¬ CoversAll (run (step fun _ => true) (new Key.min, ⟨0, []⟩)
      [.insert 0 (KBucket.nodeAt 0 1)]).1 :=
  fun h => absurd (h allOnes) (by decide +kernel)

end KBucketTable

end KTorrent
