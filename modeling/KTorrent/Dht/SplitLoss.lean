import KTorrent.Dht.TableLaw

/-!
# Nodes that are lost in a split

A full bucket with our own id is split, and the new node is inserted into its
half.  When all entries were on that side, the half is full as well: its `insert`
asks for another split, and nobody listens.

* `Gathered` — the bucket has taken nodes while it had room for them.
* `split_gathered` — each half gathers the entries in its range.
* `Crowded` — all entries are on the side of the new node, which may be split again.
* `insert_kept_iff` — a node is lost exactly when its bucket is crowded.
-/

namespace KTorrent

open Runs

namespace KBucket

variable {accepts : ℕ → Bool} {now : UInt64} {b b' b'' : KBucket} {srv : RPCCalls}
  {e : KBucketEntry} {es es' : List KBucketEntry}

/-! ## Room -/

/-- The bucket has taken the nodes while it had room for them. -/
structure Gathered (es : List KBucketEntry) (b b' : KBucket) : Prop where
  minKey : b'.minKey = b.minKey
  maxKey : b'.maxKey = b.maxKey
  ourId : b'.ourId = b.ourId
  distinct : b.nodes.Nodup → b'.nodes.Nodup
  nodes : ∀ n, n ∈ b'.nodes ↔ n ∈ b.nodes ∨ n ∈ es.map KBucketEntry.node
  entries : ∀ x ∈ b'.entries, x ∈ b.entries ∨ x ∈ es
  length : b'.entries.length ≤ b.entries.length + es.length

theorem Gathered.refl (b : KBucket) : Gathered [] b b :=
  ⟨rfl, rfl, rfl, id, fun n => by simp, fun x hx => .inl hx, le_rfl⟩

theorem Gathered.trans (h : Gathered es b b') (h' : Gathered es' b' b'') :
    Gathered (es ++ es') b b'' where
  minKey := h'.minKey.trans h.minKey
  maxKey := h'.maxKey.trans h.maxKey
  ourId := h'.ourId.trans h.ourId
  distinct hb := h'.distinct (h.distinct hb)
  nodes n := by rw [h'.nodes, h.nodes, List.map_append, List.mem_append, or_assoc]
  entries x hx := by
    rw [List.mem_append]
    rcases h'.entries x hx with hx | hx
    · exact (h.entries x hx).imp_right .inl
    · exact .inr (.inr hx)
  length := by
    have h₁ := h.length
    have h₂ := h'.length
    rw [List.length_append]
    omega

theorem Gathered.keyInRange (h : Gathered es b b') (k : Key) : b'.keyInRange k = b.keyInRange k := by
  rw [KBucket.keyInRange, KBucket.keyInRange, h.minKey, h.maxKey]

theorem Gathered.splitAllowed (h : Gathered es b b') : b'.splitAllowed = b.splitAllowed := by
  rw [KBucket.splitAllowed, KBucket.splitAllowed, h.keyInRange, h.minKey, h.maxKey, h.ourId]

theorem any_same_iff : b.entries.any e.same ↔ e.node ∈ b.nodes := by
  rw [List.any_eq_true, nodes, List.mem_map]
  exact exists_congr fun x => and_congr_right fun _ => decide_eq_true_iff.trans eq_comm

/-- A node that is there already is moved to the end. -/
theorem mem_replaceSame (n : Address × Key) :
    n ∈ (replaceFirst e.same e b.entries).map KBucketEntry.node ↔ n ∈ b.nodes ∨ n = e.node := by
  rw [replaceFirst, List.map_append, List.mem_append, List.map_singleton, List.mem_singleton]
  constructor
  · exact Or.imp_left fun h => (List.eraseP_sublist.map KBucketEntry.node).subset h
  · rintro (h | h)
    · by_cases hne : n = e.node
      · exact .inr hne
      · obtain ⟨x, hx, rfl⟩ := List.mem_map.mp h
        have hdiff : ¬ e.same x := fun hs => hne (of_decide_eq_true hs).symm
        exact .inl (List.mem_map_of_mem ((List.mem_eraseP_of_neg hdiff).mpr hx))
    · exact .inr h

variable (accepts now srv) in
/-- **Inserting into a bucket with room**, or with the node already. -/
theorem insert_gathered (h : e.node ∈ b.nodes ∨ b.entries.length < bucketK) :
    Gathered [e] b (b.insert accepts now srv e).2.1 ∧ e ∈ (b.insert accepts now srv e).2.1.entries ∧
      (b.insert accepts now srv e).2.2 = srv := by
  have hdistinct : b.nodes.Nodup → (b.insert accepts now srv e).2.1.nodes.Nodup := distinct_insert
  rw [insert] at hdistinct ⊢
  by_cases hmem : e.node ∈ b.nodes
  · have hany : b.entries.any e.same := any_same_iff.mpr hmem
    rw [if_pos hany] at hdistinct ⊢
    refine ⟨⟨rfl, rfl, rfl, hdistinct, fun n => ?_, fun x hx => ?_, ?_⟩, ?_, rfl⟩
    · rw [List.map_singleton, List.mem_singleton]
      exact mem_replaceSame n
    · rw [List.mem_singleton]
      exact mem_replaceFirst hx
    · exact (replaceFirst_length hany).le.trans (Nat.le_add_right _ _)
    · exact List.mem_append_right _ (List.mem_singleton_self e)
  · have hany : ¬ b.entries.any e.same := fun h => hmem (any_same_iff.mp h)
    rw [if_neg hany, if_pos (h.resolve_left hmem)] at hdistinct ⊢
    refine ⟨⟨rfl, rfl, rfl, hdistinct, fun n => ?_, fun x hx => List.mem_append.mp hx, ?_⟩, ?_, rfl⟩
    · rw [nodes, List.map_append, List.mem_append]
      rfl
    · rw [List.length_append]
    · exact List.mem_append_right _ (List.mem_singleton_self e)

/-! ## Full buckets -/

/-- All entries are good. -/
def AllGood (now : UInt64) (b : KBucket) : Prop := ∀ x ∈ b.entries, x.isGood now

theorem AllGood.not_any_isBad (h : b.AllGood now) : ¬ b.entries.any (·.isBad now) := by
  rw [List.any_eq_true]
  rintro ⟨x, hx, hbad⟩
  rw [KBucketEntry.isBad, h x hx] at hbad
  cases hbad

variable (accepts srv) in
/-- **Inserting into a full bucket of good nodes.** -/
theorem insert_full (hgood : b.AllGood now) (hnew : e.node ∉ b.nodes)
    (hfull : b.entries.length = bucketK) :
    b.insert accepts now srv e =
      if b.splitAllowed then (true, b, srv) else (false, b.pingQuestionable accepts now srv e) := by
  have hany : ¬ b.entries.any e.same := fun h => hnew (any_same_iff.mp h)
  rw [insert, if_neg hany, if_neg hfull.ge.not_gt, replaceBadEntry, if_neg hgood.not_any_isBad]
  dsimp only
  by_cases hsplit : b.splitAllowed
  · rw [if_pos ⟨hfull, hsplit⟩, if_pos hsplit]
  · rw [if_neg fun h => hsplit h.2, if_neg hsplit]

/-- The bucket is full and may not be split. -/
def Refuses (b : KBucket) : Prop := b.entries.length = bucketK ∧ ¬ b.splitAllowed

variable (accepts now srv) in
theorem refuses_pingQuestionable (he : b.keyInRange e.nodeId) (h : b.Refuses) :
    (b.pingQuestionable accepts now srv e).1.Refuses ∧
      (b.pingQuestionable accepts now srv e).1.keyInRange e.nodeId := by
  have hsteady : Steady b (b.pingQuestionable accepts now srv e).1 := steady_pingQuestionable he
  have hnodes := (pingQuestionable_cases accepts now b srv e).1
  have hlen : (b.pingQuestionable accepts now srv e).1.entries.length = b.entries.length := by
    simpa [nodes] using congrArg List.length hnodes
  refine ⟨⟨hlen.trans h.1, ?_⟩, ?_⟩
  · rw [splitAllowed, keyInRange, hsteady.minKey, hsteady.maxKey, hsteady.ourId]
    exact h.2
  · rw [keyInRange, hsteady.minKey, hsteady.maxKey]
    exact he

/-! ## The halves -/

/-- The half of the bucket that gets the nodes with a key, while it is empty. -/
def half (b : KBucket) (k : Key) : KBucket :=
  let m := Key.mid b.minKey b.maxKey
  let left := new b.minKey m b.ourId
  if left.keyInRange k then left else new (m.addValue 1) b.maxKey b.ourId

/-- The entries that go to the half with a key. -/
def beside (b : KBucket) (k : Key) : List KBucketEntry :=
  b.entries.filter fun x => (new b.minKey (Key.mid b.minKey b.maxKey) b.ourId).keyInRange x.nodeId =
    (new b.minKey (Key.mid b.minKey b.maxKey) b.ourId).keyInRange k

variable (accepts now) in
/-- The loop of `split`, as long as the halves have room. -/
theorem insertHalf_gathered (l r : KBucket) (srv : RPCCalls) (hl : l.entries.length + es.length ≤ bucketK)
    (hr : r.entries.length + es.length ≤ bucketK) :
    ∃ l' r', es.foldl (insertHalf accepts now) ((l, r), srv) = ((l', r'), srv) ∧
      Gathered (es.filter fun x => l.keyInRange x.nodeId = true) l l' ∧
      Gathered (es.filter fun x => l.keyInRange x.nodeId = false) r r' := by
  induction es generalizing l r with
  | nil => exact ⟨l, r, rfl, Gathered.refl l, Gathered.refl r⟩
  | cons x es ih =>
    rw [List.length_cons] at hl hr
    rw [List.foldl_cons, insertHalf]
    cases hx : l.keyInRange x.nodeId with
    | true =>
      obtain ⟨hg, -, hsrv⟩ := insert_gathered accepts now srv (b := l) (e := x) (.inr (by omega))
      have hlen := hg.length
      rw [List.length_singleton] at hlen
      dsimp only
      rw [if_pos rfl, hsrv]
      obtain ⟨l', r', hfold, hl', hr'⟩ := ih (l.insert accepts now srv x).2.1 r (by omega) (by omega)
      simp only [hg.keyInRange] at hl' hr'
      refine ⟨l', r', hfold, ?_, ?_⟩
      · rw [List.filter_cons_of_pos (by simpa using hx)]
        exact hg.trans hl'
      · rw [List.filter_cons_of_neg (by simp [hx])]
        exact hr'
    | false =>
      obtain ⟨hg, -, hsrv⟩ := insert_gathered accepts now srv (b := r) (e := x) (.inr (by omega))
      have hlen := hg.length
      rw [List.length_singleton] at hlen
      dsimp only
      rw [if_neg (by simp), hsrv]
      obtain ⟨l', r', hfold, hl', hr'⟩ := ih l (r.insert accepts now srv x).2.1 (by omega) (by omega)
      refine ⟨l', r', hfold, ?_, ?_⟩
      · rw [List.filter_cons_of_neg (by simp [hx])]
        exact hl'
      · rw [List.filter_cons_of_pos (by simpa using hx)]
        exact hg.trans hr'

/-- The middle of a bucket that may be split is away from its ends. -/
theorem mid_of_splitAllowed (hle : b.minKey ≤ b.maxKey) (hroom : b.minKey.toNat + 20 < 2 ^ 160)
    (h : b.splitAllowed) :
    Key.mid b.minKey b.maxKey ≠ b.minKey ∧ (Key.mid b.minKey b.maxKey).addValue 1 ≠ b.maxKey := by
  have hspan := (splitAllowed_spec hroom h).2
  have hmid := Key.toNat_mid hle
  have hmax := b.maxKey.toNat_lt
  have hne : Key.mid b.minKey b.maxKey ≠ b.minKey := fun heq => by
    rw [heq] at hmid
    omega
  have hsucc := (mid_spec hle hne).2.2
  refine ⟨hne, fun heq => ?_⟩
  rw [heq] at hsucc
  omega

variable (accepts now srv) in
/-- **The halves gather the entries on their side.** -/
theorem split_gathered (hlen : b.entries.length ≤ bucketK)
    (hmid : Key.mid b.minKey b.maxKey ≠ b.minKey ∧
      (Key.mid b.minKey b.maxKey).addValue 1 ≠ b.maxKey) :
    ∃ l r, b.split accepts now srv = some ((l, r), srv) ∧
      ∀ k, Gathered (b.beside k) (b.half k) (if l.keyInRange k then l else r) := by
  obtain ⟨left, hleft⟩ : ∃ left, left = new b.minKey (Key.mid b.minKey b.maxKey) b.ourId := ⟨_, rfl⟩
  obtain ⟨right, hright⟩ : ∃ right,
      right = new ((Key.mid b.minKey b.maxKey).addValue 1) b.maxKey b.ourId := ⟨_, rfl⟩
  have hl : left.entries.length + b.entries.length ≤ bucketK := by
    rw [hleft]
    exact (Nat.zero_add _).trans_le hlen
  have hr : right.entries.length + b.entries.length ≤ bucketK := by
    rw [hright]
    exact (Nat.zero_add _).trans_le hlen
  obtain ⟨l, r, hfold, hl, hr⟩ := insertHalf_gathered accepts now left right srv hl hr
  refine ⟨l, r, ?_, fun k => ?_⟩
  · rw [split]
    dsimp only
    rw [if_neg (by rw [not_or]; exact hmid), ← hleft, ← hright, hfold]
  · rw [hl.keyInRange, half, beside, ← hleft, ← hright]
    cases left.keyInRange k with
    | true => exact hl
    | false => exact hr

theorem half_keyInRange (hle : b.minKey ≤ b.maxKey)
    (hne : Key.mid b.minKey b.maxKey ≠ b.minKey) {k : Key} (hk : b.keyInRange k) :
    (b.half k).keyInRange k := by
  have hsucc := (mid_spec hle hne).2.2
  rw [half]
  by_cases hl : (new b.minKey (Key.mid b.minKey b.maxKey) b.ourId).keyInRange k
  · rw [if_pos hl]
    exact hl
  · rw [if_neg hl]
    rw [keyInRange_iff] at hk hl ⊢
    change ¬ (b.minKey.toNat ≤ k.toNat ∧ k.toNat ≤ (Key.mid b.minKey b.maxKey).toNat) at hl
    change ((Key.mid b.minKey b.maxKey).addValue 1).toNat ≤ k.toNat ∧ k.toNat ≤ b.maxKey.toNat
    omega

/-- A full bucket of different nodes that are all in the half of the new node, which may be
split again. -/
structure Crowded (b : KBucket) (e : KBucketEntry) : Prop where
  unknown : e.node ∉ b.nodes
  full : b.entries.length = bucketK
  allowed : b.splitAllowed
  distinct : b.nodes.Nodup
  together : ∀ x ∈ b.entries, (b.half e.nodeId).keyInRange x.nodeId
  again : (b.half e.nodeId).splitAllowed

/-- An entry is beside a key exactly when it is in the half with the key. -/
theorem mem_beside (hle : b.minKey ≤ b.maxKey) (hne : Key.mid b.minKey b.maxKey ≠ b.minKey)
    (hin : b.InRange) {k : Key} {x : KBucketEntry} :
    x ∈ b.beside k ↔ x ∈ b.entries ∧ (b.half k).keyInRange x.nodeId := by
  rw [beside, List.mem_filter, decide_eq_true_iff]
  refine and_congr_right fun hx => ?_
  have hxin := hin x (mem_known.mpr (.inl hx))
  have hsucc := (mid_spec hle hne).2.2
  rw [half]
  have hright : (new ((Key.mid b.minKey b.maxKey).addValue 1) b.maxKey b.ourId).keyInRange x.nodeId =
      !(new b.minKey (Key.mid b.minKey b.maxKey) b.ourId).keyInRange x.nodeId := by
    rw [keyInRange_iff] at hxin
    rw [Bool.eq_not, Ne, Bool.eq_iff_iff, keyInRange_iff, keyInRange_iff]
    change ¬ (((Key.mid b.minKey b.maxKey).addValue 1).toNat ≤ x.nodeId.toNat ∧
      x.nodeId.toNat ≤ b.maxKey.toNat ↔
        b.minKey.toNat ≤ x.nodeId.toNat ∧ x.nodeId.toNat ≤ (Key.mid b.minKey b.maxKey).toNat)
    omega
  cases hk : (new b.minKey (Key.mid b.minKey b.maxKey) b.ourId).keyInRange k with
  | true => rw [if_pos (by rfl)]
  | false => rw [if_neg (by simp), hright, Bool.not_eq_true']

/-- The half of the new node is full exactly when it took every entry. -/
theorem Gathered.full_iff {h : KBucket} {k : Key} (hh : Gathered (b.beside k) (b.half k) h)
    (hle : b.minKey ≤ b.maxKey) (hne : Key.mid b.minKey b.maxKey ≠ b.minKey) (hin : b.InRange)
    (hfull : b.entries.length = bucketK) :
    (h.entries.length ≤ bucketK) ∧ (h.entries.length = bucketK ↔
      b.nodes.Nodup ∧ ∀ x ∈ b.entries, (b.half k).keyInRange x.nodeId) := by
  have hempty : (b.half k).nodes = [] := by
    rw [half]
    split <;> rfl
  have hdistinct : h.nodes.Nodup := hh.distinct (hempty ▸ List.nodup_nil)
  have hnodes : ∀ n, n ∈ h.nodes ↔ ∃ x ∈ b.entries, (b.half k).keyInRange x.nodeId ∧ x.node = n := by
    intro n
    rw [hh.nodes, hempty, List.mem_map]
    simp [mem_beside hle hne hin, and_assoc]
  have hsub : h.nodes ⊆ b.nodes := fun n hn => by
    obtain ⟨x, hx, -, rfl⟩ := (hnodes n).mp hn
    exact List.mem_map_of_mem hx
  have hlen : h.nodes.length = h.entries.length := List.length_map _
  have hlen' : b.nodes.length = bucketK := (List.length_map _).trans hfull
  have hperm := hdistinct.subperm hsub
  refine ⟨hlen ▸ hlen' ▸ hperm.length_le, ?_⟩
  rw [← hlen, ← hlen']
  constructor
  · intro heq
    have hsame := hperm.perm_of_length_le heq.ge
    refine ⟨hsame.nodup_iff.mp hdistinct, fun x hx => ?_⟩
    obtain ⟨y, -, hy, hnode⟩ := (hnodes x.node).mp (hsame.mem_iff.mpr (List.mem_map_of_mem hx))
    rwa [show x.nodeId = y.nodeId from (congrArg Prod.snd hnode).symm]
  · rintro ⟨hnodup, hall⟩
    refine ((List.perm_ext_iff_of_nodup hdistinct hnodup).mpr fun n => ⟨fun hn => hsub hn, ?_⟩).length_eq
    intro hn
    obtain ⟨x, hx, rfl⟩ := List.mem_map.mp hn
    exact (hnodes _).mpr ⟨x, hx, hall x hx, rfl⟩

variable (accepts srv) in
/-- **Inserting a node into a bucket of the table**: afterwards it is in the bucket for its key,
or that one refuses it, unless the bucket was crowded. -/
theorem insertInto_kept (hgood : b.AllGood now) (hin : b.InRange) (hle : b.minKey ≤ b.maxKey)
    (hroom : b.minKey.toNat + 20 < 2 ^ 160) (hlen : b.entries.length ≤ bucketK)
    (he : b.keyInRange e.nodeId) :
    ∃ h ∈ (b.insertInto accepts now srv e).1, h.keyInRange e.nodeId ∧
      (b.Crowded e → e ∉ h.entries ∧ ¬ h.Refuses) ∧
      (¬ b.Crowded e → e ∈ h.entries ∨ h.Refuses) := by
  rw [insertInto]
  by_cases hplace : e.node ∈ b.nodes ∨ b.entries.length < bucketK
  · -- there is room
    obtain ⟨hg, hmem, -⟩ := insert_gathered accepts now srv hplace
    have hflag : (b.insert accepts now srv e).1 = false := by
      rw [insert]
      by_cases hany : e.node ∈ b.nodes
      · rw [if_pos (any_same_iff.mpr hany)]
      · rw [if_neg fun h => hany (any_same_iff.mp h), if_pos (hplace.resolve_left hany)]
    obtain ⟨b', srv', heq⟩ : ∃ b' srv', b.insert accepts now srv e = (false, b', srv') :=
      ⟨_, _, Prod.ext hflag rfl⟩
    rw [heq] at hg hmem ⊢
    refine ⟨b', List.mem_singleton_self b', (hg.keyInRange _).trans he, fun hc => ?_, fun _ => .inl hmem⟩
    exact absurd (hplace.resolve_left hc.unknown) hc.full.ge.not_gt
  · rw [not_or] at hplace
    have hfull : b.entries.length = bucketK := le_antisymm hlen (Nat.le_of_not_lt hplace.2)
    rw [insert_full accepts srv hgood hplace.1 hfull]
    by_cases hallowed : b.splitAllowed
    · obtain ⟨hne, hsucc⟩ := mid_of_splitAllowed hle hroom hallowed
      obtain ⟨l, r, hsplit, hhalves⟩ := split_gathered accepts now srv hlen ⟨hne, hsucc⟩
      obtain ⟨h, hh⟩ : ∃ h, h = if l.keyInRange e.nodeId then l else r := ⟨_, rfl⟩
      have hg : Gathered (b.beside e.nodeId) (b.half e.nodeId) h := hh ▸ hhalves e.nodeId
      -- the new node is inserted into its half
      have hmem : (h.insert accepts now srv e).2.1 ∈ (if l.keyInRange e.nodeId then
            ([(l.insert accepts now srv e).2.1, r], (l.insert accepts now srv e).2.2)
          else ([l, (r.insert accepts now srv e).2.1], (r.insert accepts now srv e).2.2)).1 := by
        rw [hh]
        by_cases hl : l.keyInRange e.nodeId
        · rw [if_pos hl, if_pos hl]
          exact List.mem_cons_self
        · rw [if_neg hl, if_neg hl]
          exact List.mem_cons_of_mem _ (List.mem_singleton_self _)
      have hrange : h.keyInRange e.nodeId := (hg.keyInRange _).trans (half_keyInRange hle hne he)
      obtain ⟨hroom', hfull'⟩ := hg.full_iff hle hne hin hfull
      have hfrom : ∀ x ∈ h.entries, x ∈ b.entries := fun x hx => by
        have hempty : (b.half e.nodeId).entries = [] := by
          rw [half]
          split <;> rfl
        rcases hg.entries x hx with hx | hx
        · rw [hempty] at hx
          cases hx
        · exact List.mem_of_mem_filter hx
      have hunknown : e.node ∉ h.nodes := fun hn => by
        obtain ⟨x, hx, hnode⟩ := List.mem_map.mp hn
        exact hplace.1 (hnode ▸ List.mem_map_of_mem (hfrom x hx))
      rw [if_pos hallowed]
      dsimp only
      rw [hsplit]
      dsimp only
      refine ⟨_, hmem, ?_⟩
      by_cases hhalf : h.entries.length = bucketK
      · obtain ⟨hdistinct, htogether⟩ := hfull'.mp hhalf
        rw [insert_full accepts srv (fun x hx => hgood x (hfrom x hx)) hunknown hhalf]
        by_cases hagain : h.splitAllowed
        · -- the half asks for another split
          have hcrowded : b.Crowded e := ⟨hplace.1, hfull, hallowed, hdistinct, htogether,
            hg.splitAllowed ▸ hagain⟩
          rw [if_pos hagain]
          refine ⟨hrange, fun _ => ⟨fun hin => hunknown (List.mem_map_of_mem hin), ?_⟩,
            fun hc => absurd hcrowded hc⟩
          exact fun hrefuses => hrefuses.2 hagain
        · rw [if_neg hagain]
          obtain ⟨hrefuses, hkey⟩ := refuses_pingQuestionable accepts now srv hrange ⟨hhalf, hagain⟩
          refine ⟨hkey, fun hc => ?_, fun _ => .inr hrefuses⟩
          exact absurd (hg.splitAllowed ▸ hc.again) hagain
      · have hspace : h.entries.length < bucketK := lt_of_le_of_ne hroom' hhalf
        obtain ⟨hg', hmem', -⟩ := insert_gathered accepts now srv (b := h) (e := e) (.inr hspace)
        refine ⟨(hg'.keyInRange _).trans hrange, fun hc => ?_, fun _ => .inl hmem'⟩
        exact absurd (hfull'.mpr ⟨hc.distinct, hc.together⟩) hhalf
    · rw [if_neg hallowed]
      obtain ⟨hrefuses, hkey⟩ := refuses_pingQuestionable accepts now srv he ⟨hfull, hallowed⟩
      exact ⟨_, List.mem_singleton_self _, hkey, fun hc => absurd hc.allowed hallowed,
        fun _ => .inr hrefuses⟩

end KBucket

/-! ## The table -/

namespace KBucketTable

variable {accepts : ℕ → Bool} {now : UInt64} {t : KBucketTable} {srv : RPCCalls} {e : KBucketEntry}

/-- The node is an entry of the table. -/
def Holds (t : KBucketTable) (e : KBucketEntry) : Prop := ∃ b ∈ t.buckets, e ∈ b.entries

/-- The bucket for the key of the node is full and may not be split. -/
def Refuses (t : KBucketTable) (e : KBucketEntry) : Prop :=
  ∃ b ∈ t.buckets, b.keyInRange e.nodeId ∧ b.Refuses

/-- All entries are good. -/
def AllGood (now : UInt64) (t : KBucketTable) : Prop := ∀ b ∈ t.buckets, b.AllGood now

/-- The bucket for the key of the node is crowded. -/
def Crowded (t : KBucketTable) (e : KBucketEntry) : Prop :=
  ∃ b ∈ t.buckets, b.keyInRange e.nodeId ∧ b.Crowded e

/-- A key is in the range of one bucket at most. -/
theorem TableLaw.unique (h : TableLaw t) {b b' : KBucket} {k : Key} (hb : b ∈ t.buckets)
    (hb' : b' ∈ t.buckets) (hk : b.keyInRange k) (hk' : b'.keyInRange k) : b = b' := by
  by_contra hne
  rw [KBucket.keyInRange_iff] at hk hk'
  rcases List.pairwise_iff_getElem.mp h.increasing with hpair
  obtain ⟨i, hi, rfl⟩ := List.mem_iff_getElem.mp hb
  obtain ⟨j, hj, rfl⟩ := List.mem_iff_getElem.mp hb'
  rcases lt_trichotomy i j with hlt | rfl | hlt
  · have := Key.lt_iff.mp (hpair i j hi hj hlt)
    omega
  · exact hne rfl
  · have := Key.lt_iff.mp (hpair j i hj hi hlt)
    omega

/-- The first bucket is made without entries. -/
theorem firstBucket_entries {b : KBucket} (hb : b ∈ t.firstBucket.buckets) :
    b ∈ t.buckets ∨ b.entries = [] := by
  rw [firstBucket] at hb
  split at hb
  · rw [List.mem_singleton.mp hb]
    exact .inr rfl
  · exact .inl hb

theorem TableInv.kept_iff (h : TableInv t) (hgood : t.AllGood now) (hkey : e.nodeId ≤ Key.max) :
    (t.insert accepts now srv e).1.Holds e ∨ (t.insert accepts now srv e).1.Refuses e ↔
      ¬ t.Crowded e := by
  have hafter : TableInv (t.insert accepts now srv e).1 := h.insert
  obtain ⟨hfirst, htiles⟩ := h.firstBucket
  have hfound : t.firstBucket.findBucket e.nodeId ≠ none := by
    rw [Ne, h.law.found, not_lt]
    exact hkey
  obtain ⟨⟨before, b, after⟩, hfind⟩ := Option.ne_none_iff_exists'.mp hfound
  obtain ⟨hbuckets, hin⟩ := findBucket_some hfind
  have hmem : b ∈ t.firstBucket.buckets := hbuckets ▸ List.mem_append_right _ List.mem_cons_self
  have hresult : (t.insert accepts now srv e).1.buckets =
      before ++ ((b.insertInto accepts now srv e).1 ++ after) := by
    rw [KBucketTable.insert]
    dsimp only
    rw [hfind]
  have hcrowded : t.Crowded e ↔ b.Crowded e := by
    constructor
    · rintro ⟨c, hc, hrange, hcr⟩
      have hne : t.firstBucket = t := by
        rw [KBucketTable.firstBucket, if_neg]
        simpa using List.ne_nil_of_mem hc
      have hc' : c ∈ t.firstBucket.buckets := hne.symm ▸ hc
      exact hfirst.law.unique hmem hc' hin hrange ▸ hcr
    · intro hcr
      rcases firstBucket_entries hmem with hb | hnil
      · exact ⟨b, hb, hin, hcr⟩
      · have hfull := hcr.full
        rw [hnil] at hfull
        cases hfull
  have hgood' : b.AllGood now := by
    rcases firstBucket_entries hmem with hb | hnil
    · exact hgood b hb
    · intro x hx
      rw [hnil] at hx
      cases hx
  have hbound := htiles.bounds (a := (b.minKey.toNat, b.maxKey.toNat)) (List.mem_map_of_mem hmem)
  have hmax := Key.toNat_max
  dsimp only at hbound
  obtain ⟨half, hhalf, hrange, hlost, hkept⟩ := KBucket.insertInto_kept accepts srv hgood'
    (hfirst.inRange b hmem) (Key.le_iff.mpr hbound.2.1) (by omega) (hfirst.room b hmem) hin
  have hhalf' : half ∈ (t.insert accepts now srv e).1.buckets := by
    rw [hresult]
    exact List.mem_append_right _ (List.mem_append_left _ hhalf)
  rw [hcrowded]
  constructor
  · intro hor hcr
    obtain ⟨habsent, hnot⟩ := hlost hcr
    rcases hor with ⟨c, hc, hec⟩ | ⟨c, hc, hcr, href⟩
    · have hcin := hafter.law.entries c hc e hec
      exact habsent (hafter.law.unique hc hhalf' hcin hrange ▸ hec)
    · exact hnot (hafter.law.unique hc hhalf' hcr hrange ▸ href)
  · intro hcr
    exact (hkept hcr).imp (fun hmem => ⟨half, hhalf', hmem⟩) fun href => ⟨half, hhalf', hrange, href⟩

/-- **No needless loss.**  In every reachable table of good nodes, a node with a key in range is
kept, or its bucket is full and may not be split, exactly when its bucket was not crowded. -/
theorem insert_kept_iff (accepts : ℕ → Bool) (ourId : Key) (evs : List Event) (now : UInt64)
    (e : KBucketEntry)
    (hgood : (run (step accepts) (new ourId, ⟨0, []⟩) evs).1.AllGood now) (hkey : e.nodeId ≤ Key.max) :
    let s := run (step accepts) (new ourId, ⟨0, []⟩) evs
    (s.1.insert accepts now s.2 e).1.Holds e ∨ (s.1.insert accepts now s.2 e).1.Refuses e ↔
      ¬ s.1.Crowded e := by
  have hinv : AllStates (step accepts) (fun s => TableInv s.1) (new ourId, ⟨0, []⟩) evs :=
    allStates_of_step (fun _ ev h => h.step ev) evs _ (tableInv_new ourId)
  exact hinv.last.kept_iff hgood hkey

/-- A node with a small key. -/
def nearNode (i : ℕ) : KBucketEntry :=
  KBucketEntry.new 0 ⟨.ipv4 (UInt32.ofNat i), 6881⟩ (Key.min.addValue (UInt8.ofNat i))

/-- A node with a key behind the middle of all keys. -/
def farNode (i : ℕ) : KBucketEntry :=
  KBucketEntry.new 0 ⟨.ipv4 (UInt32.ofNat (100 + i)), 6881⟩
    ((Key.mid Key.min Key.max).addValue (UInt8.ofNat (i + 1)))

/-- Twenty nodes fill the first bucket, half of them far away. -/
def mixedNodes : List Event :=
  ((List.range 10).map fun i => .insert 0 (nearNode i)) ++
    (List.range 10).map fun i => .insert 0 (farNode i)

/-- One more is inserted: the bucket is split, and the lower half has room for it. -/
theorem insert_kept_split :
    let s := run (step fun _ => true) (new Key.min, ⟨0, []⟩) mixedNodes
    s.1.buckets.length = 1 ∧ (s.1.insert (fun _ => true) 0 s.2 (nearNode 20)).1.buckets.length = 2 ∧
      (s.1.insert (fun _ => true) 0 s.2 (nearNode 20)).1.Holds (nearNode 20) ∧
      ¬ s.1.Crowded (nearNode 20) := by
  intro s
  have hgood : s.1.AllGood 0 := by
    unfold AllGood KBucket.AllGood
    decide +kernel
  have hheld : (s.1.insert (fun _ => true) 0 s.2 (nearNode 20)).1.Holds (nearNode 20) := by
    unfold Holds
    decide +kernel
  exact ⟨by decide +kernel, by decide +kernel, hheld,
    (insert_kept_iff _ _ _ _ _ hgood (by decide)).mp (.inl hheld)⟩

/-- Twenty nodes with small keys fill the first bucket. -/
def nearNodes : List Event := (List.range 20).map fun i => .insert 0 (nearNode i)

/-- **A node is lost**: the bucket is split, all twenty nodes are in the lower half, and so is
the new one.  The half may be split again, but it is not. -/
theorem nearNode_lost :
    let s := run (step fun _ => true) (new Key.min, ⟨0, []⟩) nearNodes
    s.1.AllGood 0 ∧ (nearNode 20).nodeId ≤ Key.max ∧
      ¬ ((s.1.insert (fun _ => true) 0 s.2 (nearNode 20)).1.Holds (nearNode 20) ∨
        (s.1.insert (fun _ => true) 0 s.2 (nearNode 20)).1.Refuses (nearNode 20)) := by
  have hlost : ∀ b ∈ ((run (step fun _ => true) (new Key.min, ⟨0, []⟩) nearNodes).1.insert (fun _ => true)
      0 (run (step fun _ => true) (new Key.min, ⟨0, []⟩) nearNodes).2 (nearNode 20)).1.buckets,
      nearNode 20 ∉ b.entries ∧ b.splitAllowed ∨ b.keyInRange (nearNode 20).nodeId = false ∧
        nearNode 20 ∉ b.entries := by
    decide +kernel
  refine ⟨?_, by decide +kernel, ?_⟩
  · unfold AllGood KBucket.AllGood
    decide +kernel
  · rintro (⟨b, hb, hmem⟩ | ⟨b, hb, hkey, hrefuses⟩)
    · rcases hlost b hb with h | h
      · exact h.1 hmem
      · exact h.2 hmem
    · rcases hlost b hb with h | h
      · exact hrefuses.2 h.2
      · rw [h.1] at hkey
        cases hkey

end KBucketTable
end KTorrent
