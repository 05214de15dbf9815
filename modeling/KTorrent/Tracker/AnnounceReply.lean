import KTorrent.Torrent.LoadLayout
import KTorrent.Tracker.HTTPTracker

/-!
# What a HTTP tracker may answer

The shape of the decoded dictionary is up to the tracker.

* `IsRecords`, `Announced` — the peers that a reply has.
* `readCompact_records` — a compact string is read to its end exactly when it has whole records.
* `SoundDict` — what the dictionary has to promise, because nothing checks it.
* `updateDict_iff` — exactly then it is dealt with, and its peers are added.
* `updateData_iff` — so for every data that a tracker returns.
-/

namespace KTorrent.HTTPTracker

/-! ## The peers of a reply -/

/-- The addresses are those of the whole records of a compact string. -/
def IsRecords (v : IpVersion) (arr : List UInt8) (addrs : List Address) : Prop :=
  addrs.map some = (List.range (arr.length / v.compactWidth)).map fun k =>
    v.fromCompact ((arr.drop (v.compactWidth * k)).take v.compactWidth)

variable (qt : ReplyQt)

/-- The peers of a reply: the records of compact strings, or the dictionaries of a list that have
an address and a port. -/
structure Announced (dict : BDictNode) (peers peers6 : List Address) : Prop where
  compact : ∀ arr bytes, dict.getData (ascii "peers") = some (.value (.string arr) bytes) →
    IsRecords .v4 arr peers
  listed : ∀ children bytes, dict.getData (ascii "peers") = some (.list children bytes) →
    peers = children.filterMap (listedPeer qt)
  none_ : (∀ arr bytes, dict.getData (ascii "peers") ≠ some (.value (.string arr) bytes)) →
    (∀ children bytes, dict.getData (ascii "peers") ≠ some (.list children bytes)) → peers = []
  compact6 : ∀ arr bytes, dict.getData (ascii "peers6") = some (.value (.string arr) bytes) →
    IsRecords .v6 arr peers6
  none6 : (∀ arr bytes, dict.getData (ascii "peers6") ≠ some (.value (.string arr) bytes)) →
    peers6 = []

/-- The function comes back: it has added the peers of the dictionary that was decoded, or
reported a failure. -/
inductive Returned (t : HTTPTracker) (decoded : Except DecodeError (Option BDictNode)) :
    Bool × HTTPTracker → Prop where
  | updated {dict : BDictNode} {peers peers6 : List Address} {t' : HTTPTracker}
      (hdict : decoded = .ok (some dict)) (h : Announced qt dict peers peers6)
      (hpeers : t'.peers = t.peers ++ (peers ++ peers6).map fun addr => (addr, false)) :
      Returned t decoded (true, t')
  | failed {t' : HTTPTracker} (err : List Char) (hpeers : t'.peers = t.peers)
      (hfailed : t'.requestFailed = t.requestFailed ++ [err]) : Returned t decoded (false, t')

/-! ## Compact strings -/

/-- As many bytes as an address has are one. -/
theorem fromCompact_isSome (v : IpVersion) {ba : List UInt8} (h : ba.length = v.compactWidth) :
    (v.fromCompact ba).isSome = true := by
  cases v with
  | v4 =>
    match ba, h with
    | [a, b, c, d, e, f], _ => rfl
  | v6 =>
    have htake : (ba.take 16).length = 16 := by
      rw [List.length_take, h]
      rfl
    obtain ⟨x, y, hxy⟩ := List.length_eq_two.mp
      (show (ba.drop 16).length = 2 by rw [List.length_drop, h]; rfl)
    simp [IpVersion.fromCompact, Address.fromCompactIPv6, readUint16, hxy, htake]

/-- The rounds of the loop that stay inside the string. -/
theorem compactPeer_eq (v : IpVersion) (arr : List UInt8) {k : ℕ} :
    (k < arr.length / v.compactWidth → ∃ addr, compactPeer v arr k = .ok addr ∧
      some addr = v.fromCompact ((arr.drop (v.compactWidth * k)).take v.compactWidth)) ∧
    (arr.length / v.compactWidth ≤ k → compactPeer v arr k = .error .slicedOutside) := by
  have hwidth : 0 < v.compactWidth := by cases v <;> decide
  have hin : v.compactWidth * k + v.compactWidth ≤ arr.length ↔ k < arr.length / v.compactWidth := by
    rw [← Nat.succ_le_iff, Nat.le_div_iff_mul_le hwidth, Nat.succ_mul, Nat.mul_comm]
  rw [compactPeer]
  constructor
  · intro hk
    have hfits := hin.mpr hk
    obtain ⟨addr, haddr⟩ := Option.isSome_iff_exists.mp (fromCompact_isSome v
      (show ((arr.drop (v.compactWidth * k)).take v.compactWidth).length = _ by
        rw [List.length_take, List.length_drop]; omega))
    rw [if_pos hfits, haddr]
    exact ⟨addr, rfl, rfl⟩
  · intro hk
    rw [if_neg fun hc => absurd (hin.mp hc) (by omega)]

/-- Rounds that all succeed. -/
theorem rounds_ok {f : ℕ → Except Crash Address} {g : ℕ → Option Address} {n : ℕ}
    (h : ∀ k < n, ∃ addr, f k = .ok addr ∧ some addr = g k) :
    ∃ addrs, (List.range n).mapM f = .ok addrs ∧ addrs.map some = (List.range n).map g := by
  induction n with
  | zero => exact ⟨[], rfl, rfl⟩
  | succ n ih =>
    obtain ⟨addrs, haddrs, hmap⟩ := ih fun k hk => h k (by omega)
    obtain ⟨addr, haddr, hg⟩ := h n (by omega)
    refine ⟨addrs ++ [addr], ?_, ?_⟩
    · rw [List.range_succ, List.mapM_append, haddrs, List.mapM_cons, haddr]
      rfl
    · rw [List.range_succ, List.map_append, List.map_append, hmap, List.map_singleton,
        List.map_singleton, hg]

/-- **A compact string with whole records** is read, and its records are the addresses. -/
theorem readCompact_records {v : IpVersion} {arr : List UInt8} (h : v.compactWidth ∣ arr.length) :
    ∃ addrs, readCompact v arr = .ok addrs ∧ IsRecords v arr addrs := by
  have hrounds : (arr.length + v.compactWidth - 1) / v.compactWidth =
      arr.length / v.compactWidth := by
    cases v <;> simp only [IpVersion.compactWidth] at h ⊢ <;> omega
  rw [readCompact, hrounds]
  exact rounds_ok fun k hk => (compactPeer_eq v arr).1 hk

/-- The last round over any other string slices outside it. -/
theorem readCompact_outside {v : IpVersion} {arr : List UInt8}
    (h : ¬ v.compactWidth ∣ arr.length) : readCompact v arr = .error .slicedOutside := by
  have hrounds : (arr.length + v.compactWidth - 1) / v.compactWidth =
      arr.length / v.compactWidth + 1 := by
    cases v <;> simp only [IpVersion.compactWidth] at h ⊢ <;> omega
  obtain ⟨addrs, haddrs, -⟩ := rounds_ok fun k hk => (compactPeer_eq v arr (k := k)).1 hk
  rw [readCompact, hrounds, List.range_succ, List.mapM_append, haddrs, List.mapM_cons,
    (compactPeer_eq v arr).2 le_rfl]
  rfl

/-! ## The dictionary -/

/-- A text that is there is a value. -/
def SoundText (dict : BDictNode) (key : List UInt8) : Prop :=
  ∀ node, dict.getData key = some node → node.asValue.isSome = true

/-- A string has whole records. -/
def SoundCompact (v : IpVersion) (dict : BDictNode) (key : List UInt8) : Prop :=
  ∀ arr bytes, dict.getData key = some (.value (.string arr) bytes) → v.compactWidth ∣ arr.length

/-- What the dictionary has to promise. -/
structure SoundDict (dict : BDictNode) : Prop where
  failure : SoundText dict (ascii "failure reason")
  warning : dict.getData (ascii "failure reason") = none →
    SoundText dict (ascii "warning message")
  peers : dict.getData (ascii "failure reason") = none → SoundCompact .v4 dict (ascii "peers")
  peers6 : dict.getData (ascii "failure reason") = none → SoundCompact .v6 dict (ascii "peers6")

section Dict

variable {dict : BDictNode} {key : List UInt8}

/-- What is fetched: nothing, the text of a value, or a null pointer is used. -/
theorem textOf_eq : textOf qt dict key =
    match dict.getData key with
    | none => .ok none
    | some node =>
      match node.asValue with
      | some vn => .ok (some (vn.toString qt))
      | none => .error .nullDereference := by
  unfold textOf BDictNode.getValue
  cases dict.getData key <;> rfl

theorem textOf_sound (h : SoundText dict key) :
    ∃ text, textOf qt dict key = .ok text ∧ (text = none ↔ dict.getData key = none) := by
  rw [textOf_eq]
  cases hnode : dict.getData key with
  | none => exact ⟨none, rfl, iff_of_true rfl rfl⟩
  | some node =>
    obtain ⟨vn, hvn⟩ := Option.isSome_iff_exists.mp (h node hnode)
    refine ⟨some (vn.toString qt), ?_, iff_of_false (by simp) (by simp)⟩
    dsimp only
    rw [hvn]

/-- **A text that is a list or a dictionary is a null pointer.** -/
theorem textOf_unsound (h : ¬ SoundText dict key) :
    textOf qt dict key = .error .nullDereference := by
  unfold SoundText at h
  push Not at h
  obtain ⟨node, hnode, hvalue⟩ := h
  have hnone : node.asValue = none := by simpa using hvalue
  rw [textOf_eq, hnode]
  dsimp only
  rw [hnone]

/-- The IPv4 peers. -/
theorem peersOf_sound (h : SoundCompact .v4 dict (ascii "peers")) :
    ∃ peers, peersOf qt dict = .ok peers ∧
      (∀ arr bytes, dict.getData (ascii "peers") = some (.value (.string arr) bytes) →
        IsRecords .v4 arr peers) ∧
      (∀ children bytes, dict.getData (ascii "peers") = some (.list children bytes) →
        peers = children.filterMap (listedPeer qt)) ∧
      ((∀ arr bytes, dict.getData (ascii "peers") ≠ some (.value (.string arr) bytes)) →
        (∀ children bytes, dict.getData (ascii "peers") ≠ some (.list children bytes)) →
        peers = []) := by
  unfold peersOf BDictNode.getList BDictNode.getValue
  unfold SoundCompact at h
  generalize dict.getData (ascii "peers") = node at h ⊢
  match node with
  | some (.value (.string arr) bytes) =>
    obtain ⟨addrs, haddrs, hrecords⟩ := readCompact_records (h arr bytes rfl)
    refine ⟨addrs, haddrs, ?_, by simp, fun hnot => absurd rfl (hnot arr bytes)⟩
    rintro _ _ heq
    obtain ⟨rfl, rfl⟩ : arr = _ ∧ bytes = _ := by simpa using heq
    exact hrecords
  | some (.list children bytes) =>
    refine ⟨_, rfl, by simp, ?_, fun _ hnot => absurd rfl (hnot children bytes)⟩
    rintro _ _ heq
    obtain ⟨rfl, rfl⟩ : children = _ ∧ bytes = _ := by simpa using heq
    rfl
  | none => exact ⟨[], rfl, by simp, by simp, fun _ _ => rfl⟩
  | some (.value (.int _) _) => exact ⟨[], rfl, by simp, by simp, fun _ _ => rfl⟩
  | some (.value (.int64 _) _) => exact ⟨[], rfl, by simp, by simp, fun _ _ => rfl⟩
  | some (.dict _ _) => exact ⟨[], rfl, by simp, by simp, fun _ _ => rfl⟩

/-- The IPv6 peers. -/
theorem peers6Of_sound (h : SoundCompact .v6 dict (ascii "peers6")) :
    ∃ peers, peers6Of dict = .ok peers ∧
      (∀ arr bytes, dict.getData (ascii "peers6") = some (.value (.string arr) bytes) →
        IsRecords .v6 arr peers) ∧
      ((∀ arr bytes, dict.getData (ascii "peers6") ≠ some (.value (.string arr) bytes)) →
        peers = []) := by
  unfold peers6Of BDictNode.getValue
  unfold SoundCompact at h
  generalize dict.getData (ascii "peers6") = node at h ⊢
  match node with
  | some (.value (.string arr) bytes) =>
    obtain ⟨addrs, haddrs, hrecords⟩ := readCompact_records (h arr bytes rfl)
    refine ⟨addrs, haddrs, ?_, fun hnot => absurd rfl (hnot arr bytes)⟩
    rintro _ _ heq
    obtain ⟨rfl, rfl⟩ : arr = _ ∧ bytes = _ := by simpa using heq
    exact hrecords
  | none => exact ⟨[], rfl, by simp, fun _ => rfl⟩
  | some (.value (.int _) _) => exact ⟨[], rfl, by simp, fun _ => rfl⟩
  | some (.value (.int64 _) _) => exact ⟨[], rfl, by simp, fun _ => rfl⟩
  | some (.list _ _) => exact ⟨[], rfl, by simp, fun _ => rfl⟩
  | some (.dict _ _) => exact ⟨[], rfl, by simp, fun _ => rfl⟩

/-- **A string with half a record is left by the loop that reads it.** -/
theorem peersOf_unsound (h : ¬ SoundCompact .v4 dict (ascii "peers")) :
    peersOf qt dict = .error .slicedOutside := by
  unfold SoundCompact at h
  push Not at h
  obtain ⟨arr, bytes, hnode, hdvd⟩ := h
  unfold peersOf BDictNode.getList BDictNode.getValue
  rw [hnode]
  exact readCompact_outside hdvd

theorem peers6Of_unsound (h : ¬ SoundCompact .v6 dict (ascii "peers6")) :
    peers6Of dict = .error .slicedOutside := by
  unfold SoundCompact at h
  push Not at h
  obtain ⟨arr, bytes, hnode, hdvd⟩ := h
  unfold peers6Of BDictNode.getValue
  rw [hnode]
  exact readCompact_outside hdvd

/-- A dictionary that keeps its promises is dealt with. -/
theorem updateDict_sound (h : SoundDict dict) (t : HTTPTracker) :
    ∃ r, updateDict qt dict t = .ok r ∧ Returned qt t (.ok (some dict)) r := by
  obtain ⟨reason, hreason, hfailure⟩ := textOf_sound qt h.failure
  cases reason with
  | some reason =>
    refine ⟨(false, t.failed reason), ?_, .failed reason rfl rfl⟩
    rw [updateDict, hreason]
    rfl
  | none =>
    have hnone := hfailure.mp rfl
    obtain ⟨warning, hwarning, -⟩ := textOf_sound qt (h.warning hnone)
    obtain ⟨peers, hpeers, hcompact, hlisted, hempty⟩ := peersOf_sound qt (h.peers hnone)
    obtain ⟨peers6, hpeers6, hcompact6, hempty6⟩ := peers6Of_sound (h.peers6 hnone)
    obtain ⟨t', ht', hadded⟩ : ∃ t', updateDict qt dict t = .ok (true, t') ∧
        t'.peers = t.peers ++ (peers ++ peers6).map fun addr => (addr, false) := by
      rw [updateDict, hreason]
      simp only [bind, Except.bind, hwarning, hpeers, hpeers6]
      exact ⟨_, rfl, rfl⟩
    exact ⟨_, ht', .updated rfl ⟨hcompact, hlisted, hempty, hcompact6, hempty6⟩ hadded⟩

/-- **What is dealt with is sound.** -/
theorem updateDict_iff (t : HTTPTracker) :
    (∃ r, updateDict qt dict t = .ok r ∧ Returned qt t (.ok (some dict)) r) ↔ SoundDict dict := by
  refine ⟨?_, fun h => updateDict_sound qt h t⟩
  rintro ⟨r, hr, -⟩
  rw [updateDict] at hr
  by_cases hfailure : SoundText dict (ascii "failure reason")
  swap
  · rw [textOf_unsound qt hfailure] at hr
    cases hr
  cases hnode : dict.getData (ascii "failure reason") with
  | some node =>
    exact ⟨hfailure, by simp [hnode], by simp [hnode], by simp [hnode]⟩
  | none =>
    obtain ⟨reason, hreason, hiff⟩ := textOf_sound qt hfailure
    obtain rfl := hiff.mpr hnode
    rw [hreason] at hr
    simp only [bind, Except.bind] at hr
    by_cases hwarning : SoundText dict (ascii "warning message")
    swap
    · rw [textOf_unsound qt hwarning] at hr
      cases hr
    obtain ⟨warning, hwarning', -⟩ := textOf_sound qt hwarning
    rw [hwarning'] at hr
    by_cases hpeers : SoundCompact .v4 dict (ascii "peers")
    swap
    · rw [peersOf_unsound qt hpeers] at hr
      cases hr
    obtain ⟨peers, hpeers', -⟩ := peersOf_sound qt hpeers
    rw [hpeers'] at hr
    by_cases hpeers6 : SoundCompact .v6 dict (ascii "peers6")
    swap
    · rw [peers6Of_unsound hpeers6] at hr
      cases hr
    exact ⟨hfailure, fun _ => hwarning, fun _ => hpeers, fun _ => hpeers6⟩

end Dict

/-! ## The whole reply -/

/-- The function comes back, with the peers of the dictionary that the data begin with at their
first `d`. -/
def Handled (data : List UInt8) (t : HTTPTracker) : Prop :=
  ∃ enough, ∀ fuel ≥ enough, ∃ r, updateData qt data fuel t = .ok r ∧
    Returned qt t (BDecoder.decodeDict (data.drop (firstDict data)) fuel) r

/-- The first `d` comes in the first 2 GiB, if there is one, the decoder stays inside the data
behind it, and the dictionary that it finds there is sound. -/
def SoundReply (data : List UInt8) : Prop :=
  firstDict data < 2 ^ 31 ∧ (firstDict data < data.length →
    ∃ enough, ∀ fuel ≥ enough,
      match BDecoder.decodeDict (data.drop (firstDict data)) fuel with
      | .error e => e.thrown = true
      | .ok none => True
      | .ok (some dict) => SoundDict dict)

/-- **The reply of a tracker.**  For every data the function comes back, and has added exactly the
peers of the reply or reported a failure, exactly when the reply is sound.  In data of less than
2 GiB only the dictionary matters. -/
theorem updateData_iff (data : List UInt8) (t : HTTPTracker) :
    (Handled qt data t ↔ SoundReply data) ∧
      (data.length < 2 ^ 31 → firstDict data < 2 ^ 31 ∧ ∃ enough, ∀ fuel ≥ enough, ∀ e,
        BDecoder.decodeDict (data.drop (firstDict data)) fuel = .error e → e.thrown = true) := by
  have hle : firstDict data ≤ data.length := List.findIdx_le_length
  constructor
  · unfold Handled SoundReply updateData
    by_cases hfar : 2 ^ 31 ≤ firstDict data
    · simp only [if_pos hfar]
      refine iff_of_false ?_ fun h => absurd h.1 (by omega)
      rintro ⟨enough, h⟩
      obtain ⟨r, hr, -⟩ := h enough le_rfl
      cases hr
    simp only [if_neg hfar]
    by_cases hend : firstDict data = data.length
    · simp only [if_pos hend]
      exact iff_of_true ⟨0, fun fuel _ => ⟨_, rfl, .failed _ rfl rfl⟩⟩
        ⟨by omega, fun h => absurd h (by omega)⟩
    simp only [if_neg hend]
    rw [and_iff_right (by omega), imp_iff_right (by omega)]
    refine exists_congr fun enough => forall_congr' fun fuel => forall_congr' fun _ => ?_
    cases hdict : BDecoder.decodeDict (data.drop (firstDict data)) fuel with
    | error e =>
      dsimp only
      by_cases he : e.thrown = true
      · rw [if_pos he]
        exact iff_of_true ⟨_, rfl, .failed _ rfl rfl⟩ he
      · rw [if_neg he]
        refine iff_of_false ?_ he
        rintro ⟨r, hr, -⟩
        cases hr
    | ok found =>
      cases found with
      | none => exact iff_of_true ⟨_, rfl, .failed _ rfl rfl⟩ trivial
      | some dict => exact updateDict_iff qt t
  · intro hdata
    refine ⟨by omega, (data.drop (firstDict data)).length + 1, fun fuel hfuel e => ?_⟩
    exact Torrent.decodeDict_thrown (by rw [List.length_drop]; omega) hfuel

/-- A reply whose failure reason is a list. -/
def listedReason : List (BString × BTree) := [(⟨ascii "failure reason", by decide⟩, .list [])]

/-- The test and the getter see different things: **a failure reason that is a list is a null
pointer that is used**, whatever the library makes of texts. -/
theorem listedReason_crashes :
    ¬ ∃ (qt : ReplyQt) (t : HTTPTracker), Handled qt (BTree.dict listedReason).emitted t := by
  have hread : (BTree.dict listedReason).ReadsBack [] := by
    rw [BTree.readsBack_iff]
    decide +kernel
  have hfirst : firstDict (BTree.dict listedReason).emitted = 0 := by decide +kernel
  have hlong : (BTree.dict listedReason).emitted.length = 21 := by decide +kernel
  obtain ⟨node, enough, hequals, hdec⟩ := hread
  rintro ⟨qt, t, enough', h⟩
  obtain ⟨r, hr, -⟩ := h (max enough enough') (le_max_right _ _)
  specialize hdec (max enough enough') (le_max_left _ _)
  rw [List.append_nil] at hdec
  match node, hequals with
  | .dict dict bytes, hequals =>
    have hentries : BTree.EqualsEntries listedReason dict := hequals
    have hdict : BDecoder.decodeDict (BTree.dict listedReason).emitted (max enough enough') =
        .ok (some dict) := by
      unfold BDecoder.decodeDict
      rw [hdec]
      rfl
    -- the list is there, and is no value
    have hunsound : ¬ SoundText dict (ascii "failure reason") := by
      intro hsound
      obtain ⟨node, hnode, hlist⟩ := hentries.getData (ascii "failure reason")
      match node, hlist with
      | .list children bytes, _ => exact absurd (hsound _ hnode) (by simp [BNode.asValue])
    rw [updateData, hfirst, hlong, if_neg (by decide), if_neg (by decide), List.drop_zero, hdict]
      at hr
    dsimp only at hr
    rw [updateDict, textOf_unsound qt hunsound] at hr
    cases hr

end KTorrent.HTTPTracker
