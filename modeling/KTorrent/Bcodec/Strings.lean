import KTorrent.Bcodec.Progress

/-!
# Strings of a decoded tree

`parseString` rejects a length of 2 GiB or more, so no string of a decoded tree
is longer, whatever the size of the data.

* `BNode.Short` — all strings of a tree are shorter.
* `decode_short` — every tree that is decoded is of that kind.
-/

namespace KTorrent

namespace BNode

mutual

/-- Every string in the tree, apart from the keys, is shorter than 2 GiB. -/
def Short : BNode → Prop
  | .value (.string strval) _ => strval.length < 2 ^ 31
  | .value (.int _) _ => True
  | .value (.int64 _) _ => True
  | .list children _ => ShortItems children
  | .dict children _ => ShortEntries children

/-- The same for the items of a list. -/
def ShortItems : List BNode → Prop
  | [] => True
  | n :: ns => Short n ∧ ShortItems ns

/-- The same for the entries of a dictionary. -/
def ShortEntries : List (List UInt8 × BNode) → Prop
  | [] => True
  | (_, n) :: ns => Short n ∧ ShortEntries ns

end

theorem shortItems_append {ns ms : List BNode} (hns : ShortItems ns) (hms : ShortItems ms) :
    ShortItems (ns ++ ms) := by
  induction ns with
  | nil => exact hms
  | cons n ns ih => exact ⟨hns.1, ih hns.2⟩

theorem shortEntries_append {ns ms : List (List UInt8 × BNode)} (hns : ShortEntries ns)
    (hms : ShortEntries ms) : ShortEntries (ns ++ ms) := by
  induction ns with
  | nil => exact hms
  | cons n ns ih => exact ⟨hns.1, ih hns.2⟩

theorem ShortEntries.mem {ns : List (List UInt8 × BNode)} (h : ShortEntries ns) :
    ∀ e ∈ ns, Short e.2 := by
  induction ns with
  | nil =>
    intro e he
    cases he
  | cons n ns ih =>
    intro e he
    rcases List.mem_cons.mp he with rfl | he
    · exact h.1
    · exact ih h.2 e he

end BNode

/-- The child of a dictionary with short strings. -/
theorem BDictNode.getData_short {d : BDictNode} (h : BNode.ShortEntries d) {key : List UInt8}
    {node : BNode} (hget : d.getData key = some node) : node.Short := by
  obtain ⟨e, he, rfl⟩ := Option.map_eq_some_iff.mp hget
  exact h.mem e (List.mem_of_find?_eq_some he)

theorem BDictNode.getDict_short {d info : BDictNode} (h : BNode.ShortEntries d) {key : List UInt8}
    (hget : d.getDict key = some info) : BNode.ShortEntries info := by
  obtain ⟨node, hnode, hdict⟩ := Option.bind_eq_some_iff.mp hget
  have hshort := getData_short h hnode
  cases node with
  | value v bytes => cases hdict
  | list children bytes => cases hdict
  | dict children bytes =>
    obtain rfl := Option.some.inj hdict
    exact hshort

theorem BDictNode.getByteArrayView_short {d : BDictNode} (h : BNode.ShortEntries d)
    {key s : List UInt8} (hget : d.getByteArrayView key = .ok s) : s.length < 2 ^ 31 := by
  unfold getByteArrayView getValue at hget
  cases hnode : d.getData key with
  | none =>
    rw [hnode] at hget
    cases hget
  | some node =>
    rw [hnode] at hget
    have hshort := getData_short h hnode
    cases node with
    | list children bytes => cases hget
    | dict children bytes => cases hget
    | value v bytes =>
      cases v with
      | int n => cases hget
      | int64 n => cases hget
      | string strval =>
        cases hget
        exact hshort

namespace BDecoder

variable {data : List UInt8}

/-- What has been parsed has short strings. -/
def ShortResult : Except DecodeError (Option BNode × ℕ) → Prop
  | .ok (some node, _) => node.Short
  | _ => True

theorem parseInt_short {off pos : ℕ} {node : BNode} (h : parseInt data off = .ok (node, pos)) :
    node.Short := by
  unfold parseInt at h
  simp only [bind, Except.bind, throw, throwThe, MonadExceptOf.throw, pure, Except.pure] at h
  split at h
  · cases h
  · split at h
    · split at h
      · cases h
      · cases h
        trivial
    · split at h
      · split at h
        · cases h
        · cases h
          trivial
      · cases h

theorem parseString_short {off pos : ℕ} {node : BNode} (h : parseString data off = .ok (node, pos)) :
    node.Short := by
  unfold parseString at h
  simp only [bind, Except.bind, throw, throwThe, MonadExceptOf.throw, pure, Except.pure] at h
  split at h
  · cases h
  · split at h
    · cases h
    · split at h
      · cases h
      · rename_i len _ hneg
        split at h
        · cases h
        · split at h
          · cases h
          · rename_i str hstr
            split at h
            · cases h
            · cases h
              unfold sliced at hstr
              split at hstr
              · cases hstr
                exact (List.length_take_le _ _).trans_lt (not_le.mp hneg)
              · cases hstr

section Loops

variable {dec : ℕ → Except DecodeError (Option BNode × ℕ)}

theorem listLoop_short (hdec : ∀ pos, ShortResult (dec pos)) : ∀ (fuel pos stop : ℕ)
    (children ns : List BNode), BNode.ShortItems children →
    listLoop data dec fuel pos children = .ok (ns, stop) → BNode.ShortItems ns := by
  intro fuel
  induction fuel with
  | zero =>
    intro pos stop children ns _ h
    cases h
  | succ fuel ih =>
    intro pos stop children ns hchildren h
    rw [listLoop] at h
    split at h
    · have hnode := hdec pos
      cases hn : dec pos with
      | error e =>
        rw [hn] at h
        cases h
      | ok r =>
        obtain ⟨n, next⟩ := r
        rw [hn] at h hnode
        refine ih next stop _ ns (BNode.shortItems_append hchildren ?_) h
        cases n with
        | none => trivial
        | some n => exact ⟨hnode, trivial⟩
    · cases h
      exact hchildren

theorem dictLoop_short (hdec : ∀ pos, ShortResult (dec pos)) : ∀ (fuel pos stop : ℕ)
    (children ns : List (List UInt8 × BNode)), BNode.ShortEntries children →
    dictLoop data dec fuel pos children = .ok (ns, stop) → BNode.ShortEntries ns := by
  intro fuel
  induction fuel with
  | zero =>
    intro pos stop children ns _ h
    cases h
  | succ fuel ih =>
    intro pos stop children ns hchildren h
    rw [dictLoop] at h
    split at h
    · simp only [bind, Except.bind] at h
      split at h
      · cases h
      · split at h
        · cases h
        · rename_i next _ _ key hkey
          have hnode := hdec next.2
          cases hn : dec next.2 with
          | error e =>
            rw [hn] at h
            cases h
          | ok r =>
            obtain ⟨n, behind⟩ := r
            rw [hn] at h hnode
            cases n with
            | none => cases h
            | some n =>
              have hnew : BNode.ShortEntries [(key, n)] := ⟨hnode, trivial⟩
              exact ih behind stop _ ns (BNode.shortEntries_append hchildren hnew) h
    · cases h
      exact hchildren

end Loops

variable (data) in
/-- **A decoded tree has short strings.** -/
theorem decode_short (fuel : ℕ) : ∀ pos, ShortResult (decode data fuel pos) := by
  induction fuel with
  | zero =>
    intro pos
    trivial
  | succ fuel ih =>
    intro pos
    rw [decode]
    split
    · trivial
    · split
      · trivial
      · split
        · unfold parseDict
          cases hloop : dictLoop data (decode data fuel) fuel (u32 (pos + 1)) [] with
          | error e => trivial
          | ok r =>
            have hshort := dictLoop_short ih fuel _ _ [] r.1 trivial hloop
            simp only [bind, Except.bind]
            cases closeAt data pos r.2 with
            | error e => trivial
            | ok _ => exact hshort
        · split
          · unfold parseList
            cases hloop : listLoop data (decode data fuel) fuel (u32 (pos + 1)) [] with
            | error e => trivial
            | ok r =>
              have hshort := listLoop_short ih fuel _ _ [] r.1 trivial hloop
              simp only [bind, Except.bind]
              cases closeAt data pos r.2 with
              | error e => trivial
              | ok _ => exact hshort
          · split
            · cases hparse : parseInt data pos with
              | error e => trivial
              | ok r => exact parseInt_short hparse
            · split
              · cases hparse : parseString data pos with
                | error e => trivial
                | ok r => exact parseString_short hparse
              · trivial

end BDecoder

end KTorrent
