import KTorrent.Bcodec.RoundTrip

/-!
# Numbers of 32 bits

A number that fits in 32 bits is decoded as one, so that `getInt` reads it; and what is decoded as
one fits.

* `Values` — a property of every value in a node; `decode_values` — the decoder's values have it
  when those of numbers and strings do.
* `Narrow` — no number in the node has 64 bits without need; `decode_narrow`, `decode_fits`.
* `EqualsEntries.getInt` — `getInt` finds a small number that was written.
-/

namespace KTorrent

/-- Every number of 64 bits in the node does not fit in 32. -/
inductive BNode.Narrow : BNode → Prop where
  | value (v : Value) (bytes : List UInt8)
      (h : ∀ bigIval, v = .int64 bigIval → ¬ (-2 ^ 31 ≤ bigIval ∧ bigIval < 2 ^ 31)) :
      Narrow (.value v bytes)
  | list (children : List BNode) (bytes : List UInt8) (h : ∀ n ∈ children, Narrow n) :
      Narrow (.list children bytes)
  | dict (children : BDictNode) (bytes : List UInt8) (h : ∀ e ∈ children, Narrow e.2) :
      Narrow (.dict children bytes)

/-- Every value in the node satisfies `P`. -/
inductive BNode.Values (P : Value → Prop) : BNode → Prop where
  | value (v : Value) (bytes : List UInt8) (h : P v) : Values P (.value v bytes)
  | list (children : List BNode) (bytes : List UInt8) (h : ∀ n ∈ children, Values P n) :
      Values P (.list children bytes)
  | dict (children : BDictNode) (bytes : List UInt8) (h : ∀ e ∈ children, Values P e.2) :
      Values P (.dict children bytes)

/-- A number of 64 bits does not fit in 32. -/
def Value.NeedsInt64 (v : Value) : Prop :=
  ∀ bigIval, v = .int64 bigIval → ¬ (-2 ^ 31 ≤ bigIval ∧ bigIval < 2 ^ 31)

/-- A number of 32 bits fits in them. -/
def Value.FitsInt (v : Value) : Prop := ∀ ival, v = .int ival → -2 ^ 31 ≤ ival ∧ ival < 2 ^ 31

theorem BNode.Values.narrow {node : BNode} (h : node.Values Value.NeedsInt64) : node.Narrow := by
  induction h with
  | value v bytes h => exact .value v bytes h
  | list children bytes _ ih => exact .list children bytes ih
  | dict children bytes _ ih => exact .dict children bytes ih

theorem BNode.Values.mono {P Q : Value → Prop} (hPQ : ∀ v, P v → Q v) {node : BNode}
    (h : node.Values P) : node.Values Q := by
  induction h with
  | value v bytes h => exact .value v bytes (hPQ v h)
  | list children bytes _ ih => exact .list children bytes ih
  | dict children bytes _ ih => exact .dict children bytes ih

namespace BDecoder

variable {data : List UInt8} {dec : ℕ → Except DecodeError (Option BNode × ℕ)}
  {P : Value → Prop}

theorem parseInt_values {off pos : ℕ} {node : BNode} (h : parseInt data off = .ok (node, pos)) :
    node.Values fun v => v.NeedsInt64 ∧ v.FitsInt := by
  unfold parseInt at h
  simp only [bind, Except.bind, throw, throwThe, MonadExceptOf.throw, pure, Except.pure] at h
  split at h
  · cases h
  · split at h
    · rename_i hint
      split at h
      · cases h
      · cases h
        refine .value _ _ ⟨fun _ heq => (by cases heq), fun ival heq => ?_⟩
        cases heq
        rw [toInt, toIntegral, Option.filter_eq_some_iff] at hint
        have hfits := hint.2
        rw [Bool.and_eq_true, decide_eq_true_eq, decide_eq_true_eq] at hfits
        exact hfits
    · rename_i hint
      split at h
      · rename_i hlong
        split at h
        · cases h
        · cases h
          refine .value _ _ ⟨fun bigIval heq hfits => ?_, fun _ heq => (by cases heq)⟩
          cases heq
          -- the number is the same in both conversions
          obtain ⟨hwhole, -⟩ := Option.filter_eq_some_iff.mp hlong
          rw [toInt, toIntegral, hwhole, Option.filter_some] at hint
          simp at hint
          omega
      · cases h

theorem parseString_values {off pos : ℕ} {node : BNode}
    (h : parseString data off = .ok (node, pos)) :
    node.Values fun v => v.NeedsInt64 ∧ v.FitsInt := by
  unfold parseString at h
  simp only [bind, Except.bind, throw, throwThe, MonadExceptOf.throw, pure, Except.pure] at h
  split at h
  · cases h
  · split at h
    · cases h
    · split at h
      · cases h
      · split at h
        · cases h
        · split at h
          · cases h
          · split at h
            · cases h
            · cases h
              exact .value _ _ ⟨fun _ heq => (nomatch heq), fun _ heq => (nomatch heq)⟩

theorem dictLoop_values
    (hdec : ∀ pos node stop, dec pos = .ok (some node, stop) → node.Values P) :
    ∀ (fuel pos stop : ℕ) (children entries : BDictNode),
      dictLoop data dec fuel pos children = .ok (entries, stop) → (∀ e ∈ children, e.2.Values P) →
      ∀ e ∈ entries, e.2.Values P := by
  intro fuel
  induction fuel with
  | zero => exact fun _ _ _ _ h => (nomatch h)
  | succ fuel ih =>
    intro pos stop children entries h hchildren
    rw [dictLoop] at h
    split at h
    · simp only [bind, Except.bind] at h
      split at h
      · cases h
      · split at h
        · cases h
        · split at h
          · cases h
          · rename_i r hvalue
            split at h
            · cases h
            · rename_i value hsome
              refine ih _ _ _ _ h fun e he => ?_
              rcases List.mem_append.mp he with he | he
              · exact hchildren e he
              · rw [List.mem_singleton.mp he]
                exact hdec _ value r.2 (by rw [hvalue, ← hsome])
    · cases h
      exact hchildren

theorem listLoop_values
    (hdec : ∀ pos node stop, dec pos = .ok (some node, stop) → node.Values P) :
    ∀ (fuel pos stop : ℕ) (children items : List BNode),
      listLoop data dec fuel pos children = .ok (items, stop) → (∀ n ∈ children, n.Values P) →
      ∀ n ∈ items, n.Values P := by
  intro fuel
  induction fuel with
  | zero => exact fun _ _ _ _ h => (nomatch h)
  | succ fuel ih =>
    intro pos stop children items h hchildren
    rw [listLoop] at h
    split at h
    · simp only [bind, Except.bind] at h
      split at h
      · cases h
      · rename_i r hitem
        refine ih _ _ _ _ h fun n hn => ?_
        rcases List.mem_append.mp hn with hn | hn
        · exact hchildren n hn
        · exact hdec _ n r.2 (by rw [hitem, ← Option.mem_toList.mp hn])
    · cases h
      exact hchildren

/-- **What the numbers and strings satisfy, every value that the decoder returns does.** -/
theorem decode_values
    (hint : ∀ off node pos, parseInt data off = .ok (node, pos) → node.Values P)
    (hstring : ∀ off node pos, parseString data off = .ok (node, pos) → node.Values P) : ∀ (fuel pos stop : ℕ) (node : BNode),
    decode data fuel pos = .ok (some node, stop) → node.Values P := by
  intro fuel
  induction fuel with
  | zero => exact fun _ _ _ h => by cases h
  | succ fuel ih =>
    intro pos stop node h
    have hdec : ∀ pos node stop, decode data fuel pos = .ok (some node, stop) → node.Values P :=
      fun pos node stop => ih pos stop node
    rw [decode] at h
    split at h
    · cases h
    · split at h
      · cases h
      · split at h
        · have hparse := found_eq_ok h
          unfold parseDict at hparse
          simp only [bind, Except.bind, pure, Except.pure] at hparse
          split at hparse
          · cases hparse
          · rename_i hloop
            split at hparse
            · cases hparse
            · cases hparse
              exact .dict _ _ (dictLoop_values hdec _ _ _ _ _ hloop fun _ he => by cases he)
        · split at h
          · have hparse := found_eq_ok h
            unfold parseList at hparse
            simp only [bind, Except.bind, pure, Except.pure] at hparse
            split at hparse
            · cases hparse
            · rename_i hloop
              split at hparse
              · cases hparse
              · cases hparse
                exact .list _ _ (listLoop_values hdec _ _ _ _ _ hloop fun _ hn => by cases hn)
          · split at h
            · exact hint _ _ _ (found_eq_ok h)
            · split at h
              · exact hstring _ _ _ (found_eq_ok h)
              · cases h

/-- **The decoder chooses the size of a number by the number.** -/
theorem decode_sizes (fuel pos stop : ℕ) (node : BNode)
    (h : decode data fuel pos = .ok (some node, stop)) :
    node.Values fun v => v.NeedsInt64 ∧ v.FitsInt :=
  decode_values (fun _ _ _ => parseInt_values) (fun _ _ _ => parseString_values) fuel pos stop node h

/-- **What the decoder returns is narrow.** -/
theorem decode_narrow (fuel pos stop : ℕ) (node : BNode)
    (h : decode data fuel pos = .ok (some node, stop)) : node.Narrow :=
  ((decode_sizes fuel pos stop node h).mono fun _ hv => hv.1).narrow

/-- What `getInt` reads fits in an `int`. -/
theorem getInt_fits {fuel pos stop : ℕ} {dict : BDictNode} {bytes key : List UInt8} {n : ℤ}
    (h : decode data fuel pos = .ok (some (.dict dict bytes), stop))
    (hget : BDictNode.getInt dict key = .ok n) : -2 ^ 31 ≤ n ∧ n < 2 ^ 31 := by
  cases decode_sizes fuel pos stop _ h with
  | dict _ _ hentries =>
    rw [BDictNode.getInt, BDictNode.getValue, BDictNode.getData] at hget
    cases hfind : dict.find? fun e => e.1 == key with
    | none =>
      rw [hfind] at hget
      cases hget
    | some e =>
      have hvalues := hentries e (List.mem_of_find?_eq_some hfind)
      rw [hfind, Option.map_some, Option.bind_some] at hget
      cases hnode : e.2 with
      | list children _ => rw [hnode] at hget; cases hget
      | dict children _ => rw [hnode] at hget; cases hget
      | value v _ =>
        rw [hnode] at hget hvalues
        cases hvalues with
        | value _ _ hv =>
          cases v with
          | string _ => cases hget
          | int64 _ => cases hget
          | int ival =>
            cases hget
            exact hv.2 _ rfl

end BDecoder

namespace BTree

variable {es : List (BString × BTree)} {ns : BDictNode} (key : List UInt8)

theorem narrow_of_getData {node : BNode} (hns : ∀ e ∈ ns, e.2.Narrow)
    (h : ns.getData key = some node) : node.Narrow := by
  obtain ⟨e, he, rfl⟩ := Option.map_eq_some_iff.mp h
  exact hns e (List.mem_of_find?_eq_some he)

/-- A small number is found as one of 32 bits. -/
theorem EqualsEntries.getInt {n : Fin (2 ^ 63)} (h : EqualsEntries es ns)
    (hns : ∀ e ∈ ns, e.2.Narrow) (hn : n.1 < 2 ^ 31) (hkey : lookup es key = some (.int n)) :
    ns.getInt key = .ok (n.1 : ℤ) := by
  have hget := h.getData key
  rw [hkey] at hget
  obtain ⟨node, hnode, hequals⟩ := hget
  have hnarrow := narrow_of_getData key hns hnode
  unfold BDictNode.getInt BDictNode.getValue
  rw [hnode]
  match node, hequals with
  | .value (.int ival) _, hequals => exact congrArg Except.ok hequals
  | .value (.int64 bigIval) _, hequals =>
    cases hnarrow with
    | value _ _ hbig =>
      have hval : bigIval = (n.1 : ℤ) := hequals
      exact absurd ⟨by omega, by omega⟩ (hbig bigIval rfl)

end BTree

end KTorrent
