import KTorrent.Download.CurrentChunks
import KTorrent.Download.Received
import KTorrent.Util.BitSetCount

/-!
# A chunk is saved and loaded

A chunk download that is loaded from the file has received the pieces that it had
received when it was saved.

* `pieceBits_get`, `loadBits_eq` — the bit set in the file.
* `loadPieces_saved` — the pieces in the file, and those that the cache has.
* `Gathered.load_save` — the chunk: it holds the pieces that were saved, those
  that were mapped as the cache returns them.
-/

namespace KTorrent

open Runs

variable {M M' : Type} {cache : PieceCache M} {cache' : PieceCache M'} {stored' : M' → ℕ → UInt8}
  {Ok' : M' → Prop} {size : ℕ} {t : PieceTable} {m : M} {got : ℕ → Option (List UInt8)}

namespace PieceTable

/-! ## The bit set -/

/-- The bit set `pieces` has the pieces that arrived, and is counted right. -/
theorem pieceBits_spec (h : t.num < 2 ^ 32) :
    t.pieceBits.numBits = UInt32.ofNat t.num ∧
      (∀ i, t.pieceBits.get i = (decide (i < t.num) && t.pieces i)) ∧ t.pieceBits.Counted ∧
      t.pieceBits.numOn = UInt32.ofNat (countBytes t.pieceBits.data) := by
  have hnum : (UInt32.ofNat t.num).toNat = t.num := by
    rw [UInt32.toNat_ofNat']
    exact Nat.mod_eq_of_lt h
  have hfold : ∀ n ≤ t.num, ∀ bits : BitSet,
      bits = (List.range n).foldl (fun bits i => bits.set i (t.pieces i)) (.new (UInt32.ofNat t.num)) →
      bits.numBits = UInt32.ofNat t.num ∧ (∀ i, bits.get i = (decide (i < n) && t.pieces i)) ∧
        bits.Counted ∧ bits.numOn = UInt32.ofNat (countBytes bits.data) := by
    intro n
    induction n with
    | zero =>
      rintro - bits rfl
      refine ⟨rfl, fun i => ?_, counted_new _, ?_⟩
      · exact BitSet.get_new _ i
      · have hzero : ∀ k, countBytes (List.replicate k 0) = 0 := fun k => by
          rw [countBytes, List.map_replicate, List.sum_replicate]
          exact Nat.mul_zero k
        exact (congrArg UInt32.ofNat (hzero _)).symm
    | succ n ih =>
      rintro hn bits rfl
      obtain ⟨hbits, hget, hcounted, hon⟩ := ih (by omega) _ rfl
      rw [List.range_succ, List.foldl_append, List.foldl_cons, List.foldl_nil]
      refine ⟨by rw [BitSet.numBits_set, hbits], fun i => ?_, BitSet.counted_set hcounted n _,
        BitSet.numOn_set hon n _⟩
      rw [BitSet.get_set _ _ (by rw [hbits, hnum]; omega), hget]
      by_cases hi : i = n
      · simp [hi]
      · have hiff : i < n + 1 ↔ i < n := by omega
        simp [hi, hiff]
  exact hfold t.num le_rfl _ rfl

/-- The bit set is read back. -/
theorem loadBits_eq (h : t.num < 2 ^ 32) (file : List UInt8) :
    loadBits t.num (t.pieceBits.data ++ file) = t.pieceBits := by
  obtain ⟨hbits, -, -, hon⟩ := pieceBits_spec h
  have hlen : t.pieceBits.data.length = numBytesFromNumBits (UInt32.ofNat t.num).toNat := by
    rw [← hbits]
    exact t.pieceBits.length_data
  refine BitSet.recount_eq hon hbits.symm ?_ _
  rw [← hlen, List.take_left, List.length_append, Nat.sub_eq_zero_of_le (Nat.le_add_right _ _),
    List.replicate_zero, List.append_nil]

/-! ## The pieces -/

/-- What is saved for a table that has gathered its pieces. -/
theorem mem_saved {s : Saved} : s ∈ t.saved cache m ↔
    s.piece < t.num ∧ t.pieceData s.piece = some s.ref ∧ cache.bytes m s.ref = some s.data := by
  simp only [saved, List.mem_filterMap, List.mem_range, Option.bind_eq_some_iff, Option.map_eq_some_iff]
  constructor
  · rintro ⟨i, hi, r, hr, data, hdata, rfl⟩
    exact ⟨hi, hr, hdata⟩
  · rintro ⟨hi, hr, hdata⟩
    exact ⟨s.piece, hi, s.ref, hr, s.data, hdata, rfl⟩

/-- Every piece is saved once. -/
theorem saved_pairwise : (t.saved cache m).Pairwise fun a b => a.piece ≠ b.piece := by
  rw [saved, List.pairwise_filterMap]
  refine List.Pairwise.imp ?_ List.nodup_range
  intro i j hij a ha b hb
  simp only [Option.bind_eq_some_iff, Option.map_eq_some_iff] at ha hb
  obtain ⟨r, -, data, -, rfl⟩ := ha
  obtain ⟨r', -, data', -, rfl⟩ := hb
  exact hij

/-- The lengths of a piece that is saved. -/
structure Saved.Fits (t : PieceTable) (s : Saved) : Prop where
  piece : s.piece < t.num
  len : s.ref.len = t.pieceLen s.piece
  data : s.data.length = s.ref.len

/-- What is loaded for it: the data from the file, or for a mapped piece that is mapped again the
bytes `stored` at its place. -/
structure Loaded (cache : PieceCache M) (stored : ℕ → UInt8) (t : PieceTable) (m : M) (s : Saved)
    (r : PieceRef) (data : List UInt8) : Prop where
  off : r.off = s.piece * maxPieceLen
  len : r.len = t.pieceLen s.piece
  bytes : cache.bytes m r = some data
  length : data.length = r.len
  buffered : s.ref.mapped = false → data = s.data
  mapped : s.ref.mapped = true → r.mapped = true →
    data = (List.range r.len).map fun k => stored (r.off + k)

/-- Every position in a chunk is a `Uint32`. -/
theorem Numbers.bounds (h : t.Numbers size) (hsize : size < 2 ^ 32) :
    t.num < 2 ^ 32 ∧ ∀ i < t.num, i * maxPieceLen < 2 ^ 32 ∧ t.pieceLen i < 2 ^ 32 := by
  rcases Nat.eq_zero_or_pos size with rfl | hpos
  · have hnum := h.num
    simp [PieceTable.new] at hnum
    exact ⟨by omega, fun i hi => by omega⟩
  · obtain ⟨hnum, htile, hlast, -⟩ := h.tile hpos
    have hmul : ∀ i < t.num, i * maxPieceLen ≤ (t.num - 1) * maxPieceLen := fun i hi =>
      Nat.mul_le_mul_right _ (by omega)
    refine ⟨?_, fun i hi => ⟨by have := hmul i hi; omega, ?_⟩⟩
    · have hle := Nat.le_mul_of_pos_right (t.num - 1) (show 0 < maxPieceLen by decide)
      omega
    · have hle := (h.start_eq hpos hi).2.2
      have hmax : maxPieceLen < 2 ^ 32 := by decide
      omega

/-- One piece is loaded. -/
theorem loadPieces_step (law : SteadyCache cache' stored' Ok') (hnum : t.Numbers size)
    (hsize : size < 2 ^ 32) {m : M'} (hok : Ok' m) {s : Saved} (hs : s.Fits t) (n : ℕ)
    (file : List UInt8) :
    ∃ r data m₁, loadPieces cache' (n + 1) (s.write ++ file) t m = loadPieces cache' n file
        { t with pieceData := Function.update t.pieceData s.piece (some r) } m₁ ∧ Ok' m₁ ∧
      Loaded cache' (stored' m) t m₁ s r data ∧
      (∀ r' data', r'.off + r'.len ≤ r.off ∨ r.off + r.len ≤ r'.off → cache'.bytes m r' = some data' →
        cache'.bytes m₁ r' = some data') ∧
      ∀ x, x < r.off ∨ r.off + r.len ≤ x → stored' m₁ x = stored' m x := by
  obtain ⟨-, hbounds⟩ := hnum.bounds hsize
  obtain ⟨hoffset, hlength⟩ := hbounds s.piece hs.piece
  have hhead : ∀ rest, PieceHeader.read ((PieceHeader.mk s.piece s.ref.len
      (if s.ref.mapped then 1 else 0)).write ++ rest)
        = some (⟨s.piece, s.ref.len, if s.ref.mapped then 1 else 0⟩, rest) := fun rest =>
    PieceHeader.read_write (hs.piece.trans (hnum.bounds hsize).1) (hs.len ▸ hlength)
      (by split <;> decide) rest
  obtain ⟨r, m₁, hget, hok₁, ⟨d, hd, hdlen⟩, hwritable⟩ :=
    law.ready (u32 (s.piece * maxPieceLen)) s.ref.len hok
  obtain ⟨hoff, hlen⟩ := law.getPiece_range hget
  have hfile : stored' m₁ = stored' m := by
    have hkept := law.getPiece_stored m (u32 (s.piece * maxPieceLen)) s.ref.len false
    rwa [hget] at hkept
  have hkept : ∀ {r' data'}, cache'.bytes m r' = some data' → cache'.bytes m₁ r' = some data' := by
    intro r' data' hb
    have hgot := law.getPiece_bytes (u32 (s.piece * maxPieceLen)) s.ref.len false hb
    rwa [hget] at hgot
  rw [u32_of_lt hoffset] at hoff hget
  rw [Saved.write, List.append_assoc, loadPieces, hhead]
  dsimp only
  rw [if_neg (not_le.mpr hs.piece), u32_of_lt hoffset, hget]
  cases hmap : s.ref.mapped with
  | true =>
    refine ⟨r, d, m₁, rfl, hok₁, ⟨hoff, hlen.trans hs.len, hd, hdlen.trans hlen.symm, ?_, ?_⟩,
      fun r' data' _ hb => hkept hb, fun x _ => congrFun hfile x⟩
    · exact fun h => absurd (hmap.symm.trans h) (by decide)
    · intro _ hmapped
      rw [law.mapped_bytes hmapped hd, hfile]
  | false =>
    obtain ⟨m₂, hwrite, hok₂⟩ := hwritable s.data hs.data
    have htake : (s.data ++ file).take r.len = s.data := by
      rw [hlen, ← hs.data, List.take_left]
    have hdrop : (s.data ++ file).drop r.len = file := by
      rw [hlen, ← hs.data, List.drop_left]
    have hthere : ¬ (s.data ++ file).length < r.len := by
      rw [hlen, ← hs.data, List.length_append]
      omega
    simp only [Bool.false_eq_true, if_false, if_true, htake, hwrite, hthere, hdrop]
    refine ⟨r, s.data, m₂, rfl, hok₂, ⟨hoff, hlen.trans hs.len,
      law.write_bytes hwrite (hs.data.trans hlen.symm), hs.data.trans hlen.symm, fun _ => rfl, ?_⟩,
      fun r' data' hdisj hb => ?_, fun x hx => ?_⟩
    · exact fun h => absurd (hmap.symm.trans h) (by decide)
    · have hother := law.write_other s.data hdisj (hkept hb)
      rwa [hwrite] at hother
    · have hout := law.write_stored (m := m₁) s.data hx
      rw [hwrite] at hout
      rw [hout, hfile]

/-- **The pieces that were saved are loaded.** -/
theorem loadPieces_saved (law : SteadyCache cache' stored' Ok') (hsize : size < 2 ^ 32)
    (stored : ℕ → UInt8) (file : List UInt8) :
    ∀ (l : List Saved) (t : PieceTable) (m : M'), t.Numbers size → Ok' m → (∀ s ∈ l, s.Fits t) →
      l.Pairwise (fun a b => a.piece ≠ b.piece) →
      (∀ s ∈ l, ∀ k < t.pieceLen s.piece,
        stored' m (s.piece * maxPieceLen + k) = stored (s.piece * maxPieceLen + k)) →
      ∃ pieceData m₁, loadPieces cache' l.length (l.flatMap Saved.write ++ file) t m
          = (true, file, { t with pieceData := pieceData }, m₁) ∧ Ok' m₁ ∧
        (∀ i, i ∉ l.map Saved.piece → pieceData i = t.pieceData i) ∧
        (∀ s ∈ l, ∃ r data, pieceData s.piece = some r ∧ Loaded cache' stored t m₁ s r data) ∧
        ∀ r data i, i < t.num → i ∉ l.map Saved.piece → r.off = i * maxPieceLen →
          r.len = t.pieceLen i → cache'.bytes m r = some data → cache'.bytes m₁ r = some data := by
  intro l
  induction l with
  | nil =>
    intro t m _ hok _ _ _
    exact ⟨t.pieceData, m, rfl, hok, fun _ _ => rfl, fun s hs => (nomatch hs),
      fun r data i _ _ _ _ hb => hb⟩
  | cons s l ih =>
    intro t m hnum hok hfits hpair hstored
    obtain ⟨hne, hpair⟩ := List.pairwise_cons.mp hpair
    have hs := hfits s List.mem_cons_self
    obtain ⟨r, data, m₁, hstep, hok₁, hload, hkept, hout⟩ :=
      loadPieces_step law hnum hsize hok hs l.length (l.flatMap Saved.write ++ file)
    have hnotin : s.piece ∉ l.map Saved.piece := by
      intro hin
      obtain ⟨s', hs', heq⟩ := List.mem_map.mp hin
      exact hne s' hs' heq.symm
    obtain ⟨pieceData, m₂, hrest, hok₂, hother, hloaded, hbytes⟩ := ih
      { t with pieceData := Function.update t.pieceData s.piece (some r) } m₁
      ⟨hnum.num, hnum.lastSize⟩ hok₁
      (fun s' hs' => ⟨(hfits s' (List.mem_cons_of_mem s hs')).piece,
        (hfits s' (List.mem_cons_of_mem s hs')).len, (hfits s' (List.mem_cons_of_mem s hs')).data⟩)
      hpair (fun s' hs' k hk => by
        have hapart := hnum.apart (hfits s' (List.mem_cons_of_mem s hs')).piece hs.piece
          (hne s' hs').symm
        have hk' : k < t.pieceLen s'.piece := hk
        rw [hout _ (by rw [hload.off, hload.len]; omega)]
        exact hstored s' (List.mem_cons_of_mem s hs') k hk)
    refine ⟨pieceData, m₂, ?_, hok₂, fun i hi => ?_, fun s' hs' => ?_, fun r' d i hi hin hoff hlen hb => ?_⟩
    · rw [List.length_cons, List.flatMap_cons, List.append_assoc, hstep, hrest]
    · rw [List.map_cons, List.mem_cons, not_or] at hi
      exact (hother i hi.2).trans (Function.update_of_ne hi.1 _ _)
    · rcases List.mem_cons.mp hs' with rfl | hs'
      · refine ⟨r, data, ?_, hload.off, hload.len, ?_, hload.length, hload.buffered, ?_⟩
        · exact (hother _ hnotin).trans (Function.update_self ..)
        · exact hbytes r data s'.piece hs.piece hnotin hload.off hload.len hload.bytes
        · intro hm hm'
          rw [hload.mapped hm hm']
          refine List.map_congr_left fun k hk => ?_
          have hk := List.mem_range.mp hk
          rw [hload.off]
          exact hstored s' List.mem_cons_self k (hload.len ▸ hk)
      · obtain ⟨r', d, hr', hl⟩ := hloaded s' hs'
        exact ⟨r', d, hr', hl.off, hl.len, hl.bytes, hl.length, hl.buffered, hl.mapped⟩
    · rw [List.map_cons, List.mem_cons, not_or] at hin
      refine hbytes r' d i hi hin.2 hoff hlen (hkept r' d ?_ hb)
      rw [hload.off, hload.len, hoff, hlen]
      exact hnum.apart hi hs.piece hin.1

end PieceTable

/-! ## The chunk -/

/-- What is saved for the pieces that were gathered. -/
theorem Gathered.mem_saved (h : Gathered cache size t m got) {s : PieceTable.Saved}
    (hs : s ∈ t.saved cache m) : s.Fits t ∧ got s.piece = some s.data := by
  obtain ⟨hlt, hr, hbytes⟩ := PieceTable.mem_saved.mp hs
  cases hgot : got s.piece with
  | none =>
    rw [h.noData _ hgot] at hr
    cases hr
  | some data =>
    obtain ⟨-, hlen, r, hr', -, hrlen, hb⟩ := h.data _ _ hgot
    obtain rfl : r = s.ref := Option.some.inj (hr'.symm.trans hr)
    obtain rfl : data = s.data := Option.some.inj (hb.symm.trans hbytes)
    exact ⟨⟨hlt, hrlen, hlen.trans hrlen.symm⟩, rfl⟩

/-- Every piece that was gathered is saved. -/
theorem Gathered.exists_saved (h : Gathered cache size t m got) {i : ℕ} {data : List UInt8}
    (hi : got i = some data) : ∃ s ∈ t.saved cache m, s.piece = i ∧ s.data = data := by
  obtain ⟨hlt, -, r, hr, -, -, hb⟩ := h.data i data hi
  exact ⟨⟨i, r, data⟩, PieceTable.mem_saved.mpr ⟨hlt, hr, hb⟩, rfl, rfl⟩

/-- The pieces of the chunk download that is loaded from what was saved. -/
structure Reloaded (cache' : PieceCache M') (stored : ℕ → UInt8) (t t' : PieceTable) (m' : M')
    (got got' : ℕ → Option (List UInt8)) : Prop where
  same : ∀ i, (got' i).isSome = (got i).isSome
  loaded : ∀ i data, got i = some data → ∃ r r' data', t.pieceData i = some r ∧
    t'.pieceData i = some r' ∧ got' i = some data' ∧
    PieceTable.Loaded cache' stored t m' ⟨i, r, data⟩ r' data'

/-- The pieces are loaded into a table that knows which pieces there are. -/
theorem Gathered.reload (law : SteadyCache cache' stored' Ok') (hsize : size < 2 ^ 32)
    (h : Gathered cache size t m got) {t₁ : PieceTable} (hnum₁ : t₁.Numbers size)
    (hpieces : t₁.pieces = t.pieces) (hcount : t₁.numDownloaded = t.numDownloaded)
    (hnone : ∀ i, t₁.pieceData i = none) {m' : M'} (hok : Ok' m') (file : List UInt8) :
    ∃ pieceData m₁ got', PieceTable.loadPieces cache' (t.saved cache m).length
        ((t.saved cache m).flatMap PieceTable.Saved.write ++ file) t₁ m'
          = (true, file, { t₁ with pieceData := pieceData }, m₁) ∧ Ok' m₁ ∧
      Gathered cache' size { t₁ with pieceData := pieceData } m₁ got' ∧
      Reloaded cache' (stored' m') t { t₁ with pieceData := pieceData } m₁ got got' := by
  obtain ⟨hnum, hlast⟩ := h.numbers.same hnum₁
  have hlen : ∀ i, t₁.pieceLen i = t.pieceLen i := fun i => by
    rw [PieceTable.pieceLen, PieceTable.pieceLen, hnum, hlast]
  obtain ⟨pieceData, m₁, hload, hok₁, hother, hloaded, -⟩ := PieceTable.loadPieces_saved law hsize
    (stored' m') file (t.saved cache m) t₁ m' hnum₁ hok
    (fun s hs => ⟨hnum.symm ▸ (h.mem_saved hs).1.piece, (h.mem_saved hs).1.len.trans (hlen _).symm,
      (h.mem_saved hs).1.data⟩) PieceTable.saved_pairwise fun _ _ _ _ => rfl
  have hempty : ∀ i, got i = none → pieceData i = none := by
    intro i hi
    refine (hother i fun hin => ?_).trans (hnone i)
    obtain ⟨s, hs, rfl⟩ := List.mem_map.mp hin
    rw [(h.mem_saved hs).2] at hi
    cases hi
  set got' : ℕ → Option (List UInt8) := fun i => (pieceData i).bind (cache'.bytes m₁) with hgot'
  have hsome : ∀ i data, got i = some data → ∃ r r' data', t.pieceData i = some r ∧
      pieceData i = some r' ∧ got' i = some data' ∧
      PieceTable.Loaded cache' (stored' m') t m₁ ⟨i, r, data⟩ r' data' := by
    intro i data hi
    obtain ⟨s, hs, rfl, rfl⟩ := h.exists_saved hi
    obtain ⟨r', data', hr', hl⟩ := hloaded s hs
    refine ⟨s.ref, r', data', (PieceTable.mem_saved.mp hs).2.1, hr', ?_, hl.off,
      hl.len.trans (hlen _), hl.bytes, hl.length, hl.buffered, hl.mapped⟩
    simp only [hgot', hr', Option.bind_some, hl.bytes]
  have hsame : ∀ i, (got' i).isSome = (got i).isSome := by
    intro i
    cases hi : got i with
    | some data =>
      obtain ⟨-, -, data', -, -, hd, -⟩ := hsome i data hi
      rw [hd]
      rfl
    | none =>
      simp only [hgot', hempty i hi]
      rfl
  refine ⟨pieceData, m₁, got', hload, hok₁, ⟨⟨hnum₁.num, hnum₁.lastSize⟩, fun i => ?_, fun i hi => ?_,
    fun i d hi => ?_, ?_⟩, hsame, hsome⟩
  · change t₁.pieces i = _
    rw [hpieces, h.pieces, hsame]
  · refine hempty i (Option.not_isSome_iff_eq_none.mp ?_)
    rw [← hsame, hi]
    exact Bool.false_ne_true
  · have hthere : (got i).isSome := by
      rw [← hsame, hi]
      rfl
    obtain ⟨data, hd⟩ := Option.isSome_iff_exists.mp hthere
    obtain ⟨r, r', data', -, hr', hgot, hl⟩ := hsome i data hd
    obtain rfl : data' = d := Option.some.inj (hgot.symm.trans hi)
    exact ⟨hnum.symm ▸ (h.data i data hd).1, (hl.length.trans hl.len).trans (hlen i).symm, r', hr',
      hl.off, hl.len.trans (hlen i).symm, hl.bytes⟩
  · change t₁.numDownloaded = (List.range t₁.num).countP _
    rw [hcount, h.count, hnum]
    exact List.countP_congr fun i _ => by rw [hsame]

/-- **A chunk that was saved is loaded**: it holds the same pieces. -/
theorem Gathered.load_save (law : SteadyCache cache' stored' Ok') (hsize : size < 2 ^ 32)
    (h : Gathered cache size t m got) {m' : M'} (hok : Ok' m') (file : List UInt8) :
    ∃ t' m₁ got', (PieceTable.new t.index size).load cache' t.num (t.pieceBits.data ++
        (putUint32 (t.saved cache m).length ++ ((t.saved cache m).flatMap PieceTable.Saved.write ++ file)))
        m' = (true, file, t', m₁) ∧ Ok' m₁ ∧ t'.index = t.index ∧ Holds cache' size t' m₁ got' ∧
      Reloaded cache' (stored' m') t t' m₁ got got' := by
  obtain ⟨hnum32, -⟩ := h.numbers.bounds hsize
  obtain ⟨hbits, hget, hcounted, -⟩ := PieceTable.pieceBits_spec hnum32
  have hnum : (PieceTable.new t.index size).num = t.num := h.numbers.num.symm
  have hcount : (t.saved cache m).length ≤ t.num := by
    have hle := List.length_filterMap_le (fun i => (t.pieceData i).bind fun r =>
      (cache.bytes m r).map fun data => PieceTable.Saved.mk i r data) (List.range t.num)
    rwa [List.length_range] at hle
  have hpieces : t.pieceBits.get = t.pieces := by
    funext i
    rw [hget]
    cases hi : t.pieces i with
    | false => exact Bool.and_false _
    | true =>
      obtain ⟨data, hd⟩ := Option.isSome_iff_exists.mp ((h.pieces i).symm.trans hi)
      rw [decide_eq_true (h.data i data hd).1]
      rfl
  have hon : t.pieceBits.numOn.toNat = t.numDownloaded := by
    rw [hcounted.1, BitSet.countOn, hpieces, hbits, UInt32.toNat_ofNat', Nat.mod_eq_of_lt hnum32, h.count]
    exact List.countP_congr fun i _ => by rw [h.pieces]
  obtain ⟨t₁, ht₁⟩ : ∃ t₁, t₁ = (PieceTable.new t.index size).withBits t.pieceBits := ⟨_, rfl⟩
  have hnum₁ : t₁.Numbers size := by subst ht₁; exact ⟨rfl, rfl⟩
  obtain ⟨pieceData, m₁, got', hload, hok₁, hgathered, hreload⟩ := h.reload law hsize hnum₁
    (by subst ht₁; exact hpieces) (by subst ht₁; exact hon)
    (fun _ => by subst ht₁; rfl) hok file
  have hhashed : t₁.hashed = [] := by
    subst ht₁
    rfl
  obtain ⟨hashed, k, m₂, hupdate, hholds, hok₂⟩ := Gathered.updateHash law
    (hgathered.withHashed t₁.hashed 0) hok₁ (Nat.zero_le _)
    (fun i hi => absurd hi (Nat.not_lt_zero i)) hhashed
  refine ⟨{ t₁ with pieceData := pieceData, hashed := hashed, numPiecesInHash := k }, m₂, got', ?_,
    hok₂, by subst ht₁; rfl, hholds, hreload.same, fun i data hi => ?_⟩
  · rw [PieceTable.load, if_neg (not_not.mpr hnum.symm), PieceTable.loadBits_eq hnum32]
    dsimp only
    rw [List.drop_left, takeUint32_put (hcount.trans_lt hnum32), ← ht₁]
    dsimp only
    rw [if_neg (by rw [ht₁]; exact not_lt.mpr (hcount.trans hnum.ge)), hload]
    exact congrArg (fun r => (true, file, r)) hupdate
  · obtain ⟨r, r', data', hr, hr', hd, hl⟩ := hreload.loaded i data hi
    obtain ⟨-, -, r'', hr'', -, -, hb⟩ := hholds.data i data' hd
    obtain rfl : r' = r'' := Option.some.inj (hr'.symm.trans hr'')
    exact ⟨r, r', data', hr, hr', hd, hl.off, hl.len, hb, hl.length, hl.buffered, hl.mapped⟩

end KTorrent
