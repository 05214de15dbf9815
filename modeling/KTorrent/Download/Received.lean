import KTorrent.Download.HashStored

/-!
# What a chunk download has received

The pieces of a chunk are hashed in their order, whatever the order in which they
arrive.  What is hashed therefore follows from the pieces that were received.

* `Gathered`, `Holds` — the table and the cache hold certain pieces; those before
  the first missing one are hashed.
* `Holds.agree` — two tables that hold the same pieces have the same hash.
* `Holds.piece` — a call of `piece` adds the piece, if it is accepted.
* `SameReceived.run` — two chunk downloads that hold the same pieces give the same
  hash after the same calls.
-/

namespace KTorrent

open Runs

/-- The pieces before `k`, one behind the other. -/
def bytesUpTo (got : ℕ → Option (List UInt8)) (k : ℕ) : List UInt8 :=
  (List.range k).flatMap fun i => (got i).getD []

theorem bytesUpTo_succ {got : ℕ → Option (List UInt8)} {k : ℕ} {data : List UInt8}
    (h : got k = some data) : bytesUpTo got (k + 1) = bytesUpTo got k ++ data := by
  simp [bytesUpTo, List.range_succ, List.flatMap_append, h]

theorem bytesUpTo_congr {got got' : ℕ → Option (List UInt8)} {k : ℕ}
    (h : ∀ i < k, got' i = got i) : bytesUpTo got' k = bytesUpTo got k := by
  rw [bytesUpTo, bytesUpTo, List.flatMap_def, List.flatMap_def]
  refine congrArg List.flatten (List.map_congr_left fun i hi => ?_)
  rw [h i (List.mem_range.mp hi)]

/-- The pieces `got` have arrived and are in the cache, at their places. -/
structure Gathered {M : Type} (cache : PieceCache M) (size : ℕ) (t : PieceTable) (m : M)
    (got : ℕ → Option (List UInt8)) : Prop where
  numbers : t.Numbers size
  pieces : ∀ i, t.pieces i = (got i).isSome
  noData : ∀ i, got i = none → t.pieceData i = none
  data : ∀ i data, got i = some data → i < t.num ∧ data.length = t.pieceLen i ∧
    ∃ r, t.pieceData i = some r ∧ r.off = i * maxPieceLen ∧ r.len = t.pieceLen i ∧
      cache.bytes m r = some data
  count : t.numDownloaded = (List.range t.num).countP fun i => (got i).isSome

/-- **The invariant**: those before the first missing one are hashed. -/
structure Holds {M : Type} (cache : PieceCache M) (size : ℕ) (t : PieceTable) (m : M)
    (got : ℕ → Option (List UInt8)) : Prop extends Gathered cache size t m got where
  le_num : t.numPiecesInHash ≤ t.num
  before : ∀ i < t.numPiecesInHash, (got i).isSome
  missing : t.numPiecesInHash < t.num → got t.numPiecesInHash = none
  hashed : t.hashed = bytesUpTo got t.numPiecesInHash

/-- `got`, after the call of `piece`. -/
def arrive {PD : Type} (t : PieceTable) (got : ℕ → Option (List UInt8)) (p : Piece PD) :
    ℕ → Option (List UInt8) :=
  if t.accepts p then Function.update got (p.offset / maxPieceLen) (some p.data) else got

section Invariant

variable {M M' : Type} {cache : PieceCache M} {cache' : PieceCache M'} {stored : M → ℕ → UInt8}
  {Ok : M → Prop} {size : ℕ} {t t' : PieceTable} {m m₁ : M} {m' : M'}
  {got : ℕ → Option (List UInt8)}

/-- Different pieces do not overlap, in a chunk of any size. -/
theorem PieceTable.Numbers.apart (h : t.Numbers size) {i j : ℕ} (hi : i < t.num) (hj : j < t.num)
    (hne : i ≠ j) : i * maxPieceLen + t.pieceLen i ≤ j * maxPieceLen ∨
      j * maxPieceLen + t.pieceLen j ≤ i * maxPieceLen := by
  rcases Nat.eq_zero_or_pos size with rfl | hsize
  · have hnum := h.num
    simp [PieceTable.new] at hnum
    omega
  · exact h.disjoint hsize hi hj hne

/-- The numbers follow from the size. -/
theorem PieceTable.Numbers.same (h : t.Numbers size) (h' : t'.Numbers size) :
    t'.num = t.num ∧ t'.lastSize = t.lastSize :=
  ⟨h'.num.trans h.num.symm, h'.lastSize.trans h.lastSize.symm⟩

/-- **Tables that hold the same pieces agree.** -/
theorem Holds.agree (h : Holds cache size t m got) (h' : Holds cache' size t' m' got) :
    t'.hashed = t.hashed ∧ t'.pieces = t.pieces ∧ t'.numDownloaded = t.numDownloaded := by
  have hnum := (h.numbers.same h'.numbers).1
  have hfirst : ∀ {a b n : ℕ}, b ≤ n → (∀ i < b, (got i).isSome) → (a < n → got a = none) → b ≤ a := by
    intro a b n hb hbefore hmissing
    by_contra hlt
    have hsome := hbefore a (by omega)
    rw [hmissing (by omega)] at hsome
    cases hsome
  have hsame : t'.numPiecesInHash = t.numPiecesInHash := by
    refine Nat.le_antisymm (hfirst (hnum ▸ h'.le_num) h'.before h.missing)
      (hfirst h.le_num h.before fun hlt => h'.missing (hnum ▸ hlt))
  refine ⟨by rw [h'.hashed, h.hashed, hsame], ?_, by rw [h'.count, h.count, hnum]⟩
  funext i
  rw [h'.pieces, h.pieces]

/-- The cache may change, as long as the bytes of the pieces stay. -/
theorem Gathered.congr_mem (h : Gathered cache size t m got)
    (hbytes : ∀ {i r data}, i < t.num → t.pieceData i = some r → r.off = i * maxPieceLen →
      r.len = t.pieceLen i → cache.bytes m r = some data → cache.bytes m₁ r = some data) :
    Gathered cache size t m₁ got where
  numbers := h.numbers
  pieces := h.pieces
  noData := h.noData
  data := by
    intro i data hi
    obtain ⟨hlt, hdata, r, hr, hoff, hlen, hb⟩ := h.data i data hi
    exact ⟨hlt, hdata, r, hr, hoff, hlen, hbytes hlt hr hoff hlen hb⟩
  count := h.count

theorem Gathered.withHashed (h : Gathered cache size t m got) (hashed : List UInt8) (k : ℕ) :
    Gathered cache size { t with hashed := hashed, numPiecesInHash := k } m got :=
  ⟨⟨h.numbers.num, h.numbers.lastSize⟩, h.pieces, h.noData, h.data, h.count⟩

theorem Holds.congr_mem (h : Holds cache size t m got)
    (hbytes : ∀ r, cache.bytes m₁ r = cache.bytes m r) : Holds cache size t m₁ got where
  toGathered := h.toGathered.congr_mem fun _ _ _ _ hb => (hbytes _).trans hb
  le_num := h.le_num
  before := h.before
  missing := h.missing
  hashed := h.hashed

/-! ## Hashing -/

/-- The loop of `updateHash`. -/
theorem Gathered.hashPieces (law : SteadyCache cache stored Ok) :
    ∀ (n k : ℕ) (t : PieceTable) (m : M), Gathered cache size t m got → Ok m →
      (∀ i, k ≤ i → i < k + n → (got i).isSome) → t.hashed = bytesUpTo got k →
      ∃ m', (List.range' k n).foldl (PieceTable.hashPiece cache) (t, m)
          = ({ t with hashed := bytesUpTo got (k + n) }, m') ∧
        Gathered cache size { t with hashed := bytesUpTo got (k + n) } m' got ∧ Ok m' := by
  intro n
  induction n with
  | zero =>
    intro k t m h hok _ hhashed
    rw [Nat.add_zero, ← hhashed]
    exact ⟨m, rfl, h, hok⟩
  | succ n ih =>
    intro k t m h hok hall hhashed
    obtain ⟨data, hk⟩ := Option.isSome_iff_exists.mp (hall k le_rfl (by omega))
    obtain ⟨hlt, -, r, hr, hoff, hlen, hbytes⟩ := h.data k data hk
    have hpiece : PieceTable.hashPiece cache (t, m) k
        = ({ t with hashed := bytesUpTo got (k + 1) }, cache.savePiece m r) := by
      simp only [PieceTable.hashPiece, hr, hbytes, hhashed, bytesUpTo_succ hk]
    have hsaved : Gathered cache size t (cache.savePiece m r) got := by
      refine h.congr_mem fun {i r' data'} hi hr' hoff' hlen' hb => law.save_bytes ?_ hb
      by_cases hik : i = k
      · subst hik
        exact .inl (Option.some.inj (hr'.symm.trans hr))
      · rw [hoff, hoff', hlen, hlen']
        exact .inr (h.numbers.apart hi hlt hik)
    obtain ⟨m', hfold, h', hok'⟩ := ih (k + 1) { t with hashed := bytesUpTo got (k + 1) } _
      (hsaved.withHashed _ t.numPiecesInHash) (law.save_ok r hok)
      (fun i h₁ h₂ => hall i (by omega) (by omega)) rfl
    rw [show k + (n + 1) = k + 1 + n by omega, List.range'_succ, List.foldl_cons, hpiece]
    exact ⟨m', hfold, h', hok'⟩

/-- `updateHash` hashes the pieces up to the first missing one. -/
theorem Gathered.updateHash (law : SteadyCache cache stored Ok) (h : Gathered cache size t m got)
    (hok : Ok m) (hle : t.numPiecesInHash ≤ t.num)
    (hbefore : ∀ i < t.numPiecesInHash, (got i).isSome)
    (hhashed : t.hashed = bytesUpTo got t.numPiecesInHash) :
    ∃ hashed k m', t.updateHash cache m = ({ t with hashed := hashed, numPiecesInHash := k }, m') ∧
      Holds cache size { t with hashed := hashed, numPiecesInHash := k } m' got ∧ Ok m' := by
  obtain ⟨hfrom, hto, hall, hend⟩ := t.hashEnd_spec (t.num - t.numPiecesInHash) t.numPiecesInHash
    (by omega)
  generalize hk : t.hashEnd (t.num - t.numPiecesInHash) t.numPiecesInHash = k at *
  obtain ⟨m', hfold, h', hok'⟩ := Gathered.hashPieces law (k - t.numPiecesInHash)
    t.numPiecesInHash t m h hok (fun i h₁ h₂ => h.pieces i ▸ hall i h₁ (by omega)) hhashed
  rw [Nat.add_sub_cancel' hfrom] at hfold h'
  refine ⟨bytesUpTo got k, k, m', ?_, ⟨h'.withHashed _ k, hto hle, fun i hi => ?_, fun hlt => ?_, rfl⟩,
    hok'⟩
  · rw [PieceTable.updateHash, hk, hfold]
  · rcases Nat.lt_or_ge i t.numPiecesInHash with hlt | hge
    · exact hbefore i hlt
    · exact h.pieces i ▸ hall i hge hi
  · exact Option.not_isSome_iff_eq_none.mp (by rw [← h.pieces, hend hlt]; exact Bool.false_ne_true)

/-- A new chunk download has received nothing. -/
theorem Holds.new (index size : ℕ) (m : M) :
    Holds cache size (PieceTable.new index size) m fun _ => none where
  numbers := ⟨rfl, rfl⟩
  pieces := fun _ => rfl
  noData := fun _ _ => rfl
  data := fun _ _ h => nomatch h
  count := (List.countP_eq_zero.mpr fun _ _ => Bool.false_ne_true).symm
  le_num := Nat.zero_le _
  before := fun _ h => absurd h (Nat.not_lt_zero _)
  missing := fun _ => rfl
  hashed := rfl

/-! ## A piece arrives -/

/-- Looking for a buffer. -/
theorem Gathered.getPiece (law : SteadyCache cache stored Ok) (h : Gathered cache size t m got)
    (off len : ℕ) (readOnly : Bool) :
    Gathered cache size t (cache.getPiece m off len readOnly).2 got :=
  h.congr_mem fun _ _ _ _ hb => law.getPiece_bytes off len readOnly hb

/-- Writing to the buffer of another piece. -/
theorem Gathered.write (law : SteadyCache cache stored Ok) (h : Gathered cache size t m got) {pp : ℕ}
    {r : PieceRef} (hpp : got pp = none) (hnum : pp < t.num) (hoff : r.off = pp * maxPieceLen)
    (hlen : r.len = t.pieceLen pp) (data : List UInt8) :
    Gathered cache size t (cache.write m r data).2 got := by
  refine h.congr_mem fun {i r' data'} hi hr' hoff' hlen' hb => law.write_other data ?_ hb
  have hne : i ≠ pp := by
    rintro rfl
    rw [h.noData i hpp] at hr'
    cases hr'
  rw [hoff, hoff', hlen, hlen']
  exact h.numbers.apart hi hnum hne

/-- A piece that was written is received. -/
theorem Gathered.addPiece (h : Gathered cache size t m got) {pp : ℕ} {r : PieceRef}
    {data : List UInt8} (hpp : got pp = none) (hnum : pp < t.num) (hoff : r.off = pp * maxPieceLen)
    (hlen : r.len = t.pieceLen pp) (hdata : data.length = t.pieceLen pp)
    (hbytes : cache.bytes m r = some data) :
    Gathered cache size (t.addPiece pp r) m (Function.update got pp (some data)) := by
  refine ⟨⟨h.numbers.num, h.numbers.lastSize⟩, fun i => ?_, fun i hi => ?_, fun i d hi => ?_, ?_⟩
  · by_cases hip : i = pp
    · simp [hip, PieceTable.addPiece]
    · simpa [hip, PieceTable.addPiece] using h.pieces i
  · by_cases hip : i = pp
    · simp [hip] at hi
    · simpa [hip, PieceTable.addPiece] using h.noData i (by simpa [hip] using hi)
  · by_cases hip : i = pp
    · obtain rfl : data = d := by simpa [hip] using hi
      subst hip
      exact ⟨hnum, hdata, r, by simp [PieceTable.addPiece], hoff, hlen, hbytes⟩
    · obtain ⟨hlt, hd, r', hr', rest⟩ := h.data i d (by simpa [hip] using hi)
      exact ⟨hlt, hd, r', by simpa [hip, PieceTable.addPiece] using hr', rest⟩
  · have hsome : (fun i => (Function.update got pp (some data) i).isSome)
        = Function.update (fun i => (got i).isSome) pp true := by
      funext i
      by_cases hip : i = pp
      · simp [hip]
      · simp [hip]
    have hnone : (got pp).isSome = false := by
      rw [hpp]
      rfl
    change t.numDownloaded + 1 = (List.range t.num).countP _
    rw [hsome, countP_update hnum hnone, h.count]

variable {PD : Type} [DecidableEq PD]

/-- **One call of `piece`**, of a piece that starts at a multiple of the piece length. -/
theorem Holds.piece (law : SteadyCache cache stored Ok) {cd : ChunkDownload PD}
    (h : Holds cache size cd.toPieceTable m got) (hok : Ok m) (p : Piece PD) (room : PD → ℕ)
    (haligned : cd.accepts p = true → p.offset % maxPieceLen = 0) :
    let r := cd.piece cache p room m
    Holds cache size r.2.1.toPieceTable r.2.2 (arrive cd.toPieceTable got p) ∧ Ok r.2.2 ∧
      r.1 = ⟨cd.accepts p && decide (r.2.1.num ≤ r.2.1.numDownloaded), cd.accepts p⟩ ∧
      r.2.1.index = cd.index := by
  unfold ChunkDownload.piece arrive
  cases hacc : cd.accepts p with
  | false => exact ⟨h, hok, rfl, rfl⟩
  | true =>
    obtain ⟨hnum, hpp, hlen⟩ := PieceTable.accepts_iff.mp hacc
    have hnone : got (p.offset / maxPieceLen) = none := by
      rw [h.pieces] at hpp
      exact Option.not_isSome_iff_eq_none.mp (by rw [hpp]; exact Bool.false_ne_true)
    have hoff : p.offset = p.offset / maxPieceLen * maxPieceLen :=
      (Nat.div_mul_cancel (Nat.dvd_of_mod_eq_zero (haligned hacc))).symm
    obtain ⟨r, m₁, hget, hok₁, -, hwritable⟩ := law.ready p.offset p.data.length hok
    obtain ⟨m₂, hwrite, hok₂⟩ := hwritable p.data rfl
    obtain ⟨hroff, hrlen⟩ := law.getPiece_range hget
    have hfound : Gathered cache size cd.toPieceTable m₁ got := by
      have hgot := h.toGathered.getPiece law p.offset p.data.length false
      rwa [hget] at hgot
    have hwritten : Gathered cache size cd.toPieceTable m₂ got := by
      have hgot := hfound.write law hnone hnum (hroff.trans hoff) (hrlen.trans hlen) p.data
      rwa [hwrite] at hgot
    have hadded := hwritten.addPiece hnone hnum (hroff.trans hoff) (hrlen.trans hlen) hlen
      (law.write_bytes hwrite hrlen.symm)
    -- the piece is behind those that are hashed
    have hbehind : ∀ i < cd.numPiecesInHash,
        Function.update got (p.offset / maxPieceLen) (some p.data) i = got i := by
      intro i hi
      refine Function.update_of_ne ?_ _ _
      rintro rfl
      have hsome := h.before _ hi
      rw [hnone] at hsome
      cases hsome
    obtain ⟨hashed, k, m₃, heq, hholds, hok₃⟩ := hadded.updateHash law hok₂ h.le_num
      (fun i hi => (hbehind i hi).symm ▸ h.before i hi)
      (h.hashed.trans (bytesUpTo_congr hbehind).symm)
    simp only [Bool.true_eq_false, if_false, hget, hwrite, heq, if_true, Bool.true_and]
    split
    next hfull => exact ⟨hholds, hok₃, by rw [decide_eq_true hfull], rfl⟩
    next hpart => exact ⟨hholds, hok₃, by rw [decide_eq_false hpart], rfl⟩

end Invariant

/-! ## Two sessions -/

section Session

variable {PD M M' : Type} [DecidableEq PD] {cache : PieceCache M} {cache' : PieceCache M'}
  {stored : M → ℕ → UInt8} {stored' : M' → ℕ → UInt8} {Ok : M → Prop} {Ok' : M' → Prop} {size : ℕ}

/-- Two sessions have received the same pieces. -/
structure SameReceived (cache : PieceCache M) (cache' : PieceCache M') (Ok : M → Prop)
    (Ok' : M' → Prop) (size : ℕ) (s : Session PD M) (s' : Session PD M') : Prop where
  same : ∃ got, Holds cache size s.cd.toPieceTable s.mem got ∧
    Holds cache' size s'.cd.toPieceTable s'.mem got
  ok : Ok s.mem
  ok' : Ok' s'.mem
  complete : s'.complete = s.complete

omit [DecidableEq PD] in
/-- Both have the same hash. -/
theorem SameReceived.hashed {s : Session PD M} {s' : Session PD M'}
    (h : SameReceived cache cache' Ok Ok' size s s') : s'.cd.hashed = s.cd.hashed := by
  obtain ⟨got, hholds, hholds'⟩ := h.same
  exact (hholds.agree hholds').1

omit [DecidableEq PD] in
/-- They accept the same pieces. -/
theorem SameReceived.accepts {s : Session PD M} {s' : Session PD M'}
    (h : SameReceived cache cache' Ok Ok' size s s') (p : Piece PD) :
    s'.cd.accepts p = s.cd.accepts p := by
  obtain ⟨got, hholds, hholds'⟩ := h.same
  obtain ⟨hnum, hlast⟩ := hholds.numbers.same hholds'.numbers
  rw [Bool.eq_iff_iff, PieceTable.accepts_iff, PieceTable.accepts_iff, PieceTable.pieceLen,
    PieceTable.pieceLen, hnum, hlast, (hholds.agree hholds').2.1]

/-- The same call. -/
theorem SameReceived.step (law : SteadyCache cache stored Ok) (law' : SteadyCache cache' stored' Ok')
    {s : Session PD M} {s' : Session PD M'} (h : SameReceived cache cache' Ok Ok' size s s')
    (e : CdEvent PD) (haligned : AcceptsAligned s e) :
    SameReceived cache cache' Ok Ok' size (s.step cache e) (s'.step cache' e) := by
  have hpeers : ∀ w w', SameReceived cache cache' Ok Ok' size (s.withPeers w) (s'.withPeers w') :=
    fun _ _ => ⟨h.same, h.ok, h.ok', rfl⟩
  cases e with
  | piece p room =>
    have hsame := h.accepts p
    obtain ⟨got, hholds, hholds'⟩ := h.same
    obtain ⟨hnext, hok, hout, -⟩ := hholds.piece law h.ok p room haligned
    obtain ⟨hnext', hok', hout', -⟩ := hholds'.piece law' h.ok' p room fun hacc =>
      haligned (hsame ▸ hacc)
    have hgot : arrive s'.cd.toPieceTable got p = arrive s.cd.toPieceTable got p := by
      rw [arrive, arrive, hsame]
    rw [hgot] at hnext'
    refine ⟨⟨_, hnext, hnext'⟩, hok, hok', ?_⟩
    have hnum := (hnext.numbers.same hnext'.numbers).1
    have hcount := (hnext.agree hnext').2.2
    change (s'.cd.piece cache' p room s'.mem).1.complete = (s.cd.piece cache p room s.mem).1.complete
    rw [hout, hout', hsame]
    dsimp only
    rw [hnum, hcount]
  | assign pd room => exact hpeers _ _
  | release pd => exact hpeers _ _
  | timedout r pd room => exact hpeers _ _
  | rejected r pd room => exact hpeers _ _
  | killed pd => exact hpeers _ _
  | update room => exact hpeers _ _
  | cancelAll => exact hpeers _ _
  | releaseAllPDs => exact hpeers _ _

/-- **The same calls** lead to the same pieces. -/
theorem SameReceived.run (law : SteadyCache cache stored Ok) (law' : SteadyCache cache' stored' Ok') :
    ∀ (es : List (CdEvent PD)) {s : Session PD M} {s' : Session PD M'},
      SameReceived cache cache' Ok Ok' size s s' → AllSteps (Session.step cache) AcceptsAligned s es →
      SameReceived cache cache' Ok Ok' size (Runs.run (Session.step cache) s es)
        (Runs.run (Session.step cache') s' es) := by
  intro es
  induction es with
  | nil => exact fun h _ => h
  | cons e es ih => exact fun h hok => ih (h.step law law' e hok.1) hok.2

end Session

end KTorrent
