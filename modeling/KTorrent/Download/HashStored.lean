import KTorrent.Lib.Run
import KTorrent.Download.ChunkDownload

/-!
# What is hashed is what is stored

A `ChunkDownload` hashes the pieces of a chunk one behind the other as far as they
have arrived, and stores each of them when it is hashed.  `piece` finds the piece
that a message is about by dividing its offset, but stores the data at the offset
itself.

* `Hashing` — the invariant: what was hashed are the bytes stored of the pieces
  hashed so far.
* `allStates_hashed` — along every run in which accepted pieces start at a
  multiple of the piece length, every piece is accepted at most once and a
  complete chunk was hashed as it is stored.
* `hashed_not_stored` — a piece that starts elsewhere.
-/

namespace KTorrent

open Runs

/-! ## Runs -/

/-- A chunk download and the cache, with what happened so far. -/
structure Session (PD M : Type) where
  /-- The chunk download. -/
  cd : ChunkDownload PD
  /-- The cache. -/
  mem : M
  /-- The pieces that were accepted, in order. -/
  accepted : List ℕ
  /-- The last call was a call of `piece` that returned true. -/
  complete : Bool

/-- The calls a chunk download receives. -/
inductive CdEvent (PD : Type) where
  | piece (p : Piece PD) (room : PD → ℕ)
  | assign (pd : PD) (room : PD → ℕ)
  | release (pd : PD)
  | timedout (r : Request PD) (pd : PD) (room : PD → ℕ)
  | rejected (r : Request PD) (pd : PD) (room : PD → ℕ)
  | killed (pd : PD)
  | update (room : PD → ℕ)
  | cancelAll
  | releaseAllPDs

section Session

variable {PD M : Type} [DecidableEq PD] (cache : PieceCache M)

/-- A call that changes the table of piece downloaders only. -/
def Session.withPeers (s : Session PD M) (w : PeerTable PD) : Session PD M :=
  { s with cd := { s.cd with toPeerTable := w }, complete := false }

/-- One call. -/
def Session.step (s : Session PD M) : CdEvent PD → Session PD M
  | .piece p room =>
    let (out, cd, m) := s.cd.piece cache p room s.mem
    { cd := cd
      mem := m
      accepted := if out.ok then s.accepted ++ [p.offset / maxPieceLen] else s.accepted
      complete := out.complete }
  | .assign pd room => s.withPeers (s.cd.toPeerTable.assign s.cd.toPieceTable pd room).2
  | .release pd => s.withPeers (s.cd.toPeerTable.release s.cd.toPieceTable pd)
  | .timedout r pd room =>
    s.withPeers (s.cd.toPeerTable.onNotDownloaded s.cd.toPieceTable r pd false room)
  | .rejected r pd room =>
    s.withPeers (s.cd.toPeerTable.onNotDownloaded s.cd.toPieceTable r pd true room)
  | .killed pd => s.withPeers (s.cd.toPeerTable.killed pd)
  | .update room => s.withPeers (s.cd.toPeerTable.sendRequests s.cd.toPieceTable room)
  | .cancelAll => s.withPeers (s.cd.toPeerTable.cancelAll s.cd.toPieceTable)
  | .releaseAllPDs => s.withPeers (s.cd.toPeerTable.releaseAllPDs s.cd.toPieceTable)

/-- The session of a new chunk download. -/
def Session.new (index size : ℕ) (m : M) : Session PD M := ⟨ChunkDownload.new index size, m, [], false⟩

/-- Every piece was accepted at most once, and a complete chunk was hashed as it
is stored. -/
def HashedIsStored (stored : M → ℕ → UInt8) (size : ℕ) (s : Session PD M) : Prop :=
  s.accepted.Nodup ∧ (s.complete = true → s.cd.hashed = (List.range size).map (stored s.mem))

/-- A piece that is accepted starts at a multiple of the piece length. -/
def AcceptsAligned (s : Session PD M) : CdEvent PD → Prop
  | .piece p _ => s.cd.accepts p = true → p.offset % maxPieceLen = 0
  | _ => True

end Session

/-! ## Where the pieces lie -/

namespace PieceTable

/-- The table has the numbers of a chunk of `size` bytes. -/
structure Numbers (t : PieceTable) (size : ℕ) : Prop where
  num : t.num = (PieceTable.new t.index size).num
  lastSize : t.lastSize = (PieceTable.new t.index size).lastSize

variable {t : PieceTable} {size : ℕ}

/-- The pieces tile the chunk. -/
theorem Numbers.tile (h : t.Numbers size) (hsize : 0 < size) :
    0 < t.num ∧ (t.num - 1) * maxPieceLen + t.lastSize = size ∧ 0 < t.lastSize ∧
      t.lastSize ≤ maxPieceLen := by
  have hnum := h.num
  have hlast := h.lastSize
  have hdiv := Nat.div_add_mod' size maxPieceLen
  have hmod : size % maxPieceLen < maxPieceLen := Nat.mod_lt _ (by decide)
  simp only [PieceTable.new, maxPieceLen] at *
  by_cases hz : size % 16384 = 0
  · simp only [hz, ne_eq, not_true, if_false] at hnum hlast
    omega
  · simp only [hz, ne_eq, not_false_eq_true, if_true] at hnum hlast
    omega

/-- The position of piece `i`, or the end of the chunk. -/
def start (size i : ℕ) : ℕ := min (i * maxPieceLen) size

theorem Numbers.start_eq (h : t.Numbers size) (hsize : 0 < size) {i : ℕ} (hi : i < t.num) :
    start size i = i * maxPieceLen ∧ start size (i + 1) = i * maxPieceLen + t.pieceLen i ∧
      t.pieceLen i ≤ maxPieceLen := by
  obtain ⟨hpos, htile, hlpos, hle⟩ := h.tile hsize
  simp only [start, pieceLen, maxPieceLen] at *
  by_cases hlast : i = t.num - 1
  · rw [if_pos hlast]
    subst hlast
    omega
  · rw [if_neg hlast]
    omega

theorem Numbers.start_num (h : t.Numbers size) (hsize : 0 < size) : start size t.num = size := by
  obtain ⟨hpos, htile, hlpos, hle⟩ := h.tile hsize
  simp only [start, maxPieceLen] at *
  omega

/-- Different pieces do not overlap. -/
theorem Numbers.disjoint (h : t.Numbers size) (hsize : 0 < size) {i j : ℕ} (hi : i < t.num)
    (hj : j < t.num) (hne : i ≠ j) :
    i * maxPieceLen + t.pieceLen i ≤ j * maxPieceLen ∨
      j * maxPieceLen + t.pieceLen j ≤ i * maxPieceLen := by
  have h₁ := (h.start_eq hsize hi).2.2
  have h₂ := (h.start_eq hsize hj).2.2
  rcases Nat.lt_or_gt_of_ne hne with hlt | hlt
  · have : (i + 1) * maxPieceLen ≤ j * maxPieceLen := Nat.mul_le_mul_right _ hlt
    rw [Nat.succ_mul] at this
    omega
  · have : (j + 1) * maxPieceLen ≤ i * maxPieceLen := Nat.mul_le_mul_right _ hlt
    rw [Nat.succ_mul] at this
    omega

/-- The first missing piece. -/
theorem hashEnd_spec (t : PieceTable) : ∀ (fuel nn : ℕ), t.num ≤ nn + fuel →
    nn ≤ t.hashEnd fuel nn ∧ (nn ≤ t.num → t.hashEnd fuel nn ≤ t.num) ∧
      (∀ i, nn ≤ i → i < t.hashEnd fuel nn → t.pieces i = true) ∧
      (t.hashEnd fuel nn < t.num → t.pieces (t.hashEnd fuel nn) = false) := by
  intro fuel
  induction fuel with
  | zero =>
    intro nn hfuel
    simp only [hashEnd]
    refine ⟨le_rfl, fun h => h, fun i h₁ h₂ => by omega, fun h => by omega⟩
  | succ fuel ih =>
    intro nn hfuel
    rw [hashEnd]
    by_cases h : nn < t.num ∧ t.pieces nn = true
    · rw [if_pos h]
      obtain ⟨hle, hnum, hall, hend⟩ := ih (nn + 1) (by omega)
      refine ⟨by omega, fun _ => hnum h.1, fun i h₁ h₂ => ?_, hend⟩
      rcases Nat.eq_or_lt_of_le h₁ with rfl | hlt
      · exact h.2
      · exact hall i hlt h₂
    · rw [if_neg h]
      refine ⟨le_rfl, fun h => h, fun i h₁ h₂ => by omega, fun hlt => ?_⟩
      simpa [hlt] using h

end PieceTable

/-! ## The invariant -/

/-- Every piece that arrived is in the cache, at its place. -/
structure Arrived {M : Type} (cache : PieceCache M) (size : ℕ) (t : PieceTable) (m : M) : Prop where
  numbers : t.Numbers size
  lt_num : ∀ i, t.pieces i = true → i < t.num
  cached : ∀ i, t.pieces i = true → ∃ r data, t.pieceData i = some r ∧ r.off = i * maxPieceLen ∧
    r.len = t.pieceLen i ∧ cache.bytes m r = some data ∧ data.length = r.len

/-- The pieces before `k` are hashed as they are stored. -/
def HashedTo {M : Type} (stored : M → ℕ → UInt8) (size : ℕ) (t : PieceTable) (m : M) (k : ℕ) :
    Prop :=
  t.hashed = (List.range (PieceTable.start size k)).map (stored m)

/-- **The invariant**: the pieces before the first missing one are hashed as they
are stored, the others wait in the cache. -/
structure Hashing {M : Type} (cache : PieceCache M) (stored : M → ℕ → UInt8) (size : ℕ)
    (t : PieceTable) (m : M) : Prop extends Arrived cache size t m where
  count : t.numDownloaded = (List.range t.num).countP t.pieces
  le_num : t.numPiecesInHash ≤ t.num
  before : ∀ i, i < t.numPiecesInHash → t.pieces i = true
  missing : t.numPiecesInHash < t.num → t.pieces t.numPiecesInHash = false
  hashed : HashedTo stored size t m t.numPiecesInHash

section Invariant

variable {M : Type} {cache : PieceCache M} {stored : M → ℕ → UInt8} {size : ℕ} {t : PieceTable}
  {m : M}

/-- A piece is hashed and stored. -/
theorem Arrived.hashPiece (law : LawfulCache cache stored) (hsize : 0 < size)
    (ha : Arrived cache size t m) {k : ℕ} (hk : t.pieces k = true)
    (hh : HashedTo stored size t m k) :
    ∃ hashed m', PieceTable.hashPiece cache (t, m) k = ({ t with hashed := hashed }, m') ∧
      Arrived cache size { t with hashed := hashed } m' ∧
      HashedTo stored size { t with hashed := hashed } m' (k + 1) := by
  obtain ⟨r, data, hr, hoff, hlen, hbytes, hdata⟩ := ha.cached k hk
  obtain ⟨hstart, hnext, -⟩ := ha.numbers.start_eq hsize (ha.lt_num k hk)
  refine ⟨t.hashed ++ data, cache.savePiece m r, ?_, ⟨⟨ha.numbers.num, ha.numbers.lastSize⟩,
    ha.lt_num, fun i hi => ?_⟩, ?_⟩
  · simp only [PieceTable.hashPiece, hr, hbytes]
  · obtain ⟨r', data', hr', hoff', hlen', hbytes', hdata'⟩ := ha.cached i hi
    refine ⟨r', data', hr', hoff', hlen', law.save_bytes ?_ hbytes', hdata'⟩
    by_cases hik : i = k
    · subst hik
      exact .inl (Option.some.inj (hr'.symm.trans hr))
    · rw [hoff, hoff', hlen, hlen']
      exact .inr (ha.numbers.disjoint hsize (ha.lt_num i hi) (ha.lt_num k hk) hik)
  · -- what was hashed before lies in front of the piece and is not touched
    have hbefore : t.hashed
        = (List.range (PieceTable.start size k)).map (stored (cache.savePiece m r)) := by
      rw [show t.hashed = _ from hh]
      apply List.map_congr_left
      intro x hx
      apply (law.save_outside (Or.inl _)).symm
      rw [hoff, ← hstart]
      exact List.mem_range.mp hx
    have hpiece : data = (List.range data.length).map
        fun j => stored (cache.savePiece m r) (r.off + j) := by
      apply List.ext_getElem?
      intro j
      by_cases hj : j < data.length
      · rw [law.save_stored hbytes hj]
        simp [hj]
      · simp [hj]
    unfold HashedTo
    have hlast : PieceTable.start size (k + 1) = PieceTable.start size k + data.length := by
      rw [hnext, hstart, hdata, hlen]
    rw [hlast, List.range_add, List.map_append, ← hbefore, List.map_map, hstart, ← hoff]
    exact congrArg (t.hashed ++ ·) hpiece

/-- The loop of `updateHash`. -/
theorem Arrived.hashPieces (law : LawfulCache cache stored) (hsize : 0 < size) :
    ∀ (n k : ℕ) (t : PieceTable) (m : M), Arrived cache size t m →
      (∀ i, k ≤ i → i < k + n → t.pieces i = true) → HashedTo stored size t m k →
      ∃ hashed m', (List.range' k n).foldl (PieceTable.hashPiece cache) (t, m)
          = ({ t with hashed := hashed }, m') ∧
        Arrived cache size { t with hashed := hashed } m' ∧
        HashedTo stored size { t with hashed := hashed } m' (k + n) := by
  intro n
  induction n with
  | zero =>
    intro k t m ha _ hh
    exact ⟨t.hashed, m, rfl, ha, hh⟩
  | succ n ih =>
    intro k t m ha hall hh
    obtain ⟨hashed, m', heq, ha', hh'⟩ := ha.hashPiece law hsize (hall k le_rfl (by omega)) hh
    obtain ⟨hashed', m'', heq', ha'', hh''⟩ := ih (k + 1) _ m' ha'
      (fun i h₁ h₂ => hall i (by omega) (by omega)) hh'
    refine ⟨hashed', m'', ?_, ha'', ?_⟩
    · rw [List.range'_succ, List.foldl_cons, heq, heq']
    · rw [show k + (n + 1) = k + 1 + n by omega]
      exact hh''

/-- A new chunk download. -/
theorem Hashing.new (index size : ℕ) (m : M) :
    Hashing cache stored size (PieceTable.new index size) m where
  numbers := ⟨rfl, rfl⟩
  lt_num := by simp [PieceTable.new]
  cached := by simp [PieceTable.new]
  count := by
    rw [List.countP_eq_zero.mpr]
    · rfl
    · simp [PieceTable.new]
  le_num := Nat.zero_le _
  before := fun i hi => absurd hi (Nat.not_lt_zero i)
  missing := fun _ => rfl
  hashed := by simp [HashedTo, PieceTable.start, PieceTable.new]

/-- A full hash of a full chunk. -/
theorem countP_eq_iff {p : ℕ → Bool} {n : ℕ} :
    n ≤ (List.range n).countP p ↔ ∀ i, i < n → p i = true := by
  have hle := List.countP_le_length (p := p) (l := List.range n)
  rw [List.length_range] at hle
  constructor
  · intro h i hi
    have heq : (List.range n).countP p = (List.range n).length := by
      rw [List.length_range]
      omega
    exact List.countP_eq_length.mp heq i (List.mem_range.mpr hi)
  · intro h
    have heq : (List.range n).countP p = (List.range n).length := by
      apply List.countP_eq_length.mpr
      intro i hi
      exact h i (List.mem_range.mp hi)
    rw [heq, List.length_range]

/-- One more of the first `n`. -/
theorem countP_update {p : ℕ → Bool} {n i : ℕ} (hi : i < n) (hp : p i = false) :
    (List.range n).countP (Function.update p i true) = (List.range n).countP p + 1 := by
  induction n with
  | zero => omega
  | succ n ih =>
    rw [List.range_succ, List.countP_append, List.countP_append]
    by_cases hin : i = n
    · subst hin
      have hsame : (List.range i).countP (Function.update p i true) = (List.range i).countP p := by
        apply List.countP_congr
        intro x hx
        rw [Function.update_of_ne (Nat.ne_of_lt (List.mem_range.mp hx))]
      simp [hsame, hp]
    · rw [ih (by omega)]
      have hsame : Function.update p i true n = p n := Function.update_of_ne (Ne.symm hin) _ _
      simp only [List.countP_singleton, hsame]
      omega

/-- `updateHash` restores the invariant. -/
theorem Arrived.updateHash (law : LawfulCache cache stored) (hsize : 0 < size)
    (ha : Arrived cache size t m)
    (hcount : t.numDownloaded = (List.range t.num).countP t.pieces)
    (hle : t.numPiecesInHash ≤ t.num) (hbefore : ∀ i, i < t.numPiecesInHash → t.pieces i = true)
    (hh : HashedTo stored size t m t.numPiecesInHash) :
    ∃ hashed h m', PieceTable.updateHash cache t m
        = ({ t with hashed := hashed, numPiecesInHash := h }, m') ∧
      Hashing cache stored size { t with hashed := hashed, numPiecesInHash := h } m' := by
  obtain ⟨hfrom, hto, hall, hend⟩ := t.hashEnd_spec (t.num - t.numPiecesInHash) t.numPiecesInHash
    (by omega)
  obtain ⟨hashed, m', heq, ha', hh'⟩ := Arrived.hashPieces law hsize
    (t.hashEnd (t.num - t.numPiecesInHash) t.numPiecesInHash - t.numPiecesInHash)
    t.numPiecesInHash t m ha (fun i h₁ h₂ => hall i h₁ (by omega)) hh
  refine ⟨hashed, t.hashEnd (t.num - t.numPiecesInHash) t.numPiecesInHash, m', ?_, ?_⟩
  · simp only [PieceTable.updateHash, heq]
  · rw [Nat.add_sub_cancel' hfrom] at hh'
    refine ⟨⟨⟨ha'.numbers.num, ha'.numbers.lastSize⟩, ha'.lt_num, ha'.cached⟩, hcount, hto hle,
      fun i hi => ?_, hend, hh'⟩
    rcases Nat.lt_or_ge i t.numPiecesInHash with hlt | hge
    · exact hbefore i hlt
    · exact hall i hge hi

/-- The bytes of the chunk from `lo` on may change while nothing at or behind
`lo` is hashed. -/
theorem HashedTo.of_stored {m' : M} {k : ℕ} (h : HashedTo stored size t m k)
    (heq : ∀ x, x < PieceTable.start size k → stored m' x = stored m x) :
    HashedTo stored size t m' k := by
  unfold HashedTo at *
  rw [h]
  apply List.map_congr_left
  intro x hx
  exact (heq x (List.mem_range.mp hx)).symm

/-- A piece that did not arrive yet lies behind what is hashed. -/
theorem Hashing.start_le (h : Hashing cache stored size t m) {pp : ℕ}
    (hpp : t.pieces pp = false) : PieceTable.start size t.numPiecesInHash ≤ pp * maxPieceLen := by
  have hge : t.numPiecesInHash ≤ pp := by
    by_contra hlt
    rw [h.before pp (by omega)] at hpp
    cases hpp
  exact le_trans (min_le_left _ _) (Nat.mul_le_mul_right _ hge)

/-- Looking for a buffer keeps the invariant. -/
theorem Hashing.getPiece (law : LawfulCache cache stored) (h : Hashing cache stored size t m)
    (off len : ℕ) (readOnly : Bool) :
    Hashing cache stored size t (cache.getPiece m off len readOnly).2 where
  numbers := h.numbers
  lt_num := h.lt_num
  cached := by
    intro i hi
    obtain ⟨r, data, hr, hoff, hlen, hbytes, hdata⟩ := h.cached i hi
    exact ⟨r, data, hr, hoff, hlen, law.getPiece_bytes off len readOnly hbytes, hdata⟩
  count := h.count
  le_num := h.le_num
  before := h.before
  missing := h.missing
  hashed := by
    apply h.hashed.of_stored
    intro x _
    rw [law.getPiece_stored]

/-- Writing to the buffer of a missing piece keeps the invariant. -/
theorem Hashing.write (law : LawfulCache cache stored) (hsize : 0 < size)
    (h : Hashing cache stored size t m) {pp : ℕ} {r : PieceRef} (hpp : t.pieces pp = false)
    (hnum : pp < t.num) (hoff : r.off = pp * maxPieceLen) (hlen : r.len = t.pieceLen pp)
    (data : List UInt8) : Hashing cache stored size t (cache.write m r data).2 where
  numbers := h.numbers
  lt_num := h.lt_num
  cached := by
    intro i hi
    obtain ⟨r', data', hr', hoff', hlen', hbytes', hdata'⟩ := h.cached i hi
    have hne : i ≠ pp := by
      rintro rfl
      rw [hi] at hpp
      cases hpp
    refine ⟨r', data', hr', hoff', hlen', law.write_other data ?_ hbytes', hdata'⟩
    rw [hoff, hoff', hlen, hlen']
    exact h.numbers.disjoint hsize (h.lt_num i hi) hnum hne
  count := h.count
  le_num := h.le_num
  before := h.before
  missing := h.missing
  hashed := by
    apply h.hashed.of_stored
    intro x hx
    apply law.write_stored data
    have hle := h.start_le hpp
    omega

/-- A piece that was written arrived; `updateHash` goes on from there. -/
theorem Hashing.addPiece (law : LawfulCache cache stored) (hsize : 0 < size)
    (h : Hashing cache stored size t m) {pp : ℕ} {r : PieceRef} {data : List UInt8}
    (hpp : t.pieces pp = false) (hnum : pp < t.num) (hoff : r.off = pp * maxPieceLen)
    (hlen : r.len = t.pieceLen pp) (hbytes : cache.bytes m r = some data)
    (hdata : data.length = r.len) :
    ∃ hashed k m', PieceTable.updateHash cache (t.addPiece pp r) m
        = ({ t.addPiece pp r with hashed := hashed, numPiecesInHash := k }, m') ∧
      Hashing cache stored size { t.addPiece pp r with hashed := hashed, numPiecesInHash := k }
        m' := by
  apply Arrived.updateHash law hsize
  · refine ⟨⟨h.numbers.num, h.numbers.lastSize⟩, fun i hi => ?_, fun i hi => ?_⟩
    · by_cases hip : i = pp
      · subst hip
        exact hnum
      · apply h.lt_num i
        simpa [PieceTable.addPiece, Function.update_of_ne hip] using hi
    · by_cases hip : i = pp
      · subst hip
        refine ⟨r, data, ?_, hoff, hlen, hbytes, hdata⟩
        simp [PieceTable.addPiece]
      · have hi' : t.pieces i = true := by
          simpa [PieceTable.addPiece, Function.update_of_ne hip] using hi
        obtain ⟨r', data', hr', rest⟩ := h.cached i hi'
        refine ⟨r', data', ?_, rest⟩
        simpa [PieceTable.addPiece, Function.update_of_ne hip] using hr'
  · show t.numDownloaded + 1 = _
    rw [h.count]
    exact (countP_update hnum hpp).symm
  · exact h.le_num
  · intro i hi
    have hi' : t.pieces i = true := h.before i hi
    by_cases hip : i = pp
    · simp [PieceTable.addPiece, hip]
    · simp [PieceTable.addPiece, Function.update_of_ne hip, hi']
  · exact h.hashed

/-- A chunk that is complete is hashed completely. -/
theorem Hashing.complete (hsize : 0 < size) (h : Hashing cache stored size t m)
    (hnum : t.num ≤ t.numDownloaded) : t.hashed = (List.range size).map (stored m) := by
  rw [h.count] at hnum
  have hall := countP_eq_iff.mp hnum
  have heq : t.numPiecesInHash = t.num := by
    have hle := h.le_num
    rcases Nat.lt_or_ge t.numPiecesInHash t.num with hlt | hge
    · have hmissing := h.missing hlt
      rw [hall _ hlt] at hmissing
      cases hmissing
    · omega
  have hhashed := h.hashed
  unfold HashedTo at hhashed
  rw [heq, h.numbers.start_num hsize] at hhashed
  exact hhashed

/-! ## One call -/

variable {PD : Type} [DecidableEq PD]

omit [DecidableEq PD] in
theorem PieceTable.accepts_iff {p : Piece PD} :
    t.accepts p = true ↔ p.offset / maxPieceLen < t.num ∧
      t.pieces (p.offset / maxPieceLen) = false ∧
      p.data.length = t.pieceLen (p.offset / maxPieceLen) := by
  simp [PieceTable.accepts, and_assoc]

/-- What a call of `piece` does to the pieces, as far as the invariant needs it:
nothing, or the piece arrives. -/
structure PieceSpec (cache : PieceCache M) (stored : M → ℕ → UInt8) (size : ℕ)
    (t : PieceTable) (p : Piece PD) (out : ChunkDownload.PieceOutcome) (t' : PieceTable) (m' : M) :
    Prop where
  hashing : Hashing cache stored size t' m'
  refused : out.ok = false → t' = t ∧ out.complete = false
  accepted : out.ok = true → t.accepts p = true ∧
    t'.pieces = Function.update t.pieces (p.offset / maxPieceLen) true
  complete : out.complete = true → t'.num ≤ t'.numDownloaded

omit [DecidableEq PD] in
/-- A piece that is refused. -/
theorem Hashing.pieceSpec (h : Hashing cache stored size t m) (p : Piece PD) :
    PieceSpec cache stored size t p ⟨false, false⟩ t m :=
  ⟨h, fun _ => ⟨rfl, rfl⟩, fun h => Bool.noConfusion h, fun h => Bool.noConfusion h⟩

/-- **One call of `piece`**, when the piece starts at a multiple of the piece
length. -/
theorem ChunkDownload.piece_spec (law : LawfulCache cache stored) (hsize : 0 < size)
    {cd : ChunkDownload PD} (h : Hashing cache stored size cd.toPieceTable m) (p : Piece PD)
    (room : PD → ℕ) (haligned : cd.accepts p = true → p.offset % maxPieceLen = 0) :
    PieceSpec cache stored size cd.toPieceTable p (cd.piece cache p room m).1
      (cd.piece cache p room m).2.1.toPieceTable (cd.piece cache p room m).2.2 := by
  unfold ChunkDownload.piece
  cases hacc : cd.accepts p with
  | false => simpa using h.pieceSpec p
  | true =>
    obtain ⟨hnum, hpp, hlen⟩ := PieceTable.accepts_iff.mp hacc
    have hoff : p.offset = p.offset / maxPieceLen * maxPieceLen :=
      (Nat.div_mul_cancel (Nat.dvd_of_mod_eq_zero (haligned hacc))).symm
    simp only [Bool.true_eq_false, if_false]
    have hget := h.getPiece law p.offset p.data.length false
    rcases hg : cache.getPiece m p.offset p.data.length false with ⟨_ | r, m₁⟩
    · rw [hg] at hget
      exact hget.pieceSpec p
    · rw [hg] at hget
      obtain ⟨hroff, hrlen⟩ := law.getPiece_range hg
      have hwrite := hget.write law hsize hpp hnum (hroff.trans hoff) (hrlen.trans hlen) p.data
      simp only
      rcases hw : cache.write m₁ r p.data with ⟨_ | _, m₂⟩
      · rw [hw] at hwrite
        exact hwrite.pieceSpec p
      · rw [hw] at hwrite
        obtain ⟨hashed, k, m₃, heq, hdone⟩ := hwrite.addPiece law hsize hpp hnum
          (hroff.trans hoff) (hrlen.trans hlen) (law.write_bytes hw hrlen.symm) hrlen.symm
        simp only [heq]
        by_cases hfull : (cd.addPiece (p.offset / maxPieceLen) r).numDownloaded
            ≥ (cd.addPiece (p.offset / maxPieceLen) r).num
        · rw [if_pos hfull]
          exact ⟨hdone, fun h => Bool.noConfusion h, fun _ => ⟨hacc, rfl⟩, fun _ => hfull⟩
        · rw [if_neg hfull]
          exact ⟨hdone, fun h => Bool.noConfusion h, fun _ => ⟨hacc, rfl⟩,
            fun h => Bool.noConfusion h⟩

end Invariant

/-! ## Every run -/

section Session

variable {PD M : Type} [DecidableEq PD] {cache : PieceCache M} {stored : M → ℕ → UInt8} {size : ℕ}

/-- The invariant of a session. -/
structure Session.Inv (cache : PieceCache M) (stored : M → ℕ → UInt8) (size : ℕ)
    (s : Session PD M) : Prop where
  hashing : Hashing cache stored size s.cd.toPieceTable s.mem
  nodup : s.accepted.Nodup
  accepted : ∀ i, i ∈ s.accepted → s.cd.pieces i = true
  complete : s.complete = true → s.cd.num ≤ s.cd.numDownloaded

omit [DecidableEq PD] in
/-- A call that changes the table of piece downloaders only. -/
theorem Session.Inv.withPeers {s : Session PD M} (h : s.Inv cache stored size) (w : PeerTable PD) :
    (s.withPeers w).Inv cache stored size :=
  ⟨h.hashing, h.nodup, h.accepted, fun h => by cases h⟩

/-- Every call keeps the invariant. -/
theorem Session.Inv.step (law : LawfulCache cache stored) (hsize : 0 < size) {s : Session PD M}
    (h : s.Inv cache stored size) (e : CdEvent PD) (haligned : AcceptsAligned s e) :
    (s.step cache e).Inv cache stored size := by
  cases e with
  | piece p room =>
    have hspec := ChunkDownload.piece_spec law hsize h.hashing p room haligned
    unfold Session.step
    refine ⟨hspec.hashing, ?_, ?_, hspec.complete⟩
    · cases hok : (s.cd.piece cache p room s.mem).1.ok with
      | false => simpa [hok] using h.nodup
      | true =>
        have hacc := PieceTable.accepts_iff.mp (hspec.accepted hok).1
        have hnew : p.offset / maxPieceLen ∉ s.accepted := by
          intro hmem
          rw [h.accepted _ hmem] at hacc
          cases hacc.2.1
        simpa [hok, List.nodup_append] using ⟨h.nodup, fun i hi => fun heq => hnew (heq ▸ hi)⟩
    · intro i hi
      cases hok : (s.cd.piece cache p room s.mem).1.ok with
      | false =>
        simp only [hok, Bool.false_eq_true, if_false] at hi
        simp only [(hspec.refused hok).1]
        exact h.accepted i hi
      | true =>
        simp only [hok, if_true, List.mem_append, List.mem_singleton] at hi
        simp only [(hspec.accepted hok).2]
        by_cases hip : i = p.offset / maxPieceLen
        · rw [hip, Function.update_self]
        · rw [Function.update_of_ne hip]
          exact h.accepted i (hi.resolve_right hip)
  | assign pd room => exact h.withPeers _
  | release pd => exact h.withPeers _
  | timedout r pd room => exact h.withPeers _
  | rejected r pd room => exact h.withPeers _
  | killed pd => exact h.withPeers _
  | update room => exact h.withPeers _
  | cancelAll => exact h.withPeers _
  | releaseAllPDs => exact h.withPeers _

/-- **What is hashed is what is stored.**  For every chunk size and every run in
which accepted pieces start at a multiple of the piece length, every piece is
accepted at most once, and when `piece` returns true the bytes that were hashed
are the bytes stored. -/
theorem allStates_hashed (law : LawfulCache cache stored) (hsize : 0 < size) (index : ℕ) (m : M)
    (es : List (CdEvent PD))
    (haligned : AllSteps (Session.step cache) AcceptsAligned (Session.new index size m) es) :
    AllStates (Session.step cache) (HashedIsStored stored size) (Session.new index size m) es := by
  have hinit : (Session.new index size m : Session PD M).Inv cache stored size :=
    ⟨Hashing.new index size m, List.nodup_nil, by simp [Session.new], fun h => by cases h⟩
  have hinv := allStates_of_invariant (fun s e (hs : s.Inv cache stored size) hok =>
    hs.step law hsize e hok) es _ hinit haligned
  apply AllStates.mono _ hinv
  intro s hs
  exact ⟨hs.nodup, fun hc => hs.hashing.complete hsize (hs.complete hc)⟩

end Session

/-- A piece of a chunk of 40000 bytes, from a peer. -/
def pieceOf (peer i len : ℕ) : CdEvent ℕ :=
  .piece ⟨0, i * maxPieceLen, List.replicate len (UInt8.ofNat i), peer⟩ fun _ => 0

/-- Two peers send the three pieces of a chunk, the last one first and the first one twice. -/
theorem allStates_hashed_threePieces :
    AllStates (Session.step ChunkCache.ops) (HashedIsStored ChunkCache.file 40000)
        (Session.new 0 40000 (.empty false))
        [pieceOf 1 2 7232, pieceOf 2 0 16384, pieceOf 1 0 16384, pieceOf 1 1 16384] ∧
      (run (Session.step ChunkCache.ops) (Session.new 0 40000 (.empty false))
        [pieceOf 1 2 7232, pieceOf 2 0 16384, pieceOf 1 0 16384, pieceOf 1 1 16384]).accepted =
          [2, 0, 1] ∧
      (run (Session.step ChunkCache.ops) (Session.new 0 40000 (.empty false))
        [pieceOf 1 2 7232, pieceOf 2 0 16384, pieceOf 1 0 16384, pieceOf 1 1 16384]).complete = true :=
  ⟨allStates_hashed ChunkCache.lawful (by decide) 0 (.empty false) _
      ⟨fun _ => by decide, fun _ => by decide, fun _ => by decide, fun _ => by decide, trivial⟩,
    by decide +kernel, by decide +kernel⟩

/-- **A piece that starts elsewhere.**  A chunk of one byte gets a piece at
offset 1: it is taken for the first piece and hashed, but stored behind the
chunk. -/
theorem hashed_not_stored :
    ¬ AllStates (Session.step ChunkCache.ops) (HashedIsStored ChunkCache.file 1)
      (Session.new 0 1 (.empty false)) [CdEvent.piece ⟨0, 1, [7], ()⟩ fun _ => 0] := by
  rintro ⟨-, -, h⟩
  have hhashed := h (by decide)
  revert hhashed
  decide

end KTorrent
