import KTorrent.Util.Constants

/-!
# The pieces of a chunk

The model of the piece cache of one chunk: `diskio/piecedata.cpp`, the piece
cache of `diskio/cache.cpp` and the four piece functions of
`diskio/singlefilecache.cpp`.  A piece is mapped into memory, so that a write to
it changes the file at once, or it is a buffer of its own that only `savePiece`
writes to the file.

* `PieceCache` — what a chunk download sees of a cache.
* `LawfulCache` — what it relies on: a piece is a buffer that `savePiece` stores
  at its place.
* `SteadyCache` — moreover, a piece that is written to is always there, and a
  mapped piece is the file.
* `ChunkCache` — the cache itself.
* `ChunkCache.lawful`, `ChunkCache.steady` — the cache keeps the laws, whichever
  pieces are mapped.
* `PieceCache.forChunk` — the caches of all chunks.
-/

namespace KTorrent

/-- A `PieceData` object. -/
structure PieceRef where
  /-- Which object it is. -/
  id : ℕ
  /-- Where the piece starts in the chunk. -/
  off : ℕ
  /-- The length of the piece. -/
  len : ℕ
  /-- The piece is mapped into memory, not buffered. -/
  mapped : Bool
  /-- The piece must not be written to. -/
  readOnly : Bool
  deriving DecidableEq, Repr

/-- What a chunk does with its pieces, for states `M` of the cache. -/
structure PieceCache (M : Type) where
  /-- `Chunk::getPiece(off, len, read_only)`. -/
  getPiece : M → ℕ → ℕ → Bool → Option PieceRef × M
  /-- `PieceData::write(buf, buf_size)`: whether everything was written. -/
  write : M → PieceRef → List UInt8 → Bool × M
  /-- What `PieceData::updateHash` hashes; `none` when the piece is not `ok()`. -/
  bytes : M → PieceRef → Option (List UInt8)
  /-- `Chunk::savePiece`. -/
  savePiece : M → PieceRef → M

/-- What a chunk download relies on: `getPiece` gives a buffer for a range of the
chunk, `write` fills it and `savePiece` stores it there.  `stored` are the bytes
of the chunk that are stored. -/
structure LawfulCache {M : Type} (cache : PieceCache M) (stored : M → ℕ → UInt8) : Prop where
  getPiece_range : ∀ {m m' : M} {off len : ℕ} {readOnly : Bool} {r : PieceRef},
    cache.getPiece m off len readOnly = (some r, m') → r.off = off ∧ r.len = len
  getPiece_stored : ∀ (m : M) (off len : ℕ) (readOnly : Bool),
    stored (cache.getPiece m off len readOnly).2 = stored m
  getPiece_bytes : ∀ {m : M} {r : PieceRef} {data : List UInt8} (off len : ℕ) (readOnly : Bool),
    cache.bytes m r = some data → cache.bytes (cache.getPiece m off len readOnly).2 r = some data
  write_bytes : ∀ {m m' : M} {r : PieceRef} {data : List UInt8},
    cache.write m r data = (true, m') → data.length = r.len → cache.bytes m' r = some data
  write_stored : ∀ {m : M} {r : PieceRef} (data : List UInt8) {x : ℕ},
    x < r.off ∨ r.off + r.len ≤ x → stored (cache.write m r data).2 x = stored m x
  write_other : ∀ {m : M} {r r' : PieceRef} (data : List UInt8) {data' : List UInt8},
    r'.off + r'.len ≤ r.off ∨ r.off + r.len ≤ r'.off → cache.bytes m r' = some data' →
      cache.bytes (cache.write m r data).2 r' = some data'
  save_stored : ∀ {m : M} {r : PieceRef} {data : List UInt8} {k : ℕ},
    cache.bytes m r = some data → k < data.length →
      data[k]? = some (stored (cache.savePiece m r) (r.off + k))
  save_outside : ∀ {m : M} {r : PieceRef} {x : ℕ},
    x < r.off ∨ r.off + r.len ≤ x → stored (cache.savePiece m r) x = stored m x
  save_bytes : ∀ {m : M} {r r' : PieceRef} {data : List UInt8},
    r' = r ∨ r'.off + r'.len ≤ r.off ∨ r.off + r.len ≤ r'.off → cache.bytes m r' = some data →
      cache.bytes (cache.savePiece m r) r' = some data

/-- A lawful cache in which, in states that are `Ok`, there is always a piece to write to, and whose
mapped pieces are the bytes that are stored. -/
structure SteadyCache {M : Type} (cache : PieceCache M) (stored : M → ℕ → UInt8) (Ok : M → Prop) :
    Prop extends LawfulCache cache stored where
  ready : ∀ {m : M} (off len : ℕ), Ok m → ∃ r m', cache.getPiece m off len false = (some r, m') ∧
    Ok m' ∧ (∃ data, cache.bytes m' r = some data ∧ data.length = len) ∧
    ∀ data : List UInt8, data.length = len → ∃ m'', cache.write m' r data = (true, m'') ∧ Ok m''
  save_ok : ∀ {m : M} (r : PieceRef), Ok m → Ok (cache.savePiece m r)
  mapped_bytes : ∀ {m : M} {r : PieceRef} {data : List UInt8}, r.mapped = true →
    cache.bytes m r = some data → data = (List.range r.len).map fun k => stored m (r.off + k)

/-! ## Bytes at positions -/

/-- Put `data` at position `pos`. -/
def putBytes (f : ℕ → UInt8) (pos : ℕ) (data : List UInt8) (x : ℕ) : UInt8 :=
  if pos ≤ x then data[x - pos]?.getD (f x) else f x

section PutBytes

variable {f : ℕ → UInt8} {pos x : ℕ} {data : List UInt8}

theorem putBytes_outside (h : x < pos ∨ pos + data.length ≤ x) : putBytes f pos data x = f x := by
  unfold putBytes
  split_ifs with hle
  · rw [List.getElem?_eq_none (by omega), Option.getD_none]
  · rfl

theorem putBytes_inside {k : ℕ} (h : k < data.length) :
    some (putBytes f pos data (pos + k)) = data[k]? := by
  unfold putBytes
  rw [if_pos (by omega), Nat.add_sub_cancel_left, List.getElem?_eq_getElem h, Option.getD_some]

/-- Everything was replaced. -/
theorem map_putBytes_zero : (List.range data.length).map (putBytes f 0 data) = data := by
  apply List.ext_getElem?
  intro k
  by_cases h : k < data.length
  · have hput : some (putBytes f 0 data (0 + k)) = data[k]? := putBytes_inside h
    rw [← hput]
    simp [h]
  · simp [h]

end PutBytes

/-! ## The cache -/

/-- The cache of one chunk, with the bytes of the chunk that are in the file.
Whether a piece can be mapped and what new memory holds is given for each piece
that will be created. -/
structure ChunkCache where
  /-- The bytes of the chunk that are in the file. -/
  file : ℕ → UInt8
  /-- The pieces in the cache, `piece_cache[c]`, ordered by offset and length. -/
  cached : List PieceRef
  /-- What the buffered pieces hold. -/
  bufs : PieceRef → ℕ → UInt8
  /-- The number of the next piece. -/
  next : ℕ
  /-- How often mapping failed. -/
  mmapFailures : ℕ
  /-- Whether `CacheFile::map` succeeds for the piece. -/
  maps : ℕ → Bool
  /-- What is in the memory a buffered piece gets. -/
  fresh : ℕ → ℕ → UInt8

namespace ChunkCache

/-- A cache without pieces, of a chunk that is zero in the file; all its pieces will be mapped, or
all buffered. -/
def empty (mapped : Bool) : ChunkCache where
  file := fun _ => 0
  cached := []
  bufs := fun _ _ => 0
  next := 0
  mmapFailures := if mapped then 0 else 3
  maps := fun _ => mapped
  fresh := fun _ _ => 0

/-- `PieceDataInfo::OrderByKey`; a key is the offset and the length. -/
def keyLe (a b : PieceRef) : Bool := decide (a.off < b.off ∨ a.off = b.off ∧ a.len ≤ b.len)

/-- `Cache::findPiece`: the first piece with that offset and length; a piece that
will be written to must be writeable. -/
def findPiece (m : ChunkCache) (off len : ℕ) (readOnly : Bool) : Option PieceRef :=
  m.cached.find? fun r => decide (r.off = off ∧ r.len = len) && (readOnly || !r.readOnly)

/-- `Cache::insertPiece`: behind the pieces with the same key. -/
def insertPiece (m : ChunkCache) (r : PieceRef) : ChunkCache :=
  { m with cached := m.cached.takeWhile (keyLe · r) ++ r :: m.cached.dropWhile (keyLe · r) }

/-- The next piece to be created can be mapped. -/
def canMap (m : ChunkCache) : Bool := decide (m.mmapFailures < 3) && m.maps m.next

/-- The piece that `createPiece` creates. -/
def newPiece (m : ChunkCache) (off len : ℕ) (readOnly : Bool) : PieceRef :=
  ⟨m.next, off, len, m.canMap, readOnly⟩

/-- `createPiece`. -/
def createPiece (m : ChunkCache) (off len : ℕ) (readOnly : Bool) : ChunkCache :=
  let r := m.newPiece off len readOnly
  { m.insertPiece r with
    bufs := Function.update m.bufs r (m.fresh m.next)
    next := m.next + 1
    mmapFailures :=
      if m.mmapFailures < 3 ∧ m.maps m.next = false then m.mmapFailures + 1 else m.mmapFailures }

/-- `loadPiece`: a piece that is not in the cache is mapped or read. -/
def loadPiece (m : ChunkCache) (off len : ℕ) : PieceRef × ChunkCache :=
  match m.findPiece off len true with
  | some r => (r, m)
  | none =>
    let r := m.newPiece off len true
    let m' := m.createPiece off len true
    if r.mapped then (r, m')
    else (r, { m' with bufs := Function.update m'.bufs r fun j => m.file (off + j) })

/-- `preparePiece`: a piece that is not in the cache is not read. -/
def preparePiece (m : ChunkCache) (off len : ℕ) : PieceRef × ChunkCache :=
  match m.findPiece off len false with
  | some r => (r, m)
  | none => (m.newPiece off len false, m.createPiece off len false)

/-- `Chunk::getPiece`. -/
def getPiece (m : ChunkCache) (off len : ℕ) (readOnly : Bool) : PieceRef × ChunkCache :=
  if readOnly then m.loadPiece off len else m.preparePiece off len

/-- The bytes of a piece. -/
def content (m : ChunkCache) (r : PieceRef) (j : ℕ) : UInt8 :=
  if r.mapped then m.file (r.off + j) else m.bufs r j

/-- The bytes of a piece that exists. -/
def bytes (m : ChunkCache) (r : PieceRef) : Option (List UInt8) :=
  if r.id < m.next then some ((List.range r.len).map (m.content r)) else none

/-- `PieceData::write`; false when nothing is written.  The pieces that are
written to come from `preparePiece`, so that a read only piece, where `write`
throws, is none of them. -/
def write (m : ChunkCache) (r : PieceRef) (data : List UInt8) (pos : ℕ) : Bool × ChunkCache :=
  if pos + data.length > r.len ∨ m.next ≤ r.id ∨ r.readOnly = true then (false, m)
  else if r.mapped then (true, { m with file := putBytes m.file (r.off + pos) data })
  else (true, { m with bufs := Function.update m.bufs r (putBytes (m.bufs r) pos data) })

/-- `savePiece`. -/
def savePiece (m : ChunkCache) (r : PieceRef) : ChunkCache :=
  if r.mapped then m
  else
    match m.bytes r with
    | none => m
    | some data => { m with file := putBytes m.file r.off data }

/-- What a chunk download sees of the cache. -/
def ops : PieceCache ChunkCache where
  getPiece := fun m off len readOnly =>
    let (r, m') := m.getPiece off len readOnly
    (some r, m')
  write := fun m r data => m.write r data 0
  bytes := bytes
  savePiece := savePiece

/-! ## The laws -/

variable {m : ChunkCache} {r r' : PieceRef} {off len : ℕ} {readOnly : Bool}

/-- A piece that is found has the offset and the length. -/
theorem findPiece_some (h : m.findPiece off len readOnly = some r) :
    r ∈ m.cached ∧ r.off = off ∧ r.len = len ∧ (readOnly = true ∨ r.readOnly = false) := by
  have hmem := List.mem_of_find?_eq_some h
  have hkey := List.find?_some h
  simp only [Bool.and_eq_true, decide_eq_true_eq, Bool.or_eq_true, Bool.not_eq_true'] at hkey
  exact ⟨hmem, hkey.1.1, hkey.1.2, hkey.2⟩

/-- What `getPiece` does: it finds a piece or makes one. -/
theorem getPiece_cases (m : ChunkCache) (off len : ℕ) (readOnly : Bool) :
    (∃ r, m.findPiece off len readOnly = some r ∧ m.getPiece off len readOnly = (r, m)) ∨
    m.findPiece off len readOnly = none ∧
      ∃ m', m.getPiece off len readOnly = (m.newPiece off len readOnly, m') ∧
        m'.file = m.file ∧ m'.cached = (m.insertPiece (m.newPiece off len readOnly)).cached ∧
        m'.next = m.next + 1 ∧
        (∀ r, r ≠ m.newPiece off len readOnly → m'.bufs r = m.bufs r) ∧
        (readOnly = true → (m.newPiece off len readOnly).mapped = false →
          ∀ j, m'.bufs (m.newPiece off len readOnly) j = m.file (off + j)) := by
  unfold getPiece loadPiece preparePiece
  cases readOnly with
  | true =>
    simp only [if_true]
    cases hf : m.findPiece off len true with
    | some r => exact .inl ⟨r, rfl, rfl⟩
    | none =>
      refine .inr ⟨rfl, ?_⟩
      cases hmap : (m.newPiece off len true).mapped with
      | true =>
        refine ⟨_, rfl, rfl, rfl, rfl, fun r hr => ?_, fun _ h => by cases h⟩
        exact Function.update_of_ne hr _ _
      | false =>
        refine ⟨_, rfl, rfl, rfl, rfl, fun r hr => ?_, fun _ _ j => ?_⟩
        · simp only [createPiece, Function.update_of_ne hr]
        · simp only [Function.update_self]
  | false =>
    simp only [Bool.false_eq_true, if_false]
    cases hf : m.findPiece off len false with
    | some r => exact .inl ⟨r, rfl, rfl⟩
    | none =>
      refine .inr ⟨rfl, _, rfl, rfl, rfl, rfl, fun r hr => ?_, fun h => by cases h⟩
      exact Function.update_of_ne hr _ _

/-- A piece that exists is not the next one. -/
theorem ne_newPiece (h : r.id < m.next) : r ≠ m.newPiece off len readOnly := by
  rintro rfl
  exact Nat.lt_irrefl _ h

/-- `getPiece` leaves the file and the pieces that exist. -/
theorem getPiece_frame (m : ChunkCache) (off len : ℕ) (readOnly : Bool) :
    (m.getPiece off len readOnly).2.file = m.file ∧
      m.next ≤ (m.getPiece off len readOnly).2.next ∧
      ∀ r, r.id < m.next → (m.getPiece off len readOnly).2.content r = m.content r := by
  rcases m.getPiece_cases off len readOnly with ⟨r, -, heq⟩ | ⟨-, m', heq, hfile, -, hnext, hbufs, -⟩
  · rw [heq]
    exact ⟨rfl, le_rfl, fun _ _ => rfl⟩
  · rw [heq]
    refine ⟨hfile, by simp only [hnext]; omega, fun r hr => ?_⟩
    funext j
    simp only [content, hfile, hbufs r (ne_newPiece hr)]

/-- What a write does: nothing, or it changes the bytes at its place. -/
theorem write_cases (m : ChunkCache) (r : PieceRef) (data : List UInt8) (pos : ℕ) :
    m.write r data pos = (false, m) ∨
    pos + data.length ≤ r.len ∧ r.id < m.next ∧ r.readOnly = false ∧
      (r.mapped = true ∧
          m.write r data pos = (true, { m with file := putBytes m.file (r.off + pos) data }) ∨
        r.mapped = false ∧ m.write r data pos
          = (true, { m with bufs := Function.update m.bufs r (putBytes (m.bufs r) pos data) })) := by
  unfold write
  by_cases hbad : pos + data.length > r.len ∨ m.next ≤ r.id ∨ r.readOnly = true
  · exact .inl (if_pos hbad)
  · rw [if_neg hbad]
    simp only [not_or, not_lt, not_le, Bool.not_eq_true] at hbad
    refine .inr ⟨hbad.1, hbad.2.1, hbad.2.2, ?_⟩
    cases hmap : r.mapped with
    | true => exact .inl ⟨rfl, by simp⟩
    | false => exact .inr ⟨rfl, by simp⟩

/-- What saving does: nothing for a mapped piece, else the file gets the buffer. -/
theorem savePiece_cases (m : ChunkCache) (r : PieceRef) :
    (r.mapped = true ∨ m.next ≤ r.id) ∧ m.savePiece r = m ∨
    r.mapped = false ∧ r.id < m.next ∧ m.savePiece r
      = { m with file := putBytes m.file r.off ((List.range r.len).map (m.bufs r)) } := by
  unfold savePiece bytes
  cases hmap : r.mapped with
  | true => exact .inl ⟨.inl rfl, by simp⟩
  | false =>
    by_cases hid : r.id < m.next
    · refine .inr ⟨rfl, hid, ?_⟩
      have hcontent : m.content r = m.bufs r := by
        funext j
        simp [content, hmap]
      simp [hid, hcontent]
    · exact .inl ⟨.inr (by omega), by simp [hid]⟩

theorem bytes_eq_some {data : List UInt8} :
    m.bytes r = some data ↔ r.id < m.next ∧ data = (List.range r.len).map (m.content r) := by
  unfold bytes
  split_ifs with h
  · simp [h, eq_comm]
  · simp [h]

/-- Two states in which a piece has the same bytes. -/
theorem bytes_congr {m' : ChunkCache} {data : List UInt8} (hnext : m.next ≤ m'.next)
    (hcontent : ∀ j, j < r.len → m'.content r j = m.content r j) (h : m.bytes r = some data) :
    m'.bytes r = some data := by
  rw [bytes_eq_some] at *
  refine ⟨by omega, h.2.trans ?_⟩
  apply List.map_congr_left
  intro j hj
  exact (hcontent j (List.mem_range.mp hj)).symm

/-- A write leaves the file outside the piece. -/
theorem write_file {data : List UInt8} {pos x : ℕ}
    (hx : x < r.off + pos ∨ r.off + pos + data.length ≤ x) :
    (m.write r data pos).2.file x = m.file x := by
  rcases m.write_cases r data pos with heq | ⟨-, -, -, ⟨-, heq⟩ | ⟨-, heq⟩⟩
  · rw [heq]
  · rw [heq]
    exact putBytes_outside hx
  · rw [heq]

/-- Saving leaves the file outside the piece. -/
theorem savePiece_file {x : ℕ} (hx : x < r.off ∨ r.off + r.len ≤ x) :
    (m.savePiece r).file x = m.file x := by
  rcases m.savePiece_cases r with ⟨-, heq⟩ | ⟨-, -, heq⟩
  · rw [heq]
  · rw [heq]
    apply putBytes_outside
    rw [List.length_map, List.length_range]
    exact hx

/-- A write leaves the bytes of the pieces that do not overlap. -/
theorem write_content {data : List UInt8} {pos j : ℕ}
    (hx : r'.off + j < r.off + pos ∨ r.off + pos + data.length ≤ r'.off + j) :
    (m.write r data pos).2.content r' j = m.content r' j := by
  rcases m.write_cases r data pos with heq | ⟨hle, -, -, ⟨-, heq⟩ | ⟨hmap, heq⟩⟩
  · rw [heq]
  · rw [heq]
    simp only [content, putBytes_outside hx]
  · rw [heq]
    simp only [content]
    by_cases hr : r' = r
    · subst hr
      rw [Function.update_self, putBytes_outside (by omega)]
    · rw [Function.update_of_ne hr]

/-- Saving leaves the bytes of the piece and of those that do not overlap. -/
theorem savePiece_content {j : ℕ} (hj : j < r'.len)
    (hx : r' = r ∨ r'.off + r'.len ≤ r.off ∨ r.off + r.len ≤ r'.off) :
    (m.savePiece r).content r' j = m.content r' j := by
  unfold content
  have hbufs : (m.savePiece r).bufs = m.bufs := by
    rcases m.savePiece_cases r with ⟨-, heq⟩ | ⟨-, -, heq⟩ <;> rw [heq]
  rw [hbufs]
  cases hmap : r'.mapped with
  | false => rfl
  | true =>
    simp only [if_true]
    rcases hx with rfl | hx
    · unfold savePiece
      rw [if_pos hmap]
    · exact savePiece_file (by omega)

@[simp] theorem write_next (m : ChunkCache) (r : PieceRef) (data : List UInt8) (pos : ℕ) :
    (m.write r data pos).2.next = m.next := by
  rcases m.write_cases r data pos with heq | ⟨-, -, -, ⟨-, heq⟩ | ⟨-, heq⟩⟩ <;> rw [heq]

@[simp] theorem write_cached (m : ChunkCache) (r : PieceRef) (data : List UInt8) (pos : ℕ) :
    (m.write r data pos).2.cached = m.cached := by
  rcases m.write_cases r data pos with heq | ⟨-, -, -, ⟨-, heq⟩ | ⟨-, heq⟩⟩ <;> rw [heq]

@[simp] theorem savePiece_next (m : ChunkCache) (r : PieceRef) : (m.savePiece r).next = m.next := by
  rcases m.savePiece_cases r with ⟨-, heq⟩ | ⟨-, -, heq⟩ <;> rw [heq]

@[simp] theorem savePiece_cached (m : ChunkCache) (r : PieceRef) :
    (m.savePiece r).cached = m.cached := by
  rcases m.savePiece_cases r with ⟨-, heq⟩ | ⟨-, -, heq⟩ <;> rw [heq]

/-- A piece that was saved is in the file. -/
theorem savePiece_file_content {j : ℕ} (hid : r.id < m.next) (hj : j < r.len) :
    (m.savePiece r).file (r.off + j) = m.content r j := by
  rcases m.savePiece_cases r with ⟨hmap, heq⟩ | ⟨hmap, -, heq⟩
  · rw [heq]
    simp [content, hmap.resolve_right (by omega)]
  · have hlen : j < ((List.range r.len).map (m.bufs r)).length := by simpa using hj
    rw [heq]
    apply Option.some.inj
    simp only [content, hmap]
    rw [putBytes_inside hlen]
    simp [hj]

/-- **The cache is lawful**, whichever pieces are mapped. -/
theorem lawful : LawfulCache ops ChunkCache.file where
  getPiece_range := by
    intro m m' off len readOnly r h
    simp only [ops, Prod.mk.injEq, Option.some.injEq] at h
    rcases m.getPiece_cases off len readOnly with ⟨r', hfind, heq⟩ | ⟨-, m₁, heq, -⟩
    · rw [heq] at h
      obtain ⟨-, hoff, hlen, -⟩ := findPiece_some hfind
      exact h.1 ▸ ⟨hoff, hlen⟩
    · rw [heq] at h
      exact h.1 ▸ ⟨rfl, rfl⟩
  getPiece_stored := fun m off len readOnly => (m.getPiece_frame off len readOnly).1
  getPiece_bytes := by
    intro m r data off len readOnly h
    obtain ⟨-, hnext, hcontent⟩ := m.getPiece_frame off len readOnly
    apply bytes_congr hnext _ h
    intro j _
    exact congrFun (hcontent r (bytes_eq_some.mp h).1) j
  write_bytes := by
    intro m m' r data h hlen
    simp only [ops] at h
    rcases m.write_cases r data 0 with heq | ⟨-, hid, -, ⟨hmap, heq⟩ | ⟨hmap, heq⟩⟩
    · rw [heq] at h
      simp at h
    · rw [heq] at h
      obtain ⟨-, rfl⟩ := Prod.mk.injEq .. ▸ h
      refine bytes_eq_some.mpr ⟨hid, ?_⟩
      apply List.ext_getElem?
      intro k
      by_cases hk : k < data.length
      · have hput : some (putBytes m.file r.off data (r.off + k)) = data[k]? := putBytes_inside hk
        rw [← hput]
        simp [content, hmap, ← hlen, hk]
      · simp [← hlen, hk]
    · rw [heq] at h
      obtain ⟨-, rfl⟩ := Prod.mk.injEq .. ▸ h
      refine bytes_eq_some.mpr ⟨hid, ?_⟩
      rw [← hlen]
      have hput : (List.range data.length).map (putBytes (m.bufs r) 0 data) = data :=
        map_putBytes_zero
      refine hput.symm.trans ?_
      apply List.map_congr_left
      intro j _
      simp [content, hmap]
  write_stored := by
    intro m r data x hx
    rcases m.write_cases r data 0 with heq | ⟨hle, -⟩
    · simp only [ops, heq]
    · exact write_file (by omega)
  write_other := by
    intro m r r' data data' hdisj h
    apply bytes_congr (by simp [ops]) _ h
    intro j hj
    rcases m.write_cases r data 0 with heq | ⟨hle, -⟩
    · simp only [ops, heq]
    · exact write_content (by omega)
  save_stored := by
    intro m r data k h hk
    obtain ⟨hid, rfl⟩ := bytes_eq_some.mp h
    rw [List.length_map, List.length_range] at hk
    show _ = some ((m.savePiece r).file (r.off + k))
    rw [savePiece_file_content hid hk]
    simp [hk]
  save_outside := fun hx => savePiece_file hx
  save_bytes := by
    intro m r r' data hx h
    apply bytes_congr (by simp [ops]) _ h
    intro j hj
    exact savePiece_content hj hx

/-- The pieces in the cache have been created. -/
def Numbered (m : ChunkCache) : Prop := ∀ r ∈ m.cached, r.id < m.next

/-- A piece to write to is in the cache. -/
theorem Numbered.getPiece (h : m.Numbered) (off len : ℕ) :
    (m.getPiece off len false).2.Numbered ∧
      (m.getPiece off len false).1.id < (m.getPiece off len false).2.next ∧
      (m.getPiece off len false).1.readOnly = false ∧ (m.getPiece off len false).1.len = len := by
  rcases m.getPiece_cases off len false with ⟨r, hfind, heq⟩ | ⟨-, m', heq, -, hcached, hnext, -⟩
  · obtain ⟨hmem, -, hlen, hro⟩ := findPiece_some hfind
    rw [heq]
    exact ⟨h, h r hmem, hro.resolve_left Bool.false_ne_true, hlen⟩
  · rw [heq]
    refine ⟨fun r hr => ?_, hnext ▸ Nat.lt_succ_self _, rfl, rfl⟩
    rw [hnext]
    rw [hcached, insertPiece, List.mem_append, List.mem_cons] at hr
    rcases hr with hr | rfl | hr
    · exact Nat.lt_succ_of_lt (h r (List.takeWhile_subset _ hr))
    · exact Nat.lt_succ_self _
    · exact Nat.lt_succ_of_lt (h r (List.dropWhile_subset _ hr))

/-- **The cache is steady**, too. -/
theorem steady : SteadyCache ops ChunkCache.file Numbered where
  toLawfulCache := lawful
  ready := by
    intro m off len h
    obtain ⟨hnumbered, hid, hro, hlen⟩ := h.getPiece off len
    generalize hget : m.getPiece off len false = g at *
    refine ⟨g.1, g.2, ?_, hnumbered, ⟨_, bytes_eq_some.mpr ⟨hid, rfl⟩, ?_⟩, fun data hdata => ?_⟩
    · simp only [ops, hget]
    · simp [hlen]
    · have hwrite : (g.2.write g.1 data 0).1 = true := by
        rw [write, if_neg]
        · split <;> rfl
        · rintro (h | h | h)
          · omega
          · omega
          · rw [hro] at h
            cases h
      refine ⟨(g.2.write g.1 data 0).2, Prod.ext hwrite rfl, ?_⟩
      rw [Numbered, write_cached, write_next]
      exact hnumbered
  save_ok := by
    intro m r h
    simpa [Numbered, ops] using h
  mapped_bytes := by
    intro m r data hmap h
    obtain ⟨-, rfl⟩ := bytes_eq_some.mp h
    simp [content, hmap]

end ChunkCache

/-! ## The caches of all chunks -/

namespace PieceCache

variable {M : Type}

/-- What chunk `i` sees of the caches of all chunks. -/
def forChunk (cache : PieceCache M) (i : ℕ) : PieceCache (ℕ → M) where
  getPiece := fun m off len readOnly =>
    ((cache.getPiece (m i) off len readOnly).1,
      Function.update m i (cache.getPiece (m i) off len readOnly).2)
  write := fun m r data =>
    ((cache.write (m i) r data).1, Function.update m i (cache.write (m i) r data).2)
  bytes := fun m r => cache.bytes (m i) r
  savePiece := fun m r => Function.update m i (cache.savePiece (m i) r)

variable {cache : PieceCache M} {stored : M → ℕ → UInt8} {Ok : M → Prop}

/-- Each chunk has a steady cache. -/
theorem steady_forChunk (law : SteadyCache cache stored Ok) (i : ℕ) :
    SteadyCache (cache.forChunk i) (fun m => stored (m i)) fun m => Ok (m i) where
  getPiece_range := by
    intro m m' off len readOnly r h
    have hpiece : (cache.getPiece (m i) off len readOnly).1 = some r := congrArg Prod.fst h
    exact law.getPiece_range (Prod.ext hpiece rfl)
  getPiece_stored := fun m off len readOnly => by
    simp only [PieceCache.forChunk, Function.update_self, law.getPiece_stored]
  getPiece_bytes := fun off len readOnly h => by
    simpa only [PieceCache.forChunk, Function.update_self] using law.getPiece_bytes off len readOnly h
  write_bytes := by
    intro m m' r data h hlen
    obtain ⟨hok, rfl⟩ := Prod.mk.inj h
    simp only [PieceCache.forChunk, Function.update_self]
    exact law.write_bytes (Prod.ext hok rfl) hlen
  write_stored := fun data _ hx => by
    simpa only [PieceCache.forChunk, Function.update_self] using law.write_stored data hx
  write_other := fun data _ hdisj h => by
    simpa only [PieceCache.forChunk, Function.update_self] using law.write_other data hdisj h
  save_stored := fun h hk => by
    simpa only [PieceCache.forChunk, Function.update_self] using law.save_stored h hk
  save_outside := fun hx => by
    simpa only [PieceCache.forChunk, Function.update_self] using law.save_outside hx
  save_bytes := fun hx h => by
    simpa only [PieceCache.forChunk, Function.update_self] using law.save_bytes hx h
  ready := by
    intro m off len h
    obtain ⟨r, m', hget, hok, hbytes, hwrite⟩ := law.ready off len h
    refine ⟨r, Function.update m i m', ?_, ?_, ?_, fun data hdata => ?_⟩
    · simp only [PieceCache.forChunk, hget]
    · rwa [Function.update_self]
    · simpa only [PieceCache.forChunk, Function.update_self] using hbytes
    · obtain ⟨m'', heq, hok'⟩ := hwrite data hdata
      refine ⟨Function.update m i m'', ?_, ?_⟩
      · simp only [PieceCache.forChunk, Function.update_self, heq, Function.update_idem]
      · rwa [Function.update_self]
  save_ok := fun r h => by
    simpa only [PieceCache.forChunk, Function.update_self] using law.save_ok r h
  mapped_bytes := fun hmap h => law.mapped_bytes hmap h

end PieceCache

end KTorrent
