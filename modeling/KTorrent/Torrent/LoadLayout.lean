import KTorrent.Bcodec.Strings
import KTorrent.Torrent.Load

/-!
# What is loaded

`Torrent::load` checks one thing about the sizes it reads: that the number of
hashes is the number of chunks, both cut to 32 bits.

* `WellFormed` — the layout that the rest of the program relies on.
* `Sound` — what the dictionary has to promise beyond that check.
* `loadsWell_iff` — exactly then the torrent is rejected or its layout is well formed.
* `zero_pieceLength_crashes` — a piece length of zero ends in a division by zero.
-/

namespace KTorrent
namespace Torrent

variable (qt : Qt)

/-! ## What is promised -/

/-- The lengths that are written for the files of the list, without empty directories. -/
def keptLengths : List BNode → Except LoadError (List ℤ)
  | [] => return []
  | child :: children => do
    match ← readFile qt child with
    | none => keptLengths children
    | some entry =>
      let lengths ← keptLengths children
      return entry.length :: lengths

/-- The lengths that are written in the info dictionary. -/
def writtenLengths (info : BDictNode) : Except LoadError (List ℤ) :=
  match info.getList (ascii "files") with
  | some files => keptLengths qt files
  | none => do
    let length ← getter (info.getInt64 (ascii "length"))
    return [length]

/-- The sizes of the files of a torrent, or its total size if it is a single file. -/
def sizes (info : BDictNode) (tor : Torrent) : List ℕ :=
  match info.getList (ascii "files") with
  | some _ => tor.files.map TorrentFile.size
  | none => [tor.totalSize]

/-- The number of chunks of `total` bytes, rounded up. -/
def chunksOf (total chunkSize : ℕ) : ℕ := (total + chunkSize - 1) / chunkSize

/-- The layout agrees with what is written in the info dictionary. -/
structure WellFormed (info : BDictNode) (tor : Torrent) : Prop where
  chunkSize_pos : 0 < tor.chunkSize
  hashes : tor.hashPieces.length = chunksOf tor.totalSize tor.chunkSize
  lengths : writtenLengths qt info = .ok ((tor.sizes info).map fun s : ℕ => (s : ℤ))
  total : tor.totalSize = (tor.sizes info).sum
  chained : Chained 0 0 tor.files
  exact : ∀ f ∈ tor.files, 0 < f.size → f.Exact tor.chunkSize

/-- The torrent is rejected, or it is well formed. -/
def EndsWell (dict : BDictNode) : Except LoadError Torrent → Prop
  | .error e => e.thrown = true
  | .ok tor => ∃ info, dict.getDict (ascii "info") = some info ∧ WellFormed qt info tor

/-- The same for a whole file, with enough fuel for the decoder. -/
def LoadsWell (data : List UInt8) : Prop :=
  ∃ enough, ∀ fuel ≥ enough,
    match load qt data fuel with
    | .error e => e.thrown = true
    | .ok tor => ∃ dict, BDecoder.decodeDict data fuel = .ok (some dict) ∧ EndsWell qt dict (.ok tor)

/-! ## When it is kept -/

/-- The first file of the list, unless an entry before it is rejected. -/
def firstFile : List BNode → Except LoadError (Option FileEntry)
  | [] => return none
  | child :: children => do
    match ← readFile qt child with
    | none => firstFile children
    | some entry => return some entry

/-- The list of files is read up to a file. -/
def MakesFile (info : BDictNode) : Prop :=
  ∃ files entry, info.getList (ascii "files") = some files ∧ firstFile qt files = .ok (some entry)

/-- The lengths are not negative, and neither their sum nor the number of chunks is cut. -/
structure Fits (lengths : List ℤ) (chunkSize : ℕ) : Prop where
  nonneg : ∀ n ∈ lengths, 0 ≤ n
  sum_lt : lengths.sum < 2 ^ 64
  chunks_lt : chunksOf lengths.sum.toNat chunkSize < 2 ^ 32

/-- The number of hashes is the number of chunks, both cut to 32 bits. -/
def CountsAgree (lengths : List ℤ) (chunkSize : ℕ) (pieces : List UInt8) : Prop :=
  u32 (chunksOf (toUint64 lengths.sum) chunkSize) = u32 (pieces.length / 20)

/-- What an info dictionary has to promise about its piece length, its hashes and its
lengths, each as far as `load` comes to use them. -/
structure SoundInfo (dict info : BDictNode) (pieceLength : ℤ) : Prop where
  /-- No file is made and the end of `loadInfo` is not reached with a piece length of zero. -/
  divides : toUint64 pieceLength = 0 → ¬ MakesFile qt info ∧
    ∀ lengths pieces name, writtenLengths qt info = .ok lengths →
      info.getByteArrayView (ascii "pieces") = .ok pieces →
        info.getByteArrayView (ascii "name") ≠ .ok name
  /-- The hashes have 20 bytes each. -/
  pieces : ∀ lengths pieces, writtenLengths qt info = .ok lengths →
    info.getByteArrayView (ascii "pieces") = .ok pieces → 20 ∣ pieces.length
  /-- The safety check passes only when the lengths fit. -/
  fits : ∀ lengths pieces name tor, writtenLengths qt info = .ok lengths →
    info.getByteArrayView (ascii "pieces") = .ok pieces →
      info.getByteArrayView (ascii "name") = .ok name → loadTail qt dict empty = .ok tor →
        CountsAgree lengths (toUint64 pieceLength) pieces → Fits lengths (toUint64 pieceLength)

/-- The dictionary is sound, unless it is rejected before its info dictionary is used. -/
def Sound (dict : BDictNode) : Prop :=
  ∀ head info pieceLength, loadHead qt dict = .ok head →
    dict.getDict (ascii "info") = some info →
      info.getInt64 (ascii "piece length") = .ok pieceLength → SoundInfo qt dict info pieceLength

/-- The decoder stays inside the data, and what it finds is sound. -/
def SoundData (data : List UInt8) : Prop :=
  ∃ enough, ∀ fuel ≥ enough,
    match BDecoder.decodeDict data fuel with
    | .error e => e.thrown = true
    | .ok none => True
    | .ok (some dict) => Sound qt dict

/-! ## Errors that are thrown -/

/-- Whatever stops the computation is thrown. -/
def Throws {α : Type*} (r : Except LoadError α) : Prop := ∀ e, r = .error e → e.thrown = true

section Throws

variable {α β : Type}

theorem throws_ok (a : α) : Throws (.ok a) := fun e he => by cases he

theorem throws_getter (r : Except NodeError α) : Throws (getter r) := by
  cases r with
  | error e =>
    rintro _ he
    cases he
    rfl
  | ok a => exact throws_ok a

theorem Throws.bind {r : Except LoadError α} {f : α → Except LoadError β} (hr : Throws r)
    (hf : ∀ a, Throws (f a)) : Throws (r >>= f) := by
  cases r with
  | error e =>
    rintro _ he
    cases he
    exact hr e rfl
  | ok a => exact hf a

theorem throws_mapM {f : α → Except LoadError β} (hf : ∀ a, Throws (f a)) (as : List α) :
    Throws (as.mapM f) := by
  induction as with
  | nil => exact throws_ok []
  | cons a as ih =>
    rw [List.mapM_cons]
    exact (hf a).bind fun b => ih.bind fun bs => throws_ok _

theorem throws_corrupted : Throws (.error .corruptedTorrent : Except LoadError α) := by
  rintro _ he
  cases he
  rfl

theorem throws_readFile (child : BNode) : Throws (readFile qt child) := by
  unfold readFile
  cases child.asDict with
  | none => exact throws_corrupted
  | some d =>
    dsimp only
    cases d.getList (ascii "path") with
    | none => exact throws_corrupted
    | some ln =>
      refine (throws_mapM (fun part => throws_getter _) ln).bind fun unencodedPath => ?_
      split
      · exact throws_ok _
      · split
        · exact throws_corrupted
        · exact (throws_getter _).bind fun _ => throws_ok _

theorem throws_loadHead (dict : BDictNode) : Throws (loadHead qt dict) := by
  unfold loadHead
  refine Throws.bind ?_ fun tor => ?_
  · unfold loadAnnounce
    split
    · exact throws_ok _
    · exact (throws_getter _).bind fun _ => throws_ok _
  · split
    · exact throws_ok _
    · refine Throws.bind ?_ fun _ => throws_ok _
      refine throws_mapM (fun child => ?_) _
      split
      · exact (throws_getter _).bind fun _ => (throws_getter _).bind fun _ => throws_ok _
      · exact throws_corrupted

theorem throws_announceTiers (children : List BNode) : ∀ tier, Throws (announceTiers qt children tier) := by
  induction children with
  | nil => exact fun tier => throws_ok _
  | cons child children ih =>
    intro tier
    unfold announceTiers
    split
    · exact ih tier
    · refine (throws_mapM (fun url => throws_getter _) _).bind fun urls => ?_
      exact (ih []).bind fun _ => throws_ok _

theorem throws_loadTail (dict : BDictNode) (tor : Torrent) : Throws (loadTail qt dict tor) := by
  unfold loadTail
  refine Throws.bind ?_ fun tor' => Throws.bind ?_ fun _ => throws_ok _
  · unfold loadAnnounceList
    split
    · exact throws_ok _
    · exact (throws_announceTiers qt _ _).bind fun _ => throws_ok _
  · unfold loadUrlList
    split
    · exact (throws_mapM (fun url => throws_getter _) _).bind fun _ => throws_ok _
    · exact (throws_getter _).bind fun _ => throws_ok _
    · exact throws_ok _

end Throws

/-! ## Files -/

section Files

variable {qt} {children : List BNode} {idx : ℕ} {tor tor' : Torrent}

/-- With a chunk size, the loop makes the files of the lengths that it reads. -/
theorem loadFiles_error (hcs : tor.chunkSize ≠ 0) {e : LoadError}
    (h : keptLengths qt children = .error e) : loadFiles qt children idx tor = .error e := by
  induction children generalizing idx tor with
  | nil => cases h
  | cons child children ih =>
    unfold keptLengths at h
    unfold loadFiles
    cases hread : readFile qt child with
    | error e' =>
      rw [hread] at h
      cases h
      rfl
    | ok entry =>
      rw [hread] at h
      cases entry with
      | none => exact ih hcs h
      | some entry =>
        simp only [bind, Except.bind] at h ⊢
        rw [if_neg hcs]
        cases hrest : keptLengths qt children with
        | error e' =>
          rw [hrest] at h
          cases h
          exact ih hcs hrest
        | ok lengths =>
          rw [hrest] at h
          cases h

/-- A sum of lengths in a `Uint64`. -/
def wrapSum (total : ℕ) (lengths : List ℤ) : ℕ :=
  lengths.foldl (fun t n => u64 (t + toUint64 n)) total

variable (idx tor) in
theorem loadFiles_ok (hcs : tor.chunkSize ≠ 0) {lengths : List ℤ}
    (h : keptLengths qt children = .ok lengths) :
    ∃ paths, loadFiles qt children idx tor = .ok { tor with
      totalSize := wrapSum tor.totalSize lengths
      files := tor.files ++ mkFiles tor.chunkSize idx tor.totalSize (lengths.map toUint64)
      paths := paths } := by
  induction children generalizing idx tor lengths with
  | nil =>
    cases h
    refine ⟨tor.paths, ?_⟩
    unfold loadFiles
    rw [List.map_nil, mkFiles, List.append_nil]
    rfl
  | cons child children ih =>
    unfold keptLengths at h
    unfold loadFiles
    cases hread : readFile qt child with
    | error e' =>
      rw [hread] at h
      cases h
    | ok entry =>
      rw [hread] at h
      cases entry with
      | none => exact ih idx tor hcs h
      | some entry =>
        simp only [bind, Except.bind] at h ⊢
        rw [if_neg hcs]
        cases hrest : keptLengths qt children with
        | error e' =>
          rw [hrest] at h
          cases h
        | ok rest =>
          rw [hrest] at h
          cases h
          obtain ⟨paths, hpaths⟩ := ih (idx + 1) { tor with
            totalSize := u64 (tor.totalSize + toUint64 entry.length)
            files := tor.files ++
              [TorrentFile.new idx tor.totalSize (toUint64 entry.length) tor.chunkSize]
            paths := tor.paths ++ [(entry.path, entry.unencodedPath)] } hcs hrest
          refine ⟨paths, hpaths.trans ?_⟩
          rw [List.map_cons, mkFiles, List.append_assoc, List.singleton_append]
          rfl

/-- Without a chunk size, the loop ends at the first file that it makes. -/
theorem loadFiles_zero (hcs : tor.chunkSize = 0) :
    loadFiles qt children idx tor = match firstFile qt children with
      | .error e => .error e
      | .ok none => .ok tor
      | .ok (some _) => .error .divisionByZero := by
  induction children with
  | nil => rfl
  | cons child children ih =>
    unfold loadFiles firstFile
    cases hread : readFile qt child with
    | error e => rfl
    | ok entry =>
      cases entry with
      | none => exact ih
      | some entry =>
        simp only [bind, Except.bind, pure, Except.pure]
        rw [if_pos hcs]
        rfl

theorem keptLengths_error {e : LoadError} (h : firstFile qt children = .error e) :
    keptLengths qt children = .error e := by
  induction children with
  | nil => cases h
  | cons child children ih =>
    unfold firstFile at h
    unfold keptLengths
    cases hread : readFile qt child with
    | error e' =>
      rw [hread] at h
      cases h
      rfl
    | ok entry =>
      rw [hread] at h
      cases entry with
      | none => exact ih h
      | some entry => cases h

theorem keptLengths_nil (h : firstFile qt children = .ok none) : keptLengths qt children = .ok [] := by
  induction children with
  | nil => rfl
  | cons child children ih =>
    unfold firstFile at h
    unfold keptLengths
    cases hread : readFile qt child with
    | error e' =>
      rw [hread] at h
      cases h
    | ok entry =>
      rw [hread] at h
      cases entry with
      | none => exact ih h
      | some entry => cases h

theorem throws_keptLengths (children : List BNode) : Throws (keptLengths qt children) := by
  induction children with
  | nil => exact throws_ok _
  | cons child children ih =>
    unfold keptLengths
    refine (throws_readFile qt child).bind fun entry => ?_
    split
    · exact ih
    · exact ih.bind fun _ => throws_ok _

theorem throws_writtenLengths (info : BDictNode) : Throws (writtenLengths qt info) := by
  unfold writtenLengths
  split
  · exact throws_keptLengths _
  · exact (throws_getter _).bind fun _ => throws_ok _

/-! ## Sums -/

theorem toUint64_lt (n : ℤ) : toUint64 n < 2 ^ 64 := by
  unfold toUint64
  omega

theorem toUint64_of_nat {n : ℕ} (h : n < 2 ^ 64) : toUint64 n = n := by
  unfold toUint64
  omega

theorem wrapSum_eq (lengths : List ℤ) : ∀ total, total < 2 ^ 64 →
    wrapSum total lengths = toUint64 (total + lengths.sum) := by
  induction lengths with
  | nil =>
    intro total htotal
    rw [List.sum_nil, add_zero, toUint64_of_nat htotal]
    rfl
  | cons n lengths ih =>
    intro total htotal
    have hwrap : u64 (total + toUint64 n) < 2 ^ 64 := Nat.mod_lt _ (by decide)
    have hstep : wrapSum total (n :: lengths) = wrapSum (u64 (total + toUint64 n)) lengths := rfl
    rw [hstep, ih _ hwrap, List.sum_cons]
    unfold toUint64 u64
    push_cast
    omega

/-- What the sizes of a torrent look like when they have been read. -/
structure Sized (info : BDictNode) (lengths : List ℤ) (tor : Torrent) : Prop where
  total : tor.totalSize = toUint64 lengths.sum
  files : ∀ files, info.getList (ascii "files") = some files →
    tor.files = mkFiles tor.chunkSize 0 0 (lengths.map toUint64)
  single : info.getList (ascii "files") = none → tor.files = [] ∧ ∃ n, lengths = [n]

theorem not_makesFile_of_single {info : BDictNode} (h : info.getList (ascii "files") = none) :
    ¬ MakesFile qt info := by
  rintro ⟨files, entry, hfiles, -⟩
  cases h.symm.trans hfiles

variable (qt tor) in
/-- **The sizes are read**, or what stops them is thrown. -/
theorem loadSizes_cases (info : BDictNode) (hcs : tor.chunkSize ≠ 0) (htotal : tor.totalSize = 0)
    (hfiles : tor.files = []) :
    (∃ e, writtenLengths qt info = .error e ∧ loadSizes qt info tor = .error e) ∨
      ∃ lengths sized, writtenLengths qt info = .ok lengths ∧ loadSizes qt info tor = .ok sized ∧
        sized.chunkSize = tor.chunkSize ∧ Sized info lengths sized := by
  unfold writtenLengths loadSizes
  cases hlist : info.getList (ascii "files") with
  | some files =>
    dsimp only
    cases hlengths : keptLengths qt files with
    | error e => exact .inl ⟨e, rfl, loadFiles_error hcs hlengths⟩
    | ok lengths =>
      right
      obtain ⟨paths, hload⟩ := loadFiles_ok 0 tor hcs hlengths
      refine ⟨lengths, _, rfl, hload, rfl, ?_, ?_, ?_⟩
      · show wrapSum tor.totalSize lengths = _
        rw [htotal, wrapSum_eq _ _ (by decide), Nat.cast_zero, zero_add]
      · intro files' _
        show tor.files ++ mkFiles tor.chunkSize 0 tor.totalSize (lengths.map toUint64) = _
        rw [hfiles, htotal, List.nil_append]
      · intro hnone
        cases hlist.symm.trans hnone
  | none =>
    cases hlength : info.getInt64 (ascii "length") with
    | error e => exact .inl ⟨.node e, rfl, rfl⟩
    | ok length =>
      right
      refine ⟨[length], _, rfl, rfl, rfl, ?_, ?_, ?_⟩
      · show toUint64 length = _
        rw [List.sum_singleton]
      · intro files hsome
        cases hlist.symm.trans hsome
      · exact fun _ => ⟨hfiles, length, rfl⟩

variable (qt tor) in
/-- Without a chunk size the first file ends it. -/
theorem loadSizes_zero (info : BDictNode) (hcs : tor.chunkSize = 0) :
    (∃ e, writtenLengths qt info = .error e ∧ loadSizes qt info tor = .error e ∧ ¬ MakesFile qt info) ∨
      (MakesFile qt info ∧ loadSizes qt info tor = .error .divisionByZero) ∨
      ∃ lengths sized, writtenLengths qt info = .ok lengths ∧ loadSizes qt info tor = .ok sized ∧
        sized.chunkSize = 0 ∧ ¬ MakesFile qt info := by
  cases hlist : info.getList (ascii "files") with
  | some files =>
    have hmakes : MakesFile qt info ↔ ∃ entry, firstFile qt files = .ok (some entry) := by
      constructor
      · rintro ⟨files', entry, hfiles, hfirst⟩
        obtain rfl := Option.some.inj (hlist.symm.trans hfiles)
        exact ⟨entry, hfirst⟩
      · rintro ⟨entry, hfirst⟩
        exact ⟨files, entry, hlist, hfirst⟩
    rw [hmakes]
    unfold writtenLengths loadSizes
    simp only [hlist, loadFiles_zero hcs]
    cases hfirst : firstFile qt files with
    | error e =>
      refine .inl ⟨e, keptLengths_error hfirst, rfl, ?_⟩
      rintro ⟨entry, he⟩
      cases he
    | ok entry =>
      cases entry with
      | some entry => exact .inr (.inl ⟨⟨entry, rfl⟩, rfl⟩)
      | none =>
        refine .inr (.inr ⟨[], tor, keptLengths_nil hfirst, rfl, hcs, ?_⟩)
        rintro ⟨entry, he⟩
        cases he
  | none =>
    unfold writtenLengths loadSizes
    simp only [hlist]
    cases hlength : info.getInt64 (ascii "length") with
    | error e => exact .inl ⟨.node e, rfl, rfl, not_makesFile_of_single hlist⟩
    | ok length =>
      exact .inr (.inr ⟨[length], _, rfl, rfl, hcs, not_makesFile_of_single hlist⟩)

end Files

/-! ## Hashes -/

theorem loadHash_ok (s : List UInt8) (h : 20 ∣ s.length) :
    ∃ hashes, loadHash s = .ok hashes ∧ hashes.length = s.length / 20 := by
  induction s using loadHash.induct with
  | case1 =>
    unfold loadHash
    exact ⟨[], rfl, rfl⟩
  | case2 s hne hlt =>
    have hpos := List.length_pos_iff.mpr hne
    exact absurd (Nat.le_of_dvd hpos h) (not_le.mpr hlt)
  | case3 s hne hge ih =>
    have hlen : (s.drop 20).length = s.length - 20 := List.length_drop
    obtain ⟨hashes, hload, hcount⟩ := ih (by rw [hlen]; exact Nat.dvd_sub h dvd_rfl)
    unfold loadHash
    rw [if_neg hne, if_neg hge, hload]
    refine ⟨s.take 20 :: hashes, rfl, ?_⟩
    rw [List.length_cons, hcount, hlen]
    omega

theorem loadHash_outside (s : List UInt8) (h : ¬ 20 ∣ s.length) : loadHash s = .error .slicedOutside := by
  induction s using loadHash.induct with
  | case1 => exact absurd (dvd_zero 20) h
  | case2 s hne hlt =>
    unfold loadHash
    rw [if_neg hne, if_pos hlt]
    rfl
  | case3 s hne hge ih =>
    have hlen : (s.drop 20).length = s.length - 20 := List.length_drop
    unfold loadHash
    rw [if_neg hne, if_neg hge, ih]
    · rfl
    · rw [hlen]
      omega

theorem chunksOf_eq {chunkSize : ℕ} (hcs : 0 < chunkSize) (total : ℕ) :
    chunksOf total chunkSize = total / chunkSize + if total % chunkSize > 0 then 1 else 0 := by
  have hdiv := Nat.div_add_mod' total chunkSize
  have hmod := Nat.mod_lt total hcs
  unfold chunksOf
  rw [Nat.div_eq_iff hcs]
  split
  · rw [Nat.add_mul]
    omega
  · rw [Nat.add_zero]
    omega

/-- **The safety check** compares the numbers in 32 bits. -/
theorem checkChunks_eq (tor : Torrent) (hcs : 0 < tor.chunkSize) :
    if u32 (chunksOf tor.totalSize tor.chunkSize) = u32 tor.hashPieces.length then
      ∃ lastChunkSize, checkChunks tor = .ok { tor with lastChunkSize := lastChunkSize }
    else checkChunks tor = .error .corruptedTorrent := by
  have hcount : u32 (chunksOf tor.totalSize tor.chunkSize) =
      if tor.totalSize % tor.chunkSize > 0 then u32 (u32 (tor.totalSize / tor.chunkSize) + 1)
      else u32 (tor.totalSize / tor.chunkSize) := by
    rw [chunksOf_eq hcs]
    split
    · unfold u32
      omega
    · rfl
  rw [hcount]
  unfold checkChunks
  rw [if_neg hcs.ne']
  by_cases hrest : tor.totalSize % tor.chunkSize > 0
  · simp only [if_pos hrest]
    split
    · rename_i heq
      rw [if_neg (not_not_intro heq)]
      exact ⟨_, rfl⟩
    · rfl
  · simp only [if_neg hrest]
    split
    · rename_i heq
      rw [if_neg (not_not_intro heq)]
      exact ⟨_, rfl⟩
    · rfl

/-! ## Behind the info dictionary -/

section Tail

variable {qt} {dict : BDictNode} {tor tor' : Torrent}

/-- The same layout. -/
structure SameLayout (tor tor' : Torrent) : Prop where
  chunkSize : tor'.chunkSize = tor.chunkSize
  totalSize : tor'.totalSize = tor.totalSize
  files : tor'.files = tor.files
  hashPieces : tor'.hashPieces = tor.hashPieces

theorem SameLayout.wellFormed (h : SameLayout tor tor') {info : BDictNode}
    (hwf : WellFormed qt info tor) : WellFormed qt info tor' := by
  have hsizes : tor'.sizes info = tor.sizes info := by
    unfold sizes
    rw [h.files, h.totalSize]
  refine ⟨?_, ?_, ?_, ?_, ?_, ?_⟩
  · rw [h.chunkSize]
    exact hwf.chunkSize_pos
  · rw [h.hashPieces, h.totalSize, h.chunkSize]
    exact hwf.hashes
  · rw [hsizes]
    exact hwf.lengths
  · rw [hsizes, h.totalSize]
    exact hwf.total
  · rw [h.files]
    exact hwf.chained
  · rw [h.files, h.chunkSize]
    exact hwf.exact

theorem SameLayout.symm (h : SameLayout tor tor') : SameLayout tor' tor :=
  ⟨h.chunkSize.symm, h.totalSize.symm, h.files.symm, h.hashPieces.symm⟩

theorem announceTiers_ok {children : List BNode} {tier : List (List Char)} (tier' : List (List Char))
    {tiers : List (List (List Char))} (h : announceTiers qt children tier = .ok tiers) :
    ∃ tiers', announceTiers qt children tier' = .ok tiers' := by
  induction children generalizing tier tier' tiers with
  | nil => exact ⟨[tier'], rfl⟩
  | cons child children ih =>
    unfold announceTiers at h ⊢
    cases hlist : child.asList with
    | none =>
      rw [hlist] at h
      exact ih tier' h
    | some urls =>
      rw [hlist] at h
      simp only [bind, Except.bind] at h ⊢
      split at h
      · cases h
      · split at h
        · cases h
        · exact ⟨_, rfl⟩

variable (tor) in
/-- Whether the rest can be read does not depend on what was read before. -/
theorem loadTail_ok {other : Torrent} (h : loadTail qt dict other = .ok tor') :
    ∃ tor'', loadTail qt dict tor = .ok tor'' := by
  unfold loadTail loadAnnounceList at h ⊢
  cases hlist : (dict.getData (ascii "announce-list")).bind BNode.asList with
  | none =>
    rw [hlist] at h
    simp only [bind, Except.bind, pure, Except.pure] at h ⊢
    split at h
    · cases h
    · exact ⟨_, rfl⟩
  | some children =>
    rw [hlist] at h
    simp only [bind, Except.bind, pure, Except.pure] at h ⊢
    cases htiers : announceTiers qt children (other.trackers.headD []) with
    | error e =>
      rw [htiers] at h
      cases h
    | ok tiers =>
      rw [htiers] at h
      obtain ⟨tiers', htiers'⟩ := announceTiers_ok (tor.trackers.headD []) htiers
      rw [htiers']
      dsimp only at h ⊢
      split at h
      · cases h
      · exact ⟨_, rfl⟩

theorem loadTail_sameLayout (h : loadTail qt dict tor = .ok tor') : SameLayout tor tor' := by
  unfold loadTail loadAnnounceList at h
  simp only [bind, Except.bind, pure, Except.pure] at h
  split at h
  · cases h
  · rename_i mid hmid
    have hsame : SameLayout tor mid := by
      split at hmid
      · cases hmid
        exact ⟨rfl, rfl, rfl, rfl⟩
      · split at hmid
        · cases hmid
        · cases hmid
          exact ⟨rfl, rfl, rfl, rfl⟩
    split at h
    · cases h
    · cases h
      exact ⟨hsame.chunkSize, hsame.totalSize, hsame.files, hsame.hashPieces⟩

theorem loadHead_empty (h : loadHead qt dict = .ok tor) : tor.totalSize = 0 ∧ tor.files = [] := by
  have hcomment : (loadComment qt dict).totalSize = 0 ∧ (loadComment qt dict).files = [] := by
    unfold loadComment
    split
    · exact ⟨rfl, rfl⟩
    · exact ⟨rfl, rfl⟩
  have hannounce : ∀ t, loadAnnounce qt dict (loadComment qt dict) = .ok t →
      t.totalSize = 0 ∧ t.files = [] := by
    intro t ht
    unfold loadAnnounce at ht
    split at ht
    · cases ht
      exact hcomment
    · simp only [bind, Except.bind, pure, Except.pure] at ht
      split at ht
      · cases ht
      · cases ht
        unfold loadTrackerURL
        split
        · exact hcomment
        · exact hcomment
  unfold loadHead at h
  simp only [bind, Except.bind, pure, Except.pure] at h
  split at h
  · cases h
  · rename_i t ht
    split at h
    · cases h
      exact hannounce _ ht
    · split at h
      · cases h
      · cases h
        exact hannounce t ht

end Tail

/-! ## The layout -/

section Layouts

variable {qt} {info dict : BDictNode} {lengths : List ℤ} {tor : Torrent}

theorem Sized.sizes_eq (h : Sized info lengths tor) : tor.sizes info = lengths.map toUint64 := by
  unfold sizes
  cases hlist : info.getList (ascii "files") with
  | some files =>
    rw [h.files files hlist]
    exact Layout.sizes_mkFiles _ _ _ _
  | none =>
    obtain ⟨-, n, rfl⟩ := h.single hlist
    rw [h.total, List.sum_singleton]
    rfl

/-- The lengths are stored as they are written when none of them is cut. -/
theorem map_toUint64 (h : ∀ n ∈ lengths, 0 ≤ n ∧ n < 2 ^ 64) :
    (lengths.map toUint64).map (fun s : ℕ => (s : ℤ)) = lengths := by
  rw [List.map_map]
  refine (List.map_congr_left fun n hn => ?_).trans (List.map_id lengths)
  obtain ⟨hnonneg, hlt⟩ := h n hn
  show (toUint64 n : ℤ) = n
  unfold toUint64
  omega

theorem cast_sum (ns : List ℕ) : ((ns.sum : ℕ) : ℤ) = (ns.map fun s : ℕ => (s : ℤ)).sum := by
  induction ns with
  | nil => rfl
  | cons n ns ih => rw [List.sum_cons, List.map_cons, List.sum_cons, Nat.cast_add, ih]

variable (qt tor) in
/-- **The layout is well formed exactly when the lengths fit**, once the safety check has passed. -/
theorem wellFormed_iff_fits (hcs : 0 < tor.chunkSize) (hsized : Sized info lengths tor)
    (hwritten : writtenLengths qt info = .ok lengths) (hcount : tor.hashPieces.length < 2 ^ 32)
    (hagree : u32 (chunksOf (toUint64 lengths.sum) tor.chunkSize) = u32 tor.hashPieces.length) :
    WellFormed qt info tor ↔ Fits lengths tor.chunkSize := by
  have hsizes := hsized.sizes_eq
  rw [u32_of_lt hcount] at hagree
  constructor
  · intro hwf
    have hlengths : lengths = (lengths.map toUint64).map (fun s : ℕ => (s : ℤ)) := by
      have heq := hwf.lengths
      rw [hwritten, hsizes] at heq
      exact Except.ok.inj heq
    have hsum : lengths.sum = toUint64 lengths.sum := by
      have htotal := hwf.total
      rw [hsized.total, hsizes] at htotal
      rw [htotal, cast_sum, ← hlengths]
    refine ⟨?_, ?_, ?_⟩
    · intro n hn
      rw [hlengths, List.mem_map] at hn
      obtain ⟨s, -, rfl⟩ := hn
      exact Int.natCast_nonneg s
    · have hlt := toUint64_lt lengths.sum
      omega
    · have hhashes := hwf.hashes
      rw [hsized.total] at hhashes
      rw [hsum, Int.toNat_natCast, ← hhashes]
      exact hcount
  · intro hfits
    have hnonneg : 0 ≤ lengths.sum := List.sum_nonneg hfits.nonneg
    have hlt := hfits.sum_lt
    have htotal : toUint64 lengths.sum = lengths.sum.toNat := by
      unfold toUint64
      omega
    have hlengths : (lengths.map toUint64).map (fun s : ℕ => (s : ℤ)) = lengths := by
      refine map_toUint64 fun n hn => ⟨hfits.nonneg n hn, ?_⟩
      exact (List.single_le_sum hfits.nonneg n hn).trans_lt hlt
    have hsum : (lengths.map toUint64).sum = lengths.sum.toNat := by
      have hcast := cast_sum (lengths.map toUint64)
      rw [hlengths] at hcast
      omega
    have hchunks := hfits.chunks_lt
    rw [htotal, u32_of_lt hchunks] at hagree
    have hdiv : lengths.sum.toNat / tor.chunkSize < 2 ^ 32 := by
      rw [chunksOf_eq hcs] at hchunks
      omega
    have hsmall : lengths.sum.toNat < 2 ^ 64 := by omega
    refine ⟨hcs, ?_, ?_, ?_, ?_, ?_⟩
    · rw [hsized.total, htotal, hagree]
    · rw [hsizes, hlengths, hwritten]
    · rw [hsized.total, hsizes, htotal, hsum]
    · cases hlist : info.getList (ascii "files") with
      | some files =>
        rw [hsized.files files hlist]
        apply Layout.chained_mkFiles
        rw [hsum, Nat.zero_add]
        exact hsmall
      | none =>
        rw [(hsized.single hlist).1]
        trivial
    · intro f hf _
      cases hlist : info.getList (ascii "files") with
      | some files =>
        rw [hsized.files files hlist] at hf
        refine (Layout.exact_mkFiles _ 0 0 ?_ ?_ f hf).1
        · rw [hsum, Nat.zero_add]
          exact hsmall
        · rw [hsum, Nat.zero_add]
          exact hdiv
      | none =>
        rw [(hsized.single hlist).1] at hf
        cases hf

end Layouts

/-! ## Dictionaries -/

section Dictionaries

variable {qt} {dict info : BDictNode} {lengths : List ℤ} {tor : Torrent} {pieceLength : ℤ}

/-- What `loadInfo` does when the sizes have been read, and what follows it. -/
def afterSizes (qt : Qt) (dict info : BDictNode) (tor : Torrent) : Except LoadError Torrent := do
  let hashPieces ← loadHash (← getter (info.getByteArrayView (ascii "pieces")))
  let name ← getter (info.getByteArrayView (ascii "name"))
  let tor ← checkChunks { tor with
    hashPieces := hashPieces
    unencodedName := name
    nameSuggestion := sanityzeName (qt.fromUtf8 name) }
  loadTail qt dict tor

variable (qt dict info) in
theorem loadInfo_tail (tor : Torrent) :
    (loadInfo qt info tor >>= loadTail qt dict) =
      getter (info.getInt64 (ascii "piece length")) >>= fun n =>
        loadSizes qt info { tor with chunkSize := toUint64 n } >>= afterSizes qt dict info := by
  unfold loadInfo afterSizes
  cases info.getInt64 (ascii "piece length") with
  | error e => rfl
  | ok n =>
    simp only [getter, Except.mapError, bind, Except.bind]
    cases loadSizes qt info { tor with chunkSize := toUint64 n } with
    | error e => rfl
    | ok sized =>
      dsimp only
      cases info.getByteArrayView (ascii "pieces") with
      | error e => rfl
      | ok pieces =>
        dsimp only
        cases loadHash pieces with
        | error e => rfl
        | ok hashes =>
          dsimp only
          cases info.getByteArrayView (ascii "name") with
          | error e => rfl
          | ok name => rfl

theorem endsWell_throws {r : Except LoadError Torrent} {e : LoadError} (hr : Throws r)
    (h : r = .error e) : EndsWell qt dict (.error e) := hr e h

section Named

variable {pieces name : List UInt8}

/-- With everything read and hashes of 20 bytes each, being sound is passing the safety check only
with lengths that fit. -/
theorem soundInfo_iff (hwritten : writtenLengths qt info = .ok lengths)
    (hpieces : info.getByteArrayView (ascii "pieces") = .ok pieces)
    (hname : info.getByteArrayView (ascii "name") = .ok name) (hdvd : 20 ∣ pieces.length)
    (hzero : toUint64 pieceLength ≠ 0) :
    SoundInfo qt dict info pieceLength ↔ ∀ tor', loadTail qt dict empty = .ok tor' →
      CountsAgree lengths (toUint64 pieceLength) pieces → Fits lengths (toUint64 pieceLength) := by
  constructor
  · intro h tor' htail
    exact h.fits _ _ _ tor' hwritten hpieces hname htail
  · intro h
    refine ⟨fun hc => absurd hc hzero, ?_, ?_⟩
    · intro _ pieces' _ hok
      rw [Except.ok.inj (hpieces.symm.trans hok)] at hdvd
      exact hdvd
    · intro lengths' pieces' _ tor' hwritten' hpieces' _ htail hcounts
      rw [← Except.ok.inj (hwritten.symm.trans hwritten')] at hcounts ⊢
      rw [← Except.ok.inj (hpieces.symm.trans hpieces')] at hcounts
      exact h tor' htail hcounts

/-- When the safety check has been passed. -/
theorem endsWell_tail (hinfo : dict.getDict (ascii "info") = some info)
    (hwritten : writtenLengths qt info = .ok lengths)
    (hpieces : info.getByteArrayView (ascii "pieces") = .ok pieces)
    (hname : info.getByteArrayView (ascii "name") = .ok name) (hdvd : 20 ∣ pieces.length)
    (hpos : 0 < tor.chunkSize) (hcs : tor.chunkSize = toUint64 pieceLength)
    (hsized : Sized info lengths tor) (hcount : tor.hashPieces.length < 2 ^ 32)
    (hagree : u32 (chunksOf (toUint64 lengths.sum) tor.chunkSize) = u32 tor.hashPieces.length)
    (hcounts : CountsAgree lengths (toUint64 pieceLength) pieces) :
    EndsWell qt dict (loadTail qt dict tor) ↔ SoundInfo qt dict info pieceLength := by
  rw [soundInfo_iff hwritten hpieces hname hdvd (by omega)]
  cases htail : loadTail qt dict tor with
  | error e =>
    refine iff_of_true (endsWell_throws (throws_loadTail qt dict _) htail) fun _ hempty => ?_
    obtain ⟨tor', htor'⟩ := loadTail_ok tor hempty
    cases htail.symm.trans htor'
  | ok final =>
    have hlayout := loadTail_sameLayout htail
    obtain ⟨empty', hempty⟩ := loadTail_ok empty htail
    have hfits := wellFormed_iff_fits qt tor hpos hsized hwritten hcount hagree
    rw [hcs] at hfits
    constructor
    · rintro ⟨info', hinfo', hwf⟩ _ _ _
      obtain rfl := Option.some.inj (hinfo.symm.trans hinfo')
      exact hfits.mp (hlayout.symm.wellFormed hwf)
    · intro hsound
      exact ⟨info, hinfo, hlayout.wellFormed (hfits.mpr (hsound empty' hempty hcounts))⟩

/-- When the hashes and the name have been read. -/
theorem endsWell_checkChunks (hinfo : dict.getDict (ascii "info") = some info)
    (hwritten : writtenLengths qt info = .ok lengths)
    (hpieces : info.getByteArrayView (ascii "pieces") = .ok pieces)
    (hname : info.getByteArrayView (ascii "name") = .ok name) (hdvd : 20 ∣ pieces.length)
    (hcs : tor.chunkSize = toUint64 pieceLength)
    (hsized : tor.chunkSize ≠ 0 → Sized info lengths tor)
    (hcount : tor.hashPieces.length = pieces.length / 20) (hshort : pieces.length < 2 ^ 32) :
    EndsWell qt dict (checkChunks tor >>= loadTail qt dict) ↔
      SoundInfo qt dict info pieceLength := by
  by_cases hzero : tor.chunkSize = 0
  · -- the end of `loadInfo` divides by zero
    have hcrash : checkChunks tor = .error .divisionByZero := by
      unfold checkChunks
      rw [if_pos hzero]
      rfl
    rw [hcrash]
    refine iff_of_false (fun h => by cases h) fun hsound => ?_
    exact (hsound.divides (hcs.symm.trans hzero)).2 _ _ _ hwritten hpieces hname
  have hpos : 0 < tor.chunkSize := Nat.pos_of_ne_zero hzero
  have hsized' := hsized hzero
  have hagree_iff : u32 (chunksOf tor.totalSize tor.chunkSize) = u32 tor.hashPieces.length ↔
      CountsAgree lengths (toUint64 pieceLength) pieces := by
    rw [CountsAgree, hsized'.total, hcount, hcs]
  have hcheck := checkChunks_eq tor hpos
  split at hcheck
  · rename_i hagree
    obtain ⟨lastChunkSize, hok⟩ := hcheck
    rw [hok]
    have hcounts := hagree_iff.mp hagree
    rw [hsized'.total] at hagree
    have hsized'' : Sized info lengths { tor with lastChunkSize := lastChunkSize } :=
      ⟨hsized'.total, hsized'.files, hsized'.single⟩
    exact endsWell_tail hinfo hwritten hpieces hname hdvd hpos hcs hsized''
      (show tor.hashPieces.length < 2 ^ 32 by omega) hagree hcounts
  · rename_i hdiffer
    rw [hcheck, soundInfo_iff hwritten hpieces hname hdvd (hcs ▸ hzero)]
    exact iff_of_true rfl fun _ _ hcounts => absurd (hagree_iff.mpr hcounts) hdiffer

end Named

/-- When the sizes have been read. -/
theorem endsWell_afterSizes (hinfo : dict.getDict (ascii "info") = some info)
    (hwritten : writtenLengths qt info = .ok lengths) (hmakes : tor.chunkSize = 0 → ¬ MakesFile qt info)
    (hcs : tor.chunkSize = toUint64 pieceLength) (hsized : tor.chunkSize ≠ 0 → Sized info lengths tor)
    (hshort : ∀ pieces, info.getByteArrayView (ascii "pieces") = .ok pieces → pieces.length < 2 ^ 32) :
    EndsWell qt dict (afterSizes qt dict info tor) ↔ SoundInfo qt dict info pieceLength := by
  unfold afterSizes
  cases hpieces : info.getByteArrayView (ascii "pieces") with
  | error e =>
    refine iff_of_true rfl ⟨fun hzero => ⟨hmakes (hcs.trans hzero), ?_⟩, ?_, ?_⟩
    · intro _ _ _ _ hok
      cases hpieces.symm.trans hok
    · intro _ _ _ hok
      cases hpieces.symm.trans hok
    · intro _ _ _ _ _ hok
      cases hpieces.symm.trans hok
  | ok pieces =>
    simp only [getter, Except.mapError, bind, Except.bind]
    by_cases hdvd : 20 ∣ pieces.length
    swap
    · rw [loadHash_outside pieces hdvd]
      refine iff_of_false (fun h => by cases h) fun hsound => ?_
      exact hdvd (hsound.pieces _ _ hwritten hpieces)
    obtain ⟨hashes, hload, hcount⟩ := loadHash_ok pieces hdvd
    rw [hload]
    dsimp only
    cases hname : info.getByteArrayView (ascii "name") with
    | error e =>
      refine iff_of_true rfl ⟨fun hzero => ⟨hmakes (hcs.trans hzero), ?_⟩, ?_, ?_⟩
      · intro _ _ _ _ _ hok
        cases hname.symm.trans hok
      · intro _ pieces' _ hok
        rw [Except.ok.inj (hpieces.symm.trans hok)] at hdvd
        exact hdvd
      · intro _ _ _ _ _ _ hok
        cases hname.symm.trans hok
    | ok name =>
      have hnamed : tor.chunkSize ≠ 0 → Sized info lengths { tor with
          hashPieces := hashes
          unencodedName := name
          nameSuggestion := sanityzeName (qt.fromUtf8 name) } := fun hzero =>
        ⟨(hsized hzero).total, (hsized hzero).files, (hsized hzero).single⟩
      exact endsWell_checkChunks hinfo hwritten hpieces hname hdvd hcs hnamed hcount
        (hshort pieces hpieces)

/-- When the sizes cannot be read. -/
theorem soundInfo_of_error {e : LoadError} (hwritten : writtenLengths qt info = .error e)
    (hmakes : toUint64 pieceLength = 0 → ¬ MakesFile qt info) :
    SoundInfo qt dict info pieceLength := by
  refine ⟨fun hzero => ⟨hmakes hzero, ?_⟩, ?_, ?_⟩
  · intro _ _ _ hok
    cases hwritten.symm.trans hok
  · intro _ _ hok
    cases hwritten.symm.trans hok
  · intro _ _ _ _ hok
    cases hwritten.symm.trans hok

/-- **A dictionary ends well exactly when it is sound.** -/
theorem loadDict_endsWell_iff
    (hshort : ∀ info pieces, dict.getDict (ascii "info") = some info →
      info.getByteArrayView (ascii "pieces") = .ok pieces → pieces.length < 2 ^ 32) :
    EndsWell qt dict (loadDict qt dict) ↔ Sound qt dict := by
  unfold loadDict
  cases hhead : loadHead qt dict with
  | error e =>
    refine iff_of_true (endsWell_throws (throws_loadHead qt dict) hhead) ?_
    intro _ _ _ hok
    cases hhead.symm.trans hok
  | ok head =>
    obtain ⟨htotal, hfiles⟩ := loadHead_empty hhead
    cases hinfo : dict.getDict (ascii "info") with
    | none =>
      refine iff_of_true rfl ?_
      intro _ _ _ _ hsome
      cases hinfo.symm.trans hsome
    | some info =>
      have hunfold : (Except.ok head >>= fun tor => loadInfo qt info tor >>= loadTail qt dict) = _ :=
        loadInfo_tail qt dict info head
      show EndsWell qt dict (Except.ok head >>= fun tor => loadInfo qt info tor >>= loadTail qt dict) ↔ _
      rw [hunfold]
      cases hlength : info.getInt64 (ascii "piece length") with
      | error e =>
        refine iff_of_true rfl ?_
        intro _ info' _ _ hsome hok
        obtain rfl := Option.some.inj (hinfo.symm.trans hsome)
        cases hlength.symm.trans hok
      | ok pieceLength =>
        have hsound : Sound qt dict ↔ SoundInfo qt dict info pieceLength := by
          constructor
          · exact fun h => h head info pieceLength hhead hinfo hlength
          · intro h _ info' _ _ hsome hok
            obtain rfl := Option.some.inj (hinfo.symm.trans hsome)
            rw [← Except.ok.inj (hlength.symm.trans hok)]
            exact h
        rw [hsound]
        simp only [getter, Except.mapError, bind, Except.bind]
        have hinfoShort := fun pieces => hshort info pieces hinfo
        by_cases hzero : toUint64 pieceLength = 0
        · rcases loadSizes_zero qt { head with chunkSize := toUint64 pieceLength } info hzero with
            ⟨e, hwritten, hload, hmakes⟩ | ⟨hmakes, hload⟩ | ⟨lengths, sized, hwritten, hload, hcs, hmakes⟩
          · rw [hload]
            exact iff_of_true (throws_writtenLengths info e hwritten)
              (soundInfo_of_error hwritten fun _ => hmakes)
          · rw [hload]
            exact iff_of_false (fun h => by cases h) fun h => (h.divides hzero).1 hmakes
          · rw [hload]
            exact endsWell_afterSizes hinfo hwritten (fun _ => hmakes) (hcs.trans hzero.symm)
              (fun h => absurd hcs h) hinfoShort
        · rcases loadSizes_cases qt { head with chunkSize := toUint64 pieceLength } info hzero htotal
            hfiles with
            ⟨e, hwritten, hload⟩ | ⟨lengths, sized, hwritten, hload, hcs, hsized⟩
          · rw [hload]
            exact iff_of_true (throws_writtenLengths info e hwritten)
              (soundInfo_of_error hwritten fun h => absurd h hzero)
          · rw [hload]
            exact endsWell_afterSizes hinfo hwritten (fun h => absurd (hcs.symm.trans h) hzero) hcs
              (fun _ => hsized) hinfoShort

end Dictionaries

/-! ## Whole files -/

theorem decodeDict_short {data : List UInt8} {fuel : ℕ} {dict info : BDictNode} {pieces : List UInt8}
    (hdict : BDecoder.decodeDict data fuel = .ok (some dict))
    (hinfo : dict.getDict (ascii "info") = some info)
    (hpieces : info.getByteArrayView (ascii "pieces") = .ok pieces) : pieces.length < 2 ^ 32 := by
  have hshort := BDecoder.decode_short data fuel 0
  unfold BDecoder.decodeDict at hdict
  cases hdec : BDecoder.decode data fuel 0 with
  | error e =>
    rw [hdec] at hdict
    cases hdict
  | ok r =>
    rw [hdec] at hdict hshort
    obtain ⟨node, pos⟩ := r
    cases node with
    | none => cases hdict
    | some node =>
      cases node with
      | value v bytes => cases hdict
      | list children bytes => cases hdict
      | dict children bytes =>
        cases hdict
        have hlt := BDictNode.getByteArrayView_short (BDictNode.getDict_short hshort hinfo) hpieces
        omega

/-- In data of less than 2 GiB the decoder throws or finds a tree. -/
theorem decodeDict_thrown {data : List UInt8} (hdata : data.length < 2 ^ 31) {fuel : ℕ}
    (hfuel : data.length < fuel) {e : DecodeError} (h : BDecoder.decodeDict data fuel = .error e) :
    e.thrown = true := by
  unfold BDecoder.decodeDict at h
  cases hdec : BDecoder.decode data fuel 0 with
  | ok r =>
    rw [hdec] at h
    cases h
  | error e' =>
    rw [hdec] at h
    cases h
    rcases Nat.eq_zero_or_pos (BDecoder.size data) with hzero | hpos
    · rw [BDecoder.decode_atEnd (by omega) hzero.le] at hdec
      cases hdec
    · have hfuel' : BDecoder.size data - 0 < fuel := by
        rw [BDecoder.size_eq hdata]
        omega
      have hprogress := BDecoder.decode_progress hdata fuel 0 hpos hfuel'
      rw [hdec] at hprogress
      exact hprogress

theorem load_dict {data : List UInt8} {fuel : ℕ} {dict : BDictNode}
    (h : BDecoder.decodeDict data fuel = .ok (some dict)) : load qt data fuel = loadDict qt dict := by
  unfold load
  rw [h]
  rfl

/-- **Loading a torrent.**  For every data the torrent is rejected or its layout is well
formed, exactly when the decoder stays inside the data and what it finds is sound.  In data
of less than 2 GiB the decoder does. -/
theorem loadsWell_iff (data : List UInt8) :
    (LoadsWell qt data ↔ SoundData qt data) ∧
      (data.length < 2 ^ 31 → ∃ enough, ∀ fuel ≥ enough, ∀ e,
        BDecoder.decodeDict data fuel = .error e → e.thrown = true) := by
  constructor
  · unfold LoadsWell SoundData
    refine exists_congr fun enough => forall_congr' fun fuel => forall_congr' fun _ => ?_
    cases hdict : BDecoder.decodeDict data fuel with
    | error e =>
      unfold load
      rw [hdict]
      exact Iff.rfl
    | ok found =>
      cases found with
      | none =>
        unfold load
        rw [hdict]
        exact iff_of_true rfl trivial
      | some dict =>
        refine Iff.trans ?_ (loadDict_endsWell_iff fun info pieces => decodeDict_short hdict)
        rw [load_dict qt hdict]
        cases loadDict qt dict with
        | error e => exact Iff.rfl
        | ok tor =>
          constructor
          · rintro ⟨dict', hdict', hends⟩
            cases hdict'
            exact hends
          · exact fun hends => ⟨dict, rfl, hends⟩
  · exact fun hdata => ⟨data.length + 1, fun fuel hfuel e => decodeDict_thrown hdata hfuel⟩

/-! ### Short keys -/

theorem infoKey_short : (ascii "info").length < 2 ^ 31 := by decide

theorem lengthKey_short : (ascii "length").length < 2 ^ 31 := by decide

theorem nameKey_short : (ascii "name").length < 2 ^ 31 := by decide

theorem name_short : (ascii "a").length < 2 ^ 31 := by decide

theorem pieceLengthKey_short : (ascii "piece length").length < 2 ^ 31 := by decide

theorem piecesKey_short : (ascii "pieces").length < 2 ^ 31 := by decide

theorem int_pos : 0 < 2 ^ 63 := by decide

/-- The info dictionary of a single empty file, with a piece length of zero. -/
def zeroInfo : List (BString × BTree) :=
  [(⟨ascii "length", lengthKey_short⟩, .int ⟨0, int_pos⟩),
    (⟨ascii "name", nameKey_short⟩, .string ⟨ascii "a", name_short⟩),
    (⟨ascii "piece length", pieceLengthKey_short⟩, .int ⟨0, int_pos⟩),
    (⟨ascii "pieces", piecesKey_short⟩, .string ⟨[], by decide⟩)]

/-- A torrent of it. -/
def zeroPieceLength : List (BString × BTree) := [(⟨ascii "info", infoKey_short⟩, .dict zeroInfo)]

/-- **A piece length of zero ends in a division by zero**, whatever the library makes of texts. -/
theorem zero_pieceLength_crashes :
    ¬ ∃ qt : Qt, LoadsWell qt (BTree.dict zeroPieceLength).emitted := by
  have hread : (BTree.dict zeroPieceLength).ReadsBack [] := by
    rw [BTree.readsBack_iff]
    decide +kernel
  obtain ⟨node, enough, hequals, hdec⟩ := hread
  rintro ⟨qt, enough', h⟩
  specialize h (max enough enough') (le_max_right _ _)
  specialize hdec (max enough enough') (le_max_left _ _)
  rw [List.append_nil] at hdec
  match node, hequals with
  | .dict dict bytes, hequals =>
    have hentries : BTree.EqualsEntries zeroPieceLength dict := hequals
    have hdict : BDecoder.decodeDict (BTree.dict zeroPieceLength).emitted (max enough enough') =
        .ok (some dict) := by
      unfold BDecoder.decodeDict
      rw [hdec]
      rfl
    -- the dictionary is used without any check of the piece length
    have hends : EndsWell qt dict (loadDict qt dict) := by
      rw [load_dict qt hdict] at h
      cases hresult : loadDict qt dict with
      | error e =>
        rw [hresult] at h
        exact h
      | ok tor =>
        rw [hresult] at h
        obtain ⟨dict', hdict', hends⟩ := h
        obtain rfl := Option.some.inj (Except.ok.inj (hdict.symm.trans hdict'))
        exact hends
    rw [loadDict_endsWell_iff fun info pieces => decodeDict_short hdict] at hends
    obtain ⟨info, hinfo, hinner⟩ := hentries.getDict (ascii "info") rfl
    have hhead : ∃ head, loadHead qt dict = .ok head := by
      have hannounce := hentries.getData_none (ascii "announce") rfl
      have hnodes := hentries.getData_none (ascii "nodes") rfl
      unfold loadHead loadAnnounce BDictNode.getValue BDictNode.getList
      rw [hannounce, hnodes]
      exact ⟨_, rfl⟩
    obtain ⟨head, hhead⟩ := hhead
    have hsound := hends head info _ hhead hinfo (hinner.getInt64 (ascii "piece length") rfl)
    have hlengths : writtenLengths qt info = .ok [0] := by
      have hfiles := hinner.getData_none (ascii "files") rfl
      unfold writtenLengths BDictNode.getList
      rw [hfiles, Option.bind_none, hinner.getInt64 (ascii "length") rfl]
      rfl
    exact (hsound.divides (by decide)).2 _ _ _ hlengths
      (hinner.getByteArrayView (ascii "pieces") rfl)
      (hinner.getByteArrayView (ascii "name") rfl)

end Torrent
end KTorrent
