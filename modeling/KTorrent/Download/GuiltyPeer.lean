import KTorrent.Download.BytesLaw
import KTorrent.Download.Restart

/-!
# Who sent a chunk

A chunk download notes the senders of the pieces that it accepts; pieces of an earlier session
count as sent by nobody.  When the hash of a complete chunk is wrong, `Downloader::finished` bans
the sender, if there is only one.

* `Attributed` — a session, with the pieces it accepted and those it was loaded with.
* `pieceProviders_piece` — only an accepted piece adds a sender.
* `Attributed.Fair` — the invariant: the set has the senders, and nobody for loaded pieces.
* `allStates_blamesSender` — the only sender is found, and whoever is banned sent every piece.
-/

namespace KTorrent

open Runs

/-! ## Sessions with their senders -/

/-- A session, the pieces that it accepted and those that it was loaded with. -/
structure Attributed (PD M : Type) extends Session PD M where
  /-- The pieces that were accepted, as they arrived. -/
  sent : List (Piece PD)
  /-- The pieces of an earlier session. -/
  loaded : ℕ → Bool

namespace Attributed

variable {PD M : Type}

/-- A new chunk download. -/
def new (index size : ℕ) (m : M) : Attributed PD M :=
  { Session.new index size m with sent := [], loaded := fun _ => false }

section

variable [DecidableEq PD]

/-- A chunk download that was loaded. -/
def ofTable (t : PieceTable) (m : M) : Attributed PD M where
  cd := { toPieceTable := t, toPeerTable := Downloader.loadedPeers t }
  mem := m
  accepted := []
  complete := false
  sent := []
  loaded := t.pieces

/-- One call. -/
def step (cache : PieceCache M) (s : Attributed PD M) (e : CdEvent PD) : Attributed PD M :=
  { s.toSession.step cache e with
    sent := match e with
      | .piece p room => if (s.cd.piece cache p room s.mem).1.ok then s.sent ++ [p] else s.sent
      | _ => s.sent
    loaded := s.loaded }

/-- Where a session starts: with a new chunk download, or with one that `load` reads from what
`save` wrote for the chunk in an earlier session. -/
inductive Starts (cache : PieceCache M) (index size : ℕ) : Attributed PD M → Prop where
  | new (m : M) : Starts cache index size (.new index size m)
  | loaded {M₀ : Type} (cache₀ : PieceCache M₀) (t₀ : PieceTable) (m₀ : M₀) (rest : List UInt8)
      {hdr : ChunkDownloadHeader} {file file' : List UInt8} {m m' : M} {t : PieceTable}
      (hindex : t₀.index < 2 ^ 32) (hnum : t₀.num < 2 ^ 32)
      (hread : ChunkDownloadHeader.read (t₀.save cache₀ m₀ ++ rest) = some (hdr, file))
      (hload : (PieceTable.new index size).load cache hdr.numBits file m = (true, file', t, m')) :
      Starts cache index size (.ofTable t m')

end

/-- Every piece of the chunk that was accepted came from `pd`, at least one was accepted, and none
was loaded. -/
structure OnlyFrom (pd : PD) (s : Attributed PD M) : Prop where
  some : s.sent ≠ []
  all : ∀ p ∈ s.sent, p.pd = pd
  noneLoaded : ∀ i, s.loaded i = false

/-- The whole chunk came from `pd`: every piece was accepted from it, in its full length. -/
def WholeFrom (pd : PD) (s : Attributed PD M) : Prop :=
  ∀ i < s.cd.num, ∃ p ∈ s.sent, p.pd = pd ∧ p.offset / maxPieceLen = i ∧
    p.data.length = s.cd.pieceLen i

/-- The peer that `Downloader::finished` bans; `findPeer` is that of the peer manager. -/
def banned {Peer : Type} (findPeer : PD → Option Peer) (hashOk : Bool) (s : Attributed PD M) :
    Option Peer :=
  if hashOk then none else s.cd.getOnlyDownloader.bind findPeer

/-- The only sender is found, and a peer that is banned for a complete chunk sent the whole chunk. -/
structure BlamesSender (s : Attributed PD M) : Prop where
  only : ∀ pd, s.cd.getOnlyDownloader = some pd ↔ s.OnlyFrom pd
  whole : s.complete = true → ∀ {Peer : Type} (findPeer : PD → Option Peer) (hashOk : Bool)
    (peer : Peer), s.banned findPeer hashOk = some peer →
      ∃ pd, findPeer pd = some peer ∧ s.WholeFrom pd

end Attributed

/-! ## The senders -/

namespace PeerTable

variable {PD : Type} [DecidableEq PD] {t : PieceTable} {w w' : PeerTable PD} {pd : PD}

omit [DecidableEq PD] in
@[simp] theorem pieceProviders_call (w : PeerTable PD) (c : PdCall PD) :
    (w.call c).pieceProviders = w.pieceProviders := rfl

@[simp] theorem pieceProviders_modifyStatus (w : PeerTable PD) (pd : PD)
    (f : DownloadStatus → DownloadStatus) :
    (w.modifyStatus pd f).pieceProviders = w.pieceProviders := rfl

@[simp] theorem pieceProviders_eraseStatus (w : PeerTable PD) (pd : PD) :
    (w.eraseStatus pd).pieceProviders = w.pieceProviders := rfl

omit [DecidableEq PD] in
/-- A loop that adds no sender in any round adds none. -/
theorem pieceProviders_foldl {α : Type*} {f : PeerTable PD → α → PeerTable PD}
    (hf : ∀ w a, (f w a).pieceProviders = w.pieceProviders) (l : List α) :
    ∀ w, (l.foldl f w).pieceProviders = w.pieceProviders := by
  induction l with
  | nil => exact fun w => rfl
  | cons a l ih => exact fun w => (ih (f w a)).trans (hf w a)

@[simp] theorem pieceProviders_sendCancels (t : PieceTable) (w : PeerTable PD) (pd : PD) :
    (sendCancels t w pd).pieceProviders = w.pieceProviders := by
  rw [sendCancels]
  split
  · rfl
  · exact pieceProviders_foldl (fun w i => pieceProviders_call w _) _ w

@[simp] theorem pieceProviders_killed (w : PeerTable PD) (pd : PD) :
    (w.killed pd).pieceProviders = w.pieceProviders := by
  rw [killed]
  split <;> rfl

@[simp] theorem pieceProviders_release (t : PieceTable) (w : PeerTable PD) (pd : PD) :
    (release t w pd).pieceProviders = w.pieceProviders := by
  rw [release]
  split <;> simp

@[simp] theorem pieceProviders_releaseAllPDs (t : PieceTable) (w : PeerTable PD) :
    (releaseAllPDs t w).pieceProviders = w.pieceProviders :=
  pieceProviders_foldl (fun w pd => by simp) w.pdown w

@[simp] theorem pieceProviders_cancelAll (t : PieceTable) (w : PeerTable PD) :
    (cancelAll t w).pieceProviders = w.pieceProviders :=
  pieceProviders_foldl (pieceProviders_sendCancels t) w.pdown w

theorem pieceProviders_sendRequest (h : sendRequest t w pd = some w') :
    w'.pieceProviders = w.pieceProviders := by
  rw [sendRequest] at h
  split at h
  · cases h
  · dsimp only at h
    split at h
    · cases h
    · obtain rfl := Option.some.inj h
      split <;> simp

theorem pieceProviders_sendRound (t : PieceTable) : ∀ (pds : List PD) (w : PeerTable PD)
    (room : PD → ℕ), (sendRound t pds w room).2.1.pieceProviders = w.pieceProviders := by
  intro pds
  induction pds with
  | nil => exact fun w room => rfl
  | cons pd pds ih =>
    intro w room
    rw [sendRound]
    split
    · exact ih w room
    next w' hsent =>
      split at hsent
      · exact (ih w' _).trans (pieceProviders_sendRequest hsent)
      · cases hsent

theorem pieceProviders_sendRounds (t : PieceTable) : ∀ (fuel : ℕ) (pds : List PD)
    (w : PeerTable PD) (room : PD → ℕ),
    (sendRounds t fuel pds w room).pieceProviders = w.pieceProviders := by
  intro fuel
  induction fuel with
  | zero => exact fun pds w room => rfl
  | succ fuel ih =>
    intro pds w room
    cases pds with
    | nil => rfl
    | cons pd pds => exact (ih ..).trans (pieceProviders_sendRound t (pd :: pds) w room)

@[simp] theorem pieceProviders_sendRequests (t : PieceTable) (w : PeerTable PD) (room : PD → ℕ) :
    (sendRequests t w room).pieceProviders = w.pieceProviders :=
  pieceProviders_sendRounds ..

@[simp] theorem pieceProviders_assign (t : PieceTable) (w : PeerTable PD) (pd : PD)
    (room : PD → ℕ) : (assign t w pd room).2.pieceProviders = w.pieceProviders := by
  rw [assign]
  split <;> simp

@[simp] theorem pieceProviders_dropPD (t : PieceTable) (w : PeerTable PD) (pd : PD) :
    (dropPD t w pd).pieceProviders = w.pieceProviders := by
  simp [dropPD]

@[simp] theorem pieceProviders_notDownloaded (t : PieceTable) (w : PeerTable PD) (r : Request PD)
    (pd : PD) (reject : Bool) (room : PD → ℕ) :
    (notDownloaded t w r pd reject room).pieceProviders = w.pieceProviders := by
  rw [notDownloaded]
  split
  · simp
  · dsimp only
    split
    · simp
    · split <;> simp

@[simp] theorem pieceProviders_onNotDownloaded (t : PieceTable) (w : PeerTable PD) (r : Request PD)
    (pd : PD) (reject : Bool) (room : PD → ℕ) :
    (onNotDownloaded t w r pd reject room).pieceProviders = w.pieceProviders := by
  rw [onNotDownloaded]
  split <;> simp

@[simp] theorem pieceProviders_endgameCancel (w : PeerTable PD) (p : Piece PD) :
    (endgameCancel w p).pieceProviders = w.pieceProviders := by
  refine pieceProviders_foldl (fun w pd => ?_) w.pdown w
  split
  · rfl
  · split <;> rfl

/-- `insert` of a set: the elements, each of them once. -/
theorem pieceProviders_addProvider (w : PeerTable PD) (pd : Option PD) :
    (∀ q, q ∈ (w.addProvider pd).pieceProviders ↔ q ∈ w.pieceProviders ∨ q = pd) ∧
      (w.pieceProviders.Nodup → (w.addProvider pd).pieceProviders.Nodup) := by
  rw [addProvider]
  split
  next hmem => exact ⟨fun q => ⟨Or.inl, fun h => h.elim id fun heq => heq ▸ hmem⟩, id⟩
  next hnew =>
    refine ⟨fun q => by simp, fun hnodup => ?_⟩
    exact List.nodup_append.mpr ⟨hnodup, List.nodup_singleton _, fun q hq q' hq' heq =>
      hnew (List.mem_singleton.mp hq' ▸ heq ▸ hq)⟩

omit [DecidableEq PD] in
/-- The only sender, of a set. -/
theorem getOnlyDownloader_eq_some (h : w.pieceProviders.Nodup) :
    w.getOnlyDownloader = some pd ↔ some pd ∈ w.pieceProviders ∧
      ∀ q ∈ w.pieceProviders, q = some pd := by
  rw [getOnlyDownloader]
  constructor
  · intro honly
    split at honly
    next q heq => rw [heq, honly]; simp
    next => cases honly
  · rintro ⟨hmem, hall⟩
    have heq : w.pieceProviders = [some pd] := by
      cases hproviders : w.pieceProviders with
      | nil => rw [hproviders] at hmem; exact absurd hmem List.not_mem_nil
      | cons q rest =>
        rw [hproviders] at h hall
        have hrest : rest = [] := by
          refine List.eq_nil_iff_forall_not_mem.mpr fun q' hq' => ?_
          have hsame : q' = q := (hall q' (List.mem_cons_of_mem q hq')).trans
            (hall q List.mem_cons_self).symm
          exact (List.nodup_cons.mp h).1 (hsame ▸ hq')
        rw [hrest, hall q List.mem_cons_self]
    rw [heq]

end PeerTable

namespace ChunkDownload

variable {PD M : Type} [DecidableEq PD]

/-- **Only an accepted piece adds a sender.** -/
theorem pieceProviders_piece (cache : PieceCache M) (p : Piece PD) (room : PD → ℕ)
    (cd : ChunkDownload PD) (m : M) :
    ((cd.piece cache p room m).1.ok = false →
        (cd.piece cache p room m).2.1.pieceProviders = cd.pieceProviders) ∧
      ((cd.piece cache p room m).1.ok = true → (cd.piece cache p room m).2.1.pieceProviders =
        (cd.toPeerTable.addProvider (some p.pd)).pieceProviders) := by
  obtain ⟨w, hw⟩ : ∃ w, w = cd.toPeerTable.modifyStatus p.pd (·.remove (p.offset / maxPieceLen)) :=
    ⟨_, rfl⟩
  have hsame : w.pieceProviders = cd.pieceProviders := hw ▸ rfl
  have hadd : (w.addProvider (some p.pd)).pieceProviders =
      (cd.toPeerTable.addProvider (some p.pd)).pieceProviders := by
    rw [PeerTable.addProvider, PeerTable.addProvider, hsame]
    split <;> simp [hsame]
  have hrefused : (w.sendRequests cd.toPieceTable room).pieceProviders = cd.pieceProviders :=
    (PeerTable.pieceProviders_sendRequests ..).trans hsame
  have hcancel : (if (w.addProvider (some p.pd)).pdown.length > 1 then
      (w.addProvider (some p.pd)).endgameCancel p else w.addProvider (some p.pd)).pieceProviders =
        (cd.toPeerTable.addProvider (some p.pd)).pieceProviders := by
    split
    · exact (PeerTable.pieceProviders_endgameCancel ..).trans hadd
    · exact hadd
  rw [piece]
  split
  · exact ⟨fun _ => rfl, fun h => Bool.noConfusion h⟩
  · dsimp only
    rw [← hw]
    rcases cache.getPiece m p.offset p.data.length false with ⟨_ | r, m₁⟩
    · exact ⟨fun _ => hrefused, fun h => Bool.noConfusion h⟩
    · dsimp only
      rcases cache.write m₁ r p.data with ⟨_ | _, m₂⟩
      · exact ⟨fun _ => hrefused, fun h => Bool.noConfusion h⟩
      · dsimp only
        split
        · exact ⟨fun h => Bool.noConfusion h, fun _ =>
            (PeerTable.pieceProviders_releaseAllPDs ..).trans hcancel⟩
        · exact ⟨fun h => Bool.noConfusion h, fun _ =>
            (PeerTable.pieceProviders_sendRequests ..).trans hcancel⟩

/-- What a call of `piece` does to the table, by what it returns. -/
theorem piece_table (cache : PieceCache M) (p : Piece PD) (room : PD → ℕ) (cd : ChunkDownload PD)
    (m : M) :
    (cd.piece cache p room m).1.ok = false ∧ (cd.piece cache p room m).1.complete = false ∧
        (cd.piece cache p room m).2.1.toPieceTable = cd.toPieceTable ∨
      (cd.piece cache p room m).1.ok = true ∧ cd.accepts p = true ∧
        ((cd.piece cache p room m).1.complete = true → cd.num ≤ cd.numDownloaded + 1) ∧
          ∃ pieceData hashed k, (cd.piece cache p room m).2.1.toPieceTable =
            { cd.toPieceTable with
              pieces := Function.update cd.pieces (p.offset / maxPieceLen) true
              numDownloaded := cd.numDownloaded + 1
              pieceData := pieceData
              hashed := hashed
              numPiecesInHash := k } := by
  by_cases hstored : cd.accepts p = true ∧ cache.stores p m = true
  · obtain ⟨hout, htable⟩ := piece_stored hstored.1 hstored.2 room
    refine Or.inr ⟨by rw [hout], hstored.1, fun hc => ?_, htable⟩
    rw [hout] at hc
    exact of_decide_eq_true hc
  · obtain ⟨hout, htable⟩ := piece_refused hstored room
    exact Or.inl ⟨by rw [hout], by rw [hout], htable⟩

end ChunkDownload

/-! ## The invariant -/

namespace Attributed

variable {PD M : Type} {cache : PieceCache M} {index size : ℕ}

/-- A piece of the chunk came with its sender. -/
def SentPiece (s : Attributed PD M) (i : ℕ) : Prop := ∃ p ∈ s.sent, p.offset / maxPieceLen = i

/-- **The invariant.**  The pieces that are there were loaded or sent, and the set of senders has
those who sent one, and nobody for those that were loaded. -/
structure Fair (s : Attributed PD M) : Prop where
  pieces : ∀ i, s.cd.pieces i = true ↔ s.loaded i = true ∨ s.SentPiece i
  count : s.cd.numDownloaded = (List.range s.cd.num).countP s.cd.pieces
  fits : ∀ p ∈ s.sent, p.data.length = s.cd.pieceLen (p.offset / maxPieceLen)
  nodup : s.cd.pieceProviders.Nodup
  senders : ∀ pd, some pd ∈ s.cd.pieceProviders ↔ ∃ p ∈ s.sent, p.pd = pd
  nobody : none ∈ s.cd.pieceProviders ↔ ∃ i, s.loaded i = true
  complete : s.complete = true → s.cd.num ≤ s.cd.numDownloaded

variable {s : Attributed PD M}

theorem Fair.getOnlyDownloader_iff (h : s.Fair) (pd : PD) :
    s.cd.getOnlyDownloader = some pd ↔ s.OnlyFrom pd := by
  rw [PeerTable.getOnlyDownloader_eq_some h.nodup]
  constructor
  · rintro ⟨hmem, hall⟩
    obtain ⟨p, hp, -⟩ := (h.senders pd).mp hmem
    refine ⟨List.ne_nil_of_mem hp, fun p hp => ?_, fun i => ?_⟩
    · exact Option.some.inj (hall _ ((h.senders p.pd).mpr ⟨p, hp, rfl⟩))
    · refine Bool.eq_false_iff.mpr fun hi => ?_
      exact absurd (hall none (h.nobody.mpr ⟨i, hi⟩)) (Option.some_ne_none pd).symm
  · rintro ⟨hsome, hall, hnone⟩
    obtain ⟨p, hp⟩ := List.exists_mem_of_ne_nil _ hsome
    refine ⟨(h.senders pd).mpr ⟨p, hp, hall p hp⟩, fun q hq => ?_⟩
    cases q with
    | none =>
      obtain ⟨i, hi⟩ := h.nobody.mp hq
      exact absurd hi (by rw [hnone i]; exact Bool.false_ne_true)
    | some q =>
      obtain ⟨p, hp, rfl⟩ := (h.senders q).mp hq
      rw [hall p hp]

/-- A complete chunk from one sender came from it as a whole. -/
theorem Fair.wholeFrom (h : s.Fair) (hcomplete : s.complete = true) {pd : PD}
    (honly : s.OnlyFrom pd) : s.WholeFrom pd := by
  have hnum := h.complete hcomplete
  rw [h.count] at hnum
  intro i hi
  have hthere := countP_eq_iff.mp hnum i hi
  rcases (h.pieces i).mp hthere with hloaded | ⟨p, hp, rfl⟩
  · rw [honly.noneLoaded i] at hloaded
    cases hloaded
  · exact ⟨p, hp, honly.all p hp, rfl, h.fits p hp⟩

theorem Fair.blamesSender (h : s.Fair) : s.BlamesSender where
  only := h.getOnlyDownloader_iff
  whole := by
    intro hcomplete Peer findPeer hashOk peer hbanned
    rw [banned] at hbanned
    split at hbanned
    · cases hbanned
    · obtain ⟨pd, honly, hfind⟩ := Option.bind_eq_some_iff.mp hbanned
      exact ⟨pd, hfind, h.wholeFrom hcomplete ((h.getOnlyDownloader_iff pd).mp honly)⟩

/-! ## One call -/

/-- A call that changes the table of piece downloaders, but not the senders. -/
theorem Fair.withPeers (h : s.Fair) {w : PeerTable PD}
    (hw : w.pieceProviders = s.cd.pieceProviders) :
    ({ s with toSession := s.toSession.withPeers w } : Attributed PD M).Fair where
  pieces := h.pieces
  count := h.count
  fits := h.fits
  nodup := hw ▸ h.nodup
  senders := fun pd => by rw [← h.senders pd, ← hw]; rfl
  nobody := by rw [← h.nobody, ← hw]; rfl
  complete := fun hc => Bool.noConfusion hc

variable [DecidableEq PD]

theorem Fair.piece (h : s.Fair) (p : Piece PD) (room : PD → ℕ) :
    (s.step cache (.piece p room)).Fair := by
  obtain ⟨hsame, hadded⟩ := ChunkDownload.pieceProviders_piece cache p room s.cd s.mem
  obtain ⟨r, hr⟩ : ∃ r, r = s.cd.piece cache p room s.mem := ⟨_, rfl⟩
  have hstep : s.step cache (.piece p room) =
      { cd := r.2.1
        mem := r.2.2
        accepted := if r.1.ok then s.accepted ++ [p.offset / maxPieceLen] else s.accepted
        complete := r.1.complete
        sent := if r.1.ok then s.sent ++ [p] else s.sent
        loaded := s.loaded } := by
    rw [hr]
    rfl
  have htable := ChunkDownload.piece_table cache p room s.cd s.mem
  rw [← hr] at hsame hadded htable
  rw [hstep]
  rcases htable with ⟨hok, hcomplete, htable⟩ | ⟨hok, hacc, hcomplete, pieceData, hashed, k, htable⟩
  · have hproviders := hsame hok
    simp only [hok, Bool.false_eq_true, if_false]
    refine ⟨fun i => ?_, ?_, fun q hq => ?_, ?_, fun pd => ?_, ?_, fun hc => ?_⟩
    · dsimp only
      rw [htable]
      exact h.pieces i
    · dsimp only
      rw [htable]
      exact h.count
    · dsimp only
      rw [htable]
      exact h.fits q hq
    · dsimp only
      rw [hproviders]
      exact h.nodup
    · dsimp only
      rw [hproviders]
      exact h.senders pd
    · dsimp only
      rw [hproviders]
      exact h.nobody
    · rw [hcomplete] at hc
      exact Bool.noConfusion hc
  · have hproviders := hadded hok
    obtain ⟨hmem, hnodup⟩ := s.cd.toPeerTable.pieceProviders_addProvider (some p.pd)
    obtain ⟨hlt, hmissing, hlen⟩ := PieceTable.accepts_iff.mp hacc
    simp only [hok, if_true]
    refine ⟨fun i => ?_, ?_, fun q hq => ?_, ?_, fun pd => ?_, ?_, fun hc => ?_⟩
    · dsimp only [SentPiece]
      rw [htable]
      dsimp only
      by_cases hi : i = p.offset / maxPieceLen
      · subst hi
        simp
      · have hother := h.pieces i
        rw [SentPiece] at hother
        rw [Function.update_of_ne hi, hother]
        simp [Ne.symm hi]
    · dsimp only
      rw [htable, h.count]
      exact (countP_update hlt hmissing).symm
    · dsimp only at hq ⊢
      rw [htable]
      rcases List.mem_append.mp hq with hold | hnew
      · exact h.fits q hold
      · rw [List.mem_singleton.mp hnew]
        exact hlen
    · dsimp only
      rw [hproviders]
      exact hnodup h.nodup
    · dsimp only
      rw [hproviders, hmem, h.senders]
      simp [eq_comm]
    · dsimp only
      rw [hproviders, hmem, ← h.nobody]
      simp
    · dsimp only
      rw [htable]
      exact hcomplete hc

/-- **One call** keeps the invariant. -/
theorem Fair.step (h : s.Fair) (e : CdEvent PD) : (s.step cache e).Fair := by
  cases e with
  | piece p room => exact h.piece p room
  | assign pd room => exact h.withPeers (PeerTable.pieceProviders_assign ..)
  | release pd => exact h.withPeers (PeerTable.pieceProviders_release ..)
  | timedout r pd room => exact h.withPeers (PeerTable.pieceProviders_onNotDownloaded ..)
  | rejected r pd room => exact h.withPeers (PeerTable.pieceProviders_onNotDownloaded ..)
  | killed pd => exact h.withPeers (PeerTable.pieceProviders_killed ..)
  | update room => exact h.withPeers (PeerTable.pieceProviders_sendRequests ..)
  | cancelAll => exact h.withPeers (PeerTable.pieceProviders_cancelAll ..)
  | releaseAllPDs => exact h.withPeers (PeerTable.pieceProviders_releaseAllPDs ..)

/-! ## The start -/

omit [DecidableEq PD] in
theorem fair_new (index size : ℕ) (m : M) : (new index size m : Attributed PD M).Fair where
  pieces := fun i => ⟨fun h => Bool.noConfusion h, fun h => by simp [new, SentPiece] at h⟩
  count := (List.countP_eq_zero.mpr fun _ _ => Bool.false_ne_true).symm
  fits := fun _ hp => absurd hp List.not_mem_nil
  nodup := List.nodup_nil
  senders := fun pd => by simp [new, Session.new, ChunkDownload.new, PeerTable.new]
  nobody := by simp [new, Session.new, ChunkDownload.new, PeerTable.new]
  complete := fun hc => Bool.noConfusion hc

/-- A table whose pieces are counted. -/
theorem fair_ofTable {t : PieceTable} (m : M)
    (hcount : t.numDownloaded = (List.range t.num).countP t.pieces)
    (hlt : ∀ i, t.pieces i = true → i < t.num) : (ofTable t m : Attributed PD M).Fair := by
  have hsome : t.numDownloaded ≠ 0 ↔ ∃ i, t.pieces i = true := by
    rw [hcount, Ne, List.countP_eq_zero]
    push Not
    exact ⟨fun ⟨i, _, hi⟩ => ⟨i, hi⟩, fun ⟨i, hi⟩ => ⟨i, List.mem_range.mpr (hlt i hi), hi⟩⟩
  have hproviders : (Downloader.loadedPeers t : PeerTable PD).pieceProviders =
      if t.numDownloaded ≠ 0 then [none] else [] := by
    rw [Downloader.loadedPeers]
    split <;> rfl
  refine ⟨fun i => by simp [ofTable, SentPiece], hcount, fun _ hp => absurd hp List.not_mem_nil, ?_,
    fun pd => ?_, ?_, fun hc => Bool.noConfusion hc⟩
  · dsimp only [ofTable]
    rw [hproviders]
    split <;> simp
  · dsimp only [ofTable]
    rw [hproviders]
    split <;> simp
  · dsimp only [ofTable]
    rw [hproviders, ← hsome]
    split <;> simp_all

/-- What `load` makes of what `save` wrote. -/
theorem fair_loaded {M₀ : Type} (cache₀ : PieceCache M₀) (t₀ : PieceTable) (m₀ : M₀)
    (rest : List UInt8) {hdr : ChunkDownloadHeader} {file file' : List UInt8} {m m' : M}
    {t : PieceTable} (hindex : t₀.index < 2 ^ 32) (hnum : t₀.num < 2 ^ 32)
    (hread : ChunkDownloadHeader.read (t₀.save cache₀ m₀ ++ rest) = some (hdr, file))
    (hload : (PieceTable.new index size).load cache hdr.numBits file m = (true, file', t, m')) :
    (ofTable t m' : Attributed PD M).Fair := by
  rw [PieceTable.save, List.append_assoc, List.append_assoc, List.append_assoc,
    ChunkDownloadHeader.read_write hindex hnum (by decide)] at hread
  obtain ⟨rfl, rfl⟩ := Prod.mk.inj (Option.some.inj hread)
  have hsame : t₀.num = (PieceTable.new index size).num :=
    PieceTable.numBits_of_load cache (by rw [hload])
  obtain ⟨pieceData, hashed, k, htable⟩ :=
    PieceTable.load_table cache (PieceTable.new index size) t₀.num _ m
  rw [hload, if_pos hsame, PieceTable.loadBits_eq hnum] at htable
  obtain ⟨hbits, hget, hcounted, -⟩ := PieceTable.pieceBits_spec hnum
  have hpieces : t.pieces = t₀.pieceBits.get := congrArg PieceTable.pieces htable
  have hnum' : t.num = t₀.num := (congrArg PieceTable.num htable).trans hsame.symm
  refine fair_ofTable m' ?_ fun i hi => ?_
  · have hon : t.numDownloaded = t₀.pieceBits.numOn.toNat :=
      congrArg PieceTable.numDownloaded htable
    rw [hon, hcounted.1, BitSet.countOn, hpieces, hnum', hbits, UInt32.toNat_ofNat',
      Nat.mod_eq_of_lt hnum]
  · rw [hpieces, hget, Bool.and_eq_true] at hi
    rw [hnum']
    exact of_decide_eq_true hi.1

theorem Starts.fair (h : Starts cache index size s) : s.Fair := by
  cases h with
  | new m => exact fair_new index size m
  | loaded cache₀ t₀ m₀ rest hindex hnum hread hload =>
    exact fair_loaded cache₀ t₀ m₀ rest hindex hnum hread hload

end Attributed

/-- **Only the sender is banned.**  In every run that starts with a new chunk download or with one of
an earlier session, `getOnlyDownloader` finds a piece downloader exactly when every piece that was
accepted came from it, at least one was, and none was loaded; and the peer that is banned for a
complete chunk sent every piece of it. -/
theorem allStates_blamesSender {PD M : Type} [DecidableEq PD] {cache : PieceCache M}
    {index size : ℕ} {s : Attributed PD M} (hs : Attributed.Starts cache index size s)
    (es : List (CdEvent PD)) : AllStates (Attributed.step cache) Attributed.BlamesSender s es :=
  (allStates_of_step (fun _ e hfair => hfair.step e) es s hs.fair).mono fun _ hfair =>
    hfair.blamesSender

/-- A chunk of three pieces: peer 1 sends two, peer 2 one of these again and then the third. -/
def twoSenders : List (CdEvent ℕ) :=
  [pieceOf 1 2 7232, pieceOf 1 0 16384, pieceOf 2 0 16384, pieceOf 2 1 16384]

/-- The piece that was there does not make peer 2 a sender; its own one does, and nobody is the
only sender of the complete chunk. -/
theorem allStates_blamesSender_twoSenders :
    AllStates (Attributed.step ChunkCache.ops) Attributed.BlamesSender
        (Attributed.new 0 40000 (ChunkCache.empty false)) twoSenders ∧
      (run (Attributed.step ChunkCache.ops) (Attributed.new 0 40000 (ChunkCache.empty false))
        (twoSenders.take 3)).cd.getOnlyDownloader = some 1 ∧
      (run (Attributed.step ChunkCache.ops) (Attributed.new 0 40000 (ChunkCache.empty false))
        twoSenders).cd.getOnlyDownloader = none :=
  ⟨allStates_blamesSender (.new (ChunkCache.empty false)) _, by decide +kernel, by decide +kernel⟩

/-- **A chunk without a piece.**  Whatever was accepted came from everybody then, and nobody is
found. -/
theorem noPiece_nobody :
    ¬ ((Attributed.new 0 1 (.empty false) : Attributed ℕ ChunkCache).cd.getOnlyDownloader = some 5 ↔
      (∀ p ∈ (Attributed.new 0 1 (.empty false) : Attributed ℕ ChunkCache).sent, p.pd = 5) ∧
        ∀ i, (Attributed.new 0 1 (.empty false) : Attributed ℕ ChunkCache).loaded i = false) := by
  intro hiff
  have hfound := hiff.mpr ⟨fun _ hp => absurd hp List.not_mem_nil, fun _ => rfl⟩
  exact absurd hfound (by decide)

end KTorrent
