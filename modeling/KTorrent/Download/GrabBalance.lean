import KTorrent.Download.GrabCalls
import KTorrent.Lib.KeyedList
import KTorrent.Lib.Run

/-!
# Grabs and releases of a downloader

A piece downloader takes no more chunks when it has been grabbed too often, so its
counter has to be the number of chunks it is assigned to.

* `GrabsBalanced` — the law.
* `LetsGo` — the events that keep it: a chunk that a web seed delivers, and the
  chunks there are when the downloader is paused, are taken away without releasing
  their piece downloaders, so there may be none.
* `allStates_grabsBalanced_iff` — the law holds along a run exactly when all events
  are of this kind.
-/

namespace KTorrent

open Runs

variable {PD M : Type} [DecidableEq PD]

namespace Downloader

/-- The number of chunks that a piece downloader is assigned to. -/
def numAssigned (d : Downloader PD M) (pd : PD) : ℕ :=
  d.currentChunks.countP fun cd => pd ∈ cd.pdown

/-- Every piece downloader that is registered has been grabbed once for each chunk that it is
assigned to. -/
def GrabsBalanced (d : Downloader PD M) : Prop :=
  ∀ pd ∈ d.pieceDownloaders, d.grabbed pd = d.numAssigned pd

/-- What keeps the law: chunks that are taken away without being released have no piece
downloaders. -/
def LetsGo (d : Downloader PD M) : DownloaderEvent PD → Prop
  | .onChunkReady i hashOk => hashOk = true → ∀ cd ∈ d.currentChunks, cd.index = i → cd.pdown = []
  | .pause => ∀ cd ∈ d.currentChunks, cd.pdown = []
  | _ => True

/-! ## The invariant -/

/-- The law, for chunks that occur once and have piece downloaders that are registered. -/
structure GrabInv (d : Downloader PD M) : Prop where
  nodup : (d.currentChunks.map fun cd => cd.index).Nodup
  wellFormed : ∀ cd ∈ d.currentChunks, cd.toPeerTable.WellFormed
  registered : ∀ cd ∈ d.currentChunks, ∀ pd ∈ cd.pdown, pd ∈ d.pieceDownloaders
  balanced : d.GrabsBalanced

variable {d : Downloader PD M} {cd cd' : ChunkDownload PD} {i : ℕ}

omit [DecidableEq PD] in
theorem find_mem (h : d.find i = some cd) : cd ∈ d.currentChunks ∧ cd.index = i := by
  have hkey := List.find?_some h
  exact ⟨List.mem_of_find?_eq_some h, by simpa using hkey⟩

omit [DecidableEq PD] in
theorem index_ne_of_find (h : d.find i = none) : ∀ c ∈ d.currentChunks, c.index ≠ i := by
  intro c hc
  simpa using List.find?_eq_none.mp h c hc

theorem mem_replace {c : ChunkDownload PD} (hc : c ∈ (d.replace cd cd').currentChunks) :
    c ∈ d.currentChunks ∧ c.index ≠ cd.index ∨ c = cd' := by
  obtain ⟨c', hc', rfl⟩ := List.mem_map.mp hc
  split
  next => exact .inr rfl
  next hne => exact .inl ⟨hc', hne⟩

/-- Who is assigned has been grabbed. -/
theorem GrabInv.grabbed_pos (h : GrabInv d) (hcd : cd ∈ d.currentChunks) :
    ∀ pd ∈ cd.pdown, 0 < d.grabbed pd := by
  intro pd hpd
  rw [h.balanced pd (h.registered cd hcd pd hpd), numAssigned, List.countP_pos_iff]
  exact ⟨cd, hcd, decide_eq_true hpd⟩

/-- An operation on a chunk. -/
theorem GrabInv.replace (h : GrabInv d) (hcd : cd ∈ d.currentChunks) (hindex : cd'.index = cd.index)
    (he : PeerTable.Effect (· ∈ d.pieceDownloaders) cd.toPeerTable cd'.toPeerTable) :
    GrabInv (d.replace cd cd') := by
  refine ⟨?_, fun c hc => ?_, fun c hc pd hpd => ?_, fun pd hpd => ?_⟩
  · rw [Downloader.replace, List.map_map]
    refine (List.map_congr_left fun c _ => ?_) ▸ h.nodup
    dsimp only [Function.comp]
    split
    next heq => rw [heq, hindex]
    next => rfl
  · rcases mem_replace hc with ⟨hc, -⟩ | rfl
    · exact h.wellFormed c hc
    · exact he.wellFormed
  · rcases mem_replace hc with ⟨hc, -⟩ | rfl
    · exact h.registered c hc pd hpd
    · exact (he.assigned pd hpd).elim (h.registered cd hcd pd) id
  · obtain ⟨cs, hlog, hcs⟩ := he.calls
    have hcount := KeyedList.countP_replace (b := cd') (p := fun c => decide (pd ∈ c.pdown)) h.nodup
      hcd
    have hgrab := hcs d.grabbed (h.grabbed_pos hcd) pd
    have hold := h.balanced pd hpd
    have hcalls : (d.replace cd cd').grabbed pd = cs.foldl PdCall.count d.grabbed pd := by
      rw [Downloader.replace, hlog, List.drop_left]
    rw [hcalls]
    change _ = List.countP (fun c => decide (pd ∈ c.pdown))
      (d.currentChunks.map fun c => if c.index = cd.index then cd' else c)
    simp only [decide_eq_true_eq] at hcount
    rw [numAssigned] at hold
    omega

/-- An operation on the piece downloaders of a chunk. -/
theorem GrabInv.withPeers {f : PieceTable → PeerTable PD → PeerTable PD} (h : GrabInv d) (i : ℕ)
    (hf : ∀ cd ∈ d.currentChunks,
      PeerTable.Effect (· ∈ d.pieceDownloaders) cd.toPeerTable (f cd.toPieceTable cd.toPeerTable)) :
    GrabInv (d.withPeers i f) := by
  unfold Downloader.withPeers
  cases hfind : d.find i with
  | none => exact h
  | some cd => exact h.replace (find_mem hfind).1 rfl (hf cd (find_mem hfind).1)

/-- A chunk without piece downloaders is taken away. -/
theorem GrabInv.erase (h : GrabInv d) (hnone : ∀ cd ∈ d.currentChunks, cd.index = i → cd.pdown = []) :
    GrabInv (d.erase i) := by
  have hmem : ∀ c ∈ (d.erase i).currentChunks, c ∈ d.currentChunks := fun c hc =>
    List.mem_of_mem_filter hc
  refine ⟨h.nodup.sublist (List.filter_sublist.map _), fun c hc => h.wellFormed c (hmem c hc),
    fun c hc => h.registered c (hmem c hc), fun pd hpd => ?_⟩
  refine (h.balanced pd hpd).trans (KeyedList.countP_filter_of_not fun c hc hindex => ?_).symm
  rw [hnone c hc (by simpa using hindex)]
  exact decide_eq_false List.not_mem_nil

/-- A chunk that is not being downloaded is added. -/
theorem GrabInv.insert (h : GrabInv d) (hnew : d.find cd.index = none) (hpdown : cd.pdown = [])
    (hwell : cd.toPeerTable.WellFormed) : GrabInv (d.insert cd) := by
  have hperm := List.perm_orderedInsert (fun a b : ChunkDownload PD => a.index ≤ b.index) cd
    d.currentChunks
  have hmem : ∀ c ∈ (d.insert cd).currentChunks, c = cd ∨ c ∈ d.currentChunks := fun c hc =>
    List.mem_cons.mp (hperm.mem_iff.mp hc)
  refine ⟨?_, fun c hc => ?_, fun c hc pd hpd => ?_, fun pd hpd => ?_⟩
  · refine (hperm.map _).nodup_iff.mpr (List.nodup_cons.mpr ⟨fun hin => ?_, h.nodup⟩)
    obtain ⟨c, hc, hindex⟩ := List.mem_map.mp hin
    exact index_ne_of_find hnew c hc hindex
  · rcases hmem c hc with rfl | hc
    · exact hwell
    · exact h.wellFormed c hc
  · rcases hmem c hc with rfl | hc
    · rw [hpdown] at hpd
      cases hpd
    · exact h.registered c hc pd hpd
  · refine (h.balanced pd hpd).trans ?_
    change _ = (d.currentChunks.orderedInsert _ cd).countP _
    rw [hperm.countP_eq, List.countP_cons_of_neg, numAssigned]
    simp [hpdown]

/-! ## Events that keep it -/

theorem GrabInv.assign (h : GrabInv d) (hcd : cd ∈ d.currentChunks) {pd : PD}
    (hpd : pd ∈ d.pieceDownloaders) (v : PdView PD) : GrabInv (d.assign cd pd v).2 :=
  h.replace hcd rfl (PeerTable.assign_effect cd.toPieceTable (h.wellFormed cd hcd) hpd v.room)

omit [DecidableEq PD] in
/-- The chunk that is selected is one of those there are. -/
theorem foldl_select_mem {f : Option (ChunkDownload PD) → ChunkDownload PD → Option (ChunkDownload PD)}
    (hf : ∀ sel cd, f sel cd = sel ∨ f sel cd = some cd) :
    ∀ (l : List (ChunkDownload PD)) (sel : Option (ChunkDownload PD)),
      l.foldl f sel = some cd → cd ∈ l ∨ sel = some cd := by
  intro l
  induction l with
  | nil => exact fun sel h => .inr h
  | cons c l ih =>
    intro sel h
    rcases ih (f sel c) h with hmem | hsel
    · exact .inl (List.mem_cons_of_mem c hmem)
    · rcases hf sel c with heq | heq
      · exact .inr (heq ▸ hsel)
      · rw [heq] at hsel
        exact .inl (Option.some.inj hsel ▸ List.mem_cons_self)

omit [DecidableEq PD] in
theorem selectCD_mem {v : PdView PD} {pd : PD} {n : ℕ} (h : d.selectCD v pd n = some cd) :
    cd ∈ d.currentChunks := by
  refine (foldl_select_mem (fun sel c => ?_) _ none h).resolve_right (fun h => nomatch h)
  grind

theorem selectWorst_mem {v : PdView PD} {pd : PD} (h : d.selectWorst v pd = some cd) :
    cd ∈ d.currentChunks := by
  refine (foldl_select_mem (fun sel c => ?_) _ none h).resolve_right (fun h => nomatch h)
  grind

theorem GrabInv.downloadFrom (h : GrabInv d) (chunkSize : ℕ → ℕ) (v : PdView PD)
    (selected : Option ℕ) {pd : PD} (hpd : pd ∈ d.pieceDownloaders) :
    GrabInv (d.downloadFrom chunkSize v selected pd).2 := by
  have hfound : GrabInv (d.findDownloadForPD v pd).2 ∧
      (d.findDownloadForPD v pd).2.pieceDownloaders = d.pieceDownloaders := by
    unfold findDownloadForPD
    cases hsel : d.selectCD v pd 0 with
    | none => exact ⟨h, rfl⟩
    | some sel => exact ⟨h.assign (selectCD_mem hsel) hpd v, rfl⟩
  unfold Downloader.downloadFrom
  dsimp only
  split
  · exact hfound.1
  · obtain ⟨h', hsame⟩ := hfound
    rw [← hsame] at hpd
    generalize (d.findDownloadForPD v pd).2 = d' at h' hpd ⊢
    cases selected with
    | some chunk =>
      dsimp only
      cases hfind : d'.find chunk with
      | some cd => exact h'.assign (find_mem hfind).1 hpd v
      | none =>
        have hnew : GrabInv (d'.insert (ChunkDownload.new chunk (chunkSize chunk))) :=
          h'.insert hfind rfl ⟨List.nodup_nil, fun pd hpd => nomatch hpd⟩
        have hmem := (List.perm_orderedInsert (fun a b : ChunkDownload PD => a.index ≤ b.index)
          (ChunkDownload.new chunk (chunkSize chunk)) d'.currentChunks).mem_iff.mpr
          List.mem_cons_self
        exact hnew.assign hmem hpd v
    | none =>
      dsimp only
      split
      · cases hworst : d'.selectWorst v pd with
        | some cdmin => exact h'.assign (selectWorst_mem hworst) hpd v
        | none => exact h'
      · exact h'

theorem GrabInv.pieceReceived (h : GrabInv d) (cache : ℕ → PieceCache M) (p : Piece PD)
    (room : PD → ℕ) (completed : Bool) : GrabInv (d.pieceReceived cache p room completed) := by
  unfold Downloader.pieceReceived
  split
  · exact h
  · cases hfind : d.find p.index with
    | none => exact h
    | some cd =>
      obtain ⟨hcd, hindex⟩ := find_mem hfind
      obtain ⟨heffect, hsame, hdone⟩ := ChunkDownload.piece_effect (R := (· ∈ d.pieceDownloaders))
        (cache p.index) p room cd d.mem (h.wellFormed cd hcd)
      dsimp only
      have h' := h.replace hcd hsame heffect
      have hmem : ∀ m : M, GrabInv { d.replace cd (cd.piece (cache p.index) p room d.mem).2.1 with
          mem := m } := fun m => ⟨h'.nodup, h'.wellFormed, h'.registered, h'.balanced⟩
      split
      next hcomplete =>
        refine (hmem _).erase fun c hc hc' => ?_
        rcases mem_replace hc with ⟨-, hne⟩ | rfl
        · exact absurd (hc'.trans hindex.symm) hne
        · exact hdone hcomplete
      next => exact hmem _

/-- The piece downloaders of a chunk are released. -/
theorem GrabInv.releaseAllPDs (h : GrabInv d) (i : ℕ) :
    GrabInv (d.withPeers i fun t w => w.releaseAllPDs t) :=
  h.withPeers i fun cd hcd => PeerTable.releaseAllPDs_effect cd.toPieceTable (h.wellFormed cd hcd)

theorem released_pdown (d : Downloader PD M) (i : ℕ) :
    ∀ c ∈ (d.withPeers i fun t w => w.releaseAllPDs t).currentChunks, c.index = i → c.pdown = [] := by
  intro c hc hindex
  unfold Downloader.withPeers at hc
  cases hfind : d.find i with
  | none =>
    rw [hfind] at hc
    exact absurd hindex (index_ne_of_find hfind c hc)
  | some cd =>
    rw [hfind] at hc
    rcases mem_replace hc with ⟨-, hne⟩ | rfl
    · exact absurd (hindex.trans (find_mem hfind).2.symm) hne
    · rfl

/-- Chunks are taken away after their piece downloaders have been released. -/
theorem GrabInv.releaseAndErase (h : GrabInv d) (i : ℕ) :
    GrabInv ((d.withPeers i fun t w => w.releaseAllPDs t).erase i) :=
  (h.releaseAllPDs i).erase (released_pdown d i)

theorem GrabInv.cancelAll (h : GrabInv d) (i : ℕ) :
    GrabInv (d.withPeers i fun t w => w.cancelAll t) :=
  h.withPeers i fun cd hcd => (PeerTable.quiet_cancelAll cd.toPieceTable _).effect (h.wellFormed cd hcd)

theorem GrabInv.foldl {α : Type*} {f : Downloader PD M → α → Downloader PD M}
    (hf : ∀ d a, GrabInv d → GrabInv (f d a)) (l : List α) : ∀ d, GrabInv d → GrabInv (l.foldl f d) := by
  induction l with
  | nil => exact fun d h => h
  | cons a l ih => exact fun d h => ih (f d a) (hf d a h)

theorem GrabInv.onExcluded (h : GrabInv d) (from_ to_ : ℕ) : GrabInv (d.onExcluded from_ to_) :=
  GrabInv.foldl (fun _ i h => (h.cancelAll i).releaseAndErase i) _ d h

theorem GrabInv.dataChecked (h : GrabInv d) (okChunks : BitSet) (from_ to_ : ℕ) :
    GrabInv (d.dataChecked okChunks from_ to_) := by
  refine GrabInv.foldl (fun d i h => ?_) _ d h
  unfold checkedChunk
  split
  · exact h.releaseAndErase i
  · exact h

theorem GrabInv.notDownloaded (h : GrabInv d) (r : Request PD) (pd : PD) (reject : Bool)
    (room : PD → ℕ) : GrabInv (d.notDownloaded r pd reject room) := by
  refine h.withPeers r.index fun cd hcd => ?_
  split
  · exact PeerTable.onNotDownloaded_effect cd.toPieceTable (h.wellFormed cd hcd) r pd reject room
  · exact (PeerTable.Quiet.refl _).effect (h.wellFormed cd hcd)

theorem GrabInv.updateChunk (h : GrabInv d) (i : ℕ) (v : PdView PD) (needsUpdate : Bool) :
    GrabInv (d.updateChunk i v needsUpdate) := by
  unfold Downloader.updateChunk
  cases d.find i with
  | none => exact h
  | some cd =>
    dsimp only
    split
    · exact h
    · split
      · exact h.releaseAllPDs i
      · split
        · exact h.withPeers i fun cd hcd =>
            (PeerTable.quiet_sendRequests cd.toPieceTable _ v.room).effect (h.wellFormed cd hcd)
        · exact h

/-- A new piece downloader is not assigned to any chunk. -/
theorem GrabInv.addPieceDownloader (h : GrabInv d) {pd : PD} (hpd : pd ∉ d.pieceDownloaders) :
    GrabInv ({ d with grabbed := Function.update d.grabbed pd 0 }.addPieceDownloader pd) := by
  refine ⟨h.nodup, h.wellFormed, fun cd hcd pd' hpd' => ?_, fun pd' hpd' => ?_⟩
  · exact List.mem_append_left _ (h.registered cd hcd pd' hpd')
  · change Function.update d.grabbed pd 0 pd' = d.numAssigned pd'
    by_cases heq : pd' = pd
    · subst heq
      rw [Function.update_self, numAssigned, eq_comm, List.countP_eq_zero]
      intro cd hcd hassigned
      exact hpd (h.registered cd hcd pd' (of_decide_eq_true hassigned))
    · rw [Function.update_of_ne heq]
      refine h.balanced pd' ((List.mem_append.mp hpd').resolve_right fun hin => ?_)
      exact heq (List.mem_singleton.mp hin)

theorem killed_pdown (w : PeerTable PD) (pd : PD) :
    (w.killed pd).pdown = w.pdown.filter (· ≠ pd) := by
  unfold PeerTable.killed
  split
  next => rfl
  next hpd =>
    refine (List.filter_eq_self.mpr fun pd' hpd' => ?_).symm
    simpa using fun h : pd' = pd => hpd (h ▸ hpd')

theorem killed_wellFormed {w : PeerTable PD} (hw : w.WellFormed) (pd : PD) :
    (w.killed pd).WellFormed := by
  refine ⟨killed_pdown w pd ▸ hw.nodup.filter _, fun pd' hpd' => ?_⟩
  rw [killed_pdown]
  unfold PeerTable.killed at hpd'
  split at hpd'
  next hpd =>
    obtain ⟨e, he, rfl⟩ := List.mem_map.mp hpd'
    obtain ⟨hmem, hne⟩ := List.mem_filter.mp he
    exact List.mem_filter.mpr ⟨hw.keys e.1 (List.mem_map_of_mem hmem), hne⟩
  next hpd =>
    have hmem := hw.keys pd' hpd'
    exact List.mem_filter.mpr ⟨hmem, by simpa using fun h : pd' = pd => hpd (h ▸ hmem)⟩

/-- A piece downloader that goes away is forgotten by all chunks. -/
theorem GrabInv.removePieceDownloader (h : GrabInv d) (pd : PD) :
    GrabInv (d.removePieceDownloader pd) := by
  refine ⟨?_, fun c hc => ?_, fun c hc pd' hpd' => ?_, fun pd' hpd' => ?_⟩
  · rw [Downloader.removePieceDownloader, List.map_map]
    refine (List.map_congr_left fun c _ => ?_) ▸ h.nodup
    rfl
  · obtain ⟨cd, hcd, rfl⟩ := List.mem_map.mp hc
    exact killed_wellFormed (h.wellFormed cd hcd) pd
  · obtain ⟨cd, hcd, rfl⟩ := List.mem_map.mp hc
    have hpdown : pd' ∈ (cd.toPeerTable.killed pd).pdown := hpd'
    rw [killed_pdown] at hpdown
    obtain ⟨hmem, hne⟩ := List.mem_filter.mp hpdown
    exact List.mem_filter.mpr ⟨h.registered cd hcd pd' hmem, hne⟩
  · obtain ⟨hmem, hne⟩ := List.mem_filter.mp hpd'
    have hne : pd' ≠ pd := by simpa using hne
    refine (h.balanced pd' hmem).trans ?_
    rw [numAssigned, numAssigned, Downloader.removePieceDownloader, List.countP_map]
    refine List.countP_congr fun cd _ => ?_
    simp [killed_pdown, hne]

/-! ## Grabs that are lost -/

/-- A chunk with piece downloaders is taken away. -/
theorem erase_not_balanced (h : GrabInv d) (hcd : cd ∈ d.currentChunks) (hindex : cd.index = i)
    {pd : PD} (hpd : pd ∈ cd.pdown) : ¬(d.erase i).GrabsBalanced := by
  obtain rfl := hindex
  intro hbalanced
  have hregistered := h.registered cd hcd pd hpd
  have hold := h.balanced pd hregistered
  have hnew : d.grabbed pd = (d.erase cd.index).numAssigned pd := hbalanced pd hregistered
  have hcount := KeyedList.countP_erase (p := fun c : ChunkDownload PD => decide (pd ∈ c.pdown))
    h.nodup hcd
  rw [if_pos (decide_eq_true hpd)] at hcount
  rw [numAssigned] at hold hnew
  have hsame : (d.erase cd.index).currentChunks.countP (fun c => decide (pd ∈ c.pdown)) =
      (d.currentChunks.filter fun c => c.index ≠ cd.index).countP fun c => decide (pd ∈ c.pdown) :=
    rfl
  omega

theorem pause_not_balanced (h : GrabInv d) (hcd : cd ∈ d.currentChunks) {pd : PD}
    (hpd : pd ∈ cd.pdown) : ¬d.pause.GrabsBalanced := by
  intro hbalanced
  have hnew : d.grabbed pd = 0 := hbalanced pd (h.registered cd hcd pd hpd)
  exact (h.grabbed_pos hcd pd hpd).ne' hnew

theorem cancelAll_mem (h : GrabInv d) (hcd : cd ∈ d.currentChunks) :
    { cd with toPeerTable := cd.toPeerTable.cancelAll cd.toPieceTable } ∈
      (d.withPeers cd.index fun t w => w.cancelAll t).currentChunks := by
  unfold Downloader.withPeers
  cases hfind : d.find cd.index with
  | none => exact absurd rfl (index_ne_of_find hfind cd hcd)
  | some cd' =>
    obtain ⟨hcd', hindex⟩ := find_mem hfind
    obtain rfl := KeyedList.eq_of_key h.nodup hcd' hcd hindex
    exact List.mem_map.mpr ⟨cd', hcd', if_pos rfl⟩

theorem onChunkReady_not_balanced (h : GrabInv d) (hcd : cd ∈ d.currentChunks) {pd : PD}
    (hpd : pd ∈ cd.pdown) : ¬(d.onChunkReady cd.index true).GrabsBalanced := by
  have hsame := (PeerTable.quiet_cancelAll cd.toPieceTable cd.toPeerTable).pdown
  have hpd' : pd ∈ (cd.toPeerTable.cancelAll cd.toPieceTable).pdown := hsame ▸ hpd
  exact erase_not_balanced (h.cancelAll cd.index) (cancelAll_mem h hcd) rfl hpd'

/-! ## Runs -/

variable (cache : ℕ → PieceCache M) (chunkSize : ℕ → ℕ)

theorem grabInv_step (h : GrabInv d) {e : DownloaderEvent PD} (hok : d.LetsGo e) :
    GrabInv (d.step cache chunkSize e) := by
  cases e with
  | peerAdded pd =>
    rw [Downloader.step]
    split
    next => exact h
    next hpd => exact h.addPieceDownloader hpd
  | downloadFrom pd v selected =>
    rw [Downloader.step]
    split
    next hpd => exact h.downloadFrom chunkSize v selected hpd
    next => exact h
  | pieceReceived p room completed => exact h.pieceReceived cache p room completed
  | timedout r pd room => exact h.notDownloaded r pd false room
  | rejected r pd room => exact h.notDownloaded r pd true room
  | updateChunk i v needsUpdate => exact h.updateChunk i v needsUpdate
  | onExcluded from_ to_ => exact h.onExcluded from_ to_
  | dataChecked okChunks from_ to_ => exact h.dataChecked okChunks from_ to_
  | onChunkReady i hashOk =>
    cases hashOk with
    | false => exact h
    | true =>
      refine (h.cancelAll i).erase fun c hc hindex => ?_
      unfold Downloader.withPeers at hc
      cases hfind : d.find i with
      | none =>
        rw [hfind] at hc
        exact absurd hindex (index_ne_of_find hfind c hc)
      | some cd =>
        rw [hfind] at hc
        obtain ⟨hcd, hcdi⟩ := find_mem hfind
        rcases mem_replace hc with ⟨-, hne⟩ | rfl
        · exact absurd (hindex.trans hcdi.symm) hne
        · have hsame := (PeerTable.quiet_cancelAll cd.toPieceTable cd.toPeerTable).pdown
          exact hsame.trans (hok rfl cd hcd hcdi)
  | removePieceDownloader pd => exact h.removePieceDownloader pd
  | pause =>
    refine ⟨List.nodup_nil, fun c hc => (nomatch hc), fun c hc => (nomatch hc), fun pd hpd => ?_⟩
    refine (h.balanced pd hpd).trans (List.countP_eq_zero.mpr fun cd hcd => ?_)
    rw [hok cd hcd]
    simp

/-- An event that takes assigned piece downloaders away breaks the law. -/
theorem not_balanced_step (h : GrabInv d) {e : DownloaderEvent PD} (hbad : ¬d.LetsGo e) :
    ¬(d.step cache chunkSize e).GrabsBalanced := by
  have hassigned : ∀ cd : ChunkDownload PD, cd.pdown ≠ [] → ∃ pd, pd ∈ cd.pdown := fun _ =>
    List.exists_mem_of_ne_nil _
  cases e with
  | onChunkReady i hashOk =>
    simp only [LetsGo, not_forall] at hbad
    obtain ⟨rfl, cd, hcd, rfl, hpdown⟩ := hbad
    obtain ⟨pd, hpd⟩ := hassigned cd hpdown
    exact onChunkReady_not_balanced h hcd hpd
  | pause =>
    simp only [LetsGo, not_forall] at hbad
    obtain ⟨cd, hcd, hpdown⟩ := hbad
    obtain ⟨pd, hpd⟩ := hassigned cd hpdown
    exact pause_not_balanced h hcd hpd
  | _ => exact absurd trivial hbad

theorem grabInv_new (m : M) : GrabInv (new m : Downloader PD M) :=
  ⟨List.nodup_nil, fun _ h => (nomatch h), fun _ h => (nomatch h), fun _ h => (nomatch h)⟩

/-- **Grabs and releases are balanced** in every state of a run exactly when no event
of the run takes away a chunk that has piece downloaders without releasing them: the
downloader is only paused, and a web seed only delivers a chunk, when none is assigned. -/
theorem allStates_grabsBalanced_iff (m : M) (events : List (DownloaderEvent PD)) :
    AllStates (step cache chunkSize) GrabsBalanced (new m) events ↔
      AllSteps (step cache chunkSize) LetsGo (new m) events :=
  allStates_iff_allSteps (fun _ h => h.balanced) (fun _ _ h hok => grabInv_step cache chunkSize h hok)
    (fun _ _ h hbad => not_balanced_step cache chunkSize h hbad) events _ (grabInv_new m)

/-- A peer is assigned to a chunk; then a web seed delivers the chunk, or the downloader is
paused, and the peer stays grabbed. -/
theorem grabs_leaked :
    let cache : ℕ → PieceCache Unit := fun _ =>
      { getPiece := fun m _ _ _ => (none, m)
        write := fun m _ _ => (false, m)
        bytes := fun _ _ => none
        savePiece := fun m _ => m }
    let view : PdView ℕ := ⟨fun _ => false, fun _ _ => true, fun _ => 0, fun _ => 1⟩
    let assigned : List (DownloaderEvent ℕ) := [.peerAdded 7, .downloadFrom 7 view (some 0)]
    ¬AllStates (step cache fun _ => 16384) GrabsBalanced (new ()) (assigned ++ [.onChunkReady 0 true]) ∧
    ¬AllStates (step cache fun _ => 16384) GrabsBalanced (new ()) (assigned ++ [.pause]) := by
  refine ⟨fun h => ?_, fun h => ?_⟩
  · exact absurd (h.2.2.2 7 (by decide +kernel)) (by decide +kernel)
  · exact absurd (h.2.2.2 7 (by decide +kernel)) (by decide +kernel)

end Downloader

end KTorrent
