import KTorrent.Download.Downloader

/-!
# Grabs and releases of a chunk download

What the operations of a chunk download do to the counters of its piece
downloaders.

* `Quiet` — the operation grabs and releases nobody, and nobody is assigned or let go.
* `Effect` — every piece downloader that is assigned by the operation was grabbed
  by it, and every one that is let go was released.
* `assign_effect`, `releaseAllPDs_effect`, `onNotDownloaded_effect`,
  `piece_effect` — the operations of this kind.
-/

namespace KTorrent

variable {PD M : Type} [DecidableEq PD]

/-- The call neither grabs nor releases. -/
def PdCall.Quiet : PdCall PD → Prop
  | .grab _ => False
  | .release _ => False
  | _ => True

theorem PdCall.count_of_quiet {c : PdCall PD} (h : c.Quiet) (g : PD → ℕ) : c.count g = g := by
  cases c with
  | grab pd => exact h.elim
  | release pd => exact h.elim
  | download pd r => rfl
  | cancel pd r => rfl
  | nearlyDone pd => rfl

theorem PdCall.foldl_count_of_quiet {cs : List (PdCall PD)} (h : ∀ c ∈ cs, c.Quiet) (g : PD → ℕ) :
    cs.foldl PdCall.count g = g := by
  induction cs with
  | nil => rfl
  | cons c cs ih =>
    rw [List.foldl_cons, PdCall.count_of_quiet (h c List.mem_cons_self)]
    exact ih fun c' hc' => h c' (List.mem_cons_of_mem c hc')

namespace PeerTable

variable {R : PD → Prop} {t : PieceTable} {w w' w'' : PeerTable PD} {pd : PD} {room : PD → ℕ}

/-! ## Quiet operations -/

/-- The operation makes other calls only, and the same piece downloaders are assigned. -/
structure Quiet (w w' : PeerTable PD) : Prop where
  log : ∃ cs : List (PdCall PD), w'.log = w.log ++ cs ∧ ∀ c ∈ cs, c.Quiet
  pdown : w'.pdown = w.pdown
  keys : w'.dstatus.map Prod.fst = w.dstatus.map Prod.fst

omit [DecidableEq PD] in
theorem Quiet.refl (w : PeerTable PD) : Quiet w w :=
  ⟨⟨[], (List.append_nil _).symm, fun _ h => by cases h⟩, rfl, rfl⟩

omit [DecidableEq PD] in
theorem Quiet.trans (h : Quiet w w') (h' : Quiet w' w'') : Quiet w w'' := by
  obtain ⟨cs, hlog, hcs⟩ := h.log
  obtain ⟨cs', hlog', hcs'⟩ := h'.log
  refine ⟨⟨cs ++ cs', ?_, fun c hc => ?_⟩, h'.pdown.trans h.pdown,
    h'.keys.trans h.keys⟩
  · rw [hlog', hlog, List.append_assoc]
  · exact (List.mem_append.mp hc).elim (hcs c) (hcs' c)

omit [DecidableEq PD] in
theorem Quiet.foldl {α : Type*} {f : PeerTable PD → α → PeerTable PD} (l : List α)
    (hf : ∀ w a, Quiet w (f w a)) : ∀ w, Quiet w (l.foldl f w) := by
  induction l with
  | nil => exact Quiet.refl
  | cons a l ih => exact fun w => (hf w a).trans (ih (f w a))

omit [DecidableEq PD] in
theorem quiet_call (w : PeerTable PD) {c : PdCall PD} (hc : c.Quiet) : Quiet w (w.call c) :=
  ⟨⟨[c], rfl, fun c' hc' => by rwa [List.mem_singleton.mp hc']⟩, rfl, rfl⟩

theorem quiet_modifyStatus (w : PeerTable PD) (pd : PD) (f : DownloadStatus → DownloadStatus) :
    Quiet w (w.modifyStatus pd f) := by
  refine ⟨⟨[], (List.append_nil _).symm, fun _ h => by cases h⟩, rfl, ?_⟩
  rw [modifyStatus, List.map_map]
  refine List.map_congr_left fun e _ => ?_
  dsimp only [Function.comp]
  split <;> rfl

theorem quiet_sendCancels (t : PieceTable) (w : PeerTable PD) (pd : PD) :
    Quiet w (w.sendCancels t pd) := by
  unfold sendCancels
  split
  · exact .refl w
  · refine Quiet.trans (Quiet.foldl _ (fun w i => ?_) w) (quiet_modifyStatus ..)
    exact quiet_call w (c := .cancel pd (requestFor t i none)) trivial

theorem quiet_cancelAll (t : PieceTable) (w : PeerTable PD) : Quiet w (w.cancelAll t) :=
  Quiet.foldl _ (quiet_sendCancels t) w

theorem quiet_sendRequest (h : sendRequest t w pd = some w') : Quiet w w' := by
  unfold sendRequest at h
  split at h
  · cases h
  · dsimp only at h
    split at h
    · cases h
    · obtain rfl := Option.some.inj h
      have hsent := (quiet_call w (c := .download pd (requestFor t (bestPiece t w pd) (some pd)))
        trivial).trans (quiet_modifyStatus _ pd (·.add (bestPiece t w pd)))
      split
      · exact hsent.trans (quiet_call _ trivial)
      · exact hsent

theorem quiet_sendRound (t : PieceTable) : ∀ (pds : List PD) (w : PeerTable PD) (room : PD → ℕ),
    Quiet w (sendRound t pds w room).2.1 := by
  intro pds
  induction pds with
  | nil => exact fun w _ => .refl w
  | cons pd pds ih =>
    intro w room
    rw [sendRound]
    split
    · exact ih w room
    · rename_i w' hw'
      have hsent : Quiet w w' := by
        split at hw'
        · exact quiet_sendRequest hw'
        · cases hw'
      exact hsent.trans (ih w' _)

theorem quiet_sendRounds (t : PieceTable) : ∀ (fuel : ℕ) (pds : List PD) (w : PeerTable PD)
    (room : PD → ℕ), Quiet w (sendRounds t fuel pds w room) := by
  intro fuel
  induction fuel with
  | zero => exact fun _ w _ => .refl w
  | succ fuel ih =>
    intro pds w room
    cases pds with
    | nil => exact .refl w
    | cons pd pds => exact (quiet_sendRound t (pd :: pds) w room).trans (ih _ _ _)

theorem quiet_sendRequests (t : PieceTable) (w : PeerTable PD) (room : PD → ℕ) :
    Quiet w (w.sendRequests t room) := quiet_sendRounds t _ _ w room

theorem quiet_endgameCancel (w : PeerTable PD) (p : Piece PD) : Quiet w (w.endgameCancel p) := by
  refine Quiet.foldl _ (fun w pd => ?_) w
  split
  · exact .refl w
  · split
    · refine Quiet.trans (quiet_call w ?_) (quiet_modifyStatus ..)
      trivial
    · exact .refl w

theorem quiet_addProvider (w : PeerTable PD) (pd : Option PD) : Quiet w (w.addProvider pd) := by
  unfold addProvider
  split
  · exact .refl w
  · exact ⟨⟨[], (List.append_nil _).symm, fun _ h => by cases h⟩, rfl, rfl⟩

/-! ## Effects -/

/-- No piece downloader is assigned twice, and requests are only made to those assigned. -/
structure WellFormed (w : PeerTable PD) : Prop where
  nodup : w.pdown.Nodup
  keys : ∀ pd ∈ w.dstatus.map Prod.fst, pd ∈ w.pdown

/-- The operation's calls on a piece downloader make up for its being assigned or let go, where
those that are assigned have been grabbed.  Only piece downloaders of `R` are newly assigned. -/
structure Effect (R : PD → Prop) (w w' : PeerTable PD) : Prop where
  wellFormed : WellFormed w'
  assigned : ∀ pd ∈ w'.pdown, pd ∈ w.pdown ∨ R pd
  calls : ∃ cs : List (PdCall PD), w'.log = w.log ++ cs ∧
    ∀ g : PD → ℕ, (∀ pd ∈ w.pdown, 0 < g pd) → ∀ pd,
      cs.foldl PdCall.count g pd + (if pd ∈ w.pdown then 1 else 0) =
        g pd + (if pd ∈ w'.pdown then 1 else 0)

theorem Effect.trans (h : Effect R w w') (h' : Effect R w' w'') : Effect R w w'' := by
  obtain ⟨cs, hlog, hcs⟩ := h.calls
  obtain ⟨cs', hlog', hcs'⟩ := h'.calls
  refine ⟨h'.wellFormed, fun pd hpd => ?_, cs ++ cs', by rw [hlog', hlog, List.append_assoc],
    fun g hg pd => ?_⟩
  · exact (h'.assigned pd hpd).elim (h.assigned pd) .inr
  have hpos : ∀ pd ∈ w'.pdown, 0 < cs.foldl PdCall.count g pd := by
    intro pd hpd
    have hbal := hcs g hg pd
    rw [if_pos hpd] at hbal
    by_cases hw : pd ∈ w.pdown
    · have := hg pd hw
      rw [if_pos hw] at hbal
      omega
    · rw [if_neg hw] at hbal
      omega
  have h₁ := hcs g hg pd
  have h₂ := hcs' _ hpos pd
  rw [List.foldl_append]
  omega

omit [DecidableEq PD] in
theorem Quiet.wellFormed (h : Quiet w w') (hw : WellFormed w) : WellFormed w' := by
  refine ⟨h.pdown ▸ hw.nodup, fun pd hpd => ?_⟩
  rw [h.pdown]
  exact hw.keys pd (h.keys ▸ hpd)

theorem Quiet.effect (h : Quiet w w') (hw : WellFormed w) : Effect R w w' := by
  obtain ⟨cs, hlog, hcs⟩ := h.log
  refine ⟨h.wellFormed hw, fun pd hpd => .inl (h.pdown ▸ hpd), cs, hlog, fun g _ pd => ?_⟩
  rw [PdCall.foldl_count_of_quiet hcs, h.pdown]

/-- A piece downloader is released and let go. -/
theorem letGo_effect (hw : WellFormed w) (hpd : pd ∈ w.pdown)
    (hq : Quiet (w.call (.release pd)) w') :
    Effect R w { w'.eraseStatus pd with pdown := w'.pdown.filter (· ≠ pd) } := by
  obtain ⟨cs, hlog, hcs⟩ := hq.log
  have hpdown : w'.pdown = w.pdown := hq.pdown
  have hkeys : w'.dstatus.map Prod.fst = w.dstatus.map Prod.fst := hq.keys
  refine ⟨⟨?_, fun pd' hpd' => ?_⟩, fun pd' hpd' => ?_, .release pd :: cs, ?_,
    fun g hg pd' => ?_⟩
  · exact (hpdown ▸ hw.nodup).filter _
  · obtain ⟨e, he, rfl⟩ := List.mem_map.mp hpd'
    obtain ⟨hmem, hne⟩ := List.mem_filter.mp he
    have hold : e.1 ∈ w.pdown := hw.keys e.1 (hkeys ▸ List.mem_map_of_mem hmem)
    exact List.mem_filter.mpr ⟨hpdown ▸ hold, hne⟩
  · exact .inl (hpdown ▸ (List.mem_filter.mp hpd').1)
  · change w'.log = _
    rw [hlog, call, List.append_assoc]
    rfl
  · rw [List.foldl_cons, PdCall.foldl_count_of_quiet hcs, PdCall.count]
    dsimp only
    rw [hpdown]
    by_cases hne : pd' = pd
    · subst hne
      have hpos := hg pd' hpd
      rw [Function.update_self, if_pos hpd, if_neg (by simp)]
      omega
    · rw [Function.update_of_ne hne]
      simp [hne]

theorem dropPD_effect (hw : WellFormed w) (hpd : pd ∈ w.pdown) : Effect R w (w.dropPD t pd) := by
  have hq := quiet_sendCancels t (w.call (.release pd)) pd
  have hmem : pd ∈ (sendCancels t (w.call (.release pd)) pd).pdown := hq.pdown ▸ hpd
  rw [dropPD, killed, if_pos hmem]
  exact letGo_effect hw hpd hq

/-- The loop of `releaseAllPDs`. -/
theorem releaseAll_calls (t : PieceTable) : ∀ (pds : List PD) (w : PeerTable PD),
    ∃ cs : List (PdCall PD),
      (pds.foldl (fun w pd => sendCancels t (w.call (.release pd)) pd) w).log = w.log ++ cs ∧
      ∀ (g : PD → ℕ) (pd : PD), cs.foldl PdCall.count g pd = g pd - pds.count pd := by
  intro pds
  induction pds with
  | nil => exact fun w => ⟨[], (List.append_nil _).symm, fun g pd => rfl⟩
  | cons pd pds ih =>
    intro w
    obtain ⟨cs, hlog, hcs⟩ := (quiet_sendCancels t (w.call (.release pd)) pd).log
    obtain ⟨cs', hlog', hcs'⟩ := ih (sendCancels t (w.call (.release pd)) pd)
    refine ⟨.release pd :: cs ++ cs', ?_, fun g pd' => ?_⟩
    · rw [List.foldl_cons, hlog', hlog, call, List.append_assoc, List.append_assoc]
      rfl
    · rw [List.foldl_append, hcs', List.foldl_cons, PdCall.foldl_count_of_quiet hcs, PdCall.count]
      by_cases hne : pd' = pd
      · subst hne
        rw [Function.update_self, List.count_cons_self]
        omega
      · rw [Function.update_of_ne hne, List.count_cons_of_ne (Ne.symm hne)]

theorem releaseAllPDs_effect (t : PieceTable) (hw : WellFormed w) :
    Effect R w (w.releaseAllPDs t) := by
  obtain ⟨cs, hlog, hcs⟩ := releaseAll_calls t w.pdown w
  refine ⟨⟨List.nodup_nil, fun pd hpd => (nomatch hpd)⟩, fun pd hpd => (nomatch hpd), cs, hlog,
    fun g hg pd => ?_⟩
  have hnil : (w.releaseAllPDs t).pdown = [] := rfl
  simp only [hcs, hnil, List.not_mem_nil, if_false]
  by_cases hpd : pd ∈ w.pdown
  · have hpos := hg pd hpd
    rw [List.count_eq_one_of_mem hw.nodup hpd, if_pos hpd]
    omega
  · rw [List.count_eq_zero_of_not_mem hpd, if_neg hpd]
    rfl

/-- A piece downloader that is assigned is grabbed. -/
theorem assign_effect (t : PieceTable) (hw : WellFormed w) (hR : R pd) (room : PD → ℕ) :
    Effect R w (w.assign t pd room).2 := by
  unfold assign
  by_cases hpd : pd ∈ w.pdown
  · rw [if_pos hpd]
    exact (Quiet.refl w).effect hw
  · rw [if_neg hpd]
    dsimp only
    set w₁ : PeerTable PD := { w.call (.grab pd) with
      pdown := (w.call (.grab pd)).pdown ++ [pd]
      dstatus := ((w.call (.grab pd)).eraseStatus pd).dstatus ++ [(pd, DownloadStatus.new)] }
    have h₁ : Effect R w w₁ := by
      refine ⟨⟨?_, fun pd' hpd' => ?_⟩, fun pd' hpd' => ?_, [.grab pd], rfl, fun g _ pd' => ?_⟩
      · exact List.nodup_append.mpr ⟨hw.nodup, List.nodup_singleton pd, by
          rintro a ha b hb rfl
          exact hpd (List.mem_singleton.mp hb ▸ ha)⟩
      · obtain ⟨e, he, rfl⟩ := List.mem_map.mp hpd'
        rcases List.mem_append.mp he with he | he
        · have hmem := (List.mem_filter.mp he).1
          exact List.mem_append_left _ (hw.keys e.1 (List.mem_map_of_mem hmem))
        · exact List.mem_append_right _ (by
            rw [List.mem_singleton.mp he]
            exact List.mem_singleton_self pd)
      · exact (List.mem_append.mp hpd').elim .inl fun h => .inr (List.mem_singleton.mp h ▸ hR)
      · change Function.update g pd (g pd + 1) pd' + _ = _ + if pd' ∈ w.pdown ++ [pd] then 1 else 0
        by_cases hne : pd' = pd
        · subst hne
          rw [Function.update_self, if_neg hpd, if_pos (by simp)]
        · rw [Function.update_of_ne hne]
          simp [hne]
    exact h₁.trans ((quiet_sendRequests t w₁ room).effect h₁.wellFormed)

/-- A piece downloader whose request was not answered is released and let go. -/
theorem onNotDownloaded_effect (t : PieceTable) (hw : WellFormed w) (r : Request PD) (pd : PD)
    (reject : Bool) (room : PD → ℕ) : Effect R w (w.onNotDownloaded t r pd reject room) := by
  have hsend : ∀ {u : PeerTable PD}, Effect R w u → Effect R w (u.sendRequests t room) := fun h =>
    h.trans ((quiet_sendRequests t _ room).effect h.wellFormed)
  have hself : Effect R w w := (Quiet.refl w).effect hw
  unfold onNotDownloaded
  split
  · unfold notDownloaded
    cases hds : w.findStatus pd with
    | none => exact hsend hself
    | some ds =>
      have hmem : pd ∈ w.pdown := by
        obtain ⟨e, he, -⟩ := Option.map_eq_some_iff.mp hds
        have hkey := List.find?_some he
        rw [decide_eq_true_eq] at hkey
        exact hkey ▸ hw.keys e.1 (List.mem_map_of_mem (List.mem_of_find?_eq_some he))
      dsimp only
      have hq := quiet_modifyStatus w pd (·.remove (r.offset / maxPieceLen))
      have hdrop : ∀ {u : PeerTable PD}, Quiet w u → Effect R w (u.dropPD t pd) := fun h =>
        (h.effect hw).trans (dropPD_effect (h.wellFormed hw) (h.pdown ▸ hmem))
      split
      · exact hsend (hdrop hq)
      · have hq' := (hq.trans (quiet_call _ (c := .cancel pd r) trivial)).trans
          (quiet_modifyStatus _ pd DownloadStatus.timeout)
        split
        · exact hsend (hdrop hq')
        · exact hsend (hq'.effect hw)
  · exact hself

end PeerTable

namespace ChunkDownload

theorem hashPiece_index (cache : PieceCache M) (s : PieceTable × M) (i : ℕ) :
    (PieceTable.hashPiece cache s i).1.index = s.1.index := by
  obtain ⟨t, m⟩ := s
  unfold PieceTable.hashPiece
  dsimp only
  split
  · rfl
  · split <;> rfl

theorem updateHash_index (cache : PieceCache M) (t : PieceTable) (m : M) :
    (t.updateHash cache m).1.index = t.index := by
  have hfold : ∀ (l : List ℕ) (s : PieceTable × M),
      (l.foldl (PieceTable.hashPiece cache) s).1.index = s.1.index := by
    intro l
    induction l with
    | nil => exact fun s => rfl
    | cons i l ih => exact fun s => (ih _).trans (hashPiece_index cache s i)
  exact hfold _ (t, m)

/-- A piece that completes the chunk releases all piece downloaders, another one none. -/
theorem piece_effect {R : PD → Prop} (cache : PieceCache M) (p : Piece PD) (room : PD → ℕ)
    (cd : ChunkDownload PD) (m : M) (hw : cd.toPeerTable.WellFormed) :
    PeerTable.Effect R cd.toPeerTable (cd.piece cache p room m).2.1.toPeerTable ∧
      (cd.piece cache p room m).2.1.index = cd.index ∧
      ((cd.piece cache p room m).1.complete = true → (cd.piece cache p room m).2.1.pdown = []) := by
  have hquiet : ∀ {w : PeerTable PD}, PeerTable.Quiet cd.toPeerTable w →
      PeerTable.Effect R cd.toPeerTable w := fun h => h.effect hw
  unfold piece
  cases hacc : cd.accepts p with
  | false => exact ⟨hquiet (.refl _), rfl, fun h => Bool.noConfusion h⟩
  | true =>
    simp only [Bool.true_eq_false, if_false]
    have hremove := PeerTable.quiet_modifyStatus cd.toPeerTable p.pd
      (·.remove (p.offset / maxPieceLen))
    have hrefused := hquiet (hremove.trans (PeerTable.quiet_sendRequests cd.toPieceTable _ room))
    rcases cache.getPiece m p.offset p.data.length false with ⟨_ | r, m₁⟩
    · exact ⟨hrefused, rfl, fun h => Bool.noConfusion h⟩
    · dsimp only
      rcases cache.write m₁ r p.data with ⟨_ | _, m₂⟩
      · exact ⟨hrefused, rfl, fun h => Bool.noConfusion h⟩
      · dsimp only
        have hindex := updateHash_index cache
          (cd.toPieceTable.addPiece (p.offset / maxPieceLen) r) m₂
        generalize (cd.toPieceTable.addPiece (p.offset / maxPieceLen) r).updateHash cache m₂ = u
          at hindex ⊢
        have hprovider := hremove.trans (PeerTable.quiet_addProvider _ (some p.pd))
        set w := (cd.toPeerTable.modifyStatus p.pd (·.remove (p.offset / maxPieceLen))).addProvider
          (some p.pd)
        have hendgame : PeerTable.Quiet cd.toPeerTable
            (if w.pdown.length > 1 then w.endgameCancel p else w) := by
          split
          · exact hprovider.trans (PeerTable.quiet_endgameCancel w p)
          · exact hprovider
        split
        · exact ⟨(hquiet hendgame).trans
            (PeerTable.releaseAllPDs_effect _ (hendgame.wellFormed hw)), hindex, fun _ => rfl⟩
        · exact ⟨hquiet (hendgame.trans (PeerTable.quiet_sendRequests _ _ room)), hindex,
            fun h => Bool.noConfusion h⟩

end ChunkDownload

end KTorrent
