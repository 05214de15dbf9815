import KTorrent.Download.RequestLaw
import KTorrent.Peer.RequestQueue

/-!
# What a chunk download does to one peer downloader

The operations of a chunk download, seen from one piece downloader: which calls
change its lists, and which pieces are recorded as requested from it.

* `asked` — the pieces in the `DownloadStatus` of a piece downloader.
* `Told` — the calls an operation makes on it, and what is recorded afterwards.
* `told_sendRequests`, `told_sendCancels`, `told_endgameCancel`, … — the operations
  of this kind, one lemma each.
-/

namespace KTorrent

variable {PD M : Type} [DecidableEq PD]

/-- A call that changes the lists of a peer downloader. -/
inductive QueueCall (PD : Type) where
  | download (r : Request PD)
  | cancel (r : Request PD)
  deriving DecidableEq, Repr

/-- What a call does to the lists of `me`. -/
def PdCall.onQueue (me : PD) : PdCall PD → Option (QueueCall PD)
  | .download pd r => if pd = me then some (.download r) else none
  | .cancel pd r => if pd = me then some (.cancel r) else none
  | _ => none

/-- The key of the request for piece `i`. -/
def PieceTable.key (t : PieceTable) (i : ℕ) : ℕ × ℕ × ℕ :=
  (t.index, u32 (i * maxPieceLen), if i + 1 < t.num then maxPieceLen else t.lastSize)

namespace PeerTable

variable {t : PieceTable} {w w' w'' : PeerTable PD} {me pd : PD} {room : PD → ℕ}

omit [DecidableEq PD] in
theorem key_requestFor (t : PieceTable) (i : ℕ) (pd : Option PD) :
    (requestFor t i pd).key = t.key i := rfl

/-- The pieces recorded as requested from a piece downloader. -/
def asked (w : PeerTable PD) (me : PD) : Option (List ℕ) := (w.findStatus me).map (·.status)

/-- A piece downloader has a status exactly while it is assigned. -/
def Known (me : PD) (w : PeerTable PD) : Prop := me ∈ w.pdown ↔ (w.asked me).isSome = true

/-- The calls on `me` that `w'` has logged and `w` has not. -/
def callsOn (me : PD) (w w' : PeerTable PD) : List (QueueCall PD) :=
  (w'.log.drop w.log.length).filterMap (PdCall.onQueue me)

/-- From `w` to `w'`, the calls `cs` were made on `me`. -/
def Calls (me : PD) (w w' : PeerTable PD) (cs : List (QueueCall PD)) : Prop :=
  ∃ calls, w'.log = w.log ++ calls ∧ calls.filterMap (PdCall.onQueue me) = cs

theorem Calls.callsOn {cs : List (QueueCall PD)} (h : Calls me w w' cs) : callsOn me w w' = cs := by
  obtain ⟨calls, hlog, rfl⟩ := h
  rw [PeerTable.callsOn, hlog, List.drop_left]

theorem Calls.refl (me : PD) (w : PeerTable PD) : Calls me w w [] :=
  ⟨[], (List.append_nil _).symm, rfl⟩

theorem Calls.trans {cs cs' : List (QueueCall PD)} (h : Calls me w w' cs)
    (h' : Calls me w' w'' cs') : Calls me w w'' (cs ++ cs') := by
  obtain ⟨calls, hlog, rfl⟩ := h
  obtain ⟨calls', hlog', rfl⟩ := h'
  exact ⟨calls ++ calls', by rw [hlog', hlog, List.append_assoc], List.filterMap_append ..⟩

/-- The log did not change. -/
theorem Calls.of_log (h : w'.log = w.log) : Calls me w w' [] :=
  ⟨[], by rw [h, List.append_nil], rfl⟩

theorem calls_call (w : PeerTable PD) (c : PdCall PD) : Calls me w (w.call c) (c.onQueue me).toList :=
  ⟨[c], rfl, by cases h : c.onQueue me <;> simp [h]⟩

/-! ## The status table -/

@[simp] theorem findStatus_call (w : PeerTable PD) (c : PdCall PD) (me : PD) :
    (w.call c).findStatus me = w.findStatus me := rfl

theorem findStatus_modifyStatus (w : PeerTable PD) (pd me : PD)
    (f : DownloadStatus → DownloadStatus) :
    (w.modifyStatus pd f).findStatus me =
      if me = pd then (w.findStatus me).map f else w.findStatus me := by
  rw [findStatus, findStatus, modifyStatus]
  dsimp only
  induction w.dstatus with
  | nil => simp
  | cons e es ih =>
    rw [List.map_cons]
    by_cases he : e.1 = me
    · by_cases hpd : e.1 = pd
      · rw [if_pos hpd, List.find?_cons_of_pos (by simpa using he),
          List.find?_cons_of_pos (by simpa using he), if_pos (by rw [← he, hpd])]
        rfl
      · rw [if_neg hpd, List.find?_cons_of_pos (by simpa using he),
          List.find?_cons_of_pos (by simpa using he), if_neg (by rw [← he]; exact hpd)]
    · rw [List.find?_cons_of_neg (by split <;> simpa using he),
        List.find?_cons_of_neg (by simpa using he)]
      exact ih

theorem findStatus_eraseStatus (w : PeerTable PD) (pd me : PD) :
    (w.eraseStatus pd).findStatus me = if me = pd then none else w.findStatus me := by
  rw [findStatus, findStatus, eraseStatus]
  dsimp only
  induction w.dstatus with
  | nil => simp
  | cons e es ih =>
    by_cases hpd : e.1 = pd
    · rw [List.filter_cons_of_neg (by simpa using hpd), ih]
      by_cases hme : me = pd
      · rw [if_pos hme, if_pos hme]
      · rw [if_neg hme, if_neg hme, List.find?_cons_of_neg]
        simpa [hpd] using fun h : pd = me => hme h.symm
    · rw [List.filter_cons_of_pos (by simpa using hpd)]
      by_cases he : e.1 = me
      · rw [List.find?_cons_of_pos (by simpa using he), List.find?_cons_of_pos (by simpa using he),
          if_neg (by rw [← he]; exact hpd)]
      · rw [List.find?_cons_of_neg (by simpa using he), List.find?_cons_of_neg (by simpa using he)]
        exact ih

/-- An operation that only makes calls leaves what is recorded. -/
@[simp] theorem asked_call (w : PeerTable PD) (c : PdCall PD) (me : PD) :
    (w.call c).asked me = w.asked me := rfl

theorem asked_modifyStatus_ne (h : me ≠ pd) (f : DownloadStatus → DownloadStatus) :
    (w.modifyStatus pd f).asked me = w.asked me := by
  rw [asked, findStatus_modifyStatus, if_neg h, asked]

theorem asked_modifyStatus_self (f : DownloadStatus → DownloadStatus) (g : List ℕ → List ℕ)
    (hfg : ∀ ds, (f ds).status = g ds.status) :
    (w.modifyStatus me f).asked me = (w.asked me).map g := by
  rw [asked, findStatus_modifyStatus, if_pos rfl, asked, Option.map_map, Option.map_map]
  congr 1
  funext ds
  exact hfg ds

/-! ## Told -/

/-- The calls on `me` and what is recorded of it afterwards. -/
structure Told (me : PD) (w w' : PeerTable PD) (cs : List (QueueCall PD))
    (view : Option (List ℕ)) : Prop where
  calls : Calls me w w' cs
  asked : w'.asked me = view
  known : Known me w'

/-- Nothing that concerns `me` changed. -/
theorem Told.same (hlog : w'.log = w.log) (hasked : w'.asked me = w.asked me)
    (hpdown : me ∈ w'.pdown ↔ me ∈ w.pdown) (hknown : Known me w) :
    Told me w w' [] (w.asked me) :=
  ⟨.of_log hlog, hasked, by rw [Known, hpdown, hasked]; exact hknown⟩

theorem Told.refl (hknown : Known me w) : Told me w w [] (w.asked me) :=
  .same rfl rfl Iff.rfl hknown

theorem Told.trans {cs cs' : List (QueueCall PD)} {view view' : Option (List ℕ)}
    (h : Told me w w' cs view) (h' : Told me w' w'' cs' view') :
    Told me w w'' (cs ++ cs') view' :=
  ⟨h.calls.trans h'.calls, h'.asked, h'.known⟩

/-- A call is made, and what is recorded stays. -/
theorem told_call (hknown : Known me w) (c : PdCall PD) :
    Told me w (w.call c) (c.onQueue me).toList (w.asked me) :=
  ⟨calls_call w c, rfl, hknown⟩

/-- The status of a piece downloader is changed. -/
theorem told_modifyStatus (hknown : Known me w) (pd : PD) (f : DownloadStatus → DownloadStatus)
    (g : List ℕ → List ℕ) (hfg : ∀ ds, (f ds).status = g ds.status) :
    Told me w (w.modifyStatus pd f) [] (if me = pd then (w.asked me).map g else w.asked me) := by
  have hasked : (w.modifyStatus pd f).asked me =
      if me = pd then (w.asked me).map g else w.asked me := by
    split
    · rename_i h
      subst h
      exact asked_modifyStatus_self f g hfg
    · rename_i h
      exact asked_modifyStatus_ne h f
  refine ⟨.of_log rfl, hasked, ?_⟩
  rw [Known, hasked]
  exact Iff.trans hknown (by split <;> simp)

/-! ## Requests are sent -/

/-- The search finds a piece that is missing and not recorded. -/
theorem searchBest_open (t : PieceTable) (w : PeerTable PD) (pd : PD) :
    ∀ (is : List ℕ) (best : Option (ℕ × ℕ)),
      (∀ b ∈ best, t.pieces b.1 = false ∧ ∀ l, w.asked pd = some l → b.1 ∉ l) →
        searchBest t w pd is best < t.num →
          t.pieces (searchBest t w pd is best) = false ∧
            ∀ l, w.asked pd = some l → searchBest t w pd is best ∉ l := by
  intro is
  induction is with
  | nil =>
    intro best hbest hlt
    rw [searchBest] at hlt ⊢
    cases best with
    | none => exact absurd hlt (lt_irrefl _)
    | some b => exact hbest b rfl
  | cons i is ih =>
    intro best hbest hlt
    rw [searchBest] at hlt ⊢
    by_cases hpiece : t.pieces i = true
    · rw [if_pos hpiece] at hlt ⊢
      exact ih best hbest hlt
    · rw [if_neg hpiece] at hlt ⊢
      by_cases hcontains : ((w.findStatus pd).map (·.contains i)).getD false = true
      · rw [if_pos hcontains] at hlt ⊢
        exact ih best hbest hlt
      · rw [if_neg hcontains] at hlt ⊢
        have hopen : t.pieces i = false ∧ ∀ l, w.asked pd = some l → i ∉ l := by
          refine ⟨by simpa using hpiece, fun l hl hi => hcontains ?_⟩
          obtain ⟨ds, hds, rfl⟩ := Option.map_eq_some_iff.1 hl
          rw [hds]
          exact decide_eq_true hi
        dsimp only at hlt ⊢
        by_cases htimes : w.timesDownloading pd i = 0
        · rw [if_pos htimes] at hlt ⊢
          exact hopen
        · rw [if_neg htimes] at hlt ⊢
          cases best with
          | none => exact ih _ (fun b hb => by obtain rfl := Option.some.inj hb; exact hopen) hlt
          | some b =>
            obtain ⟨b, count⟩ := b
            refine ih _ (fun b' hb' => ?_) hlt
            split at hb'
            · obtain rfl := Option.some.inj hb'
              exact hopen
            · obtain rfl := Option.some.inj hb'
              exact hbest (b, count) rfl

/-- Requests for missing pieces that were not recorded are sent to `me`, each of them
once, and recorded. -/
structure Sends (t : PieceTable) (me : PD) (w w' : PeerTable PD) (is : List ℕ) : Prop where
  told : Told me w w' (is.map fun i => .download (requestFor t i (some me)))
    ((w.asked me).map (· ++ is))
  nodup : is.Nodup
  missing : ∀ i ∈ is, i < t.num ∧ t.pieces i = false
  fresh : ∀ l, w.asked me = some l → ∀ i ∈ is, i ∉ l
  /-- Nobody is asked who is not assigned. -/
  assigned : w.asked me = none → is = []

theorem Sends.refl (t : PieceTable) (hknown : Known me w) : Sends t me w w [] :=
  ⟨⟨.refl me w, by cases w.asked me <;> simp, hknown⟩, List.nodup_nil, by simp, by simp,
    fun _ => rfl⟩

/-- Nothing that concerns `me` changed. -/
theorem Sends.of_told (t : PieceTable) (h : Told me w w' [] (w.asked me)) : Sends t me w w' [] :=
  ⟨⟨h.calls, by rw [h.asked]; cases w.asked me <;> simp, h.known⟩, List.nodup_nil, by simp,
    by simp, fun _ => rfl⟩

theorem Sends.trans {is is' : List ℕ} (h : Sends t me w w' is) (h' : Sends t me w' w'' is') :
    Sends t me w w'' (is ++ is') := by
  have hasked := h.told.asked
  refine ⟨?_, ?_, ?_, ?_, ?_⟩
  · have htold := h.told.trans h'.told
    rw [← List.map_append] at htold
    refine ⟨htold.calls, ?_, htold.known⟩
    rw [htold.asked, hasked, Option.map_map]
    congr 1
    funext l
    exact List.append_assoc ..
  · refine List.nodup_append.2 ⟨h.nodup, h'.nodup, ?_⟩
    rintro i hi j hj rfl
    -- what was sent before is recorded now
    cases hw : w.asked me with
    | none =>
      rw [h.assigned hw] at hi
      cases hi
    | some l =>
      rw [hw] at hasked
      exact h'.fresh (l ++ is) hasked i hj (List.mem_append_right _ hi)
  · intro i hi
    exact (List.mem_append.1 hi).elim (h.missing i) (h'.missing i)
  · intro l hl i hi hmem
    rw [hl] at hasked
    rcases List.mem_append.1 hi with hi | hi
    · exact h.fresh l hl i hi hmem
    · exact h'.fresh (l ++ is) hasked i hi (List.mem_append_left _ hmem)
  · intro hnone
    rw [hnone] at hasked
    rw [h.assigned hnone, h'.assigned hasked, List.append_nil]

theorem sends_sendRequest (hknown : Known me w) (h : sendRequest t w pd = some w') :
    ∃ is, Sends t me w w' is := by
  obtain ⟨hlt, rfl⟩ := sendRequest_request h
  have hsome : ∃ ds, w.findStatus pd = some ds := by
    rw [sendRequest] at h
    cases hds : w.findStatus pd with
    | none => simp [hds] at h
    | some ds => exact ⟨ds, rfl⟩
  obtain ⟨hmissing, hfresh⟩ := searchBest_open t w pd (List.range t.num) none (by simp) hlt
  have hopen : t.pieces (bestPiece t w pd) = false ∧
      ∀ l, w.asked pd = some l → bestPiece t w pd ∉ l := ⟨hmissing, hfresh⟩
  obtain ⟨b, hb⟩ : ∃ b, b = bestPiece t w pd := ⟨_, rfl⟩
  rw [← hb] at hlt hopen ⊢
  have hadd := (told_call hknown (.download pd (requestFor t b (some pd)))).trans
    (told_modifyStatus (told_call hknown (.download pd (requestFor t b (some pd)))).known pd
      (·.add b) (fun l => if b ∈ l then l else l ++ [b])
      (fun ds => by simp only [DownloadStatus.add]; split <;> rfl))
  have hsent : Told me w (request t w (pd, b))
      ((PdCall.onQueue me (.download pd (requestFor t b (some pd)))).toList ++ [])
      (if me = pd then (w.asked me).map (fun l => if b ∈ l then l else l ++ [b])
        else w.asked me) := by
    rw [request]
    dsimp only
    split
    · have := hadd.trans (told_call hadd.known (.nearlyDone pd))
      rw [hadd.asked] at this
      simpa [PdCall.onQueue] using this
    · exact hadd
  by_cases hme : me = pd
  · subst hme
    obtain ⟨ds, hds⟩ := hsome
    have hasked : w.asked me = some ds.status := by rw [asked, hds]; rfl
    have hnot := hopen.2 _ hasked
    refine ⟨[b], ⟨?_, List.nodup_singleton b, ?_, ?_, ?_⟩⟩
    · rw [if_pos rfl, hasked, Option.map_some, if_neg hnot] at hsent
      rw [hasked]
      simpa [PdCall.onQueue] using hsent
    · intro i hi
      obtain rfl := List.mem_singleton.1 hi
      exact ⟨hlt, hopen.1⟩
    · intro l hl i hi
      obtain rfl := List.mem_singleton.1 hi
      exact hopen.2 l hl
    · intro hnone
      rw [hasked] at hnone
      cases hnone
  · rw [if_neg hme] at hsent
    refine ⟨[], Sends.of_told t ?_⟩
    simpa [PdCall.onQueue, Ne.symm hme] using hsent

theorem sends_sendRound : ∀ (pds : List PD) (w : PeerTable PD) (room : PD → ℕ), Known me w →
    ∃ is, Sends t me w (sendRound t pds w room).2.1 is := by
  intro pds
  induction pds with
  | nil => exact fun w room hknown => ⟨[], Sends.refl t hknown⟩
  | cons pd pds ih =>
    intro w room hknown
    rw [sendRound]
    split
    · exact ih w room hknown
    · rename_i w' hw'
      have hsent : ∃ is, Sends t me w w' is := by
        split at hw'
        · exact sends_sendRequest hknown hw'
        · cases hw'
      obtain ⟨is, his⟩ := hsent
      obtain ⟨is', his'⟩ := ih w' (Function.update room pd (room pd - 1)) his.told.known
      exact ⟨is ++ is', his.trans his'⟩

theorem sends_sendRounds : ∀ (fuel : ℕ) (pds : List PD) (w : PeerTable PD) (room : PD → ℕ),
    Known me w → ∃ is, Sends t me w (sendRounds t fuel pds w room) is := by
  intro fuel
  induction fuel with
  | zero => exact fun pds w room hknown => ⟨[], Sends.refl t hknown⟩
  | succ fuel ih =>
    intro pds w room hknown
    cases pds with
    | nil => exact ⟨[], Sends.refl t hknown⟩
    | cons pd pds =>
      obtain ⟨is, his⟩ := sends_sendRound (t := t) (pd :: pds) w room hknown
      obtain ⟨is', his'⟩ := ih _ _ (sendRound t (pd :: pds) w room).2.2 his.told.known
      exact ⟨is ++ is', his.trans his'⟩

/-- **`sendRequests`** records what it sends. -/
theorem sends_sendRequests (t : PieceTable) (room : PD → ℕ) (hknown : Known me w) :
    ∃ is, Sends t me w (w.sendRequests t room) is := sends_sendRounds _ _ _ _ hknown

/-! ## Requests are cancelled -/

/-- The cancels of `sendCancels` for the pieces `l`. -/
def cancels (t : PieceTable) (l : List ℕ) : List (QueueCall PD) :=
  l.map fun i => .cancel (requestFor t i none)

theorem told_foldl_cancel (t : PieceTable) (pd : PD) : ∀ (l : List ℕ) (w : PeerTable PD),
    Known me w →
      Told me w (l.foldl (fun w i => w.call (.cancel pd (requestFor t i none))) w)
        (if me = pd then cancels t l else []) (w.asked me) := by
  intro l
  induction l with
  | nil =>
    intro w hknown
    have := Told.refl hknown
    simpa [cancels] using this
  | cons i l ih =>
    intro w hknown
    have hcall := told_call hknown (.cancel pd (requestFor t i none))
    have := hcall.trans (ih _ hcall.known)
    rw [List.foldl_cons]
    by_cases hme : me = pd
    · simpa [PdCall.onQueue, hme, cancels] using this
    · simpa [PdCall.onQueue, hme, Ne.symm hme] using this

/-- **`sendCancels`** cancels what is recorded. -/
theorem told_sendCancels (t : PieceTable) (pd : PD) (hknown : Known me w) :
    Told me w (w.sendCancels t pd)
      (if me = pd then cancels t ((w.asked me).getD []) else [])
      (if me = pd then (w.asked me).map fun _ => [] else w.asked me) := by
  rw [sendCancels]
  cases hds : w.findStatus pd with
  | none =>
    have hsame := Told.refl hknown
    by_cases hme : me = pd
    · subst hme
      have hnone : w.asked me = none := by rw [asked, hds]; rfl
      rw [hnone] at hsame ⊢
      simpa [cancels] using hsame
    · simpa [hme] using hsame
  | some ds =>
    have hfold := told_foldl_cancel t pd ds.status w hknown
    have htold := hfold.trans (told_modifyStatus hfold.known pd DownloadStatus.clear (fun _ => [])
      fun _ => rfl)
    rw [hfold.asked, List.append_nil] at htold
    by_cases hme : me = pd
    · subst hme
      have hasked : w.asked me = some ds.status := by rw [asked, hds]; rfl
      simpa [hasked] using htold
    · simpa [hme] using htold

/-- A piece downloader is taken off both tables. -/
theorem told_letGo (hknown : Known me w) (pd : PD) :
    Told me w { w.eraseStatus pd with pdown := w.pdown.filter (· ≠ pd) } []
      (if me = pd then none else w.asked me) := by
  have hasked : ({ w.eraseStatus pd with pdown := w.pdown.filter (· ≠ pd) } : PeerTable PD).asked me =
      if me = pd then none else w.asked me := by
    have := findStatus_eraseStatus w pd me
    rw [asked]
    change ((w.eraseStatus pd).findStatus me).map _ = _
    rw [this]
    split <;> rfl
  refine ⟨.of_log rfl, hasked, ?_⟩
  rw [Known, hasked]
  by_cases hme : me = pd
  · simp [hme]
  · simp only [List.mem_filter, hme, decide_not, decide_false, Bool.not_false, and_true, if_false]
    exact hknown

theorem mem_pdown_sendCancels (t : PieceTable) (w : PeerTable PD) (pd : PD) :
    (w.sendCancels t pd).pdown = w.pdown := (quiet_sendCancels t w pd).pdown

/-- **`release`** cancels what is recorded, and records nothing more. -/
theorem told_release (t : PieceTable) (pd : PD) (hknown : Known me w) :
    Told me w (w.release t pd) (if me = pd then cancels t ((w.asked me).getD []) else [])
      (if me = pd then none else w.asked me) := by
  rw [release]
  split
  · have hcall := told_call hknown (.release pd)
    have hcancel := told_sendCancels t pd hcall.known
    have hgo := hcall.trans (hcancel.trans (told_letGo hcancel.known pd))
    rw [hcancel.asked, asked_call] at hgo
    by_cases hme : me = pd
    · simpa [PdCall.onQueue, hme] using hgo
    · simpa [PdCall.onQueue, hme] using hgo
  · rename_i hnot
    have hsame := Told.refl hknown
    by_cases hme : me = pd
    · subst hme
      have hnone : w.asked me = none := by
        rw [← Option.not_isSome_iff_eq_none]
        exact fun h => hnot (hknown.2 h)
      rw [hnone] at hsame ⊢
      simpa [cancels] using hsame
    · simpa [hme] using hsame

/-- A piece downloader whose request was not answered is let go. -/
theorem told_dropPD (t : PieceTable) (pd : PD) (hknown : Known me w) (hpd : pd ∈ w.pdown) :
    Told me w (w.dropPD t pd) (if me = pd then cancels t ((w.asked me).getD []) else [])
      (if me = pd then none else w.asked me) := by
  have hcall := told_call hknown (.release pd)
  have hcancel := told_sendCancels t pd hcall.known
  have hgo := hcall.trans (hcancel.trans (told_letGo hcancel.known pd))
  have hmem : pd ∈ (sendCancels t (w.call (.release pd)) pd).pdown := by
    rw [mem_pdown_sendCancels]
    exact hpd
  rw [dropPD, killed, if_pos hmem]
  rw [hcancel.asked, asked_call] at hgo
  by_cases hme : me = pd
  · simpa [PdCall.onQueue, hme] using hgo
  · simpa [PdCall.onQueue, hme] using hgo

/-- The loop of `releaseAllPDs`. -/
theorem told_foldl_release (t : PieceTable) : ∀ (pds : List PD) (w : PeerTable PD), Known me w →
    Told me w (pds.foldl (fun w pd => sendCancels t (w.call (.release pd)) pd) w)
      (if me ∈ pds then cancels t ((w.asked me).getD []) else [])
      (if me ∈ pds then (w.asked me).map fun _ => [] else w.asked me) := by
  intro pds
  induction pds with
  | nil =>
    intro w hknown
    simpa using Told.refl hknown
  | cons pd pds ih =>
    intro w hknown
    have hcall := told_call hknown (.release pd)
    have hcancel := told_sendCancels t pd hcall.known
    have htold := (hcall.trans hcancel).trans (ih _ hcancel.known)
    rw [hcancel.asked, asked_call] at htold
    rw [List.foldl_cons]
    by_cases hme : me = pd
    · subst hme
      cases hasked : w.asked me <;> simpa [PdCall.onQueue, hasked, cancels] using htold
    · simpa [PdCall.onQueue, hme] using htold

/-- **`releaseAllPDs`** cancels what is recorded of everybody. -/
theorem told_releaseAllPDs (t : PieceTable) (hknown : Known me w) :
    Told me w (w.releaseAllPDs t) (cancels t ((w.asked me).getD [])) none := by
  have hfold := told_foldl_release t w.pdown w hknown
  refine ⟨?_, rfl, ?_⟩
  · obtain ⟨calls, hlog, hcalls⟩ := hfold.calls
    refine ⟨calls, hlog, ?_⟩
    rw [hcalls]
    split
    · rfl
    · rename_i hnot
      have hnone : w.asked me = none := by
        rw [← Option.not_isSome_iff_eq_none]
        exact fun h => hnot (hknown.2 h)
      rw [hnone]
      rfl
  · have hnone : (w.releaseAllPDs t).asked me = none := rfl
    rw [Known, hnone]
    simp [releaseAllPDs]

/-! ## The handlers -/

/-- **`assign`** sends requests to a piece downloader of which nothing was recorded. -/
theorem sends_assign (t : PieceTable) (pd : PD) (room : PD → ℕ) (hknown : Known me w) :
    ∃ w₁ is, Told me w w₁ [] (if me = pd ∧ w.asked me = none then some [] else w.asked me) ∧
      Sends t me w₁ (w.assign t pd room).2 is := by
  rw [assign]
  by_cases hmem : pd ∈ w.pdown
  · have hsame := Told.refl hknown
    rw [if_pos hmem]
    refine ⟨w, [], ?_, Sends.refl t hknown⟩
    rw [if_neg]
    · exact hsame
    · rintro ⟨rfl, hnone⟩
      have := hknown.1 hmem
      rw [hnone] at this
      cases this
  · rw [if_neg hmem]
    dsimp only
    obtain ⟨w₁, hw₁⟩ : ∃ w₁ : PeerTable PD, w₁ = { w.call (.grab pd) with
      pdown := (w.call (.grab pd)).pdown ++ [pd]
      dstatus := ((w.call (.grab pd)).eraseStatus pd).dstatus ++ [(pd, DownloadStatus.new)] } :=
      ⟨_, rfl⟩
    have hasked : w₁.asked me = if me = pd then some [] else w.asked me := by
      rw [asked, findStatus, hw₁]
      dsimp only
      rw [List.find?_append]
      have herase := findStatus_eraseStatus (w.call (.grab pd)) pd me
      rw [findStatus] at herase
      by_cases hme : me = pd
      · subst hme
        rw [if_pos rfl, Option.map_eq_none_iff] at herase
        rw [herase, if_pos rfl]
        simp [DownloadStatus.new]
      · rw [if_neg hme, findStatus_call] at herase
        rw [if_neg hme, Option.map_or, Option.map_or, herase, asked]
        simp [Ne.symm hme]
    have hgrab : Told me w w₁ [] (if me = pd ∧ w.asked me = none then some [] else w.asked me) := by
      have hview : w₁.asked me = if me = pd ∧ w.asked me = none then some [] else w.asked me := by
        rw [hasked]
        by_cases hme : me = pd
        · subst hme
          have hnone : w.asked me = none := by
            rw [← Option.not_isSome_iff_eq_none]
            exact fun h => hmem (hknown.2 h)
          simp [hnone]
        · simp [hme]
      refine ⟨⟨[.grab pd], by rw [hw₁]; rfl, rfl⟩, hview, ?_⟩
      rw [Known, hasked, hw₁]
      by_cases hme : me = pd
      · simp [hme, call]
      · simp only [List.mem_append, List.mem_singleton, hme, or_false, if_false]
        exact hknown
    rw [← hw₁]
    obtain ⟨is, his⟩ := sends_sendRequests t room hgrab.known
    exact ⟨w₁, is, hgrab, his⟩

/-- **A request of another downloader** was not answered: `me` may be asked for more. -/
theorem sends_onNotDownloaded (t : PieceTable) (r : Request PD) (hme : me ≠ pd) (reject : Bool)
    (room : PD → ℕ) (hknown : Known me w) (hkeys : ∀ q ∈ w.dstatus.map Prod.fst, q ∈ w.pdown) :
    ∃ is, Sends t me w (w.onNotDownloaded t r pd reject room) is := by
  have hsend : ∀ {u : PeerTable PD}, Told me w u [] (w.asked me) →
      ∃ is, Sends t me w (u.sendRequests t room) is := fun hu => by
    obtain ⟨is, his⟩ := sends_sendRequests t room hu.known
    exact ⟨is, by simpa using (Sends.of_told t hu).trans his⟩
  have hself := Told.refl hknown
  rw [onNotDownloaded]
  split
  · rw [notDownloaded]
    cases hds : w.findStatus pd with
    | none => exact hsend hself
    | some ds =>
      have hmem : pd ∈ w.pdown := hkeys pd (List.mem_map_of_mem (mem_of_findStatus hds))
      dsimp only
      have hremove := told_modifyStatus hknown pd (·.remove (r.offset / maxPieceLen))
        (·.filter (· ≠ r.offset / maxPieceLen)) fun _ => rfl
      rw [if_neg hme] at hremove
      have hdrop : ∀ {u : PeerTable PD}, Told me w u [] (w.asked me) → pd ∈ u.pdown →
          Told me w (u.dropPD t pd) [] (w.asked me) := fun hu hpd => by
        have := hu.trans (told_dropPD t pd hu.known hpd)
        rw [if_neg hme, if_neg hme, hu.asked] at this
        exact this
      split
      · exact hsend (hdrop hremove hmem)
      · have hcall := hremove.trans (told_call hremove.known (.cancel pd r))
        rw [hremove.asked] at hcall
        have htimeout := hcall.trans (told_modifyStatus hcall.known pd DownloadStatus.timeout id
          fun _ => rfl)
        rw [if_neg hme, hcall.asked] at htimeout
        have hnone : (PdCall.onQueue me (.cancel pd r)).toList = [] := by
          simp [PdCall.onQueue, Ne.symm hme]
        rw [hnone, List.append_nil, List.append_nil] at htimeout
        split
        · exact hsend (hdrop htimeout hmem)
        · exact hsend htimeout
  · exact ⟨[], Sends.refl t hknown⟩

/-- **A request to `me` was not answered**: everything else that is recorded of it is
cancelled, and it is let go. -/
theorem told_onNotDownloaded (t : PieceTable) (r : Request PD) (hindex : t.index = r.index)
    (reject : Bool) (room : PD → ℕ) (hknown : Known me w) {l : List ℕ} (hl : w.asked me = some l) :
    Told me w (w.onNotDownloaded t r me reject room)
      ((if reject then [] else [.cancel r]) ++ cancels t (l.filter (· ≠ r.offset / maxPieceLen)))
      none := by
  have hmem : me ∈ w.pdown := hknown.2 (by rw [hl]; rfl)
  have hsend : ∀ {u : PeerTable PD} {cs : List (QueueCall PD)}, Told me w u cs none →
      Told me w (u.sendRequests t room) cs none := fun {u cs} hu => by
    obtain ⟨is, his⟩ := sends_sendRequests t room hu.known
    have := hu.trans his.told
    rw [his.assigned hu.asked, hu.asked] at this
    simpa using this
  rw [onNotDownloaded, if_pos hindex, notDownloaded]
  obtain ⟨ds, hds, rfl⟩ := Option.map_eq_some_iff.1 hl
  rw [hds]
  dsimp only
  have hremove := told_modifyStatus hknown me (·.remove (r.offset / maxPieceLen))
    (·.filter (· ≠ r.offset / maxPieceLen)) fun _ => rfl
  rw [if_pos rfl, hl, Option.map_some] at hremove
  have hdrop : ∀ {u : PeerTable PD} {cs : List (QueueCall PD)},
      Told me w u cs (some (ds.status.filter (· ≠ r.offset / maxPieceLen))) → me ∈ u.pdown →
        Told me w (u.dropPD t me)
          (cs ++ cancels t (ds.status.filter (· ≠ r.offset / maxPieceLen))) none :=
    fun {u cs} hu hpd => by
      have := hu.trans (told_dropPD t me hu.known hpd)
      rw [if_pos rfl, if_pos rfl, hu.asked, Option.getD_some] at this
      exact this
  cases reject with
  | true =>
    simp only [if_true]
    exact hsend (hdrop hremove hmem)
  | false =>
    simp only [Bool.false_eq_true, if_false]
    have hcall := hremove.trans (told_call hremove.known (.cancel me r))
    rw [hremove.asked] at hcall
    have htimeout := hcall.trans (told_modifyStatus hcall.known me DownloadStatus.timeout id
      fun _ => rfl)
    rw [if_pos rfl, hcall.asked] at htimeout
    have hcs : (PdCall.onQueue me (.cancel me r)).toList = [.cancel r] := by simp [PdCall.onQueue]
    rw [hcs, List.append_nil, List.nil_append] at htimeout
    rw [if_pos]
    · exact hsend (hdrop (by simpa using htimeout) hmem)
    · exact List.length_pos_of_mem (a := me) hmem

/-! ## A piece arrives -/

/-- The cancels of `endgameCancel` on one downloader. -/
def endgameCalls (p : Piece PD) (view : Option (List ℕ)) : List (QueueCall PD) :=
  if p.offset / maxPieceLen ∈ view.getD [] then
    [.cancel ⟨p.index, p.offset, p.data.length, some p.pd⟩]
  else []

theorem told_foldl_endgame (p : Piece PD) : ∀ (pds : List PD) (w : PeerTable PD), Known me w →
    Told me w (pds.foldl (fun w pd =>
        match w.findStatus pd with
        | none => w
        | some ds =>
          if ds.contains (p.offset / maxPieceLen) then
            (w.call (.cancel pd ⟨p.index, p.offset, p.data.length, some p.pd⟩)).modifyStatus pd
              (·.remove (p.offset / maxPieceLen))
          else w) w)
      (if me ∈ pds then endgameCalls p (w.asked me) else [])
      (if me ∈ pds then (w.asked me).map (·.filter (· ≠ p.offset / maxPieceLen))
        else w.asked me) := by
  intro pds
  induction pds with
  | nil =>
    intro w hknown
    simpa using Told.refl hknown
  | cons pd pds ih =>
    intro w hknown
    have hself := Told.refl hknown
    -- one piece downloader
    have hone : Told me w
        (match w.findStatus pd with
          | none => w
          | some ds =>
            if ds.contains (p.offset / maxPieceLen) then
              (w.call (.cancel pd ⟨p.index, p.offset, p.data.length, some p.pd⟩)).modifyStatus pd
                (·.remove (p.offset / maxPieceLen))
            else w)
        (if me = pd then endgameCalls p (w.asked me) else [])
        (if me = pd then (w.asked me).map (·.filter (· ≠ p.offset / maxPieceLen))
          else w.asked me) := by
      cases hds : w.findStatus pd with
      | none =>
        by_cases hme : me = pd
        · subst hme
          have hnone : w.asked me = none := by rw [asked, hds]; rfl
          rw [hnone] at hself ⊢
          simpa [endgameCalls] using hself
        · simpa [hme] using hself
      | some ds =>
        dsimp only
        have hcall := told_call hknown
          (.cancel pd ⟨p.index, p.offset, p.data.length, some p.pd⟩)
        have hremove := hcall.trans (told_modifyStatus hcall.known pd
          (·.remove (p.offset / maxPieceLen)) (·.filter (· ≠ p.offset / maxPieceLen)) fun _ => rfl)
        rw [hcall.asked, List.append_nil] at hremove
        by_cases hme : me = pd
        · subst hme
          have hasked : w.asked me = some ds.status := by rw [asked, hds]; rfl
          rw [hasked] at hself hremove ⊢
          by_cases hmem : p.offset / maxPieceLen ∈ ds.status
          · rw [if_pos (show ds.contains (p.offset / maxPieceLen) = true from decide_eq_true hmem)]
            simpa [endgameCalls, hmem, PdCall.onQueue] using hremove
          · rw [if_neg (by simpa [DownloadStatus.contains] using hmem)]
            have hfilter : ds.status.filter (· ≠ p.offset / maxPieceLen) = ds.status := by
              rw [List.filter_eq_self]
              intro i hi
              simpa using fun h : i = p.offset / maxPieceLen => hmem (h ▸ hi)
            simp only [if_true, Option.map_some, hfilter, endgameCalls, Option.getD_some, hmem,
              if_false]
            exact hself
        · split
          · simpa [PdCall.onQueue, hme, Ne.symm hme] using hremove
          · simpa [hme] using hself
    have htold := hone.trans (ih _ hone.known)
    rw [hone.asked] at htold
    rw [List.foldl_cons]
    by_cases hme : me = pd
    · subst hme
      have hidem : ∀ v : Option (List ℕ),
          (v.map (·.filter (· ≠ p.offset / maxPieceLen))).map
            (·.filter (· ≠ p.offset / maxPieceLen)) =
              v.map (·.filter (· ≠ p.offset / maxPieceLen)) := by
        intro v
        cases v <;> simp
      have hnone : ∀ v : Option (List ℕ),
          endgameCalls p (v.map (·.filter (· ≠ p.offset / maxPieceLen))) = [] := by
        intro v
        cases v <;> simp [endgameCalls]
      rw [if_pos rfl, if_pos rfl, hidem, hnone, ite_self, ite_self, List.append_nil] at htold
      rw [if_pos (by simp), if_pos (by simp)]
      exact htold
    · simpa [hme] using htold

/-- **`endgameCancel`** cancels the request for the piece that arrived. -/
theorem told_endgameCancel (p : Piece PD) (hknown : Known me w) :
    Told me w (w.endgameCancel p) (endgameCalls p (w.asked me))
      ((w.asked me).map (·.filter (· ≠ p.offset / maxPieceLen))) := by
  have htold := told_foldl_endgame p w.pdown w hknown
  by_cases hmem : me ∈ w.pdown
  · rw [if_pos hmem, if_pos hmem] at htold
    exact htold
  · have hnone : w.asked me = none := by
      rw [← Option.not_isSome_iff_eq_none]
      exact fun h => hmem (hknown.2 h)
    have hcalls : endgameCalls p (none : Option (List ℕ)) = [] := by simp [endgameCalls]
    rw [if_neg hmem, if_neg hmem, hnone] at htold
    rw [hnone, hcalls]
    exact htold

end PeerTable

end KTorrent
