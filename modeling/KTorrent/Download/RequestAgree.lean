import KTorrent.Download.BytesLaw
import KTorrent.Download.RequestBooks

/-!
# The two records of a request agree

A chunk download and the peer downloader it asks keep the same requests.

* `Fresh`, `keys_play` — which requests are outstanding after a row of calls.
* `Agree` — the outstanding requests of a chunk are recorded, and what is recorded of a
  missing piece is outstanding.
* `Agree.cancels`, `Agree.sends`, `Agree.remove` — what the calls of the chunk download
  and the messages of the peer leave of it.
* `Coupled` — a chunk download agrees; one lemma for each of its operations.
* `Linked` — all chunk downloads agree with the peer downloader; `linked_step`.
* `Stamped` — the requests stand in the order in which they were sent.
* `allStates_recordsAgree` — the two records agree in every run.
-/

namespace KTorrent

variable {PD M : Type} [DecidableEq PD]

/-! ## Outstanding requests after a row of calls -/

/-- The outstanding requests after a row of calls. -/
def playKeys : List (ℕ × ℕ × ℕ) → List (QueueCall PD) → List (ℕ × ℕ × ℕ)
  | ks, [] => ks
  | ks, .download r :: cs => playKeys (r.key :: ks) cs
  | ks, .cancel r :: cs => playKeys (ks.filter (· ≠ r.key)) cs

/-- No request is made that is outstanding. -/
def Fresh : List (ℕ × ℕ × ℕ) → List (QueueCall PD) → Prop
  | _, [] => True
  | ks, .download r :: cs => r.key ∉ ks ∧ Fresh (r.key :: ks) cs
  | ks, .cancel r :: cs => Fresh (ks.filter (· ≠ r.key)) cs

omit [DecidableEq PD] in
theorem playKeys_append : ∀ (cs : List (QueueCall PD)) (ks : List (ℕ × ℕ × ℕ))
    (cs' : List (QueueCall PD)), playKeys ks (cs ++ cs') = playKeys (playKeys ks cs) cs' := by
  intro cs
  induction cs with
  | nil => exact fun ks cs' => rfl
  | cons c cs ih =>
    intro ks cs'
    cases c with
    | download r => exact ih ..
    | cancel r => exact ih ..

omit [DecidableEq PD] in
theorem fresh_append : ∀ (cs : List (QueueCall PD)) (ks : List (ℕ × ℕ × ℕ))
    (cs' : List (QueueCall PD)), Fresh ks cs → Fresh (playKeys ks cs) cs' → Fresh ks (cs ++ cs') := by
  intro cs
  induction cs with
  | nil => exact fun ks cs' _ h => h
  | cons c cs ih =>
    intro ks cs' h h'
    cases c with
    | download r => exact ⟨h.1, ih _ _ h.2 h'⟩
    | cancel r => exact ih _ _ h h'

omit [DecidableEq PD] in
/-- **The calls on the lists** change the outstanding requests as they say. -/
theorem keys_play (maxReqs now : ℕ) : ∀ (cs : List (QueueCall PD)) (q : RequestQueue PD)
    (ks : List (ℕ × ℕ × ℕ)), q.keys.Perm ks → ks.Nodup → Fresh ks cs →
      (q.play maxReqs now cs).keys.Perm (playKeys ks cs) ∧ (playKeys ks cs).Nodup := by
  intro cs
  induction cs with
  | nil => exact fun q ks hperm hnodup _ => ⟨hperm, hnodup⟩
  | cons c cs ih =>
    intro q ks hperm hnodup hfresh
    cases c with
    | download r =>
      exact ih _ _ ((RequestQueue.keys_download maxReqs now r).trans (hperm.cons r.key))
        (List.nodup_cons.2 ⟨hfresh.1, hnodup⟩) hfresh.2
    | cancel r =>
      refine ih _ _ ?_ (hnodup.filter _) hfresh
      change (q.cancel r).keys.Perm _
      rw [RequestQueue.keys_cancel (hperm.nodup_iff.2 hnodup)]
      exact hperm.filter _

/-- The calls are about chunk `c`. -/
def About (c : ℕ) (cs : List (QueueCall PD)) : Prop :=
  ∀ x ∈ cs, match x with
    | .download r => r.key.1 = c
    | .cancel r => r.key.1 = c

omit [DecidableEq PD] in
theorem About.append {c : ℕ} {cs cs' : List (QueueCall PD)} (h : About c cs) (h' : About c cs') :
    About c (cs ++ cs') := fun x hx => (List.mem_append.1 hx).elim (h x) (h' x)

omit [DecidableEq PD] in
/-- The requests of other chunks stay. -/
theorem mem_playKeys_other {c : ℕ} {k : ℕ × ℕ × ℕ} (hk : k.1 ≠ c) :
    ∀ (cs : List (QueueCall PD)) (ks : List (ℕ × ℕ × ℕ)), About c cs →
      (k ∈ playKeys ks cs ↔ k ∈ ks) := by
  intro cs
  induction cs with
  | nil => exact fun ks _ => Iff.rfl
  | cons x cs ih =>
    intro ks habout
    have hrest : About c cs := fun y hy => habout y (List.mem_cons_of_mem x hy)
    have hx := habout x List.mem_cons_self
    cases x with
    | download r =>
      have hne : k ≠ r.key := fun h => hk (h ▸ hx)
      rw [playKeys, ih _ hrest, List.mem_cons]
      simp [hne]
    | cancel r =>
      have hne : k ≠ r.key := fun h => hk (h ▸ hx)
      rw [playKeys, ih _ hrest, List.mem_filter]
      simp [hne]

/-! ## One chunk -/

/-- The outstanding requests of a chunk are recorded, and what is recorded of a missing
piece is outstanding. -/
structure Agree (t : PieceTable) (view : Option (List ℕ)) (ks : List (ℕ × ℕ × ℕ)) : Prop where
  recorded : ∀ k ∈ ks, k.1 = t.index → ∃ l, view = some l ∧ ∃ i ∈ l, i < t.num ∧ k = t.key i
  outstanding : ∀ l, view = some l → ∀ i ∈ l, i < t.num → t.pieces i = false → t.key i ∈ ks

/-- The pieces of a chunk have different keys: the size of a chunk is a `Uint32`. -/
theorem PieceTable.key_inj {t : PieceTable} (hnum : t.num ≤ 2 ^ 18) {i j : ℕ} (hi : i < t.num)
    (hj : j < t.num) (h : t.key i = t.key j) : i = j := by
  have h2 := congrArg (fun k => k.2.1) h
  simp only [PieceTable.key, maxPieceLen] at h2
  rw [u32_of_lt (by omega), u32_of_lt (by omega)] at h2
  omega

namespace Agree

variable {t t' : PieceTable} {l : List ℕ} {view : Option (List ℕ)} {ks ks' : List (ℕ × ℕ × ℕ)}

/-- Only the outstanding requests themselves count. -/
theorem congr (h : Agree t view ks) (hks : ∀ k, k.1 = t.index → (k ∈ ks' ↔ k ∈ ks)) :
    Agree t view ks' where
  recorded := fun k hk hc => h.recorded k ((hks k hc).1 hk) hc
  outstanding := fun l hl i hi hlt hp => (hks _ rfl).2 (h.outstanding l hl i hi hlt hp)

/-- More pieces are there. -/
theorem pieces (h : Agree t view ks) (hindex : t'.index = t.index) (hnum : t'.num = t.num)
    (hlast : t'.lastSize = t.lastSize) (hpieces : ∀ i, t'.pieces i = false → t.pieces i = false) :
    Agree t' view ks := by
  have hkey : ∀ i, t'.key i = t.key i := fun i => by
    rw [PieceTable.key, PieceTable.key, hindex, hnum, hlast]
  refine ⟨fun k hk hc => ?_, fun l hl i hi hlt hp => ?_⟩
  · obtain ⟨l, hl, i, hi, hlt, rfl⟩ := h.recorded k hk (hc.trans hindex)
    exact ⟨l, hl, i, hi, by rw [hnum]; exact hlt, (hkey i).symm⟩
  · rw [hkey]
    exact h.outstanding l hl i hi (hnum ▸ hlt) (hpieces i hp)

omit [DecidableEq PD] in
theorem fresh_cancels (t : PieceTable) : ∀ (l : List ℕ) (ks : List (ℕ × ℕ × ℕ)),
    Fresh ks (PeerTable.cancels t l : List (QueueCall PD)) := by
  intro l
  induction l with
  | nil => exact fun ks => trivial
  | cons i l ih => exact fun ks => ih _

omit [DecidableEq PD] in
theorem mem_playKeys_cancels (t : PieceTable) (k : ℕ × ℕ × ℕ) : ∀ (l : List ℕ)
    (ks : List (ℕ × ℕ × ℕ)),
    k ∈ playKeys ks (PeerTable.cancels t l : List (QueueCall PD)) ↔
      k ∈ ks ∧ ∀ i ∈ l, k ≠ t.key i := by
  intro l
  induction l with
  | nil => simp [PeerTable.cancels, playKeys]
  | cons i l ih =>
    intro ks
    change k ∈ playKeys (ks.filter (· ≠ t.key i)) (PeerTable.cancels t l) ↔ _
    rw [ih, List.mem_filter]
    simp [and_assoc]

omit [DecidableEq PD] in
theorem about_cancels (t : PieceTable) (l : List ℕ) :
    About t.index (PeerTable.cancels t l : List (QueueCall PD)) := by
  intro x hx
  obtain ⟨i, -, rfl⟩ := List.mem_map.1 hx
  rfl

omit [DecidableEq PD] in
/-- **Everything recorded is cancelled**: nothing of the chunk is outstanding. -/
theorem cancels (h : Agree t (some l) ks) : ∀ k ∈ playKeys ks
    (PeerTable.cancels t l : List (QueueCall PD)), k.1 ≠ t.index := by
  intro k hk hc
  obtain ⟨hmem, hnot⟩ := (mem_playKeys_cancels t k l ks).1 hk
  obtain ⟨l', hl', i, hi, -, rfl⟩ := h.recorded k hmem hc
  obtain rfl := Option.some.inj hl'
  exact hnot i hi rfl

/-- Nothing of the chunk is outstanding. -/
theorem of_none (h : ∀ k ∈ ks, k.1 ≠ t.index) : Agree t none ks where
  recorded := fun k hk hc => absurd hc (h k hk)
  outstanding := fun l hl => by cases hl

theorem of_nil (h : ∀ k ∈ ks, k.1 ≠ t.index) : Agree t (some []) ks where
  recorded := fun k hk hc => absurd hc (h k hk)
  outstanding := fun l hl i hi => by
    obtain rfl := Option.some.inj hl
    cases hi

/-- Nothing recorded is nothing outstanding. -/
theorem none_outstanding (h : Agree t none ks) : ∀ k ∈ ks, k.1 ≠ t.index := fun k hk hc => by
  obtain ⟨l, hl, -⟩ := h.recorded k hk hc
  cases hl

/-- A piece that is no longer outstanding is no longer recorded. -/
theorem remove (h : Agree t view ks) (hnum : t.num ≤ 2 ^ 18) {pp : ℕ} (hpp : pp < t.num)
    (hks : ∀ k, k.1 = t.index → (k ∈ ks' ↔ k ∈ ks ∧ k ≠ t.key pp)) :
    Agree t (view.map (·.filter (· ≠ pp))) ks' := by
  refine ⟨fun k hk hc => ?_, fun l hl i hi hlt hp => ?_⟩
  · obtain ⟨hmem, hne⟩ := (hks k hc).1 hk
    obtain ⟨l, hl, i, hi, hlt, rfl⟩ := h.recorded k hmem hc
    exact ⟨l.filter (· ≠ pp), by rw [hl]; rfl, i,
      List.mem_filter.2 ⟨hi, by simpa using fun hip : i = pp => hne (by rw [hip])⟩, hlt, rfl⟩
  · obtain ⟨l', hl', rfl⟩ := Option.map_eq_some_iff.1 hl
    obtain ⟨hi, hne⟩ := List.mem_filter.1 hi
    have hne : i ≠ pp := by simpa using hne
    exact (hks _ rfl).2 ⟨h.outstanding l' hl' i hi hlt hp,
      fun hk => hne (PieceTable.key_inj hnum hlt hpp hk)⟩

/-! ### Requests that are sent -/

omit [DecidableEq PD] in
theorem about_downloads (t : PieceTable) (is : List ℕ) (pd : Option PD) :
    About t.index (is.map fun i => QueueCall.download (PeerTable.requestFor t i pd)) := by
  intro x hx
  obtain ⟨i, -, rfl⟩ := List.mem_map.1 hx
  rfl

omit [DecidableEq PD] in
theorem mem_playKeys_downloads (t : PieceTable) (pd : Option PD) (k : ℕ × ℕ × ℕ) :
    ∀ (is : List ℕ) (ks : List (ℕ × ℕ × ℕ)),
      k ∈ playKeys ks (is.map fun i => QueueCall.download (PeerTable.requestFor t i pd)) ↔
        k ∈ ks ∨ ∃ i ∈ is, k = t.key i := by
  intro is
  induction is with
  | nil => simp [playKeys]
  | cons i is ih =>
    intro ks
    rw [List.map_cons, playKeys, ih, List.mem_cons, PeerTable.key_requestFor]
    simp [or_assoc, or_comm (a := k = t.key i)]

omit [DecidableEq PD] in
theorem fresh_downloads (hnum : t.num ≤ 2 ^ 18) (pd : Option PD) : ∀ (is : List ℕ)
    (ks : List (ℕ × ℕ × ℕ)), is.Nodup → (∀ i ∈ is, i < t.num) → (∀ i ∈ is, t.key i ∉ ks) →
      Fresh ks (is.map fun i => QueueCall.download (PeerTable.requestFor t i pd)) := by
  intro is
  induction is with
  | nil => exact fun ks _ _ _ => trivial
  | cons i is ih =>
    intro ks hnodup hlt hnot
    rw [List.nodup_cons] at hnodup
    refine ⟨hnot i List.mem_cons_self, ih _ hnodup.2 (fun j hj => hlt j (List.mem_cons_of_mem i hj))
      fun j hj hmem => ?_⟩
    rcases List.mem_cons.1 hmem with heq | hmem
    · have := PieceTable.key_inj hnum (hlt j (List.mem_cons_of_mem i hj))
        (hlt i List.mem_cons_self) heq
      exact hnodup.1 (this ▸ hj)
    · exact hnot j (List.mem_cons_of_mem i hj) hmem

/-- **Requests are sent and recorded.** -/
theorem sends {me : PD} {w w' : PeerTable PD} {is : List ℕ} (hsends : PeerTable.Sends t me w w' is)
    (h : Agree t (w.asked me) ks) (hnum : t.num ≤ 2 ^ 18) :
    Fresh ks (is.map fun i => QueueCall.download (PeerTable.requestFor t i (some me))) ∧
      Agree t (w'.asked me) (playKeys ks
        (is.map fun i => QueueCall.download (PeerTable.requestFor t i (some me)))) := by
  refine ⟨fresh_downloads hnum _ _ _ hsends.nodup (fun i hi => (hsends.missing i hi).1) ?_,
    ⟨fun k hk hc => ?_, fun l hl i hi hlt hp => ?_⟩⟩
  · intro i hi hmem
    obtain ⟨l, hl, j, hj, hjlt, heq⟩ := h.recorded _ hmem rfl
    have := PieceTable.key_inj hnum (hsends.missing i hi).1 hjlt heq
    exact hsends.fresh l hl i hi (this ▸ hj)
  · rw [hsends.told.asked]
    rcases (mem_playKeys_downloads t _ k is ks).1 hk with hmem | ⟨i, hi, rfl⟩
    · obtain ⟨l, hl, i, hi, hlt, rfl⟩ := h.recorded k hmem hc
      exact ⟨l ++ is, by rw [hl]; rfl, i, List.mem_append_left _ hi, hlt, rfl⟩
    · cases hview : w.asked me with
      | none =>
        rw [hsends.assigned hview] at hi
        cases hi
      | some l =>
        exact ⟨l ++ is, rfl, i, List.mem_append_right _ hi, (hsends.missing i hi).1, rfl⟩
  · rw [hsends.told.asked] at hl
    obtain ⟨l', hl', rfl⟩ := Option.map_eq_some_iff.1 hl
    rw [mem_playKeys_downloads]
    rcases List.mem_append.1 hi with hi | hi
    · exact .inl (h.outstanding l' hl' i hi hlt hp)
    · exact .inr ⟨i, hi, rfl⟩

end Agree

/-! ## A chunk download and the peer downloader -/

/-- The piece downloaders of a chunk, and the outstanding requests of `me`. -/
structure Coupled (me : PD) (t : PieceTable) (w : PeerTable PD) (ks : List (ℕ × ℕ × ℕ)) :
    Prop where
  num : t.num ≤ 2 ^ 18
  known : ∀ q, PeerTable.Known q w
  agree : Agree t (w.asked me) ks

/-- The calls that lead from `w` to `w'` take the outstanding requests from `ks` to `ks'`, and
none of them makes a request that is outstanding. -/
def Moves (me : PD) (c : ℕ) (w w' : PeerTable PD) (ks ks' : List (ℕ × ℕ × ℕ)) : Prop :=
  ∃ cs, PeerTable.Calls me w w' cs ∧ Fresh ks cs ∧ About c cs ∧ playKeys ks cs = ks'

theorem Moves.refl (me : PD) (c : ℕ) (w : PeerTable PD) (ks : List (ℕ × ℕ × ℕ)) :
    Moves me c w w ks ks :=
  ⟨[], .refl me w, trivial, fun _ h => (by cases h), rfl⟩

theorem Moves.trans {me : PD} {c : ℕ} {w w' w'' : PeerTable PD} {ks ks' ks'' : List (ℕ × ℕ × ℕ)}
    (h : Moves me c w w' ks ks') (h' : Moves me c w' w'' ks' ks'') : Moves me c w w'' ks ks'' := by
  obtain ⟨cs, hcalls, hfresh, habout, rfl⟩ := h
  obtain ⟨cs', hcalls', hfresh', habout', rfl⟩ := h'
  exact ⟨cs ++ cs', hcalls.trans hcalls', fresh_append cs ks cs' hfresh hfresh',
    habout.append habout', playKeys_append cs ks cs'⟩

namespace Coupled

open PeerTable

variable {me pd : PD} {t t' : PieceTable} {w w' : PeerTable PD} {ks : List (ℕ × ℕ × ℕ)}

/-- An operation that sends requests. -/
theorem of_sends {is : List ℕ} (h : Coupled me t w ks) (hsends : Sends t me w w' is)
    (hknown : ∀ q, Known q w') : ∃ ks', Moves me t.index w w' ks ks' ∧ Coupled me t w' ks' := by
  obtain ⟨hfresh, hagree⟩ := h.agree.sends hsends h.num
  exact ⟨_, ⟨_, hsends.told.calls, hfresh, Agree.about_downloads t is _, rfl⟩, h.num, hknown, hagree⟩

theorem sendRequests (h : Coupled me t w ks) (room : PD → ℕ) :
    ∃ ks', Moves me t.index w (w.sendRequests t room) ks ks' ∧
      Coupled me t (w.sendRequests t room) ks' := by
  obtain ⟨is, hsends⟩ := sends_sendRequests t room (h.known me)
  refine h.of_sends hsends fun q => ?_
  obtain ⟨is, hsends⟩ := sends_sendRequests t room (h.known q)
  exact hsends.told.known

theorem assign (h : Coupled me t w ks) (pd : PD) (room : PD → ℕ) :
    ∃ ks', Moves me t.index w (w.assign t pd room).2 ks ks' ∧
      Coupled me t (w.assign t pd room).2 ks' := by
  obtain ⟨w₁, is, htold, hsends⟩ := sends_assign t pd room (h.known me)
  have hagree : Agree t (w₁.asked me) ks := by
    rw [htold.asked]
    split
    · rename_i hnew
      exact .of_nil (Agree.none_outstanding (hnew.2 ▸ h.agree))
    · exact h.agree
  obtain ⟨hfresh, hagree⟩ := hagree.sends hsends h.num
  have hcalls := htold.calls.trans hsends.told.calls
  refine ⟨_, ⟨_, hcalls, hfresh, Agree.about_downloads t is _, rfl⟩, h.num, fun q => ?_, hagree⟩
  obtain ⟨_, _, _, hsends⟩ := sends_assign t pd room (h.known q)
  exact hsends.told.known

/-- What is recorded of `me` is cancelled, and `me` is let go. -/
theorem of_cancels (h : Coupled me t w ks)
    (htold : Told me w w' (cancels t ((w.asked me).getD [])) none) (hknown : ∀ q, Known q w') :
    ∃ ks', Moves me t.index w w' ks ks' ∧ Coupled me t w' ks' := by
  refine ⟨_, ⟨_, htold.calls, Agree.fresh_cancels t _ ks, Agree.about_cancels t _, rfl⟩, h.num,
    hknown, ?_⟩
  have hagree := h.agree
  rw [htold.asked]
  refine .of_none ?_
  cases hview : w.asked me with
  | none =>
    rw [hview] at hagree
    exact hagree.none_outstanding
  | some l =>
    rw [hview] at hagree
    exact hagree.cancels

/-- What concerns `me` stays. -/
theorem of_same (h : Coupled me t w ks) (htold : Told me w w' [] (w.asked me))
    (hknown : ∀ q, Known q w') : ∃ ks', Moves me t.index w w' ks ks' ∧ Coupled me t w' ks' :=
  ⟨ks, ⟨[], htold.calls, trivial, fun _ hx => (by cases hx), rfl⟩, h.num, hknown,
    by rw [htold.asked]; exact h.agree⟩

theorem release (h : Coupled me t w ks) (pd : PD) :
    ∃ ks', Moves me t.index w (w.release t pd) ks ks' ∧ Coupled me t (w.release t pd) ks' := by
  have htold := told_release t pd (h.known me)
  have hknown : ∀ q, Known q (w.release t pd) := fun q => (told_release t pd (h.known q)).known
  by_cases hme : me = pd
  · rw [if_pos hme, if_pos hme] at htold
    exact h.of_cancels htold hknown
  · rw [if_neg hme, if_neg hme] at htold
    exact h.of_same htold hknown

theorem releaseAllPDs (h : Coupled me t w ks) :
    ∃ ks', Moves me t.index w (w.releaseAllPDs t) ks ks' ∧ Coupled me t (w.releaseAllPDs t) ks' :=
  h.of_cancels (told_releaseAllPDs t (h.known me)) fun q => (told_releaseAllPDs t (h.known q)).known

/-- Who has a status is assigned. -/
theorem keys_pdown (h : Coupled me t w ks) : ∀ q ∈ w.dstatus.map Prod.fst, q ∈ w.pdown := by
  intro q hq
  refine (h.known q).2 ?_
  obtain ⟨e, he, rfl⟩ := List.mem_map.1 hq
  rw [asked, Option.isSome_map, findStatus, Option.isSome_map, List.find?_isSome]
  exact ⟨e, he, decide_eq_true rfl⟩

/-- A piece downloader whose request was not answered has a status while it is assigned. -/
theorem known_onNotDownloaded (h : Coupled me t w ks) (r : Request PD) (pd : PD) (reject : Bool)
    (room : PD → ℕ) (q : PD) : Known q (w.onNotDownloaded t r pd reject room) := by
  by_cases hq : q = pd
  · subst hq
    by_cases hindex : t.index = r.index
    · cases hview : w.asked q with
      | none =>
        rw [onNotDownloaded, if_pos hindex, notDownloaded, Option.map_eq_none_iff.1 hview]
        obtain ⟨_, hsends⟩ := sends_sendRequests t room (h.known q)
        exact hsends.told.known
      | some l => exact (told_onNotDownloaded t r hindex reject room (h.known q) hview).known
    · rw [onNotDownloaded, if_neg hindex]
      exact h.known q
  · obtain ⟨_, hsends⟩ := sends_onNotDownloaded t r hq reject room (h.known q) h.keys_pdown
    exact hsends.told.known

/-- A request to another downloader was not answered. -/
theorem onNotDownloaded (h : Coupled me t w ks) (r : Request PD) (hme : me ≠ pd) (reject : Bool)
    (room : PD → ℕ) :
    ∃ ks', Moves me t.index w (w.onNotDownloaded t r pd reject room) ks ks' ∧
      Coupled me t (w.onNotDownloaded t r pd reject room) ks' := by
  obtain ⟨is, hsends⟩ := sends_onNotDownloaded t r hme reject room (h.known me) h.keys_pdown
  exact h.of_sends hsends (h.known_onNotDownloaded r pd reject room)


/-- A request to `me` was not answered, and is no longer outstanding: `me` is let go. -/
theorem onNotDownloaded_self (h : Coupled me t w ks) {ks₁ : List (ℕ × ℕ × ℕ)} {r : Request PD}
    (hr : r.key ∈ ks) (hindex : t.index = r.index)
    (hks : ∀ k, k.1 = t.index → (k ∈ ks₁ ↔ k ∈ ks ∧ k ≠ r.key)) (reject : Bool) (room : PD → ℕ) :
    ∃ cs : List (QueueCall PD), Calls me w (w.onNotDownloaded t r me reject room) cs ∧
      (∀ x ∈ cs, ∃ r', x = .cancel r') ∧ About t.index cs ∧
      Coupled me t (w.onNotDownloaded t r me reject room) (playKeys ks₁ cs) := by
  obtain ⟨l, hl, i, hi, hlt, hkey⟩ := h.agree.recorded r.key hr hindex.symm
  have hoffset : r.offset / maxPieceLen = i := by
    have hnum := h.num
    have h2 : r.offset = u32 (i * maxPieceLen) := congrArg (fun k => k.2.1) hkey
    rw [maxPieceLen] at h2 ⊢
    rw [h2, u32_of_lt (by omega)]
    omega
  have htold := told_onNotDownloaded t r hindex reject room (h.known me) hl
  rw [hoffset] at htold
  -- what is left of the requests of the chunk
  have hleft : Agree t (some (l.filter (· ≠ i))) ks₁ := by
    have := h.agree.remove h.num hlt fun k hk => by rw [hks k hk, hkey]
    rwa [hl] at this
  have hcancel : Agree t (some (l.filter (· ≠ i)))
      (playKeys ks₁ (if reject then [] else [QueueCall.cancel r])) := by
    cases reject with
    | true => exact hleft
    | false =>
      refine hleft.congr fun k hk => ?_
      change k ∈ ks₁.filter (· ≠ r.key) ↔ _
      rw [List.mem_filter, hks k hk]
      simp
  refine ⟨_, htold.calls, ?_, ?_, h.num, h.known_onNotDownloaded r me reject room, ?_⟩
  · intro x hx
    rcases List.mem_append.1 hx with hx | hx
    · cases reject with
      | true => cases hx
      | false => exact ⟨r, List.mem_singleton.1 hx⟩
    · obtain ⟨j, -, rfl⟩ := List.mem_map.1 hx
      exact ⟨_, rfl⟩
  · refine About.append (fun x hx => ?_) (Agree.about_cancels t _)
    cases reject with
    | true => cases hx
    | false =>
      obtain rfl := List.mem_singleton.1 hx
      exact hindex.symm
  · rw [htold.asked, playKeys_append]
    exact .of_none hcancel.cancels

omit [DecidableEq PD] in
/-- The calls make no request that is outstanding, as they make none. -/
theorem fresh_of_cancels : ∀ (cs : List (QueueCall PD)) (ks : List (ℕ × ℕ × ℕ)),
    (∀ x ∈ cs, ∃ r, x = .cancel r) → Fresh ks cs := by
  intro cs
  induction cs with
  | nil => exact fun ks _ => trivial
  | cons c cs ih =>
    intro ks h
    obtain ⟨r, rfl⟩ := h c List.mem_cons_self
    exact ih _ fun x hx => h x (List.mem_cons_of_mem _ hx)

/-! ### A piece arrives -/

/-- More pieces are there. -/
theorem pieces (h : Coupled me t w ks) (hindex : t'.index = t.index) (hnum : t'.num = t.num)
    (hlast : t'.lastSize = t.lastSize) (hpieces : ∀ i, t'.pieces i = false → t.pieces i = false) :
    Coupled me t' w ks :=
  ⟨hnum ▸ h.num, h.known, h.agree.pieces hindex hnum hlast hpieces⟩

omit [DecidableEq PD] in
/-- The key of a piece that is accepted. -/
theorem key_of_accepts {p : Piece PD} (hindex : t.index = p.index)
    (haligned : p.offset % maxPieceLen = 0) (hnum : t.num ≤ 2 ^ 18) (h : t.accepts p = true) :
    p.offset / maxPieceLen < t.num ∧
      t.key (p.offset / maxPieceLen) = (p.index, p.offset, p.data.length) := by
  simp only [PieceTable.accepts, Bool.and_eq_true, decide_eq_true_eq] at h
  obtain ⟨⟨hlt, -⟩, hlen⟩ := h
  refine ⟨hlt, ?_⟩
  have hoffset : u32 (p.offset / maxPieceLen * maxPieceLen) = p.offset := by
    have hpp : p.offset / maxPieceLen < 2 ^ 18 := hlt.trans_le hnum
    rw [maxPieceLen] at haligned hpp ⊢
    rw [u32_of_lt (by omega)]
    omega
  rw [PieceTable.key, hoffset, hindex, hlen, PieceTable.pieceLen]
  refine congrArg (fun l => (p.index, p.offset, l)) ?_
  generalize p.offset / maxPieceLen = pp at hlt
  by_cases hlast : pp = t.num - 1
  · rw [if_pos hlast, if_neg (by omega)]
  · rw [if_neg hlast, if_pos (by omega)]

omit [DecidableEq PD] in
/-- A piece that was asked for and is missing is accepted. -/
theorem accepts_of_key {p : Piece PD} {i : ℕ} (hnum : t.num ≤ 2 ^ 18) (hi : i < t.num)
    (hmissing : t.pieces i = false) (hkey : t.key i = (p.index, p.offset, p.data.length)) :
    t.accepts p = true := by
  obtain ⟨-, hkey⟩ := Prod.mk.inj hkey
  obtain ⟨hoffset, hlen⟩ := Prod.mk.inj hkey
  have hpp : p.offset / maxPieceLen = i := by
    rw [maxPieceLen] at *
    rw [← hoffset, u32_of_lt (by omega)]
    omega
  rw [PieceTable.accepts, hpp, ← hlen, PieceTable.pieceLen]
  simp only [hi, hmissing, decide_true, Bool.not_false, Bool.true_and, decide_eq_true_eq]
  by_cases hlast : i = t.num - 1
  · rw [if_pos hlast, if_neg (by omega)]
  · rw [if_neg hlast, if_pos (by omega)]

/-- What is left of the outstanding requests when a piece arrives. -/
def Answered (me : PD) (p : Piece PD) (ks ks' : List (ℕ × ℕ × ℕ)) : Prop :=
  ∀ k, k ∈ ks' ↔ k ∈ ks ∧ (p.pd = me → k ≠ (p.index, p.offset, p.data.length))

/-- **A piece that is not accepted** was not asked for. -/
theorem refused (h : Coupled me t w ks) {p : Piece PD} (hp : t.accepts p = false)
    {ks₁ : List (ℕ × ℕ × ℕ)} (hks : Answered me p ks ks₁) : Coupled me t w ks₁ := by
  refine ⟨h.num, h.known, fun k hk hc => h.agree.recorded k ((hks k).1 hk).1 hc,
    fun l hl i hi hlt hmissing => (hks _).2 ⟨h.agree.outstanding l hl i hi hlt hmissing, ?_⟩⟩
  intro _ hkey
  rw [accepts_of_key h.num hlt hmissing hkey] at hp
  cases hp

/-- **A piece that is accepted** is no longer recorded. -/
theorem accepted (h : Coupled me t w ks) {p : Piece PD} (hindex : t.index = p.index)
    (haligned : p.offset % maxPieceLen = 0) (hp : t.accepts p = true) {ks₁ : List (ℕ × ℕ × ℕ)}
    (hks : Answered me p ks ks₁) :
    Moves me t.index w (w.modifyStatus p.pd (·.remove (p.offset / maxPieceLen))) ks₁ ks₁ ∧
      Coupled me t (w.modifyStatus p.pd (·.remove (p.offset / maxPieceLen))) ks₁ := by
  have htold : ∀ q, Told q w (w.modifyStatus p.pd (·.remove (p.offset / maxPieceLen))) []
      (if q = p.pd then (w.asked q).map (·.filter (· ≠ p.offset / maxPieceLen)) else w.asked q) :=
    fun q => told_modifyStatus (h.known q) p.pd _ _ fun _ => rfl
  obtain ⟨hlt, hkey⟩ := key_of_accepts hindex haligned h.num hp
  refine ⟨⟨[], (htold me).calls, trivial, fun _ hx => (by cases hx), rfl⟩, h.num,
    fun q => (htold q).known, ?_⟩
  rw [(htold me).asked]
  by_cases hme : me = p.pd
  · rw [if_pos hme]
    exact h.agree.remove h.num hlt fun k _ => by rw [hks, hkey]; simp [hme]
  · rw [if_neg hme]
    exact h.agree.congr fun k _ => by rw [hks]; simp [Ne.symm hme]

/-- The request for a piece that arrived is cancelled. -/
theorem endgameCancel (h : Coupled me t w ks) {p : Piece PD} (hindex : t.index = p.index)
    (hlt : p.offset / maxPieceLen < t.num)
    (hkey : t.key (p.offset / maxPieceLen) = (p.index, p.offset, p.data.length)) :
    ∃ ks', Moves me t.index w (w.endgameCancel p) ks ks' ∧ Coupled me t (w.endgameCancel p) ks' := by
  have htold := told_endgameCancel p (h.known me)
  have hknown : ∀ q, Known q (w.endgameCancel p) := fun q => (told_endgameCancel p (h.known q)).known
  by_cases hasked : p.offset / maxPieceLen ∈ (w.asked me).getD []
  · rw [endgameCalls, if_pos hasked] at htold
    refine ⟨_, ⟨_, htold.calls, trivial, ?_, rfl⟩, h.num, hknown, ?_⟩
    · intro x hx
      obtain rfl := List.mem_singleton.1 hx
      exact hindex.symm
    · rw [htold.asked]
      refine h.agree.remove h.num hlt fun k _ => ?_
      change k ∈ ks.filter (· ≠ (p.index, p.offset, p.data.length)) ↔ _
      rw [List.mem_filter, hkey, decide_eq_true_eq]
  · have hsame : (w.asked me).map (·.filter (· ≠ p.offset / maxPieceLen)) = w.asked me := by
      cases hview : w.asked me with
      | none => rfl
      | some l =>
        rw [hview, Option.getD_some] at hasked
        rw [Option.map_some, List.filter_eq_self.2]
        intro i hi
        simpa using fun heq : i = p.offset / maxPieceLen => hasked (heq ▸ hi)
    rw [endgameCalls, if_neg hasked, hsame] at htold
    exact h.of_same htold hknown

theorem addProvider (h : Coupled me t w ks) (pd : Option PD) :
    ∃ ks', Moves me t.index w (w.addProvider pd) ks ks' ∧ Coupled me t (w.addProvider pd) ks' := by
  have hsame : ∀ q, Told q w (w.addProvider pd) [] (w.asked q) := by
    intro q
    rw [PeerTable.addProvider]
    split
    · exact .refl (h.known q)
    · exact .same rfl rfl Iff.rfl (h.known q)
  exact h.of_same (hsame me) fun q => (hsame q).known

/-- Another operation follows. -/
theorem next {c : ℕ} {w'' : PeerTable PD}
    (h : ∃ ks', Moves me c w w' ks ks' ∧ Coupled me t w' ks')
    (h' : ∀ ks', Coupled me t w' ks' → ∃ ks₁, Moves me c w' w'' ks' ks₁ ∧ Coupled me t' w'' ks₁) :
    ∃ ks₁, Moves me c w w'' ks ks₁ ∧ Coupled me t' w'' ks₁ := by
  obtain ⟨ks', hmoves, hcoupled⟩ := h
  obtain ⟨ks₁, hmoves', hcoupled'⟩ := h' ks' hcoupled
  exact ⟨ks₁, hmoves.trans hmoves', hcoupled'⟩

/-- **`piece`**, after the peer downloader has taken its request off the lists. -/
theorem piece {cd : ChunkDownload PD} (h : Coupled me cd.toPieceTable cd.toPeerTable ks)
    (cache : PieceCache M) {p : Piece PD} (hindex : cd.index = p.index)
    (haligned : p.offset % maxPieceLen = 0) {ks₁ : List (ℕ × ℕ × ℕ)} (hks : Answered me p ks ks₁)
    (room : PD → ℕ) (m : M) :
    (cd.piece cache p room m).2.1.index = cd.index ∧
      ∃ ks', Moves me cd.index cd.toPeerTable (cd.piece cache p room m).2.1.toPeerTable ks₁ ks' ∧
        Coupled me (cd.piece cache p room m).2.1.toPieceTable
          (cd.piece cache p room m).2.1.toPeerTable ks' := by
  rw [ChunkDownload.piece]
  split
  · rename_i hp
    exact ⟨rfl, ks₁, .refl .., h.refused hp hks⟩
  · rename_i hp
    rw [Bool.not_eq_false] at hp
    obtain ⟨hlt, hkey⟩ := key_of_accepts hindex haligned h.num hp
    have hremoved := h.accepted hindex haligned hp hks
    have hrefused : ∃ ks', Moves me cd.index cd.toPeerTable
        ((cd.toPeerTable.modifyStatus p.pd (·.remove (p.offset / maxPieceLen))).sendRequests
          cd.toPieceTable room) ks₁ ks' ∧
        Coupled me cd.toPieceTable
          ((cd.toPeerTable.modifyStatus p.pd (·.remove (p.offset / maxPieceLen))).sendRequests
            cd.toPieceTable room) ks' := next ⟨_, hremoved⟩ fun _ hc => hc.sendRequests room
    dsimp only
    split
    · exact ⟨rfl, hrefused⟩
    · rename_i r m₁ _
      split
      · exact ⟨rfl, hrefused⟩
      · rename_i m₂ _
        have hprovided := next ⟨_, hremoved⟩ fun _ hc => hc.addProvider (some p.pd)
        obtain ⟨w, hw⟩ : ∃ w, w = (cd.toPeerTable.modifyStatus p.pd
          (·.remove (p.offset / maxPieceLen))).addProvider (some p.pd) := ⟨_, rfl⟩
        rw [← hw] at hprovided ⊢
        have hended : ∃ ks', Moves me cd.index cd.toPeerTable
            (if w.pdown.length > 1 then w.endgameCancel p else w) ks₁ ks' ∧
            Coupled me cd.toPieceTable (if w.pdown.length > 1 then w.endgameCancel p else w) ks' :=
          next hprovided fun ks' hc => by
            split
            · exact hc.endgameCancel hindex hlt hkey
            · exact ⟨ks', .refl .., hc⟩
        obtain ⟨hashed, k, htable⟩ := ChunkDownload.updateHash_table cache
          (cd.toPieceTable.addPiece (p.offset / maxPieceLen) r) m₂
        rcases hu : (cd.toPieceTable.addPiece (p.offset / maxPieceLen) r).updateHash cache m₂
          with ⟨t', m₃⟩
        rw [hu] at htable
        dsimp only at htable ⊢
        subst htable
        have hpieces : ∀ i, (cd.toPieceTable.addPiece (p.offset / maxPieceLen) r).pieces i = false →
            cd.pieces i = false := by
          intro i hi
          by_cases hpp : i = p.offset / maxPieceLen
          · subst hpp
            simp [PieceTable.addPiece] at hi
          · simpa [PieceTable.addPiece, Function.update_of_ne hpp] using hi
        obtain ⟨t', ht'⟩ : ∃ t', t' = ({ cd.toPieceTable.addPiece (p.offset / maxPieceLen) r with
          hashed := hashed, numPiecesInHash := k } : PieceTable) := ⟨_, rfl⟩
        rw [← ht']
        have hstored : ∃ ks', Moves me cd.index cd.toPeerTable _ ks₁ ks' ∧ Coupled me t' _ ks' :=
          next hended fun ks' hc => ⟨ks', .refl .., hc.pieces (by rw [ht']; rfl) (by rw [ht']; rfl)
            (by rw [ht']; rfl) fun i hi => hpieces i (by rw [ht'] at hi; exact hi)⟩
        have hindex' : t'.index = cd.index := by
          rw [ht']
          rfl
        rw [← hindex'] at hstored
        split
        · refine ⟨hindex', ?_⟩
          rw [← hindex']
          exact next hstored fun _ hc => hc.releaseAllPDs
        · refine ⟨hindex', ?_⟩
          rw [← hindex']
          exact next hstored fun _ hc => hc.sendRequests room

end Coupled

/-! ## All chunk downloads -/

/-- A chunk download and the outstanding requests of `me`. -/
structure ChunkLinked (me : PD) (ks : List (ℕ × ℕ × ℕ)) (c : ℕ) (cd : ChunkDownload PD) : Prop where
  index : cd.index = c
  coupled : Coupled me cd.toPieceTable cd.toPeerTable ks

/-- All chunk downloads but that of chunk `c` agree with the lists. -/
structure Elsewhere (me : PD) (c : ℕ) (s : RequestBooks PD M) : Prop where
  nodup : s.queue.keys.Nodup
  chunk : ∀ i cd, i ≠ c → s.chunks i = some cd → ChunkLinked me s.queue.keys i cd
  owned : ∀ k ∈ s.queue.keys, k.1 ≠ c → (s.chunks k.1).isSome = true

/-- **All chunk downloads agree** with the lists of `me`. -/
structure Linked (me : PD) (s : RequestBooks PD M) : Prop where
  nodup : s.queue.keys.Nodup
  chunk : ∀ c cd, s.chunks c = some cd → ChunkLinked me s.queue.keys c cd
  owned : ∀ k ∈ s.queue.keys, (s.chunks k.1).isSome = true

theorem Linked.elsewhere {me : PD} {s : RequestBooks PD M} (h : Linked me s) (c : ℕ) :
    Elsewhere me c s :=
  ⟨h.nodup, fun i cd _ hcd => h.chunk i cd hcd, fun k hk _ => h.owned k hk⟩

/-- Only the requests of the chunk count. -/
theorem ChunkLinked.congr {me : PD} {ks ks' : List (ℕ × ℕ × ℕ)} {c : ℕ} {cd : ChunkDownload PD}
    (h : ChunkLinked me ks c cd) (hks : ∀ k, k.1 = c → (k ∈ ks' ↔ k ∈ ks)) :
    ChunkLinked me ks' c cd :=
  ⟨h.index, h.coupled.num, h.coupled.known, h.coupled.agree.congr fun k hk =>
    hks k (hk.trans h.index)⟩

/-- The request `k` is no longer outstanding: the other chunks are as before. -/
theorem Linked.without {me : PD} {s : RequestBooks PD M} (h : Linked me s)
    {queue : RequestQueue PD} {k : ℕ × ℕ × ℕ} (hnodup : queue.keys.Nodup)
    (hkeys : ∀ k', k' ∈ queue.keys ↔ k' ∈ s.queue.keys ∧ k' ≠ k) :
    Elsewhere me k.1 { s with queue := queue } where
  nodup := hnodup
  chunk := fun i cd hi hcd => (h.chunk i cd hcd).congr fun k' hk' => by
    rw [hkeys]
    exact and_iff_left fun heq => hi (by rw [← hk', heq])
  owned := fun k' hk' _ => h.owned k' ((hkeys k').1 hk').1

/-- **A chunk download has changed**, and its calls have been made. -/
theorem Elsewhere.carryOut {me : PD} {s : RequestBooks PD M} {c : ℕ} (h : Elsewhere me c s)
    (turn : PeerTurn PD) {cd cd' : ChunkDownload PD} (hindex : cd'.index = c)
    {ks' : List (ℕ × ℕ × ℕ)}
    (hmoves : Moves me c cd.toPeerTable cd'.toPeerTable s.queue.keys ks')
    (hcoupled : Coupled me cd'.toPieceTable cd'.toPeerTable ks') :
    Linked me (s.carryOut me turn c cd cd') := by
  obtain ⟨cs, hcalls, hfresh, habout, rfl⟩ := hmoves
  obtain ⟨hperm, hnodup⟩ := keys_play turn.maxReqs s.now cs s.queue _ (.refl _) h.nodup hfresh
  have hqueue : (s.carryOut me turn c cd cd').queue = s.queue.play turn.maxReqs s.now cs := by
    rw [RequestBooks.carryOut, hcalls.callsOn]
  have hmem : ∀ k, k ∈ (s.carryOut me turn c cd cd').queue.keys ↔ k ∈ playKeys s.queue.keys cs :=
    fun k => by rw [hqueue]; exact hperm.mem_iff
  have hother : ∀ i, i ≠ c → (s.carryOut me turn c cd cd').chunks i = s.chunks i := fun i hi =>
    Function.update_of_ne hi _ _
  have hself : (s.carryOut me turn c cd cd').chunks c = some cd' := Function.update_self ..
  refine ⟨by rw [hqueue]; exact hperm.nodup_iff.2 hnodup, fun i cd₁ hcd₁ => ?_, fun k hk => ?_⟩
  · by_cases hi : i = c
    · subst hi
      rw [hself] at hcd₁
      obtain rfl := Option.some.inj hcd₁
      exact ⟨hindex, hcoupled.num, hcoupled.known, hcoupled.agree.congr fun k _ => hmem k⟩
    · rw [hother i hi] at hcd₁
      exact (h.chunk i cd₁ hi hcd₁).congr fun k hk => by
        rw [hmem, mem_playKeys_other (by rw [hk]; exact hi) cs _ habout]
  · by_cases hkc : k.1 = c
    · rw [hkc, hself]
      rfl
    · rw [hmem, mem_playKeys_other hkc cs _ habout] at hk
      rw [hother _ hkc]
      exact h.owned k hk hkc

/-- **An operation of a chunk download** on its piece downloaders. -/
theorem Linked.onChunk {me : PD} {turn : PeerTurn PD} {s : RequestBooks PD M} (h : Linked me s)
    (c : ℕ) (f : ChunkDownload PD → PeerTable PD)
    (hf : ∀ cd, s.chunks c = some cd → ChunkLinked me s.queue.keys c cd →
      ∃ ks', Moves me cd.index cd.toPeerTable (f cd) s.queue.keys ks' ∧
        Coupled me cd.toPieceTable (f cd) ks') : Linked me (s.onChunk me turn c f) := by
  rw [RequestBooks.onChunk]
  split
  · exact h
  · rename_i cd hcd
    have hlinked := h.chunk c cd hcd
    obtain ⟨ks', hmoves, hcoupled⟩ := hf cd hcd hlinked
    exact (h.elsewhere c).carryOut turn hlinked.index (hlinked.index ▸ hmoves) hcoupled

/-- The lists hold the same requests. -/
theorem Linked.of_keys {me : PD} {s s' : RequestBooks PD M} (h : Linked me s)
    (hchunks : s'.chunks = s.chunks) (hkeys : s'.queue.keys.Perm s.queue.keys) : Linked me s' where
  nodup := hkeys.nodup_iff.2 h.nodup
  chunk := fun c cd hcd => (h.chunk c cd (hchunks ▸ hcd)).congr fun _ _ => hkeys.mem_iff
  owned := fun k hk => by
    rw [hchunks]
    exact h.owned k (hkeys.mem_iff.1 hk)

/-! ## Signals of the peer downloader -/

namespace RequestQueue

omit [DecidableEq PD] in
/-- Cancelling takes no request from one list to the other. -/
theorem length_reqs_play (maxReqs now : ℕ) : ∀ (cs : List (QueueCall PD)) (q : RequestQueue PD),
    (∀ x ∈ cs, ∃ r, x = .cancel r) → (q.play maxReqs now cs).reqs.length ≤ q.reqs.length := by
  intro cs
  induction cs with
  | nil => exact fun q _ => le_rfl
  | cons c cs ih =>
    intro q h
    obtain ⟨r, rfl⟩ := h c List.mem_cons_self
    refine (ih (q.cancel r) fun x hx => h x (List.mem_cons_of_mem _ hx)).trans ?_
    rw [cancel]
    dsimp only
    split
    · exact le_rfl
    · exact List.length_filter_le ..

end RequestQueue

/-- **A signal of `me`** about a request that has just left the lists. -/
theorem Linked.emit {me : PD} {s : RequestBooks PD M} (h : Linked me s) (turn : PeerTurn PD)
    {queue : RequestQueue PD} {r : Request PD} (hnodup : queue.keys.Nodup)
    (hr : r.key ∈ s.queue.keys)
    (hkeys : ∀ k, k ∈ queue.keys ↔ k ∈ s.queue.keys ∧ k ≠ r.key) (reject : Bool) :
    Linked me (RequestBooks.emit me turn reject { s with queue := queue } r) ∧
      (RequestBooks.emit me turn reject { s with queue := queue } r).queue.reqs.length ≤
        queue.reqs.length := by
  obtain ⟨cd, hcd⟩ := Option.isSome_iff_exists.1 (h.owned _ hr)
  have hcd : s.chunks r.index = some cd := hcd
  have hlinked := h.chunk _ _ hcd
  have hindex : cd.index = r.index := hlinked.index
  -- the chunk download is connected
  have hmem : me ∈ cd.pdown := by
    obtain ⟨l, hl, -⟩ := hlinked.coupled.agree.recorded _ hr hindex.symm
    exact (hlinked.coupled.known me).2 (by rw [hl]; rfl)
  obtain ⟨cs, hcalls, hcancels, habout, hcoupled⟩ := hlinked.coupled.onNotDownloaded_self hr hindex
    (fun k _ => hkeys k) reject (turn.room r.index)
  rw [RequestBooks.emit, RequestBooks.onChunk]
  dsimp only
  rw [hcd]
  dsimp only
  rw [if_pos hmem]
  refine ⟨(h.without hnodup hkeys).carryOut turn hlinked.index ⟨cs, hcalls,
    Coupled.fresh_of_cancels cs _ hcancels, fun x hx => ?_, rfl⟩ hcoupled, ?_⟩
  · have := habout x hx
    rwa [hindex] at this
  · rw [RequestBooks.carryOut]
    dsimp only
    rw [hcalls.callsOn]
    exact RequestQueue.length_reqs_play _ _ cs _ hcancels

/-- A request that is rejected. -/
theorem Linked.reject {me : PD} {turn : PeerTurn PD} {s : RequestBooks PD M} (h : Linked me s)
    {r : Request PD} (hsent : (s.queue.onRejected r).1 = true) :
    Linked me (RequestBooks.emit me turn true { s with queue := (s.queue.onRejected r).2 } r) := by
  have hkeys := RequestQueue.keys_onRejected h.nodup hsent
  refine (h.emit turn (by rw [hkeys]; exact h.nodup.filter _) ?_ ?_ true).1
  · refine List.mem_append_right _ ?_
    exact (RequestQueue.any_key (fun e : TimeStampedRequest PD => e.req.key) _ _).1 hsent
  · intro k
    rw [hkeys, List.mem_filter, decide_eq_true_eq]

/-- **The loop of `checkTimeouts`** stays inside the list. -/
theorem Linked.expire {me : PD} {turn : PeerTurn PD} : ∀ (fuel : ℕ) (s : RequestBooks PD M)
    (reported : List (Request PD)), Linked me s → s.queue.reqs.length < fuel →
      ∃ s' reported', RequestBooks.expire me turn fuel s reported = some (s', reported') ∧
        Linked me s' ∧
        ∀ tr ∈ s'.queue.reqs.head?, ¬ RequestBooks.TimedOut s'.now tr := by
  intro fuel
  induction fuel with
  | zero => exact fun s reported _ hlt => absurd hlt (Nat.not_lt_zero _)
  | succ fuel ih =>
    intro s reported h hlt
    rw [RequestBooks.expire]
    cases hreqs : s.queue.reqs with
    | nil => exact ⟨s, reported, rfl, h, by rw [hreqs]; simp⟩
    | cons tr trs =>
      dsimp only
      by_cases htimed : RequestBooks.TimedOut s.now tr
      · rw [if_pos htimed]
        have hold : s.queue.keys.Perm
            (tr.req.key :: ({ s.queue with reqs := trs } : RequestQueue PD).keys) := by
          rw [RequestQueue.keys, hreqs, RequestQueue.keys]
          exact List.perm_middle
        have hnodup := List.nodup_cons.1 (hold.nodup_iff.1 h.nodup)
        have hkeys : ∀ k, k ∈ ({ s.queue with reqs := trs } : RequestQueue PD).keys ↔
            k ∈ s.queue.keys ∧ k ≠ tr.req.key := by
          intro k
          rw [hold.mem_iff, List.mem_cons]
          constructor
          · exact fun hk => ⟨.inr hk, fun heq => hnodup.1 (heq ▸ hk)⟩
          · rintro ⟨rfl | hk, hne⟩
            · exact absurd rfl hne
            · exact hk
        obtain ⟨hlinked, hlength⟩ := h.emit turn hnodup.2
          (hold.mem_iff.2 List.mem_cons_self) hkeys false
        rw [hreqs, List.length_cons] at hlt
        have hless : trs.length < fuel := by omega
        exact ih _ _ hlinked (hlength.trans_lt hless)
      · rw [if_neg htimed]
        refine ⟨s, reported, rfl, h, ?_⟩
        rw [hreqs]
        simpa using htimed

/-! ## One event -/

/-- Offsets are those of pieces, and the peer rejects what it does not answer when it chokes. -/
def RequestBooks.Allowed : RequestBooks.Event PD → Prop
  | .piece p => p.offset % maxPieceLen = 0
  | .choke fast => fast = true
  | _ => True

theorem Linked.timeouts {me : PD} {s : RequestBooks PD M} (h : Linked me s) (turn : PeerTurn PD) :
    ∃ s' reported, RequestBooks.checkTimeouts me turn s = some (s', reported) ∧ Linked me s' ∧
      ∀ tr ∈ s'.queue.reqs.head?, ¬ RequestBooks.TimedOut s'.now tr :=
  h.expire _ s [] (Nat.lt_succ_self _)

/-- **A PIECE message**, after the peer downloader has looked at it. -/
theorem Linked.pieceReceived {me : PD} {turn : PeerTurn PD} {cache : ℕ → PieceCache M}
    {s : RequestBooks PD M} (h : Linked me s) {p : Piece PD} (haligned : p.offset % maxPieceLen = 0)
    {queue : RequestQueue PD} (hnodup : queue.keys.Nodup)
    (hkeys : Coupled.Answered me p s.queue.keys queue.keys) :
    Linked me (RequestBooks.pieceReceived me turn cache { s with queue := queue } p) := by
  have hother : Elsewhere me p.index { s with queue := queue } :=
    { nodup := hnodup
      chunk := fun i cd hi hcd => (h.chunk i cd hcd).congr fun k hk => by
        rw [hkeys]
        exact and_iff_left fun _ heq => hi (by rw [← hk, heq])
      owned := fun k hk _ => h.owned k ((hkeys k).1 hk).1 }
  rw [RequestBooks.pieceReceived]
  dsimp only
  cases hcd : s.chunks p.index with
  | none =>
    dsimp only
    exact ⟨hnodup, fun c cd hc => hother.chunk c cd (fun heq => by rw [heq, hcd] at hc; cases hc) hc,
      fun k hk => h.owned k ((hkeys k).1 hk).1⟩
  | some cd =>
    have hlinked := h.chunk _ cd hcd
    obtain ⟨hindex, ks', hmoves, hcoupled⟩ := hlinked.coupled.piece (cache p.index)
      hlinked.index haligned hkeys (turn.room p.index) s.mem
    have := hother.carryOut turn (hindex.trans hlinked.index)
      (hlinked.index ▸ hmoves) hcoupled
    exact ⟨this.nodup, this.chunk, this.owned⟩


/-- A chunk download is made. -/
theorem Linked.start {me : PD} {s : RequestBooks PD M} (h : Linked me s) {c : ℕ}
    (hc : s.chunks c = none) (size : ℕ) : Linked me
      { s with chunks := Function.update s.chunks c (some (.new c (u32 size))) } := by
  refine ⟨h.nodup, fun i cd hcd => ?_, fun k hk => ?_⟩ <;> dsimp only at *
  · by_cases hi : i = c
    · subst hi
      rw [Function.update_self] at hcd
      obtain rfl := Option.some.inj hcd
      refine ⟨rfl, ?_, fun q => ?_, .of_none fun k hk hki => ?_⟩
      · have hsize := u32_lt size
        show u32 size / maxPieceLen + (if u32 size % maxPieceLen ≠ 0 then 1 else 0) ≤ 2 ^ 18
        rw [maxPieceLen]
        split <;> omega
      · exact iff_of_false List.not_mem_nil Bool.false_ne_true
      · have := h.owned k hk
        rw [show k.1 = i from hki, hc] at this
        cases this
    · rw [Function.update_of_ne hi] at hcd
      exact h.chunk i cd hcd
  · by_cases hi : k.1 = c
    · rw [hi, Function.update_self]
      rfl
    · rw [Function.update_of_ne hi]
      exact h.owned k hk

/-- A chunk download that nobody is assigned to is deleted. -/
theorem Linked.finish {me : PD} {s : RequestBooks PD M} (h : Linked me s) {c : ℕ}
    {cd : ChunkDownload PD} (hc : s.chunks c = some cd) (hpdown : cd.pdown = []) :
    Linked me { s with chunks := Function.update s.chunks c none } := by
  refine ⟨h.nodup, fun i cd' hcd => ?_, fun k hk => ?_⟩ <;> dsimp only at *
  · by_cases hi : i = c
    · subst hi
      rw [Function.update_self] at hcd
      cases hcd
    · rw [Function.update_of_ne hi] at hcd
      exact h.chunk i cd' hcd
  · by_cases hi : k.1 = c
    · have hlinked := h.chunk c cd hc
      have hnone : cd.asked me = none := by
        rw [← Option.not_isSome_iff_eq_none]
        intro hsome
        have := (hlinked.coupled.known me).2 hsome
        rw [hpdown] at this
        cases this
      have hagree := hlinked.coupled.agree
      rw [hnone] at hagree
      exact absurd (hi.trans hlinked.index.symm) (hagree.none_outstanding k hk)
    · rw [Function.update_of_ne hi]
      exact h.owned k hk

/-- **Every event keeps the two together.** -/
theorem linked_step {me : PD} {cache : ℕ → PieceCache M} (s : RequestBooks PD M)
    (e : RequestBooks.Event PD × PeerTurn PD) (h : Linked me s) (hok : RequestBooks.Allowed e.1) :
    Linked me (RequestBooks.step me cache s e) := by
  obtain ⟨e, turn⟩ := e
  cases e with
  | start c size =>
    rw [RequestBooks.step]
    dsimp only
    split
    · rename_i hc
      exact h.start hc size
    · exact h
  | finish c =>
    rw [RequestBooks.step]
    dsimp only
    split
    · exact h
    · rename_i cd hc
      split
      · rename_i hpdown
        exact h.finish hc hpdown
      · exact h
  | assign c pd => exact h.onChunk c _ fun cd _ hcd => hcd.coupled.assign pd (turn.room c)
  | release c pd => exact h.onChunk c _ fun cd _ hcd => hcd.coupled.release pd
  | update c => exact h.onChunk c _ fun cd _ hcd => hcd.coupled.sendRequests (turn.room c)
  | piece p =>
    rw [RequestBooks.step]
    dsimp only
    by_cases hme : p.pd = me
    · rw [if_pos hme]
      have hkeys := RequestQueue.keys_piece h.nodup (p.index, p.offset, p.data.length)
      refine h.pieceReceived hok (by rw [hkeys]; exact h.nodup.filter _) fun k => ?_
      rw [hkeys, List.mem_filter, decide_eq_true_eq]
      simp [hme]
    · rw [if_neg hme]
      exact h.pieceReceived hok h.nodup fun k => by simp [hme]
  | lost r pd reject =>
    rw [RequestBooks.step]
    dsimp only
    by_cases hme : pd = me
    · rw [if_pos hme]
      exact h
    · rw [if_neg hme]
      exact h.onChunk r.index _ fun cd _ hcd => hcd.coupled.onNotDownloaded r (Ne.symm hme) reject
        (turn.room r.index)
  | send => exact h.of_keys rfl (RequestQueue.keys_update turn.maxReqs s.now)
  | reject r =>
    rw [RequestBooks.step]
    dsimp only
    split
    · rename_i hsent
      exact h.reject hsent
    · exact h
  | choke fast =>
    rw [RequestBooks.step]
    dsimp only
    rw [if_pos (show fast = true from hok)]
    exact h
  | timeouts =>
    obtain ⟨s', reported, heq, hlinked, -⟩ := h.timeouts turn
    rw [RequestBooks.step]
    dsimp only
    rw [heq]
    exact hlinked
  | tick d => exact ⟨h.nodup, h.chunk, h.owned⟩


/-! ## The times of the requests -/

/-- The requests stand in the order in which they were sent. -/
structure RequestQueue.Stamped (q : RequestQueue PD) (now : ℕ) : Prop where
  sorted : q.reqs.Pairwise fun a b => a.timeStamp ≤ b.timeStamp
  past : ∀ tr ∈ q.reqs, tr.timeStamp ≤ now

namespace RequestQueue.Stamped

variable {q q' : RequestQueue PD} {now : ℕ}

omit [DecidableEq PD] in
/-- Requests are taken out. -/
theorem sublist (h : q.Stamped now) (hreqs : q'.reqs.Sublist q.reqs) : q'.Stamped now :=
  ⟨h.sorted.sublist hreqs, fun tr htr => h.past tr (hreqs.subset htr)⟩

omit [DecidableEq PD] in
theorem later (h : q.Stamped now) (d : ℕ) : q.Stamped (now + d) :=
  ⟨h.sorted, fun tr htr => (h.past tr htr).trans (Nat.le_add_right ..)⟩

omit [DecidableEq PD] in
theorem update (h : q.Stamped now) (maxReqs : ℕ) : (q.update maxReqs now).Stamped now := by
  have hloop : ∀ (waitQueue : List (Request PD)) (q : RequestQueue PD), q.Stamped now →
      ({ q with reqs := (sendWaiting maxReqs now waitQueue q.reqs).2 } : RequestQueue PD).Stamped
        now := by
    intro waitQueue
    induction waitQueue with
    | nil => exact fun q h => h
    | cons r rs ih =>
      intro q h
      rw [sendWaiting]
      split
      · refine ih { q with reqs := q.reqs ++ [⟨r, now⟩] } ⟨?_, fun tr htr => ?_⟩
        · refine List.pairwise_append.2 ⟨h.sorted, List.pairwise_singleton .., fun a ha b hb => ?_⟩
          rw [List.mem_singleton.1 hb]
          exact h.past a ha
        · rcases List.mem_append.1 htr with htr | htr
          · exact h.past tr htr
          · rw [List.mem_singleton.1 htr]
      · exact h
  have := hloop q.waitQueue q h
  exact ⟨this.sorted, this.past⟩

omit [DecidableEq PD] in
theorem apply (h : q.Stamped now) (maxReqs : ℕ) (c : QueueCall PD) :
    (q.apply maxReqs now c).Stamped now := by
  cases c with
  | download r =>
    have hwait : ({ q with waitQueue := q.waitQueue ++ [r] } : RequestQueue PD).Stamped now :=
      ⟨h.sorted, h.past⟩
    exact hwait.update maxReqs
  | cancel r =>
    refine h.sublist ?_
    rw [RequestQueue.apply, cancel]
    dsimp only
    split
    · exact .refl _
    · exact List.filter_sublist

omit [DecidableEq PD] in
theorem play (maxReqs : ℕ) : ∀ (cs : List (QueueCall PD)) (q : RequestQueue PD), q.Stamped now →
    (q.play maxReqs now cs).Stamped now := by
  intro cs
  induction cs with
  | nil => exact fun q h => h
  | cons c cs ih => exact fun q h => ih _ (h.apply maxReqs c)

omit [DecidableEq PD] in
theorem piece (h : q.Stamped now) (k : ℕ × ℕ × ℕ) : (q.piece k).Stamped now := by
  refine h.sublist ?_
  rw [RequestQueue.piece]
  split
  · exact List.eraseP_sublist
  · exact .refl _

end RequestQueue.Stamped

namespace RequestBooks

variable {me : PD} {turn : PeerTurn PD} {cache : ℕ → PieceCache M} {s : RequestBooks PD M}

/-- The requests stand in the order in which they were sent. -/
def Stamped (s : RequestBooks PD M) : Prop := s.queue.Stamped s.now

theorem Stamped.onChunk (h : s.Stamped) (c : ℕ) (f : ChunkDownload PD → PeerTable PD) :
    (s.onChunk me turn c f).Stamped := by
  rw [RequestBooks.onChunk]
  split
  · exact h
  · exact RequestQueue.Stamped.play _ _ _ h

theorem Stamped.expire : ∀ (fuel : ℕ) (s : RequestBooks PD M) (reported : List (Request PD)),
    s.Stamped → ∀ r ∈ RequestBooks.expire me turn fuel s reported, r.1.Stamped := by
  intro fuel
  induction fuel with
  | zero =>
    intro s reported _ r hr
    cases hr
  | succ fuel ih =>
    intro s reported h r hr
    rw [RequestBooks.expire] at hr
    split at hr
    · obtain rfl := Option.some.inj hr
      exact h
    · rename_i tr trs hreqs
      split at hr
      · have hrest : Stamped { s with queue := { s.queue with reqs := trs } } :=
          RequestQueue.Stamped.sublist h (by rw [hreqs]; exact List.sublist_cons_self tr trs)
        exact ih _ _ (hrest.onChunk ..) r hr
      · obtain rfl := Option.some.inj hr
        exact h

omit [DecidableEq PD] in
/-- When the first request has not timed out, none has. -/
theorem Stamped.not_timedOut (h : s.Stamped) (hhead : ∀ tr ∈ s.queue.reqs.head?, ¬ TimedOut s.now tr) :
    ∀ tr ∈ s.queue.reqs, ¬ TimedOut s.now tr := by
  have hsorted := h.sorted
  cases hreqs : s.queue.reqs with
  | nil => exact fun tr htr => absurd htr List.not_mem_nil
  | cons first rest =>
    rw [hreqs] at hsorted hhead
    have hfirst : ¬ TimedOut s.now first := hhead first rfl
    intro tr htr
    rcases List.mem_cons.1 htr with rfl | htr
    · exact hfirst
    · have := (List.pairwise_cons.1 hsorted).1 tr htr
      unfold TimedOut at hfirst ⊢
      omega

theorem stamped_step (s : RequestBooks PD M) (e : Event PD × PeerTurn PD) (h : s.Stamped)
    (hok : Allowed e.1) : (step me cache s e).Stamped := by
  obtain ⟨e, turn⟩ := e
  cases e with
  | start c size =>
    rw [step]
    dsimp only
    split <;> exact h
  | finish c =>
    rw [step]
    dsimp only
    split
    · exact h
    · split <;> exact h
  | assign c pd => exact h.onChunk ..
  | release c pd => exact h.onChunk ..
  | update c => exact h.onChunk ..
  | piece p =>
    have hqueue : Stamped (if p.pd = me then
        { s with queue := s.queue.piece (p.index, p.offset, p.data.length) } else s) := by
      split
      · exact RequestQueue.Stamped.piece h _
      · exact h
    rw [step]
    dsimp only
    rw [pieceReceived]
    split
    · exact hqueue
    · exact RequestQueue.Stamped.play _ _ _ hqueue
  | lost r pd reject =>
    rw [step]
    dsimp only
    split
    · exact h
    · exact h.onChunk ..
  | send => exact RequestQueue.Stamped.update h _
  | reject r =>
    rw [step]
    dsimp only
    split
    · have hrest : Stamped { s with queue := (s.queue.onRejected r).2 } :=
        RequestQueue.Stamped.sublist h List.filter_sublist
      exact hrest.onChunk ..
    · exact h
  | choke fast =>
    rw [step]
    dsimp only
    rw [if_pos (show fast = true from hok)]
    exact h
  | timeouts =>
    rw [step]
    dsimp only
    cases hres : checkTimeouts me turn s with
    | none => exact h
    | some r => exact Stamped.expire _ _ _ h r hres
  | tick d => exact RequestQueue.Stamped.later h d

/-! ## Whole runs -/

/-- **The two records agree**, and the loop over the requests stays inside its list. -/
structure RecordsAgree (me : PD) (s : RequestBooks PD M) : Prop where
  /-- A missing piece is recorded exactly when its request is outstanding, once. -/
  count : ∀ c cd i, s.chunks c = some cd → i < cd.num → cd.pieces i = false →
    s.queue.keys.count (cd.toPieceTable.key i) = if i ∈ (cd.toPeerTable.asked me).getD [] then 1 else 0
  /-- What is outstanding was asked for by a chunk download that `me` is assigned to. -/
  owned : ∀ k ∈ s.queue.keys, ∃ cd, s.chunks k.1 = some cd ∧ me ∈ cd.pdown ∧
    ∃ i ∈ (cd.toPeerTable.asked me).getD [], i < cd.num ∧ k = cd.toPieceTable.key i
  /-- After `checkTimeouts` no request is too old. -/
  timeouts : ∀ turn, ∃ s' reported, checkTimeouts me turn s = some (s', reported) ∧
    ∀ tr ∈ s'.queue.reqs, ¬ TimedOut s'.now tr

theorem recordsAgree (h : Linked me s) (hs : s.Stamped) : RecordsAgree me s where
  count := by
    intro c cd i hc hi hmissing
    have hcd := (h.chunk c cd hc).coupled
    rw [List.Nodup.count h.nodup]
    refine if_congr ⟨fun hk => ?_, fun hmem => ?_⟩ rfl rfl
    · obtain ⟨l, hl, j, hj, hjlt, hkey⟩ := hcd.agree.recorded _ hk rfl
      rw [hl, Option.getD_some, PieceTable.key_inj hcd.num hi hjlt hkey]
      exact hj
    · cases hview : cd.toPeerTable.asked me with
      | none =>
        rw [hview] at hmem
        cases hmem
      | some l =>
        rw [hview, Option.getD_some] at hmem
        exact hcd.agree.outstanding l hview i hmem hi hmissing
  owned := by
    intro k hk
    obtain ⟨cd, hc⟩ := Option.isSome_iff_exists.1 (h.owned k hk)
    have hlinked := h.chunk _ cd hc
    obtain ⟨l, hl, i, hi, hlt, hkey⟩ := hlinked.coupled.agree.recorded k hk hlinked.index.symm
    refine ⟨cd, hc, (hlinked.coupled.known me).2 (by rw [hl]; rfl), i, ?_, hlt, hkey⟩
    rw [hl]
    exact hi
  timeouts := by
    intro turn
    obtain ⟨s', reported, heq, -, hhead⟩ := h.timeouts turn
    have hs' : s'.Stamped := Stamped.expire _ _ _ hs _ heq
    exact ⟨s', reported, heq, hs'.not_timedOut hhead⟩

/-- Nothing has been asked for. -/
def empty (mem : M) (now : ℕ) : RequestBooks PD M :=
  { queue := ⟨[], [], []⟩, chunks := fun _ => none, mem := mem, now := now }

/-- **The two records of a request agree** in every run in which the peer rejects what it does not
answer: whatever is assigned, received, cancelled, rejected and timed out, a missing piece is
recorded as requested exactly when its request is outstanding, once. -/
theorem allStates_recordsAgree (me : PD) (cache : ℕ → PieceCache M) (mem : M) (now : ℕ)
    (es : List (Event PD × PeerTurn PD)) (h : ∀ e ∈ es, Allowed e.1) :
    Runs.AllStates (step me cache) (RecordsAgree me) (empty mem now) es := by
  have hstart : Linked me (empty mem now : RequestBooks PD M) ∧
      (empty mem now : RequestBooks PD M).Stamped :=
    ⟨⟨List.nodup_nil, fun _ _ hc => (by cases hc), fun _ hk => absurd hk List.not_mem_nil⟩,
      ⟨List.Pairwise.nil, fun _ htr => absurd htr List.not_mem_nil⟩⟩
  have hstep : ∀ (s : RequestBooks PD M) (e : Event PD × PeerTurn PD),
      (Linked me s ∧ s.Stamped) → Allowed e.1 → Linked me (step me cache s e) ∧
        (step me cache s e).Stamped :=
    fun s e hs hok => ⟨linked_step s e hs.1 hok, stamped_step s e hs.2 hok⟩
  exact (Runs.allStates_of_invariant hstep es _ hstart
    (Runs.allSteps_of_mem fun e he _ => h e he)).mono fun s hs => recordsAgree hs.1 hs.2

/-- One run: a chunk of two pieces, the last one of 5 bytes, is assigned to `me`, which is asked
for both; the last piece arrives, and the first request is rejected. -/
def askedAndRejected : List (Event ℕ × PeerTurn ℕ) :=
  [(.start 0 16389, ⟨fun _ _ => 2, 2⟩), (.assign 0 1, ⟨fun _ _ => 2, 2⟩),
    (.piece ⟨0, 16384, [1, 2, 3, 4, 5], 1⟩, ⟨fun _ _ => 0, 2⟩),
    (.reject ⟨0, 0, 16384, none⟩, ⟨fun _ _ => 0, 2⟩)]

/-- Both pieces are outstanding once after the second event, and nothing at the end. -/
theorem allStates_recordsAgree_twoPieces :
    (Runs.run (step 1 fun _ => ChunkCache.ops) (empty (.empty true) 0) (askedAndRejected.take 2)).queue.keys =
        [(0, 0, 16384), (0, 16384, 5)] ∧
      Runs.AllStates (step 1 fun _ => ChunkCache.ops) (RecordsAgree 1) (empty (.empty true) 0)
        askedAndRejected :=
  ⟨rfl, allStates_recordsAgree 1 _ (ChunkCache.empty true) 0 askedAndRejected (by
    intro e he
    fin_cases he <;> trivial)⟩

end RequestBooks

end KTorrent
