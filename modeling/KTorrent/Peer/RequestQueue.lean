import KTorrent.Download.ChunkDownload

/-!
# The two lists of a peer downloader

The part of `peer/peerdownloader.cpp` that keeps requests.  A request waits in
`wait_queue` until it is sent, and then stands in `reqs`, with the time it was sent
at, until it is answered, cancelled or given up.

* `RequestQueue` — the lists, with the requests that were cancelled.
* `download`, `cancel`, `piece`, `onRejected`, `update` — what the lists are changed by.
* `keys_download`, `keys_cancel`, `keys_piece` — which requests are outstanding
  afterwards, as long as each of them is there once.
-/

namespace KTorrent

variable {PD : Type}

/-- What two requests are compared by: the chunk, the offset and the length. -/
def Request.key (r : Request PD) : ℕ × ℕ × ℕ := (r.index, r.offset, r.length)

/-- `TimeStampedRequest`. -/
structure TimeStampedRequest (PD : Type) where
  req : Request PD
  timeStamp : ℕ
  deriving DecidableEq, Repr

/-- The lists of a `PeerDownloader`. -/
structure RequestQueue (PD : Type) where
  waitQueue : List (Request PD)
  reqs : List (TimeStampedRequest PD)
  /-- The keys `cancel` was called with so far. -/
  cancelled : List (ℕ × ℕ × ℕ)
  deriving DecidableEq, Repr

namespace RequestQueue

/-- The loop of `update`: requests are sent while there are fewer than `maxReqs`. -/
def sendWaiting (maxReqs now : ℕ) : List (Request PD) → List (TimeStampedRequest PD) →
    List (Request PD) × List (TimeStampedRequest PD)
  | [], reqs => ([], reqs)
  | r :: rs, reqs =>
    if reqs.length < maxReqs then sendWaiting maxReqs now rs (reqs ++ [⟨r, now⟩])
    else (r :: rs, reqs)

/-- `PeerDownloader::update`; the rate of the peer gives `maxReqs`. -/
def update (maxReqs now : ℕ) (q : RequestQueue PD) : RequestQueue PD :=
  let (waitQueue, reqs) := sendWaiting maxReqs now q.waitQueue q.reqs
  { q with waitQueue := waitQueue, reqs := reqs }

/-- `PeerDownloader::download`. -/
def download (maxReqs now : ℕ) (q : RequestQueue PD) (r : Request PD) : RequestQueue PD :=
  update maxReqs now { q with waitQueue := q.waitQueue ++ [r] }

/-- `PeerDownloader::cancel`. -/
def cancel (q : RequestQueue PD) (r : Request PD) : RequestQueue PD :=
  let q := { q with cancelled := q.cancelled ++ [r.key] }
  if q.waitQueue.any (·.key = r.key) then
    { q with waitQueue := q.waitQueue.filter (·.key ≠ r.key) }
  else { q with reqs := q.reqs.filter (·.req.key ≠ r.key) }

/-- `PeerDownloader::onRejected`; whether `rejected` is emitted. -/
def onRejected (q : RequestQueue PD) (r : Request PD) : Bool × RequestQueue PD :=
  (q.reqs.any (·.req.key = r.key), { q with reqs := q.reqs.filter (·.req.key ≠ r.key) })

/-- `PeerDownloader::piece`. -/
def piece (q : RequestQueue PD) (key : ℕ × ℕ × ℕ) : RequestQueue PD :=
  if q.reqs.any (·.req.key = key) then { q with reqs := q.reqs.eraseP (·.req.key = key) }
  else { q with waitQueue := q.waitQueue.filter (·.key ≠ key) }

/-! ## Outstanding requests -/

/-- The outstanding requests: `wait_queue` followed by `reqs`. -/
def keys (q : RequestQueue PD) : List (ℕ × ℕ × ℕ) :=
  q.waitQueue.map Request.key ++ q.reqs.map (·.req.key)

variable {q : RequestQueue PD}

/-- Sending moves requests from one list to the other. -/
theorem sendWaiting_perm (maxReqs now : ℕ) : ∀ (waitQueue : List (Request PD))
    (reqs : List (TimeStampedRequest PD)),
    ((sendWaiting maxReqs now waitQueue reqs).1.map Request.key ++
      (sendWaiting maxReqs now waitQueue reqs).2.map (·.req.key)).Perm
        (waitQueue.map Request.key ++ reqs.map (·.req.key)) := by
  intro waitQueue
  induction waitQueue with
  | nil => exact fun reqs => .refl _
  | cons r rs ih =>
    intro reqs
    rw [sendWaiting]
    split
    · refine (ih _).trans ?_
      rw [List.map_append, ← List.append_assoc]
      exact List.perm_append_singleton _ _
    · exact .refl _

theorem keys_update (maxReqs now : ℕ) : (q.update maxReqs now).keys.Perm q.keys :=
  sendWaiting_perm maxReqs now q.waitQueue q.reqs

theorem keys_download (maxReqs now : ℕ) (r : Request PD) :
    (q.download maxReqs now r).keys.Perm (r.key :: q.keys) := by
  refine (keys_update maxReqs now).trans ?_
  rw [keys, List.map_append, List.append_assoc, keys]
  exact List.perm_middle

/-- A list without a key is left alone. -/
theorem filter_key_eq {α : Type*} {f : α → ℕ × ℕ × ℕ} {l : List α} {k : ℕ × ℕ × ℕ}
    (h : k ∉ l.map f) : l.filter (fun a => f a ≠ k) = l := by
  rw [List.filter_eq_self]
  intro a ha
  simpa using fun heq : f a = k => h (heq ▸ List.mem_map_of_mem ha)

theorem map_filter_key {α : Type*} (f : α → ℕ × ℕ × ℕ) (l : List α) (k : ℕ × ℕ × ℕ) :
    (l.filter fun a => f a ≠ k).map f = (l.map f).filter (· ≠ k) := by
  rw [List.filter_map]
  rfl

theorem any_key {α : Type*} (f : α → ℕ × ℕ × ℕ) (l : List α) (k : ℕ × ℕ × ℕ) :
    (l.any fun a => f a = k) = true ↔ k ∈ l.map f := by
  simp [List.any_eq_true, List.mem_map]

/-- What stands in a list once is erased from it. -/
theorem eraseP_key {α : Type*} (f : α → ℕ × ℕ × ℕ) (k : ℕ × ℕ × ℕ) : ∀ l : List α,
    (l.map f).Nodup → l.eraseP (fun a => f a = k) = l.filter fun a => f a ≠ k := by
  intro l
  induction l with
  | nil => exact fun _ => rfl
  | cons a l ih =>
    intro h
    rw [List.map_cons, List.nodup_cons] at h
    by_cases hk : f a = k
    · rw [List.eraseP_cons_of_pos (by simpa using hk), List.filter_cons_of_neg (by simpa using hk),
        filter_key_eq (by rw [← hk]; exact h.1)]
    · rw [List.eraseP_cons_of_neg (by simpa using hk), List.filter_cons_of_pos (by simpa using hk),
        ih h.2]

/-- A cancelled request is no longer outstanding. -/
theorem keys_cancel (h : q.keys.Nodup) (r : Request PD) :
    (q.cancel r).keys = q.keys.filter (· ≠ r.key) := by
  rw [cancel]
  dsimp only
  split
  · -- the request waits: it was not sent
    rename_i hwait
    have hmem := (any_key Request.key _ _).1 hwait
    have hnot : r.key ∉ q.reqs.map (·.req.key) := fun hreq =>
      (List.nodup_append.1 h).2.2 _ hmem _ hreq rfl
    rw [keys, keys, List.filter_append, ← map_filter_key, ← map_filter_key, filter_key_eq hnot]
  · rename_i hwait
    have hnot : r.key ∉ q.waitQueue.map Request.key := fun hmem => hwait ((any_key _ _ _).2 hmem)
    rw [keys, keys, List.filter_append, ← map_filter_key, ← map_filter_key, filter_key_eq hnot]

/-- An answered request is no longer outstanding. -/
theorem keys_piece (h : q.keys.Nodup) (k : ℕ × ℕ × ℕ) :
    (q.piece k).keys = q.keys.filter (· ≠ k) := by
  rw [piece]
  split
  · rename_i hsent
    have hmem := (any_key (fun e : TimeStampedRequest PD => e.req.key) _ _).1 hsent
    have hnot : k ∉ q.waitQueue.map Request.key := fun hwait =>
      (List.nodup_append.1 h).2.2 _ hwait _ hmem rfl
    have hnodup : (q.reqs.map (·.req.key)).Nodup := (List.nodup_append.1 h).2.1
    rw [eraseP_key _ _ _ hnodup, keys, keys, List.filter_append, ← map_filter_key,
      ← map_filter_key, filter_key_eq hnot]
  · rename_i hsent
    have hnot : k ∉ q.reqs.map (·.req.key) := fun hmem =>
      hsent ((any_key (fun e : TimeStampedRequest PD => e.req.key) _ _).2 hmem)
    rw [keys, keys, List.filter_append, ← map_filter_key, ← map_filter_key, filter_key_eq hnot]

/-- A rejected request is no longer outstanding, when it was sent. -/
theorem keys_onRejected (h : q.keys.Nodup) {r : Request PD} (hsent : (q.onRejected r).1 = true) :
    (q.onRejected r).2.keys = q.keys.filter (· ≠ r.key) := by
  have hmem := (any_key (fun e : TimeStampedRequest PD => e.req.key) _ _).1 hsent
  have hnot : r.key ∉ q.waitQueue.map Request.key := fun hwait =>
    (List.nodup_append.1 h).2.2 _ hwait _ hmem rfl
  rw [onRejected, keys, keys, List.filter_append, ← map_filter_key, ← map_filter_key,
    filter_key_eq hnot]

end RequestQueue

end KTorrent
