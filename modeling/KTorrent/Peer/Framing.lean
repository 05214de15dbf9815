import KTorrent.Util.Endian

/-!
# The packets of a stream

A stream consists of packets, each of them behind its length.

* `frames` — the packets of a stream, as the protocol has it.
* `Framing` — an automaton that reads the stream byte by byte.
* `feedAll_frames` — it finds the packets.
-/

namespace KTorrent

/-- What a stream consists of. -/
structure Frames where
  /-- The packets that are complete, empty ones included. -/
  bodies : List (List UInt8)
  /-- They are followed by a length that is too large. -/
  tooLarge : Bool

/-- The packets of a stream, up to the first one that is incomplete or too large. -/
def frames (maxPacketSize : ℕ) (stream : List UInt8) : Frames :=
  match readUint32 stream 0 with
  | none => ⟨[], false⟩
  | some n =>
    if n.toNat > maxPacketSize then ⟨[], true⟩
    else if h : stream.length < 4 + n.toNat then ⟨[], false⟩
    else
      let rest := frames maxPacketSize (stream.drop (4 + n.toNat))
      ⟨(stream.drop 4).take n.toNat :: rest.bodies, rest.tooLarge⟩
termination_by stream.length
decreasing_by
  rw [List.length_drop]
  omega

/-- The packets that are not empty. -/
def Frames.packets (f : Frames) : List (List UInt8) := f.bodies.filter fun p => p.length ≠ 0

/-! ## Byte by byte -/

/-- Where in the stream a reader is: in a length, in a packet of `n` bytes, or
behind a length that was too large. -/
inductive FrameState where
  | len (bs : List UInt8)
  | body (n : ℕ) (bs : List UInt8)
  | failed
  deriving DecidableEq, Repr

/-- The packets found so far, and the place in the stream. -/
structure Framing where
  out : List (List UInt8)
  state : FrameState
  deriving DecidableEq, Repr

namespace Framing

/-- Behind a length. -/
def start (maxPacketSize : ℕ) (out : List (List UInt8)) (n : ℕ) : Framing :=
  if n = 0 then ⟨out, .len []⟩
  else if n > maxPacketSize then ⟨out, .failed⟩
  else ⟨out, .body n []⟩

/-- One byte. -/
def feed (maxPacketSize : ℕ) (f : Framing) (b : UInt8) : Framing :=
  match f.state with
  | .len bs =>
    match readUint32 (bs ++ [b]) 0 with
    | none => ⟨f.out, .len (bs ++ [b])⟩
    | some n => start maxPacketSize f.out n.toNat
  | .body n bs =>
    if (bs ++ [b]).length = n then ⟨f.out ++ [bs ++ [b]], .len []⟩ else ⟨f.out, .body n (bs ++ [b])⟩
  | .failed => f

/-- Some bytes. -/
def feedAll (maxPacketSize : ℕ) (f : Framing) (bytes : List UInt8) : Framing :=
  bytes.foldl (feed maxPacketSize) f

/-- Not inside a packet. -/
def Between (f : Framing) : Prop := ∀ n bs, f.state ≠ .body n bs

theorem between_len (out : List (List UInt8)) (bs : List UInt8) : Between ⟨out, .len bs⟩ := by
  intro n bs h
  cases h

variable {max : ℕ} {out : List (List UInt8)}

theorem feedAll_append (f : Framing) (xs ys : List UInt8) :
    feedAll max f (xs ++ ys) = feedAll max (feedAll max f xs) ys := List.foldl_append

theorem feedAll_failed (xs : List UInt8) : feedAll max ⟨out, .failed⟩ xs = ⟨out, .failed⟩ := by
  induction xs with
  | nil => rfl
  | cons x xs ih => exact ih

theorem readUint32_none {bs : List UInt8} (h : bs.length < 4) : readUint32 bs 0 = none := by
  unfold readUint32
  rw [List.drop_zero]
  match bs, h with
  | [], _ => rfl
  | [_], _ => rfl
  | [_, _], _ => rfl
  | [_, _, _], _ => rfl
  | _ :: _ :: _ :: _ :: _, h => simp at h; omega

/-- A length can be read from its four bytes. -/
theorem readUint32_some {bs : List UInt8} (h : 4 ≤ bs.length) :
    ∃ n, ∀ tail, readUint32 (bs.take 4 ++ tail) 0 = some n := by
  match bs, h with
  | a :: b :: c :: d :: rest, _ => exact ⟨_, fun tail => rfl⟩
  | [], h => simp at h
  | [_], h => simp at h
  | [_, _], h => simp at h
  | [_, _, _], h => simp at h

/-- Bytes of a length that stays incomplete. -/
theorem feedAll_len_short : ∀ (xs bs : List UInt8), bs.length + xs.length < 4 →
    feedAll max ⟨out, .len bs⟩ xs = ⟨out, .len (bs ++ xs)⟩ := by
  intro xs
  induction xs with
  | nil =>
    intro bs _
    rw [List.append_nil]
    rfl
  | cons x xs ih =>
    intro bs h
    rw [List.length_cons] at h
    have hnone : readUint32 (bs ++ [x]) 0 = none := by
      apply readUint32_none
      rw [List.length_append, List.length_singleton]
      omega
    have hfeed : feed max ⟨out, .len bs⟩ x = ⟨out, .len (bs ++ [x])⟩ := by
      simp only [feed, hnone]
    have hrec := ih (bs ++ [x]) (by rw [List.length_append, List.length_singleton]; omega)
    rw [List.append_assoc, List.singleton_append] at hrec
    rw [← hrec, ← hfeed]
    rfl

/-- The last bytes of a length. -/
theorem feedAll_len {bs xs : List UInt8} {n : UInt32} (hbs : bs.length < 4)
    (h : bs.length + xs.length = 4) (hn : readUint32 (bs ++ xs) 0 = some n) :
    feedAll max ⟨out, .len bs⟩ xs = start max out n.toNat := by
  have hne : xs ≠ [] := by
    rintro rfl
    simp at h
    omega
  obtain ⟨ys, y, rfl⟩ := (List.eq_nil_or_concat' xs).resolve_left hne
  rw [List.length_append, List.length_singleton] at h
  rw [feedAll_append, feedAll_len_short ys bs (by omega)]
  rw [← List.append_assoc] at hn
  show feed max ⟨out, .len (bs ++ ys)⟩ y = _
  simp only [feed, hn]

/-- Bytes of a packet that stays incomplete. -/
theorem feedAll_body_short {n : ℕ} : ∀ (xs bs : List UInt8), bs.length + xs.length < n →
    feedAll max ⟨out, .body n bs⟩ xs = ⟨out, .body n (bs ++ xs)⟩ := by
  intro xs
  induction xs with
  | nil =>
    intro bs _
    rw [List.append_nil]
    rfl
  | cons x xs ih =>
    intro bs h
    rw [List.length_cons] at h
    have hfeed : feed max ⟨out, .body n bs⟩ x = ⟨out, .body n (bs ++ [x])⟩ := by
      have hlen : (bs ++ [x]).length ≠ n := by
        rw [List.length_append, List.length_singleton]
        omega
      simp only [feed, if_neg hlen]
    have hrec := ih (bs ++ [x]) (by rw [List.length_append, List.length_singleton]; omega)
    rw [List.append_assoc, List.singleton_append] at hrec
    rw [← hrec, ← hfeed]
    rfl

/-- The last bytes of a packet. -/
theorem feedAll_body {n : ℕ} {bs xs : List UInt8} (hbs : bs.length < n)
    (h : bs.length + xs.length = n) :
    feedAll max ⟨out, .body n bs⟩ xs = ⟨out ++ [bs ++ xs], .len []⟩ := by
  have hne : xs ≠ [] := by
    rintro rfl
    simp at h
    omega
  obtain ⟨ys, y, rfl⟩ := (List.eq_nil_or_concat' xs).resolve_left hne
  rw [List.length_append, List.length_singleton] at h
  rw [feedAll_append, feedAll_body_short ys bs (by omega)]
  have hlen : (bs ++ ys ++ [y]).length = n := by
    simp only [List.length_append, List.length_singleton]
    omega
  show feed max ⟨out, .body n (bs ++ ys)⟩ y = _
  simp only [feed]
  rw [if_pos hlen, List.append_assoc]

/-- **The automaton finds the packets of a stream**, and fails exactly at a length
that is too large. -/
theorem feedAll_frames : ∀ (k : ℕ) (stream : List UInt8) (out : List (List UInt8)),
    stream.length ≤ k →
    (feedAll max ⟨out, .len []⟩ stream).out = out ++ (frames max stream).packets ∧
      ((feedAll max ⟨out, .len []⟩ stream).state = .failed ↔
        (frames max stream).tooLarge = true) := by
  intro k
  induction k with
  | zero =>
    intro stream out hk
    obtain rfl : stream = [] := List.length_eq_zero_iff.mp (by omega)
    rw [frames]
    simp [feedAll, readUint32, Frames.packets]
  | succ k ih =>
    intro stream out hk
    by_cases h4 : stream.length < 4
    · rw [feedAll_len_short stream [] (by simpa using h4), frames, readUint32_none h4]
      simp [Frames.packets]
    · obtain ⟨n, hn⟩ := readUint32_some (not_lt.mp h4)
      have hlen : (stream.take 4).length = 4 := by
        rw [List.length_take]
        omega
      have hsplit : feedAll max ⟨out, .len []⟩ stream
          = feedAll max (start max out n.toNat) (stream.drop 4) := by
        conv_lhs => rw [← List.take_append_drop 4 stream, feedAll_append]
        rw [feedAll_len (by simp) (by simpa using hlen)]
        simpa using hn []
      have hread : readUint32 stream 0 = some n := by
        have := hn (stream.drop 4)
        rwa [List.take_append_drop] at this
      rw [hsplit, frames, hread]
      by_cases hmax : n.toNat > max
      · -- the length is too large
        have hstart : start max out n.toNat = ⟨out, .failed⟩ := by
          unfold start
          rw [if_neg (by omega), if_pos hmax]
        simp [hstart, feedAll_failed, hmax, Frames.packets]
      · by_cases hshort : stream.length < 4 + n.toNat
        · -- the packet is incomplete
          have hstart : start max out n.toNat = ⟨out, .body n.toNat []⟩ := by
            unfold start
            rw [if_neg (by omega), if_neg hmax]
          have hdrop : (stream.drop 4).length < n.toNat := by
            rw [List.length_drop]
            omega
          rw [hstart, feedAll_body_short _ [] (by simpa using hdrop)]
          simp [hmax, hshort, Frames.packets]
        · -- the packet is complete
          have hbody : ((stream.drop 4).take n.toNat).length = n.toNat := by
            rw [List.length_take, List.length_drop]
            omega
          have hrest : (stream.drop 4).drop n.toNat = stream.drop (4 + n.toNat) := by
            rw [List.drop_drop]
          have hfeed : feedAll max (start max out n.toNat) (stream.drop 4)
              = feedAll max ⟨out ++ [(stream.drop 4).take n.toNat].filter fun p => p.length ≠ 0,
                .len []⟩ (stream.drop (4 + n.toNat)) := by
            conv_lhs => rw [← List.take_append_drop n.toNat (stream.drop 4), feedAll_append, hrest]
            congr 1
            by_cases hzero : n.toNat = 0
            · rw [hzero]
              simp [start, feedAll]
            · have hstart : start max out n.toNat = ⟨out, .body n.toNat []⟩ := by
                unfold start
                rw [if_neg hzero, if_neg hmax]
              rw [hstart, feedAll_body (by simp; omega) (by simpa using hbody)]
              simp only [List.nil_append, List.filter_cons, hbody, hzero, ne_eq, not_false_eq_true,
                decide_true, if_true, List.filter_nil]
          have hdrop : (stream.drop (4 + n.toNat)).length ≤ k := by
            rw [List.length_drop]
            omega
          obtain ⟨hout, hfail⟩ := ih (stream.drop (4 + n.toNat))
            (out ++ [(stream.drop 4).take n.toNat].filter fun p => p.length ≠ 0) hdrop
          rw [hfeed, hout, hfail]
          simp only [gt_iff_lt, hmax, if_false, hshort, dite_false, Frames.packets,
            List.append_assoc, ← List.filter_append, List.singleton_append, and_self]

end Framing

end KTorrent
