import KTorrent.Download.HttpConnection

/-!
# The bytes that a web seed is handed

A server answers a request for a range with the range, or with the whole file.

* `Response` — a reply: a status line, fields and a body.
* `Response.indexOf_header` — the end of its header; `Response.statusCode_parse` — its status.
* `Live` — the connection while the reply arrives, from the number of bytes that have arrived.
* `takenAt` — how many have arrived when the range is taken away.
* `run_body` — the bytes that are handed out are those of the body up to there.
* `handedOut_iff` — so they are the range when the server sends only the range, and otherwise
  exactly when the file starts with the same bytes and they are taken before more arrive.
-/

namespace KTorrent.Http

open Pattern Runs

/-! ## Replies -/

/-- A reply, without its body.  The status is 206 or 200. -/
structure Response where
  /-- The status is 206. -/
  isPartial : Bool
  reason : List UInt8
  /-- The lines of the header after the first. -/
  fields : List (List UInt8)
  reason_ok : 13 ∉ reason ∧ 10 ∉ reason
  fields_ok : ∀ l ∈ fields, l ≠ [] ∧ 13 ∉ l ∧ 10 ∉ l

namespace Response

/-- The status line up to the reason. -/
def status (isPartial : Bool) : List UInt8 :=
  ascii "HTTP/1.1 " ++ if isPartial then ascii "206" else ascii "200"

variable (r : Response)

/-- The lines of the header. -/
def lines : List (List UInt8) := (status r.isPartial ++ 32 :: r.reason) :: r.fields

/-- The header, with the line that ends it. -/
def header : List UInt8 := r.lines.flatMap (· ++ crlf) ++ crlf

/-- What the server sends of the file `F` after the header. -/
def body (F : List UInt8) (start len : ℕ) : List UInt8 :=
  if r.isPartial then (F.drop start).take len else F

end Response

/-! ## The end of the header -/

/-- What has arrived, and the bytes that come next. -/
theorem take_append_of_prefix {α : Type*} {wire buf : List α} {got : ℕ}
    (h : buf <+: wire.drop got) : wire.take got ++ buf = wire.take (got + buf.length) := by
  obtain ⟨rest, hrest⟩ := h
  rw [List.take_add, ← hrest, List.take_append_of_le_length le_rfl, List.take_length]

/-- Lines end where an empty one follows. -/
theorem indexOf_lines (rest : List UInt8) : ∀ {lines : List (List UInt8)}, lines ≠ [] →
    (∀ l ∈ lines, l ≠ [] ∧ 13 ∉ l) →
    indexOf (crlf ++ crlf) (lines.flatMap (· ++ crlf) ++ crlf ++ rest) =
      some ((lines.flatMap (· ++ crlf)).length - 2) := by
  intro lines
  induction lines with
  | nil => exact fun h => absurd rfl h
  | cons l lines ih =>
    intro _ hlines
    have hl := hlines l List.mem_cons_self
    have hsplit : (l :: lines).flatMap (· ++ crlf) ++ crlf ++ rest =
        l ++ 13 :: 10 :: (lines.flatMap (· ++ crlf) ++ crlf ++ rest) := by
      simp [crlf]
    have hlength : ((l :: lines).flatMap (· ++ crlf)).length =
        l.length + 2 + (lines.flatMap (· ++ crlf)).length := by
      simp [crlf]
      omega
    have hskip := indexOf_append_of_notMem (p := [10, 13, 10])
      (s := 13 :: 10 :: (lines.flatMap (· ++ crlf) ++ crlf ++ rest)) hl.2
    rw [hsplit, hlength, show crlf ++ crlf = [13, 10, 13, 10] from rfl, hskip]
    cases lines with
    | nil =>
      have hhere : ([13, 10, 13, 10] : List UInt8) <+: 13 :: 10 :: (crlf ++ rest) := ⟨rest, rfl⟩
      have hfound : indexOf [13, 10, 13, 10] (13 :: 10 :: (crlf ++ rest)) = some 0 := by
        rw [indexOf, if_pos hhere]
      rw [List.flatMap_nil, List.nil_append, hfound]
      simp
    | cons l' lines =>
      have hl' := hlines l' (by simp)
      obtain ⟨c, t, rfl⟩ := List.exists_cons_of_ne_nil hl'.1
      have hc : c ≠ 13 := fun hc => hl'.2 (by simp [hc])
      have hih := ih (by simp) fun k hk => hlines k (List.mem_cons_of_mem l hk)
      obtain ⟨s, hs⟩ : ∃ s, ((c :: t) :: lines).flatMap (· ++ crlf) ++ crlf ++ rest = c :: s :=
        ⟨_, rfl⟩
      have hlong : 2 ≤ (((c :: t) :: lines).flatMap (· ++ crlf)).length := by
        simp [crlf]
        omega
      rw [show crlf ++ crlf = [13, 10, 13, 10] from rfl] at hih
      rw [hs] at hih ⊢
      have hnext : indexOf [13, 10, 13, 10] (13 :: 10 :: c :: s) =
          (indexOf [13, 10, 13, 10] (c :: s)).map (· + 2) := by
        rw [indexOf, if_neg (by simp [List.cons_prefix_cons, Ne.symm hc]), indexOf,
          if_neg (by simp [List.cons_prefix_cons]), Option.map_map]
        rfl
      rw [hnext, hih, Option.map_some, Option.map_some]
      congr 1
      omega

namespace Response

variable (r : Response)

theorem lines_ok : ∀ l ∈ r.lines, l ≠ [] ∧ 13 ∉ l := by
  intro l hl
  rcases List.mem_cons.mp hl with rfl | hl
  · refine ⟨by simp [status, ascii], ?_⟩
    rw [List.mem_append, List.mem_cons, not_or, not_or]
    refine ⟨?_, by decide, r.reason_ok.1⟩
    cases r.isPartial <;> decide
  · exact ⟨(r.fields_ok l hl).1, (r.fields_ok l hl).2.1⟩

/-- **Where the header ends.** -/
theorem indexOf_header (rest : List UInt8) :
    indexOf (crlf ++ crlf) (r.header ++ rest) = some (r.header.length - 4) := by
  have hlen : r.header.length = (r.lines.flatMap (· ++ crlf)).length + 2 := by
    rw [header, List.length_append]
    rfl
  have hfound := indexOf_lines rest (show r.lines ≠ [] from List.cons_ne_nil _ _) r.lines_ok
  rw [← header] at hfound
  rw [hfound, hlen]
  congr 1

theorem four_le_header : 4 ≤ r.header.length := by
  simp [header, lines, crlf]
  omega

end Response

/-! ## The status -/

/-- What may follow the status. -/
def Spaced (t : List UInt8) : Prop := t = [] ∨ ∃ u, t = 32 :: u

theorem squeeze_spaced {t : List UInt8} (ht : Spaced t) : Spaced (squeeze false t) := by
  have htrue : ∀ s : List UInt8, Spaced (squeeze true s) := by
    intro s
    induction s with
    | nil => exact .inl rfl
    | cons c s ih =>
      rw [squeeze]
      split
      · exact ih
      · exact .inr ⟨_, rfl⟩
  rcases ht with rfl | ⟨u, rfl⟩
  · exact .inl rfl
  · exact htrue u

/-- The number of a status. -/
def Response.code (isPartial : Bool) : ℤ := if isPartial then 206 else 200

namespace ResponseHeader

open Response (status code)

theorem simplified_status (b : Bool) (t : List UInt8) :
    simplified (status b ++ t) = status b ++ squeeze false t := by
  cases b <;> rfl

/-- The status line is understood. -/
theorem parseLine_status (b : Bool) {t : List UInt8} (ht : Spaced t) (h : ResponseHeader) :
    (parseLine (status b ++ t) 0 h).1 = true ∧
      (parseLine (status b ++ t) 0 h).2.statusCode = code b := by
  have hhttp : ascii "HTTP/" = [72, 84, 84, 80, 47] := by decide
  rw [parseLine, if_neg (by decide), simplified_status, hhttp]
  rcases squeeze_spaced ht with hu | ⟨u, hu⟩
  all_goals
    rw [hu]
    cases b with
    | true => exact ⟨rfl, rfl⟩
    | false => exact ⟨rfl, rfl⟩

theorem parseLines_cons (number : ℕ) (line : List UInt8) (lines : List (List UInt8))
    (h : ResponseHeader) : parseLines number (line :: lines) h =
      if (parseLine line number h).1 then parseLines (number + 1) lines (parseLine line number h).2
      else (parseLine line number h).2 := rfl

/-- The fields do not change the status. -/
theorem parseLines_statusCode (lines : List (List UInt8)) : ∀ (number : ℕ) (h : ResponseHeader),
    number ≠ 0 → (parseLines number lines h).statusCode = h.statusCode := by
  induction lines with
  | nil => exact fun _ _ _ => rfl
  | cons line lines ih =>
    intro number h hnumber
    have hline : (parseLine line number h).2.statusCode = h.statusCode := by
      rw [parseLine, if_pos hnumber]
      split <;> rfl
    rw [parseLines_cons]
    split
    · rw [ih _ _ (by omega), hline]
    · exact hline

/-- A line that goes on with the status line comes after a space. -/
theorem foldLine_status {b : Bool} {t : List UInt8} (ht : Spaced t) (ls : List (List UInt8))
    (line : List UInt8) : ∃ t' ls', Spaced t' ∧
      foldLine ((status b ++ t) :: ls) line = (status b ++ t') :: ls' := by
  rw [foldLine]
  cases line with
  | nil => exact ⟨t, ls, ht, rfl⟩
  | cons c line =>
    simp only [List.head?_cons, List.getLast?_cons]
    split
    · cases ls with
      | nil =>
        refine ⟨t ++ 32 :: trimmed (c :: line), [], ?_, by simp⟩
        rcases ht with rfl | ⟨u, rfl⟩
        · exact .inr ⟨_, rfl⟩
        · exact .inr ⟨_, rfl⟩
      | cons l ls => exact ⟨t, _, ht, by rw [List.dropLast_cons_cons, List.cons_append]⟩
    · exact ⟨t, ls ++ [c :: line], ht, rfl⟩

theorem foldLines_status {b : Bool} (lines : List (List UInt8)) :
    ∀ {t : List UInt8} {ls : List (List UInt8)}, Spaced t →
    ∃ t' ls', Spaced t' ∧
      lines.foldl foldLine ((status b ++ t) :: ls) = (status b ++ t') :: ls' := by
  induction lines with
  | nil => exact fun {t ls} ht => ⟨t, ls, ht, rfl⟩
  | cons line lines ih =>
    intro t ls ht
    obtain ⟨t', ls', ht', hfold⟩ := foldLine_status ht ls line
    rw [List.foldl_cons, hfold]
    exact ih ht'

/-- The first of the lines of a text. -/
theorem splitOn_status (b : Bool) {t : List UInt8} (ht : Spaced t) : ∃ t' ls, Spaced t' ∧
    splitOn crlf 0 (status b ++ t) = (status b ++ t') :: ls := by
  have hnot : (13 : UInt8) ∉ status b := by cases b <;> decide
  rw [show crlf = 13 :: [10] from rfl, splitOn_append_of_notMem hnot]
  rcases ht with rfl | ⟨u, rfl⟩
  · exact ⟨[], [], .inl rfl, rfl⟩
  · obtain ⟨l, ls, hl⟩ := List.exists_cons_of_ne_nil (splitOn_ne_nil [13, 10] u 0)
    rw [splitOn, if_neg (by simp [List.cons_prefix_cons]), hl]
    exact ⟨32 :: l, ls, .inr ⟨l, rfl⟩, rfl⟩

/-- Spaces are only taken from the end of what follows the status. -/
theorem trimmed_status (b : Bool) (t : List UInt8) :
    trimmed (status b ++ t) = status b ++ (t.reverse.dropWhile isSpace).reverse := by
  have hfront : (status b ++ t).dropWhile isSpace = status b ++ t := by cases b <;> rfl
  have hback : (status b).reverse.dropWhile isSpace = (status b).reverse := by cases b <;> decide
  rw [trimmed, hfront, List.reverse_append, List.dropWhile_append]
  split
  next hnil =>
    rw [List.isEmpty_iff] at hnil
    rw [hback, List.reverse_reverse, hnil, List.reverse_nil, List.append_nil]
  next => rw [List.reverse_append, List.reverse_reverse]

end ResponseHeader

/-- What is left when spaces are taken from the end. -/
theorem spaced_trimEnd (t : List UInt8) : Spaced ((32 :: t).reverse.dropWhile isSpace).reverse := by
  have hsuffix := List.dropWhile_suffix isSpace (l := (32 :: t).reverse)
  have hprefix : ((32 :: t).reverse.dropWhile isSpace).reverse <+: 32 :: t := by
    rw [← List.reverse_suffix, List.reverse_reverse]
    exact hsuffix
  rcases List.prefix_cons_iff.mp hprefix with h | ⟨u, hu, -⟩
  · exact .inl h
  · exact .inr ⟨u, hu⟩

open ResponseHeader in
/-- **The status of the reply**, whatever its fields are. -/
theorem Response.statusCode_parse (r : Response) (stale : ℤ) :
    (ResponseHeader.parse stale r.header).statusCode = code r.isPartial := by
  obtain ⟨rest, hrest⟩ : ∃ rest, r.header =
      (status r.isPartial ++ 32 :: r.reason ++ [13]) ++ 10 :: rest := by
    refine ⟨r.fields.flatMap (· ++ crlf) ++ crlf, ?_⟩
    simp [header, lines, crlf]
  -- the lines end with both characters
  have hnot : (10 : UInt8) ∉ status r.isPartial ++ 32 :: r.reason ++ [13] := by
    have hstatus : (10 : UInt8) ∉ status r.isPartial := by cases r.isPartial <;> decide
    simp [hstatus, r.reason_ok.2]
  have hindex : indexOf [10] r.header =
      some (status r.isPartial ++ 32 :: r.reason ++ [13]).length := by
    rw [hrest, indexOf_append_of_notMem hnot, indexOf, if_pos (by simp [List.cons_prefix_cons])]
    rfl
  have hended : ((indexOf [10] r.header).any fun pos =>
      0 < pos && r.header[pos - 1]? == some 13) = true := by
    rw [hindex, hrest]
    simp
  -- the status line comes first
  obtain ⟨u, hu⟩ : ∃ u, r.header = status r.isPartial ++ 32 :: u :=
    ⟨r.reason ++ [13] ++ 10 :: rest, by rw [hrest]; simp⟩
  obtain ⟨t, ls, ht, hsplit⟩ := splitOn_status r.isPartial (spaced_trimEnd u)
  have hne : status r.isPartial ++ t ≠ [] := by cases r.isPartial <;> exact List.cons_ne_nil _ _
  have hfirst : foldLine [] (status r.isPartial ++ t) = [status r.isPartial ++ t] := by
    cases r.isPartial <;> rfl
  have hkept : ((status r.isPartial ++ t) :: ls).filter (· ≠ []) =
      (status r.isPartial ++ t) :: ls.filter (· ≠ []) :=
    List.filter_cons_of_pos (decide_eq_true hne)
  rw [parse, hended, if_pos rfl, hu, trimmed_status, hsplit,
    hkept, List.foldl_cons, hfirst]
  obtain ⟨t', ls', ht', hfold⟩ := @foldLines_status r.isPartial (ls.filter (· ≠ [])) t [] ht
  rw [hfold, parseLines_cons]
  obtain ⟨hok, hcode⟩ := parseLine_status r.isPartial ht'
    { values := [], statusCode := stale, reasonPhrase := [] }
  rw [hok, if_pos rfl, parseLines_statusCode _ _ _ (by decide), hcode]

/-! ## While the reply arrives -/

/-- The connection when `got` bytes of the reply `wire` have arrived, of which `header` belong to
the header, and the bytes `out` have been handed out of a request for `len`. -/
structure Live (wire : List UInt8) (header len : ℕ) (c : Connection) (out : List UInt8) (got : ℕ) :
    Prop where
  state : c.state ≠ .error
  request : ∃ g, c.request = some g ∧ g.len = len ∧ g.redirected = false ∧
    (got < header → g.responseHeaderReceived = false ∧ g.buffer = wire.take got ∧
      g.pieceData = [] ∧ g.dataReceived = 0 ∧ out = []) ∧
    (header ≤ got → g.responseHeaderReceived = true ∧ g.dataReceived = got - header ∧
      out ++ g.pieceData = (wire.take got).drop header ∧ out.length < len)

section Run

variable {r : Response} {body : List UInt8} {len got : ℕ} {c : Connection} {out : List UInt8}
  {stale : ℤ}

/-- The end of the header is found, and the status is one of the good ones. -/
theorem onDataReady_found {g : HttpGet} {buf : List UInt8} {idx : ℕ}
    (hheader : g.responseHeaderReceived = false)
    (hidx : indexOf (crlf ++ crlf) (g.buffer ++ buf) = some idx)
    (hstatus : (ResponseHeader.parse stale ((g.buffer ++ buf).take (idx + 4))).statusCode = 200 ∨
      (ResponseHeader.parse stale ((g.buffer ++ buf).take (idx + 4))).statusCode = 206) :
    ∃ g', g.onDataReady stale buf = (true, g') ∧ g'.len = g.len ∧ g'.redirected = g.redirected ∧
      g'.responseHeaderReceived = true ∧
      g'.dataReceived = g.dataReceived + ((g.buffer ++ buf).length - (idx + 4)) ∧
      g'.pieceData = g.pieceData ++ (g.buffer ++ buf).drop (idx + 4) := by
  rw [HttpGet.onDataReady, if_pos hheader]
  dsimp only
  rw [hidx]
  dsimp only
  generalize ResponseHeader.parse stale ((g.buffer ++ buf).take (idx + 4)) = hdr at hstatus ⊢
  have hnot : ¬ ((300 ≤ hdr.statusCode ∧ hdr.statusCode ≤ 303) ∨ hdr.statusCode = 307) := by omega
  rw [if_neg hnot, if_neg (not_not.mpr hstatus)]
  by_cases hmore : 0 < (g.buffer ++ buf).length - (idx + 4)
  · rw [if_pos hmore]
    exact ⟨_, rfl, rfl, rfl, rfl, rfl, rfl⟩
  · rw [if_neg hmore]
    refine ⟨_, rfl, rfl, rfl, rfl, by dsimp only; omega, ?_⟩
    rw [List.drop_eq_nil_of_le (by omega), List.append_nil]

variable (stale) in
/-- The header has come in, with the first bytes of the body. -/
theorem onDataReady_header {g : HttpGet} {buf : List UInt8}
    (hheader : g.responseHeaderReceived = false) (hbuffer : g.buffer = (r.header ++ body).take got)
    (hpiece : g.pieceData = []) (hreceived : g.dataReceived = 0)
    (hgot : got ≤ (r.header ++ body).length) (hbuf : buf <+: (r.header ++ body).drop got)
    (hle : r.header.length ≤ got + buf.length) :
    ∃ g', g.onDataReady stale buf = (true, g') ∧ g'.len = g.len ∧ g'.redirected = g.redirected ∧
      g'.responseHeaderReceived = true ∧ g'.dataReceived = got + buf.length - r.header.length ∧
      g'.pieceData = ((r.header ++ body).take (got + buf.length)).drop r.header.length := by
  have hfour := r.four_le_header
  have hjoined : g.buffer ++ buf = (r.header ++ body).take (got + buf.length) := by
    rw [hbuffer, take_append_of_prefix hbuf]
  have hidx : indexOf (crlf ++ crlf) (g.buffer ++ buf) = some (r.header.length - 4) := by
    rw [hjoined]
    exact indexOf_take (r.indexOf_header body) (by decide)
      (show r.header.length - 4 + 4 ≤ _ by omega)
  have htake : (g.buffer ++ buf).take (r.header.length - 4 + 4) = r.header := by
    rw [hjoined, List.take_take, Nat.sub_add_cancel hfour, min_eq_left hle,
      List.take_append_of_le_length le_rfl, List.take_length]
  have hstatus : (ResponseHeader.parse stale
      ((g.buffer ++ buf).take (r.header.length - 4 + 4))).statusCode = Response.code r.isPartial := by
    rw [htake, r.statusCode_parse]
  obtain ⟨g', hg', hlen, hredirected, hthere, hdata, hbytes⟩ := onDataReady_found hheader hidx
    (by rw [hstatus]; cases r.isPartial <;> decide)
  refine ⟨g', hg', hlen, hredirected, hthere, ?_, ?_⟩
  · have hfits := hbuf.length_le
    rw [List.length_drop] at hfits
    rw [hdata, hreceived, hjoined, List.length_take]
    omega
  · rw [hbytes, hpiece, List.nil_append, hjoined, Nat.sub_add_cancel hfour]

theorem onDataReady_waiting {g : HttpGet} {buf : List UInt8}
    (hheader : g.responseHeaderReceived = false)
    (hidx : indexOf (crlf ++ crlf) (g.buffer ++ buf) = none) :
    g.onDataReady stale buf = (true, { g with buffer := g.buffer ++ buf }) := by
  rw [HttpGet.onDataReady, if_pos hheader]
  dsimp only
  rw [hidx]

theorem onDataReady_body {g : HttpGet} (buf : List UInt8)
    (hheader : g.responseHeaderReceived = true) :
    g.onDataReady stale buf = (true, { g with
      dataReceived := g.dataReceived + buf.length, pieceData := g.pieceData ++ buf }) := by
  rw [HttpGet.onDataReady, if_neg (by rw [hheader]; decide)]

/-- A reply that is understood goes to the request. -/
theorem Connection.onDataReady_ok {g g' : HttpGet} {buf : List UInt8} (hg : c.request = some g)
    (hstate : c.state ≠ .error) (hbuf : buf ≠ []) (h : g.onDataReady stale buf = (true, g')) :
    c.onDataReady stale buf = { c with request := some g' } := by
  rw [Connection.onDataReady, hg]
  dsimp only
  rw [if_neg hstate, if_neg hbuf, h]
  rfl

/-- **Bytes of the reply arrive.** -/
theorem Live.onDataReady (h : Live (r.header ++ body) r.header.length len c out got)
    (hlen : 0 < len) (hgot : got ≤ (r.header ++ body).length) {buf : List UInt8}
    (hbuf : buf <+: (r.header ++ body).drop got) :
    Live (r.header ++ body) r.header.length len (c.onDataReady stale buf) out
      (got + buf.length) := by
  obtain ⟨g, hg, hglen, hredirected, hbefore, hafter⟩ := h.request
  by_cases hnil : buf = []
  · -- the connection is closed
    have hclosed : c.onDataReady stale buf = { c with state := .closed } := by
      rw [Connection.onDataReady, hg]
      dsimp only
      rw [if_neg h.state, if_pos hnil]
    rw [hclosed, hnil]
    exact ⟨by simp, g, hg, hglen, hredirected, hbefore, hafter⟩
  by_cases hheader : r.header.length ≤ got
  · -- bytes of the body
    obtain ⟨hthere, hreceived, hbytes, hout⟩ := hafter hheader
    rw [Connection.onDataReady_ok hg h.state hnil (onDataReady_body buf hthere)]
    refine ⟨h.state, _, rfl, hglen, hredirected, fun hlt => absurd hlt (by omega), fun _ => ?_⟩
    refine ⟨hthere, by dsimp only; omega, ?_, hout⟩
    rw [← List.append_assoc, hbytes, ← take_append_of_prefix hbuf,
      List.drop_append_of_le_length (by rw [List.length_take]; omega)]
  · obtain ⟨hthere, hbuffer, hpiece, hreceived, hout⟩ := hbefore (by omega)
    by_cases hend : r.header.length ≤ got + buf.length
    · -- the rest of the header
      obtain ⟨g', hg', hglen', hredirected', hthere', hreceived', hbytes⟩ :=
        onDataReady_header stale hthere hbuffer hpiece hreceived hgot hbuf hend
      rw [Connection.onDataReady_ok hg h.state hnil hg']
      refine ⟨h.state, g', rfl, hglen'.trans hglen, hredirected'.trans hredirected,
        fun hlt => absurd hlt (by omega), fun _ => ⟨hthere', hreceived', ?_, ?_⟩⟩
      · rw [hout, List.nil_append, hbytes]
      · rw [hout]
        exact hlen
    · -- not yet the end of the header
      have hnone : indexOf (crlf ++ crlf) (g.buffer ++ buf) = none := by
        rw [hbuffer, take_append_of_prefix hbuf]
        have hfour := r.four_le_header
        exact indexOf_take_eq_none (r.indexOf_header body) (by decide)
          (show _ < r.header.length - 4 + 4 by omega)
      rw [Connection.onDataReady_ok hg h.state hnil (onDataReady_waiting hthere hnone)]
      refine ⟨h.state, _, rfl, hglen, hredirected, fun _ => ⟨hthere, ?_, hpiece, hreceived, hout⟩,
        fun hle => absurd hle hend⟩
      dsimp only
      rw [hbuffer, take_append_of_prefix hbuf]

/-- The web seed asks for bytes before the range is there. -/
theorem Live.getData (h : Live (r.header ++ body) r.header.length len c out got)
    (hgot : got ≤ (r.header ++ body).length) (hlt : got < r.header.length + len) :
    Live (r.header ++ body) r.header.length len c.getData.2 (out ++ c.getData.1.getD []) got := by
  obtain ⟨g, hg, hglen, hredirected, hbefore, hafter⟩ := h.request
  rw [Connection.getData, hg]
  dsimp only
  rw [if_neg (by simp [hredirected])]
  by_cases hpiece : g.pieceData = []
  · rw [if_pos hpiece, Option.getD_none, List.append_nil]
    exact h
  have hheader : r.header.length ≤ got := by
    by_contra hc
    exact hpiece (hbefore (by omega)).2.2.1
  obtain ⟨hthere, hreceived, hbytes, hout⟩ := hafter hheader
  have hnot : g.finished = false := by
    rw [HttpGet.finished, hglen, hreceived, decide_eq_false_iff_not]
    omega
  have hfinished : ¬ (([] : List UInt8) = [] ∧ HttpGet.finished { g with pieceData := [] } = true) := by
    rw [show HttpGet.finished { g with pieceData := [] } = g.finished from rfl, hnot]
    simp
  rw [if_neg hpiece, if_neg hfinished]
  refine ⟨h.state, ⟨_, rfl, hglen, hredirected, fun hc => absurd hc (by omega),
    fun _ => ⟨hthere, hreceived, ?_, ?_⟩⟩⟩
  · rw [Option.getD_some, List.append_nil, hbytes]
  · rw [Option.getD_some, hbytes, List.length_drop, List.length_take]
    omega

/-- The range is there, with what has come after it, and is taken away. -/
theorem Live.getData_finished (h : Live (r.header ++ body) r.header.length len c out got)
    (hgot : got ≤ (r.header ++ body).length) (hle : r.header.length + len ≤ got) :
    c.getData.2.request = none ∧
      out ++ c.getData.1.getD [] = ((r.header ++ body).take got).drop r.header.length := by
  obtain ⟨g, hg, hglen, hredirected, -, hafter⟩ := h.request
  obtain ⟨-, hreceived, hbytes, hout⟩ := hafter (by omega)
  have hpiece : g.pieceData ≠ [] := by
    intro hc
    have hlen := congrArg List.length hbytes
    rw [hc, List.append_nil, List.length_drop, List.length_take] at hlen
    omega
  have hfinished : ([] : List UInt8) = [] ∧ HttpGet.finished { g with pieceData := [] } = true := by
    refine ⟨rfl, decide_eq_true ?_⟩
    show g.len ≤ g.dataReceived
    omega
  rw [Connection.getData, hg]
  dsimp only
  rw [if_neg (by simp [hredirected]), if_neg hpiece, if_pos hfinished]
  exact ⟨rfl, hbytes⟩

end Run

/-! ## Runs -/

/-- How many bytes have arrived when the web seed asks for the first time after the first `need`
are there, if `got` have arrived so far. -/
def takenAt (need : ℕ) : ℕ → List Event → ℕ
  | got, [] => got
  | got, .onDataReady buf :: events => takenAt need (got + buf.length) events
  | got, .getData :: events => if need ≤ got then got else takenAt need got events

theorem takenAt_le (need : ℕ) (events : List Event) : ∀ got,
    takenAt need got events ≤ got + (events.flatMap Event.received).length := by
  induction events with
  | nil => exact fun got => Nat.le_add_right got _
  | cons e events ih =>
    intro got
    rw [List.flatMap_cons, List.length_append]
    cases e with
    | onDataReady buf =>
      have hle := ih (got + buf.length)
      rw [takenAt, Event.received]
      omega
    | getData =>
      have hle := ih got
      rw [takenAt, Event.received, List.length_nil]
      split <;> omega

theorem le_takenAt {need : ℕ} {events : List Event} : ∀ {got : ℕ},
    need ≤ got + (events.flatMap Event.received).length → need ≤ takenAt need got events := by
  induction events with
  | nil => exact fun h => h
  | cons e events ih =>
    intro got h
    rw [List.flatMap_cons, List.length_append] at h
    cases e with
    | onDataReady buf =>
      rw [Event.received] at h
      exact ih (by omega)
    | getData =>
      rw [Event.received, List.length_nil] at h
      rw [takenAt]
      split
      · assumption
      · exact ih (by omega)

/-- Without a request nothing more is handed out. -/
theorem run_removed {stale : ℤ} (events : List Event) {c : Connection} {out : List UInt8}
    (h : c.request = none) : run (step stale) (c, out) events = (c, out) := by
  induction events with
  | nil => rfl
  | cons e events ih =>
    have hstep : step stale (c, out) e = (c, out) := by
      cases e <;> simp [step, Connection.onDataReady, Connection.getData, h]
    rw [run_cons, hstep, ih]

/-- **The bytes that are handed out** are those of the body that have arrived when the range is
taken away, however the reply is cut. -/
theorem run_body {r : Response} {body : List UInt8} {len : ℕ} (stale : ℤ) (hlen : 0 < len)
    (events : List Event) : ∀ {c : Connection} {out : List UInt8} {got : ℕ},
    Live (r.header ++ body) r.header.length len c out got → got ≤ (r.header ++ body).length →
    events.flatMap Event.received = (r.header ++ body).drop got → len ≤ body.length →
    (run (step stale) (c, out) (events ++ [.getData])).1.request = none ∧
      (run (step stale) (c, out) (events ++ [.getData])).2 =
        ((r.header ++ body).take (takenAt (r.header.length + len) got events)).drop
          r.header.length := by
  induction events with
  | nil =>
    intro c out got h hgot hrest hbody
    have hall : got = (r.header ++ body).length := by
      have hzero := congrArg List.length hrest
      rw [List.flatMap_nil, List.length_nil, List.length_drop] at hzero
      omega
    exact h.getData_finished hgot (by rw [hall, List.length_append]; omega)
  | cons e events ih =>
    intro c out got h hgot hrest hbody
    rw [List.cons_append, run_cons]
    rw [List.flatMap_cons] at hrest
    cases e with
    | onDataReady buf =>
      have hfits := congrArg List.length hrest
      rw [List.length_append, List.length_drop, Event.received] at hfits
      refine ih (h.onDataReady hlen hgot ⟨_, hrest⟩) (by omega) ?_ hbody
      rw [← List.drop_drop, ← hrest, Event.received, List.drop_left]
    | getData =>
      rw [Event.received, List.nil_append] at hrest
      rw [takenAt]
      by_cases hle : r.header.length + len ≤ got
      · obtain ⟨hrequest, hout⟩ := h.getData_finished hgot hle
        rw [if_pos hle, step, run_removed _ hrequest]
        exact ⟨hrequest, hout⟩
      · rw [if_neg hle]
        exact ih (h.getData hgot (by omega)) hgot hrest hbody

/-- The connection after the request has been sent, when nothing of the reply has come in. -/
theorem live_sent {c : Connection} (hactive : c.state = .active) (hnone : c.request = none)
    (src : Source) (start : ℕ) {len : ℕ} (r : Response) (wire : List UInt8) :
    Live wire r.header.length len (c.get src start len).2.dataSent [] 0 := by
  have hget : c.get src start len = (true, { c with request := some (.new src start len) }) := by
    rw [Connection.get, if_neg (by simp [hactive, hnone])]
  rw [hget, Connection.dataSent]
  dsimp only
  rw [if_pos hactive]
  refine ⟨by simp [hactive], ⟨_, rfl, rfl, rfl, fun _ => ⟨rfl, rfl, rfl, rfl, rfl⟩, fun hle => ?_⟩⟩
  have hfour := r.four_le_header
  omega

/-- What the web seed has been handed when the whole reply has come in and it has asked once
more, and whether the request is gone. -/
def handedOut (stale : ℤ) (src : Source) (start len : ℕ) (c : Connection) (events : List Event) :
    Bool × List UInt8 :=
  let s := run (step stale) ((c.get src start len).2.dataSent, []) (events ++ [.getData])
  (s.1.request.isNone, s.2)

/-- **Which replies are handed out exactly.**  For every file, range and reply, however it is cut
and whenever the web seed asks: the request is removed and the range has been handed out exactly
when the server sends the range alone, or when the file starts with the same bytes and the web
seed asks for them between their last one and the next. -/
theorem handedOut_iff (stale : ℤ) (src : Source) {F : List UInt8} {start len : ℕ} (hlen : 1 ≤ len)
    (hin : start + len ≤ F.length) (r : Response) {c : Connection} (hactive : c.state = .active)
    (hnone : c.request = none) {events : List Event}
    (hevents : events.flatMap Event.received = r.header ++ r.body F start len) :
    handedOut stale src start len c events = (true, (F.drop start).take len) ↔
      r.isPartial = true ∨ (F.take len = (F.drop start).take len ∧
        takenAt (r.header.length + len) 0 events = r.header.length + len) := by
  have hrange : ((F.drop start).take len).length = len := by
    rw [List.length_take, List.length_drop]
    omega
  have hbody : len ≤ (r.body F start len).length := by
    rw [Response.body]
    split <;> omega
  obtain ⟨hrequest, hout⟩ := run_body stale (by omega) events
    (live_sent hactive hnone src start r (r.header ++ r.body F start len)) (Nat.zero_le _)
    (by rw [hevents, List.drop_zero]) hbody
  have hupper := takenAt_le (r.header.length + len) events 0
  have hlower : r.header.length + len ≤ takenAt (r.header.length + len) 0 events :=
    le_takenAt (by rw [hevents, List.length_append]; omega)
  rw [hevents, List.length_append, Nat.zero_add] at hupper
  rw [handedOut, hrequest, hout, Option.isNone_none, Prod.mk.injEq, List.take_append,
    List.drop_append_of_le_length (by rw [List.length_take]; omega),
    List.take_of_length_le (by omega), List.drop_length, List.nil_append]
  simp only [true_and]
  cases hpart : r.isPartial with
  | true =>
    rw [Response.body, if_pos hpart] at hupper ⊢
    refine iff_of_true (List.take_of_length_le (by omega)) (.inl rfl)
  | false =>
    rw [Response.body, if_neg (by simp [hpart])] at hupper ⊢
    simp only [Bool.false_eq_true, false_or]
    constructor
    · intro htake
      have heq := congrArg List.length htake
      rw [hrange, List.length_take, min_eq_left (by omega)] at heq
      rw [heq] at htake
      exact ⟨htake, by omega⟩
    · rintro ⟨htake, htaken⟩
      rw [htaken, Nat.add_sub_cancel_left, htake]

/-! ## Two replies -/

/-- A connection without a request. -/
def idleConnection : Connection where
  state := .active
  request := none
  closeWhenFinished := false
  redirected := false
  redirectedUrl := []
  responseCode := 0

/-- A request for `/f`. -/
def plainSource : Source where
  target := ascii "/f?"
  host := ascii "h"
  version := ascii "v"
  usingProxy := false

/-- A reply with one field. -/
def plainReply (isPartial : Bool) : Response where
  isPartial := isPartial
  reason := ascii "OK"
  fields := [ascii "Content-Length: 4"]
  reason_ok := by decide
  fields_ok := by decide

/-- Bytes 1 and 2 of a file of four, which arrive one after the other. -/
theorem handedOut_rangeAlone :
    handedOut 0 plainSource 1 2 idleConnection
      [.onDataReady ((plainReply true).header ++ [2]), .getData, .onDataReady [3]] =
        (true, [2, 3]) :=
  (handedOut_iff 0 plainSource (show 1 ≤ 2 by decide)
    (show 1 + 2 ≤ ([1, 2, 3, 4] : List UInt8).length by decide)
    (plainReply true) rfl rfl rfl).mpr (.inl rfl)

/-- **The whole file is taken for the range.**  The server answers the request for bytes 1 and 2
with status 200 and the file, which all arrives at once: bytes 0 to 3 are handed out. -/
theorem handedOut_whole :
    [Event.onDataReady ((plainReply false).header ++ [1, 2, 3, 4])].flatMap Event.received =
        (plainReply false).header ++ (plainReply false).body [1, 2, 3, 4] 1 2 ∧
      handedOut 0 plainSource 1 2 idleConnection
        [.onDataReady ((plainReply false).header ++ [1, 2, 3, 4])] ≠
          (true, ([1, 2, 3, 4] : List UInt8).drop 1 |>.take 2) := by
  refine ⟨rfl, ?_⟩
  decide +kernel

end KTorrent.Http
