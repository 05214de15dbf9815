import KTorrent.Bcodec.BDecoder
import KTorrent.Bcodec.BEncoder
import KTorrent.Lib.Pattern
import KTorrent.Lib.Run

/-!
# The connection to a web seed

The model of `download/httpconnection.cpp` from the request to the data that is handed out, with
the parser of the reply's header, `download/httpresponseheader.cpp`.

* `ResponseHeader.parse` — the status, the reason and the fields of a header.
* `HttpGet` — a request; `HttpGet.onDataReady` — bytes of the reply arrive.
* `Connection` — the connection, with at most one request; `Connection.get`, `dataSent`,
  `onDataReady`, `getData` — what is done with it.
* `Event`, `Connection.step` — a run, with the bytes that have been handed out.

A text is the list of its bytes, which are Latin-1.  The target and the host of a request, and
what an uninitialised status code holds, are inputs; the counters are numbers without a limit.
Resolving, connecting, timers and status texts are left out.
-/

namespace KTorrent.Http

open Pattern

/-! ## Texts -/

/-- `QString::trimmed`. -/
def trimmed (s : List UInt8) : List UInt8 :=
  ((s.dropWhile isSpace).reverse.dropWhile isSpace).reverse

/-- The rest of `simplified`: a row of spaces before a character is one. -/
def squeeze : Bool → List UInt8 → List UInt8
  | _, [] => []
  | pending, c :: s =>
    if isSpace c then squeeze true s
    else if pending then 32 :: c :: squeeze false s else c :: squeeze false s

/-- `QString::simplified`. -/
def simplified (s : List UInt8) : List UInt8 := squeeze false (s.dropWhile isSpace)

/-- `QString::toLower` for a Latin-1 character. -/
def lower (c : UInt8) : UInt8 :=
  if (65 ≤ c ∧ c ≤ 90) ∨ (192 ≤ c ∧ c ≤ 222 ∧ c ≠ 215) then c + 32 else c

/-- The end of a line. -/
def crlf : List UInt8 := [13, 10]

/-! ## The header of a reply -/

/-- `HttpResponseHeader`. -/
structure ResponseHeader where
  /-- The fields, the latest one first. -/
  values : List (List UInt8 × List UInt8)
  statusCode : ℤ
  reasonPhrase : List UInt8

namespace ResponseHeader

/-- `hasKey`. -/
def hasKey (h : ResponseHeader) (key : List UInt8) : Bool :=
  (h.values.lookup (key.map lower)).isSome

/-- `value`. -/
def value (h : ResponseHeader) (key : List UInt8) : List UInt8 :=
  (h.values.lookup (key.map lower)).getD []

/-- `parseLine`: line 0 has the status, the others are fields. -/
def parseLine (line : List UInt8) (number : ℕ) (h : ResponseHeader) : Bool × ResponseHeader :=
  if number ≠ 0 then
    match indexOf [58] line with
    | none => (false, h)
    | some i =>
      (true, { h with
        values := ((trimmed (line.take i)).map lower, trimmed (line.drop (i + 1))) :: h.values })
  else
    let l := simplified line
    if l.length < 10 then (false, h)
    else if ascii "HTTP/" <+: l ∧ (l[5]?).any isDigit ∧ l[6]? = some 46 ∧ (l[7]?).any isDigit ∧
        l[8]? = some 32 ∧ (l[9]?).any isDigit then
      match indexOf [32] (l.drop 9) with
      | some n =>
        (true, { h with
          reasonPhrase := l.drop (9 + n + 1)
          statusCode := (toInt ((l.drop 9).take n)).getD 0 })
      | none => (true, { h with reasonPhrase := [], statusCode := (toInt (l.drop 9)).getD 0 })
    else (false, h)

/-- The loop over the lines, which ends with a line that is not understood. -/
def parseLines : ℕ → List (List UInt8) → ResponseHeader → ResponseHeader
  | _, [], h => h
  | number, line :: lines, h =>
    let (ok, h) := parseLine line number h
    if ok then parseLines (number + 1) lines h else h

/-- A line that starts with a space goes on with the one before it. -/
def foldLine (lines : List (List UInt8)) (line : List UInt8) : List (List UInt8) :=
  match line.head?, lines.getLast? with
  | some c, some last =>
    if isSpace c then lines.dropLast ++ [last ++ 32 :: trimmed line] else lines ++ [line]
  | some c, none => if isSpace c then lines else lines ++ [line]
  | none, _ => lines

/-- `parse`; `stale` is what the status code holds that nothing has set. -/
def parse (stale : ℤ) (str : List UInt8) : ResponseHeader :=
  let ended := (indexOf [10] str).any fun pos => 0 < pos && str[pos - 1]? == some 13
  let lst := splitOn (if ended then crlf else [10]) 0 (trimmed str)
  let lines := (lst.filter (· ≠ [])).foldl foldLine []
  parseLines 0 lines { values := [], statusCode := stale, reasonPhrase := [] }

end ResponseHeader

/-! ## A request -/

/-- Where a request goes, and who sends it. -/
structure Source where
  /-- The encoded path and query, or the whole address for a proxy. -/
  target : List UInt8
  host : List UInt8
  version : List UInt8
  usingProxy : Bool

/-- The text of a request for `len` bytes from `start`. -/
def requestText (src : Source) (start len : ℕ) : List UInt8 :=
  ascii "GET " ++ src.target ++ ascii " HTTP/1.1" ++ crlf
    ++ ascii "Host: " ++ src.host ++ crlf
    ++ ascii "Range: bytes=" ++ number start ++ ascii "-" ++ number (sub64 (u64 (start + len)) 1)
    ++ crlf ++ ascii "User-Agent: " ++ src.version ++ crlf
    ++ ascii "Accept:  text/xml,application/xml,application/xhtml+xml,text/html;q=0.9," ++
      ascii "text/plain;q=0.8,image/png,*/*;q=0.5" ++ crlf
    ++ ascii "Accept-Language: en-us,en;q=0.5" ++ crlf
    ++ ascii "Accept-Charset: ISO-8859-1,utf-8;q=0.7,*;q=0.7" ++ crlf
    ++ (if src.usingProxy then
        ascii "Keep-Alive: 300" ++ crlf ++ ascii "Proxy-Connection: keep-alive" ++ crlf ++ crlf
      else ascii "Connection: Keep-Alive" ++ crlf ++ crlf)

/-- A request. -/
structure HttpGet where
  start : ℕ
  len : ℕ
  dataReceived : ℕ
  /-- The request, until it is sent, and then the header of the reply. -/
  buffer : List UInt8
  pieceData : List UInt8
  responseHeaderReceived : Bool
  failureReason : List UInt8
  redirected : Bool
  redirectedTo : List UInt8
  contentLength : ℕ
  responseCode : ℤ

namespace HttpGet

/-- The constructor. -/
def new (src : Source) (start len : ℕ) : HttpGet where
  start := start
  len := len
  dataReceived := 0
  buffer := requestText src start len
  pieceData := []
  responseHeaderReceived := false
  failureReason := []
  redirected := false
  redirectedTo := []
  contentLength := 0
  responseCode := 0

/-- `finished`. -/
def finished (g : HttpGet) : Bool := decide (g.len ≤ g.dataReceived)

/-- `onDataReady`. -/
def onDataReady (stale : ℤ) (g : HttpGet) (buf : List UInt8) : Bool × HttpGet :=
  if g.responseHeaderReceived = false then
    let g := { g with buffer := g.buffer ++ buf }
    match indexOf (crlf ++ crlf) g.buffer with
    | none => (true, g)
    | some idx =>
      let hdr := ResponseHeader.parse stale (g.buffer.take (idx + 4))
      let g := { g with
        responseHeaderReceived := true
        contentLength :=
          if hdr.hasKey (ascii "Content-Length") then
            int64ToUint64 ((toInt (hdr.value (ascii "Content-Length"))).getD 0)
          else 0
        responseCode := hdr.statusCode }
      let received (g : HttpGet) : Bool × HttpGet :=
        if 0 < g.buffer.length - (idx + 4) then
          (true, { g with
            dataReceived := g.dataReceived + (g.buffer.length - (idx + 4))
            pieceData := g.pieceData ++ g.buffer.drop (idx + 4) })
        else (true, g)
      if (300 ≤ hdr.statusCode ∧ hdr.statusCode ≤ 303) ∨ hdr.statusCode = 307 then
        if hdr.hasKey (ascii "Location") = false then
          (false, { g with failureReason := ascii "Redirected without a new location." })
        else
          received { g with redirected := true, redirectedTo := hdr.value (ascii "Location") }
      else if ¬ (hdr.statusCode = 200 ∨ hdr.statusCode = 206) then
        (false, { g with failureReason := hdr.reasonPhrase })
      else received g
  else
    (true, { g with
      dataReceived := g.dataReceived + buf.length
      pieceData := g.pieceData ++ buf })

end HttpGet

/-! ## The connection -/

/-- `HttpConnection::State`. -/
inductive State where
  | idle
  | resolving
  | connecting
  | active
  | error
  | closed
  deriving DecidableEq, Repr

/-- `HttpConnection`. -/
structure Connection where
  state : State
  request : Option HttpGet
  closeWhenFinished : Bool
  redirected : Bool
  redirectedUrl : List UInt8
  responseCode : ℤ

namespace Connection

/-- `get`: refused while a request is under way. -/
def get (src : Source) (start len : ℕ) (c : Connection) : Bool × Connection :=
  if c.state = .error ∨ c.request.isSome then (false, c)
  else (true, { c with request := some (.new src start len) })

/-- `dataSent`. -/
def dataSent (c : Connection) : Connection :=
  match c.request with
  | some g => if c.state = .active then { c with request := some { g with buffer := [] } } else c
  | none => c

/-- `onDataReady`; no bytes mean that the connection is closed. -/
def onDataReady (stale : ℤ) (buf : List UInt8) (c : Connection) : Connection :=
  match c.request with
  | none => c
  | some g =>
    if c.state = .error then c
    else if buf = [] then { c with state := .closed }
    else
      let (ok, g) := g.onDataReady stale buf
      if ok then { c with request := some g }
      else { c with state := .error, request := some g, responseCode := g.responseCode }

/-- `getData`. -/
def getData (c : Connection) : Option (List UInt8) × Connection :=
  match c.request with
  | none => (none, c)
  | some g =>
    if g.redirected then
      if g.dataReceived < g.contentLength then (none, c)
      else (none, { c with redirectedUrl := g.redirectedTo, redirected := true })
    else if g.pieceData = [] then (none, c)
    else
      let data := g.pieceData
      let g := { g with pieceData := [] }
      if g.pieceData = [] ∧ g.finished then
        (some data, { c with
          request := none
          state := if c.closeWhenFinished then .closed else c.state })
      else (some data, { c with request := some g })

end Connection

/-! ## Runs -/

/-- Bytes arrive, or the web seed asks for them. -/
inductive Event where
  | onDataReady (buf : List UInt8)
  | getData
  deriving DecidableEq, Repr

/-- The bytes that arrive. -/
def Event.received : Event → List UInt8
  | .onDataReady buf => buf
  | .getData => []

/-- What happens to the connection, and to the bytes that it has handed out. -/
def step (stale : ℤ) (s : Connection × List UInt8) : Event → Connection × List UInt8
  | .onDataReady buf => (s.1.onDataReady stale buf, s.2)
  | .getData => (s.1.getData.2, s.2 ++ s.1.getData.1.getD [])

end KTorrent.Http
