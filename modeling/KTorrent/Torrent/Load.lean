import KTorrent.Bcodec.Progress
import KTorrent.Torrent.TorrentFile

/-!
# Loading a torrent

The model of `Torrent::load`: what becomes of the dictionary that the decoder
finds in the data of a torrent file.

* `LoadError` — the errors that are thrown, and two that are not: a division by
  zero and a slice outside the data.
* `Torrent.loadFiles`, `Torrent.loadInfo`, `Torrent.load` — as the source computes
  them, in machine integers.
-/

namespace KTorrent

/-- What the library that the program is built on makes of bytes and of addresses. -/
structure Qt where
  /-- `QString::fromUtf8`. -/
  fromUtf8 : List UInt8 → List Char
  /-- `QUrl(s).isValid()`. -/
  isValidUrl : List Char → Bool

/-- What stops `Torrent::load`. -/
inductive LoadError where
  | decoder (e : DecodeError)
  | node (e : NodeError)
  /-- "Corrupted torrent." -/
  | corruptedTorrent
  | divisionByZero
  | slicedOutside
  deriving DecidableEq, Repr

/-- The errors that are thrown. -/
def LoadError.thrown : LoadError → Bool
  | .decoder e => e.thrown
  | .node _ => true
  | .corruptedTorrent => true
  | .divisionByZero => false
  | .slicedOutside => false

/-- A getter that throws. -/
def getter {α : Type*} (r : Except NodeError α) : Except LoadError α := r.mapError .node

/-- A signed number that is stored in a `Uint64`. -/
def toUint64 (n : ℤ) : ℕ := (n % 2 ^ 64).toNat

/-- A node of the DHT. -/
structure DHTNode where
  ip : List Char
  port : ℕ
  deriving DecidableEq, Repr

/-- An entry of the list of files. -/
structure FileEntry where
  path : List Char
  unencodedPath : List (List UInt8)
  length : ℤ

/-- A torrent.  An address is the text that it was made from; the trackers are listed by
tier, and there is no tier as long as there are no trackers. -/
structure Torrent where
  comments : List Char
  trackers : List (List (List Char))
  nodes : List DHTNode
  chunkSize : ℕ
  lastChunkSize : ℕ
  totalSize : ℕ
  files : List TorrentFile
  /-- The paths of the files, as text and as they stand in the data. -/
  paths : List (List Char × List (List UInt8))
  hashPieces : List (List UInt8)
  unencodedName : List UInt8
  nameSuggestion : List Char
  webSeeds : List (List Char)
  metadata : List UInt8

namespace Torrent

/-- A torrent that has not been loaded. -/
def empty : Torrent :=
  { comments := [], trackers := [], nodes := [], chunkSize := 0, lastChunkSize := 0, totalSize := 0,
    files := [], paths := [], hashPieces := [], unencodedName := [], nameSuggestion := [],
    webSeeds := [], metadata := [] }

/-! ## Names and paths -/

/-- `SanityzeName`: no slash at the ends, and no way up. -/
def sanityzeName (name : List Char) : List Char :=
  let ret := if name.getLast? = some '/' then name.dropLast else name
  let ret := if ret.head? = some '/' then ret.tail else ret
  if ret.contains '/' || decide (['.', '.'] <:+: ret) then
    (['_'].intercalate ((ret.splitOn '/').filter fun part => part ≠ ['.', '.']))
  else ret

/-- `Torrent::checkPathForDirectoryTraversal`. -/
def checkPathForDirectoryTraversal (p : List Char) : Bool := !(p.splitOn '/').contains ['.', '.']

variable (qt : Qt)

/-- The path of a file: its parts without newlines, separated by slashes. -/
def joinPath (parts : List (List UInt8)) : List Char :=
  ['/'].intercalate (parts.map fun v => (qt.fromUtf8 v).filter (· ≠ '\n'))

/-- What the loop of `loadFiles` reads of a child before it makes a file of it; `none` for an
empty directory, which is passed over. -/
def readFile (child : BNode) : Except LoadError (Option FileEntry) := do
  match child.asDict with
  | none => throw .corruptedTorrent
  | some d =>
    match d.getList (ascii "path") with
    | none => throw .corruptedTorrent
    | some ln =>
      let unencodedPath ← ln.mapM fun part => getter part.getByteArrayView
      let path := joinPath qt unencodedPath
      if path.getLast? = some '/' then return none
      if !checkPathForDirectoryTraversal path then throw .corruptedTorrent
      let length ← getter (d.getInt64 (ascii "length"))
      return some { path := path, unencodedPath := unencodedPath, length := length }

/-- The loop of `loadFiles`.  The constructor of a file divides by the chunk size.  Fewer
than `2 ^ 32` children fit in the data that the decoder sees, so the index does not wrap. -/
def loadFiles : List BNode → ℕ → Torrent → Except LoadError Torrent
  | [], _, tor => return tor
  | child :: children, idx, tor => do
    match ← readFile qt child with
    | none => loadFiles children idx tor
    | some entry =>
      if tor.chunkSize = 0 then throw .divisionByZero
      let s := toUint64 entry.length
      let file := TorrentFile.new idx tor.totalSize s tor.chunkSize
      loadFiles children (idx + 1)
        { tor with
          totalSize := u64 (tor.totalSize + s)
          files := tor.files ++ [file]
          paths := tor.paths ++ [(entry.path, entry.unencodedPath)] }

/-- `Torrent::loadHash`.  The string has less than `2 ^ 31` bytes, so the index does not wrap. -/
def loadHash (hashString : List UInt8) : Except LoadError (List (List UInt8)) :=
  if hashString = [] then return []
  else if hashString.length < 20 then throw .slicedOutside
  else do
    let hashes ← loadHash (hashString.drop 20)
    return hashString.take 20 :: hashes
termination_by hashString.length
decreasing_by
  rw [List.length_drop]
  omega

/-- The end of `loadInfo`: the safety check of the number of hashes. -/
def checkChunks (tor : Torrent) : Except LoadError Torrent := do
  if tor.chunkSize = 0 then throw .divisionByZero
  let numChunks := u32 (tor.totalSize / tor.chunkSize)
  let rest := tor.totalSize % tor.chunkSize
  let (numChunks, lastChunkSize) :=
    if rest > 0 then (u32 (numChunks + 1), rest) else (numChunks, tor.chunkSize)
  if numChunks ≠ u32 tor.hashPieces.length then throw .corruptedTorrent
  return { tor with lastChunkSize := lastChunkSize }

/-- The part of `loadInfo` for the sizes. -/
def loadSizes (dict : BDictNode) (tor : Torrent) : Except LoadError Torrent :=
  match dict.getList (ascii "files") with
  | some files => loadFiles qt files 0 tor
  | none => do
    let length ← getter (dict.getInt64 (ascii "length"))
    return { tor with totalSize := toUint64 length }

/-- `Torrent::loadInfo`. -/
def loadInfo (dict : BDictNode) (tor : Torrent) : Except LoadError Torrent := do
  let chunkSize ← getter (dict.getInt64 (ascii "piece length"))
  let tor ← loadSizes qt dict { tor with chunkSize := toUint64 chunkSize }
  let hashPieces ← loadHash (← getter (dict.getByteArrayView (ascii "pieces")))
  let name ← getter (dict.getByteArrayView (ascii "name"))
  checkChunks { tor with
    hashPieces := hashPieces
    unencodedName := name
    nameSuggestion := sanityzeName (qt.fromUtf8 name) }

/-! ## The other fields -/

/-- `Torrent::loadTrackerURL`. -/
def loadTrackerURL (s : List Char) (tor : Torrent) : Torrent :=
  match tor.trackers with
  | [] => { tor with trackers := [if s ≠ [] ∧ qt.isValidUrl s then [s] else []] }
  | tier :: tiers =>
    { tor with trackers := (if s ≠ [] ∧ qt.isValidUrl s then tier ++ [s] else tier) :: tiers }

/-- `Torrent::loadNodes`. -/
def loadNodes (children : List BNode) : Except LoadError (List DHTNode) :=
  children.mapM fun child => do
    match child.asList with
    | some [first, second] =>
      let ip ← getter first.getByteArrayView
      let port ← getter second.getInt
      return { ip := qt.fromUtf8 ip, port := (port % 2 ^ 16).toNat }
    | _ => throw .corruptedTorrent

/-- The loop of `loadAnnounceList`, which opens a new tier behind each list. -/
def announceTiers : List BNode → List (List Char) → Except LoadError (List (List (List Char)))
  | [], tier => return [tier]
  | child :: children, tier => do
    match child.asList with
    | none => announceTiers children tier
    | some urls =>
      let urls ← urls.mapM fun url => getter url.getByteArrayView
      let tiers ← announceTiers children []
      return (tier ++ urls.map qt.fromUtf8) :: tiers

/-- `Torrent::loadAnnounceList`. -/
def loadAnnounceList (node : Option BNode) (tor : Torrent) : Except LoadError Torrent :=
  match node.bind BNode.asList with
  | none => return tor
  | some children => do
    let tiers ← announceTiers qt children (tor.trackers.headD [])
    return { tor with trackers := tiers }

/-- `Torrent::loadWebSeeds`. -/
def loadWebSeeds (children : List BNode) : Except LoadError (List (List Char)) := do
  let urls ← children.mapM fun child => getter child.getByteArrayView
  return (urls.map qt.fromUtf8).filter qt.isValidUrl

/-! ## The whole file -/

/-- The comment, which may be missing. -/
def loadComment (dict : BDictNode) : Torrent :=
  match dict.getValue (ascii "comment") with
  | some (.string comment) => { empty with comments := qt.fromUtf8 comment }
  | _ => empty

/-- The address of the tracker, which may be missing. -/
def loadAnnounce (dict : BDictNode) (tor : Torrent) : Except LoadError Torrent :=
  match dict.getValue (ascii "announce") with
  | none => return tor
  | some _ => do
    let s ← getter (dict.getByteArrayView (ascii "announce"))
    return loadTrackerURL qt (qt.fromUtf8 s) tor

/-- What `load` reads before the info dictionary. -/
def loadHead (dict : BDictNode) : Except LoadError Torrent := do
  let tor ← loadAnnounce qt dict (loadComment qt dict)
  match dict.getList (ascii "nodes") with
  | none => return tor
  | some children =>
    let nodes ← loadNodes qt children
    return { tor with nodes := nodes }

/-- The addresses of web seeds, a list or a single one. -/
def loadUrlList (dict : BDictNode) : Except LoadError (List (List Char)) :=
  match dict.getList (ascii "url-list"), dict.getValue (ascii "url-list") with
  | some children, _ => loadWebSeeds qt children
  | none, some _ => do
    let s ← getter (dict.getByteArrayView (ascii "url-list"))
    return [qt.fromUtf8 s].filter qt.isValidUrl
  | none, none => return []

/-- What `load` reads behind the info dictionary. -/
def loadTail (dict : BDictNode) (tor : Torrent) : Except LoadError Torrent := do
  let tor ← loadAnnounceList qt (dict.getData (ascii "announce-list")) tor
  let webSeeds ← loadUrlList qt dict
  let metadata := ((dict.getData (ascii "info")).map BNode.getBytes).getD []
  return { tor with webSeeds := webSeeds, metadata := metadata }

/-- `Torrent::load`, from the dictionary on. -/
def loadDict (dict : BDictNode) : Except LoadError Torrent := do
  let tor ← loadHead qt dict
  match dict.getDict (ascii "info") with
  | none => throw .corruptedTorrent
  | some info => loadTail qt dict (← loadInfo qt info tor)

end Torrent

/-- `BDecoder::decodeDict`. -/
def BDecoder.decodeDict (data : List UInt8) (fuel : ℕ) : Except DecodeError (Option BDictNode) :=
  (decode data fuel 0).map fun (node, _) => node.bind BNode.asDict

/-- `Torrent::load`. -/
def Torrent.load (qt : Qt) (data : List UInt8) (fuel : ℕ) : Except LoadError Torrent := do
  match ← (BDecoder.decodeDict data fuel).mapError .decoder with
  | none => throw .corruptedTorrent
  | some dict => loadDict qt dict

end KTorrent
