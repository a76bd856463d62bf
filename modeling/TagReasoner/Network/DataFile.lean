import TagReasoner.Document.Reading
import TagReasoner.Network.Record
import TagReasoner.Text.Utf8

/-!
# Data files

A data file holds the records of nodes, one on a line, or a document with a list of them, where the
name of the file says so: the last part of its path, where a point that stands alone and a slash at
the end are no part. The items of that list are lists of tokens or maps with the tag, the threshold
and the outputs of a node.

A file whose bytes are no text is *broken off*. Files are read in chunks, and the text of the chunks
before the one with the fault can be read: a line that ends in it, or a document up to there, may
have a fault of its own, which then comes first.
-/

namespace TagReasoner

/-! ## Paths -/

/-- What stands between the slashes of a path, but for points that stand alone. -/
def pathParts (path : Text) : List Text :=
  (Text.splitOn '/' path).filter fun part => !part.isEmpty && part != ['.']

/-- The slashes that a path starts with. Two are kept, and more are one. -/
def pathRoot (path : Text) : Text :=
  match (path.takeWhile (· == '/')).length with
  | 0 => []
  | 2 => ['/', '/']
  | _ => ['/']

/-- The path with nothing in it but its parts; a point if there is none. -/
def plainPath (path : Text) : Text :=
  match pathRoot path ++ Text.join ['/'] (pathParts path) with
  | [] => ['.']
  | plain => plain

/-! ## Files -/

/-- A data file: its path and the text in it that can be read. -/
structure DataFile where
  path : Text
  content : Text
  /-- Is there something behind the text that is none? -/
  brokenOff : Bool

/-- How many bytes of a file are read at a time. -/
def chunkSize : Nat := 8192

/-- How many characters of a document are read at a time; the first two blocks come together. -/
def blockSize : Nat := 4096

namespace DataFile

/-- A file with a text in it. -/
def ofText (path content : Text) : DataFile := ⟨path, content, false⟩

/-- A file with bytes in it. -/
def ofBytes (path : Text) (bytes : List UInt8) : DataFile :=
  match Text.decode bytes with
  | (content, .whole) => ⟨path, content, false⟩
  | (content, .cut) => ⟨path, content, true⟩
  | (_, .wrong place) =>
    ⟨path, (Text.decode (bytes.take (place / chunkSize * chunkSize))).1, true⟩

/-- The last part of the path. -/
def name (f : DataFile) : Text := (pathParts f.path).getLast?.getD []

/-- What follows the last point of the name, unless nothing stands in front of it or behind it. -/
def suffix (f : DataFile) : Text :=
  match f.name.reverse.span (· != '.') with
  | (extension, '.' :: stem) => if stem.isEmpty then [] else extension.reverse
  | _ => []

/-- Does the name say that the file holds a document? -/
def isDocument (f : DataFile) : Bool :=
  [['y', 'a', 'm', 'l'], ['y', 'm', 'l']].contains (Number.lowerAscii f.suffix)

/-- The text of the file. A carriage return at the end of what can be read is not told from the
first half of a line end, and is left out. -/
def readable (f : DataFile) : Text :=
  if f.brokenOff && f.content.getLast? = some '\r' then f.content.dropLast else f.content

end DataFile

/-! ## Entries of documents -/

/-- The text of each of some documents. -/
def shownAll (ds : List Document) : Except Fault (List Text) := ds.mapM Document.shown

/-- The tokens of the record that a map describes. -/
def entryTokens (entry : Document) : Except Fault (List Text) :=
  match entry with
  | .map fields =>
    match Document.field? fields "tag".toList, Document.field? fields "threshold".toList with
    | some tag, some threshold =>
      let outputs := (Document.field? fields "outputs".toList).getD .null
      match if outputs.isVoid then .map [] else outputs with
      | .map weights => shownAll (tag :: threshold :: weights.flatMap fun e => [e.1, e.2])
      | _ => outputs.shown.bind fun t => .error (.parse (.malformed .entryOutputs t))
    | _, _ => entry.shown.bind fun t => .error (.parse (.malformed .entryKeys t))
  | _ => entry.shown.bind fun t => .error (.parse (.malformed .entryKeys t))

/-- The tokens of an item: a list holds them as they are. -/
def itemTokens : Document → Except Fault (List Text)
  | .list tokens => shownAll tokens
  | item => entryTokens item

/-- A record with its number: its tokens, or why it has none. -/
abbrev Numbered := Nat × Except Fault (List Text)

namespace DataFile

/-- The document that the file holds. What comes in the blocks before the fault is read, if they are
complete. -/
def document (f : DataFile) : Except Fault Document :=
  let t := Text.unifyLineEnds f.readable
  if !f.brokenOff then Document.read false t
  else if t.length < 2 * blockSize then .error .undecodable
  else Document.read true (t.take (t.length / blockSize * blockSize))

/-- The records of the document that the file holds. -/
def documentRecords (f : DataFile) : Except Fault (List Numbered) :=
  f.document.bind fun d =>
    match if d.isVoid then .list [] else d with
    | .list items => .ok (items.zipIdx.map fun (item, i) => (i + 1, itemTokens item))
    | _ => .error (.parse (.malformed .documentShape (plainPath f.path)))

/-- The lines of the file that end before the fault, if there is one. -/
def lines (f : DataFile) : List Text :=
  let all := Text.lines f.readable
  let ended := (f.readable.getLast?.map fun c => decide (c = '\n' || c = '\r')).getD true
  if f.brokenOff && !ended then all.dropLast else all

/-- The records on the lines of the file. -/
def lineRecords (f : DataFile) (delimiter : Text) : Except Fault (List Numbered) :=
  (readRecords delimiter f.lines).bind fun rs =>
    if f.brokenOff then .error .undecodable else .ok (rs.map fun r => (r.1, .ok r.2))

/-- The records of a data file. -/
def records (f : DataFile) (delimiter : Text) : Except Fault (List Numbered) :=
  if f.isDocument then f.documentRecords else f.lineRecords delimiter

end DataFile
end TagReasoner
