import TagReasoner.Text.Blank

/-!
# Places in a document text

Indentation decides the structure of a document, so reading keeps the line and column of what is
still to be read. Between two tokens there may be a gap of spaces, line ends and comments. A tab is
no gap.
-/

namespace TagReasoner

/-- The characters that end a line. -/
def isLineEnd (c : Char) : Bool := c = '\n' || [0x85, 0x2028, 0x2029].contains c.toNat

/-- The mark of the byte order, which has no width. -/
def byteOrderMark : Char := Char.ofNat 0xFEFF

/-- A word ends where a space, a tab, a line end or nothing follows. -/
def endsWord : Text → Bool
  | [] => true
  | c :: _ => c = ' ' || c = '\t' || isLineEnd c

/-- The text starts with a mark three characters long that is a word of its own. -/
def startsWithMark (mark : Char) (t : Text) : Bool :=
  [mark, mark, mark].isPrefixOf t && endsWord (t.drop 3)

/-- The line that starts here is a boundary between documents. -/
def atBoundary (t : Text) : Bool := startsWithMark '-' t || startsWithMark '.' t

/-- How long a gap is; `comment` if it starts inside a comment, which goes on to the end of its
line. -/
def gapLength : Bool → Text → Nat
  | _, [] => 0
  | comment, c :: r =>
    if isLineEnd c then gapLength false r + 1
    else if comment || c = '#' then gapLength true r + 1
    else if c = ' ' then gapLength false r + 1
    else 0

/-- What is still to be read, and where that is. -/
structure Cursor where
  rest : Text
  /-- How many characters have been read. -/
  index : Nat
  line : Nat
  column : Nat

namespace Cursor

/-- The start of a text. -/
def start (t : Text) : Cursor := ⟨t, 0, 0, 0⟩

/-- The place after one character. -/
def next (c : Cursor) : Cursor :=
  match c.rest with
  | [] => c
  | x :: r =>
    if isLineEnd x then ⟨r, c.index + 1, c.line + 1, 0⟩
    else ⟨r, c.index + 1, c.line, if x = byteOrderMark then c.column else c.column + 1⟩

/-- The place after so many characters. -/
def ahead : Cursor → Nat → Cursor
  | c, 0 => c
  | c, n + 1 => ahead c.next n

/-- The place after the gap that starts here. A mark of the byte order belongs to a gap at the start
of the text. -/
def skipGap (c : Cursor) : Cursor :=
  let c := if c.index = 0 && c.rest.head? = some byteOrderMark then c.next else c
  c.ahead (gapLength false c.rest)

end Cursor

end TagReasoner
