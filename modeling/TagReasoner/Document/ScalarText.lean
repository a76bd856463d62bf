import TagReasoner.Document.Cursor
import TagReasoner.Document.Scalar
import TagReasoner.Text.CodePoint

/-!
# The texts of scalars

A scalar may go on over several lines, which are then folded into one: a single line feed counts as
a space, and of more the first does not count. Other line ends are kept.

A quoted scalar ends at its quote. In single quotes a quote is written twice, and in double quotes a
backslash starts an escape. A plain scalar ends at a colon or number sign that is set apart by a
space, in a flow at its punctuation too, and where the indentation of the next line is too small.

Both are read character by character; what is known of the gap between two words is carried along.
-/

namespace TagReasoner

/-! ## Folding -/

/-- A gap inside a scalar. -/
inductive Gap where
  | empty
  /-- Blanks on one line. -/
  | blanks (seen : Text)
  /-- The first line end, unless that was escaped, and those behind it. -/
  | lines (first : Option Char) (more : Text)

namespace Gap

/-- The gap with one more blank. At the ends of a line blanks do not count. -/
def blank (c : Char) : Gap → Gap
  | empty => blanks [c]
  | blanks seen => blanks (seen ++ [c])
  | lines first more => lines first more

/-- The gap with one more line end; two of the line ends are spelled differently and kept. -/
def lineEnd (c : Char) (g : Gap) : Gap :=
  let c := if c.toNat = 0x85 then '\n' else c
  match g with
  | lines first more => lines first (more ++ [c])
  | _ => lines (some c) []

/-- Is there nothing in the gap? -/
def isEmpty : Gap → Bool
  | empty => true
  | _ => false

/-- Does the gap go over the end of a line? -/
def hasLines : Gap → Bool
  | lines .. => true
  | _ => false

/-- What a gap is folded into. -/
def text : Gap → Text
  | empty => []
  | blanks seen => seen
  | lines none more => more
  | lines (some c) more =>
    if c ≠ '\n' then c :: more
    else if more.isEmpty then [' ']
    else more

end Gap

/-! ## Quoted scalars -/

/-- The characters that a letter stands for behind a backslash. -/
def escapeLetters : List (Char × Nat) :=
  [('0', 0), ('a', 7), ('b', 8), ('t', 9), ('\t', 9), ('n', 10), ('v', 11), ('f', 12), ('r', 13),
   ('e', 27), (' ', 32), ('"', 34), ('/', 47), ('\\', 92), ('N', 0x85), ('_', 0xA0), ('L', 0x2028),
   ('P', 0x2029)]

/-- How many hexadecimal digits follow a letter behind a backslash. -/
def escapeWidths : List (Char × Nat) := [('x', 2), ('u', 4), ('U', 8)]

/-- The character of an escape with a number, which may be too large for a code point or even for a
machine word. -/
def escapedChar (code : Nat) : Except Fault Char :=
  if Nat.pow 2 31 ≤ code then .error .tooLarge
  else if 0x110000 ≤ code then .error (.scalar .noCodePoint)
  else .ok (Text.ofCodePoint code)

/-- Where reading is inside a quoted scalar. -/
inductive Inside where
  /-- In a gap, which is empty between the letters of a word. -/
  | gap (g : Gap)
  /-- Behind a single quote, which ends the scalar unless another one follows. -/
  | quote
  /-- Behind a backslash. -/
  | escape
  /-- In the digits of an escape, of which some are left. -/
  | code (left value : Nat)

/-- The text of a quoted scalar and its length up to behind the closing quote, given the text so far
in reverse and its length. If the whole text ends first, the fault is `ending`. -/
def quotedFrom (double : Bool) (ending : Fault) :
    Inside → Text → Nat → Text → Except Fault (Text × Nat)
  | .quote, found, n, [] => .ok (found.reverse, n)
  | _, _, _, [] => .error ending
  | .quote, found, n, c :: r =>
    if c = '\'' then quotedFrom double ending (.gap .empty) (c :: found) (n + 1) r
    else .ok (found.reverse, n)
  | .escape, found, n, c :: r =>
    if isLineEnd c then
      if atBoundary r then .error .brokenDocument
      else quotedFrom double ending (.gap (.lines none [])) found (n + 1) r
    else
      match escapeLetters.find? fun e => e.1 = c, escapeWidths.find? fun e => e.1 = c with
      | some e, _ =>
        quotedFrom double ending (.gap .empty) (Char.ofNat e.2 :: found) (n + 1) r
      | none, some e => quotedFrom double ending (.code e.2 0) found (n + 1) r
      | none, none => .error .brokenDocument
  | .code left value, found, n, c :: r =>
    match Scalar.hexValue? c with
    | none => .error .brokenDocument
    | some d =>
      let value := 16 * value + d
      if left ≤ 1 then
        match escapedChar value with
        | .ok x => quotedFrom double ending (.gap .empty) (x :: found) (n + 1) r
        | .error f => .error f
      else quotedFrom double ending (.code (left - 1) value) found (n + 1) r
  | .gap g, found, n, c :: r =>
    let all := g.text.reverse ++ found
    if c = ' ' || c = '\t' then quotedFrom double ending (.gap (g.blank c)) found (n + 1) r
    else if isLineEnd c then
      if atBoundary r then .error .brokenDocument
      else quotedFrom double ending (.gap (g.lineEnd c)) found (n + 1) r
    else if double && c = '"' then .ok (all.reverse, n + 1)
    else if double && c = '\\' then quotedFrom double ending .escape all (n + 1) r
    else if !double && c = '\'' then quotedFrom double ending .quote all (n + 1) r
    else quotedFrom double ending (.gap .empty) (c :: all) (n + 1) r

/-! ## Plain scalars -/

/-- The punctuation of flow lists and maps, the mark of a key apart. -/
def isFlowMark (c : Char) : Bool := [',', '[', ']', '{', '}'].contains c

/-- The characters that no plain scalar starts with, apart from three that some do. -/
def reservedStarts : List Char :=
  [' ', '\t', ',', '[', ']', '{', '}', '#', '&', '*', '!', '|', '>', '\'', '"', '%', '@', '\x60']

/-- May a plain scalar start here? -/
def startsPlain (flow : Bool) : Text → Bool
  | [] => false
  | c :: r =>
    if c = '-' then !endsWord r
    else if c = '?' || c = ':' then !endsWord r && !flow
    else !isLineEnd c && !reservedStarts.contains c

/-- A colon is punctuation when this comes behind it. -/
def endsColon (flow : Bool) (r : Text) : Bool :=
  endsWord r || (flow && (r.head?.map isFlowMark).getD false)

/-- A plain scalar. -/
structure PlainText where
  text : Text
  /-- Its length with the gap behind it. -/
  length : Nat
  /-- Is there a line end in that gap? -/
  endsLine : Bool

/-- The plain scalar that goes on here, given the gap at its end, its text in reverse, its length,
and how many spaces there are at the start of the line. A line on which it goes on has to start with
`least` spaces, except in a flow. -/
def plainFrom (flow : Bool) (least : Nat) : Gap → Text → Nat → Nat → Text → PlainText
  | g, found, n, _, [] => ⟨found.reverse, n, g.hasLines⟩
  | g, found, n, spaces, c :: r =>
    if c = ' ' then plainFrom flow least (g.blank c) found (n + 1) (spaces + 1) r
    else if isLineEnd c then
      if atBoundary r then ⟨found.reverse, n + 1, true⟩
      else plainFrom flow least (g.lineEnd c) found (n + 1) 0 r
    else if c = '\t' || (c = '#' && !g.isEmpty) || (c = ':' && endsColon flow r) ||
        (flow && (c = '?' || isFlowMark c)) || (!flow && g.hasLines && spaces < least) then
      ⟨found.reverse, n, g.hasLines⟩
    else plainFrom flow least .empty (c :: (g.text.reverse ++ found)) (n + 1) 0 r

end TagReasoner
