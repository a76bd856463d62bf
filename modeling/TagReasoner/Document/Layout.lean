import TagReasoner.Document.ScalarText
import TagReasoner.Document.Token

/-!
# Layout

The layout of a document text turns it into tokens. Outside of flows a list or a map begins where a
mark stands further right than those of the blocks around it, and ends before a line that starts
further left.

Whether a scalar or a flow is a key is told only by the colon behind it, which has to come on the
same line and soon. Until then the place is *pending*, one for the block and one for each open flow.
With the colon the token of the key is put in at that place. A pending place in the column of the
innermost block has to become a key.

Tokens behind a pending place are not handed out before it is decided. So after a fault only those
in front of all pending places count, and then the fault.
-/

namespace TagReasoner

/-- A place where a key may have started. -/
structure PendingKey where
  /-- How many tokens come before it. -/
  before : Nat
  /-- Nothing but a key may stand there. -/
  required : Bool
  index : Nat
  line : Nat
  column : Nat

/-- The longest key that is looked for, in characters. -/
def keyLimit : Nat := 1024

/-- How far a text has been turned into tokens. -/
structure Layout where
  cursor : Cursor
  /-- The columns of the open blocks, the innermost first. -/
  columns : List Nat
  /-- May a key start here? -/
  keyAllowed : Bool
  /-- The place in the innermost flow, or in the block if no flow is open. -/
  pending : Option PendingKey
  /-- The places around the innermost flow. -/
  outer : List (Option PendingKey)
  /-- The tokens in reverse. -/
  tokens : List Token
  count : Nat

namespace Layout

/-- Nothing has been read. -/
def start (t : Text) : Layout := ⟨.start t, [], true, none, [], [], 0⟩

/-- Is a flow open? -/
def inFlow (s : Layout) : Bool := !s.outer.isEmpty

/-! ## Tokens -/

/-- Adds a token. -/
def emit (t : Token) (s : Layout) : Layout := { s with tokens := t :: s.tokens, count := s.count + 1 }

/-- Puts in a token behind the first `before` of them. -/
def emitAt (before : Nat) (t : Token) (s : Layout) : Layout :=
  let later := s.count - before
  { s with tokens := s.tokens.take later ++ t :: s.tokens.drop later, count := s.count + 1 }

/-- Goes on behind so many characters. -/
def ahead (n : Nat) (s : Layout) : Layout := { s with cursor := s.cursor.ahead n }

/-- The tokens in front of all pending places. -/
def decided (s : Layout) : List Token :=
  let places := (s.pending :: s.outer).filterMap fun p => p.map PendingKey.before
  s.tokens.reverse.take (places.foldl min s.count)

/-! ## Pending places -/

/-- Gives up the innermost place. -/
def giveUp (s : Layout) : Except Fault Layout :=
  if (s.pending.map PendingKey.required).getD false then .error .brokenDocument
  else .ok { s with pending := none }

/-- Is the place on another line or too far back? -/
def isStale (s : Layout) (p : PendingKey) : Bool :=
  p.line ≠ s.cursor.line || keyLimit < s.cursor.index - p.index

/-- Gives up the places that are stale. -/
def giveUpStale (s : Layout) : Except Fault Layout :=
  let stale := (s.pending :: s.outer).any fun p => (p.map fun p => p.required && s.isStale p).getD false
  let fresh (p : Option PendingKey) := p.filter fun p => !s.isStale p
  if stale then .error .brokenDocument
  else .ok { s with pending := fresh s.pending, outer := s.outer.map fresh }

/-- Notes that a key may start here. -/
def noteKey (s : Layout) : Except Fault Layout :=
  let c := s.cursor
  let required := !s.inFlow && s.columns.head? = some c.column
  if s.keyAllowed then
    s.giveUp.map fun s => { s with pending := some ⟨s.count, required, c.index, c.line, c.column⟩ }
  else .ok s

/-! ## Blocks -/

/-- Closes the blocks that start to the right of a column, or all of them; in a flow there are none
to close. -/
def closeBlocks (column : Option Nat) (s : Layout) : Layout :=
  if s.inFlow then s
  else
    let stay := s.columns.dropWhile fun c => (column.map fun d => decide (d < c)).getD true
    let closed := s.columns.length - stay.length
    { s with
      columns := stay
      tokens := List.replicate closed .blockEnd ++ s.tokens
      count := s.count + closed }

/-- Does a mark in the column open a block? -/
def opensBlock (column : Nat) (s : Layout) : Bool :=
  !s.inFlow && (s.columns.head?.map fun c => decide (c < column)).getD true

/-- Opens a block at a column, its token behind the first `before`, if the column is further right
than those of the blocks around. -/
def openBlock (column before : Nat) (t : Token) (s : Layout) : Layout :=
  if s.opensBlock column then { s.emitAt before t with columns := column :: s.columns } else s

/-! ## Marks -/

/-- The mark before or behind a document, which closes all blocks. -/
def boundary (t : Token) (s : Layout) : Except Fault Layout :=
  (s.closeBlocks none).giveUp.map fun s => ({ s with keyAllowed := false }.ahead 3).emit t

/-- The opening mark of a flow. -/
def openFlow (t : Token) (s : Layout) : Except Fault Layout :=
  s.noteKey.map fun s =>
    ({ s with pending := none, outer := s.pending :: s.outer, keyAllowed := true }.ahead 1).emit t

/-- The closing mark of a flow. -/
def closeFlow (t : Token) (s : Layout) : Except Fault Layout :=
  match s.outer with
  | [] => .error .brokenDocument
  | p :: outer => .ok <| ({ s with pending := p, outer := outer, keyAllowed := false }.ahead 1).emit t

/-- The mark between two parts of a flow. -/
def comma (s : Layout) : Except Fault Layout :=
  s.giveUp.map fun s => ({ s with keyAllowed := true }.ahead 1).emit .comma

/-- The mark of an item. -/
def item (s : Layout) : Except Fault Layout :=
  if !s.inFlow && !s.keyAllowed then .error .brokenDocument
  else
    (s.openBlock s.cursor.column s.count .blockList).giveUp.map fun s =>
      ({ s with keyAllowed := true }.ahead 1).emit .item

/-- The mark of a key. -/
def key (s : Layout) : Except Fault Layout :=
  if !s.inFlow && !s.keyAllowed then .error .brokenDocument
  else
    (s.openBlock s.cursor.column s.count .blockMap).giveUp.map fun s =>
      ({ s with keyAllowed := !s.inFlow }.ahead 1).emit .key

/-- The mark of a value. What was pending becomes a key, which may open a map. -/
def value (s : Layout) : Except Fault Layout :=
  match s.pending with
  | some p =>
    let s := ({ s with pending := none, keyAllowed := false }.emitAt p.before .key).openBlock p.column
      p.before .blockMap
    .ok ((s.ahead 1).emit .value)
  | none =>
    if !s.inFlow && !s.keyAllowed then .error .brokenDocument
    else
      let s := s.openBlock s.cursor.column s.count .blockMap
      .ok (({ s with keyAllowed := !s.inFlow }.ahead 1).emit .value)

/-! ## Scalars -/

/-- A quoted scalar. -/
def quoted (double : Bool) (ending : Fault) (s : Layout) : Except Fault Layout := do
  let s ← s.noteKey
  let (text, n) ← quotedFrom double ending (.gap .empty) [] 1 (s.cursor.rest.drop 1)
  return ({ s with keyAllowed := false }.ahead n).emit (.scalar false text)

/-- A plain scalar. Its lines are indented further than the innermost block. -/
def plain (s : Layout) : Except Fault Layout :=
  s.noteKey.map fun s =>
    let least := (s.columns.head?.map (· + 1)).getD 0
    let p := plainFrom s.inFlow least .empty [] 0 0 s.cursor.rest
    ({ s with keyAllowed := p.endsLine }.ahead p.length).emit (.scalar true p.text)

/-! ## Whole texts -/

/-- The next token, behind a gap. -/
def token (ending : Fault) (s : Layout) : Except Fault Layout :=
  let next := s.cursor.rest.drop 1
  match s.cursor.rest with
  | [] => .error ending
  | c :: _ =>
    if s.cursor.column = 0 && startsWithMark '-' s.cursor.rest then s.boundary .documentStart
    else if s.cursor.column = 0 && startsWithMark '.' s.cursor.rest then s.boundary .documentEnd
    else if c = '[' then s.openFlow .flowList
    else if c = '{' then s.openFlow .flowMap
    else if c = ']' then s.giveUp.bind (closeFlow .flowListEnd)
    else if c = '}' then s.giveUp.bind (closeFlow .flowMapEnd)
    else if c = ',' then s.comma
    else if c = '-' && endsWord next then s.item
    else if c = '?' && (s.inFlow || endsWord next) then s.key
    else if c = ':' && (s.inFlow || endsWord next) then s.value
    else if c = '\'' then s.quoted false ending
    else if c = '"' then s.quoted true ending
    else if startsPlain s.inFlow s.cursor.rest then s.plain
    else .error .brokenDocument

/-- The place behind the gap that starts here. After the end of a line a key may start. -/
def skipGap (s : Layout) : Layout :=
  let c := s.cursor.skipGap
  { s with cursor := c, keyAllowed := s.keyAllowed || (c.line ≠ s.cursor.line && !s.inFlow) }

/-- Goes over a gap, and closes the blocks that end with it. -/
def nextLine (s : Layout) : Except Fault Layout :=
  s.skipGap.giveUpStale.map fun s => s.closeBlocks (some s.cursor.column)

/-- The last tokens, at the end of the text. -/
def finish (s : Layout) : Except Fault (List Token) :=
  (s.closeBlocks none).giveUp.map fun s => s.tokens.reverse

/-- The tokens from here on. In a text that is broken off, what reaches its end is undecodable. -/
def run (brokenOff : Bool) : Nat → Layout → List Token
  | 0, s => s.decided ++ [.stop .brokenDocument]
  | fuel + 1, s =>
    let stop (s : Layout) (f : Fault) := s.decided ++ [.stop f]
    match s.giveUpStale with
    | .error f => stop s f
    | .ok s =>
      match s.nextLine with
      | .error f => stop s f
      | .ok here =>
        if here.cursor.rest.isEmpty then
          if brokenOff then stop s .undecodable
          else
            match here.finish with
            | .error f => stop s f
            | .ok tokens => tokens
        else
          match here.token (if brokenOff then .undecodable else .brokenDocument) with
          | .error f => stop s f
          | .ok after =>
            if brokenOff && after.cursor.rest.isEmpty then stop s .undecodable
            else run brokenOff fuel after

end Layout

/-- May the character stand in a document at all? -/
def isAllowed (c : Char) : Bool :=
  let n := c.toNat
  n = 0x09 || n = 0x0A || n = 0x0D || (0x20 ≤ n && n ≤ 0x7E) || n = 0x85 ||
    (0xA0 ≤ n && n ≤ 0xD7FF) || (0xE000 ≤ n && n ≤ 0xFFFD) || 0x10000 ≤ n

/-- The tokens of a document text, which may be broken off. -/
def Token.ofText (brokenOff : Bool) (t : Text) : List Token :=
  if t.all isAllowed then Layout.run brokenOff (t.length + 1) (.start t)
  else [.stop .brokenDocument]

end TagReasoner
