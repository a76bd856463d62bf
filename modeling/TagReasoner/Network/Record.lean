import TagReasoner.Network.Node
import TagReasoner.Number.Numeral
import TagReasoner.Tag.Reading

/-!
# Records

A record describes a node by tokens: its tag, its threshold, and then for each output a tag and a
weight. Blanks around tokens do not count. An output that is named again takes the later weight and
keeps its first spelling and place. How tags are read is a parameter, and with it what a parse error
is wrapped in.
-/

namespace TagReasoner

section Reading

variable {ε : Type} (refuse : ParseError → ε) (readTag : Text → Except ε Tag)

/-- Reads the outputs of a record. Of a bad weight and a bad tag in one output the weight counts. -/
def readOutputsWith : List Text → Keyed Tag Binary64 → Except ε (Keyed Tag Binary64)
  | tag :: weight :: rest, outputs =>
    match Number.realNumber? weight with
    | none => .error (refuse (.malformed .weight weight))
    | some w => (readTag tag).bind fun t => readOutputsWith rest (outputs.put t w)
  | _, outputs => .ok outputs

/-- Reads a node from the tokens of a record, created now. -/
def Node.ofRecordWith (s : Settings) (now : Binary64) (tokens : List Text) : Except ε Node :=
  let tokens := tokens.map Text.strip
  let line := Text.join [','] tokens
  match tokens with
  | tag :: threshold :: outputs =>
    if outputs.length % 2 = 1 then .error (refuse (.malformed .oddRecord line))
    else do
      let tag ← readTag tag
      match Number.wholeNumber? threshold with
      | none => throw (refuse (.malformed .threshold threshold))
      | some threshold =>
        let outputs ← readOutputsWith refuse readTag outputs .empty
        return Node.create tag outputs threshold s.nodeStrength s.nodeMaxAge now
  | _ => .error (refuse (.malformed .shortRecord line))

end Reading

/-- Reads a node from the tokens of a record, created now. -/
def Node.ofRecord (s : Settings) (now : Binary64) (tokens : List Text) : Except ParseError Node :=
  Node.ofRecordWith id Tag.parse s now tokens

/-- Reads a node from the tokens of a record, created now, with room for `depth` rules one inside
another. -/
def Node.ofRecordWithin (depth : Nat) (s : Settings) (now : Binary64) (tokens : List Text) :
    Except Fault Node :=
  Node.ofRecordWith .parse (Tag.parseWithin depth) s now tokens

/-- The numbered records among some lines: each line that is not blank and does not start with a
number sign, cut at the delimiter. -/
def readRecordsFrom (delimiter : Text) : Nat → List Text → Except Fault (List (Nat × List Text))
  | _, [] => .ok []
  | number, line :: lines =>
    match Text.strip line with
    | [] => readRecordsFrom delimiter (number + 1) lines
    | '#' :: _ => readRecordsFrom delimiter (number + 1) lines
    | stripped =>
      match Text.splitOnText? delimiter stripped with
      | none => .error .emptyDelimiter
      | some tokens =>
        (readRecordsFrom delimiter (number + 1) lines).map fun records => (number, tokens) :: records

/-- The records among some lines, which are counted from one. -/
def readRecords (delimiter : Text) (lines : List Text) : Except Fault (List (Nat × List Text)) :=
  readRecordsFrom delimiter 1 lines

end TagReasoner
