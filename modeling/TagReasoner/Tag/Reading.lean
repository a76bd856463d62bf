import TagReasoner.Argument.Reading
import TagReasoner.Tag.Basic

/-!
# Reading tags

The kind of a trimmed text shows: a recommendation starts with an at-sign, a rule holds an arrow,
a fact holds an opening parenthesis with a closing one somewhere behind it on a single line. Each
kind has a grammar of its own:

* a fact is a name, then the arguments in parentheses, separated by commas;
* a rule is two lists of tags around its first arrow, `=>` or `->`, neither of them empty, and the
  tags in the lists are not rules;
* a list of tags may stand in brackets and is cut at the commas outside parentheses.

A rule in the list of a rule is refused, but it is read first, with the rules in its own lists, so
that an error in it comes before the refusal. `Rule.parse` has all the room for this that it needs.
`Rule.parseWithin` and `Tag.parseWithin` are the same with a limit on the rules that are read one
inside another, and fail with `Fault.tooDeep` beyond it.
-/

namespace TagReasoner

open Text

/-! ## Facts and recommendations -/

/-- The characters of a predicate name. -/
def isNameChar (c : Char) : Bool := !(c = '(' || c = ')' || c = ',' || isBlank c)

/-- The characters between the parentheses of a fact. -/
def isBodyChar (c : Char) : Bool := !(c = '(' || c = ')')

/-- Name and body of a text of the form `name(body)`. -/
def Fact.parts? (t : Text) : Option (Text × Text) :=
  match t.span isNameChar with
  | ([], _) => none
  | (name, '(' :: r) =>
    match r.span isBodyChar with
    | (body, [')']) => some (name, body)
    | _ => none
  | _ => none

/-- The tokens of a body; an empty body has none. -/
def Fact.tokens (body : Text) : List Text := if body.isEmpty then [] else splitOn ',' body

/-- Reads a fact with a confidence. -/
def Fact.parse (t : Text) (confidence : Confidence) : Except ParseError Fact :=
  match Fact.parts? t with
  | none => .error (.malformed .fact t)
  | some (name, body) =>
    ((Fact.tokens body).mapM Argument.parse).map fun arguments => ⟨name, arguments, confidence⟩

/-- Reads a recommendation. -/
def Recommendation.parse (t : Text) : Except ParseError Recommendation :=
  if h : Recommendation.isWritten t = true then .ok ⟨t, h⟩
  else .error (.malformed .recommendation t)

/-! ## Lists -/

/-- Cuts at the commas outside parentheses, given how many are open; `none` if a parenthesis
closes that was not opened, or one stays open. -/
def topLevelPieces? : Nat → Text → Option (List Text)
  | 0, [] => some [[]]
  | _ + 1, [] => none
  | depth, '(' :: r => (topLevelPieces? (depth + 1) r).map (consPiece '(')
  | 0, ')' :: _ => none
  | depth + 1, ')' :: r => (topLevelPieces? depth r).map (consPiece ')')
  | 0, ',' :: r => (topLevelPieces? 0 r).map ([] :: ·)
  | depth, c :: r => (topLevelPieces? depth r).map (consPiece c)

/-- The list without the brackets around it. -/
def unbracketed (t : Text) : Text :=
  match t with
  | '[' :: r => if r.getLast? = some ']' then r.dropLast else t
  | _ => t

/-- The tags of a list, trimmed. A blank list has none; otherwise none may be blank. -/
def splitTagList (t : Text) : Except ParseError (List Text) :=
  let list := unbracketed (strip t)
  match topLevelPieces? 0 list with
  | none => .error (.malformed .parentheses list)
  | some pieces =>
    if allBlank list then .ok []
    else if pieces.any allBlank then .error (.malformed .listItem list)
    else .ok (pieces.map strip)

/-! ## Rules -/

/-- The texts on the two sides of the first arrow. -/
def splitArrow? : Text → Option (Text × Text)
  | [] => none
  | '=' :: '>' :: r => some ([], r)
  | '-' :: '>' :: r => some ([], r)
  | c :: r => (splitArrow? r).map fun (before, after) => (c :: before, after)

/-- A `(` with a `)` somewhere behind it, and no line feed at all. -/
def looksLikeFact (t : Text) : Bool :=
  !t.contains '\n' && (t.dropWhile (· != '(')).contains ')'

/-- The kind that a trimmed text shows. -/
def TagKind.ofText? (t : Text) : Option TagKind :=
  if t.head? = some '@' then some .recommendation
  else if (splitArrow? t).isSome then some .rule
  else if looksLikeFact t then some .fact
  else none

/-- Reads a tag that stands in the list of a rule. A rule may not stand there; `onRule` says which
error it is. -/
def Tag.parseSimple (onRule : Text → ParseError) (t : Text) : Except ParseError Tag :=
  let text := strip t
  match TagKind.ofText? text with
  | none => .error (.malformed .tag text)
  | some .recommendation => (Recommendation.parse text).map .recommendation
  | some .fact => (Fact.parse text .certain).map .fact
  | some .rule => .error (onRule text)

/-- Reads a rule, given the error for a rule inside it. -/
def Rule.parseWith (onRule : Text → ParseError) (t : Text) : Except ParseError Rule := do
  match splitArrow? t with
  | none => throw (.malformed .arrow t)
  | some (before, after) =>
    let inputs ← splitTagList before
    let outputs ← splitTagList after
    if inputs.isEmpty || outputs.isEmpty then throw (.malformed .ruleSides t)
    return ⟨← inputs.mapM (Tag.parseSimple onRule), ← outputs.mapM (Tag.parseSimple onRule)⟩

/-- The error for a rule inside a rule: its own error if it cannot be read, and else that it is
there. Each rule is shorter than the one around it, so a depth of the length of the text is
enough. -/
def nestedRuleError : Nat → Text → ParseError
  | 0, t => .malformed .nestedRule t
  | depth + 1, t =>
    match Rule.parseWith (nestedRuleError depth) t with
    | .error e => e
    | .ok _ => .malformed .nestedRule t

/-- Reads a rule. -/
def Rule.parse (t : Text) : Except ParseError Rule := Rule.parseWith (nestedRuleError t.length) t

/-- Reads a rule with room for `depth` rules one inside another. The error for a rule inside it
names that rule, which is read with the room that is left. -/
def Rule.parseWithin : Nat → Text → Except Fault Rule
  | 0, _ => .error .tooDeep
  | depth + 1, t =>
    match Rule.parseWith (.malformed .nestedRule) t with
    | .error (.malformed .nestedRule inner) =>
      (Rule.parseWithin depth inner).bind fun _ => .error (.parse (.malformed .nestedRule inner))
    | result => result.mapError .parse

/-! ## Any tag -/

/-- Reads a trimmed text as a tag of a kind. -/
def Tag.parseAs (kind : TagKind) (t : Text) : Except ParseError Tag :=
  match kind with
  | .fact => (Fact.parse t .certain).map .fact
  | .rule => (Rule.parse t).map Rule.toTag
  | .recommendation => (Recommendation.parse t).map .recommendation

/-- Reads a tag of the kind that its text shows. -/
def Tag.parse (t : Text) : Except ParseError Tag :=
  let text := strip t
  match TagKind.ofText? text with
  | none => .error (.malformed .tag text)
  | some kind => Tag.parseAs kind text

/-- Reads a tag of the kind that its text shows, with room for `depth` rules one inside another. -/
def Tag.parseWithin (depth : Nat) (t : Text) : Except Fault Tag :=
  let text := strip t
  match TagKind.ofText? text with
  | some .rule => (Rule.parseWithin depth text).map Rule.toTag
  | _ => (Tag.parse t).mapError .parse

/-- Reads a tag of a kind given by name, or of the kind that its text shows. -/
def Tag.parseNamed (kind : Option Text) (t : Text) : Except Fault Tag :=
  match kind with
  | none => (Tag.parse t).mapError .parse
  | some name =>
    match TagKind.ofName? name with
    | none => .error (.unknownTagKind name)
    | some kind => (Tag.parseAs kind (strip t)).mapError .parse

/-- The rule whose tags on both sides are read as one kind. -/
def Rule.ofTexts (inputs outputs : List Text) (kind : Option Text) : Except Fault Rule :=
  return ⟨← inputs.mapM (Tag.parseNamed kind), ← outputs.mapM (Tag.parseNamed kind)⟩

end TagReasoner
