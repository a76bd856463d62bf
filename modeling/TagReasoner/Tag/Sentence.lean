import TagReasoner.Tag.Reading

/-!
# Sentences

A sentence teaches one tag. It is either the text of a tag, or a rule in words,

    if CLAUSE and CLAUSE then CLAUSE and CLAUSE

on a line, with keywords in any case and blanks around them. The words are found as follows. The
part before `then` is the shortest for which the sentence can be read at all, and the part behind
it is everything up to the blanks at the end. A part is cut at every `and` between blanks.

Neither part holds a line feed. Where blanks are all that could make a part, a part may consist of
a single blank; such a clause is no tag, and the sentence is refused for that reason.
-/

namespace TagReasoner
namespace Sentence

open Text

/-- A letter of a keyword in either case. The letter `i` has two more forms, with and without a
dot. -/
def isLetter (letter c : Char) : Bool :=
  c.toLower = letter || (letter = 'i' && (c.toNat = 0x130 || c.toNat = 0x131))

/-- What follows a keyword at the start of a text. -/
def afterKeyword? : Text → Text → Option Text
  | [], t => some t
  | letter :: word, c :: t => if isLetter letter c then afterKeyword? word t else none
  | _ :: _, [] => none

/-- What follows a keyword that is preceded by blanks. -/
def afterBlanksAnd? (word t : Text) : Option Text :=
  match t with
  | c :: _ => if isBlank c then afterKeyword? word (stripStart t) else none
  | [] => none

/-- The places where a part can start behind a keyword: after all the blanks that follow it, or
after all but the last, and so on, but after one at least. -/
def partStarts : Text → List Text
  | c :: t => if isBlank c then partStarts t ++ [t] else []
  | [] => []

/-- The part from a place to the blanks at the end of the sentence. A place in front of nothing
but blanks has a part of one character. -/
def lastPart? (start : Text) : Option Text :=
  let part := if allBlank start then start.take 1 else stripEnd start
  if part.isEmpty || part.contains '\n' then none else some part

/-- The part behind `then`, if a sentence can go on with blanks and that word. -/
def conclusion? (t : Text) : Option Text :=
  (afterBlanksAnd? ['t', 'h', 'e', 'n'] t).bind fun r => (partStarts r).findSome? lastPart?

/-- The shortest part from a place that `then` and a conclusion can follow. -/
def premise? : Text → Option (Text × Text)
  | [] => none
  | c :: t =>
    if c = '\n' then none
    else
      match conclusion? t with
      | some conclusion => some ([c], conclusion)
      | none => (premise? t).map fun (premise, conclusion) => (c :: premise, conclusion)

/-- The two parts of a rule in words. -/
def ifThen? (t : Text) : Option (Text × Text) :=
  (afterKeyword? ['i', 'f'] (stripStart t)).bind fun r => (partStarts r).findSome? premise?

/-- Cuts a part at `and` between blanks, the first `skip` characters being dropped unread. -/
def clausesFrom : Nat → Text → List Text
  | _, [] => [[]]
  | skip + 1, _ :: t => clausesFrom skip t
  | 0, c :: t =>
    match (afterBlanksAnd? ['a', 'n', 'd'] (c :: t)).bind fun r => (partStarts r).head? with
    | some rest => [] :: clausesFrom (t.length - rest.length) t
    | none => consPiece c (clausesFrom 0 t)

/-- The clauses of a part. -/
def clauses (part : Text) : List Text := clausesFrom 0 part

/-- Reads a clause, which is a tag and no rule. -/
def parseClause (sentence clause : Text) : Except ParseError Tag :=
  match Tag.parse clause with
  | .ok (.rule ..) => .error (.malformed .nestedClause sentence)
  | result => result

/-- Reads a sentence. -/
def parse (t : Text) : Except ParseError Tag := do
  if allBlank t then throw (.malformed .emptySentence t)
  match ifThen? t with
  | none => Tag.parse t
  | some (premise, conclusion) =>
    return .rule (← (clauses premise).mapM (parseClause t)) (← (clauses conclusion).mapM (parseClause t))

end Sentence
end TagReasoner
