import TagReasoner.Argument.Basic
import TagReasoner.Error
import TagReasoner.Number.Numeral

/-!
# Reading an argument

A token is split into the longest run of operator characters it starts with and the rest. A rest
that is a complete number makes a number, and only then has the run to be a known operator. A rest
that is a star, or that starts with the mark of a variable, makes a wildcard or a variable, and
the run in front of it is kept for display only. Any other token is a literal, run included.
-/

namespace TagReasoner

/-- The characters that operators are made of. -/
def isOperatorChar (c : Char) : Bool := c = '=' || c = '>' || c = '<' || c = '!'

/-- The operator written by a run of operator characters; no run means equality. -/
def Relation.ofRun : Text → Except ParseError Relation
  | [] | ['='] | ['=', '='] => .ok .eq
  | ['!'] | ['!', '='] => .ok .ne
  | ['>'] => .ok .gt
  | ['<'] => .ok .lt
  | ['>', '='] => .ok .ge
  | ['<', '='] => .ok .le
  | run => .error (.malformed .relation run)

namespace Argument

/-- The argument of a token whose rest behind the operator run is no number. -/
def ofRest (token : Text) : Text → Argument
  | ['*'] => ⟨.wildcard, token⟩
  | ['?'] => ⟨.variable ['?'] .single, token⟩
  | ['&'] => ⟨.variable ['&'] .multi, token⟩
  | '?' :: name => ⟨.variable name .single, token⟩
  | '&' :: name => ⟨.variable name .multi, token⟩
  | _ => ⟨.literal token, token⟩

/-- Reads a token, which is not empty and holds no blank. -/
def parse (token : Text) : Except ParseError Argument :=
  if token.isEmpty || token.any Text.isBlank then .error (.malformed .argument token)
  else
    let (run, rest) := token.span isOperatorChar
    match Number.plainNumber? rest with
    | some value => (Relation.ofRun run).map fun relation => ⟨.number value relation, token⟩
    | none => .ok (ofRest token rest)

end Argument
end TagReasoner
