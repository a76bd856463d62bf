import TagReasoner.Composition.Renaming
import TagReasoner.Matching.Facts

/-!
# Composing rules

Two rules `A => mid` and `mid => C` compose to `A => C` when every output of the first matches some
input of the second. Bindings made while matching carry over from output to output and into the
outputs of the composed rule. The second rule is renamed apart first, so that variables of one name
stay independent.

Facts match as patterns do, the input of the second rule being the pattern. Other tags match when
they are equal. A pair that does not compose gives the empty rule.
-/

namespace TagReasoner

/-- Matches an output of one rule with an input of another. -/
def matchTags (output input : Tag) (θ : Substitution) : Option Substitution :=
  match output, input with
  | .fact f, .fact p => matchFacts f p θ
  | .fact _, _ | .foreign .., _ => none
  | t, u => if t == u then some θ else none

/-- Matches an output with the first input that it matches. -/
def matchOutput (inputs : List Tag) (θ : Substitution) (output : Tag) : Option Substitution :=
  inputs.findSome? fun input => matchTags output input θ

/-- Matches each output with an input, bindings carried along. -/
def matchOutputs (outputs inputs : List Tag) (θ : Substitution) : Option Substitution :=
  outputs.foldlM (matchOutput inputs) θ

/-- Composes two rules, of which the second is renamed apart from the first. -/
def composeApart (first second : Rule) : Rule :=
  match matchOutputs first.outputs second.inputs .empty with
  | some θ => ⟨first.inputs, Tag.substituteAll θ second.outputs⟩
  | none => .empty

/-- There is nothing to compose. -/
def nothingToCompose (first second : Rule) : Bool :=
  first.isEmpty || second.isEmpty || first.outputs.isEmpty

/-- Composes the first rule into the second; the empty rule if that cannot be done. -/
def compose (first second : Rule) : Rule :=
  if nothingToCompose first second then .empty
  else composeApart first (second.renameApart first.namedVariables.keys)

/-! ## Values that are no tags -/

/-- Is the tag a value that is no tag? -/
def Tag.isForeign : Tag → Bool
  | .foreign .. => true
  | _ => false

/-- Matching refuses an output that is no tag when it comes to it, so if there is an input to match
it with and the outputs before it have matched. -/
def matchingRefusal? (outputs inputs : List Tag) : Option Text :=
  match outputs.dropWhile fun t => !t.isForeign with
  | .foreign kind _ :: _ =>
    let before := outputs.takeWhile fun t => !t.isForeign
    if inputs.isEmpty || (matchOutputs before inputs .empty).isNone then none else some kind
  | _ => none

/-- What stands in the way of composing: renaming, matching or substitution meets no tag. -/
def compositionRefusal? (first second : Rule) : Option Text :=
  if nothingToCompose first second then none
  else
    let θ := second.renamingApart first.namedVariables.keys
    let apart := second.substitute θ
    ((second.toTag.substitutionRefusal? θ).or (matchingRefusal? first.outputs apart.inputs)).or
      ((matchOutputs first.outputs apart.inputs .empty).bind fun θ' =>
        (Tag.rule [] apart.outputs).substitutionRefusal? θ')

/-- Composition, or the kind of a part that it refuses. -/
def composeChecked (first second : Rule) : Except Fault Rule :=
  match compositionRefusal? first second with
  | some kind => .error (.notATag kind)
  | none => .ok (compose first second)

end TagReasoner
