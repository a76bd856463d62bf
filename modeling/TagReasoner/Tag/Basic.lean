import TagReasoner.Argument.Basic
import TagReasoner.Text.Pieces

/-!
# Tags

Tags are the units of reasoning. A fact is a predicate with arguments that is held to be true with
some confidence, a rule has input tags and output tags, and a recommendation is an output marker.
Rules may hold rules. A rule that was built by hand may also hold a value that is no tag; it takes
part as a `foreign` tag, which nothing matches and which may not be asserted.

Equality never depends on how arguments are spelled or on confidence. Every tag has a text, the
form in which it is displayed and written down.
-/

namespace TagReasoner

/-- A degree of belief in the unit interval. -/
structure Confidence where
  value : Binary64
  inUnitInterval : (Binary64.zero false).atMost value = true ∧ value.atMost (Binary64.ofNat 1) = true

namespace Confidence

/-- The confidence with this value, if that lies in the unit interval. -/
def ofValue? (x : Binary64) : Option Confidence :=
  if h : (Binary64.zero false).atMost x = true ∧ x.atMost (Binary64.ofNat 1) = true then some ⟨x, h⟩
  else none

/-- Full confidence. -/
def certain : Confidence := ⟨Binary64.ofNat 1, by decide +kernel⟩

end Confidence

/-- A predicate of arguments that is held to be true. -/
structure Fact where
  predicate : Text
  arguments : List Argument
  confidence : Confidence

/-- A recommendation is an at-sign with a name behind it and holds no blank. -/
def Recommendation.isWritten : Text → Bool
  | '@' :: c :: r => !(c :: r).any Text.isBlank
  | _ => false

/-- An output marker of the reasoning. -/
structure Recommendation where
  text : Text
  written : Recommendation.isWritten text = true

/-- A unit of reasoning. -/
inductive Tag where
  | fact (fact : Fact)
  | recommendation (recommendation : Recommendation)
  | rule (inputs outputs : List Tag)
  /-- A value that is no tag, with the name of its kind. -/
  | foreign (kind text : Text)

/-- Input tags that, once all satisfied, produce the output tags. -/
structure Rule where
  inputs : List Tag
  outputs : List Tag

/-! ## Equality -/

/-- Facts are equal whatever their confidence. -/
instance : BEq Fact := ⟨fun f g => f.predicate == g.predicate && f.arguments == g.arguments⟩

instance : BEq Recommendation := ⟨fun r s => r.text == s.text⟩

mutual

/-- Equal tags: of one kind, with equal parts in the same order. -/
def Tag.equal : Tag → Tag → Bool
  | .fact f, .fact g => f == g
  | .recommendation r, .recommendation s => r == s
  | .rule i o, .rule j p => Tag.allEqual i j && Tag.allEqual o p
  | .foreign k s, .foreign l t => k == l && s == t
  | _, _ => false

/-- Two lists of tags that are equal one by one. -/
def Tag.allEqual : List Tag → List Tag → Bool
  | [], [] => true
  | t :: ts, u :: us => Tag.equal t u && Tag.allEqual ts us
  | _, _ => false

end

instance : BEq Tag := ⟨Tag.equal⟩

instance : BEq Rule :=
  ⟨fun r s => Tag.allEqual r.inputs s.inputs && Tag.allEqual r.outputs s.outputs⟩

/-! ## Text -/

namespace Fact

/-- The predicate and, in parentheses, the tokens of the arguments. -/
def text (f : Fact) : Text :=
  f.predicate ++ '(' :: Text.join [','] (f.arguments.map (·.token)) ++ [')']

/-- The number of arguments. -/
def arity (f : Fact) : Nat := f.arguments.length

/-- The names of the variables, one for each occurrence. -/
def variableNames (f : Fact) : List Text := f.arguments.filterMap Argument.name?

/-- No argument is a variable or a wildcard. -/
def isGround (f : Fact) : Bool := !f.arguments.any fun a => a.isVariable || a.isWildcard

end Fact

mutual

/-- The text of a tag. -/
def Tag.text : Tag → Text
  | .fact f => f.text
  | .recommendation r => r.text
  | .rule i o => Text.join [','] (Tag.texts i) ++ '=' :: '>' :: Text.join [','] (Tag.texts o)
  | .foreign _ t => t

/-- The texts of tags. -/
def Tag.texts : List Tag → List Text
  | [] => []
  | t :: ts => Tag.text t :: Tag.texts ts

end

namespace Rule

/-- A rule is a tag. -/
def toTag (r : Rule) : Tag := .rule r.inputs r.outputs

/-- The text of a rule: inputs, an arrow, outputs. -/
def text (r : Rule) : Text := r.toTag.text

/-- The rule without inputs and outputs. -/
def empty : Rule := ⟨[], []⟩

def isEmpty (r : Rule) : Bool := r.inputs.isEmpty && r.outputs.isEmpty

end Rule

namespace Tag

/-- The tag as a fact, if it is one. -/
def asFact? : Tag → Option Fact
  | .fact f => some f
  | _ => none

/-- The tag as a recommendation, if it is one. -/
def asRecommendation? : Tag → Option Recommendation
  | .recommendation r => some r
  | _ => none

/-- The tag as a rule, if it is one. -/
def asRule? : Tag → Option Rule
  | .rule i o => some ⟨i, o⟩
  | _ => none

end Tag

/-- The facts among the inputs, in order: what has to be known for the rule to fire. -/
def Rule.inputFacts (r : Rule) : List Fact := r.inputs.filterMap Tag.asFact?

/-- The facts among the outputs, in order. -/
def Rule.outputFacts (r : Rule) : List Fact := r.outputs.filterMap Tag.asFact?

/-! ## Kinds -/

/-- The three kinds of tags. -/
inductive TagKind where
  | fact
  | recommendation
  | rule
  deriving DecidableEq

/-- The name of a kind. -/
def TagKind.name : TagKind → Text
  | fact => ['f', 'a', 'c', 't']
  | recommendation => "recommendation".toList
  | rule => ['r', 'u', 'l', 'e']

/-- The kind with this name. -/
def TagKind.ofName? (name : Text) : Option TagKind :=
  [TagKind.fact, .recommendation, .rule].find? fun k => k.name = name

/-- The name of a tag's kind. -/
def Tag.kindName : Tag → Text
  | .fact _ => TagKind.fact.name
  | .recommendation _ => TagKind.recommendation.name
  | .rule .. => TagKind.rule.name
  | .foreign kind _ => kind

end TagReasoner
