import TagReasoner.Collection.Keyed
import TagReasoner.Error
import TagReasoner.Tag.Basic

/-!
# Substitutions

A substitution binds names of variables to arguments, which may be variables again. `resolve`
follows the bindings of a variable until it meets a value, a variable without a binding, or a
variable that it has followed before: each binding is used once at most, so the walk ends, even
where bindings go round in a circle.

`Tag.substitute` puts resolved arguments in the place of variables, in the facts of a tag. A fact
in which that changes no argument stays as it is, spelling included.
-/

namespace TagReasoner

/-- What variables stand for, by name. -/
abbrev Substitution := Keyed Text Argument

namespace Substitution

/-- Follows at most `fuel` bindings, leaving out those that were used before. -/
def follow : Nat → Substitution → Argument → Argument
  | 0, _, a => a
  | fuel + 1, θ, a =>
    match a.name? with
    | none => a
    | some name =>
      match θ.get? name with
      | none => a
      | some b => follow fuel (θ.erase name) b

/-- What an argument stands for in the end. There are no more steps than bindings. -/
def resolve (θ : Substitution) (a : Argument) : Argument := follow θ.size θ a

end Substitution

/-- The arguments of a fact are resolved; the fact stays as it is if none of them changes. -/
def Fact.substitute (θ : Substitution) (f : Fact) : Fact :=
  let resolved := f.arguments.map θ.resolve
  if resolved == f.arguments then f else { f with arguments := resolved }

mutual

/-- Puts what variables stand for in their place, in every fact inside a tag. -/
def Tag.substitute (θ : Substitution) : Tag → Tag
  | .fact f => .fact (f.substitute θ)
  | .rule i o => .rule (Tag.substituteAll θ i) (Tag.substituteAll θ o)
  | t => t

/-- Substitutes in each of several tags. -/
def Tag.substituteAll (θ : Substitution) : List Tag → List Tag
  | [] => []
  | t :: ts => Tag.substitute θ t :: Tag.substituteAll θ ts

end

/-- Substitutes on both sides of a rule. -/
def Rule.substitute (θ : Substitution) (r : Rule) : Rule :=
  ⟨Tag.substituteAll θ r.inputs, Tag.substituteAll θ r.outputs⟩

/-! ## Values that are no tags -/

mutual

/-- The kind of the first value inside a tag that is no tag. -/
def Tag.foreignKind? : Tag → Option Text
  | .foreign kind _ => some kind
  | .rule i o => (Tag.firstForeignKind? i).or (Tag.firstForeignKind? o)
  | _ => none

/-- The kind of the first value inside several tags that is no tag. -/
def Tag.firstForeignKind? : List Tag → Option Text
  | [] => none
  | t :: ts => (Tag.foreignKind? t).or (Tag.firstForeignKind? ts)

end

/-- Substitution meets every part of a tag, and refuses one that is no tag; where there is nothing
to substitute it does not look. -/
def Tag.substitutionRefusal? (θ : Substitution) (t : Tag) : Option Text :=
  if θ.size = 0 then none else t.foreignKind?

/-- Substitution, or the kind of a part that it refuses. -/
def Tag.substituteChecked (θ : Substitution) (t : Tag) : Except Fault Tag :=
  match t.substitutionRefusal? θ with
  | some kind => .error (.notATag kind)
  | none => .ok (t.substitute θ)

end TagReasoner
