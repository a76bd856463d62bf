import TagReasoner.Matching.Substitution

/-!
# Matching facts

A known fact is matched with a pattern argument by argument, from left to right, and the bindings
made so far are in force for the arguments that follow. A wildcard on either side ends the match
with success. A variable on either side is bound to the argument opposite, except that a bare mark
matches anything and is not bound. Everything else has to be equal, or compatible under numeric
operators.

The predicates have to be the same. A pattern may be longer than the fact only by wildcards, and a
fact may be longer than the pattern only if a wildcard comes first.
-/

namespace TagReasoner

/-- Makes two arguments agree by extending a substitution, if that can be done. When both are
unbound variables, the second is bound to the first. -/
def unifyArguments (a b : Argument) (θ : Substitution) : Option Substitution :=
  if a.isAnonymous || b.isAnonymous then some θ
  else
    let a := θ.resolve a
    let b := θ.resolve b
    if a == b then some θ
    else
      match b.name?, a.name? with
      | some name, _ => some (θ.put name a)
      | none, some name => some (θ.put name b)
      | none, none => if a.compatible b then some θ else none

/-- Matches the arguments of a fact with those of a pattern. -/
def matchArguments : List Argument → List Argument → Substitution → Option Substitution
  | [], _, θ => some θ
  | _ :: _, [], _ => none
  | a :: as, b :: bs, θ =>
    if a.isWildcard || b.isWildcard then some θ
    else (unifyArguments a b θ).bind (matchArguments as bs)

/-- Matches a fact with a pattern under a substitution, which is extended. -/
def matchFacts (fact pattern : Fact) (θ : Substitution) : Option Substitution :=
  if fact.predicate == pattern.predicate &&
      (pattern.arguments.drop fact.arguments.length).all Argument.isWildcard then
    matchArguments fact.arguments pattern.arguments θ
  else none

/-- The fact matches the pattern, with no bindings before. -/
def Fact.fits (fact pattern : Fact) : Bool := (matchFacts fact pattern .empty).isSome

/-- The verdict on a match together with the bindings then in force. -/
structure Verdict where
  matched : Bool
  bindings : Substitution

/-- Matches a fact with a pattern; a failure leaves the bindings as they were. -/
def Fact.verdict (fact pattern : Fact) (θ : Substitution) : Verdict :=
  match matchFacts fact pattern θ with
  | some bindings => ⟨true, bindings⟩
  | none => ⟨false, θ⟩

end TagReasoner
