import TagReasoner.Collection.WorkingSet
import TagReasoner.Composition.Basic

/-!
# Composition passes

A pass composes every ordered pair of rules, each with itself too, and keeps what is not empty. The
next pass composes what the pass before it made. Passes go on up to a number set by the caller, and
stop when one makes nothing.
-/

namespace TagReasoner

/-- Every ordered pair of elements, by first and then by second element. -/
def orderedPairs (as : List α) : List (α × α) := as.flatMap fun a => as.map fun b => (a, b)

/-- One pass: the composed rules of all ordered pairs. -/
def pairwiseCompose (rules : List Rule) : WorkingSet Rule :=
  .ofList (((orderedPairs rules).map fun p => compose p.1 p.2).filter fun r => !r.isEmpty)

/-- The rules made by `n` passes over `rules`, added to those `made` before. -/
def passes : Nat → List Rule → WorkingSet Rule → WorkingSet Rule
  | 0, _, made => made
  | n + 1, rules, made =>
    let next := pairwiseCompose rules
    if next.isEmpty then made else passes n next.items (made.union next)

/-- Every rule made by `n` passes that start from `rules`. -/
def composedRules (n : Nat) (rules : List Rule) : WorkingSet Rule := passes n rules .empty

/-! ## Values that are no tags -/

/-- The first pair of a pass that is refused, by the kind of what is no tag. -/
def pairwiseRefusal? (rules : List Rule) : Option Text :=
  (orderedPairs rules).findSome? fun p => compositionRefusal? p.1 p.2

/-- The first refusal in `n` passes. -/
def passesRefusal? : Nat → List Rule → Option Text
  | 0, _ => none
  | n + 1, rules =>
    (pairwiseRefusal? rules).or <|
      let next := pairwiseCompose rules
      if next.isEmpty then none else passesRefusal? n next.items

/-- One pass, or the kind of a part that it refuses. -/
def pairwiseComposeChecked (rules : List Rule) : Except Fault (WorkingSet Rule) :=
  match pairwiseRefusal? rules with
  | some kind => .error (.notATag kind)
  | none => .ok (pairwiseCompose rules)

/-- The rules made by `n` passes, or the kind of a part that one of them refuses. -/
def composedRulesChecked (n : Nat) (rules : List Rule) : Except Fault (WorkingSet Rule) :=
  match passesRefusal? n rules with
  | some kind => .error (.notATag kind)
  | none => .ok (composedRules n rules)

end TagReasoner
