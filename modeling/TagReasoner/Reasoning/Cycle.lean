import TagReasoner.Matching.Satisfaction
import TagReasoner.Reasoning.Memory

/-!
# One cycle of inference

A cycle takes a snapshot first: every ready rule whose input facts are satisfiable over the known
facts fires, with the first solution that the search finds. Then each fired rule becomes active and
its outputs, the solution put in, are asserted in turn if they tell something new. What the cycle
asserts can therefore make a rule fire in the next cycle at the earliest.

Sets have no order of their own, but a search has to try their elements in some order. That order
is a parameter, an `Enumeration`; what depends on it and what does not is then a question about all
of them.

An output that is no tag stops a cycle on the spot. What was done before it stays done.
-/

namespace TagReasoner

/-- An order in which to try the rules and facts of a memory. A run never comes back to a memory, so
the order may be another one in each cycle. -/
structure Enumeration where
  rules : Memory → List Rule
  facts : Memory → List Fact
  rules_perm : ∀ m, (rules m).Perm m.ready.items
  facts_perm : ∀ m, (facts m).Perm m.facts.items

/-- Rules and facts are tried in the order in which they came into the memory. -/
def Enumeration.oldestFirst : Enumeration where
  rules m := m.ready.items
  facts m := m.facts.items
  rules_perm _ := .refl _
  facts_perm _ := .refl _

/-- A rule that fires and the solution that it fires with. -/
structure Firing where
  rule : Rule
  solution : Substitution

/-- The rules that fire from a memory, in the order in which they are tried. -/
def Memory.firings (m : Memory) (e : Enumeration) : List Firing :=
  (e.rules m).filterMap fun r =>
    (solve? (e.facts m) r.inputFacts .empty).map fun solution => ⟨r, solution⟩

/-- What firing does, step by step. -/
inductive Step where
  /-- The rule becomes active. -/
  | activate (rule : Rule)
  /-- The output is asserted with the solution put in. -/
  | assert (solution : Substitution) (output : Tag)

/-- The steps of a firing: the rule becomes active, then its outputs are asserted in turn. -/
def Firing.steps (f : Firing) : List Step :=
  .activate f.rule :: f.rule.outputs.map (.assert f.solution)

/-- The kind of a value that is no tag and that the step would have to assert or look into. -/
def Step.refusal? : Step → Option Text
  | .activate _ => none
  | .assert solution output =>
    (output.substitutionRefusal? solution).or <|
      match output with
      | .foreign kind _ => some kind
      | _ => none

/-- The memory in the course of a cycle, and the tags that the cycle has added to it. -/
structure Progress where
  memory : Memory
  derived : WorkingSet Tag

/-- Takes a step. -/
def Progress.take (p : Progress) : Step → Progress
  | .activate rule => { p with memory := p.memory.activate rule }
  | .assert solution output =>
    let tag := output.substitute solution
    if p.memory.holds tag then p else ⟨p.memory.add tag, p.derived.insert tag⟩

/-- The result of a cycle. -/
structure Cycle where
  memory : Memory
  /-- The tags that the cycle added. -/
  derived : WorkingSet Tag
  /-- The kind of the value at which the cycle stopped, if it did. -/
  refused : Option Text

/-- Runs one cycle. -/
def Memory.cycle (m : Memory) (e : Enumeration) : Cycle :=
  let steps := (m.firings e).flatMap Firing.steps
  let done := (steps.takeWhile fun s => s.refusal?.isNone).foldl Progress.take ⟨m, .empty⟩
  ⟨done.memory, done.derived, steps.findSome? Step.refusal?⟩

end TagReasoner
