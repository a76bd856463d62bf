import TagReasoner.Collection.WorkingSet
import TagReasoner.Matching.Facts

/-!
# Working memory

The working memory holds four sets: rules that are ready to fire, rules that have fired and are
active, the known facts, and the recommendations made.

A tag *holds* in a memory when asserting it would tell nothing new: a fact that some known fact
matches, a recommendation already made, a rule that is ready or active. Asserting a tag that does
not hold makes it hold.
-/

namespace TagReasoner

/-- The four working sets. -/
structure Memory where
  ready : WorkingSet Rule
  active : WorkingSet Rule
  facts : WorkingSet Fact
  recommendations : WorkingSet Recommendation

namespace Memory

/-- Nothing is known. -/
def empty : Memory := ⟨.empty, .empty, .empty, .empty⟩

/-- Some known fact matches the pattern. -/
def knows (m : Memory) (pattern : Fact) : Bool := m.facts.items.any fun known => known.fits pattern

/-- The rule is ready or active. -/
def hasRule (m : Memory) (r : Rule) : Bool := m.ready.contains r || m.active.contains r

/-- The tag tells nothing new. What is no tag never does. -/
def holds (m : Memory) : Tag → Bool
  | .fact f => m.knows f
  | .recommendation r => m.recommendations.contains r
  | .rule i o => m.hasRule ⟨i, o⟩
  | .foreign .. => true

/-- Adds a tag to the set that it belongs to; a rule becomes ready. -/
def add (m : Memory) : Tag → Memory
  | .fact f => { m with facts := m.facts.insert f }
  | .recommendation r => { m with recommendations := m.recommendations.insert r }
  | .rule i o => { m with ready := m.ready.insert ⟨i, o⟩ }
  | .foreign .. => m

/-- Moves a rule from the ready to the active ones. -/
def activate (m : Memory) (r : Rule) : Memory :=
  { m with ready := m.ready.erase r, active := m.active.insert r }

/-- Moves every active rule back to the ready ones. -/
def deactivateRules (m : Memory) : Memory :=
  { m with ready := m.ready.union m.active, active := .empty }

end Memory
end TagReasoner
