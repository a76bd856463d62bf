import TagReasoner.Network.Basic

/-!
# Searching a network

A search stimulates the nodes of active tags and propagates those that fire. The direct search does
this once for every active tag. The breadth-first search goes on in layers: the tags that one layer
made active are stimulated in the next, up to a number of layers.

A search answers with the tags that it made active. The order in which the tags of a layer are
tried is a parameter.
-/

namespace TagReasoner

/-- A way to search, the breadth-first one with a depth of its own or that of the settings. -/
inductive Strategy where
  | direct
  | breadthFirst (ply : Option Int)

/-- An order in which to try the tags of a set. -/
structure TagOrder where
  items : WorkingSet Tag → List Tag
  perm : ∀ s, (items s).Perm s.items

/-- Tags are tried in the order in which they came into the set. -/
def TagOrder.oldestFirst : TagOrder := ⟨fun s => s.items, fun _ => .refl _⟩

/-- A network in the course of a layer, with the tags made active. -/
structure Layer where
  network : Network
  reached : WorkingSet Tag

namespace Layer

/-- Stimulates the node of a tag by one, unless it has fired before, and propagates it if it fires
now. -/
def visit (l : Layer) (t : Tag) : Layer :=
  match l.network.nodes.get? t with
  | none => l
  | some n =>
    if n.fired then l
    else
      let (n', fires) := n.stimulate none
      let network := l.network.modifyNode t fun _ => n'
      if fires then ⟨network.propagate n', l.reached.insertAll (network.activatedBy n')⟩
      else ⟨network, l.reached⟩

end Layer

namespace Network

/-- Visits tags from left to right. -/
def stimulateAll (net : Network) (ts : List Tag) : Layer := ts.foldl Layer.visit ⟨net, .empty⟩

/-- The layers of a breadth-first search from a frontier, with the tags made active so far. -/
def layers (o : TagOrder) : Nat → WorkingSet Tag → Layer → Layer
  | 0, _, l => l
  | ply + 1, frontier, l =>
    let next := l.network.stimulateAll (o.items frontier)
    if next.reached.isEmpty then ⟨next.network, l.reached⟩
    else layers o ply next.reached ⟨next.network, l.reached.union next.reached⟩

/-- One stimulation of the node of every active tag. -/
def directSearch (net : Network) (o : TagOrder) : Layer := net.stimulateAll (o.items net.active)

/-- At most `ply` layers from the active tags. -/
def breadthFirstSearch (net : Network) (o : TagOrder) (ply : Nat) : Layer :=
  layers o ply net.active ⟨net, .empty⟩

/-- Searches with a strategy; `ply` is the depth of a breadth-first search without one. -/
def searchWith (net : Network) (o : TagOrder) (ply : Nat) : Strategy → Layer
  | .direct => net.directSearch o
  | .breadthFirst depth => net.breadthFirstSearch o ((depth.map Int.toNat).getD ply)

/-- Evicts the nodes that have expired by a time and searches. -/
def search (net : Network) (o : TagOrder) (now : Binary64) (ply : Nat) (s : Strategy) : Layer :=
  (net.evict now).1.searchWith o ply s

end Network
end TagReasoner
