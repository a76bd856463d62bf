import TagReasoner.Collection.WorkingSet
import TagReasoner.Network.Node

/-!
# Networks of nodes

A network holds nodes under the tags that they watch, and the set of tags that are active. A node
that has fired *propagates*: its outputs become active, except those weighted below the cutoff, and
an output that has a node of its own records the weight there as a truth.
-/

namespace TagReasoner

/-- Nodes by tag, and the active tags. -/
structure Network where
  nodes : Keyed Tag Node
  active : WorkingSet Tag
  /-- Outputs weighted below this are not activated. -/
  cutoff : Binary64

namespace Network

/-- No nodes, and nothing is active. -/
def empty (cutoff : Binary64) : Network := ⟨.empty, .empty, cutoff⟩

/-! ## Nodes -/

/-- Adds a node unless there is one for its tag. -/
def addNode (net : Network) (n : Node) : Network :=
  { net with nodes := net.nodes.insertNew n.tag n }

/-- Adds nodes from left to right and counts those that were new. -/
def addNodes (net : Network) (ns : List Node) : Network × Nat :=
  let after := ns.foldl addNode net
  (after, after.nodes.size - net.nodes.size)

/-- Removes the node of a tag, and the tag from the active ones if it had a node. -/
def removeNode (net : Network) (t : Tag) : Network :=
  if net.nodes.contains t then
    { net with nodes := net.nodes.erase t, active := net.active.erase t }
  else net

/-- Changes the node of a tag. -/
def modifyNode (net : Network) (t : Tag) (f : Node → Node) : Network :=
  { net with nodes := net.nodes.modify t f }

/-- Takes the age of every node. -/
def updateAges (net : Network) (now : Binary64) : Network :=
  { net with nodes := net.nodes.mapValues fun _ n => n.updateAge now }

/-- The tags of the nodes that are older than they may be, by their ages as last taken. -/
def overage (net : Network) : List Tag :=
  (net.nodes.entries.filter fun e => e.2.isOverage).map (·.1)

/-- Removes the nodes that have expired by a time; their tags come second. -/
def evict (net : Network) (now : Binary64) : Network × List Tag :=
  let aged := net.updateAges now
  (aged.overage.foldl removeNode aged, aged.overage)

/-- Every node goes back to the inactive state. -/
def resetActivations (net : Network) : Network :=
  { net with nodes := net.nodes.mapValues fun _ n => n.reset }

/-! ## Active tags -/

/-- May the tag become active on request? It has to have a node and not to be active. -/
def canActivate (net : Network) (t : Tag) : Bool := net.nodes.contains t && !net.active.contains t

/-- Makes a tag active if that can be done. -/
def activate (net : Network) (t : Tag) : Network :=
  if net.canActivate t then { net with active := net.active.insert t } else net

/-- Makes tags active from left to right and counts those that became so. -/
def activateAll (net : Network) (ts : List Tag) : Network × Nat :=
  let after := ts.foldl activate net
  (after, after.active.size - net.active.size)

/-- Nothing is active any more. -/
def clearActive (net : Network) : Network := { net with active := .empty }

/-! ## Propagation -/

/-- Puts one output of a fired node forward: it becomes active, and its own node takes the weight
for a truth from the source. -/
def putForward (source : Tag) (net : Network) (output : Tag × Binary64) : Network :=
  if output.2.below net.cutoff then net
  else
    { net.modifyNode output.1 fun n => n.observe source output.2 with
      active := net.active.insert output.1 }

/-- Puts the outputs of a node forward in order. -/
def propagate (net : Network) (n : Node) : Network :=
  n.outputs.entries.foldl (putForward n.tag) net

/-- The outputs of a node that propagating it makes active. -/
def activatedBy (net : Network) (n : Node) : List Tag :=
  ((n.outputs.entries.filter fun e => !e.2.below net.cutoff).map (·.1)).filter fun t =>
    !net.active.contains t

end Network
end TagReasoner
