import TagReasoner.Network.Loading
import TagReasoner.Network.Search

/-!
# Knowledge bases

A knowledge base is a network with its settings and the strategy that it searches by unless told
otherwise. What can be asked of it, and of one of its nodes, is an operation; the time of asking is
given with it.
-/

namespace TagReasoner

/-! ## Nodes -/

/-- What can be asked of a node. -/
inductive NodeOperation where
  | stimulate (level : Option Int)
  | addTruth (source : Tag) (truth : Binary64)
  | updateAge
  | updateBelief
  | isExpired
  | display
  | record
  | reset

/-- What a node answers. -/
inductive NodeAnswer where
  | done
  | flag (value : Bool)
  | number (value : Binary64)
  | text (value : Text)
  | tokens (value : List Text)

/-- Carries out an operation on a node. -/
def Node.perform (n : Node) (now : Binary64) : NodeOperation → Node × Except Fault NodeAnswer
  | .stimulate level =>
    let (n', fires) := n.stimulate level
    (n', .ok (.flag fires))
  | .addTruth source truth => (n.addTruth source truth, .ok .done)
  | .updateAge => (n.updateAge now, .ok (.number (n.updateAge now).age))
  | .updateBelief =>
    match n.updateBelief? with
    | .ok n' => (n', .ok (.number n'.belief))
    | .error fault => (n, .error fault)
  | .isExpired => (n.updateAge now, .ok (.flag (n.updateAge now).isOverage))
  | .display => (n, n.display.map .text)
  | .record => (n, n.record.map .tokens)
  | .reset => (n.reset, .ok .done)

/-! ## Networks -/

/-- A network, its settings and its usual strategy. -/
structure KnowledgeBase where
  network : Network
  settings : Settings
  strategy : Strategy

/-- What can be asked of a knowledge base. -/
inductive NetworkOperation where
  | search (strategy : Option Strategy)
  | addNode (node : Node)
  | addNodes (nodes : List Node)
  | removeNode (tag : Tag)
  | contains (tag : Tag)
  | get (tag : Tag)
  | activate (tag : Tag)
  | activateAll (tags : List Tag)
  | clearActive
  | resetActivations
  | evict
  | propagate (node : Node)
  | load (file : DataFile) (depth : Nat)

/-- What a knowledge base answers. -/
inductive NetworkAnswer where
  | done
  | flag (value : Bool)
  | count (value : Nat)
  | tags (value : List Tag)
  | node (value : Option Node)

namespace KnowledgeBase

/-- A knowledge base without nodes. -/
def empty (settings : Settings) (strategy : Strategy) : KnowledgeBase :=
  ⟨.empty settings.outputWeightCutoff, settings, strategy⟩

/-- Answers with a network left behind. -/
def answer (k : KnowledgeBase) (net : Network) (a : NetworkAnswer) :
    Outcome KnowledgeBase NetworkAnswer :=
  ⟨{ k with network := net }, [], .ok a⟩

/-- Loads the nodes of a data file, with room for `depth` rules one inside another, and adds them. -/
def load (k : KnowledgeBase) (now : Binary64) (f : DataFile) (depth : Nat) :
    Outcome KnowledgeBase NetworkAnswer :=
  match f.load depth .standard k.settings.recordDelimiter now true with
  | .error fault => ⟨k, [], .error fault⟩
  | .ok loaded =>
    let (net, count) := k.network.addNodes loaded.nodes
    ⟨{ k with network := net }, loaded.notices ++ [.loaded count f.path], .ok (.count count)⟩

/-- Carries out an operation at a time. -/
def perform (k : KnowledgeBase) (o : TagOrder) (now : Binary64) :
    NetworkOperation → Outcome KnowledgeBase NetworkAnswer
  | .search strategy =>
    let layer := k.network.search o now k.settings.searchPly (strategy.getD k.strategy)
    k.answer layer.network (.tags layer.reached.items)
  | .addNode n => k.answer (k.network.addNode n) (.flag (!k.network.nodes.contains n.tag))
  | .addNodes ns =>
    let (net, count) := k.network.addNodes ns
    k.answer net (.count count)
  | .removeNode t => k.answer (k.network.removeNode t) (.flag (k.network.nodes.contains t))
  | .contains t => k.answer k.network (.flag (k.network.nodes.contains t))
  | .get t => k.answer k.network (.node (k.network.nodes.get? t))
  | .activate t => k.answer (k.network.activate t) (.flag (k.network.canActivate t))
  | .activateAll ts =>
    let (net, count) := k.network.activateAll ts
    k.answer net (.count count)
  | .clearActive => k.answer k.network.clearActive .done
  | .resetActivations => k.answer k.network.resetActivations .done
  | .evict =>
    let (net, tags) := k.network.evict now
    k.answer net (.tags tags)
  | .propagate n => k.answer (k.network.propagate n) (.tags (k.network.activatedBy n))
  | .load f depth => k.load now f depth

/-- Carries out an operation on the node of a tag, if there is one. -/
def performOnNode? (k : KnowledgeBase) (now : Binary64) (t : Tag) (op : NodeOperation) :
    Option (KnowledgeBase × Except Fault NodeAnswer) :=
  (k.network.nodes.get? t).map fun n =>
    let (n', result) := n.perform now op
    ({ k with network := k.network.modifyNode t fun _ => n' }, result)

end KnowledgeBase
end TagReasoner
