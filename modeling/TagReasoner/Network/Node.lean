import TagReasoner.Collection.Keyed
import TagReasoner.Configuration.Settings
import TagReasoner.Error
import TagReasoner.Tag.Basic

/-!
# Knowledge nodes

A node watches one tag and has weighted output tags. Each stimulation raises its activation, and it
fires when that reaches its threshold for the first time; from then on it has fired until it is
reset. A node also has an age, and a belief, which is the mean of the truths that other nodes have
recorded on it.

Activations are doubles and thresholds are whole numbers of any size; the two are compared exactly.
-/

namespace TagReasoner

/-- A unit of activation. -/
structure Node where
  /-- The tag that stimulates the node. -/
  tag : Tag
  /-- The tags that it puts forward when it fires, with their weights. -/
  outputs : Keyed Tag Binary64
  threshold : Int
  strength : Int
  /-- Seconds after creation before the node has expired. -/
  maxAge : Binary64
  activation : Binary64
  belief : Binary64
  /-- The truths recorded on the node, by the tag that they come from. -/
  truths : Keyed Tag Binary64
  /-- The node has been stimulated. -/
  activated : Bool
  /-- The node has reached its threshold. -/
  fired : Bool
  createdAt : Binary64
  age : Binary64

/-- The steps of the activation curve, by level. -/
def activationCurve : List Nat := [0, 2, 5, 11, 27, 50, 73, 88, 95, 98, 100]

/-- The step at a level, which is clamped to the curve. -/
def activationStep (level : Int) : Nat :=
  activationCurve.getD (min level.toNat (activationCurve.length - 1)) 0

namespace Node

/-- A node that has seen nothing yet. -/
def create (tag : Tag) (outputs : Keyed Tag Binary64) (threshold strength : Int)
    (maxAge now : Binary64) : Node where
  tag := tag
  outputs := outputs
  threshold := threshold
  strength := strength
  maxAge := maxAge
  activation := .zero false
  belief := .zero false
  truths := .empty
  activated := false
  fired := false
  createdAt := now
  age := .zero false

/-! ## Activation -/

/-- Adds a whole number to the activation; the node fires if that makes it reach its threshold for
the first time. The flag says whether it did. -/
def raise (n : Node) (step : Nat) : Node × Bool :=
  let activation := n.activation.add (.ofNat step)
  let fires := !n.fired && activation.reaches n.threshold
  ({ n with activation := activation, activated := true, fired := n.fired || fires }, fires)

/-- Stimulates the node by the step of a level, or by one without a level. -/
def stimulate (n : Node) (level : Option Int) : Node × Bool :=
  n.raise ((level.map activationStep).getD 1)

/-- Back to the inactive state. -/
def reset (n : Node) : Node :=
  { n with activation := .zero false, activated := false, fired := false }

/-! ## Age -/

/-- Takes the age at a time. -/
def updateAge (n : Node) (now : Binary64) : Node := { n with age := now.sub n.createdAt }

/-- The node was older than it may be when its age was taken last. -/
def isOverage (n : Node) : Bool := n.maxAge.below n.age

/-! ## Belief -/

/-- Records a truth from a tag. -/
def addTruth (n : Node) (source : Tag) (truth : Binary64) : Node :=
  { n with truths := n.truths.put source truth }

/-- The sum of the truths, in the order in which their sources came, over their number. -/
def meanTruth (n : Node) : Binary64 := (Binary64.sum n.truths.values).divNat n.truths.size

/-- Sets the belief to the mean of the truths, of which there have to be some. -/
def updateBelief? (n : Node) : Except Fault Node :=
  if n.truths.size = 0 then .error (.noTruths n.tag.text)
  else .ok { n with belief := n.meanTruth }

/-- Records a truth and takes the belief again. -/
def observe (n : Node) (source : Tag) (truth : Binary64) : Node :=
  let n := n.addTruth source truth
  { n with belief := n.meanTruth }

/-! ## Display -/

/-- The threshold with six significant digits; it has to be in the range of doubles. -/
def thresholdText (n : Node) : Except Fault Text :=
  (Binary64.ofInt? n.threshold).elim (.error .tooLarge) fun x => .ok x.general

/-- The tokens of the record that describes the node. -/
def record (n : Node) : Except Fault (List Text) :=
  n.thresholdText.map fun threshold =>
    n.tag.text :: threshold :: n.outputs.entries.flatMap fun e => [e.1.text, e.2.general]

/-- The text of one output. -/
def outputText (e : Tag × Binary64) : Text :=
  e.1.text ++ " with membershipTruth=".toList ++ e.2.general ++ [';', ' ']

/-- The node on one line; the outputs are shown of nodes that watch a fact. -/
def display (n : Node) : Except Fault Text :=
  n.thresholdText.map fun threshold =>
    let line := n.tag.text ++ " threshold is ".toList ++ threshold
    match n.tag with
    | .fact _ => line ++ " => ".toList ++ n.outputs.entries.flatMap outputText
    | _ => line

end Node
end TagReasoner
