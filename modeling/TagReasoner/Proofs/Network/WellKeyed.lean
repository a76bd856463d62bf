import TagReasoner.Proofs.Network.Layer
import TagReasoner.Network.KnowledgeBase

/-!
# Nodes stand under their own tags

A node is put into a network under the tag that it watches, and nothing changes that tag later. So
whatever operations a knowledge base has carried out, each of its nodes is stored under its own tag
(`KnowledgeBase.Reached.wellKeyed`), and no two nodes watch one tag.
-/

namespace TagReasoner

/-- Every node is stored under the tag that it watches. -/
def Network.WellKeyed (net : Network) : Prop :=
  ∀ t n, net.nodes.get? t = some n → (n.tag == t) = true

namespace Network

variable {net : Network}

theorem wellKeyed_empty (cutoff : Binary64) : (empty cutoff).WellKeyed := by
  intro t n hn
  cases hn

/-- No two nodes watch one tag. -/
theorem WellKeyed.pairwise_tags (h : net.WellKeyed) :
    net.nodes.values.Pairwise fun m n => (m.tag == n.tag) = false := by
  refine List.pairwise_map.mpr (net.nodes.distinct.imp_of_mem fun hd he hdistinct => ?_)
  rwa [BEq.congr_left (h _ _ (Keyed.get?_of_mem hd)), BEq.congr_right (h _ _ (Keyed.get?_of_mem he))]

/-! ## Nodes come, go and change -/

/-- Only the nodes count. -/
theorem WellKeyed.of_nodes {after : Network} (h : net.WellKeyed) (hnodes : after.nodes = net.nodes) :
    after.WellKeyed := by
  intro t n hn
  exact h t n (hnodes ▸ hn)

theorem WellKeyed.addNode (h : net.WellKeyed) (n : Node) : (net.addNode n).WellKeyed := by
  intro t m hm
  rcases Keyed.get?_insertNew_eq_some hm with hm | ⟨ht, rfl⟩
  · exact h t m hm
  · exact ht

theorem WellKeyed.addNodes (h : net.WellKeyed) (ns : List Node) :
    (net.addNodes ns).1.WellKeyed := by
  show (ns.foldl Network.addNode net).WellKeyed
  induction ns generalizing net with
  | nil => exact h
  | cons n ns ih => exact ih (h.addNode n)

theorem WellKeyed.removeNode (h : net.WellKeyed) (t : Tag) : (net.removeNode t).WellKeyed := by
  rw [Network.removeNode]
  split
  · intro u n hn
    change (net.nodes.erase t).get? u = some n at hn
    rw [Keyed.get?_erase_beq] at hn
    split at hn
    · cases hn
    · exact h u n hn
  · exact h

theorem WellKeyed.mapNodes {after : Network} (h : net.WellKeyed) {f : Node → Node}
    (hnodes : after.nodes = net.nodes.mapValues fun _ => f) (hf : ∀ n, (f n).tag = n.tag) :
    after.WellKeyed := by
  intro t m hm
  rw [hnodes, Keyed.get?_mapValues, Option.map_eq_some_iff] at hm
  obtain ⟨n, hn, rfl⟩ := hm
  rw [hf]
  exact h t n hn

theorem WellKeyed.modifyNode (h : net.WellKeyed) {t : Tag} {f : Node → Node}
    (hf : ∀ n, net.nodes.get? t = some n → (f n).tag = n.tag) : (net.modifyNode t f).WellKeyed := by
  intro u m hm
  rw [get?_modifyNode] at hm
  split at hm
  next hut =>
    obtain ⟨n, hn, rfl⟩ := Option.map_eq_some_iff.mp hm
    rw [hf n ((net.nodes.get?_congr hut).symm.trans hn)]
    exact h u n hn
  next => exact h u m hm

theorem WellKeyed.evict (h : net.WellKeyed) (now : Binary64) : (net.evict now).1.WellKeyed := by
  have haged : (net.updateAges now).WellKeyed :=
    h.mapNodes (f := fun n => n.updateAge now) rfl fun _ => rfl
  show ((net.updateAges now).overage.foldl Network.removeNode (net.updateAges now)).WellKeyed
  generalize net.updateAges now = aged at haged
  generalize aged.overage = ts
  induction ts generalizing aged with
  | nil => exact haged
  | cons t ts ih => exact ih _ (haged.removeNode t)

/-! ## Active tags -/

theorem WellKeyed.activateAll (h : net.WellKeyed) (ts : List Tag) :
    (net.activateAll ts).1.WellKeyed := by
  show (ts.foldl Network.activate net).WellKeyed
  induction ts generalizing net with
  | nil => exact h
  | cons t ts ih =>
    refine ih (h.of_nodes ?_)
    rw [Network.activate]
    split <;> rfl

/-! ## Searches -/

theorem WellKeyed.propagate (h : net.WellKeyed) (n : Node) : (net.propagate n).WellKeyed := by
  intro t m hm
  rw [get?_propagate, Option.map_eq_some_iff] at hm
  obtain ⟨m', hm', rfl⟩ := hm
  rw [m'.tag_accept]
  exact h t m' hm'

/-- A layer keeps the tags of nodes. -/
theorem WellKeyed.after (h : net.WellKeyed) {ts : List Tag} {l : Layer}
    (hafter : Layer.After net ts l) : l.network.WellKeyed := by
  intro t m hm
  obtain ⟨n, hn, hbare⟩ := hafter.exists_node hm
  have htag : m.tag = n.tag := by
    have hm' := congrArg Node.tag hbare
    split at hm'
    · exact hm'.trans n.tag_visited
    · exact hm'
  rw [htag]
  exact h t n hn

theorem WellKeyed.stimulateAll (h : net.WellKeyed) (o : TagOrder) (s : WorkingSet Tag) :
    (net.stimulateAll (o.items s)).network.WellKeyed :=
  h.after (Layer.after_stimulateAll (o.distinct_items s))

theorem WellKeyed.layers (o : TagOrder) (ply : Nat) {frontier : WorkingSet Tag} {l : Layer}
    (h : l.network.WellKeyed) : (layers o ply frontier l).network.WellKeyed := by
  induction ply generalizing frontier l with
  | zero => exact h
  | succ ply ih =>
    have hnext := h.stimulateAll o frontier
    rw [Network.layers]
    split
    · exact hnext
    · exact ih hnext

theorem WellKeyed.searchWith (h : net.WellKeyed) (o : TagOrder) (ply : Nat) (s : Strategy) :
    (net.searchWith o ply s).network.WellKeyed := by
  cases s with
  | direct => exact h.stimulateAll o net.active
  | breadthFirst depth => exact WellKeyed.layers o _ h

end Network

/-! ## Knowledge bases -/

namespace KnowledgeBase

/-- No operation puts a node under a tag that is not its own. -/
theorem wellKeyed_perform {k : KnowledgeBase} (h : k.network.WellKeyed) (o : TagOrder)
    (now : Binary64) (op : NetworkOperation) : (k.perform o now op).state.network.WellKeyed := by
  cases op with
  | search strategy => exact (h.evict now).searchWith o _ _
  | addNode n => exact h.addNode n
  | addNodes ns => exact h.addNodes ns
  | removeNode t => exact h.removeNode t
  | contains | get => exact h
  | activate t => exact h.activateAll [t]
  | activateAll ts => exact h.activateAll ts
  | clearActive => exact h.of_nodes rfl
  | resetActivations => exact h.mapNodes (f := Node.reset) rfl fun _ => rfl
  | evict => exact h.evict now
  | propagate n => exact h.propagate n
  | load f =>
    rw [perform, load]
    split
    · exact h
    · exact h.addNodes _

theorem tag_perform (n : Node) (now : Binary64) (op : NodeOperation) :
    (n.perform now op).1.tag = n.tag := by
  cases op with
  | updateBelief =>
    rw [Node.perform, Node.updateBelief?]
    by_cases hnone : n.truths.size = 0
    · rw [if_pos hnone]
    · rw [if_neg hnone]
  | _ => rfl

/-- Operations on single nodes keep their tags. -/
theorem wellKeyed_performOnNode {k : KnowledgeBase} (h : k.network.WellKeyed) {now : Binary64}
    {t : Tag} {op : NodeOperation} {result : KnowledgeBase × Except Fault NodeAnswer}
    (hresult : k.performOnNode? now t op = some result) : result.1.network.WellKeyed := by
  obtain ⟨n, hn, rfl⟩ := Option.map_eq_some_iff.mp hresult
  refine h.modifyNode fun m hm => ?_
  rw [Option.some.inj (hm.symm.trans hn)]
  exact tag_perform n now op

/-- The knowledge bases that operations lead to from one without nodes. -/
inductive Reached : KnowledgeBase → Prop
  | empty (settings : Settings) (strategy : Strategy) : Reached (.empty settings strategy)
  | perform {k : KnowledgeBase} (h : Reached k) (o : TagOrder) (now : Binary64)
      (op : NetworkOperation) : Reached (k.perform o now op).state
  | performOnNode {k : KnowledgeBase} (h : Reached k) {now : Binary64} {t : Tag} {op : NodeOperation}
      {result : KnowledgeBase × Except Fault NodeAnswer}
      (hresult : k.performOnNode? now t op = some result) : Reached result.1

theorem Reached.wellKeyed {k : KnowledgeBase} (h : Reached k) : k.network.WellKeyed := by
  induction h with
  | empty settings strategy => exact Network.wellKeyed_empty settings.outputWeightCutoff
  | perform _ o now op ih => exact wellKeyed_perform ih o now op
  | performOnNode _ hresult ih => exact wellKeyed_performOnNode ih hresult

end KnowledgeBase
end TagReasoner
