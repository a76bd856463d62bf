import TagReasoner.Proofs.Network.History

/-!
# Beliefs are means of truths that searches recorded

A belief is taken again each time that a truth is recorded, and never otherwise, so it is the mean of
the truths that the node has (`KnowledgeBase.Founded`). A truth is recorded only on nodes that are
stored, by nodes that fire. A node takes its truths along when it is removed and brings them back when
it is added again; `KnowledgeBase.Lasts` says which earlier node the one under a tag is.

The operation that takes a belief fails on a node without truths. A search never meets such a node, since
it has just recorded a truth on it (`Network.search?_eq_ok`).
-/

namespace TagReasoner

/-! ## Searches do not fail -/

/-- The operation that takes the belief does not fail on a node with a new truth. -/
theorem Node.updateBelief?_addTruth (n : Node) (source : Tag) (truth : Binary64) :
    (n.addTruth source truth).updateBelief? = .ok (n.observe source truth) :=
  if_neg (n.truths.size_put_ne_zero source truth)

namespace Network

/-- Puts one output of a fired node forward by operations on nodes: it records a truth on the node of the
output and then takes the belief of that node, which may fail. -/
def putForward? (source : Tag) (net : Network) (output : Tag × Binary64) : Except Fault Network :=
  if output.2.below net.cutoff then .ok net
  else
    match net.nodes.get? output.1 with
    | none => .ok { net with active := net.active.insert output.1 }
    | some n => (n.addTruth source output.2).updateBelief?.map fun n' =>
      { net.modifyNode output.1 fun _ => n' with active := net.active.insert output.1 }

/-- Puts the outputs of a node forward in order; the first failure ends that. -/
def propagate? (net : Network) (n : Node) : Except Fault Network :=
  n.outputs.entries.foldlM (putForward? n.tag) net

end Network

/-- A visit that may fail. -/
def Layer.visit? (l : Layer) (t : Tag) : Except Fault Layer :=
  match l.network.nodes.get? t with
  | none => .ok l
  | some n =>
    if n.fired then .ok l
    else
      let (n', fires) := n.stimulate none
      let network := l.network.modifyNode t fun _ => n'
      if fires then
        (network.propagate? n').map fun after =>
          ⟨after, l.reached.insertAll (network.activatedBy n')⟩
      else .ok ⟨network, l.reached⟩

namespace Network

/-- Visits that may fail, from left to right. -/
def stimulateAll? (net : Network) (ts : List Tag) : Except Fault Layer :=
  ts.foldlM Layer.visit? ⟨net, .empty⟩

/-- The layers of a breadth-first search that may fail. -/
def layers? (o : TagOrder) : Nat → WorkingSet Tag → Layer → Except Fault Layer
  | 0, _, l => .ok l
  | ply + 1, frontier, l => do
    let next ← l.network.stimulateAll? (o.items frontier)
    if next.reached.isEmpty then .ok ⟨next.network, l.reached⟩
    else layers? o ply next.reached ⟨next.network, l.reached.union next.reached⟩

/-- Searches with a strategy, which may fail. -/
def searchWith? (net : Network) (o : TagOrder) (ply : Nat) : Strategy → Except Fault Layer
  | .direct => net.stimulateAll? (o.items net.active)
  | .breadthFirst depth => layers? o ((depth.map Int.toNat).getD ply) net.active ⟨net, .empty⟩

/-- Evicts the nodes that have expired by a time and searches, which may fail. -/
def search? (net : Network) (o : TagOrder) (now : Binary64) (ply : Nat) (s : Strategy) :
    Except Fault Layer :=
  (net.evict now).1.searchWith? o ply s

theorem putForward?_eq_ok (source : Tag) (net : Network) (e : Tag × Binary64) :
    putForward? source net e = .ok (putForward source net e) := by
  rw [putForward?, putForward]
  split
  next => rfl
  next =>
    split
    next hnone =>
      rw [modifyNode, Keyed.modify_eq_self hnone]
    next n hn =>
      rw [n.updateBelief?_addTruth, modifyNode, Keyed.modify_eq_const hn]
      rfl

theorem propagate?_eq_ok (net : Network) (n : Node) : net.propagate? n = .ok (net.propagate n) := by
  have hstep : putForward? n.tag = fun net e => pure (putForward n.tag net e) := by
    funext net e
    exact putForward?_eq_ok n.tag net e
  rw [propagate?, hstep]
  exact List.foldlM_pure ..

end Network

theorem Layer.visit?_eq_ok (l : Layer) (t : Tag) : l.visit? t = .ok (l.visit t) := by
  rw [visit?, visit]
  cases l.network.nodes.get? t with
  | none => rfl
  | some n =>
    dsimp only
    cases n.fired with
    | true => rfl
    | false =>
      rw [if_neg Bool.false_ne_true, if_neg Bool.false_ne_true, Network.propagate?_eq_ok]
      split <;> rfl

namespace Network

theorem stimulateAll?_eq_ok (net : Network) (ts : List Tag) :
    net.stimulateAll? ts = .ok (net.stimulateAll ts) := by
  have hstep : Layer.visit? = fun l t => pure (l.visit t) := by
    funext l t
    exact l.visit?_eq_ok t
  rw [stimulateAll?, hstep]
  exact List.foldlM_pure ..

theorem layers?_eq_ok (o : TagOrder) (ply : Nat) (frontier : WorkingSet Tag) (l : Layer) :
    layers? o ply frontier l = .ok (layers o ply frontier l) := by
  induction ply generalizing frontier l with
  | zero => rfl
  | succ ply ih =>
    rw [layers?, stimulateAll?_eq_ok, layers]
    show (if _ then _ else _) = _
    split
    · rfl
    · exact ih ..

/-- No search fails. -/
theorem search?_eq_ok (net : Network) (o : TagOrder) (now : Binary64) (ply : Nat) (s : Strategy) :
    net.search? o now ply s = .ok (net.search o now ply s) := by
  rw [search?, search]
  cases s with
  | direct => exact stimulateAll?_eq_ok ..
  | breadthFirst depth => exact layers?_eq_ok ..

end Network

/-! ## Nodes that come back -/

namespace Node

variable {n : Node}

theorem IsNew.truths_eq (h : n.IsNew) : n.truths = .empty := by
  obtain ⟨_, _, _, _, _, _, rfl⟩ := h
  rfl

theorem IsNew.faithful (h : n.IsNew) : n.Faithful := by
  obtain ⟨_, _, _, _, _, _, rfl⟩ := h
  exact ⟨fun hsome => absurd rfl hsome, fun _ => rfl⟩

end Node

namespace KnowledgeBase

/-- The node of the tag after a history is the one that was there after an earlier part of it: it stayed,
or it went and was added again, as it was at some time before but for its age. -/
inductive Lasts (k : KnowledgeBase) (t : Tag) (since : List Request) : List Request → Prop
  | start (hstored : (k.after since).network.nodes.contains t = true) : Lasts k t since since
  | stay {rs : List Request} {r : Request} (h : Lasts k t since rs)
      (hstored : (k.after (rs ++ [r])).network.nodes.contains t = true) : Lasts k t since (rs ++ [r])
  | again {earlier rs : List Request} {r : Request} {n : Node} {age : Binary64}
      (h : Lasts k t since earlier) (hearlier : earlier <+: rs)
      (hn : (k.after earlier).network.nodes.get? t = some n)
      (hgone : (k.after rs).network.nodes.contains t = false)
      (hback : (k.after (rs ++ [r])).network.nodes.get? t = some { n with age := age }) :
      Lasts k t since (rs ++ [r])

/-- Each node that a history adds is new, or was stored before, and then it is added as it was at some
time before but for its age. -/
def AddsOwn (k : KnowledgeBase) (rs : List Request) : Prop :=
  ∀ done r, done ++ [r] <+: rs → ∀ n ∈ r.operation.added, n.IsNew ∨
    ∃ earlier m age, earlier <+: done ∧ (k.after earlier).network.nodes.get? n.tag = some m ∧
      n = { m with age := age }

/-- In a search of the history, a node fired that watches the source and has the tag for an output of the
weight, and the node that the tag had then is the one that it has now. -/
def Recorded (k : KnowledgeBase) (rs : List Request) (t source : Tag) (w : Binary64) : Prop :=
  ∃ done r s, done ++ [r] <+: rs ∧ r.IsSearch ∧
    (k.after done).network.Fired (k.after (done ++ [r])).network s ∧ (s.tag == source) = true ∧
    s.outputs.get? t = some w ∧ w.below k.network.cutoff = false ∧ k.Lasts t (done ++ [r]) rs

/-- The beliefs after a history are the means of the truths, and those were recorded in it. -/
def Founded (k : KnowledgeBase) (rs : List Request) : Prop :=
  ∀ t n, (k.after rs).network.nodes.get? t = some n →
    n.Faithful ∧ ∀ source w, n.truths.get? source = some w → k.Recorded rs t source w

variable {k : KnowledgeBase} {rs earlier : List Request} {r : Request} {t source : Tag}
  {w : Binary64} {n m : Node}

theorem Recorded.stay (h : k.Recorded rs t source w)
    (hstored : (k.after (rs ++ [r])).network.nodes.contains t = true) :
    k.Recorded (rs ++ [r]) t source w := by
  obtain ⟨done, q, s, hdone, hsearch, hfired, htag, hw, hcutoff, hlasts⟩ := h
  exact ⟨done, q, s, hdone.trans (List.prefix_append rs [r]), hsearch, hfired, htag, hw, hcutoff,
    hlasts.stay hstored⟩

theorem Recorded.again {age : Binary64} (h : k.Recorded earlier t source w) (hearlier : earlier <+: rs)
    (hn : (k.after earlier).network.nodes.get? t = some n)
    (hgone : (k.after rs).network.nodes.contains t = false)
    (hback : (k.after (rs ++ [r])).network.nodes.get? t = some { n with age := age }) :
    k.Recorded (rs ++ [r]) t source w := by
  obtain ⟨done, q, s, hdone, hsearch, hfired, htag, hw, hcutoff, hlasts⟩ := h
  exact ⟨done, q, s, (hdone.trans hearlier).trans (List.prefix_append rs [r]), hsearch, hfired, htag,
    hw, hcutoff, hlasts.again hearlier hn hgone hback⟩

/-- Where a node after a request comes from, and its truths. -/
theorem exists_of_performed (hr : r.IsRegular)
    (hm : (k.performed r).network.nodes.get? t = some m) :
    (k.network.nodes.get? t = none ∧ (m ∈ r.operation.added ∨ m.IsNew)) ∨
      ∃ n, k.network.nodes.get? t = some n ∧ (n.Faithful → m.Faithful) ∧
        ∀ source w, m.truths.get? source = some w → n.truths.get? source = some w ∨
          r.IsSearch ∧ ∃ s, k.network.Fired (k.performed r).network s ∧ (s.tag == source) = true ∧
            s.outputs.get? t = some w ∧ w.below k.network.cutoff = false := by
  rcases k.search_or_upkeep hr with ⟨hsearch, hspreads⟩ | hupkeep
  · obtain ⟨n', hn', hkept⟩ := hspreads.exists_before hm
    obtain ⟨n, hn, -, rfl⟩ := Network.get?_evict_eq_some_iff.mp hn'
    refine .inr ⟨n, hn, fun h => hkept.faithful (h.of_truths rfl rfl), fun source w hw => ?_⟩
    rcases hspreads.truths t _ m hn' hm source w hw with hw | ⟨s', p, hfired, hoffer, hsource, rfl⟩
    · exact .inl hw
    · obtain ⟨s, hfired', hsame⟩ := hfired.of_evict
      rw [← hsame, k.network.cutoff_evict, Network.offer?_eq_some_iff_get?] at hoffer
      obtain ⟨v, hv, hcutoff, rfl⟩ := hoffer
      exact .inr ⟨hsearch, s, hfired', BEq.symm hsource, hv, hcutoff⟩
  · rcases hupkeep.nodes t m hm with ⟨n, hn, htruths, hbelief⟩ | hadded
    · refine .inr ⟨n, hn, fun h => h.of_truths htruths hbelief, fun source w hw => .inl ?_⟩
      rwa [← htruths]
    · exact .inl hadded

/-- One more request. -/
theorem Founded.concat (hkeyed : (k.after (rs ++ [r])).network.WellKeyed) (hr : r.IsRegular)
    (hcutoff : (k.after rs).network.cutoff = k.network.cutoff) (hadded : k.AddsOwn (rs ++ [r]))
    (h : ∀ earlier, earlier <+: rs → k.Founded earlier) : k.Founded (rs ++ [r]) := by
  intro t m hm
  have hm' : ((k.after rs).performed r).network.nodes.get? t = some m := by rwa [← after_concat]
  rcases exists_of_performed hr hm' with ⟨hnone, hsupplied⟩ | ⟨n, hn, hfaithful, htruths⟩
  · -- The request has put the node in. A new one has no truths, another one brings its own back.
    have hnew : m.IsNew ∨ ∃ earlier n age, earlier <+: rs ∧
        (k.after earlier).network.nodes.get? m.tag = some n ∧ m = { n with age := age } :=
      hsupplied.elim (hadded rs r (List.prefix_refl _) m) .inl
    rcases hnew with hnew | ⟨earlier, n, age, hearlier, hn, rfl⟩
    · refine ⟨hnew.faithful, fun source w hw => ?_⟩
      rw [hnew.truths_eq] at hw
      cases hw
    · rw [Keyed.get?_congr _ (hkeyed t _ hm)] at hn
      obtain ⟨hfaithful, hrecorded⟩ := h earlier hearlier t n hn
      refine ⟨hfaithful.of_truths rfl rfl, fun source w hw => ?_⟩
      exact (hrecorded source w hw).again hearlier hn
        (by rw [Keyed.contains_eq_isSome, hnone]; rfl) hm
  · -- The node was there before. A truth is older than the request, or the search has recorded it.
    obtain ⟨hbelief, hrecorded⟩ := h rs (List.prefix_refl rs) t n hn
    have hstored : (k.after (rs ++ [r])).network.nodes.contains t = true := by
      rw [Keyed.contains_eq_isSome, hm]
      rfl
    refine ⟨hfaithful hbelief, fun source w hw => ?_⟩
    rcases htruths source w hw with hw | ⟨hsearch, s, hfired, htag, hw, hbelow⟩
    · exact (hrecorded source w hw).stay hstored
    · rw [← after_concat] at hfired
      rw [hcutoff] at hbelow
      exact ⟨rs, r, s, List.prefix_refl _, hsearch, hfired, htag, hw, hbelow, .start hstored⟩

theorem AddsOwn.of_prefix (h : k.AddsOwn rs) (hearlier : earlier <+: rs) : k.AddsOwn earlier :=
  fun done r hdone => h done r (hdone.trans hearlier)

theorem AddsOwn.of_new (h : ∀ r ∈ rs, ∀ n ∈ r.operation.added, n.IsNew) : k.AddsOwn rs := by
  intro done r hdone n hn
  have hr : r ∈ rs := hdone.subset (List.mem_append_right _ (List.mem_singleton_self r))
  exact .inl (h r hr n hn)

/-- A node that was stored comes back. -/
theorem AddsOwn.concat_addNode (h : k.AddsOwn rs) (hkeyed : k.network.WellKeyed)
    (hearlier : earlier <+: rs) (hn : (k.after earlier).network.nodes.get? t = some n)
    (o : TagOrder) (now : Binary64) : k.AddsOwn (rs ++ [⟨o, now, .addNode n⟩]) := by
  intro done r hdone m hm
  rcases List.prefix_concat_iff.mp hdone with hlast | hbefore
  · obtain ⟨rfl, hr⟩ := List.append_inj' hlast rfl
    cases hr
    obtain rfl := List.mem_singleton.mp hm
    refine .inr ⟨earlier, m, m.age, hearlier, ?_, rfl⟩
    rwa [Keyed.get?_congr _ (wellKeyed_after hkeyed earlier t m hn)]
  · exact h done r hbefore m hm

/-- Any history of a knowledge base without nodes. -/
theorem founded_after {settings : Settings} {strategy : Strategy} (hrs : ∀ r ∈ rs, r.IsRegular)
    (hadded : (KnowledgeBase.empty settings strategy).AddsOwn rs) :
    ∀ earlier, earlier <+: rs → (KnowledgeBase.empty settings strategy).Founded earlier := by
  induction rs using List.reverseRecOn with
  | nil =>
    intro earlier hearlier t n hn
    rw [List.prefix_nil.mp hearlier] at hn
    cases hn
  | append_singleton rs r ih =>
    obtain ⟨hrs, hr⟩ := List.forall_mem_append.mp hrs
    have hfounded := ih hrs (hadded.of_prefix (List.prefix_append rs [r]))
    intro earlier hearlier
    rcases List.prefix_concat_iff.mp hearlier with rfl | hearlier
    · have hkeyed : ((KnowledgeBase.empty settings strategy).after (rs ++ [r])).network.WellKeyed :=
        wellKeyed_after (Network.wellKeyed_empty _) (rs ++ [r])
      exact .concat hkeyed (hr r (List.mem_singleton_self r)) (cutoff_after _ hrs) hadded hfounded
    · exact hfounded earlier hearlier

end KnowledgeBase

/-- After any history of a knowledge base that had no nodes at first, each belief is the mean of the truths
of its node, or zero if there are none. Each truth is the weight that a node, which fired in a search of
the history, has for the node that took it; that node was stored then. And no search fails. -/
theorem beliefs_founded_after {settings : Settings} {strategy : Strategy} {rs : List Request}
    (hrs : ∀ r ∈ rs, r.IsRegular) (hadded : (KnowledgeBase.empty settings strategy).AddsOwn rs) :
    let start := KnowledgeBase.empty settings strategy
    let net := (start.after rs).network
    (∀ t n, net.nodes.get? t = some n → (n.tag == t) = true ∧
      (n.truths.size ≠ 0 → n.belief = (Binary64.sum n.truths.values).divNat n.truths.size) ∧
      (n.truths.size = 0 → n.belief = .zero false) ∧
      ∀ source w, n.truths.get? source = some w → ∃ done r s, done ++ [r] <+: rs ∧ r.IsSearch ∧
        (start.after done).network.Fired (start.after (done ++ [r])).network s ∧
        (s.tag == source) = true ∧ s.outputs.get? t = some w ∧
        w.below settings.outputWeightCutoff = false ∧ start.Lasts t (done ++ [r]) rs) ∧
    ∀ o now ply s, net.search? o now ply s = .ok (net.search o now ply s) := by
  intro start net
  have hkeyed : net.WellKeyed := KnowledgeBase.wellKeyed_after (Network.wellKeyed_empty _) rs
  refine ⟨fun t n hn => ?_, net.search?_eq_ok⟩
  obtain ⟨hbelief, hrecorded⟩ :=
    KnowledgeBase.founded_after hrs hadded rs (List.prefix_refl rs) t n hn
  exact ⟨hkeyed t n hn, hbelief.mean, hbelief.zero, hrecorded⟩

/-- A node puts weights on itself and on another one, which is removed and comes back with its truth. -/
theorem beliefs_founded_after_return :
    let tag (c : Char) : Tag := .fact ⟨[c], [], .certain⟩
    let node (c : Char) (outputs : List (Tag × Binary64)) : Node :=
      .create (tag c) (.ofList outputs) 1 1 (.ofNat 60) (.zero false)
    let asked (now : Nat) (op : NetworkOperation) : Request := ⟨.oldestFirst, .ofNat now, op⟩
    let start := KnowledgeBase.empty .standard .direct
    let went := [asked 0 (.addNodes [node 'A' [(tag 'A', .ofNat 1), (tag 'B', .ofNat 2)], node 'B' []]),
      asked 1 (.activate (tag 'A')), asked 2 (.search none)]
    let left := went ++ [asked 3 .resetActivations, asked 4 (.removeNode (tag 'B'))]
    let known := ((start.after went).network.nodes.get? (tag 'B')).getD (node 'B' [])
    let rs := left ++ [asked 5 (.addNode known)]
    let net := (start.after rs).network
    (net.nodes.get? (tag 'B')).map (fun n => n.truths.size) = some 1 ∧
    (∀ r ∈ rs, r.IsRegular) ∧ start.AddsOwn rs ∧
    (∀ t n, net.nodes.get? t = some n → (n.tag == t) = true ∧
      (n.truths.size ≠ 0 → n.belief = (Binary64.sum n.truths.values).divNat n.truths.size) ∧
      (n.truths.size = 0 → n.belief = .zero false) ∧
      ∀ source w, n.truths.get? source = some w → ∃ done r s, done ++ [r] <+: rs ∧ r.IsSearch ∧
        (start.after done).network.Fired (start.after (done ++ [r])).network s ∧
        (s.tag == source) = true ∧ s.outputs.get? t = some w ∧
        w.below Settings.standard.outputWeightCutoff = false ∧ start.Lasts t (done ++ [r]) rs) ∧
    ∀ o now ply s, net.search? o now ply s = .ok (net.search o now ply s) := by
  intro tag node asked start went left known rs net
  have hrs : ∀ r ∈ rs, r.IsRegular := by
    simp [rs, left, went, asked, Request.IsRegular]
  have hnew : ∀ r ∈ left, ∀ n ∈ r.operation.added, n.IsNew := by
    have hnode (c : Char) (outputs : List (Tag × Binary64)) : (node c outputs).IsNew :=
      ⟨_, _, _, _, _, _, rfl⟩
    simp [left, went, asked, NetworkOperation.added, hnode]
  have hknown : (start.after went).network.nodes.get? (tag 'B') = some known := by
    have hsome : ((start.after went).network.nodes.get? (tag 'B')).isSome = true := by decide +kernel
    exact (Option.getD_of_ne_none (Option.isSome_iff_ne_none.mp hsome) _).symm
  have hadded : start.AddsOwn rs :=
    (KnowledgeBase.AddsOwn.of_new hnew).concat_addNode (Network.wellKeyed_empty _)
      (List.prefix_append ..) hknown .oldestFirst (.ofNat 5)
  exact ⟨by decide +kernel, hrs, hadded, beliefs_founded_after hrs hadded⟩

end TagReasoner
