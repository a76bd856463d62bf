import TagReasoner.Proofs.Network.RecordRoundTrip
import TagReasoner.Proofs.Network.Spreading
import TagReasoner.Proofs.Network.WellKeyed

/-!
# What has happened to a knowledge base

A history is a list of requests, each with a time of its own. A request is a search, and then it evicts
nodes and spreads, or it is an upkeep: it takes nodes away or leaves them as they are, puts some in, and
makes no tag active that has no node (`KnowledgeBase.search_or_upkeep`). What a request keeps follows
from these two alone.

A search makes tags active that need not have nodes, but those are outputs of nodes that fired in it. A
node that goes takes its tag along. So after any history every active tag has a node or is accounted for
by a search of the history (`KnowledgeBase.accounted_after`).
-/

namespace TagReasoner

/-- What is asked of a knowledge base: an operation, the order in which it tries tags, and the time. -/
structure Request where
  order : TagOrder
  now : Binary64
  operation : NetworkOperation

def Request.IsSearch (r : Request) : Prop := ∃ strategy, r.operation = .search strategy

/-- The operation is one of the network as a whole, and not the propagation of a single node, which may
be any node. -/
def Request.IsRegular (r : Request) : Prop := ∀ n, r.operation ≠ .propagate n

namespace KnowledgeBase

/-- The knowledge base that a request leaves. -/
def performed (k : KnowledgeBase) (r : Request) : KnowledgeBase :=
  (k.perform r.order r.now r.operation).state

/-- The knowledge base that a history leaves. -/
def after (k : KnowledgeBase) (rs : List Request) : KnowledgeBase := rs.foldl performed k

/-- The node fired in a search of the history; it is meant as it was before that search. -/
def FiredDuring (k : KnowledgeBase) (rs : List Request) (n : Node) : Prop :=
  ∃ done r, done ++ [r] <+: rs ∧ r.IsSearch ∧
    (k.after done).network.Fired (k.after (done ++ [r])).network n

variable {k : KnowledgeBase} {rs : List Request} {r : Request} {n : Node}

theorem after_concat (k : KnowledgeBase) (rs : List Request) (r : Request) :
    k.after (rs ++ [r]) = (k.after rs).performed r :=
  List.foldl_concat ..

theorem FiredDuring.mono {rs' : List Request} (h : k.FiredDuring rs n) (hrs : rs <+: rs') :
    k.FiredDuring rs' n := by
  obtain ⟨done, r, hdone, hfired⟩ := h
  exact ⟨done, r, hdone.trans hrs, hfired⟩

theorem wellKeyed_after (h : k.network.WellKeyed) (rs : List Request) :
    (k.after rs).network.WellKeyed := by
  induction rs using List.reverseRecOn with
  | nil => exact h
  | append_singleton rs r ih =>
    rw [after_concat]
    exact wellKeyed_perform ih r.order r.now r.operation

end KnowledgeBase

namespace Network

variable {net a b : Network} {P Q : Tag → Prop} {Added : Node → Prop} {now : Binary64} {t u : Tag}

/-! ## Nodes and active tags -/

theorem get?_addNodes (net : Network) (ns : List Node) (u : Tag) :
    (net.addNodes ns).1.nodes.get? u = (net.nodes.get? u).or (ns.find? fun n => n.tag == u) := by
  show (ns.foldl addNode net).nodes.get? u = _
  induction ns generalizing net with
  | nil => rw [List.find?_nil, Option.or_none, List.foldl_nil]
  | cons n ns ih =>
    rw [List.foldl_cons, ih]
    show ((net.nodes.insertNew n.tag n).get? u).or _ = _
    rw [Keyed.get?_insertNew, Option.or_assoc, List.find?_cons]
    cases n.tag == u <;> rfl

theorem active_addNodes (net : Network) (ns : List Node) :
    (net.addNodes ns).1.active = net.active := by
  show (ns.foldl addNode net).active = _
  induction ns generalizing net with
  | nil => rfl
  | cons n ns ih => exact ih (net.addNode n)

theorem cutoff_addNodes (net : Network) (ns : List Node) :
    (net.addNodes ns).1.cutoff = net.cutoff := by
  show (ns.foldl addNode net).cutoff = _
  induction ns generalizing net with
  | nil => rfl
  | cons n ns ih => exact ih (net.addNode n)

theorem nodes_activate (net : Network) (t : Tag) : (net.activate t).nodes = net.nodes := by
  rw [activate]
  split <;> rfl

theorem cutoff_activate (net : Network) (t : Tag) : (net.activate t).cutoff = net.cutoff := by
  rw [activate]
  split <;> rfl

theorem nodes_activateAll (net : Network) (ts : List Tag) :
    (net.activateAll ts).1.nodes = net.nodes := by
  show (ts.foldl activate net).nodes = _
  induction ts generalizing net with
  | nil => rfl
  | cons t ts ih => rw [List.foldl_cons, ih, nodes_activate]

theorem cutoff_activateAll (net : Network) (ts : List Tag) :
    (net.activateAll ts).1.cutoff = net.cutoff := by
  show (ts.foldl activate net).cutoff = _
  induction ts generalizing net with
  | nil => rfl
  | cons t ts ih => rw [List.foldl_cons, ih, cutoff_activate]

/-- Only tags with nodes become active on request. -/
theorem active_activateAll {ts : List Tag} (hu : (net.activateAll ts).1.active.contains u = true) :
    net.active.contains u = true ∨ net.nodes.contains u = true := by
  change (ts.foldl activate net).active.contains u = true at hu
  induction ts generalizing net with
  | nil => exact .inl hu
  | cons t ts ih =>
    have hnodes := net.nodes_activate t
    rw [List.foldl_cons] at hu
    rcases ih hu with hu | hu
    · rw [activate] at hu
      split at hu
      next hactivate =>
        rcases (WorkingSet.contains_insert ..).mp hu with hu | htu
        · exact .inl hu
        · refine .inr ?_
          rw [canActivate, Bool.and_eq_true] at hactivate
          rw [← net.nodes.contains_congr htu]
          exact hactivate.1
      next => exact .inl hu
    · rw [hnodes] at hu
      exact .inr hu

/-! ## Operations other than searches -/

/-- What operations other than searches do. They leave nodes with the same truths and belief or take
them away, and put in nodes that are added; and they make no tag active that has no node, and take none
away that is active and had none. -/
structure Upkeep (before after : Network) (Added : Node → Prop) : Prop where
  cutoff : after.cutoff = before.cutoff
  nodes : ∀ u m, after.nodes.get? u = some m →
    (∃ n, before.nodes.get? u = some n ∧ m.truths = n.truths ∧ m.belief = n.belief) ∨
      before.nodes.get? u = none ∧ Added m
  active : ∀ u, after.active.contains u = true → after.nodes.contains u = false →
    before.active.contains u = true ∧ before.nodes.contains u = false

theorem Upkeep.of_nodes (hcutoff : b.cutoff = a.cutoff) (hnodes : b.nodes = a.nodes)
    (hactive : ∀ u, b.active.contains u = true →
      a.active.contains u = true ∨ a.nodes.contains u = true) : a.Upkeep b Added where
  cutoff := hcutoff
  nodes u m hm := .inl ⟨m, hnodes ▸ hm, rfl, rfl⟩
  active u hu hstored := by
    rw [hnodes] at hstored
    exact ⟨(hactive u hu).resolve_right (by simp [hstored]), hstored⟩

theorem Upkeep.refl (net : Network) : net.Upkeep net Added :=
  .of_nodes rfl rfl fun _ => .inl

theorem upkeep_addNodes (net : Network) {ns : List Node} (hns : ∀ n ∈ ns, Added n) :
    net.Upkeep (net.addNodes ns).1 Added where
  cutoff := net.cutoff_addNodes ns
  nodes u m hm := by
    rw [get?_addNodes, Option.or_eq_some_iff] at hm
    rcases hm with hm | ⟨hnone, hm⟩
    · exact .inl ⟨m, hm, rfl, rfl⟩
    · exact .inr ⟨hnone, hns m (List.mem_of_find?_eq_some hm)⟩
  active u hactive hstored := by
    rw [active_addNodes] at hactive
    rw [Keyed.contains_eq_isSome, get?_addNodes, Option.isSome_or, Bool.or_eq_false_iff] at hstored
    exact ⟨hactive, by rw [Keyed.contains_eq_isSome, hstored.1]⟩

theorem upkeep_removeNode (net : Network) (t : Tag) : net.Upkeep (net.removeNode t) Added where
  cutoff := net.cutoff_removeNode t
  nodes u m hm := by
    rw [get?_removeNode] at hm
    split at hm
    next => cases hm
    next => exact .inl ⟨m, hm, rfl, rfl⟩
  active u hactive hstored := by
    obtain ⟨hactive', hremoved⟩ := (contains_active_removeNode net t u).mp hactive
    refine ⟨hactive', ?_⟩
    rw [Keyed.contains_eq_isSome, get?_removeNode] at hstored
    split at hstored
    next htu => exact hremoved htu
    next => rwa [Keyed.contains_eq_isSome]

theorem upkeep_activateAll (net : Network) (ts : List Tag) :
    net.Upkeep (net.activateAll ts).1 Added :=
  .of_nodes (net.cutoff_activateAll ts) (net.nodes_activateAll ts) fun _ => active_activateAll

theorem upkeep_clearActive (net : Network) : net.Upkeep net.clearActive Added := by
  refine .of_nodes rfl rfl fun u hu => ?_
  cases hu

theorem upkeep_resetActivations (net : Network) : net.Upkeep net.resetActivations Added where
  cutoff := rfl
  nodes u m hm := by
    rw [resetActivations, Keyed.get?_mapValues, Option.map_eq_some_iff] at hm
    obtain ⟨n, hn, rfl⟩ := hm
    exact .inl ⟨n, hn, rfl, rfl⟩
  active u hactive hstored := by
    rw [Keyed.contains_eq_any_keys, resetActivations, Keyed.keys_mapValues,
      ← Keyed.contains_eq_any_keys] at hstored
    exact ⟨hactive, hstored⟩

theorem upkeep_evict (net : Network) (now : Binary64) : net.Upkeep (net.evict now).1 Added where
  cutoff := net.cutoff_evict now
  nodes u m hm := by
    obtain ⟨n, hn, -, rfl⟩ := get?_evict_eq_some_iff.mp hm
    exact .inl ⟨n, hn, rfl, rfl⟩
  active u hactive hstored := by
    obtain ⟨hactive', hexpired⟩ := (contains_active_evict net now u).mp hactive
    refine ⟨hactive', ?_⟩
    rw [Keyed.contains_eq_isSome, get?_evict] at hstored
    rw [Keyed.contains_eq_isSome]
    cases hn : net.nodes.get? u with
    | none => rfl
    | some n => simp [hn, hexpired n hn] at hstored

/-- A node that fires in a search has not expired before. -/
theorem Fired.of_evict {n : Node} (h : (net.evict now).1.Fired b n) :
    ∃ m, net.Fired b m ∧ m.offer? = n.offer? := by
  obtain ⟨t, l, hn, hunfired, hl, hfired⟩ := h
  obtain ⟨m, hm, -, rfl⟩ := get?_evict_eq_some_iff.mp hn
  exact ⟨m, ⟨t, l, hm, hunfired, hl, hfired⟩, rfl⟩

/-! ## Active tags are accounted for -/

/-- Every active tag has a node, or something else accounts for it. -/
def Accounted (net : Network) (P : Tag → Prop) : Prop :=
  ∀ u, net.active.contains u = true → net.nodes.contains u = true ∨ P u

theorem Accounted.mono (h : net.Accounted P) (hPQ : ∀ u, P u → Q u) : net.Accounted Q :=
  fun u hu => (h u hu).imp_right (hPQ u)

theorem accounted_empty (cutoff : Binary64) : (empty cutoff).Accounted P := by
  intro u hu
  cases hu

/-- An active tag without a node was one before. -/
theorem Accounted.upkeep (h : a.Accounted P) (hab : a.Upkeep b Added) : b.Accounted P := by
  intro u hactive
  cases hstored : b.nodes.contains u with
  | true => exact .inl rfl
  | false =>
    obtain ⟨hactive', hstored'⟩ := hab.active u hactive hstored
    refine .inr ((h u hactive').resolve_left ?_)
    rw [hstored']
    exact Bool.false_ne_true

/-- What searches make active, the nodes that have fired account for. -/
theorem Accounted.spread (h : a.Accounted P) (hab : a.SpreadsTo b) :
    b.Accounted fun u => P u ∨ ∃ n, a.Fired b n ∧ (n.offer? a.cutoff u).isSome = true := by
  intro u hu
  rcases (hab.active u).mp hu with hu | hfired
  · rw [Keyed.contains_eq_any_keys, hab.keys, ← Keyed.contains_eq_any_keys]
    exact (h u hu).imp_right .inl
  · exact .inr (.inr hfired)

end Network

/-! ## Requests -/

/-- A node that has just been made. -/
def Node.IsNew (n : Node) : Prop :=
  ∃ tag outputs threshold strength maxAge now,
    n = .create tag outputs threshold strength maxAge now

/-- The nodes that an operation is given. -/
def NetworkOperation.added : NetworkOperation → List Node
  | .addNode n => [n]
  | .addNodes ns => ns
  | _ => []

section Loading

variable {depth : Nat} {s : Settings} {now : Binary64}

theorem Numbered.isNew_of_node {r : Numbered} {n : Node} (h : r.node depth s now = .ok n) :
    n.IsNew := by
  obtain ⟨tokens, -, hread⟩ := bind_eq_ok_iff.mp h
  obtain ⟨-, -, -, t, z, os, -, -, -, -, -, rfl⟩ := Node.ofRecordWith_eq_ok_iff.mp hread
  exact ⟨t, os, z, s.nodeStrength, s.nodeMaxAge, now, rfl⟩

theorem isNew_of_readNodes {path : Text} {strict : Bool} {rs : List Numbered}
    {result : List Node × List ParseError}
    (h : readNodes depth s now path strict rs = .ok result) : ∀ n ∈ result.1, n.IsNew := by
  induction rs generalizing result with
  | nil =>
    cases h
    exact List.forall_mem_nil _
  | cons r rs ih =>
    rw [readNodes] at h
    split at h
    next n hn =>
      obtain ⟨rest, hrest, rfl⟩ := map_eq_ok_iff.mp h
      exact List.forall_mem_cons.mpr ⟨Numbered.isNew_of_node hn, ih hrest⟩
    next =>
      dsimp only at h
      split at h
      · cases h
      · obtain ⟨rest, hrest, rfl⟩ := map_eq_ok_iff.mp h
        intro n hn
        exact ih hrest n hn
    next => cases h

/-- The nodes of a data file are made when it is loaded. -/
theorem isNew_of_load {f : DataFile} {delimiter : Text} {strict : Bool} {loaded : Loaded}
    (h : f.load depth s delimiter now strict = .ok loaded) : ∀ n ∈ loaded.nodes, n.IsNew := by
  obtain ⟨records, -, hread⟩ := bind_eq_ok_iff.mp h
  obtain ⟨result, hresult, rfl⟩ := map_eq_ok_iff.mp hread
  exact isNew_of_readNodes hresult

end Loading

namespace KnowledgeBase

open Network

variable {k : KnowledgeBase} {rs : List Request} {r : Request} {P : Tag → Prop}

/-- What a request does. -/
theorem search_or_upkeep (k : KnowledgeBase) (hr : r.IsRegular) :
    (r.IsSearch ∧ (k.network.evict r.now).1.SpreadsTo (k.performed r).network) ∨
      k.network.Upkeep (k.performed r).network fun n => n ∈ r.operation.added ∨ n.IsNew := by
  obtain ⟨o, now, op⟩ := r
  cases op with
  | search strategy => exact .inl ⟨⟨strategy, rfl⟩, spreadsTo_searchWith ..⟩
  | addNode n =>
    have hadded : ∀ m ∈ [n], m ∈ [n] ∨ m.IsNew := fun _ => .inl
    exact .inr (k.network.upkeep_addNodes hadded)
  | addNodes ns => exact .inr (k.network.upkeep_addNodes fun _ => .inl)
  | removeNode t => exact .inr (k.network.upkeep_removeNode t)
  | contains | get => exact .inr (.refl _)
  | activate t => exact .inr (k.network.upkeep_activateAll [t])
  | activateAll ts => exact .inr (k.network.upkeep_activateAll ts)
  | clearActive => exact .inr k.network.upkeep_clearActive
  | resetActivations => exact .inr k.network.upkeep_resetActivations
  | evict => exact .inr (k.network.upkeep_evict now)
  | propagate n => exact absurd rfl (hr n)
  | load f depth =>
    refine .inr ?_
    rw [performed, perform, load]
    split
    next => exact .refl _
    next loaded hloaded =>
      exact k.network.upkeep_addNodes fun n hn => .inr (isNew_of_load hloaded n hn)

theorem cutoff_performed (k : KnowledgeBase) (hr : r.IsRegular) :
    (k.performed r).network.cutoff = k.network.cutoff := by
  rcases k.search_or_upkeep hr with ⟨-, hspreads⟩ | hupkeep
  · exact hspreads.cutoff.trans (k.network.cutoff_evict r.now)
  · exact hupkeep.cutoff

theorem cutoff_after (k : KnowledgeBase) (hrs : ∀ r ∈ rs, r.IsRegular) :
    (k.after rs).network.cutoff = k.network.cutoff := by
  induction rs using List.reverseRecOn with
  | nil => rfl
  | append_singleton rs r ih =>
    obtain ⟨hrs, hr⟩ := List.forall_mem_append.mp hrs
    rw [after_concat, cutoff_performed _ (hr r (List.mem_singleton_self r)), ih hrs]

/-- What a request makes active has a node, or nodes that fire in a search account for it. -/
theorem accounted_performed (h : k.network.Accounted P) (hr : r.IsRegular) :
    (k.performed r).network.Accounted fun u => P u ∨ r.IsSearch ∧
      ∃ n, k.network.Fired (k.performed r).network n ∧
        (n.offer? k.network.cutoff u).isSome = true := by
  rcases k.search_or_upkeep hr with ⟨hsearch, hspreads⟩ | hupkeep
  · have hevict : k.network.Upkeep (k.network.evict r.now).1 fun _ => False :=
      k.network.upkeep_evict r.now
    refine ((h.upkeep hevict).spread hspreads).mono fun u hu => hu.imp_right ?_
    rintro ⟨n, hfired, hoffer⟩
    obtain ⟨m, hfired', hsame⟩ := hfired.of_evict
    exact ⟨hsearch, m, hfired', by rwa [hsame, ← k.network.cutoff_evict r.now]⟩
  · exact (h.upkeep hupkeep).mono fun _ => .inl

theorem accounted_after (h : k.network.Accounted P) (hrs : ∀ r ∈ rs, r.IsRegular) :
    (k.after rs).network.Accounted fun u => P u ∨
      ∃ n, k.FiredDuring rs n ∧ (n.offer? k.network.cutoff u).isSome = true := by
  induction rs using List.reverseRecOn with
  | nil => exact h.mono fun _ => .inl
  | append_singleton rs r ih =>
    obtain ⟨hrs, hr⟩ := List.forall_mem_append.mp hrs
    rw [after_concat]
    refine (accounted_performed (ih hrs) (hr r (List.mem_singleton_self r))).mono fun u hu => ?_
    rw [k.cutoff_after hrs, ← after_concat] at hu
    rcases hu with (hu | ⟨n, hfired, hoffer⟩) | ⟨hsearch, n, hfired, hoffer⟩
    · exact .inl hu
    · exact .inr ⟨n, hfired.mono (List.prefix_append rs [r]), hoffer⟩
    · exact .inr ⟨n, ⟨rs, r, List.prefix_refl _, hsearch, hfired⟩, hoffer⟩

end KnowledgeBase

/-- After any history, each node is stored under its own tag and no two nodes watch one tag; each active
tag has a node, or is an output, not weighted below the cutoff, of a node that fired in a search of the
history. An eviction then removes the nodes that have expired, and their tags are not active after it. -/
theorem active_accounted_after {settings : Settings} {strategy : Strategy} {rs : List Request}
    (hrs : ∀ r ∈ rs, r.IsRegular) :
    let start := KnowledgeBase.empty settings strategy
    let k := start.after rs
    (∀ t n, k.network.nodes.get? t = some n → (n.tag == t) = true) ∧
    (k.network.nodes.values.Pairwise fun m n => (m.tag == n.tag) = false) ∧
    (∀ u, k.network.active.contains u = true → k.network.nodes.contains u = true ∨
      ∃ n w, start.FiredDuring rs n ∧ n.outputs.get? u = some w ∧
        w.below settings.outputWeightCutoff = false) ∧
    ∀ o now, ∃ evicted, (k.perform o now .evict).result = .ok (.tags evicted) ∧
      let left := (k.perform o now .evict).state.network
      (∀ t n, left.nodes.get? t = some n → n.hasExpired now = false) ∧
      (∀ t, evicted.any (· == t) = true ↔
        ∃ n, k.network.nodes.get? t = some n ∧ n.hasExpired now = true) ∧
      ∀ t ∈ evicted, left.active.contains t = false := by
  intro start k
  have hkeyed : k.network.WellKeyed := KnowledgeBase.wellKeyed_after (Network.wellKeyed_empty _) rs
  refine ⟨hkeyed, hkeyed.pairwise_tags, fun u hu => ?_, fun o now => ?_⟩
  · have hnone : start.network.Accounted fun _ => False := Network.accounted_empty _
    rcases KnowledgeBase.accounted_after hnone hrs u hu with hstored | hfalse | ⟨n, hfired, hoffer⟩
    · exact .inl hstored
    · exact hfalse.elim
    · obtain ⟨w, hw⟩ := Network.isSome_offer?_iff_get?.mp hoffer
      exact .inr ⟨n, w, hfired, hw⟩
  · have hevicted (t : Tag) : (k.network.evict now).2.any (· == t) = true ↔
        ∃ n, k.network.nodes.get? t = some n ∧ n.hasExpired now = true :=
      Network.any_overage_iff
    refine ⟨(k.network.evict now).2, rfl, fun t n hn => ?_, hevicted, fun t ht => ?_⟩
    · change (k.network.evict now).1.nodes.get? t = some n at hn
      obtain ⟨m, -, hleft, rfl⟩ := Network.get?_evict_eq_some_iff.mp hn
      exact hleft
    · obtain ⟨n, hn, hexpired⟩ := (hevicted t).mp (List.any_eq_true.mpr ⟨t, ht, BEq.refl t⟩)
      rw [Bool.eq_false_iff]
      intro hactive
      rw [((Network.contains_active_evict ..).mp hactive).2 n hn] at hexpired
      cases hexpired

/-- Of two outputs of a node that fired, one has a node that the next search evicts, and the other never
had one; it stays active, with a weight of the cutoff. -/
theorem active_accounted_after_removed :
    let tag (c : Char) : Tag := .fact ⟨[c], [], .certain⟩
    let node (c : Char) (outputs : List (Tag × Binary64)) (maxAge : Nat) : Node :=
      .create (tag c) (.ofList outputs) 1 1 (.ofNat maxAge) (.zero false)
    let asked (now : Nat) (op : NetworkOperation) : Request := ⟨.oldestFirst, .ofNat now, op⟩
    let rs := [
      asked 0 (.addNodes [node 'A' [(tag 'B', .ofNat 1), (tag 'C', .zero true)] 60, node 'B' [] 5]),
      asked 1 (.activate (tag 'A')), asked 2 (.search (some .direct)),
      asked 9 (.search (some (.breadthFirst none))), asked 9 (.removeNode (tag 'A'))]
    let start := KnowledgeBase.empty .standard .direct
    let k := start.after rs
    k.network.active.contains (tag 'C') = true ∧ k.network.nodes.contains (tag 'C') = false ∧
    (∀ r ∈ rs, r.IsRegular) ∧
    (∀ t n, k.network.nodes.get? t = some n → (n.tag == t) = true) ∧
    (k.network.nodes.values.Pairwise fun m n => (m.tag == n.tag) = false) ∧
    (∀ u, k.network.active.contains u = true → k.network.nodes.contains u = true ∨
      ∃ n w, start.FiredDuring rs n ∧ n.outputs.get? u = some w ∧
        w.below Settings.standard.outputWeightCutoff = false) ∧
    ∀ o now, ∃ evicted, (k.perform o now .evict).result = .ok (.tags evicted) ∧
      let left := (k.perform o now .evict).state.network
      (∀ t n, left.nodes.get? t = some n → n.hasExpired now = false) ∧
      (∀ t, evicted.any (· == t) = true ↔
        ∃ n, k.network.nodes.get? t = some n ∧ n.hasExpired now = true) ∧
      ∀ t ∈ evicted, left.active.contains t = false := by
  intro tag node asked rs start k
  have hrs : ∀ r ∈ rs, r.IsRegular := by simp [rs, asked, Request.IsRegular]
  exact ⟨by decide +kernel, by decide +kernel, hrs, active_accounted_after hrs⟩

end TagReasoner
