import TagReasoner.Proofs.Collection.Keyed
import TagReasoner.Proofs.Collection.WorkingSet
import TagReasoner.Proofs.Tag.Equality
import TagReasoner.Network.Search
import Mathlib.Data.List.Induction

/-!
# One layer of a search

A layer visits tags one after the other, and a node that fires changes others before they are
visited. All that it changes there are truths and the belief, though, and whether a node fires and
what it puts forward then does not depend on those (`Node.bare`). So what a visit puts forward can be
told from the network before the layer (`Network.push?`), and `Layer.After` says what a layer has done
in these terms only. It names the tags that were visited and not their order.
-/

namespace TagReasoner

theorem optionRel_iff {α β : Type} {R : α → β → Prop} {x : Option α} {y : Option β} :
    Option.Rel R x y ↔ x = none ∧ y = none ∨ ∃ a b, x = some a ∧ y = some b ∧ R a b := by
  constructor
  · intro h
    cases h with
    | none => exact .inl ⟨rfl, rfl⟩
    | some h => exact .inr ⟨_, _, rfl, rfl, h⟩
  · rintro (⟨rfl, rfl⟩ | ⟨a, b, rfl, rfl, h⟩)
    · exact .none
    · exact .some h

/-! ## Nodes -/

namespace Node

/-- The node apart from its truths. -/
def bare (n : Node) : Node := { n with truths := .empty, belief := .zero false }

/-- The node fires when it is visited. -/
def fires (n : Node) : Bool := (n.stimulate none).2

/-- The node after a visit. -/
def visited (n : Node) : Node := if n.fired then n else (n.stimulate none).1

/-- The tag and the weight that an output records on its own node, unless it is weighted below the
cutoff. -/
def offer? (n : Node) (cutoff : Binary64) (u : Tag) : Option (Tag × Binary64) :=
  ((n.outputs.get? u).filter fun w => !w.below cutoff).map fun w => (n.tag, w)

/-- Records what is offered. -/
def accept (n : Node) : Option (Tag × Binary64) → Node
  | none => n
  | some (source, weight) => n.observe source weight

variable {n : Node}

/-- Nodes that are the same apart from their truths agree in all that does not depend on truths. -/
theorem congr_bare {α : Type} {m : Node} (f : Node → α) (hf : ∀ n : Node, f n.bare = f n)
    (h : m.bare = n.bare) : f m = f n :=
  (hf m).symm.trans ((congrArg f h).trans (hf n))

theorem bare_accept (n : Node) (p : Option (Tag × Binary64)) : (n.accept p).bare = n.bare := by
  cases p <;> rfl

theorem tag_accept (n : Node) (p : Option (Tag × Binary64)) : (n.accept p).tag = n.tag := by
  cases p <;> rfl

theorem bare_visited (n : Node) : n.visited.bare = n.bare.visited := by
  rw [visited, visited]
  show _ = if n.fired then n.bare else (n.bare.stimulate none).1
  split <;> rfl

theorem truths_visited (n : Node) : n.visited.truths = n.truths := by
  rw [visited]
  split <;> rfl

theorem get?_truths_accept (n : Node) (source : Tag) :
    ∀ p : Option (Tag × Binary64), (n.accept p).truths.get? source =
      match p with
      | none => n.truths.get? source
      | some p => if source == p.1 then some p.2 else n.truths.get? source
  | none => rfl
  | some p => n.truths.get?_put_beq p.1 p.2 source

theorem tag_visited (n : Node) : n.visited.tag = n.tag := by
  rw [visited]
  split <;> rfl

theorem fires_eq (n : Node) :
    n.fires = (!n.fired && (n.activation.add (.ofNat 1)).reaches n.threshold) := rfl

theorem fires_of_fired (h : n.fired = true) : n.fires = false := by
  rw [fires_eq, h]
  rfl

theorem fired_eq_false_of_fires (h : n.fires = true) : n.fired = false := by
  rw [Bool.eq_false_iff]
  intro hfired
  rw [fires_of_fired hfired] at h
  cases h

theorem visited_of_fired (h : n.fired = true) : n.visited = n := if_pos h

theorem fired_visited_of_fires (h : n.fires = true) : n.visited.fired = true := by
  rw [visited, if_neg (by simp [fired_eq_false_of_fires h])]
  show (n.fired || n.fires) = true
  rw [h, Bool.or_true]

theorem offer?_visited (n : Node) : n.visited.offer? = n.offer? := by
  rw [visited]
  split <;> rfl

end Node

/-! ## Propagation -/

namespace Network

variable {net : Network} {t u : Tag}

/-- What a visit of a tag puts on another one. -/
def push? (net : Network) (t u : Tag) : Option (Tag × Binary64) :=
  (net.nodes.get? t).bind fun n => if n.fires then n.offer? net.cutoff u else none

/-- Some visit among those of the tags puts the other one forward. -/
def PutForwardBy (net : Network) (ts : List Tag) (u : Tag) : Prop :=
  ∃ t ∈ ts, (net.push? t u).isSome = true

theorem push?_of_not_fires (h : ∀ n, net.nodes.get? t = some n → n.fires = false) (u : Tag) :
    net.push? t u = none := by
  rw [push?, Option.bind_eq_none_iff]
  intro n hn
  rw [h n hn]
  rfl

theorem push?_of_fires {n : Node} (hn : net.nodes.get? t = some n) (hfires : n.fires = true)
    (u : Tag) : net.push? t u = n.offer? net.cutoff u := by
  rw [push?, hn, Option.bind_some, if_pos hfires]

theorem push?_eq_bare (net : Network) (t u : Tag) : net.push? t u =
    ((net.nodes.get? t).map Node.bare).bind fun n =>
      if n.fires then n.offer? net.cutoff u else none := by
  rw [push?, Option.bind_map]
  rfl

theorem get?_modifyNode (net : Network) (t u : Tag) (f : Node → Node) :
    (net.modifyNode t f).nodes.get? u =
      if u == t then (net.nodes.get? u).map f else net.nodes.get? u :=
  net.nodes.get?_modify t u f

theorem cutoff_putForward (source : Tag) (net : Network) (e : Tag × Binary64) :
    (putForward source net e).cutoff = net.cutoff := by
  rw [putForward]
  split <;> rfl

theorem contains_active_putForward (source : Tag) (net : Network) (e : Tag × Binary64) (u : Tag) :
    (putForward source net e).active.contains u = true ↔
      net.active.contains u = true ∨ (e.1 == u) = true ∧ e.2.below net.cutoff = false := by
  rw [putForward]
  split
  next h => simp [h]
  next h => simp [WorkingSet.contains_insert, h]

theorem get?_putForward (source : Tag) (net : Network) (e : Tag × Binary64) (u : Tag) :
    (putForward source net e).nodes.get? u =
      if (e.1 == u) = true ∧ e.2.below net.cutoff = false then
        (net.nodes.get? u).map fun n => n.observe source e.2
      else net.nodes.get? u := by
  rw [putForward]
  split
  next h => simp [h]
  next h =>
    show (net.modifyNode e.1 _).nodes.get? u = _
    rw [get?_modifyNode, BEq.comm]
    simp [h]

theorem cutoff_foldl_putForward (source : Tag) (es : List (Tag × Binary64)) (net : Network) :
    (es.foldl (putForward source) net).cutoff = net.cutoff := by
  induction es generalizing net with
  | nil => rfl
  | cons e es ih => rw [List.foldl_cons, ih, cutoff_putForward]

theorem contains_active_foldl_putForward (source : Tag) (es : List (Tag × Binary64)) (net : Network)
    (u : Tag) : (es.foldl (putForward source) net).active.contains u = true ↔
      net.active.contains u = true ∨ ∃ e ∈ es, (e.1 == u) = true ∧ e.2.below net.cutoff = false := by
  induction es generalizing net with
  | nil => simp
  | cons e es ih =>
    rw [List.foldl_cons, ih, cutoff_putForward, contains_active_putForward, or_assoc,
      List.exists_mem_cons_iff]

theorem get?_foldl_putForward_of_forall {source : Tag} {es : List (Tag × Binary64)} {net : Network}
    (h : ∀ e ∈ es, ¬((e.1 == u) = true ∧ e.2.below net.cutoff = false)) :
    (es.foldl (putForward source) net).nodes.get? u = net.nodes.get? u := by
  induction es generalizing net with
  | nil => rfl
  | cons e es ih =>
    obtain ⟨he, hes⟩ := List.forall_mem_cons.mp h
    rw [List.foldl_cons, ih (by rwa [cutoff_putForward]), get?_putForward, if_neg he]

/-- Outputs are distinct, so one at most is put forward on a node. -/
theorem get?_foldl_putForward_of_mem {source : Tag} {es : List (Tag × Binary64)} {net : Network}
    (hdistinct : es.Pairwise fun d e => (d.1 == e.1) = false) {e : Tag × Binary64} (he : e ∈ es)
    (heu : (e.1 == u) = true) (hcutoff : e.2.below net.cutoff = false) :
    (es.foldl (putForward source) net).nodes.get? u =
      (net.nodes.get? u).map fun n => n.observe source e.2 := by
  induction es generalizing net with
  | nil => cases he
  | cons d es ih =>
    obtain ⟨hd, hes⟩ := List.pairwise_cons.mp hdistinct
    rw [List.foldl_cons]
    rcases List.mem_cons.mp he with rfl | he
    · rw [get?_foldl_putForward_of_forall, get?_putForward, if_pos ⟨heu, hcutoff⟩]
      rintro c hc ⟨hcu, -⟩
      have hdc := hd c hc
      rw [BEq.trans heu (BEq.symm hcu)] at hdc
      cases hdc
    · have hdu : (d.1 == u) = false := by rw [← BEq.congr_right heu, hd e he]
      rw [ih hes he (by rwa [cutoff_putForward]), get?_putForward, if_neg (by simp [hdu])]

theorem offer?_eq_some_iff {n : Node} {cutoff : Binary64} {p : Tag × Binary64} :
    n.offer? cutoff u = some p ↔ ∃ e ∈ n.outputs.entries,
      (e.1 == u) = true ∧ e.2.below cutoff = false ∧ (n.tag, e.2) = p := by
  rw [Node.offer?, Option.map_eq_some_iff]
  constructor
  · rintro ⟨w, hw, rfl⟩
    obtain ⟨hget, hcutoff⟩ := Option.filter_eq_some_iff.mp hw
    obtain ⟨e, he, heu, rfl⟩ := Keyed.get?_eq_some_iff.mp hget
    exact ⟨e, he, heu, by simpa using hcutoff, rfl⟩
  · rintro ⟨e, he, heu, hcutoff, rfl⟩
    exact ⟨e.2, Option.filter_eq_some_iff.mpr
      ⟨Keyed.get?_eq_some_iff.mpr ⟨e, he, heu, rfl⟩, by simpa using hcutoff⟩, rfl⟩

theorem isSome_offer?_iff {n : Node} {cutoff : Binary64} : (n.offer? cutoff u).isSome = true ↔
    ∃ e ∈ n.outputs.entries, (e.1 == u) = true ∧ e.2.below cutoff = false := by
  rw [Option.isSome_iff_exists]
  simp only [offer?_eq_some_iff]
  constructor
  · rintro ⟨p, e, he, heu, hcutoff, -⟩
    exact ⟨e, he, heu, hcutoff⟩
  · rintro ⟨e, he, heu, hcutoff⟩
    exact ⟨_, e, he, heu, hcutoff, rfl⟩

theorem offer?_eq_some_iff_get? {n : Node} {cutoff : Binary64} {p : Tag × Binary64} :
    n.offer? cutoff u = some p ↔
      ∃ w, n.outputs.get? u = some w ∧ w.below cutoff = false ∧ (n.tag, w) = p := by
  rw [Node.offer?, Option.map_eq_some_iff]
  simp only [Option.filter_eq_some_iff, Bool.not_eq_true', and_assoc]

theorem isSome_offer?_iff_get? {n : Node} {cutoff : Binary64} : (n.offer? cutoff u).isSome = true ↔
    ∃ w, n.outputs.get? u = some w ∧ w.below cutoff = false := by
  rw [Node.offer?, Option.isSome_map, Option.isSome_iff_exists]
  simp only [Option.filter_eq_some_iff, Bool.not_eq_true']

theorem cutoff_propagate (net : Network) (n : Node) : (net.propagate n).cutoff = net.cutoff :=
  cutoff_foldl_putForward ..

theorem contains_active_propagate (net : Network) (n : Node) (u : Tag) :
    (net.propagate n).active.contains u = true ↔
      net.active.contains u = true ∨ (n.offer? net.cutoff u).isSome = true := by
  rw [propagate, contains_active_foldl_putForward, isSome_offer?_iff]

theorem get?_propagate (net : Network) (n : Node) (u : Tag) :
    (net.propagate n).nodes.get? u =
      (net.nodes.get? u).map fun m => m.accept (n.offer? net.cutoff u) := by
  rw [propagate]
  cases hoffer : n.offer? net.cutoff u with
  | none =>
    rw [get?_foldl_putForward_of_forall]
    · exact Option.map_id'.symm
    · rintro e he ⟨heu, hcutoff⟩
      have hsome := offer?_eq_some_iff.mpr ⟨e, he, heu, hcutoff, rfl⟩
      rw [hoffer] at hsome
      cases hsome
  | some p =>
    obtain ⟨e, he, heu, hcutoff, rfl⟩ := offer?_eq_some_iff.mp hoffer
    exact get?_foldl_putForward_of_mem n.outputs.distinct he heu hcutoff

theorem exists_mem_activatedBy_iff {net : Network} {n : Node} :
    (∃ v ∈ net.activatedBy n, (v == u) = true) ↔
      net.active.contains u = false ∧ (n.offer? net.cutoff u).isSome = true := by
  rw [isSome_offer?_iff]
  simp only [activatedBy, List.mem_filter, List.mem_map, Bool.not_eq_true']
  constructor
  · rintro ⟨v, ⟨⟨e, ⟨he, hcutoff⟩, rfl⟩, hactive⟩, hvu⟩
    exact ⟨(WorkingSet.contains_congr hvu).symm.trans hactive, e, he, hvu, hcutoff⟩
  · rintro ⟨hactive, e, he, heu, hcutoff⟩
    exact ⟨e.1, ⟨⟨e, ⟨he, hcutoff⟩, rfl⟩, (WorkingSet.contains_congr heu).trans hactive⟩, heu⟩

end Network

/-! ## Visits -/

namespace Layer

open Network

variable {l : Layer} {t u : Tag}

theorem visit_of_fired (h : ∀ n, l.network.nodes.get? t = some n → n.fired = true) :
    l.visit t = l := by
  rw [visit]
  split
  next => rfl
  next n hn => rw [if_pos (h n hn)]

theorem visit_of_unfired {n : Node} (hn : l.network.nodes.get? t = some n) (hf : n.fired = false) :
    l.visit t =
      let network := l.network.modifyNode t fun _ => n.visited
      if n.fires then ⟨network.propagate n.visited, l.reached.insertAll (network.activatedBy n.visited)⟩
      else ⟨network, l.reached⟩ := by
  have hvisited : n.visited = (n.stimulate none).1 := if_neg (by simp [hf])
  rw [visit, hn, hvisited]
  simp only [hf, Bool.false_eq_true, if_false]
  rfl

/-- What a visit does. -/
structure Visited (l : Layer) (t : Tag) (after : Layer) : Prop where
  cutoff : after.network.cutoff = l.network.cutoff
  nodes : ∀ u, after.network.nodes.get? u = (l.network.nodes.get? u).map fun m =>
    (if u == t then m.visited else m).accept (l.network.push? t u)
  active : ∀ u, after.network.active.contains u = true ↔
    l.network.active.contains u = true ∨ (l.network.push? t u).isSome = true
  reached : ∀ u, after.reached.contains u = true ↔ l.reached.contains u = true ∨
    l.network.active.contains u = false ∧ (l.network.push? t u).isSome = true

/-- A visit that fires no node puts nothing forward. -/
theorem Visited.of_not_fires {after : Layer} (hpush : ∀ u, l.network.push? t u = none)
    (hcutoff : after.network.cutoff = l.network.cutoff)
    (hnodes : ∀ u, after.network.nodes.get? u =
      (l.network.nodes.get? u).map fun m => if u == t then m.visited else m)
    (hactive : after.network.active = l.network.active) (hreached : after.reached = l.reached) :
    Visited l t after where
  cutoff := hcutoff
  nodes u := by
    rw [hnodes, hpush]
    rfl
  active u := by simp [hactive, hpush]
  reached u := by simp [hreached, hpush]

/-- A visit of a tag without a node, or of one whose node has fired, does nothing. -/
theorem Visited.of_fired (h : ∀ n, l.network.nodes.get? t = some n → n.fired = true) :
    Visited l t l := by
  refine .of_not_fires (push?_of_not_fires fun n hn => Node.fires_of_fired (h n hn)) rfl
    (fun u => ?_) rfl rfl
  cases hu : l.network.nodes.get? u with
  | none => rfl
  | some m =>
    by_cases hut : (u == t) = true
    · have hm : m.visited = m :=
        Node.visited_of_fired (h m ((l.network.nodes.get?_congr hut).symm.trans hu))
      simp [hut, hm]
    · simp [hut]

theorem get?_modifyNode_visited {n : Node} (hn : l.network.nodes.get? t = some n) (u : Tag) :
    (l.network.modifyNode t fun _ => n.visited).nodes.get? u =
      (l.network.nodes.get? u).map fun m => if u == t then m.visited else m := by
  rw [get?_modifyNode]
  by_cases hut : (u == t) = true
  · rw [if_pos hut, l.network.nodes.get?_congr hut, hn]
    simp [hut]
  · simp [hut]

theorem visited_visit (l : Layer) (t : Tag) : Visited l t (l.visit t) := by
  by_cases hfired : ∀ n, l.network.nodes.get? t = some n → n.fired = true
  · rw [visit_of_fired hfired]
    exact .of_fired hfired
  · obtain ⟨n, hn, hf⟩ : ∃ n, l.network.nodes.get? t = some n ∧ n.fired = false := by
      simpa using hfired
    have hmodify := get?_modifyNode_visited hn
    rw [visit_of_unfired hn hf]
    cases hfires : n.fires with
    | false =>
      refine .of_not_fires (push?_of_not_fires fun m hm => ?_) rfl hmodify rfl rfl
      rwa [← Option.some.inj (hn.symm.trans hm)]
    | true =>
      have hpush := push?_of_fires hn hfires
      simp only [if_true]
      constructor
      · exact cutoff_propagate ..
      · intro u
        rw [get?_propagate, hmodify, Option.map_map, hpush, Node.offer?_visited]
        rfl
      · intro u
        rw [contains_active_propagate, hpush, Node.offer?_visited]
        rfl
      · intro u
        rw [WorkingSet.contains_insertAll, exists_mem_activatedBy_iff, hpush, Node.offer?_visited]
        rfl

theorem Visited.map_bare {after : Layer} (h : Visited l t after) (u : Tag) :
    (after.network.nodes.get? u).map Node.bare =
      ((l.network.nodes.get? u).map Node.bare).map fun m => if u == t then m.visited else m := by
  rw [h.nodes, Option.map_map, Option.map_map]
  congr 1
  funext m
  show Node.bare (Node.accept _ _) = _
  rw [Node.bare_accept]
  split
  · exact m.bare_visited
  · rfl

/-- A truth is what the visit has put there, or it was there before and the visit has put none
there. -/
theorem Visited.truths {after : Layer} (h : Visited l t after) {m : Node}
    (hm : after.network.nodes.get? u = some m) :
    ∃ m', l.network.nodes.get? u = some m' ∧ ∀ source,
      (∃ p, l.network.push? t u = some p ∧ (source == p.1) = true ∧
        m.truths.get? source = some p.2) ∨
      m.truths.get? source = m'.truths.get? source ∧
        ∀ p, l.network.push? t u = some p → (source == p.1) = false := by
  rw [h.nodes, Option.map_eq_some_iff] at hm
  obtain ⟨m', hm', rfl⟩ := hm
  refine ⟨m', hm', fun source => ?_⟩
  have hvisited : (if u == t then m'.visited else m').truths = m'.truths := by
    split
    · exact m'.truths_visited
    · rfl
  rw [Node.get?_truths_accept, hvisited]
  cases l.network.push? t u with
  | none => exact .inr ⟨rfl, fun p hp => absurd hp.symm (Option.some_ne_none p)⟩
  | some p =>
    simp only
    cases hsource : source == p.1 with
    | true => exact .inl ⟨p, rfl, hsource, if_pos rfl⟩
    | false =>
      refine .inr ⟨if_neg Bool.false_ne_true, fun q hq => ?_⟩
      rwa [← Option.some.inj hq]

/-! ## Layers -/

/-- What a layer has done when it has visited some tags, in terms of the network before. -/
structure After (net : Network) (ts : List Tag) (l : Layer) : Prop where
  cutoff : l.network.cutoff = net.cutoff
  nodes : ∀ u, (l.network.nodes.get? u).map Node.bare =
    (net.nodes.get? u).map fun n => (if ts.any (· == u) then n.visited else n).bare
  active : ∀ u, l.network.active.contains u = true ↔
    net.active.contains u = true ∨ net.PutForwardBy ts u
  reached : ∀ u, l.reached.contains u = true ↔
    net.active.contains u = false ∧ net.PutForwardBy ts u
  /-- A truth is what some visit has put there, or it was there before and no visit has put one
  there. -/
  truths : ∀ u m n, l.network.nodes.get? u = some m → net.nodes.get? u = some n → ∀ source,
    (∃ t ∈ ts, ∃ p, net.push? t u = some p ∧ (source == p.1) = true ∧
      m.truths.get? source = some p.2) ∨
    m.truths.get? source = n.truths.get? source ∧
      ∀ t ∈ ts, ∀ p, net.push? t u = some p → (source == p.1) = false

theorem after_start (net : Network) : After net [] ⟨net, .empty⟩ where
  cutoff := rfl
  nodes u := rfl
  active u := by simp [PutForwardBy]
  reached u := by simp [PutForwardBy, WorkingSet.contains, WorkingSet.empty]
  truths u m n hm hn source := by
    cases hm.symm.trans hn
    exact .inr ⟨rfl, List.forall_mem_nil _⟩

theorem After.isSome_get? {net : Network} {ts : List Tag} (h : After net ts l) (u : Tag) :
    (l.network.nodes.get? u).isSome = (net.nodes.get? u).isSome := by
  have := congrArg Option.isSome (h.nodes u)
  rwa [Option.isSome_map, Option.isSome_map] at this

/-- Where a node after a layer comes from. -/
theorem After.exists_node {net : Network} {ts : List Tag} (h : After net ts l) {m : Node}
    (hm : l.network.nodes.get? u = some m) : ∃ n, net.nodes.get? u = some n ∧
      m.bare = (if ts.any (· == u) then n.visited else n).bare := by
  have hnodes := h.nodes u
  rw [hm, Option.map_some, eq_comm, Option.map_eq_some_iff] at hnodes
  obtain ⟨n, hn, hbare⟩ := hnodes
  exact ⟨n, hn, hbare.symm⟩

/-- What a tag that has not been visited yet puts forward is what it would have before. -/
theorem After.push?_eq {net : Network} {ts : List Tag} (h : After net ts l)
    (ht : ∀ v ∈ ts, (t == v) = false) (u : Tag) : l.network.push? t u = net.push? t u := by
  have hnone : ts.any (· == t) = false :=
    List.any_eq_false.mpr fun v hv => by simp [BEq.comm (a := v), ht v hv]
  rw [push?_eq_bare, push?_eq_bare, h.nodes, hnone, h.cutoff]
  rfl

theorem After.visit {net : Network} {ts : List Tag} (h : After net ts l)
    (ht : ∀ v ∈ ts, (t == v) = false) : After net (ts ++ [t]) (l.visit t) := by
  have hvisited := visited_visit l t
  have hpush := h.push?_eq ht
  have hputs (u : Tag) : net.PutForwardBy (ts ++ [t]) u ↔
      net.PutForwardBy ts u ∨ (l.network.push? t u).isSome = true := by
    rw [hpush, PutForwardBy, PutForwardBy]
    simp [or_and_right, exists_or]
  constructor
  · rw [hvisited.cutoff, h.cutoff]
  · intro u
    rw [hvisited.map_bare, h.nodes, Option.map_map]
    congr 1
    funext n
    have hlast : [t].any (· == u) = (u == t) := by
      rw [List.any_cons, List.any_nil, Bool.or_false, BEq.comm]
    rw [Function.comp_apply, List.any_append, hlast]
    cases hut : u == t with
    | true =>
      have hnone : ts.any (· == u) = false :=
        List.any_eq_false.mpr fun v hv => by simp [BEq.comm (a := v), BEq.congr_left hut, ht v hv]
      rw [hnone, Bool.or_true]
      exact n.bare_visited.symm
    | false =>
      rw [Bool.or_false]
      rfl
  · intro u
    rw [hvisited.active, h.active, hputs, or_assoc]
  · intro u
    rw [hvisited.reached, h.reached, hputs, ← Bool.not_eq_true, ← Bool.not_eq_true, h.active]
    tauto
  · intro u m n hm hn source
    obtain ⟨m', hm', htruths⟩ := hvisited.truths hm
    rw [hpush] at htruths
    -- What the last visit puts there, if anything, wins; else all is as before it.
    rcases htruths source with ⟨p, hp, hwon⟩ | ⟨hsame, hlast⟩
    · exact .inl ⟨t, List.mem_append_right _ (List.mem_singleton_self t), p, hp, hwon⟩
    · rw [hsame]
      rcases h.truths u m' n hm' hn source with ⟨v, hv, hwon⟩ | ⟨hsame', hnone⟩
      · exact .inl ⟨v, List.mem_append_left _ hv, hwon⟩
      · refine .inr ⟨hsame', fun v hv => ?_⟩
        rcases List.mem_append.mp hv with hv | hv
        · exact hnone v hv
        · rwa [List.mem_singleton.mp hv]

/-- What a layer has done that visits distinct tags. -/
theorem after_stimulateAll {net : Network} {ts : List Tag}
    (hdistinct : ts.Pairwise fun t u => (t == u) = false) : After net ts (net.stimulateAll ts) := by
  induction ts using List.reverseRecOn with
  | nil => exact after_start net
  | append_singleton ts t ih =>
    obtain ⟨hts, -, ht⟩ := List.pairwise_append.mp hdistinct
    rw [stimulateAll, List.foldl_append]
    refine (ih hts).visit fun v hv => ?_
    rw [BEq.comm]
    exact ht v hv t (List.mem_singleton_self t)

end Layer

/-- The tags of a set are distinct in whatever order they are tried. -/
theorem TagOrder.distinct_items (o : TagOrder) (s : WorkingSet Tag) :
    (o.items s).Pairwise fun t u => (t == u) = false :=
  (o.perm s).symm.pairwise s.distinct fun h => by rwa [BEq.comm]

theorem TagOrder.any_items (o : TagOrder) (s : WorkingSet Tag) (t : Tag) :
    (o.items s).any (· == t) = s.contains t := (o.perm s).any_eq

theorem TagOrder.exists_mem_items_iff (o : TagOrder) (s : WorkingSet Tag) (t : Tag) :
    (∃ u ∈ o.items s, (u == t) = true) ↔ s.contains t = true := by
  rw [← o.any_items, List.any_eq_true]

end TagReasoner
