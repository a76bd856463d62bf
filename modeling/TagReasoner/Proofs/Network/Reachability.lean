import TagReasoner.Proofs.Binary64.Rounding
import TagReasoner.Proofs.Network.Layer

/-!
# Breadth-first search is bounded reachability

Where every node has fired or fires at its first visit, a network is a graph: the edges lead from the
tags of nodes that have not fired to what these put forward. A breadth-first search goes along one
edge a layer. After `d` layers the tags that are active are those that a path of at most `d` edges
leads to, the frontier is what no shorter path leads to, and the nodes that have fired on the way are
those up to the last frontier but one (`Searched`, `Searched.next`). A layer that makes nothing active
ends the search, and no longer path leads anywhere else then (`near_iff_of_closed`).

Nodes that had fired before are no sources of edges, and tags without nodes are none either.
-/

namespace TagReasoner

/-- A node that has not been stimulated fires at its first visit if one is enough. -/
theorem Node.fires_of_threshold_le_one {n : Node} (hthreshold : n.threshold ≤ 1)
    (hactivation : n.activation.equal (.zero false) = true) (hfired : n.fired = false) :
    n.fires = true := by
  have hone := representable_whole (show 1 < 2 ^ 53 by decide)
  rw [fires_eq, hfired, Binary64.ofNat_of_lt (by decide), Binary64.add_of_equal_zero hactivation]
  · exact (Binary64.reaches_whole hone).mpr hthreshold
  · rw [Nat.one_mul]
    exact unitsPerOne_pos.ne'

namespace Network

/-- Every node has fired, or fires at its first visit. -/
def Ready (net : Network) : Prop :=
  ∀ t n, net.nodes.get? t = some n →
    n.threshold ≤ 1 ∧ (n.fired = true ∨ n.activation.equal (.zero false) = true)

/-- The node of the first tag has not fired and has the second one for an output that is not
weighted below the cutoff. -/
def Edge (net : Network) (t u : Tag) : Prop :=
  ∃ n, net.nodes.get? t = some n ∧ n.fired = false ∧
    ∃ w, n.outputs.get? u = some w ∧ w.below net.cutoff = false

/-- A path of some edges leads from an active tag to the tag. -/
inductive PathTo (net : Network) : Nat → Tag → Prop
  | start {t : Tag} (active : net.active.contains t = true) : PathTo net 0 t
  | step {k : Nat} {t u : Tag} (path : PathTo net k t) (edge : net.Edge t u) : PathTo net (k + 1) u

/-- A path of fewer edges leads to the tag. -/
def Near (net : Network) (d : Nat) (u : Tag) : Prop := ∃ k < d, net.PathTo k u

variable {net : Network} {t u v : Tag} {d : Nat}

/-! ## Paths -/

theorem Edge.congr_left (h : net.Edge t u) (htv : (t == v) = true) : net.Edge v u := by
  obtain ⟨n, hn, hedge⟩ := h
  exact ⟨n, (net.nodes.get?_congr htv).symm.trans hn, hedge⟩

theorem Edge.congr_right (h : net.Edge t u) (huv : (u == v) = true) : net.Edge t v := by
  obtain ⟨n, hn, hfired, w, hw, hcutoff⟩ := h
  exact ⟨n, hn, hfired, w, (n.outputs.get?_congr huv).symm.trans hw, hcutoff⟩

theorem PathTo.congr {k : Nat} (h : net.PathTo k u) (huv : (u == v) = true) : net.PathTo k v := by
  cases h with
  | start hactive => exact .start ((WorkingSet.contains_congr huv).symm.trans hactive)
  | step hpath hedge => exact .step hpath (hedge.congr_right huv)

theorem Near.mono {e : Nat} (h : net.Near d u) (hde : d ≤ e) : net.Near e u := by
  obtain ⟨k, hk, hpath⟩ := h
  exact ⟨k, hk.trans_le hde, hpath⟩

theorem not_near_zero : ¬ net.Near 0 u := by
  rintro ⟨k, hk, -⟩
  exact Nat.not_lt_zero k hk

theorem near_succ_iff :
    net.Near (d + 1) u ↔ net.active.contains u = true ∨ ∃ t, net.Near d t ∧ net.Edge t u := by
  constructor
  · rintro ⟨k, hk, hpath⟩
    cases hpath with
    | start hactive => exact .inl hactive
    | @step k t _ hpath hedge => exact .inr ⟨t, ⟨k, Nat.lt_of_succ_lt_succ hk, hpath⟩, hedge⟩
  · rintro (hactive | ⟨t, ⟨k, hk, hpath⟩, hedge⟩)
    · exact ⟨0, Nat.succ_pos d, .start hactive⟩
    · exact ⟨k + 1, Nat.succ_lt_succ hk, .step hpath hedge⟩

/-- To a tag that is not active, there is no path without edges. -/
theorem near_succ_iff_of_inactive (hu : net.active.contains u = false) :
    net.Near (d + 1) u ↔ ∃ k, 1 ≤ k ∧ k ≤ d ∧ net.PathTo k u := by
  constructor
  · rintro ⟨k, hk, hpath⟩
    refine ⟨k, ?_, Nat.le_of_lt_succ hk, hpath⟩
    cases hpath with
    | start hactive =>
      rw [hu] at hactive
      cases hactive
    | step => exact Nat.succ_pos _
  · rintro ⟨k, -, hk, hpath⟩
    exact ⟨k, Nat.lt_succ_of_le hk, hpath⟩

/-- Where one more edge leads nowhere else, no more edges do. -/
theorem near_iff_of_closed (hclosed : ∀ u, net.Near (d + 1) u → net.Near d u) {e : Nat}
    (hde : d ≤ e) : net.Near e u ↔ net.Near d u := by
  refine ⟨fun h => ?_, fun h => h.mono hde⟩
  induction e, hde using Nat.le_induction generalizing u with
  | base => exact h
  | succ e hde ih =>
    rcases near_succ_iff.mp h with hactive | ⟨t, ht, hedge⟩
    · exact hclosed u (near_succ_iff.mpr (.inl hactive))
    · exact hclosed u (near_succ_iff.mpr (.inr ⟨t, ih ht, hedge⟩))

theorem edge_iff {n : Node} (hn : net.nodes.get? t = some n) :
    net.Edge t u ↔ n.fired = false ∧ (n.offer? net.cutoff u).isSome = true := by
  rw [isSome_offer?_iff_get?]
  constructor
  · rintro ⟨m, hm, hedge⟩
    cases hn.symm.trans hm
    exact hedge
  · rintro ⟨hfired, hedge⟩
    exact ⟨n, hn, hfired, hedge⟩

/-- A visit puts forward what edges lead to. -/
theorem Ready.isSome_push?_iff (hready : net.Ready) :
    (net.push? t u).isSome = true ↔ net.Edge t u := by
  cases hn : net.nodes.get? t with
  | none =>
    rw [push?, hn]
    refine iff_of_false Bool.false_ne_true ?_
    rintro ⟨n, hn', -⟩
    cases hn.symm.trans hn'
  | some n =>
    obtain ⟨hthreshold, hstate⟩ := hready t n hn
    rw [edge_iff hn, push?, hn, Option.bind_some]
    cases hfired : n.fired with
    | true =>
      rw [Node.fires_of_fired hfired]
      simp
    | false =>
      have hactivation := hstate.resolve_left (Bool.eq_false_iff.mp hfired)
      rw [Node.fires_of_threshold_le_one hthreshold hactivation hfired]
      simp

/-- A node has fired once it was visited. -/
theorem Ready.fired_visited (hready : net.Ready) {n : Node} (hn : net.nodes.get? t = some n) :
    n.visited.fired = true := by
  obtain ⟨hthreshold, hstate⟩ := hready t n hn
  cases hfired : n.fired with
  | true => rwa [Node.visited_of_fired hfired]
  | false =>
    have hactivation := hstate.resolve_left (Bool.eq_false_iff.mp hfired)
    exact Node.fired_visited_of_fires
      (Node.fires_of_threshold_le_one hthreshold hactivation hfired)

/-! ## Layers -/

open Classical in
/-- The state of a search after some layers. -/
structure Searched (net : Network) (d : Nat) (l : Layer) : Prop where
  cutoff : l.network.cutoff = net.cutoff
  nodes : ∀ t, (l.network.nodes.get? t).map Node.bare =
    (net.nodes.get? t).map fun n => (if net.Near d t then n.visited else n).bare
  active : ∀ u, l.network.active.contains u = true ↔ net.Near (d + 1) u
  reached : ∀ u, l.reached.contains u = true ↔
    net.active.contains u = false ∧ net.Near (d + 1) u

/-- What no shorter path leads to. -/
def IsFrontier (net : Network) (d : Nat) (s : WorkingSet Tag) : Prop :=
  ∀ u, s.contains u = true ↔ net.Near (d + 1) u ∧ ¬ net.Near d u

variable {l : Layer} {frontier : WorkingSet Tag} {o : TagOrder}

theorem searched_start (net : Network) : Searched net 0 ⟨net, .empty⟩ where
  cutoff := rfl
  nodes t := by
    congr 1
    funext n
    rw [if_neg not_near_zero]
  active u := by
    rw [near_succ_iff]
    simp [not_near_zero]
  reached u := by
    rw [near_succ_iff]
    simp [not_near_zero, WorkingSet.contains, WorkingSet.empty]

theorem isFrontier_active (net : Network) : net.IsFrontier 0 net.active := by
  intro u
  rw [near_succ_iff]
  simp [not_near_zero]

/-- A layer goes along the edges that lead out of the frontier. -/
theorem Searched.putForwardBy_iff (hready : net.Ready) (h : Searched net d l)
    (hfrontier : net.IsFrontier d frontier) : l.network.PutForwardBy (o.items frontier) u ↔
      ∃ t, frontier.contains t = true ∧ net.Edge t u := by
  have hpush : ∀ t, frontier.contains t = true → l.network.push? t u = net.push? t u := by
    intro t ht
    rw [push?_eq_bare, push?_eq_bare, h.nodes, h.cutoff]
    simp only [if_neg ((hfrontier t).mp ht).2]
  constructor
  · rintro ⟨t, ht, hsome⟩
    have hcontains := (o.exists_mem_items_iff frontier t).mp ⟨t, ht, BEq.refl t⟩
    rw [hpush t hcontains] at hsome
    exact ⟨t, hcontains, hready.isSome_push?_iff.mp hsome⟩
  · rintro ⟨t, ht, hedge⟩
    obtain ⟨v, hv, hvt⟩ := (o.exists_mem_items_iff frontier t).mpr ht
    refine ⟨v, hv, ?_⟩
    rw [hpush v ((WorkingSet.contains_congr hvt).trans ht)]
    exact hready.isSome_push?_iff.mpr (hedge.congr_left (BEq.symm hvt))

/-- A tag is near by one more edge if it was near, or if an edge leads there from the frontier. -/
theorem near_succ_succ_iff (hfrontier : net.IsFrontier d frontier) : net.Near (d + 2) u ↔
    net.Near (d + 1) u ∨ ∃ t, frontier.contains t = true ∧ net.Edge t u := by
  constructor
  · intro h
    rcases near_succ_iff.mp h with hactive | ⟨t, ht, hedge⟩
    · exact .inl (near_succ_iff.mpr (.inl hactive))
    · by_cases hnear : net.Near d t
      · exact .inl (near_succ_iff.mpr (.inr ⟨t, hnear, hedge⟩))
      · exact .inr ⟨t, (hfrontier t).mpr ⟨ht, hnear⟩, hedge⟩
  · rintro (h | ⟨t, ht, hedge⟩)
    · exact h.mono (Nat.le_succ _)
    · exact near_succ_iff.mpr (.inr ⟨t, ((hfrontier t).mp ht).1, hedge⟩)

open Classical in
/-- The frontier is visited now, and what is nearer was visited before. -/
theorem Searched.map_bare_after (h : Searched net d l) (hfrontier : net.IsFrontier d frontier)
    {next : Layer} (hafter : Layer.After l.network (o.items frontier) next) (t : Tag) :
    (next.network.nodes.get? t).map Node.bare =
      (net.nodes.get? t).map fun n => (if net.Near (d + 1) t then n.visited else n).bare := by
  have hbare : (next.network.nodes.get? t).map Node.bare =
      ((l.network.nodes.get? t).map Node.bare).map fun n =>
        if frontier.contains t then n.visited else n := by
    rw [hafter.nodes, o.any_items, Option.map_map]
    congr 1
    funext n
    rw [Function.comp_apply]
    split
    · exact n.bare_visited
    · rfl
  rw [hbare, h.nodes, Option.map_map]
  congr 1
  funext n
  rw [Function.comp_apply]
  by_cases ht : frontier.contains t = true
  · obtain ⟨hnear, hfar⟩ := (hfrontier t).mp ht
    rw [if_pos ht, if_neg hfar, if_pos hnear, n.bare_visited]
  · have hnear : net.Near (d + 1) t ↔ net.Near d t := by
      refine ⟨fun hnear => ?_, fun hnear => hnear.mono (Nat.le_succ d)⟩
      by_contra hfar
      exact ht ((hfrontier t).mpr ⟨hnear, hfar⟩)
    rw [if_neg ht]
    exact congrArg Node.bare (if_congr hnear rfl rfl).symm

/-- One layer more. -/
theorem Searched.next (hready : net.Ready) (h : Searched net d l)
    (hfrontier : net.IsFrontier d frontier) :
    Searched net (d + 1) ⟨(l.network.stimulateAll (o.items frontier)).network,
        l.reached.union (l.network.stimulateAll (o.items frontier)).reached⟩ ∧
      net.IsFrontier (d + 1) (l.network.stimulateAll (o.items frontier)).reached := by
  have hafter : Layer.After l.network _ (l.network.stimulateAll (o.items frontier)) :=
    Layer.after_stimulateAll (o.distinct_items frontier)
  generalize l.network.stimulateAll (o.items frontier) = next at hafter
  have hput (u : Tag) : l.network.active.contains u = true ∨
      l.network.PutForwardBy (o.items frontier) u ↔ net.Near (d + 2) u := by
    rw [h.active, h.putForwardBy_iff hready hfrontier, near_succ_succ_iff hfrontier]
  have hnext : net.IsFrontier (d + 1) next.reached := by
    intro u
    rw [hafter.reached, ← hput, ← h.active, ← Bool.not_eq_true]
    tauto
  have hbare := h.map_bare_after hfrontier hafter
  refine ⟨⟨hafter.cutoff.trans h.cutoff, hbare, fun u => ?_, fun u => ?_⟩, hnext⟩
  · exact (hafter.active u).trans (hput u)
  · have hactive : net.active.contains u = true → net.Near (d + 1) u :=
      fun hactive => near_succ_iff.mpr (.inl hactive)
    have hmono : net.Near (d + 1) u → net.Near (d + 2) u := fun hnear => hnear.mono (Nat.le_succ _)
    rw [WorkingSet.contains_union, h.reached, hnext, ← Bool.not_eq_true]
    tauto

open Classical in
/-- A search from some layers on. -/
theorem Searched.layers (hready : net.Ready) (ply : Nat) (h : Searched net d l)
    (hfrontier : net.IsFrontier d frontier) :
    Searched net (d + ply) (layers o ply frontier l) := by
  induction ply generalizing d l frontier with
  | zero => exact h
  | succ ply ih =>
    obtain ⟨hnext, hfrontier'⟩ := h.next (o := o) hready hfrontier
    rw [Network.layers]
    split
    next hempty =>
      -- Nothing is at the next distance, so nothing is farther away.
      have hclosed (u : Tag) (hnear : net.Near (d + 2) u) : net.Near (d + 1) u := by
        by_contra hfar
        have hcontains := (hfrontier' u).mpr ⟨hnear, hfar⟩
        rw [WorkingSet.isEmpty_iff.mp hempty u] at hcontains
        cases hcontains
      have hnear (e : Nat) (hde : d + 1 ≤ e) (u : Tag) : net.Near e u ↔ net.Near (d + 1) u :=
        near_iff_of_closed hclosed hde
      refine ⟨hnext.cutoff, fun t => (hnext.nodes t).trans ?_, fun u => ?_, fun u => ?_⟩
      · congr 1
        funext n
        exact congrArg Node.bare (if_congr (hnear _ (by omega) t).symm rfl rfl)
      · rw [hnext.active, hnear (d + 1 + 1) (by omega), hnear (d + (ply + 1) + 1) (by omega)]
      · rw [h.reached, hnear (d + (ply + 1) + 1) (by omega)]
    next =>
      rw [← Nat.add_assoc, Nat.add_right_comm]
      exact ih hnext hfrontier'

/-- The nodes that have fired after some layers. -/
theorem Searched.rel_fired (hready : net.Ready) (h : Searched net d l) (t : Tag) :
    Option.Rel (fun n n' : Node => n'.fired = true ↔ n.fired = true ∨ net.Near d t)
      (net.nodes.get? t) (l.network.nodes.get? t) := by
  have hnodes := h.nodes t
  cases hn : net.nodes.get? t with
  | none =>
    rw [hn, Option.map_none, Option.map_eq_none_iff] at hnodes
    rw [hnodes]
    exact .none
  | some n =>
    rw [hn, Option.map_some, Option.map_eq_some_iff] at hnodes
    obtain ⟨n', hn', hbare⟩ := hnodes
    rw [hn']
    have hfired := congrArg Node.fired hbare
    refine .some ?_
    by_cases hnear : net.Near d t
    · rw [if_pos hnear] at hfired
      exact iff_of_true (hfired.trans (hready.fired_visited hn)) (.inr hnear)
    · rw [if_neg hnear] at hfired
      change n'.fired = n.fired at hfired
      rw [hfired, or_iff_left hnear]

/-- What a breadth-first search does to a network whose nodes are ready. -/
theorem Ready.searched (hready : net.Ready) (o : TagOrder) (ply : Nat) :
    Searched net ply (net.breadthFirstSearch o ply) := by
  have h := (searched_start net).layers (o := o) hready ply (isFrontier_active net)
  rwa [Nat.zero_add] at h

end Network

/-- A breadth-first search answers with the tags that were not active and that a path of at least
one edge and at most as many as there are layers leads to. It makes just these active, and the nodes
that fire are those that had not and that a path of fewer edges leads to. -/
theorem breadthFirst_reaches_bounded {net : Network} (hready : net.Ready) (o : TagOrder)
    (ply p : Nat) :
    let after := net.searchWith o ply (.breadthFirst (some p))
    (∀ u, after.reached.contains u = true ↔
      net.active.contains u = false ∧ ∃ k, 1 ≤ k ∧ k ≤ p ∧ net.PathTo k u) ∧
    (∀ u, after.network.active.contains u = true ↔
      net.active.contains u = true ∨ after.reached.contains u = true) ∧
    ∀ t, Option.Rel (fun n n' : Node =>
        n'.fired = true ↔ n.fired = true ∨ ∃ k < p, net.PathTo k t)
      (net.nodes.get? t) (after.network.nodes.get? t) := by
  intro after
  have hsearched : Network.Searched net p after := hready.searched o p
  have hactive (u : Tag) : net.active.contains u = true → net.Near (p + 1) u :=
    fun hu => Network.near_succ_iff.mpr (.inl hu)
  refine ⟨fun u => ?_, fun u => ?_, fun t => ?_⟩
  · rw [hsearched.reached]
    exact and_congr_right fun hu => Network.near_succ_iff_of_inactive hu
  · have := hactive u
    rw [hsearched.active, hsearched.reached, ← Bool.not_eq_true]
    tauto
  · exact hsearched.rel_fired hready t

/-- A cycle, a node that has fired before, an output below the cutoff, and an active tag without a
node. -/
theorem breadthFirst_reaches_bounded_cycle :
    let tag (c : Char) : Tag := .fact ⟨[c], [], .certain⟩
    let node (c : Char) (outputs : List (Tag × Binary64)) : Node :=
      .create (tag c) (.ofList outputs) 1 1 (.ofNat 60) (.zero false)
    let one := Binary64.ofNat 1
    let net : Network :=
      { nodes := .ofList [(tag 'A', node 'A' [(tag 'B', one), (tag 'C', one)]),
          (tag 'B', node 'B' [(tag 'A', one), (tag 'D', one), (tag 'E', one.neg)]),
          (tag 'C', { node 'C' [(tag 'F', one)] with fired := true, activation := one })]
        active := .ofList [tag 'A', tag 'G']
        cutoff := .zero false }
    net.Ready ∧
      let after := net.searchWith .oldestFirst 10 (.breadthFirst (some (2 : Nat)))
      (∀ u, after.reached.contains u = true ↔
        net.active.contains u = false ∧ ∃ k, 1 ≤ k ∧ k ≤ 2 ∧ net.PathTo k u) ∧
      (∀ u, after.network.active.contains u = true ↔
        net.active.contains u = true ∨ after.reached.contains u = true) ∧
      ∀ t, Option.Rel (fun n n' : Node =>
          n'.fired = true ↔ n.fired = true ∨ ∃ k < 2, net.PathTo k t)
        (net.nodes.get? t) (after.network.nodes.get? t) := by
  intro tag node one net
  have hentries : ∀ e ∈ net.nodes.entries, e.2.threshold ≤ 1 ∧
      (e.2.fired = true ∨ e.2.activation.equal (.zero false) = true) := by
    decide +kernel
  have hready : net.Ready := by
    intro t n hn
    obtain ⟨e, he, -, rfl⟩ := Keyed.get?_eq_some_iff.mp hn
    exact hentries e he
  exact ⟨hready, breadthFirst_reaches_bounded hready .oldestFirst 10 2⟩

end TagReasoner
