import TagReasoner.Proofs.Network.OrderIndependence
import TagReasoner.Proofs.Network.Saturation

/-!
# A breadth-first search does what direct searches do one after the other

A direct search visits all active tags, a layer of a breadth-first search only those that the layer
before made active. Where nodes fire at their first visit, the other active tags are *spent*: their
nodes have fired, and visits of them do nothing (`Layer.After.congr`). So each layer does what one more
direct search does (`Layer.KeepsUp.searchAgain`). The breadth-first search stops after a layer that made
nothing active; then all active tags are spent, and the direct searches that are left do nothing
(`Layer.KeepsUp.foldl_searchAgain`).
-/

namespace TagReasoner

/-! ## Visits that do nothing -/

namespace Layer

open Network

variable {net : Network} {ts us : List Tag} {l : Layer} {t u : Tag}

/-- What one of some visits puts forward, one of others does that include those of nodes that have not
fired. -/
theorem exists_push?_of_unfired (hsub : ∀ t n, net.nodes.get? t = some n → n.fired = false →
      ts.any (· == t) = true → us.any (· == t) = true) (ht : t ∈ ts) {p : Tag × Binary64}
    (hp : net.push? t u = some p) : ∃ v ∈ us, net.push? v u = some p := by
  obtain ⟨n, hn, hfires, -⟩ := push?_eq_some_iff.mp hp
  have hany := hsub t n hn (Node.fired_eq_false_of_fires hfires)
    (List.any_eq_true.mpr ⟨t, ht, BEq.refl t⟩)
  obtain ⟨v, hv, hvt⟩ := List.any_eq_true.mp hany
  exact ⟨v, hv, (net.push?_congr_left hvt u).trans hp⟩

/-- Which nodes that have fired are visited makes no difference. -/
theorem After.congr (h : After net ts l) (htags : ∀ t n, net.nodes.get? t = some n →
      n.fired = false → ts.any (· == t) = us.any (· == t)) : After net us l := by
  have hto (u : Tag) {t : Tag} (ht : t ∈ ts) {p : Tag × Binary64} (hp : net.push? t u = some p) :
      ∃ v ∈ us, net.push? v u = some p :=
    exists_push?_of_unfired (fun t n hn hfired => (htags t n hn hfired ▸ ·)) ht hp
  have hfrom (u : Tag) {t : Tag} (ht : t ∈ us) {p : Tag × Binary64} (hp : net.push? t u = some p) :
      ∃ v ∈ ts, net.push? v u = some p :=
    exists_push?_of_unfired (fun t n hn hfired => (htags t n hn hfired ▸ ·)) ht hp
  have hput (u : Tag) : net.PutForwardBy ts u ↔ net.PutForwardBy us u := by
    simp only [PutForwardBy, Option.isSome_iff_exists]
    constructor
    · rintro ⟨t, ht, p, hp⟩
      obtain ⟨v, hv, hp⟩ := hto u ht hp
      exact ⟨v, hv, p, hp⟩
    · rintro ⟨t, ht, p, hp⟩
      obtain ⟨v, hv, hp⟩ := hfrom u ht hp
      exact ⟨v, hv, p, hp⟩
  constructor
  · exact h.cutoff
  · intro u
    rw [h.nodes]
    cases hn : net.nodes.get? u with
    | none => rfl
    | some n =>
      cases hfired : n.fired with
      | true => simp [Node.visited_of_fired hfired]
      | false => rw [htags u n hn hfired]
  · intro u
    rw [h.active, hput]
  · intro u
    rw [h.reached, hput]
  · intro u m n hm hn source
    rcases h.truths u m n hm hn source with ⟨t, ht, p, hp, hwon⟩ | ⟨hsame, hnone⟩
    · obtain ⟨v, hv, hp⟩ := hto u ht hp
      exact .inl ⟨v, hv, p, hp, hwon⟩
    · refine .inr ⟨hsame, fun t ht p hp => ?_⟩
      obtain ⟨v, hv, hp⟩ := hfrom u ht hp
      exact hnone v hv p hp

end Layer

/-! ## Spent tags -/

/-- The tags of the frontier are active, and all nodes of other active tags have fired. -/
structure Network.Spent (net : Network) (frontier : WorkingSet Tag) : Prop where
  active : ∀ t, frontier.contains t = true → net.active.contains t = true
  fired : ∀ t n, net.active.contains t = true → frontier.contains t = false →
    net.nodes.get? t = some n → n.fired = true

namespace Network

variable {net : Network} {frontier : WorkingSet Tag} {now : Binary64} {o : TagOrder} {l : Layer}

theorem spent_active (net : Network) : net.Spent net.active where
  active _ := id
  fired t n ht hn := by
    rw [ht] at hn
    cases hn

theorem Ready.updateAges (h : net.Ready) (now : Binary64) : (net.updateAges now).Ready := by
  intro t m hm
  obtain ⟨n, hn, rfl⟩ := get?_updateAges_eq_some_iff.mp hm
  exact h t n hn

theorem WellKeyed.updateAges (h : net.WellKeyed) (now : Binary64) : (net.updateAges now).WellKeyed :=
  h.mapNodes (f := fun n => n.updateAge now) rfl fun _ => rfl

theorem Ready.after (h : net.Ready) {ts : List Tag} (hafter : Layer.After net ts l) :
    l.network.Ready := by
  intro t m hm
  obtain ⟨n, hn, hbare⟩ := hafter.exists_node hm
  rw [Node.congr_bare Node.threshold (fun _ => rfl) hbare,
    Node.congr_bare Node.fired (fun _ => rfl) hbare,
    Node.congr_bare Node.activation (fun _ => rfl) hbare]
  split
  · exact ⟨n.kept_visited.threshold.trans_le (h t n hn).1, .inl (h.fired_visited hn)⟩
  · exact h t n hn

/-- A direct search does what a layer does. -/
theorem Spent.after_frontier (h : net.Spent frontier) {o o' : TagOrder}
    (hafter : Layer.After net (o'.items net.active) l) : Layer.After net (o.items frontier) l := by
  refine hafter.congr fun t n hn hfired => ?_
  rw [o.any_items, o'.any_items, Bool.eq_iff_iff]
  refine ⟨fun ht => ?_, h.active t⟩
  by_contra hspent
  rw [h.fired t n ht (Bool.eq_false_iff.mpr hspent) hn] at hfired
  cases hfired

/-- The tags that a layer makes active are the next frontier. -/
theorem Spent.after (h : net.Spent frontier) (hready : net.Ready)
    (hafter : Layer.After net (o.items frontier) l) : l.network.Spent l.reached := by
  constructor
  · intro t ht
    exact (hafter.active t).mpr (.inr ((hafter.reached t).mp ht).2)
  · intro t m ht hspent hm
    have hbefore : net.active.contains t = true := by
      by_contra hinactive
      rw [Bool.not_eq_true] at hinactive
      have hput := ((hafter.active t).mp ht).resolve_left (by simp [hinactive])
      rw [(hafter.reached t).mpr ⟨hinactive, hput⟩] at hspent
      cases hspent
    obtain ⟨n, hn, hbare⟩ := hafter.exists_node hm
    rw [o.any_items] at hbare
    rw [Node.congr_bare Node.fired (fun _ => rfl) hbare]
    split
    next => exact hready.fired_visited hn
    next hfar => exact h.fired t n hbefore (Bool.eq_false_iff.mpr hfar) hn

theorem Spent.saturated (h : net.Spent frontier) (hempty : ∀ t, frontier.contains t = false) :
    net.Saturated :=
  fun t n ht hn => h.fired t n ht (hempty t) hn

theorem Aged.search (h : net.Aged now) (hexpired : net.NoneExpired now) (o : TagOrder) (ply : Nat)
    (s : Strategy) : net.search o now ply s = net.searchWith o ply s := by
  rw [hexpired.search, h.updateAges_eq]

end Network

/-! ## Layer by layer -/

namespace Layer

open Network

/-- The first layer is what direct searches have done at a time, the second one what as many layers of
a breadth-first search have done, with their frontier. -/
structure KeepsUp (now : Binary64) (d l : Layer) (frontier : WorkingSet Tag) : Prop where
  alike : d.Alike l
  keyed : d.network.WellKeyed
  ready : d.network.Ready
  unexpired : d.network.NoneExpired now
  aged : d.network.Aged now
  spent : d.network.Spent frontier

variable {now : Binary64} {d l : Layer} {frontier : WorkingSet Tag}

theorem keepsUp_start {net : Network} (hkeyed : net.WellKeyed) (hready : net.Ready)
    (hexpired : net.NoneExpired now) :
    KeepsUp now ⟨net.updateAges now, .empty⟩ ⟨net.updateAges now, .empty⟩ net.active where
  alike := ⟨.refl _, fun _ => rfl⟩
  keyed := hkeyed.updateAges now
  ready := hready.updateAges now
  unexpired := hexpired.updateAges
  aged := net.aged_updateAges now
  spent := (net.updateAges now).spent_active

/-- One more direct search does what one more layer does. -/
theorem KeepsUp.searchAgain (h : KeepsUp now d l frontier) (ply : Nat) (o o' : TagOrder) :
    let next := l.network.stimulateAll (o.items frontier)
    KeepsUp now (d.searchAgain now ply o') ⟨next.network, l.reached.union next.reached⟩
      next.reached := by
  intro next
  have hnext : After l.network (o.items frontier) next :=
    after_stimulateAll (o.distinct_items frontier)
  have hdirect : After d.network (o.items frontier) (d.network.search o' now ply .direct) := by
    rw [h.aged.search h.unexpired]
    exact h.spent.after_frontier (after_stimulateAll (o'.distinct_items d.network.active))
  have hkeyed := h.keyed.after hdirect
  have hready := h.ready.after hdirect
  have haged := h.aged.after hdirect
  have hunexpired := (h.unexpired.spreadsTo_search o' ply .direct).noneExpired h.unexpired
  have hspent := h.spent.after h.ready hdirect
  have halike := hdirect.alike hnext h.alike.network h.keyed fun _ => rfl
  refine ⟨⟨halike.network, fun u => ?_⟩, hkeyed, hready, hunexpired, haged, ?_⟩
  · show (d.reached.union _).contains u = (l.reached.union next.reached).contains u
    rw [Bool.eq_iff_iff, WorkingSet.contains_union, WorkingSet.contains_union, h.alike.reached,
      halike.reached]
  · refine ⟨fun t ht => hspent.active t ?_, fun t n ht hfar => hspent.fired t n ht ?_⟩
    · rwa [halike.reached]
    · rwa [halike.reached]

/-- Direct searches on a saturated network add nothing. -/
theorem foldl_searchAgain_of_saturated (hsaturated : d.network.Saturated)
    (haged : d.network.Aged now) (hexpired : d.network.NoneExpired now) (ply : Nat)
    (os : List TagOrder) : os.foldl (Layer.searchAgain now ply) d = d := by
  have hagain (o : TagOrder) : d.searchAgain now ply o = d := by
    rw [Layer.searchAgain, hsaturated.search hexpired, haged.updateAges_eq]
    rfl
  induction os with
  | nil => rfl
  | cons o os ih => rw [List.foldl_cons, hagain, ih]

/-- A breadth-first search of as many layers as there are direct searches. -/
theorem KeepsUp.foldl_searchAgain (h : KeepsUp now d l frontier) (ply : Nat) (o : TagOrder)
    (os : List TagOrder) : Layer.Alike (os.foldl (Layer.searchAgain now ply) d)
      (layers o os.length frontier l) := by
  induction os generalizing d l frontier with
  | nil => exact h.alike
  | cons o' os ih =>
    have hnext := h.searchAgain ply o o'
    rw [List.foldl_cons, List.length_cons, layers]
    generalize l.network.stimulateAll (o.items frontier) = next at hnext
    dsimp only at hnext ⊢
    split
    next hempty =>
      -- The breadth-first search ends here, and the direct searches that are left do nothing.
      have hnone := WorkingSet.isEmpty_iff.mp hempty
      rw [foldl_searchAgain_of_saturated (hnext.spent.saturated hnone) hnext.aged hnext.unexpired]
      refine ⟨hnext.alike.network, fun u => ?_⟩
      rw [hnext.alike.reached, Bool.eq_iff_iff, WorkingSet.contains_union, hnone]
      simp
    next => exact ih hnext

end Layer

/-- It makes no difference whether the ages are taken before the first search. -/
theorem Network.NoneExpired.foldl_searchAgain {net : Network} {now : Binary64}
    (h : net.NoneExpired now) (ply : Nat) (os : List TagOrder) :
    os.foldl (Layer.searchAgain now ply) ⟨net.updateAges now, .empty⟩ =
      ⟨(net.searchRepeatedly now ply os).network.updateAges now,
        (net.searchRepeatedly now ply os).reached⟩ := by
  cases os with
  | nil => rfl
  | cons o os =>
    have haged := h.aged_searchRepeatedly ply (List.cons_ne_nil o os)
    have hfirst : Layer.searchAgain now ply ⟨net.updateAges now, .empty⟩ o =
        Layer.searchAgain now ply ⟨net, .empty⟩ o := by
      rw [Layer.searchAgain, Layer.searchAgain, (net.aged_updateAges now).search h.updateAges,
        h.search]
    rw [haged.updateAges_eq, List.foldl_cons, hfirst]
    rfl

/-- A breadth-first search makes the same tags active as direct searches one after the other, as many
as it has layers. Both leave the same active tags, and nodes with the same activation, flags and
truths. -/
theorem searchRepeatedly_eq_breadthFirst {net : Network} {now : Binary64} (hkeyed : net.WellKeyed)
    (hready : net.Ready) (hexpired : net.NoneExpired now) (ply ply' : Nat) (o : TagOrder)
    (os : List TagOrder) :
    let steps := net.searchRepeatedly now ply os
    let once := net.search o now ply' (.breadthFirst (some os.length))
    (∀ u, once.reached.contains u = steps.reached.contains u) ∧
    (∀ u, once.network.active.contains u = steps.network.active.contains u) ∧
    ∀ t, Option.Rel (fun m n : Node =>
        m.activation = n.activation ∧ m.activated = n.activated ∧ m.fired = n.fired ∧
          ∀ source, m.truths.get? source = n.truths.get? source)
      (once.network.nodes.get? t) (steps.network.nodes.get? t) := by
  intro steps once
  have halike : Layer.Alike ⟨steps.network.updateAges now, steps.reached⟩ once := by
    have hsteps := (Layer.keepsUp_start hkeyed hready hexpired).foldl_searchAgain ply o os
    rw [hexpired.foldl_searchAgain] at hsteps
    show Layer.Alike _ (net.search o now ply' (.breadthFirst (some os.length)))
    rw [hexpired.search]
    exact hsteps
  refine ⟨fun u => (halike.reached u).symm, fun u => (halike.network.active u).symm, fun t => ?_⟩
  have hnodes := halike.network.nodes t
  rw [Network.get?_updateAges] at hnodes
  rcases optionRel_iff.mp hnodes with ⟨hn, hm⟩ | ⟨n, m, hn, hm, hnm⟩
  · rw [hm, Option.map_eq_none_iff.mp hn]
    exact .none
  · obtain ⟨n, hn', rfl⟩ := Option.map_eq_some_iff.mp hn
    have hactivation := congrArg Node.activation hnm.bare
    have hactivated := congrArg Node.activated hnm.bare
    have hfired := congrArg Node.fired hnm.bare
    rw [hm, hn']
    exact .some ⟨hactivation.symm, hactivated.symm, hfired.symm,
      fun source => (hnm.truths source).symm⟩

/-- Three layers, of which the last one makes nothing active, and direct searches in changing orders: a
cycle with a self-loop, and a node that had fired before. -/
theorem searchRepeatedly_eq_breadthFirst_cycle :
    let tag (c : Char) : Tag := .fact ⟨[c], [], .certain⟩
    let node (c : Char) (outputs : List (Tag × Binary64)) : Node :=
      .create (tag c) (.ofList outputs) 1 1 (.ofNat 60) (.zero false)
    let one := Binary64.ofNat 1
    let net : Network :=
      { nodes := .ofList [(tag 'A', node 'A' [(tag 'B', one), (tag 'C', one)]),
          (tag 'B', node 'B' [(tag 'A', one), (tag 'B', one), (tag 'D', one)]),
          (tag 'C', { node 'C' [(tag 'E', one)] with fired := true, activation := one })]
        active := .ofList [tag 'A', tag 'F']
        cutoff := .zero false }
    let newestFirst : TagOrder := ⟨fun s => s.items.reverse, fun s => s.items.reverse_perm⟩
    let os := [TagOrder.oldestFirst, newestFirst, TagOrder.oldestFirst]
    net.WellKeyed ∧ net.Ready ∧ net.NoneExpired (.ofNat 5) ∧
      let steps := net.searchRepeatedly (.ofNat 5) 10 os
      let once := net.search newestFirst (.ofNat 5) 10 (.breadthFirst (some os.length))
      (∀ u, once.reached.contains u = steps.reached.contains u) ∧
      (∀ u, once.network.active.contains u = steps.network.active.contains u) ∧
      ∀ t, Option.Rel (fun m n : Node =>
          m.activation = n.activation ∧ m.activated = n.activated ∧ m.fired = n.fired ∧
            ∀ source, m.truths.get? source = n.truths.get? source)
        (once.network.nodes.get? t) (steps.network.nodes.get? t) := by
  intro tag node one net newestFirst os
  have hentries : ∀ e ∈ net.nodes.entries, (e.2.tag == e.1) = true ∧ (e.2.threshold ≤ 1 ∧
      (e.2.fired = true ∨ e.2.activation.equal (.zero false) = true)) ∧
      e.2.hasExpired (.ofNat 5) = false := by
    decide +kernel
  have hkeyed : net.WellKeyed := by
    intro t n hn
    obtain ⟨e, he, het, rfl⟩ := Keyed.get?_eq_some_iff.mp hn
    exact BEq.trans (hentries e he).1 het
  have hready : net.Ready := Keyed.forall_get?_of_entries fun e he => (hentries e he).2.1
  have hexpired : net.NoneExpired (.ofNat 5) :=
    Keyed.forall_get?_of_entries fun e he => (hentries e he).2.2
  exact ⟨hkeyed, hready, hexpired,
    searchRepeatedly_eq_breadthFirst hkeyed hready hexpired 10 10 newestFirst os⟩

end TagReasoner
