import TagReasoner.Proofs.Network.WellKeyed

/-!
# The order in which tags are tried makes no difference

Two networks are alike when they differ in nothing but the order of what they hold and in the beliefs
of nodes, which are sums of doubles and do depend on it. A layer is the same on networks that are
alike, in whatever order it visits the tags (`Layer.After.alike`): what a visit puts forward does not
depend on the visits before it, and two visits do not record truths under one tag, as nodes are stored
under their own tags. So a whole search leaves networks that are alike and makes the same tags active
(`Network.Alike.searchWith`).
-/

namespace TagReasoner

/-- The nodes are the same but for the order of the truths, and the belief. -/
structure Node.Alike (m n : Node) : Prop where
  bare : m.bare = n.bare
  truths : ∀ source, m.truths.get? source = n.truths.get? source

/-- The networks have the same active tags, and nodes that are alike under the same tags. -/
structure Network.Alike (a b : Network) : Prop where
  cutoff : a.cutoff = b.cutoff
  active : ∀ u, a.active.contains u = b.active.contains u
  nodes : ∀ u, Option.Rel Node.Alike (a.nodes.get? u) (b.nodes.get? u)

/-- The networks are alike, and the same tags were made active. -/
structure Layer.Alike (a b : Layer) : Prop where
  network : a.network.Alike b.network
  reached : ∀ u, a.reached.contains u = b.reached.contains u

/-- The same tags stand in both lists, up to equality. -/
def SameTags (ts us : List Tag) : Prop := ∀ u, ts.any (· == u) = us.any (· == u)

namespace Network

variable {a b : Network} {ts us : List Tag} {t u v : Tag}

theorem Alike.refl (net : Network) : net.Alike net where
  cutoff := rfl
  active _ := rfl
  nodes u := by
    cases net.nodes.get? u with
    | none => exact .none
    | some n => exact .some ⟨rfl, fun _ => rfl⟩

theorem Alike.symm (h : a.Alike b) : b.Alike a where
  cutoff := h.cutoff.symm
  active u := (h.active u).symm
  nodes u := by
    rcases optionRel_iff.mp (h.nodes u) with ⟨ha, hb⟩ | ⟨m, n, ha, hb, halike⟩
    · exact optionRel_iff.mpr (.inl ⟨hb, ha⟩)
    · have hsymm : n.Alike m := ⟨halike.bare.symm, fun source => (halike.truths source).symm⟩
      exact optionRel_iff.mpr (.inr ⟨n, m, hb, ha, hsymm⟩)

/-! ## What visits put forward -/

theorem push?_congr_left (net : Network) (h : (t == v) = true) (u : Tag) :
    net.push? t u = net.push? v u := by
  rw [push?, push?, net.nodes.get?_congr h]

theorem Alike.map_bare (h : a.Alike b) (t : Tag) :
    (a.nodes.get? t).map Node.bare = (b.nodes.get? t).map Node.bare := by
  rcases optionRel_iff.mp (h.nodes t) with ⟨ha, hb⟩ | ⟨m, n, ha, hb, halike⟩
  · rw [ha, hb]
  · rw [ha, hb, Option.map_some, Option.map_some, halike.bare]

theorem Alike.isSome_get? (h : a.Alike b) (t : Tag) :
    (a.nodes.get? t).isSome = (b.nodes.get? t).isSome := by
  have hsome := congrArg Option.isSome (h.map_bare t)
  rwa [Option.isSome_map, Option.isSome_map] at hsome

theorem Alike.exists_node (h : a.Alike b) {n : Node} (hn : a.nodes.get? t = some n) :
    ∃ n', b.nodes.get? t = some n' ∧ n.Alike n' := by
  rcases optionRel_iff.mp (h.nodes t) with ⟨ha, -⟩ | ⟨m, n', ha, hb, halike⟩
  · cases hn.symm.trans ha
  · cases hn.symm.trans ha
    exact ⟨n', hb, halike⟩

theorem Alike.push?_eq (h : a.Alike b) (t u : Tag) : a.push? t u = b.push? t u := by
  rw [push?_eq_bare, push?_eq_bare, h.map_bare, h.cutoff]

theorem Alike.exists_push? (h : a.Alike b) (htags : SameTags ts us) (ht : t ∈ ts)
    {p : Tag × Binary64} (hp : a.push? t u = some p) : ∃ v ∈ us, b.push? v u = some p := by
  have hany : ts.any (· == t) = true := List.any_eq_true.mpr ⟨t, ht, BEq.refl t⟩
  rw [htags t] at hany
  obtain ⟨v, hv, hvt⟩ := List.any_eq_true.mp hany
  refine ⟨v, hv, ?_⟩
  rwa [b.push?_congr_left hvt, ← h.push?_eq]

theorem Alike.putForwardBy (h : a.Alike b) (htags : SameTags ts us)
    (hput : a.PutForwardBy ts u) : b.PutForwardBy us u := by
  obtain ⟨t, ht, hsome⟩ := hput
  obtain ⟨p, hp⟩ := Option.isSome_iff_exists.mp hsome
  obtain ⟨v, hv, hpush⟩ := h.exists_push? htags ht hp
  exact ⟨v, hv, by rw [hpush]; rfl⟩

theorem Alike.putForwardBy_iff (h : a.Alike b) (htags : SameTags ts us) (u : Tag) :
    a.PutForwardBy ts u ↔ b.PutForwardBy us u :=
  ⟨h.putForwardBy htags, h.symm.putForwardBy fun u => (htags u).symm⟩

/-- A truth comes from the tag that was visited. -/
theorem WellKeyed.beq_of_push? (h : a.WellKeyed) {p : Tag × Binary64}
    (hp : a.push? t u = some p) : (p.1 == t) = true := by
  obtain ⟨n, hn, hoffer⟩ := Option.bind_eq_some_iff.mp hp
  split at hoffer
  · obtain ⟨e, -, -, -, rfl⟩ := offer?_eq_some_iff.mp hoffer
    exact h t n hn
  · cases hoffer

/-- Truths from one tag are one truth. -/
theorem WellKeyed.push?_unique (h : a.WellKeyed) {p q : Tag × Binary64}
    (hp : a.push? t u = some p) (hq : a.push? v u = some q) (hpq : (p.1 == q.1) = true) : p = q := by
  have htv : (t == v) = true :=
    BEq.trans (BEq.symm (h.beq_of_push? hp)) (BEq.trans hpq (h.beq_of_push? hq))
  rw [a.push?_congr_left htv] at hp
  exact Option.some.inj (hp.symm.trans hq)

end Network

/-! ## Layers -/

namespace Layer

open Network

variable {a b : Network} {ts us : List Tag} {l l' : Layer}

/-- A truth is what some visit has put there in both layers, or was there before both. -/
theorem After.truths_eq (hl : After a ts l) (hl' : After b us l') (hab : a.Alike b)
    (hkeyed : a.WellKeyed) (htags : SameTags ts us) {u : Tag} {m m' n n' : Node}
    (hm : l.network.nodes.get? u = some m) (hn : a.nodes.get? u = some n)
    (hm' : l'.network.nodes.get? u = some m') (hn' : b.nodes.get? u = some n')
    (halike : n.Alike n') (source : Tag) : m.truths.get? source = m'.truths.get? source := by
  rcases hl.truths u m n hm hn source with ⟨t, ht, p, hp, hsource, hwon⟩ | ⟨hsame, hnone⟩ <;>
    rcases hl'.truths u m' n' hm' hn' source with ⟨v, hv, q, hq, hsource', hwon'⟩ | ⟨hsame', hnone'⟩
  · rw [← hab.push?_eq] at hq
    rw [hwon, hwon', hkeyed.push?_unique hp hq (BEq.trans (BEq.symm hsource) hsource')]
  · obtain ⟨v, hv, hpush⟩ := hab.exists_push? htags ht hp
    rw [hnone' v hv p hpush] at hsource
    cases hsource
  · obtain ⟨t, ht, hpush⟩ := hab.symm.exists_push? (fun u => (htags u).symm) hv hq
    rw [hnone t ht q hpush] at hsource'
    cases hsource'
  · rw [hsame, hsame', halike.truths]

/-- A layer is the same on networks that are alike, in whatever order it visits the tags. -/
theorem After.alike (hl : After a ts l) (hl' : After b us l') (hab : a.Alike b)
    (hkeyed : a.WellKeyed) (htags : SameTags ts us) : l.Alike l' := by
  have hput := hab.putForwardBy_iff htags
  refine ⟨⟨?_, fun u => ?_, fun u => ?_⟩, fun u => ?_⟩
  · rw [hl.cutoff, hl'.cutoff, hab.cutoff]
  · rw [Bool.eq_iff_iff, hl.active, hl'.active, hab.active, hput]
  · have hsome : (l'.network.nodes.get? u).isSome = (l.network.nodes.get? u).isSome := by
      rw [hl.isSome_get?, hl'.isSome_get?, hab.isSome_get?]
    cases hm : l.network.nodes.get? u with
    | none =>
      rw [hm, Option.isSome_none, Option.isSome_eq_false_iff, Option.isNone_iff_eq_none] at hsome
      rw [hsome]
      exact .none
    | some m =>
      rw [hm, Option.isSome_some] at hsome
      obtain ⟨m', hm'⟩ := Option.isSome_iff_exists.mp hsome
      obtain ⟨n, hn, hbare⟩ := hl.exists_node hm
      obtain ⟨n', hn', hbare'⟩ := hl'.exists_node hm'
      have halike : n.Alike n' := by
        obtain ⟨k, hk, halike⟩ := hab.exists_node hn
        rwa [Option.some.inj (hn'.symm.trans hk)]
      rw [hm']
      refine .some ⟨?_, hl.truths_eq hl' hab hkeyed htags hm hn hm' hn' halike⟩
      rw [hbare, hbare', htags u]
      split
      · rw [n.bare_visited, n'.bare_visited, halike.bare]
      · exact halike.bare
  · rw [Bool.eq_iff_iff, hl.reached, hl'.reached, hab.active, hput]

end Layer

/-! ## Searches -/

/-- Sets with the same tags, in any two orders. -/
theorem sameTags_items {s s' : WorkingSet Tag} (h : ∀ u, s.contains u = s'.contains u)
    (o o' : TagOrder) : SameTags (o.items s) (o'.items s') := by
  intro u
  rw [o.any_items, o'.any_items, h]

theorem Network.Alike.stimulateAll {a b : Network} (hab : a.Alike b) (hkeyed : a.WellKeyed)
    {s s' : WorkingSet Tag} (h : ∀ u, s.contains u = s'.contains u) (o o' : TagOrder) :
    (a.stimulateAll (o.items s)).Alike (b.stimulateAll (o'.items s')) :=
  (Layer.after_stimulateAll (o.distinct_items s)).alike
    (Layer.after_stimulateAll (o'.distinct_items s')) hab hkeyed (sameTags_items h o o')

/-- From layers that are alike and the same frontier, searches go on alike. -/
theorem Layer.Alike.layers (o o' : TagOrder) (ply : Nat) {l l' : Layer} {s s' : WorkingSet Tag}
    (h : l.Alike l') (hkeyed : l.network.WellKeyed) (hs : ∀ u, s.contains u = s'.contains u) :
    (Network.layers o ply s l).Alike (Network.layers o' ply s' l') := by
  induction ply generalizing l l' s s' with
  | zero => exact h
  | succ ply ih =>
    have hnext := h.network.stimulateAll hkeyed hs o o'
    have hempty : (l.network.stimulateAll (o.items s)).reached.isEmpty =
        (l'.network.stimulateAll (o'.items s')).reached.isEmpty := by
      rw [Bool.eq_iff_iff, WorkingSet.isEmpty_iff, WorkingSet.isEmpty_iff]
      simp only [hnext.reached]
    rw [Network.layers, Network.layers, hempty]
    split
    · exact ⟨hnext.network, h.reached⟩
    · refine ih ⟨hnext.network, fun u => ?_⟩ (hkeyed.stimulateAll o s) hnext.reached
      rw [Bool.eq_iff_iff, WorkingSet.contains_union, WorkingSet.contains_union, h.reached,
        hnext.reached]

/-- Searches in any two orders leave networks that are alike and make the same tags active. -/
theorem Network.WellKeyed.searchWith_alike {net : Network} (h : net.WellKeyed) (o o' : TagOrder)
    (ply : Nat) (s : Strategy) : (net.searchWith o ply s).Alike (net.searchWith o' ply s) := by
  have hnet := Network.Alike.refl net
  cases s with
  | direct => exact hnet.stimulateAll h (fun _ => rfl) o o'
  | breadthFirst depth =>
    have hstart : Layer.Alike ⟨net, .empty⟩ ⟨net, .empty⟩ := ⟨hnet, fun _ => rfl⟩
    exact hstart.layers o o' _ h fun _ => rfl

/-- In whatever order a search tries the active tags and those of each frontier, it makes the same
tags active, and leaves the same active tags and nodes with the same activation, flags and truths. -/
theorem searchWith_order_independent {net : Network} (hkeyed : net.WellKeyed) (o o' : TagOrder)
    (ply : Nat) (s : Strategy) :
    let first := net.searchWith o ply s
    let second := net.searchWith o' ply s
    (∀ u, first.reached.contains u = second.reached.contains u) ∧
    (∀ u, first.network.active.contains u = second.network.active.contains u) ∧
    ∀ t, Option.Rel (fun m n : Node =>
        m.activation = n.activation ∧ m.activated = n.activated ∧ m.fired = n.fired ∧
          ∀ source, m.truths.get? source = n.truths.get? source)
      (first.network.nodes.get? t) (second.network.nodes.get? t) := by
  intro first second
  have halike : first.Alike second := hkeyed.searchWith_alike o o' ply s
  refine ⟨halike.reached, halike.network.active, fun t => ?_⟩
  rcases optionRel_iff.mp (halike.network.nodes t) with ⟨hm, hn⟩ | ⟨m, n, hm, hn, hmn⟩
  · rw [hm, hn]
    exact .none
  · have hactivation := congrArg Node.activation hmn.bare
    have hactivated := congrArg Node.activated hmn.bare
    have hfired := congrArg Node.fired hmn.bare
    rw [hm, hn]
    exact .some ⟨hactivation, hactivated, hfired, hmn.truths⟩

/-- Two nodes of one layer put weights on each other, on themselves and on a third one, which fires in
the next layer. -/
theorem searchWith_order_independent_crossed :
    let tag (c : Char) : Tag := .fact ⟨[c], [], .certain⟩
    let node (c : Char) (outputs : List (Tag × Binary64)) : Node :=
      .create (tag c) (.ofList outputs) 1 1 (.ofNat 60) (.zero false)
    let one := Binary64.ofNat 1
    let net : Network :=
      { nodes := .ofList [(tag 'A', node 'A' [(tag 'B', one), (tag 'C', one)]),
          (tag 'B', node 'B' [(tag 'A', one), (tag 'B', .nan), (tag 'C', .zero true)]),
          (tag 'C', { node 'C' [(tag 'A', one)] with threshold := 2, activation := one })]
        active := .ofList [tag 'A', tag 'B']
        cutoff := .zero false }
    let newestFirst : TagOrder := ⟨fun s => s.items.reverse, fun s => s.items.reverse_perm⟩
    net.WellKeyed ∧
      let first := net.searchWith .oldestFirst 10 (.breadthFirst none)
      let second := net.searchWith newestFirst 10 (.breadthFirst none)
      (∀ u, first.reached.contains u = second.reached.contains u) ∧
      (∀ u, first.network.active.contains u = second.network.active.contains u) ∧
      ∀ t, Option.Rel (fun m n : Node =>
          m.activation = n.activation ∧ m.activated = n.activated ∧ m.fired = n.fired ∧
            ∀ source, m.truths.get? source = n.truths.get? source)
        (first.network.nodes.get? t) (second.network.nodes.get? t) := by
  intro tag node one net newestFirst
  have hentries : ∀ e ∈ net.nodes.entries, (e.2.tag == e.1) = true := by decide +kernel
  have hkeyed : net.WellKeyed := by
    intro t n hn
    obtain ⟨e, he, het, rfl⟩ := Keyed.get?_eq_some_iff.mp hn
    exact BEq.trans (hentries e he) het
  exact ⟨hkeyed, searchWith_order_independent hkeyed .oldestFirst newestFirst 10 (.breadthFirst none)⟩

end TagReasoner
