import TagReasoner.Proofs.Binary64.Rounding
import TagReasoner.Proofs.Network.Reachability
import TagReasoner.Proofs.Network.Spreading
import Mathlib.Algebra.Order.BigOperators.Group.List

/-!
# Repeated direct searches saturate

A direct search may make nothing active and still bring nodes nearer to their thresholds, so an empty
answer is not the end of a sequence of searches. What tells the end is the number of visits that nodes
still need (`Network.visitsLeft`). A search lowers it unless all nodes of active tags have fired
(`Counting.visitsLeft_search_lt`), and it starts at no more than the largest threshold for each node
(`visitsLeft_le`). Once all nodes of active tags have fired the network is saturated, and no search does
anything (`Saturated.search`). Then the active tags are closed under the edges of the first network
(`SpreadsTo.active_of_pathTo`), and they never were anything else but tags that paths lead to
(`NoneExpired.exists_pathTo`).
-/

namespace TagReasoner

/-! ## Visits that a node needs -/

namespace Node

/-- How many visits the node needs at most until it has fired, if its threshold is at most `T`. -/
def visitsLeft (T : Nat) (n : Node) : Nat :=
  if n.fired then 0 else max 1 (T - (n.activation.whole?.getD 0).toNat)

/-- The threshold of the node is at most `T`, and it counts visits without loss until it fires. -/
structure Counting (T : Nat) (n : Node) : Prop where
  threshold : n.threshold ≤ T
  activation : n.fired = false → ∃ a, a + 1 < 2 ^ 53 ∧ n.activation.equal (.ofNat a) = true

variable {T : Nat} {n : Node}

theorem fired_of_visitsLeft_eq_zero (h : n.visitsLeft T = 0) : n.fired = true := by
  rw [visitsLeft] at h
  split at h
  next hfired => exact hfired
  next => omega

theorem visitsLeft_le (hT : 1 ≤ T) (n : Node) : n.visitsLeft T ≤ T := by
  rw [visitsLeft]
  split <;> omega

/-- A visit of a node that has not fired is counted. -/
theorem Counting.visited_of_unfired (h : n.Counting T) (hT : T < 2 ^ 53) (hfired : n.fired = false) :
    n.visited.Counting T ∧ n.visited.visitsLeft T < n.visitsLeft T := by
  obtain ⟨a, ha, hactivation⟩ := h.activation hfired
  have hvisited : n.visited = (n.stimulate none).1 := if_neg (by simp [hfired])
  have hraised : n.visited.activation = .ofNat (a + 1) := by
    rw [hvisited]
    exact Binary64.add_of_equal hactivation (by decide) ha
  have hthreshold : n.visited.threshold = n.threshold := n.kept_visited.threshold
  have hunfired (hv : n.visited.fired = false) : (a + 1 : Int) < T := by
    refine lt_of_lt_of_le ?_ h.threshold
    have hfires : n.fires = false := by
      rw [Bool.eq_false_iff]
      intro hfires
      rw [fired_visited_of_fires hfires] at hv
      cases hv
    rw [fires_eq, hfired, Bool.not_false, Bool.true_and, Binary64.add_of_equal hactivation (by decide) ha,
      Bool.eq_false_iff, ne_eq, Binary64.reaches_ofNat ha] at hfires
    push_cast at hfires
    omega
  constructor
  · refine ⟨hthreshold.le.trans h.threshold, fun hv => ⟨a + 1, ?_, ?_⟩⟩
    · have := hunfired hv
      omega
    · rw [hraised, Binary64.equal_self_iff, Binary64.ofNat_of_lt ha]
      rfl
  · have hleft : n.visitsLeft T = max 1 (T - a) := by
      rw [visitsLeft, if_neg (by simp [hfired]),
        Binary64.whole?_of_equal (by omega) hactivation]
      rfl
    rw [hleft, visitsLeft]
    split
    next => omega
    next hv =>
      have := hunfired (Bool.eq_false_iff.mpr hv)
      rw [hraised, Binary64.whole?_of_equal ha (by
        rw [Binary64.equal_self_iff, Binary64.ofNat_of_lt ha]; rfl)]
      show max 1 (T - (a + 1)) < _
      omega

theorem Counting.visited (h : n.Counting T) (hT : T < 2 ^ 53) : n.visited.Counting T := by
  cases hfired : n.fired with
  | true => rwa [visited_of_fired hfired]
  | false => exact (h.visited_of_unfired hT hfired).1

theorem Counting.of_bare {m : Node} (h : n.Counting T) (hbare : m.bare = n.bare) : m.Counting T := by
  have hfired : m.fired = n.fired := congr_bare Node.fired (fun _ => rfl) hbare
  have hthreshold : m.threshold = n.threshold := congr_bare Node.threshold (fun _ => rfl) hbare
  have hactivation : m.activation = n.activation := congr_bare Node.activation (fun _ => rfl) hbare
  constructor
  · rw [hthreshold]
    exact h.threshold
  · rw [hfired, hactivation]
    exact h.activation

theorem visitsLeft_of_bare {m : Node} (hbare : m.bare = n.bare) : m.visitsLeft T = n.visitsLeft T :=
  congr_bare (visitsLeft T) (fun _ => rfl) hbare

end Node

namespace Network

variable {net a b : Network} {T : Nat} {now : Binary64} {ts : List Tag} {l : Layer} {t u : Tag}

/-! ## Visits that a network needs -/

/-- How many visits the nodes need at most until all have fired, if their thresholds are at most
`T`. -/
def visitsLeft (T : Nat) (net : Network) : Nat := (net.nodes.values.map (Node.visitsLeft T)).sum

/-- Every node counts visits. -/
def Counting (T : Nat) (net : Network) : Prop := ∀ t n, net.nodes.get? t = some n → n.Counting T

theorem visitsLeft_le (hT : 1 ≤ T) (net : Network) : net.visitsLeft T ≤ net.nodes.size * T := by
  have hsum : net.visitsLeft T ≤ (net.nodes.values.map (Node.visitsLeft T)).length * T :=
    List.sum_le_card_nsmul _ T fun k hk => by
      obtain ⟨n, -, rfl⟩ := List.mem_map.mp hk
      exact n.visitsLeft_le hT
  rwa [List.length_map, Keyed.values, List.length_map] at hsum

theorem visitsLeft_eq_sum_keys (T : Nat) (net : Network) : net.visitsLeft T =
    (net.nodes.keys.map fun t => ((net.nodes.get? t).map (Node.visitsLeft T)).getD 0).sum := by
  rw [visitsLeft, Keyed.map_values]

theorem fired_of_visitsLeft_eq_zero (h : net.visitsLeft T = 0) {n : Node}
    (hn : net.nodes.get? t = some n) : n.fired = true := by
  obtain ⟨e, he, -, rfl⟩ := Keyed.get?_eq_some_iff.mp hn
  have hmem : e.2.visitsLeft T ∈ net.nodes.values.map (Node.visitsLeft T) :=
    List.mem_map_of_mem (List.mem_map_of_mem he)
  have hle := List.le_sum_of_mem hmem
  rw [← visitsLeft, h] at hle
  exact Node.fired_of_visitsLeft_eq_zero (Nat.le_zero.mp hle)

/-- Visits are counted, except on nodes that have fired. -/
theorem Counting.node_after (h : net.Counting T) (hT : T < 2 ^ 53) (hafter : Layer.After net ts l)
    {m : Node} (hm : l.network.nodes.get? t = some m) :
    ∃ n, net.nodes.get? t = some n ∧ m.Counting T ∧ m.visitsLeft T ≤ n.visitsLeft T ∧
      (ts.any (· == t) = true → n.fired = false → m.visitsLeft T < n.visitsLeft T) := by
  obtain ⟨n, hn, hbare⟩ := hafter.exists_node hm
  have hcounting := h t n hn
  refine ⟨n, hn, ?_⟩
  rw [Node.visitsLeft_of_bare hbare]
  refine ⟨.of_bare ?_ hbare, ?_⟩
  · split
    · exact hcounting.visited hT
    · exact hcounting
  · split
    next hvisited =>
      cases hfired : n.fired with
      | true => simp [Node.visited_of_fired hfired]
      | false =>
        have hlt := (hcounting.visited_of_unfired hT hfired).2
        exact ⟨hlt.le, fun _ _ => hlt⟩
    next hvisited => exact ⟨le_rfl, fun hany => absurd hany hvisited⟩

theorem Counting.after (h : net.Counting T) (hT : T < 2 ^ 53) (hafter : Layer.After net ts l) :
    l.network.Counting T := by
  intro t m hm
  obtain ⟨n, -, hcounting, -⟩ := h.node_after hT hafter hm
  exact hcounting

/-- A layer that visits a node that has not fired lowers the number of visits that are left. -/
theorem Counting.visitsLeft_after_lt (h : net.Counting T) (hT : T < 2 ^ 53)
    (hkeys : l.network.nodes.keys = net.nodes.keys) (hafter : Layer.After net ts l) {n : Node}
    (ht : ts.any (· == t) = true) (hn : net.nodes.get? t = some n) (hfired : n.fired = false) :
    l.network.visitsLeft T < net.visitsLeft T := by
  rw [visitsLeft_eq_sum_keys, visitsLeft_eq_sum_keys, hkeys]
  have hle (u : Tag) : ((l.network.nodes.get? u).map (Node.visitsLeft T)).getD 0 ≤
      ((net.nodes.get? u).map (Node.visitsLeft T)).getD 0 := by
    cases hm : l.network.nodes.get? u with
    | none => exact Nat.zero_le _
    | some m =>
      obtain ⟨n, hn, -, hle, -⟩ := h.node_after hT hafter hm
      rw [hn]
      exact hle
  obtain ⟨e, he, het, rfl⟩ := Keyed.get?_eq_some_iff.mp hn
  refine List.sum_lt_sum _ _ (fun u _ => hle u) ⟨e.1, List.mem_map_of_mem he, ?_⟩
  have hn' := Keyed.get?_of_mem he
  have hsome := hafter.isSome_get? e.1
  rw [hn', Option.isSome_some] at hsome
  obtain ⟨m, hm⟩ := Option.isSome_iff_exists.mp hsome
  obtain ⟨n', hn'', -, -, hlt⟩ := h.node_after hT hafter hm
  cases hn'.symm.trans hn''
  rw [hm, hn']
  obtain ⟨v, hv, hvt⟩ := List.any_eq_true.mp ht
  exact hlt (List.any_eq_true.mpr ⟨v, hv, BEq.trans hvt (BEq.symm het)⟩) hfired

/-! ## Saturated networks -/

/-- All nodes of active tags have fired. -/
def Saturated (net : Network) : Prop :=
  ∀ t n, net.active.contains t = true → net.nodes.get? t = some n → n.fired = true

theorem Saturated.stimulateAll (h : net.Saturated) (o : TagOrder) :
    net.stimulateAll (o.items net.active) = ⟨net, .empty⟩ := by
  have hactive : ∀ t ∈ o.items net.active, net.active.contains t = true :=
    fun t ht => (o.exists_mem_items_iff net.active t).mp ⟨t, ht, BEq.refl t⟩
  rw [Network.stimulateAll]
  generalize o.items net.active = ts at hactive
  induction ts with
  | nil => rfl
  | cons t ts ih =>
    obtain ⟨ht, hts⟩ := List.forall_mem_cons.mp hactive
    rw [List.foldl_cons, Layer.visit_of_fired fun n hn => h t n ht hn]
    exact ih hts

theorem Saturated.searchWith (h : net.Saturated) (o : TagOrder) (ply : Nat) (s : Strategy) :
    net.searchWith o ply s = ⟨net, .empty⟩ := by
  cases s with
  | direct => exact h.stimulateAll o
  | breadthFirst depth =>
    show layers o ((depth.map Int.toNat).getD ply) net.active ⟨net, .empty⟩ = _
    cases (depth.map Int.toNat).getD ply with
    | zero => rfl
    | succ ply =>
      rw [layers, h.stimulateAll o]
      exact if_pos rfl

theorem Saturated.updateAges (h : net.Saturated) (now : Binary64) :
    (net.updateAges now).Saturated := by
  intro t m ht hm
  obtain ⟨n, hn, rfl⟩ := get?_updateAges_eq_some_iff.mp hm
  exact h t n ht hn

theorem Saturated.search (h : net.Saturated) (hexpired : net.NoneExpired now) (o : TagOrder)
    (ply : Nat) (s : Strategy) : net.search o now ply s = ⟨net.updateAges now, .empty⟩ := by
  rw [hexpired.search, (h.updateAges now).searchWith]

/-! ## Direct searches -/

theorem NoneExpired.after_directSearch (h : net.NoneExpired now) (o : TagOrder) (ply : Nat) :
    Layer.After (net.updateAges now) (o.items net.active) (net.search o now ply .direct) := by
  rw [h.search]
  exact Layer.after_stimulateAll (o.distinct_items net.active)

theorem Counting.updateAges (h : net.Counting T) (now : Binary64) :
    (net.updateAges now).Counting T := by
  intro t m hm
  obtain ⟨n, hn, rfl⟩ := get?_updateAges_eq_some_iff.mp hm
  exact ⟨(h t n hn).threshold, (h t n hn).activation⟩

theorem visitsLeft_updateAges (net : Network) (now : Binary64) :
    (net.updateAges now).visitsLeft T = net.visitsLeft T := by
  have hkeys : (net.updateAges now).nodes.keys = net.nodes.keys := Keyed.keys_mapValues ..
  rw [visitsLeft_eq_sum_keys, visitsLeft_eq_sum_keys, hkeys]
  simp only [get?_updateAges, Option.map_map]
  rfl

/-- A direct search visits some node that has not fired, unless the network is saturated. -/
theorem Counting.visitsLeft_search_lt (h : net.Counting T) (hT : T < 2 ^ 53)
    (hexpired : net.NoneExpired now) (hsaturated : ¬ net.Saturated) (o : TagOrder) (ply : Nat) :
    (net.search o now ply .direct).network.visitsLeft T < net.visitsLeft T := by
  obtain ⟨t, n, ht, hn, hfired⟩ : ∃ t n, net.active.contains t = true ∧
      net.nodes.get? t = some n ∧ n.fired = false := by
    simpa [Saturated] using hsaturated
  have hkeys : (net.search o now ply .direct).network.nodes.keys =
      (net.updateAges now).nodes.keys := by
    rw [hexpired.search]
    exact (spreadsTo_searchWith ..).keys
  have haged : (net.updateAges now).nodes.get? t = some (n.updateAge now) := by
    rw [get?_updateAges, hn]
    rfl
  have hlt := (h.updateAges now).visitsLeft_after_lt hT hkeys (hexpired.after_directSearch o ply)
    (by rwa [o.any_items]) haged hfired
  rwa [visitsLeft_updateAges] at hlt

/-- What a direct search makes active, an edge leads to from an active tag. -/
theorem NoneExpired.active_directSearch (h : net.NoneExpired now) {o : TagOrder} {ply : Nat}
    (hu : (net.search o now ply .direct).network.active.contains u = true) :
    net.active.contains u = true ∨ ∃ t, net.active.contains t = true ∧ net.Edge t u := by
  rcases ((h.after_directSearch o ply).active u).mp hu with hu | ⟨t, ht, hpush⟩
  · exact .inl hu
  · refine .inr ⟨t, (o.exists_mem_items_iff net.active t).mp ⟨t, ht, BEq.refl t⟩, ?_⟩
    obtain ⟨m, hm, hfires, hoffer⟩ := isSome_push?_iff.mp hpush
    obtain ⟨n, hn, rfl⟩ := get?_updateAges_eq_some_iff.mp hm
    exact (edge_iff hn).mpr ⟨Node.fired_eq_false_of_fires hfires, hoffer⟩

/-- Visits add no edges. -/
theorem SpreadsTo.edge (h : a.SpreadsTo b) (hedge : b.Edge t u) : a.Edge t u := by
  obtain ⟨m, hm, hfired, w, hw, hcutoff⟩ := hedge
  obtain ⟨n, hn, hkept⟩ := h.exists_before hm
  refine ⟨n, hn, hkept.unfired hfired, w, ?_, ?_⟩
  · rwa [← hkept.outputs]
  · rwa [← h.cutoff]

/-- In a saturated network, all the edges have been gone along. -/
theorem SpreadsTo.active_of_pathTo (h : a.SpreadsTo b) (hb : b.Saturated) {k : Nat}
    (hpath : a.PathTo k u) : b.active.contains u = true := by
  induction hpath with
  | start hactive => exact h.active_of_active hactive
  | @step k t u _ hedge ih =>
    obtain ⟨n, hn, -⟩ := id hedge
    obtain ⟨hunfired, hoffer⟩ := (edge_iff hn).mp hedge
    obtain ⟨m, hm, -⟩ := h.exists_after hn
    exact (h.active u).mpr (.inr ⟨n, ⟨t, m, hn, hunfired, hm, hb t m ih hm⟩, hoffer⟩)

end Network

/-! ## Repeated direct searches -/

/-- One more direct search; what it makes active is added to what was made active before. -/
def Layer.searchAgain (now : Binary64) (ply : Nat) (l : Layer) (o : TagOrder) : Layer :=
  let next := l.network.search o now ply .direct
  ⟨next.network, l.reached.union next.reached⟩

namespace Network

/-- A direct search in each of some orders, one after the other at one time, and all that they make
active. -/
def searchRepeatedly (net : Network) (now : Binary64) (ply : Nat) (os : List TagOrder) : Layer :=
  os.foldl (Layer.searchAgain now ply) ⟨net, .empty⟩

variable {net : Network} {T : Nat} {now : Binary64} {t u : Tag}

theorem network_searchRepeatedly_concat (net : Network) (now : Binary64) (ply : Nat)
    (os : List TagOrder) (o : TagOrder) : (net.searchRepeatedly now ply (os ++ [o])).network =
      ((net.searchRepeatedly now ply os).network.search o now ply .direct).network := by
  rw [searchRepeatedly, List.foldl_concat]
  rfl

theorem NoneExpired.spreadsTo_searchRepeatedly (h : net.NoneExpired now) (ply : Nat)
    (os : List TagOrder) : net.SpreadsTo (net.searchRepeatedly now ply os).network := by
  induction os using List.reverseRecOn with
  | nil => exact .refl net
  | append_singleton os o ih =>
    rw [network_searchRepeatedly_concat]
    exact ih.trans ((ih.noneExpired h).spreadsTo_search o ply .direct)

theorem NoneExpired.exists_pathTo (h : net.NoneExpired now) {ply : Nat} {os : List TagOrder}
    (hu : (net.searchRepeatedly now ply os).network.active.contains u = true) :
    ∃ k, net.PathTo k u := by
  induction os using List.reverseRecOn generalizing u with
  | nil => exact ⟨0, .start hu⟩
  | append_singleton os o ih =>
    have hspreads := h.spreadsTo_searchRepeatedly ply os
    rw [network_searchRepeatedly_concat] at hu
    rcases (hspreads.noneExpired h).active_directSearch hu with hu | ⟨t, ht, hedge⟩
    · exact ih hu
    · obtain ⟨k, hpath⟩ := ih ht
      exact ⟨k + 1, .step hpath (hspreads.edge hedge)⟩

/-- Each search lowers the number of visits that are left, until the network is saturated. -/
theorem Counting.searchRepeatedly (h : net.Counting T) (hT : T < 2 ^ 53)
    (hexpired : net.NoneExpired now) (ply : Nat) (os : List TagOrder) :
    let after := (net.searchRepeatedly now ply os).network
    after.Counting T ∧ (after.Saturated ∨ after.visitsLeft T + os.length ≤ net.visitsLeft T) := by
  induction os using List.reverseRecOn with
  | nil => exact ⟨h, .inr le_rfl⟩
  | append_singleton os o ih =>
    obtain ⟨hcounting, hleft⟩ := ih
    have hexpired' := (hexpired.spreadsTo_searchRepeatedly ply os).noneExpired hexpired
    rw [network_searchRepeatedly_concat]
    refine ⟨(hcounting.updateAges now).after hT (hexpired'.after_directSearch o ply), ?_⟩
    -- A saturated network stays so; in another one, the search visits a node that has not fired.
    by_cases hsaturated : (net.searchRepeatedly now ply os).network.Saturated
    · refine .inl ?_
      rw [hsaturated.search hexpired']
      exact hsaturated.updateAges now
    · have hlt := hcounting.visitsLeft_search_lt hT hexpired' hsaturated o ply
      have hle := hleft.resolve_left hsaturated
      refine .inr ?_
      rw [List.length_append, List.length_singleton]
      omega

theorem Counting.saturated (h : net.Counting T) (hT : 1 ≤ T) (hT' : T < 2 ^ 53)
    (hexpired : net.NoneExpired now) (ply : Nat) {os : List TagOrder}
    (hos : net.nodes.size * T ≤ os.length) :
    (net.searchRepeatedly now ply os).network.Saturated := by
  rcases (h.searchRepeatedly hT' hexpired ply os).2 with hsaturated | hle
  · exact hsaturated
  · have hbound := visitsLeft_le hT net
    intro t n _ hn
    exact fired_of_visitsLeft_eq_zero (T := T) (by omega) hn

theorem NoneExpired.aged_searchRepeatedly (h : net.NoneExpired now) (ply : Nat) {os : List TagOrder}
    (hos : os ≠ []) : (net.searchRepeatedly now ply os).network.Aged now := by
  induction os using List.reverseRecOn with
  | nil => exact absurd rfl hos
  | append_singleton os o _ =>
    have hexpired := (h.spreadsTo_searchRepeatedly ply os).noneExpired h
    rw [network_searchRepeatedly_concat]
    exact (aged_updateAges _ now).after (hexpired.after_directSearch o ply)

end Network

/-- Direct searches saturate a network: after as many of them as there are nodes, times the largest
threshold, all nodes of active tags have fired. Then the active tags are those that paths lead to, and
no search makes anything active or changes the network. -/
theorem searchRepeatedly_saturates {net : Network} {now : Binary64} {T : Nat} (hT : 1 ≤ T)
    (hsize : net.nodes.size * T < 2 ^ 53)
    (hnodes : ∀ t n, net.nodes.get? t = some n → n.threshold ≤ T ∧ (n.fired = false →
      ∃ a : Nat, a + net.nodes.size * T < 2 ^ 53 ∧ n.activation.equal (.ofNat a) = true))
    (hexpired : net.NoneExpired now) (ply : Nat) {os : List TagOrder}
    (hos : net.nodes.size * T ≤ os.length) :
    let after := (net.searchRepeatedly now ply os).network
    (∀ t n, after.active.contains t = true → after.nodes.get? t = some n → n.fired = true) ∧
    (∀ u, after.active.contains u = true ↔ ∃ k, net.PathTo k u) ∧
    ∀ o ply' s, after.search o now ply' s = ⟨after, .empty⟩ := by
  intro after
  have hspreads : net.SpreadsTo after := hexpired.spreadsTo_searchRepeatedly ply os
  have hstate : after.Saturated ∧ after.Aged now := by
    -- Without nodes nothing has to fire. With some, `T` is small, as the product is.
    by_cases hnone : net.nodes.size = 0
    · have hget (t : Tag) : after.nodes.get? t = none := by
        refine Option.eq_none_iff_forall_ne_some.mpr fun m hm => ?_
        obtain ⟨n, hn, -⟩ := hspreads.exists_before hm
        cases (Keyed.get?_of_size_eq_zero hnone t).symm.trans hn
      simp [Network.Saturated, Network.Aged, hget]
    · have hmul : T ≤ net.nodes.size * T := Nat.le_mul_of_pos_left T (Nat.pos_of_ne_zero hnone)
      have hcounting : net.Counting T := by
        refine fun t n hn => ⟨(hnodes t n hn).1, fun hfired => ?_⟩
        obtain ⟨a, ha, hactivation⟩ := (hnodes t n hn).2 hfired
        exact ⟨a, by omega, hactivation⟩
      have hempty : os ≠ [] := by
        rintro rfl
        rw [List.length_nil] at hos
        omega
      exact ⟨hcounting.saturated hT (by omega) hexpired ply hos,
        hexpired.aged_searchRepeatedly ply hempty⟩
  obtain ⟨hsaturated, haged⟩ := hstate
  refine ⟨hsaturated, fun u => ⟨hexpired.exists_pathTo, ?_⟩, fun o ply' s => ?_⟩
  · rintro ⟨k, hpath⟩
    exact hspreads.active_of_pathTo hsaturated hpath
  · rw [hsaturated.search (hspreads.noneExpired hexpired), haged.updateAges_eq]

/-- A cycle whose nodes need two visits, one of them with a zero of the other sign for activation, and
a node that had fired before, behind which nothing becomes active. -/
theorem searchRepeatedly_saturates_cycle :
    let tag (c : Char) : Tag := .fact ⟨[c], [], .certain⟩
    let node (c : Char) (outputs : List (Tag × Binary64)) : Node :=
      .create (tag c) (.ofList outputs) 2 1 (.ofNat 60) (.zero false)
    let one := Binary64.ofNat 1
    let net : Network :=
      { nodes := .ofList [(tag 'A', node 'A' [(tag 'B', one), (tag 'C', one)]),
          (tag 'B', { node 'B' [(tag 'A', one), (tag 'D', one)] with activation := .zero true }),
          (tag 'C', { node 'C' [(tag 'E', one)] with fired := true, activation := .nan })]
        active := .ofList [tag 'A', tag 'F']
        cutoff := .zero false }
    let os := List.replicate 6 TagOrder.oldestFirst
    (∀ t n, net.nodes.get? t = some n → n.threshold ≤ (2 : Nat) ∧ (n.fired = false →
      ∃ a : Nat, a + net.nodes.size * 2 < 2 ^ 53 ∧ n.activation.equal (.ofNat a) = true)) ∧
      net.NoneExpired (.ofNat 5) ∧
      let after := (net.searchRepeatedly (.ofNat 5) 10 os).network
      (∀ t n, after.active.contains t = true → after.nodes.get? t = some n → n.fired = true) ∧
      (∀ u, after.active.contains u = true ↔ ∃ k, net.PathTo k u) ∧
      ∀ o ply' s, after.search o (.ofNat 5) ply' s = ⟨after, .empty⟩ := by
  intro tag node one net os
  have hsize : net.nodes.size = 3 := by decide +kernel
  have hentries : ∀ e ∈ net.nodes.entries, e.2.threshold ≤ (2 : Nat) ∧
      (e.2.fired = false → e.2.activation.equal (.ofNat 0) = true) ∧
      e.2.hasExpired (.ofNat 5) = false := by
    decide +kernel
  have hnodes : ∀ t n, net.nodes.get? t = some n → n.threshold ≤ (2 : Nat) ∧ (n.fired = false →
      ∃ a : Nat, a + net.nodes.size * 2 < 2 ^ 53 ∧ n.activation.equal (.ofNat a) = true) := by
    refine Keyed.forall_get?_of_entries fun e he => ?_
    obtain ⟨hthreshold, hactivation, -⟩ := hentries e he
    exact ⟨hthreshold, fun hfired => ⟨0, by rw [hsize]; decide, hactivation hfired⟩⟩
  have hexpired : net.NoneExpired (.ofNat 5) :=
    Keyed.forall_get?_of_entries fun e he => (hentries e he).2.2
  exact ⟨hnodes, hexpired, searchRepeatedly_saturates (by decide) (by rw [hsize]; decide) hnodes
    hexpired 10 (by rw [hsize]; decide)⟩

end TagReasoner
