import TagReasoner.Proofs.Network.Eviction

/-!
# What visits do, however many

A search is a sequence of visits. `Network.SpreadsTo` says what a network may have become by some of
them: nodes keep what they were made with, one that has fired stays so, and a belief that was the mean
of the truths is so again; the active tags are those from before and what the nodes that have fired
meanwhile put forward; a truth is from before, or the weight of an output that such a node put forward.
One visit does so (`spreadsTo_visit`), and what one network spreads to spreads on (`SpreadsTo.trans`), so
all searches do (`spreadsTo_searchWith`).
-/

namespace TagReasoner

/-- The belief is the mean of the truths, or zero if there are none. -/
structure Node.Faithful (n : Node) : Prop where
  mean : n.truths.size ≠ 0 → n.belief = n.meanTruth
  zero : n.truths.size = 0 → n.belief = .zero false

/-- What visits leave as it is of a node; they do not take back that it has fired, nor that its belief
fits its truths. -/
structure Node.Kept (n m : Node) : Prop where
  tag : m.tag = n.tag
  outputs : m.outputs = n.outputs
  threshold : m.threshold = n.threshold
  maxAge : m.maxAge = n.maxAge
  createdAt : m.createdAt = n.createdAt
  fired : n.fired = true → m.fired = true
  faithful : n.Faithful → m.Faithful

namespace Node

variable {n m l : Node}

theorem Kept.refl (n : Node) : n.Kept n := ⟨rfl, rfl, rfl, rfl, rfl, id, id⟩

theorem Kept.trans (h : n.Kept m) (h' : m.Kept l) : n.Kept l where
  tag := h'.tag.trans h.tag
  outputs := h'.outputs.trans h.outputs
  threshold := h'.threshold.trans h.threshold
  maxAge := h'.maxAge.trans h.maxAge
  createdAt := h'.createdAt.trans h.createdAt
  fired hn := h'.fired (h.fired hn)
  faithful hn := h'.faithful (h.faithful hn)

theorem Kept.unfired (h : n.Kept m) (hm : m.fired = false) : n.fired = false := by
  rw [Bool.eq_false_iff]
  intro hn
  rw [h.fired hn] at hm
  cases hm

theorem Kept.offer?_eq (h : n.Kept m) : m.offer? = n.offer? := by
  funext cutoff u
  rw [offer?, offer?, h.tag, h.outputs]

/-- Only the truths and the belief count. -/
theorem Faithful.of_truths (h : n.Faithful) (htruths : m.truths = n.truths)
    (hbelief : m.belief = n.belief) : m.Faithful := by
  constructor
  · intro hsome
    rw [meanTruth, hbelief, htruths]
    exact h.mean (htruths ▸ hsome)
  · intro hnone
    rw [hbelief]
    exact h.zero (htruths ▸ hnone)

theorem faithful_observe (n : Node) (source : Tag) (truth : Binary64) :
    (n.observe source truth).Faithful where
  mean _ := rfl
  zero hnone := absurd hnone (n.truths.size_put_ne_zero source truth)

theorem kept_updateAge (n : Node) (now : Binary64) : n.Kept (n.updateAge now) :=
  ⟨rfl, rfl, rfl, rfl, rfl, id, fun h => h.of_truths rfl rfl⟩

theorem kept_visited (n : Node) : n.Kept n.visited := by
  rw [visited]
  split
  next => exact .refl n
  next hfired =>
    exact ⟨rfl, rfl, rfl, rfl, rfl, fun hn => absurd hn hfired, fun h => h.of_truths rfl rfl⟩

theorem kept_accept (n : Node) (p : Option (Tag × Binary64)) : n.Kept (n.accept p) := by
  cases p with
  | none => exact .refl n
  | some p => exact ⟨rfl, rfl, rfl, rfl, rfl, id, fun _ => n.faithful_observe p.1 p.2⟩

theorem fired_accept (n : Node) (p : Option (Tag × Binary64)) : (n.accept p).fired = n.fired := by
  cases p <;> rfl

theorem fires_of_fired_visited (h : n.visited.fired = true) (hn : n.fired = false) :
    n.fires = true := by
  rw [visited, if_neg (by simp [hn])] at h
  change (n.fired || n.fires) = true at h
  rwa [hn, Bool.false_or] at h

end Node

namespace Network

/-- The node is in the network before and has not fired, and after it has. -/
def Fired (before after : Network) (n : Node) : Prop :=
  ∃ t m, before.nodes.get? t = some n ∧ n.fired = false ∧
    after.nodes.get? t = some m ∧ m.fired = true

/-- The first network can become the second one by visits. -/
structure SpreadsTo (before after : Network) : Prop where
  cutoff : after.cutoff = before.cutoff
  keys : after.nodes.keys = before.nodes.keys
  nodes : ∀ u, Option.Rel Node.Kept (before.nodes.get? u) (after.nodes.get? u)
  active : ∀ u, after.active.contains u = true ↔ before.active.contains u = true ∨
    ∃ n, before.Fired after n ∧ (n.offer? before.cutoff u).isSome = true
  truths : ∀ u n m, before.nodes.get? u = some n → after.nodes.get? u = some m →
    ∀ source w, m.truths.get? source = some w → n.truths.get? source = some w ∨
      ∃ s p, before.Fired after s ∧ s.offer? before.cutoff u = some p ∧
        (source == p.1) = true ∧ w = p.2

variable {a b c net : Network} {t u : Tag} {n m : Node}

/-! ## Nodes on the way -/

theorem SpreadsTo.exists_after (h : a.SpreadsTo b) (hn : a.nodes.get? u = some n) :
    ∃ m, b.nodes.get? u = some m ∧ n.Kept m := by
  rcases optionRel_iff.mp (h.nodes u) with ⟨hn', -⟩ | ⟨n', m, hn', hm, hkept⟩
  · cases hn.symm.trans hn'
  · cases hn.symm.trans hn'
    exact ⟨m, hm, hkept⟩

theorem SpreadsTo.exists_before (h : a.SpreadsTo b) (hm : b.nodes.get? u = some m) :
    ∃ n, a.nodes.get? u = some n ∧ n.Kept m := by
  rcases optionRel_iff.mp (h.nodes u) with ⟨-, hm'⟩ | ⟨n, m', hn, hm', hkept⟩
  · cases hm.symm.trans hm'
  · cases hm.symm.trans hm'
    exact ⟨n, hn, hkept⟩

theorem SpreadsTo.active_of_active (h : a.SpreadsTo b) (hu : a.active.contains u = true) :
    b.active.contains u = true :=
  (h.active u).mpr (.inl hu)

/-- A node that fires on the way from the first network to the third does so before the second or
after it, and offers the same all the time. -/
theorem exists_fired_trans_iff (hab : a.SpreadsTo b) (hbc : b.SpreadsTo c)
    {P : (Binary64 → Tag → Option (Tag × Binary64)) → Prop} :
    (∃ n, a.Fired c n ∧ P n.offer?) ↔
      (∃ n, a.Fired b n ∧ P n.offer?) ∨ ∃ n, b.Fired c n ∧ P n.offer? := by
  constructor
  · rintro ⟨n, ⟨t, l, hn, hunfired, hl, hfired⟩, hP⟩
    obtain ⟨m, hm, hnm⟩ := hab.exists_after hn
    cases hmfired : m.fired with
    | true => exact .inl ⟨n, ⟨t, m, hn, hunfired, hm, hmfired⟩, hP⟩
    | false =>
      refine .inr ⟨m, ⟨t, l, hm, hmfired, hl, hfired⟩, ?_⟩
      rwa [hnm.offer?_eq]
  · rintro (⟨n, ⟨t, m, hn, hunfired, hm, hfired⟩, hP⟩ | ⟨m, ⟨t, l, hm, hunfired, hl, hfired⟩, hP⟩)
    · obtain ⟨l, hl, hml⟩ := hbc.exists_after hm
      exact ⟨n, ⟨t, l, hn, hunfired, hl, hml.fired hfired⟩, hP⟩
    · obtain ⟨n, hn, hnm⟩ := hab.exists_before hm
      refine ⟨n, ⟨t, l, hn, hnm.unfired hunfired, hl, hfired⟩, ?_⟩
      rwa [← hnm.offer?_eq]

/-- Networks between which only the nodes differ, and there neither in what they offer nor in what has
happened to them. -/
theorem SpreadsTo.of_nodes (hcutoff : b.cutoff = a.cutoff) (hactive : b.active = a.active)
    {f : Node → Node} (hnodes : b.nodes = a.nodes.mapValues fun _ => f)
    (hkept : ∀ n : Node, n.Kept (f n)) (hfired : ∀ n, (f n).fired = n.fired)
    (htruths : ∀ n, (f n).truths = n.truths) : a.SpreadsTo b := by
  have hget (u : Tag) : b.nodes.get? u = (a.nodes.get? u).map f := by
    rw [hnodes, Keyed.get?_mapValues]
  have hnone (n : Node) : ¬ a.Fired b n := by
    rintro ⟨t, m, hn, hunfired, hm, hm'⟩
    rw [hget, hn, Option.map_some, Option.some.injEq] at hm
    rw [← hm, hfired, hunfired] at hm'
    cases hm'
  constructor
  · exact hcutoff
  · rw [hnodes, Keyed.keys_mapValues]
  · intro u
    rw [hget]
    cases a.nodes.get? u with
    | none => exact .none
    | some n => exact .some (hkept n)
  · intro u
    rw [hactive]
    refine (or_iff_left ?_).symm
    rintro ⟨n, hn, -⟩
    exact hnone n hn
  · intro u n m hn hm source w hw
    rw [hget, hn, Option.map_some, Option.some.injEq] at hm
    rw [← hm, htruths] at hw
    exact .inl hw

theorem SpreadsTo.refl (a : Network) : a.SpreadsTo a := by
  have hnodes : a.nodes = a.nodes.mapValues fun _ => id :=
    (Keyed.mapValues_eq_self fun _ _ _ => rfl).symm
  exact .of_nodes rfl rfl hnodes .refl (fun _ => rfl) fun _ => rfl

theorem spreadsTo_updateAges (a : Network) (now : Binary64) : a.SpreadsTo (a.updateAges now) :=
  .of_nodes (f := fun n => n.updateAge now) rfl rfl rfl (fun n => n.kept_updateAge now)
    (fun _ => rfl) fun _ => rfl

theorem SpreadsTo.trans (hab : a.SpreadsTo b) (hbc : b.SpreadsTo c) : a.SpreadsTo c := by
  constructor
  · exact hbc.cutoff.trans hab.cutoff
  · exact hbc.keys.trans hab.keys
  · intro u
    rcases optionRel_iff.mp (hab.nodes u) with ⟨hn, hm⟩ | ⟨n, m, hn, hm, hnm⟩
    · have hrel := hbc.nodes u
      rwa [hm, ← hn] at hrel
    · obtain ⟨l, hl, hml⟩ := hbc.exists_after hm
      exact optionRel_iff.mpr (.inr ⟨n, l, hn, hl, hnm.trans hml⟩)
  · intro u
    have htrans := exists_fired_trans_iff hab hbc
      (P := fun offer => (offer a.cutoff u).isSome = true)
    rw [hbc.active, hab.active, hab.cutoff, htrans, or_assoc]
  · intro u n l hn hl source w hw
    have htrans := exists_fired_trans_iff hab hbc
      (P := fun offer => ∃ p, offer a.cutoff u = some p ∧ (source == p.1) = true ∧ w = p.2)
    obtain ⟨m, hm, -⟩ := hab.exists_after hn
    rcases hbc.truths u m l hm hl source w hw with hw | ⟨s, p, hfired, hoffer⟩
    · rcases hab.truths u n m hn hm source w hw with hw | ⟨s, p, hfired, hoffer⟩
      · exact .inl hw
      · obtain ⟨s, hs, p, hp⟩ := htrans.mpr (.inl ⟨s, hfired, p, hoffer⟩)
        exact .inr ⟨s, p, hs, hp⟩
    · rw [hab.cutoff] at hoffer
      obtain ⟨s, hs, p, hp⟩ := htrans.mpr (.inr ⟨s, hfired, p, hoffer⟩)
      exact .inr ⟨s, p, hs, hp⟩

/-! ## Visits -/

theorem keys_modifyNode (net : Network) (t : Tag) (f : Node → Node) :
    (net.modifyNode t f).nodes.keys = net.nodes.keys :=
  Keyed.keys_mapValues ..

theorem keys_putForward (source : Tag) (net : Network) (e : Tag × Binary64) :
    (putForward source net e).nodes.keys = net.nodes.keys := by
  rw [putForward]
  split
  · rfl
  · exact net.keys_modifyNode ..

theorem keys_propagate (net : Network) (n : Node) : (net.propagate n).nodes.keys = net.nodes.keys := by
  rw [propagate]
  generalize n.outputs.entries = es
  induction es generalizing net with
  | nil => rfl
  | cons e es ih => rw [List.foldl_cons, ih, keys_putForward]

theorem push?_eq_some_iff {p : Tag × Binary64} : net.push? t u = some p ↔
    ∃ n, net.nodes.get? t = some n ∧ n.fires = true ∧ n.offer? net.cutoff u = some p := by
  rw [push?, Option.bind_eq_some_iff]
  refine exists_congr fun n => and_congr_right fun _ => ?_
  cases n.fires <;> simp

theorem isSome_push?_iff : (net.push? t u).isSome = true ↔
    ∃ n, net.nodes.get? t = some n ∧ n.fires = true ∧ (n.offer? net.cutoff u).isSome = true := by
  simp only [Option.isSome_iff_exists, push?_eq_some_iff]
  constructor
  · rintro ⟨p, n, hn, hfires, hp⟩
    exact ⟨n, hn, hfires, p, hp⟩
  · rintro ⟨n, hn, hfires, p, hp⟩
    exact ⟨p, n, hn, hfires, hp⟩

end Network

namespace Layer

open Network

variable {l after : Layer} {t u : Tag} {n : Node}

theorem keys_visit (l : Layer) (t : Tag) :
    (l.visit t).network.nodes.keys = l.network.nodes.keys := by
  rw [visit]
  split
  · rfl
  · split
    · rfl
    · dsimp only
      split
      · rw [keys_propagate, keys_modifyNode]
      · exact keys_modifyNode ..

/-- The node that fires in a visit is the one of the tag that is visited. -/
theorem Visited.fired_iff (h : Visited l t after) :
    l.network.Fired after.network n ↔ l.network.nodes.get? t = some n ∧ n.fires = true := by
  constructor
  · rintro ⟨v, m, hn, hunfired, hm, hfired⟩
    rw [h.nodes, hn, Option.map_some, Option.some.injEq] at hm
    rw [← hm, Node.fired_accept] at hfired
    split at hfired
    next hvt =>
      exact ⟨(l.network.nodes.get?_congr hvt).symm.trans hn,
        Node.fires_of_fired_visited hfired hunfired⟩
    next =>
      rw [hunfired] at hfired
      cases hfired
  · rintro ⟨hn, hfires⟩
    have hafter := h.nodes t
    rw [hn, Option.map_some, if_pos (BEq.refl t)] at hafter
    refine ⟨t, _, hn, Node.fired_eq_false_of_fires hfires, hafter, ?_⟩
    rw [Node.fired_accept]
    exact Node.fired_visited_of_fires hfires

theorem spreadsTo_visit (l : Layer) (t : Tag) : l.network.SpreadsTo (l.visit t).network := by
  have h := visited_visit l t
  constructor
  · exact h.cutoff
  · exact l.keys_visit t
  · intro u
    rw [h.nodes]
    cases l.network.nodes.get? u with
    | none => exact .none
    | some n =>
      refine .some (Node.Kept.trans ?_ (Node.kept_accept _ _))
      split
      · exact n.kept_visited
      · exact .refl n
  · intro u
    simp only [h.active, isSome_push?_iff, h.fired_iff, and_assoc]
  · intro u n m hn hm source w hw
    obtain ⟨n', hn', htruths⟩ := h.truths hm
    cases hn.symm.trans hn'
    rcases htruths source with ⟨p, hp, hsource, hw'⟩ | ⟨hsame, -⟩
    · obtain ⟨s, hs, hfires, hoffer⟩ := push?_eq_some_iff.mp hp
      rw [hw, Option.some.injEq] at hw'
      exact .inr ⟨s, p, h.fired_iff.mpr ⟨hs, hfires⟩, hoffer, hsource, hw'⟩
    · rw [hsame] at hw
      exact .inl hw

/-! ## Searches -/

theorem spreadsTo_foldl_visit (l : Layer) (ts : List Tag) :
    l.network.SpreadsTo (ts.foldl visit l).network := by
  induction ts generalizing l with
  | nil => exact .refl _
  | cons t ts ih => exact (l.spreadsTo_visit t).trans (ih (l.visit t))

end Layer

namespace Network

theorem spreadsTo_stimulateAll (net : Network) (ts : List Tag) :
    net.SpreadsTo (net.stimulateAll ts).network :=
  Layer.spreadsTo_foldl_visit ⟨net, .empty⟩ ts

theorem spreadsTo_layers (o : TagOrder) (ply : Nat) (frontier : WorkingSet Tag) (l : Layer) :
    l.network.SpreadsTo (layers o ply frontier l).network := by
  induction ply generalizing frontier l with
  | zero => exact .refl _
  | succ ply ih =>
    have hnext := l.network.spreadsTo_stimulateAll (o.items frontier)
    rw [layers]
    generalize l.network.stimulateAll (o.items frontier) = next at hnext ⊢
    split
    · exact hnext
    · exact hnext.trans (ih next.reached ⟨next.network, l.reached.union next.reached⟩)

theorem spreadsTo_searchWith (net : Network) (o : TagOrder) (ply : Nat) (s : Strategy) :
    net.SpreadsTo (net.searchWith o ply s).network := by
  cases s with
  | direct => exact net.spreadsTo_stimulateAll (o.items net.active)
  | breadthFirst depth => exact spreadsTo_layers o _ net.active ⟨net, .empty⟩

theorem NoneExpired.spreadsTo_search {now : Binary64} {net : Network} (h : net.NoneExpired now)
    (o : TagOrder) (ply : Nat) (s : Strategy) :
    net.SpreadsTo (net.search o now ply s).network := by
  rw [h.search]
  exact (net.spreadsTo_updateAges now).trans (spreadsTo_searchWith ..)

/-- No node expires in the course of visits. -/
theorem SpreadsTo.noneExpired {a b : Network} {now : Binary64} (h : a.SpreadsTo b)
    (ha : a.NoneExpired now) : b.NoneExpired now := by
  intro t m hm
  obtain ⟨n, hn, hkept⟩ := h.exists_before hm
  rw [Node.hasExpired, hkept.maxAge, hkept.createdAt]
  exact ha t n hn

end Network
end TagReasoner
