import TagReasoner.Proofs.Collection.WorkingSet
import TagReasoner.Proofs.Tag.Equality
import TagReasoner.Reasoning.ExpertSystem
import Mathlib.Data.List.Nodup
import Mathlib.Order.Lattice

/-!
# The order of tags and their spelling

Tags are sorted by kind and text, which is a total order up to ties (`Tag.atMost_total`,
`Tag.atMost_trans`). But the text of a tag has the tokens of its arguments in it, and equality
ignores tokens: `P(5)` and `P(05)` are one fact, and `P(10)` stands in front of the one and behind
the other. Tags of one kind and text tie even where they are different
(`Tag.atMost_antisymm_iff`), and stay as they stood.

Two lists without repetition that are equal as sets are sorted alike, however their elements are
enumerated, just when the texts order any two different tags strictly, and alike in both spellings
(`Tag.OrderedAlike`). The proven rules of two runs are equal under the same condition on the facts
at the start and on the tags derived (`sorted_alike_iff`).

In one direction a sorted list has only one order left (`Tag.OrderedAlike.sorted_forall₂`). In the
other, two tags that tie may be enumerated either way, and a stable sort shows which
(`Tag.orderedAlike_of_sorted`).
-/

namespace TagReasoner

/-! ## Lists -/

/-- Two lists without repetition that hold the same elements, up to equality. -/
structure EqualAsSets {α : Type} [BEq α] (as bs : List α) : Prop where
  distinct : as.Pairwise fun a b => (a == b) = false
  distinct' : bs.Pairwise fun a b => (a == b) = false
  left : ∀ a ∈ as, ∃ b ∈ bs, (a == b) = true
  right : ∀ b ∈ bs, ∃ a ∈ as, (a == b) = true

instance {α : Type} [BEq α] (as bs : List α) : Decidable (EqualAsSets as bs) :=
  decidable_of_iff
    ((as.Pairwise fun a b => (a == b) = false) ∧ (bs.Pairwise fun a b => (a == b) = false) ∧
      (∀ a ∈ as, ∃ b ∈ bs, (a == b) = true) ∧ ∀ b ∈ bs, ∃ a ∈ as, (a == b) = true)
    ⟨fun ⟨has, hbs, hleft, hright⟩ => ⟨has, hbs, hleft, hright⟩,
      fun h => ⟨h.distinct, h.distinct', h.left, h.right⟩⟩

theorem not_sublist_swap {α : Type} {a b : α} {l : List α} (hl : l.Nodup)
    (hab : [a, b].Sublist l) : ¬ [b, a].Sublist l := by
  induction l with
  | nil => cases hab
  | cons c l ih =>
    obtain ⟨hc, hl⟩ := List.nodup_cons.mp hl
    intro hba
    cases hab with
    | cons _ hab =>
      cases hba with
      | cons _ hba => exact ih hl hab hba
      | cons_cons _ _ => exact hc (hab.subset (List.mem_cons_of_mem _ (List.mem_singleton_self _)))
    | cons_cons _ hb =>
      cases hba with
      | cons _ hba => exact hc (hba.subset (List.mem_cons_of_mem _ (List.mem_singleton_self _)))
      | cons_cons _ _ => exact hc (List.singleton_sublist.mp hb)

/-- Some enumeration begins with any two different elements. -/
theorem exists_perm_pair {α : Type} {a b : α} {l : List α} (ha : a ∈ l) (hb : b ∈ l)
    (hab : b ≠ a) : ∃ l', l'.Perm l ∧ [a, b].Sublist l' := by
  obtain ⟨s, t, rfl⟩ := List.append_of_mem ha
  have hmem : b ∈ s ++ t := by simpa [hab] using hb
  exact ⟨a :: (s ++ t), List.perm_middle.symm, (List.singleton_sublist.mpr hmem).cons_cons a⟩

theorem exists_pair_of_forall₂ {α β : Type} {R : α → β → Prop} {as : List α} {bs : List β} {a b : α}
    (h : List.Forall₂ R as bs) (hab : [a, b].Sublist as) :
    ∃ c d, R a c ∧ R b d ∧ [c, d].Sublist bs := by
  induction h with
  | nil => cases hab
  | @cons x y _ _ hxy htail ih =>
    cases hab with
    | cons _ hab =>
      obtain ⟨c, d, hac, hbd, hcd⟩ := ih hab
      exact ⟨c, d, hac, hbd, hcd.cons y⟩
    | cons_cons _ hb =>
      obtain ⟨d, hd, hbd⟩ := exists_mem_of_forall₂ htail (List.singleton_sublist.mp hb)
      exact ⟨y, d, hxy, hbd, (List.singleton_sublist.mpr hd).cons_cons y⟩

theorem pairwise_of_forall₂ {α β : Type} {R : α → β → Prop} {P : α → α → Prop} {Q : β → β → Prop}
    {as : List α} {bs : List β} (h : List.Forall₂ R as bs) (has : as.Pairwise P)
    (hPQ : ∀ a a' b b', R a b → R a' b' → P a a' → Q b b') : bs.Pairwise Q := by
  induction h with
  | nil => exact .nil
  | @cons a b _ _ hab htail ih =>
    obtain ⟨ha, has⟩ := List.pairwise_cons.mp has
    refine List.pairwise_cons.mpr ⟨fun b' hb' => ?_, ih has⟩
    obtain ⟨a', ha', hab'⟩ := exists_mem_of_forall₂ htail.flip hb'
    exact hPQ a a' b b' hab hab' (ha a' ha')

namespace EqualAsSets

variable {α : Type} [BEq α] [EquivBEq α] {as bs : List α}

theorem symm (h : EqualAsSets as bs) : EqualAsSets bs as where
  distinct := h.distinct'
  distinct' := h.distinct
  left b hb := by
    obtain ⟨a, ha, hab⟩ := h.right b hb
    exact ⟨a, ha, BEq.symm hab⟩
  right a ha := by
    obtain ⟨b, hb, hab⟩ := h.left a ha
    exact ⟨b, hb, BEq.symm hab⟩

theorem nodup_of_distinct (h : as.Pairwise fun a b => (a == b) = false) : as.Nodup :=
  h.imp fun hne heq => by
    rw [heq, BEq.refl] at hne
    cases hne

/-- Of equal elements there is one in a list without repetition. -/
theorem eq_of_beq (h : EqualAsSets as bs) {b b' : α} (hb : b ∈ bs) (hb' : b' ∈ bs)
    (hbb' : (b == b') = true) : b = b' :=
  WorkingSet.eq_of_beq_of_mem (s := ⟨bs, h.distinct'⟩) hb hb' hbb'

/-- The partners of the elements of the one list are an enumeration of the other. -/
theorem perm_of_forall₂ (h : EqualAsSets as bs) {cs : List α}
    (hcs : List.Forall₂ (fun a c => (a == c) = true ∧ c ∈ bs) as cs) : cs.Perm bs := by
  have hmem : ∀ c ∈ cs, c ∈ bs := fun c hc => by
    obtain ⟨a, -, hac⟩ := exists_mem_of_forall₂ hcs.flip hc
    exact hac.2
  have hdistinct : cs.Pairwise fun c d => (c == d) = false :=
    pairwise_of_forall₂ hcs h.distinct fun a a' c c' hac hac' hne => by
      rw [← BEq.congr_left hac.1, ← BEq.congr_right hac'.1]
      exact hne
  rw [List.perm_ext_iff_of_nodup (nodup_of_distinct hdistinct) (nodup_of_distinct h.distinct')]
  refine fun b => ⟨hmem b, fun hb => ?_⟩
  obtain ⟨a, ha, hab⟩ := h.right b hb
  obtain ⟨c, hc, hac, hcb⟩ := exists_mem_of_forall₂ hcs ha
  rwa [← h.eq_of_beq hcb hb (BEq.trans (BEq.symm hac) hab)]

end EqualAsSets

/-! ## The order of texts -/

namespace Text

/-- A character is its own code point, or stands in for a surrogate, which no character is. -/
theorem codePoint_cases (c : Char) :
    codePoint c = c.toNat ∧ ¬ (0xD800 ≤ c.toNat ∧ c.toNat < 0xE000) ∨
      c.toNat = standInDistance + codePoint c ∧ 0xD800 ≤ codePoint c ∧ codePoint c < 0xE000 := by
  have hvalid : c.toNat < 0xD800 ∨ 0xDFFF < c.toNat ∧ c.toNat < 0x110000 := c.valid
  rw [codePoint, isSurrogate]
  generalize c.toNat = n at *
  rw [standInDistance]
  split
  next h =>
    rw [Bool.and_eq_true, decide_eq_true_eq, decide_eq_true_eq] at h
    right
    omega
  next => left; omega

theorem codePoint_injective {c d : Char} (h : codePoint c = codePoint d) : c = d := by
  have hc := codePoint_cases c
  have hd := codePoint_cases d
  rw [← Char.toNat_inj]
  omega

theorem atMost_cons_iff {c d : Char} {s t : Text} : atMost (c :: s) (d :: t) = true ↔
    codePoint c < codePoint d ∨ c = d ∧ atMost s t = true := by
  rw [atMost, Bool.or_eq_true, Bool.and_eq_true, decide_eq_true_eq, beq_iff_eq]

theorem atMost_total (s t : Text) : atMost s t = true ∨ atMost t s = true := by
  induction s generalizing t with
  | nil => exact .inl rfl
  | cons c s ih =>
    cases t with
    | nil => exact .inr rfl
    | cons d t =>
      rw [atMost_cons_iff, atMost_cons_iff]
      rcases Nat.lt_trichotomy (codePoint c) (codePoint d) with hlt | heq | hlt
      · exact .inl (.inl hlt)
      · have hcd := codePoint_injective heq
        exact (ih t).imp (fun h => .inr ⟨hcd, h⟩) fun h => .inr ⟨hcd.symm, h⟩
      · exact .inr (.inl hlt)

theorem atMost_trans {s t u : Text} (hst : atMost s t = true) (htu : atMost t u = true) :
    atMost s u = true := by
  induction s generalizing t u with
  | nil => rfl
  | cons c s ih =>
    cases t with
    | nil => cases hst
    | cons d t =>
      cases u with
      | nil => cases htu
      | cons e u =>
        rw [atMost_cons_iff] at hst htu ⊢
        rcases hst with hcd | ⟨rfl, hst⟩
        · rcases htu with hde | ⟨rfl, -⟩
          · exact .inl (Nat.lt_trans hcd hde)
          · exact .inl hcd
        · exact htu.imp_right fun ⟨hce, htu⟩ => ⟨hce, ih hst htu⟩

theorem atMost_antisymm {s t : Text} (hst : atMost s t = true) (hts : atMost t s = true) :
    s = t := by
  induction s generalizing t with
  | nil =>
    cases t with
    | nil => rfl
    | cons d t => cases hts
  | cons c s ih =>
    cases t with
    | nil => cases hst
    | cons d t =>
      rw [atMost_cons_iff] at hst hts
      rcases hst with hcd | ⟨rfl, hst⟩
      · rcases hts with hdc | ⟨rfl, -⟩ <;> omega
      · rcases hts with hcc | ⟨-, hts⟩
        · omega
        · rw [ih hst hts]

end Text

/-! ## The order of tags -/

namespace Tag

variable {t u v : Tag} {ts us : List Tag}

theorem atMost_iff : t.atMost u = true ↔
    t.kindName = u.kindName ∧ Text.atMost t.text u.text = true ∨
    t.kindName ≠ u.kindName ∧ Text.atMost t.kindName u.kindName = true := by
  rw [atMost]
  split
  next h => simp [h]
  next h => simp [h]

theorem atMost_total (t u : Tag) : t.atMost u = true ∨ u.atMost t = true := by
  rw [atMost_iff, atMost_iff]
  by_cases hkind : t.kindName = u.kindName
  · exact (Text.atMost_total t.text u.text).imp (fun h => .inl ⟨hkind, h⟩)
      fun h => .inl ⟨hkind.symm, h⟩
  · exact (Text.atMost_total t.kindName u.kindName).imp (fun h => .inr ⟨hkind, h⟩)
      fun h => .inr ⟨Ne.symm hkind, h⟩

theorem atMost_trans (htu : t.atMost u = true) (huv : u.atMost v = true) : t.atMost v = true := by
  rw [atMost_iff] at *
  rcases htu with ⟨hkind, htu⟩ | ⟨hkind, htu⟩
  · rw [hkind]
    exact huv.imp_left fun ⟨hkind', huv⟩ => ⟨hkind', Text.atMost_trans htu huv⟩
  · rcases huv with ⟨hkind', -⟩ | ⟨hkind', huv⟩
    · exact .inr (hkind' ▸ ⟨hkind, htu⟩)
    · refine .inr ⟨fun heq => hkind ?_, Text.atMost_trans htu huv⟩
      exact Text.atMost_antisymm htu (heq ▸ huv)

/-- Tags of one kind and one text are all that tie. -/
theorem atMost_antisymm_iff : t.atMost u = true ∧ u.atMost t = true ↔
    t.kindName = u.kindName ∧ t.text = u.text := by
  rw [atMost_iff, atMost_iff]
  constructor
  · rintro ⟨⟨hkind, htu⟩ | ⟨hkind, htu⟩, ⟨hkind', hut⟩ | ⟨hkind', hut⟩⟩
    · exact ⟨hkind, Text.atMost_antisymm htu hut⟩
    · exact absurd hkind.symm hkind'
    · exact absurd hkind'.symm hkind
    · exact absurd (Text.atMost_antisymm htu hut) hkind
  · rintro ⟨hkind, htext⟩
    have hrefl := (Text.atMost_total t.text t.text).elim id id
    exact ⟨.inl ⟨hkind, htext ▸ hrefl⟩, .inl ⟨hkind.symm, htext ▸ hrefl⟩⟩

/-- The first tag stands in front of the second, whatever list they are in. -/
def inFrontOf (t u : Tag) : Bool := !u.atMost t

theorem inFrontOf_iff : t.inFrontOf u = true ↔ ¬ u.atMost t = true := by
  rw [inFrontOf, Bool.not_eq_true', Bool.not_eq_true]

theorem atMost_of_inFrontOf (h : t.inFrontOf u = true) : t.atMost u = true :=
  (atMost_total t u).resolve_right (inFrontOf_iff.mp h)

theorem pairwise_sorted (ts : List Tag) : (sorted ts).Pairwise fun t u => t.atMost u = true := by
  have htrans : ∀ t u v : Tag, t.atMost u = true → u.atMost v = true → t.atMost v = true :=
    fun _ _ _ => atMost_trans
  have htotal : ∀ t u : Tag, (t.atMost u || u.atMost t) = true :=
    fun t u => Bool.or_eq_true_iff.mpr (atMost_total t u)
  exact List.pairwise_mergeSort htrans htotal ts

/-- The sort is stable. -/
theorem pair_sublist_sorted (h : t.atMost u = true) (htu : [t, u].Sublist ts) :
    [t, u].Sublist (sorted ts) :=
  List.pair_sublist_mergeSort (fun _ _ _ => atMost_trans)
    (fun t u => Bool.or_eq_true_iff.mpr (atMost_total t u)) h htu

/-! ## Sorting two spellings of a set -/

/-- Of two different tags the same one stands in front in both spellings. -/
def OrderedAlike (ts us : List Tag) : Prop :=
  ∀ t ∈ ts, ∀ u ∈ ts, (t == u) = false → ∀ t' ∈ us, ∀ u' ∈ us, (t == t') = true →
    (u == u') = true →
    t.inFrontOf u = true ∧ t'.inFrontOf u' = true ∨ u.inFrontOf t = true ∧ u'.inFrontOf t' = true

instance (ts us : List Tag) : Decidable (OrderedAlike ts us) :=
  inferInstanceAs (Decidable (∀ t ∈ ts, ∀ u ∈ ts, (t == u) = false → ∀ t' ∈ us, ∀ u' ∈ us,
    (t == t') = true → (u == u') = true →
    t.inFrontOf u = true ∧ t'.inFrontOf u' = true ∨ u.inFrontOf t = true ∧ u'.inFrontOf t' = true))

/-- A tag that may stand before another may do so in the other spelling. -/
theorem OrderedAlike.atMost (h : OrderedAlike ts us) (ht : t ∈ ts) (hu : u ∈ ts)
    (htu : (t == u) = false) (hle : t.atMost u = true) {t' u' : Tag} (ht' : t' ∈ us) (hu' : u' ∈ us)
    (htt' : (t == t') = true) (huu' : (u == u') = true) : t'.atMost u' = true := by
  rcases h t ht u hu htu t' ht' u' hu' htt' huu' with ⟨-, hfront⟩ | ⟨hfront, -⟩
  · exact atMost_of_inFrontOf hfront
  · exact absurd hle (inFrontOf_iff.mp hfront)

/-- Tags of the second spelling that tie are the same. -/
theorem OrderedAlike.antisymm (h : OrderedAlike ts us) (hset : EqualAsSets ts us) (ht : t ∈ us)
    (hu : u ∈ us) (htu : t.atMost u = true) (hut : u.atMost t = true) : t = u := by
  refine hset.eq_of_beq ht hu ?_
  by_contra hne
  obtain ⟨t₀, ht₀, htt₀⟩ := hset.right t ht
  obtain ⟨u₀, hu₀, huu₀⟩ := hset.right u hu
  have hne₀ : (t₀ == u₀) = false := by
    rw [BEq.congr_left htt₀, BEq.congr_right huu₀]
    simpa using hne
  rcases h t₀ ht₀ u₀ hu₀ hne₀ t ht u hu htt₀ huu₀ with ⟨-, hfront⟩ | ⟨-, hfront⟩
  · exact inFrontOf_iff.mp hfront hut
  · exact inFrontOf_iff.mp hfront htu

/-- Where two spellings order their tags alike, they are sorted alike. -/
theorem OrderedAlike.sorted_forall₂ (h : OrderedAlike ts us) (hset : EqualAsSets ts us)
    {l l' : List Tag} (hl : l.Perm ts) (hl' : l'.Perm us) :
    List.Forall₂ (fun t u => (t == u) = true) (sorted l) (sorted l') := by
  have hsorted : (sorted l).Perm ts := (sorted_perm l).trans hl
  have hdistinct : (sorted l).Pairwise fun t u => (t == u) = false :=
    (hsorted.pairwise_iff fun hne => by rwa [BEq.comm]).mpr hset.distinct
  -- the partners of the sorted tags, in the order of these
  obtain ⟨partners, hpartners⟩ :=
    exists_forall₂ (R := fun t u => t ∈ ts ∧ (t == u) = true ∧ u ∈ us) fun t ht => by
      obtain ⟨u, hu, htu⟩ := hset.left t (hsorted.mem_iff.mp ht)
      exact ⟨u, hsorted.mem_iff.mp ht, htu, hu⟩
  have hsortedSet : EqualAsSets (sorted l) us :=
    ⟨hdistinct, hset.distinct', fun t ht => hset.left t (hsorted.mem_iff.mp ht),
      fun u hu => by simpa only [hsorted.mem_iff] using hset.right u hu⟩
  have hperm : partners.Perm us :=
    hsortedSet.perm_of_forall₂ (hpartners.imp fun _ _ => And.right)
  have hordered : partners.Pairwise fun t u => t.atMost u = true :=
    pairwise_of_forall₂ hpartners ((pairwise_sorted l).and hdistinct) fun t u t' u' htt' huu' hle =>
      h.atMost htt'.1 huu'.1 hle.2 hle.1 htt'.2.2 huu'.2.2 htt'.2.1 huu'.2.1
  have hsorted' : (sorted l').Perm us := (sorted_perm l').trans hl'
  have hsame : partners = sorted l' :=
    (hperm.trans hsorted'.symm).eq_of_pairwise
      (fun t u ht hu => h.antisymm hset (hperm.mem_iff.mp ht) (hsorted'.mem_iff.mp hu))
      hordered (pairwise_sorted l')
  rw [← hsame]
  exact hpartners.imp fun _ _ hR => hR.2.1

/-- If every two enumerations are sorted alike, a tag that may stand before another has to do so in
the other spelling. -/
theorem inFrontOf_of_sorted (hset : EqualAsSets ts us)
    (h : ∀ l l', l.Perm ts → l'.Perm us →
      List.Forall₂ (fun t u => (t == u) = true) (sorted l) (sorted l'))
    (ht : t ∈ ts) (hu : u ∈ ts) (htu : (t == u) = false) {t' u' : Tag} (ht' : t' ∈ us)
    (hu' : u' ∈ us) (htt' : (t == t') = true) (huu' : (u == u') = true) (hle : t.atMost u = true) :
    t'.inFrontOf u' = true := by
  rw [inFrontOf_iff]
  intro hle'
  have hne : u ≠ t := by
    rintro rfl
    rw [BEq.refl] at htu
    cases htu
  have hne' : t' ≠ u' := by
    rintro rfl
    rw [BEq.trans htt' (BEq.symm huu')] at htu
    cases htu
  -- enumerate the first spelling with `t` in front, and the second with the partner of `u` in front
  obtain ⟨l, hl, hpair⟩ := exists_perm_pair ht hu hne
  obtain ⟨l', hl', hpair'⟩ := exists_perm_pair hu' ht' hne'
  have hsorted' : (sorted l').Perm us := (sorted_perm l').trans hl'
  obtain ⟨v, w, htv, huw, hvw⟩ :=
    exists_pair_of_forall₂ (h l l' hl hl') (pair_sublist_sorted hle hpair)
  have hv : v = t' :=
    hset.eq_of_beq (hsorted'.mem_iff.mp (hvw.subset (List.mem_cons_self ..))) ht'
      (BEq.trans (BEq.symm htv) htt')
  have hw : w = u' :=
    hset.eq_of_beq (hsorted'.mem_iff.mp (hvw.subset (List.mem_cons_of_mem _ (.head _)))) hu'
      (BEq.trans (BEq.symm huw) huu')
  rw [hv, hw] at hvw
  have hnodup : (sorted l').Nodup :=
    hsorted'.nodup_iff.mpr (EqualAsSets.nodup_of_distinct hset.distinct')
  exact not_sublist_swap hnodup hvw (pair_sublist_sorted hle' hpair')

theorem orderedAlike_of_sorted (hset : EqualAsSets ts us)
    (h : ∀ l l', l.Perm ts → l'.Perm us →
      List.Forall₂ (fun t u => (t == u) = true) (sorted l) (sorted l')) : OrderedAlike ts us := by
  intro t ht u hu htu t' ht' u' hu' htt' huu'
  have hflip : ∀ l l', l.Perm us → l'.Perm ts →
      List.Forall₂ (fun t u => (t == u) = true) (sorted l) (sorted l') := fun l l' hl hl' =>
    ((h l' l hl' hl).imp fun _ _ => BEq.symm).flip
  have hut : (u == t) = false := by rwa [BEq.comm]
  have htu' : (t' == u') = false := by rwa [← BEq.congr_left htt', ← BEq.congr_right huu']
  have hut' : (u' == t') = false := by rwa [BEq.comm]
  rcases atMost_total t u with hle | hle
  · have hfront' := inFrontOf_of_sorted hset h ht hu htu ht' hu' htt' huu' hle
    have hfront := inFrontOf_of_sorted hset.symm hflip ht' hu' htu' ht hu (BEq.symm htt')
      (BEq.symm huu') (atMost_of_inFrontOf hfront')
    exact .inl ⟨hfront, hfront'⟩
  · have hfront' := inFrontOf_of_sorted hset h hu ht hut hu' ht' huu' htt' hle
    have hfront := inFrontOf_of_sorted hset.symm hflip hu' ht' hut' hu ht (BEq.symm huu')
      (BEq.symm htt') (atMost_of_inFrontOf hfront')
    exact .inr ⟨hfront, hfront'⟩

theorem forall_sorted_iff (hset : EqualAsSets ts us) :
    (∀ l l', l.Perm ts → l'.Perm us →
      List.Forall₂ (fun t u => (t == u) = true) (sorted l) (sorted l')) ↔ OrderedAlike ts us :=
  ⟨orderedAlike_of_sorted hset, fun h _ _ => h.sorted_forall₂ hset⟩

end Tag

/-! ## Proven rules -/

variable {facts facts' : List Fact}

theorem EqualAsSets.map_fact (h : EqualAsSets facts facts') :
    EqualAsSets (facts.map Tag.fact) (facts'.map Tag.fact) where
  distinct := List.pairwise_map.mpr h.distinct
  distinct' := List.pairwise_map.mpr h.distinct'
  left := List.forall_mem_map.mpr fun f hf => by
    obtain ⟨g, hg, hfg⟩ := h.left f hf
    exact ⟨_, List.mem_map_of_mem hg, hfg⟩
  right := List.forall_mem_map.mpr fun g hg => by
    obtain ⟨f, hf, hfg⟩ := h.right g hg
    exact ⟨_, List.mem_map_of_mem hf, hfg⟩

/-- An enumeration of facts as tags comes from one of the facts. -/
theorem exists_map_fact_eq {ts : List Tag} (h : ts.Perm (facts.map .fact)) :
    ∃ fs : List Fact, fs.Perm facts ∧ fs.map .fact = ts := by
  have hfact : ∀ t ∈ ts, t.asFact?.map Tag.fact = some t := by
    intro t ht
    obtain ⟨f, -, rfl⟩ := List.mem_map.mp (h.mem_iff.mp ht)
    rfl
  refine ⟨ts.filterMap Tag.asFact?, ?_, ?_⟩
  · have hperm := h.filterMap Tag.asFact?
    rwa [List.filterMap_map, show Tag.asFact? ∘ Tag.fact = some from rfl, List.filterMap_some]
      at hperm
  · rw [List.map_filterMap, List.filterMap_congr hfact, List.filterMap_some]

theorem provenRule_beq_iff {fs gs : List Fact} {ts us : List Tag} :
    (provenRule fs ts == provenRule gs us) = true ↔
      List.Forall₂ (fun t u => (t == u) = true) (Tag.sorted (fs.map .fact))
        (Tag.sorted (gs.map .fact)) ∧
      List.Forall₂ (fun t u => (t == u) = true) (Tag.sorted ts) (Tag.sorted us) :=
  Rule.beq_iff

/-- Two lists of tags without repetition that are equal as sets are sorted alike, however they are
enumerated, just when the order of the texts tells any two different tags apart and is the same in
both spellings. Runs that derive equal sets of tags from equal sets of facts have equal proven rules
just when that is so of the facts and of the tags derived. -/
theorem sorted_alike_iff {derived derived' : List Tag} (hfacts : EqualAsSets facts facts')
    (hderived : EqualAsSets derived derived') :
    ((∀ ts us, ts.Perm derived → us.Perm derived' →
        List.Forall₂ (fun t u => (t == u) = true) (Tag.sorted ts) (Tag.sorted us)) ↔
      Tag.OrderedAlike derived derived') ∧
    ((∀ fs gs ts us, fs.Perm facts → gs.Perm facts' → ts.Perm derived → us.Perm derived' →
        (provenRule fs ts == provenRule gs us) = true) ↔
      Tag.OrderedAlike (facts.map .fact) (facts'.map .fact) ∧
        Tag.OrderedAlike derived derived') := by
  refine ⟨Tag.forall_sorted_iff hderived, ?_⟩
  rw [← Tag.forall_sorted_iff hfacts.map_fact, ← Tag.forall_sorted_iff hderived]
  constructor
  · intro h
    refine ⟨fun l l' hl hl' => ?_, fun ts us hts hus => ?_⟩
    · obtain ⟨fs, hfs, rfl⟩ := exists_map_fact_eq hl
      obtain ⟨gs, hgs, rfl⟩ := exists_map_fact_eq hl'
      exact (provenRule_beq_iff.mp (h fs gs _ _ hfs hgs (.refl _) (.refl _))).1
    · exact (provenRule_beq_iff.mp (h _ _ ts us (.refl _) (.refl _) hts hus)).2
  · rintro ⟨hsortedFacts, hsorted⟩ fs gs ts us hfs hgs hts hus
    exact provenRule_beq_iff.mpr
      ⟨hsortedFacts _ _ (hfs.map _) (hgs.map _), hsorted ts us hts hus⟩

/-- A fact of a number, spelled in a given way. -/
def Fact.ofNumber (predicate : Char) (n : Nat) (token : Text) : Fact :=
  ⟨[predicate], [⟨.number (.ofNat n) .eq, token⟩], .certain⟩

/-- Other spellings that keep the order: `P(5)` and `P(05)` both stand in front of `P(6)`, and
`Q(7)` and `Q(7.0)` in front of the recommendation. -/
theorem sorted_alike_iff_leading_zero :
    let facts : List Fact := [.ofNumber 'P' 6 ['6'], .ofNumber 'P' 5 ['5']]
    let facts' : List Fact := [.ofNumber 'P' 5 ['0', '5'], .ofNumber 'P' 6 ['6']]
    let go : Recommendation := ⟨['@', 'g', 'o'], rfl⟩
    let derived : List Tag := [.fact (.ofNumber 'Q' 7 ['7']), .recommendation go]
    let derived' : List Tag := [.recommendation go, .fact (.ofNumber 'Q' 7 ['7', '.', '0'])]
    EqualAsSets facts facts' ∧ EqualAsSets derived derived' ∧
      ∀ fs gs ts us, fs.Perm facts → gs.Perm facts' → ts.Perm derived → us.Perm derived' →
        (provenRule fs ts == provenRule gs us) = true := by
  intro facts facts' go derived derived'
  have hfacts : EqualAsSets facts facts' := by decide +kernel
  have hderived : EqualAsSets derived derived' := by decide +kernel
  exact ⟨hfacts, hderived, (sorted_alike_iff hfacts hderived).2.mpr (by decide +kernel)⟩

/-- `P(5)` and `P(05)` are one fact, but `P(10)` stands in front of the one and behind the other. So
the two runs derive the same from the same facts and have different proven rules. -/
theorem not_sorted_alike_leading_zero :
    let facts : List Fact := [.ofNumber 'P' 10 ['1', '0'], .ofNumber 'P' 5 ['5']]
    let facts' : List Fact := [.ofNumber 'P' 5 ['0', '5'], .ofNumber 'P' 10 ['1', '0']]
    let go : Recommendation := ⟨['@', 'g', 'o'], rfl⟩
    let r : Rule := ⟨[.fact ⟨['P'], [.named ['x'] .single []], .certain⟩], [.recommendation go]⟩
    let derived := fun fs : List Fact =>
      (Run.extend .oldestFirst 4 (.start (ExpertSystem.new [r] fs [] 4 1).memory)).derived.items
    EqualAsSets (facts.map Tag.fact) (facts'.map Tag.fact) ∧
      ¬ List.Forall₂ (fun t u => (t == u) = true) (Tag.sorted (facts.map .fact))
        (Tag.sorted (facts'.map .fact)) ∧
      EqualAsSets (derived facts) (derived facts') ∧ (derived facts).length = 1 ∧
      (provenRule facts (derived facts) == provenRule facts' (derived facts')) = false := by
  intro facts facts' go r derived
  have hsorted : Tag.sorted (facts.map .fact) = facts.map .fact :=
    List.mergeSort_of_pairwise (by decide +kernel)
  have hsorted' : Tag.sorted (facts'.map .fact) = facts'.map .fact :=
    List.mergeSort_of_pairwise (by decide +kernel)
  have hdiffer : ¬ List.Forall₂ (fun t u => (t == u) = true) (Tag.sorted (facts.map .fact))
      (Tag.sorted (facts'.map .fact)) := by
    rw [hsorted, hsorted', ← Tag.allEqual_iff_forall₂]
    decide +kernel
  refine ⟨by decide +kernel, hdiffer, by decide +kernel, by decide +kernel, ?_⟩
  rw [← Bool.not_eq_true]
  exact fun h => hdiffer (provenRule_beq_iff.mp h).1

end TagReasoner
