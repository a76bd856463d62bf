import TagReasoner.Proofs.Matching.Unification
import Mathlib.Data.List.TakeWhile

/-!
# Matching plain facts with patterns

When the known fact is plain, only variables of the pattern are ever bound, and only to arguments
of the fact. So a match has a meaning of its own, `Fact.FitsUnder`: what the predicates, the lengths
and each slot of the pattern in front of its first wildcard have to satisfy under an assignment.
`respects_matchFacts_iff` says that matching decides it. Equal facts fit the same patterns, and a
pattern that is plain itself is fitted by equal facts only (`fits_eq_beq`).
-/

namespace TagReasoner

/-! ## Slots of a pattern -/

/-- The name of a variable that is no bare mark. -/
def Argument.givenName? (a : Argument) : Option Text := if a.isAnonymous then none else a.name?

/-- The arguments in front of the first wildcard. -/
def Argument.slots (bs : List Argument) : List Argument := bs.takeWhile fun b => !b.isWildcard

/-- The known argument fits the slot: a bare mark, a variable with the value of the argument, or a
value that the argument is compatible with. -/
def Argument.FitsSlot (v : Assignment) (a b : Argument) : Prop :=
  b.isAnonymous = true ∨ (∃ n, b.givenName? = some n ∧ (v n == a) = true) ∨
    (b.isVariable = false ∧ a.compatible b = true)

namespace Fact

/-- All arguments are plain. -/
def isPlain (f : Fact) : Bool := f.arguments.all Argument.isPlain

/-- The arguments of a pattern in front of its first wildcard. -/
def slots (p : Fact) : List Argument := Argument.slots p.arguments

/-- The names that a match binds: those of the variables in the slots. -/
def boundNames (p : Fact) : List Text := p.slots.filterMap Argument.givenName?

/-- A known fact fits a pattern under an assignment. -/
structure FitsUnder (v : Assignment) (f p : Fact) : Prop where
  predicate : f.predicate = p.predicate
  /-- What the pattern has beyond the length of the fact are wildcards. -/
  extra : ∀ b ∈ p.arguments.drop f.arity, b.isWildcard = true
  /-- The pattern is as long as the fact, unless a wildcard ends it. -/
  long : (∃ b ∈ p.arguments.take f.arity, b.isWildcard = true) ∨ f.arity ≤ p.arity
  /-- Each slot within the length of the fact fits. -/
  slots : ∀ ab ∈ f.arguments.zip p.slots, Argument.FitsSlot v ab.1 ab.2

end Fact

namespace Argument

theorem slots_cons_of_wildcard {b : Argument} (h : b.isWildcard = true) (bs : List Argument) :
    slots (b :: bs) = [] := by
  rw [slots, List.takeWhile_cons_of_neg (by simp [h])]

theorem slots_cons_of_not_wildcard {b : Argument} (h : b.isWildcard = false) (bs : List Argument) :
    slots (b :: bs) = b :: slots bs := by
  rw [slots, List.takeWhile_cons_of_pos (by simp [h])]
  rfl

theorem givenName?_eq_some_iff {a : Argument} {n : Text} :
    a.givenName? = some n ↔ a.isAnonymous = false ∧ a.name? = some n := by
  unfold givenName?
  cases a.isAnonymous <;> simp

end Argument

/-! ## One slot -/

/-- All that is bound is plain. -/
def Substitution.Plain (θ : Substitution) : Prop := ∀ n c, θ.get? n = some c → c.isPlain = true

theorem Substitution.plain_empty : Substitution.Plain .empty := by
  intro n c h
  cases h

/-- Each bound variable has what it is bound to for its value. -/
def Substitution.values (θ : Substitution) : Assignment := fun n => (θ.get? n).getD (.literal [])

theorem Substitution.Plain.respects_values {θ : Substitution} (h : θ.Plain) :
    θ.values.Respects θ := by
  intro n c hn
  rw [Argument.valueUnder_of_value (Argument.name?_of_isPlain (h n c hn)), values, hn]
  exact BEq.refl _

section Slot

variable {θ : Substitution} {a b : Argument}

theorem unifyArguments_anonymous (hb : b.isAnonymous = true) : unifyArguments a b θ = some θ := by
  rw [unifyArguments, if_pos (by rw [hb, Bool.or_true])]

/-- A value in the slot is compared. -/
theorem unifyArguments_value (ha : a.isPlain = true) (hb : b.name? = none) :
    unifyArguments a b θ = if a.compatible b then some θ else none := by
  have haname := Argument.name?_of_isPlain ha
  have hanon := Argument.isAnonymous_of_name?_eq_none haname
  have hbnon := Argument.isAnonymous_of_name?_eq_none hb
  simp only [unifyArguments, hanon, hbnon, Bool.or_false, Bool.false_eq_true, if_false,
    Substitution.resolve_of_value haname, Substitution.resolve_of_value hb, hb, haname]
  split
  next hsame =>
    have hbplain : b.isPlain = true := by rwa [← Argument.isPlain_congr hsame]
    rw [if_pos (by rw [Argument.compatible_eq_beq ha hbplain, hsame])]
  next => rfl

/-- A variable that is bound is compared by its value. -/
theorem unifyArguments_bound {n : Text} {c : Argument} (ha : a.isPlain = true)
    (hb : b.givenName? = some n) (hc : c.isPlain = true) (hn : θ.get? n = some c) :
    unifyArguments a b θ = if a == c then some θ else none := by
  have haname := Argument.name?_of_isPlain ha
  have hcname := Argument.name?_of_isPlain hc
  obtain ⟨hbnon, hb⟩ := Argument.givenName?_eq_some_iff.mp hb
  simp only [unifyArguments, Argument.isAnonymous_of_name?_eq_none haname, hbnon, Bool.or_false,
    Bool.false_eq_true, if_false, Substitution.resolve_of_value haname,
    Substitution.resolve_of_bound hb hn, Substitution.resolve_of_value hcname, hcname, haname,
    Argument.compatible_eq_beq ha hc]
  split <;> rfl

/-- A variable that is free is bound. -/
theorem unifyArguments_free {n : Text} (haname : a.name? = none) (hb : b.givenName? = some n)
    (hn : θ.get? n = none) : unifyArguments a b θ = some (θ.put n a) := by
  obtain ⟨hbnon, hb⟩ := Argument.givenName?_eq_some_iff.mp hb
  have hne : (a == b) = false := by
    rw [Bool.eq_false_iff]
    intro h
    rw [Argument.name?_congr h, hb] at haname
    cases haname
  simp only [unifyArguments, Argument.isAnonymous_of_name?_eq_none haname, hbnon, Bool.or_false,
    Bool.false_eq_true, if_false, Substitution.resolve_of_value haname,
    Substitution.resolve_of_unbound hb hn, hne, hb]

end Slot

/-- What one step against a slot does to the assignments that are respected. -/
theorem respects_unifyArguments_slot_iff {v : Assignment} {θ : Substitution} {a b : Argument}
    (hθ : θ.Plain) (ha : a.isPlain = true) :
    v.Respects θ ∧ Argument.FitsSlot v a b ↔
      ∃ θ', unifyArguments a b θ = some θ' ∧ v.Respects θ' := by
  cases hanon : b.isAnonymous with
  | true =>
    rw [unifyArguments_anonymous hanon]
    simp [Argument.FitsSlot, hanon]
  | false =>
    cases hname : b.name? with
    | none =>
      have hgiven : b.givenName? = none := by rw [Argument.givenName?, hname, ite_self]
      rw [unifyArguments_value ha hname]
      cases hcompat : a.compatible b <;>
        simp [Argument.FitsSlot, Argument.isVariable, hanon, hname, hgiven, hcompat]
    | some n =>
      have hgiven : b.givenName? = some n := Argument.givenName?_eq_some_iff.mpr ⟨hanon, hname⟩
      have hfits : Argument.FitsSlot v a b ↔ (v n == a) = true := by
        simp [Argument.FitsSlot, Argument.isVariable, hanon, hname, hgiven]
      rw [hfits]
      cases hn : θ.get? n with
      | none =>
        rw [unifyArguments_free (Argument.name?_of_isPlain ha) hgiven hn]
        have hput : v.Respects (θ.put n a) ↔ v.Respects θ ∧ (v n == a.valueUnder v) = true :=
          Assignment.respects_put_iff (by simp [hn])
        rw [Argument.valueUnder_of_value (Argument.name?_of_isPlain ha)] at hput
        simp [hput]
      | some c =>
        have hc := hθ n c hn
        rw [unifyArguments_bound ha hgiven hc hn]
        have hvalue : v.Respects θ → (v n == c) = true := fun hv => by
          have := hv n c hn
          rwa [Argument.valueUnder_of_value (Argument.name?_of_isPlain hc)] at this
        -- with a value already, the variable takes no part: both values are compared
        cases hac : a == c with
        | true =>
          simp only [if_true, Option.some.injEq, exists_eq_left']
          exact and_iff_left_of_imp fun hv => BEq.trans (hvalue hv) (BEq.symm hac)
        | false =>
          simp only [Bool.false_eq_true, if_false, reduceCtorEq, false_and, exists_false, iff_false]
          rintro ⟨hv, hna⟩
          rw [BEq.trans (BEq.symm hna) (hvalue hv)] at hac
          cases hac

/-! ## What a slot binds

Which names a match binds does not need the fact to be plain: it is enough that it has neither
variables nor wildcards, whatever its numbers and their operators are. -/

section Names

variable {P : Argument → Bool} (hP : ∀ a, P a = true → a.isGround = true)
include hP

/-- Where values only are bound, a step of a value against a slot binds a free name in the slot to
the value, and nothing else. -/
theorem unifyArguments_slot_cases {θ θ' : Substitution} {a b : Argument}
    (hθ : ∀ n c, θ.get? n = some c → P c = true) (ha : P a = true)
    (hu : unifyArguments a b θ = some θ') :
    (θ' = θ ∧ ∀ n, b.givenName? = some n → (θ.get? n).isSome = true) ∨
      ∃ n, b.givenName? = some n ∧ θ.get? n = none ∧ θ' = θ.put n a := by
  have haname := (Argument.isGround_iff.mp (hP a ha)).1
  have hresolved : θ.resolve a = a := Substitution.resolve_of_value haname
  -- a given name that is free stays what it is, and is not the value
  have hfree : ∀ n, b.givenName? = some n → θ.get? n = none → θ.resolve b = b := fun n hn hfree =>
    Substitution.resolve_of_unbound (Argument.givenName?_eq_some_iff.mp hn).2 hfree
  have hbound : (∀ n, (θ.resolve b).name? ≠ some n) →
      ∀ n, b.givenName? = some n → (θ.get? n).isSome = true := by
    intro hvalue n hn
    by_contra hno
    rw [Bool.not_eq_true, Option.isSome_eq_false_iff, Option.isNone_iff_eq_none] at hno
    exact hvalue n (by rw [hfree n hn hno, (Argument.givenName?_eq_some_iff.mp hn).2])
  have hspec := unifyArguments_spec a b θ
  rw [hu] at hspec
  cases hspec with
  | anonymous hanon =>
    rw [Argument.isAnonymous_of_name?_eq_none haname, Bool.false_or] at hanon
    refine .inl ⟨rfl, fun n hn => ?_⟩
    rw [Argument.givenName?, if_pos hanon] at hn
    cases hn
  | same hanon hsame =>
    refine .inl ⟨rfl, hbound fun n hn => ?_⟩
    rw [hresolved] at hsame
    rw [← Argument.name?_congr hsame, haname] at hn
    cases hn
  | bindSecond n hanon hsame hn =>
    obtain ⟨m, hm⟩ : ∃ m, b.name? = some m := by
      cases hb : b.name? with
      | some m => exact ⟨m, rfl⟩
      | none =>
        rw [Substitution.resolve_of_value hb, hb] at hn
        cases hn
    have hgiven : b.givenName? = some m :=
      Argument.givenName?_eq_some_iff.mpr ⟨(Bool.or_eq_false_iff.mp hanon).2, hm⟩
    cases hmθ : θ.get? m with
    | none =>
      rw [hfree m hgiven hmθ, hm] at hn
      cases hn
      exact .inr ⟨n, hgiven, hmθ, by rw [hresolved]⟩
    | some c =>
      have hcname := (Argument.isGround_iff.mp (hP c (hθ m c hmθ))).1
      rw [Substitution.resolve_of_bound hm hmθ, Substitution.resolve_of_value hcname, hcname] at hn
      cases hn
  | bindFirst n hanon hsame hb hn =>
    rw [hresolved, haname] at hn
    cases hn
  | compatible hanon hsame hb =>
    refine .inl ⟨rfl, hbound fun n hn => ?_⟩
    rw [hb] at hn
    cases hn

/-- A step against a slot binds the slot's name, if it has one, and nothing else. -/
theorem unifyArguments_slot_names {θ θ' : Substitution} {a b : Argument}
    (hθ : ∀ n c, θ.get? n = some c → P c = true) (ha : P a = true)
    (hu : unifyArguments a b θ = some θ') :
    (∀ n c, θ'.get? n = some c → P c = true) ∧ ∀ n, (θ'.get? n).isSome = true ↔
      (θ.get? n).isSome = true ∨ b.givenName? = some n := by
  rcases unifyArguments_slot_cases hP hθ ha hu with ⟨rfl, hbound⟩ | ⟨m, hgiven, -, rfl⟩
  · exact ⟨hθ, fun n => (or_iff_left_of_imp (hbound n)).symm⟩
  · refine ⟨Keyed.forall_put hθ ha, fun n => ?_⟩
    rw [hgiven]
    by_cases hnm : n = m
    · rw [hnm, Keyed.get?_put_self]
      simp
    · rw [Keyed.get?_put_ne θ hnm]
      simp [Ne.symm hnm]

/-- Along the arguments, exactly the names in the slots are bound. -/
theorem matchArguments_slot_names {θ θ' : Substitution} {as bs : List Argument}
    (hθ : ∀ n c, θ.get? n = some c → P c = true) (has : ∀ a ∈ as, P a = true)
    (hextra : ∀ b ∈ bs.drop as.length, b.isWildcard = true)
    (hm : matchArguments as bs θ = some θ') :
    (∀ n c, θ'.get? n = some c → P c = true) ∧ ∀ n, (θ'.get? n).isSome = true ↔
      (θ.get? n).isSome = true ∨ n ∈ (Argument.slots bs).filterMap Argument.givenName? := by
  induction as generalizing bs θ with
  | nil =>
    rw [matchArguments] at hm
    cases hm
    have hnone : Argument.slots bs = [] := by
      cases bs with
      | nil => rfl
      | cons b bs =>
        exact Argument.slots_cons_of_wildcard (hextra b (List.mem_cons_self ..)) bs
    rw [hnone]
    exact ⟨hθ, by simp⟩
  | cons a as ih =>
    obtain ⟨ha, has⟩ := List.forall_mem_cons.mp has
    cases bs with
    | nil => cases hm
    | cons b bs =>
      rw [matchArguments, (Argument.isGround_iff.mp (hP a ha)).2, Bool.false_or] at hm
      cases hb : b.isWildcard with
      | true =>
        rw [hb, if_pos rfl] at hm
        cases hm
        rw [Argument.slots_cons_of_wildcard hb]
        exact ⟨hθ, by simp⟩
      | false =>
        rw [hb, if_neg (by simp)] at hm
        obtain ⟨θ₁, hu, hm⟩ := Option.bind_eq_some_iff.mp hm
        obtain ⟨hθ₁, hfirst⟩ := unifyArguments_slot_names hP hθ ha hu
        obtain ⟨hθ', hrest⟩ := ih hθ₁ has hextra hm
        refine ⟨hθ', fun n => ?_⟩
        rw [hrest n, hfirst n, Argument.slots_cons_of_not_wildcard hb, or_assoc]
        refine or_congr_right ?_
        cases hgiven : b.givenName? <;> simp [hgiven, eq_comm]

/-- A match binds the names in the slots of the pattern, all to arguments of the fact. -/
theorem matchFacts_boundNames {θ θ' : Substitution} {f p : Fact}
    (hθ : ∀ n c, θ.get? n = some c → P c = true) (hf : ∀ a ∈ f.arguments, P a = true)
    (hm : matchFacts f p θ = some θ') :
    (∀ n c, θ'.get? n = some c → P c = true) ∧
      ∀ n, (θ'.get? n).isSome = true ↔ (θ.get? n).isSome = true ∨ n ∈ p.boundNames := by
  rw [matchFacts_eq_some_iff] at hm
  exact matchArguments_slot_names hP hθ hf hm.2.1 hm.2.2

end Names

/-! ## All slots -/

/-- Along the arguments, up to the first wildcard of the pattern. -/
theorem respects_matchArguments_slots_iff (v : Assignment) {θ : Substitution}
    {as : List Argument} (bs : List Argument) (hθ : θ.Plain) (has : ∀ a ∈ as, a.isPlain = true) :
    (v.Respects θ ∧ ((∃ b ∈ bs.take as.length, b.isWildcard = true) ∨ as.length ≤ bs.length) ∧
        ∀ ab ∈ as.zip (Argument.slots bs), Argument.FitsSlot v ab.1 ab.2) ↔
      ∃ θ', matchArguments as bs θ = some θ' ∧ v.Respects θ' := by
  induction as generalizing bs θ with
  | nil => simp [matchArguments]
  | cons a as ih =>
    obtain ⟨ha, has⟩ := List.forall_mem_cons.mp has
    cases bs with
    | nil => simp [matchArguments]
    | cons b bs =>
      rw [matchArguments, Argument.isWildcard_of_isPlain ha, Bool.false_or]
      cases hb : b.isWildcard with
      | true =>
        rw [Argument.slots_cons_of_wildcard hb]
        simp [hb]
      | false =>
        rw [Argument.slots_cons_of_not_wildcard hb, List.zip_cons_cons, List.forall_mem_cons]
        have hstep := respects_unifyArguments_slot_iff (v := v) (b := b) hθ ha
        have hlong : ((∃ c ∈ (b :: bs).take (a :: as).length, c.isWildcard = true) ∨
              (a :: as).length ≤ (b :: bs).length) ↔
            (∃ c ∈ bs.take as.length, c.isWildcard = true) ∨ as.length ≤ bs.length := by
          simp [hb]
        rw [hlong]
        cases hu : unifyArguments a b θ with
        | none =>
          rw [hu] at hstep
          have hno : ¬ (v.Respects θ ∧ Argument.FitsSlot v a b) := by simp [hstep]
          simp only [Bool.false_eq_true, if_false, Option.bind_none, reduceCtorEq, false_and,
            exists_false, iff_false]
          rintro ⟨hv, -, hfit, -⟩
          exact hno ⟨hv, hfit⟩
        | some θ₁ =>
          rw [hu] at hstep
          simp only [Bool.false_eq_true, if_false, Option.bind_some]
          rw [← ih bs (unifyArguments_slot_names Argument.isGround_of_isPlain hθ ha hu).1 has]
          simp only [Option.some.injEq, exists_eq_left'] at hstep
          rw [← hstep]
          constructor
          · rintro ⟨hv, hlong, hfit, hfits⟩
            exact ⟨⟨hv, hfit⟩, hlong, hfits⟩
          · rintro ⟨⟨hv, hfit⟩, hlong, hfits⟩
            exact ⟨hv, hlong, hfit, hfits⟩

/-! ## Matching a plain fact -/

/-- A match of a plain fact succeeds just when the fact fits, and adds to the bindings what fitting
says of the assignment. -/
theorem respects_matchFacts_iff {v : Assignment} {θ : Substitution} {f p : Fact} (hθ : θ.Plain)
    (hf : f.isPlain = true) :
    v.Respects θ ∧ f.FitsUnder v p ↔ ∃ θ', matchFacts f p θ = some θ' ∧ v.Respects θ' := by
  have hslots := respects_matchArguments_slots_iff v p.arguments hθ (List.all_eq_true.mp hf)
  simp only [matchFacts_eq_some_iff]
  constructor
  · rintro ⟨hv, hpred, hextra, hlong, hfits⟩
    obtain ⟨θ', hm, hv'⟩ := hslots.mp ⟨hv, hlong, hfits⟩
    exact ⟨θ', ⟨hpred, hextra, hm⟩, hv'⟩
  · rintro ⟨θ', ⟨hpred, hextra, hm⟩, hv'⟩
    obtain ⟨hv, hlong, hfits⟩ := hslots.mpr ⟨θ', hm, hv'⟩
    exact ⟨hv, hpred, hextra, hlong, hfits⟩

theorem Substitution.Plain.matchFacts {θ θ' : Substitution} {f p : Fact} (hθ : θ.Plain)
    (hf : f.isPlain = true) (hm : matchFacts f p θ = some θ') : θ'.Plain :=
  (matchFacts_boundNames Argument.isGround_of_isPlain hθ (List.all_eq_true.mp hf) hm).1

theorem Fact.fits_iff {f p : Fact} (hf : f.isPlain = true) :
    f.fits p = true ↔ ∃ v, f.FitsUnder v p := by
  rw [Fact.fits, Option.isSome_iff_exists]
  constructor
  · rintro ⟨θ, hm⟩
    have hθ := Substitution.plain_empty.matchFacts hf hm
    have hfit := (respects_matchFacts_iff Substitution.plain_empty hf).mpr
      ⟨θ, hm, hθ.respects_values⟩
    exact ⟨_, hfit.2⟩
  · rintro ⟨v, hfit⟩
    obtain ⟨θ, hm, -⟩ := (respects_matchFacts_iff Substitution.plain_empty hf).mp
      ⟨v.respects_empty, hfit⟩
    exact ⟨θ, hm⟩

/-! ## Equal facts -/

/-- Only the place of a number matters. -/
theorem Argument.numbersMatch_congr {x y : Binary64} (h : x.rank = y.rank) (r : Relation)
    (z : Binary64) (s : Relation) : numbersMatch x r z s = numbersMatch y r z s := by
  have hequal : x.equal z = y.equal z := by rw [Binary64.equal, Binary64.equal, h]
  have hequal' : z.equal x = z.equal y := by rw [Binary64.equal, Binary64.equal, h]
  have hbelow : x.below z = y.below z := by rw [Binary64.below, Binary64.below, h]
  have hbelow' : z.below x = z.below y := by rw [Binary64.below, Binary64.below, h]
  have hmost : x.atMost z = y.atMost z := by rw [Binary64.atMost, Binary64.atMost, h]
  have hmost' : z.atMost x = z.atMost y := by rw [Binary64.atMost, Binary64.atMost, h]
  have hleft : ∀ t : Relation, t.holds x z = t.holds y z := fun t => by
    cases t <;> simp only [Relation.holds, hequal, hbelow, hbelow', hmost, hmost']
  have hright : ∀ t : Relation, t.holds z x = t.holds z y := fun t => by
    cases t <;> simp only [Relation.holds, hequal', hbelow, hbelow', hmost, hmost']
  rw [numbersMatch, numbersMatch, hequal, hleft, hright]

theorem Argument.compatible_congr {a a' : Argument} (h : (a == a') = true) (b : Argument) :
    a.compatible b = a'.compatible b := by
  rw [Argument.beq_def] at h
  unfold Argument.compatible
  cases hs : a.term <;> cases ht : a'.term <;>
    simp only [hs, ht, Term.equal, Bool.false_eq_true] at h ⊢
  case literal.literal =>
    rw [eq_of_beq h]
  case number.number x r y t =>
    rw [Bool.and_eq_true, Binary64.same_iff, beq_iff_eq] at h
    cases b.term <;> simp only [Argument.numbersMatch_congr h.1, h.2]
  case variable.variable =>
    cases b.term <;> rfl

theorem Argument.numbersMatch_comm (x y : Binary64) (r s : Relation) :
    numbersMatch x r y s = numbersMatch y s x r := by
  rw [numbersMatch, numbersMatch, Binary64.equal_comm x y]
  cases r <;> cases s <;> simp [Bool.beq_comm]

theorem Argument.compatible_comm (a b : Argument) : a.compatible b = b.compatible a := by
  unfold compatible
  cases a.term <;> cases b.term <;> simp [numbersMatch_comm, Bool.beq_comm]

theorem Argument.FitsSlot.congr {v : Assignment} {a a' b : Argument} (h : (a == a') = true)
    (hfit : FitsSlot v a b) : FitsSlot v a' b := by
  rcases hfit with hanon | ⟨n, hn, hvalue⟩ | ⟨hvalue, hcompat⟩
  · exact .inl hanon
  · exact .inr (.inl ⟨n, hn, BEq.trans hvalue h⟩)
  · exact .inr (.inr ⟨hvalue, by rwa [← Argument.compatible_congr h]⟩)

theorem Argument.FitsSlot.forall_zip_congr {v : Assignment} {as as' : List Argument}
    (h : List.Forall₂ (fun a a' => (a == a') = true) as as') (bs : List Argument)
    (hfit : ∀ ab ∈ as.zip bs, FitsSlot v ab.1 ab.2) : ∀ ab ∈ as'.zip bs, FitsSlot v ab.1 ab.2 := by
  induction h generalizing bs with
  | nil => simp
  | cons haa' _ ih =>
    cases bs with
    | nil => simp
    | cons b bs =>
      simp only [List.zip_cons_cons, List.forall_mem_cons] at hfit ⊢
      exact ⟨hfit.1.congr haa', ih bs hfit.2⟩

theorem Argument.all_isPlain_congr {as bs : List Argument}
    (h : List.Forall₂ (fun a b => (a == b) = true) as bs) : as.all isPlain = bs.all isPlain := by
  induction h with
  | nil => rfl
  | cons hab _ ih => rw [List.all_cons, List.all_cons, isPlain_congr hab, ih]

namespace Fact

theorem arity_congr {f g : Fact} (h : (f == g) = true) : f.arity = g.arity :=
  (beq_iff_forall₂.mp (Fact.beq_iff.mp h).2).length_eq

/-- Equal facts fit the same patterns. -/
theorem FitsUnder.congr {v : Assignment} {f g p : Fact} (h : (f == g) = true)
    (hfit : f.FitsUnder v p) : g.FitsUnder v p := by
  obtain ⟨hpred, hargs⟩ := Fact.beq_iff.mp h
  have harity := arity_congr h
  refine ⟨hpred.symm.trans hfit.predicate, ?_, ?_, ?_⟩
  · rw [← harity]
    exact hfit.extra
  · rw [← harity]
    exact hfit.long
  · exact Argument.FitsSlot.forall_zip_congr (beq_iff_forall₂.mp hargs) p.slots hfit.slots

theorem isPlain_congr {f g : Fact} (h : (f == g) = true) : f.isPlain = g.isPlain :=
  Argument.all_isPlain_congr (beq_iff_forall₂.mp (Fact.beq_iff.mp h).2)

/-! ## Plain patterns -/

theorem slots_of_isPlain {p : Fact} (hp : p.isPlain = true) : p.slots = p.arguments := by
  rw [slots, Argument.slots, List.takeWhile_eq_self_iff]
  intro b hb
  rw [Argument.isWildcard_of_isPlain (List.all_eq_true.mp hp b hb)]
  rfl

/-- A plain fact fits no plain pattern but one equal to it. -/
theorem fits_eq_beq {f p : Fact} (hf : f.isPlain = true) (hp : p.isPlain = true) :
    f.fits p = (f == p) := by
  have hplain := List.all_eq_true.mp hp
  rw [Bool.eq_iff_iff, fits_iff hf, Fact.beq_iff, beq_iff_forall₂]
  constructor
  · rintro ⟨v, hfit⟩
    -- a plain pattern has no wildcard, neither beyond the fact nor within it
    have hextra : p.arguments.drop f.arity = [] := by
      rw [List.eq_nil_iff_forall_not_mem]
      intro b hb
      have hwild := Argument.isWildcard_of_isPlain (hplain b (List.mem_of_mem_drop hb))
      rw [hfit.extra b hb] at hwild
      cases hwild
    have hlong : f.arity ≤ p.arity := by
      refine hfit.long.resolve_left ?_
      rintro ⟨b, hb, hwild⟩
      rw [Argument.isWildcard_of_isPlain (hplain b (List.mem_of_mem_take hb))] at hwild
      cases hwild
    refine ⟨hfit.predicate, List.forall₂_iff_zip.mpr ⟨?_, fun {a b} hab => ?_⟩⟩
    · exact Nat.le_antisymm hlong (List.drop_eq_nil_iff.mp hextra)
    · have hb := hplain b (List.of_mem_zip hab).2
      have ha := List.all_eq_true.mp hf a (List.of_mem_zip hab).1
      have hname := Argument.name?_of_isPlain hb
      rw [← Argument.compatible_eq_beq ha hb]
      rcases hfit.slots (a, b) (by rwa [slots_of_isPlain hp]) with hanon | ⟨n, hn, -⟩ | ⟨-, h⟩
      · rw [Argument.isAnonymous_of_name?_eq_none hname] at hanon
        cases hanon
      · rw [Argument.givenName?_eq_some_iff, hname] at hn
        cases hn.2
      · exact h
  · rintro ⟨hpred, hargs⟩
    have hlength : f.arity = p.arity := hargs.length_eq
    refine ⟨fun _ => .literal [], hpred, ?_, .inr (Nat.le_of_eq hlength), ?_⟩
    · rw [hlength, arity, List.drop_length]
      simp
    · rw [slots_of_isPlain hp]
      intro ab hab
      have hb := hplain ab.2 (List.of_mem_zip hab).2
      have ha := List.all_eq_true.mp hf ab.1 (List.of_mem_zip hab).1
      refine .inr (.inr ⟨?_, ?_⟩)
      · rw [Argument.isVariable, Argument.name?_of_isPlain hb]
        rfl
      · rw [Argument.compatible_eq_beq ha hb]
        exact (List.forall₂_iff_zip.mp hargs).2 hab

/-- A plain fact that fits a plain pattern binds nothing. -/
theorem matchFacts_of_isPlain {f p : Fact} {θ : Substitution} (hf : f.isPlain = true)
    (hp : p.isPlain = true) (hm : matchFacts f p .empty = some θ) : θ = .empty := by
  refine matchArguments_preserves (I := fun σ => σ = .empty) ?_ rfl
    (matchFacts_eq_some_iff.mp hm).2.2
  intro a ha b hb σ σ' hσ hu
  have hname := Argument.name?_of_isPlain (List.all_eq_true.mp hp b hb)
  rw [unifyArguments_value (List.all_eq_true.mp hf a ha) hname] at hu
  split at hu
  · exact (Option.some.inj hu).symm.trans hσ
  · cases hu

/-- There is nothing to put into a plain fact. -/
theorem substitute_of_isPlain {f : Fact} (hf : f.isPlain = true) (θ : Substitution) :
    f.substitute θ = f := by
  have hresolved : f.arguments.map θ.resolve = f.arguments := by
    refine (List.map_congr_left fun a ha => ?_).trans (List.map_id _)
    exact Substitution.resolve_of_value
      (Argument.name?_of_isPlain (List.all_eq_true.mp hf a ha))
  rw [substitute, hresolved, if_pos (BEq.refl _)]

end Fact
end TagReasoner
