import TagReasoner.Proofs.Matching.Unification

/-!
# What a match says of any two facts

Facts may hold wildcards, operators, and variables on both sides. A match is then no unification any
more, since operators make arguments agree that are not equal. It is sound all the same
(`verdict_sound`). The bindings that it returns *refine* those that it was given, which means that
resolving under the old ones first makes no difference. So what two arguments have agreed on when
their turn came they agree on in the end (`Argument.MatchUnder.refine`).

All of this needs substitutions to be layered, which every match keeps up: then a walk ends in a
root, only roots are ever bound, and a binding that a root already has leads to its own name.
-/

namespace TagReasoner

/-! ## Refining a substitution -/

namespace Substitution

/-- Every argument resolves to what it does after it has been resolved under the other
substitution. -/
def Refines (θ' θ : Substitution) : Prop := ∀ a, θ'.resolve a = θ'.resolve (θ.resolve a)

/-- Of a bound variable only the name matters. -/
theorem resolve_eq_of_name {θ : Substitution} {a b : Argument} {n : Text} (ha : a.name? = some n)
    (hb : b.name? = some n) (hn : (θ.get? n).isSome = true) : θ.resolve a = θ.resolve b := by
  obtain ⟨c, hc⟩ := Option.isSome_iff_exists.mp hn
  rw [resolve_of_bound ha hc, resolve_of_bound hb hc]

/-- A layered substitution refines another whose bindings it has kept. A binding of a name to itself
may have given way to a new one. -/
theorem Layered.refines {θ θ' : Substitution} (h : θ'.Layered)
    (hkept : ∀ n b, θ.get? n = some b →
      θ'.get? n = some b ∨ b.name? = some n ∧ (θ'.get? n).isSome = true) : θ'.Refines θ := by
  intro a
  -- along the walk through the bindings of `θ`, all of which `θ'` has kept
  induction θ, a using resolve_induct with
  | value θ a ha => rw [resolve_of_value (θ := θ) ha]
  | unbound θ a n ha hn => rw [resolve_of_unbound ha hn]
  | bound θ a n b ha hn ih =>
    have hstep : θ'.resolve a = θ'.resolve b := by
      rcases hkept n b hn with hn' | ⟨hb, hn'⟩
      · exact h.resolve_bound ha hn'
      · exact resolve_eq_of_name ha hb hn'
    rw [resolve_of_bound ha hn, hstep]
    exact ih (Keyed.forall_erase hkept n)

theorem Layered.refines_self {θ : Substitution} (h : θ.Layered) : θ.Refines θ :=
  h.refines fun _ _ hn => .inl hn

theorem Refines.trans {θ θ₁ θ₂ : Substitution} (h : θ₁.Refines θ) (h₁ : θ₂.Refines θ₁) :
    θ₂.Refines θ := by
  intro a
  calc θ₂.resolve a
    _ = θ₂.resolve (θ₁.resolve a) := h₁ a
    _ = θ₂.resolve (θ₁.resolve (θ.resolve a)) := by rw [h a]
    _ = θ₂.resolve (θ.resolve a) := (h₁ (θ.resolve a)).symm

/-- A value is what everything that has come to it stays at. -/
theorem Refines.resolve_of_value {θ θ' : Substitution} (h : θ'.Refines θ) {a : Argument}
    (ha : (θ.resolve a).name? = none) : θ'.resolve a = θ.resolve a := by
  rw [h a, Substitution.resolve_of_value ha]

/-! ## Binding a root -/

variable {θ : Substitution} {a b : Argument} {n : Text}

/-- Binding a root to a root refines the substitution. -/
theorem Layered.refines_put (h : θ.Layered) (ha : (θ.resolve a).name? = some n)
    (hb : θ.IsRoot b) : Refines (θ.put n b) θ := by
  refine (h.put hb).refines fun m c hm => ?_
  rw [Keyed.get?_put]
  split
  next hmn =>
    -- `n` has a binding already, which leads to `n` itself
    subst hmn
    exact .inr ⟨h.isRoot_resolve a m ha c hm, rfl⟩
  next => exact .inl hm

/-- Then all that came to the one root comes to where the other does. -/
theorem Layered.resolve_put (h : θ.Layered) (ha : (θ.resolve a).name? = some n)
    (hb : θ.IsRoot b) : resolve (θ.put n b) a = resolve (θ.put n b) b := by
  rw [h.refines_put ha hb a]
  exact (h.put hb).resolve_bound ha (Keyed.get?_put_self θ n b)

end Substitution

/-! ## Agreeing in a position -/

/-- Under the substitution the arguments match: one of them is a bare mark, or they resolve to equal
arguments, or to values that operators make compatible. -/
def Argument.MatchUnder (θ : Substitution) (a b : Argument) : Prop :=
  a.isAnonymous = true ∨ b.isAnonymous = true ∨ (θ.resolve a == θ.resolve b) = true ∨
    ((θ.resolve a).isVariable = false ∧ (θ.resolve b).isVariable = false ∧
      (θ.resolve a).compatible (θ.resolve b) = true)

theorem Argument.isVariable_eq_false_iff {a : Argument} : a.isVariable = false ↔ a.name? = none :=
  Option.isSome_eq_false_iff.trans Option.isNone_iff_eq_none

/-- What matches still does when more is bound. -/
theorem Argument.MatchUnder.refine {θ θ' : Substitution} {a b : Argument} (h : MatchUnder θ a b)
    (hθ : θ'.Refines θ) : MatchUnder θ' a b := by
  rcases h with ha | hb | hsame | ⟨ha, hb, hcompat⟩
  · exact .inl ha
  · exact .inr (.inl hb)
  · refine .inr (.inr (.inl ?_))
    rw [hθ a, hθ b]
    exact Substitution.resolve_congr hsame
  · refine .inr (.inr (.inr ?_))
    rw [hθ.resolve_of_value (isVariable_eq_false_iff.mp ha),
      hθ.resolve_of_value (isVariable_eq_false_iff.mp hb)]
    exact ⟨ha, hb, hcompat⟩

namespace Substitution.Layered

/-- Making two arguments agree refines the substitution, and then they match. -/
theorem unifyArguments_sound {θ θ' : Substitution} {a b : Argument} (h : θ.Layered)
    (hu : TagReasoner.unifyArguments a b θ = some θ') :
    θ'.Refines θ ∧ Argument.MatchUnder θ' a b := by
  have hspec := unifyArguments_spec a b θ
  rw [hu] at hspec
  cases hspec with
  | anonymous hanon =>
    rw [Bool.or_eq_true] at hanon
    exact ⟨h.refines_self, hanon.imp_right Or.inl⟩
  | same _ hsame => exact ⟨h.refines_self, .inr (.inr (.inl hsame))⟩
  | bindSecond n _ _ hn =>
    have hroot := h.isRoot_resolve a
    have hrefines := h.refines_put hn hroot
    refine ⟨hrefines, .inr (.inr (.inl ?_))⟩
    rw [h.resolve_put hn hroot, ← hrefines a]
    exact BEq.refl _
  | bindFirst n _ _ _ hn =>
    have hroot := h.isRoot_resolve b
    have hrefines := h.refines_put hn hroot
    refine ⟨hrefines, .inr (.inr (.inl ?_))⟩
    rw [h.resolve_put hn hroot, ← hrefines b]
    exact BEq.refl _
  | compatible _ _ hb ha hcompat =>
    exact ⟨h.refines_self, .inr (.inr (.inr ⟨Argument.isVariable_eq_false_iff.mpr ha,
      Argument.isVariable_eq_false_iff.mpr hb, hcompat⟩))⟩

/-- A run along the arguments refines the substitution that it started with. -/
theorem refines_matchArguments {as bs : List Argument} {θ θ' : Substitution} (h : θ.Layered)
    (hm : TagReasoner.matchArguments as bs θ = some θ') : θ'.Refines θ := by
  have hrun : θ'.Layered ∧ θ'.Refines θ := by
    refine matchArguments_preserves (I := fun σ => σ.Layered ∧ σ.Refines θ) ?_
      ⟨h, h.refines_self⟩ hm
    rintro a - b - θ₁ θ₂ ⟨h₁, hθ₁⟩ hu
    exact ⟨h₁.unifyArguments hu, hθ₁.trans (h₁.unifyArguments_sound hu).1⟩
  exact hrun.2

/-- After a run along the arguments those in front of the first wildcard match one by one. None of
the two lists ends there before the other does. -/
theorem matchUnder_matchArguments {as bs : List Argument} {θ θ' : Substitution} (h : θ.Layered)
    (hextra : ∀ b ∈ bs.drop as.length, b.isWildcard = true)
    (hm : TagReasoner.matchArguments as bs θ = some θ') {i : Nat}
    (hi : i < as.length ∨ i < bs.length)
    (has : ∀ a ∈ as.take (i + 1), a.isWildcard = false)
    (hbs : ∀ b ∈ bs.take (i + 1), b.isWildcard = false) :
    ∃ a b, as[i]? = some a ∧ bs[i]? = some b ∧ Argument.MatchUnder θ' a b := by
  induction as generalizing bs θ i with
  | nil =>
    cases bs with
    | nil => exact absurd hi (by simp)
    | cons b bs =>
      -- what the second list has beyond the first are wildcards
      have hwild := hextra b (List.mem_cons_self ..)
      rw [hbs b (List.mem_cons_self ..)] at hwild
      cases hwild
  | cons a as ih =>
    cases bs with
    | nil => cases hm
    | cons b bs =>
      rw [List.take_succ_cons, List.forall_mem_cons] at has hbs
      rw [TagReasoner.matchArguments, has.1, hbs.1] at hm
      obtain ⟨θ₁, hu, hm⟩ := Option.bind_eq_some_iff.mp hm
      have h₁ := h.unifyArguments hu
      cases i with
      | zero =>
        have hfirst := (h.unifyArguments_sound hu).2
        exact ⟨a, b, rfl, rfl, hfirst.refine (h₁.refines_matchArguments hm)⟩
      | succ i =>
        rw [List.length_cons, List.length_cons, Nat.succ_lt_succ_iff, Nat.succ_lt_succ_iff] at hi
        exact ih h₁ hextra hm hi has.2 hbs.2

end Substitution.Layered

/-! ## Matching facts -/

/-- The substitutions that successful matches make from the empty one. -/
inductive Substitution.OfMatches : Substitution → Prop where
  | empty : OfMatches .empty
  | step {θ θ' : Substitution} {f p : Fact} : OfMatches θ → matchFacts f p θ = some θ' →
      OfMatches θ'

theorem Substitution.OfMatches.layered {θ : Substitution} (h : θ.OfMatches) : θ.Layered := by
  induction h with
  | empty => exact layered_empty
  | step _ hm ih => exact ih.matchArguments (matchFacts_eq_some_iff.mp hm).2.2

/-- Neither fact has a wildcard at the position or in front of it. -/
def Fact.NoWildcardThrough (f p : Fact) (i : Nat) : Prop :=
  (∀ a ∈ f.arguments.take (i + 1), a.isWildcard = false) ∧
    ∀ b ∈ p.arguments.take (i + 1), b.isWildcard = false

/-- A successful match has made the two facts match in every position in front of the first wildcard
of either, and refines the bindings that it was given. A failed match returns these as they were. -/
theorem verdict_sound {θ : Substitution} (hθ : θ.OfMatches) (f p : Fact) :
    let verdict := f.verdict p θ
    (verdict.matched = true →
      (∀ i, i < f.arity ∨ i < p.arity → f.NoWildcardThrough p i →
        ∃ a b, f.arguments[i]? = some a ∧ p.arguments[i]? = some b ∧
          a.MatchUnder verdict.bindings b) ∧
        verdict.bindings.Refines θ) ∧
      (verdict.matched = false → verdict.bindings = θ) := by
  intro verdict
  cases hm : matchFacts f p θ with
  | none =>
    have hverdict : verdict = ⟨false, θ⟩ := by simp only [verdict, Fact.verdict, hm]
    rw [hverdict]
    exact ⟨fun h => absurd h Bool.false_ne_true, fun _ => rfl⟩
  | some θ' =>
    have hverdict : verdict = ⟨true, θ'⟩ := by simp only [verdict, Fact.verdict, hm]
    rw [hverdict]
    obtain ⟨-, hextra, hrun⟩ := matchFacts_eq_some_iff.mp hm
    refine ⟨fun _ => ⟨fun i hi hwild => ?_, hθ.layered.refines_matchArguments hrun⟩,
      fun h => absurd h.symm Bool.false_ne_true⟩
    exact hθ.layered.matchUnder_matchArguments hextra hrun hi hwild.1 hwild.2

/-- A name that an earlier match bound to itself is bound anew, in front of a number that meets an
operator, a bare mark, and a wildcard in the last place. -/
theorem verdict_sound_self_bound :
    let x := Argument.named ['x'] .single []
    let f : Fact := ⟨['P'], [x, .number (.ofNat 5) .eq, .literal ['a'], x, .literal ['b']],
      .certain⟩
    let p : Fact := ⟨['P'], [.named ['y'] .multi [], .number (.ofNat 3) .gt,
      .named ['?'] .single [], .literal ['c'], .wildcard], .certain⟩
    let θ : Substitution := .put .empty ['x'] (.named ['x'] .multi [])
    let verdict := f.verdict p θ
    verdict.matched = true ∧
      (∀ i, i < f.arity ∨ i < p.arity → f.NoWildcardThrough p i →
        ∃ a b, f.arguments[i]? = some a ∧ p.arguments[i]? = some b ∧
          a.MatchUnder verdict.bindings b) ∧
      verdict.bindings.Refines θ := by
  intro x f p θ verdict
  have hθ : θ.OfMatches :=
    .step .empty (f := ⟨['Q'], [.named ['x'] .multi []], .certain⟩)
      (p := ⟨['Q'], [x], .certain⟩) rfl
  have hmatched : verdict.matched = true := by decide +kernel
  exact ⟨hmatched, (verdict_sound hθ f p).1 hmatched⟩

end TagReasoner
