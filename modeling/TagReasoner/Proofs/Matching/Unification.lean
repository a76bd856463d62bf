import TagReasoner.Matching.Facts
import TagReasoner.Proofs.Matching.Assignment

/-!
# Unification

`unifyArguments_spec` says all that making two arguments agree can do; proofs about matching start
from it. Whatever the arguments are, it keeps a substitution layered and puts nothing into it but
the arguments and what was bound before.

On *simple* arguments, plain values and variables, matching is most general unification: the
assignments that respect the bindings afterwards are those that respected the bindings before and
make the two facts agree (`matchFacts_most_general`). One step keeps this up
(`respects_unifyArguments_iff`), so a run along the arguments does.
-/

namespace TagReasoner

/-! ## One step -/

/-- How two arguments are made to agree: what they resolve to decides. -/
inductive Unification (θ : Substitution) (a b : Argument) : Option Substitution → Prop where
  /-- A bare mark agrees with anything. -/
  | anonymous : (a.isAnonymous || b.isAnonymous) = true → Unification θ a b (some θ)
  /-- Both stand for the same already. -/
  | same : (a.isAnonymous || b.isAnonymous) = false → (θ.resolve a == θ.resolve b) = true →
      Unification θ a b (some θ)
  /-- The second is a variable and is bound to the first. -/
  | bindSecond (n : Text) : (a.isAnonymous || b.isAnonymous) = false →
      (θ.resolve a == θ.resolve b) = false → (θ.resolve b).name? = some n →
      Unification θ a b (some (θ.put n (θ.resolve a)))
  /-- Only the first is a variable. -/
  | bindFirst (n : Text) : (a.isAnonymous || b.isAnonymous) = false →
      (θ.resolve a == θ.resolve b) = false → (θ.resolve b).name? = none →
      (θ.resolve a).name? = some n → Unification θ a b (some (θ.put n (θ.resolve b)))
  /-- Two values that operators make compatible. -/
  | compatible : (a.isAnonymous || b.isAnonymous) = false →
      (θ.resolve a == θ.resolve b) = false → (θ.resolve b).name? = none →
      (θ.resolve a).name? = none → (θ.resolve a).compatible (θ.resolve b) = true →
      Unification θ a b (some θ)
  /-- Two values that cannot agree. -/
  | clash : (a.isAnonymous || b.isAnonymous) = false →
      (θ.resolve a == θ.resolve b) = false → (θ.resolve b).name? = none →
      (θ.resolve a).name? = none → (θ.resolve a).compatible (θ.resolve b) = false →
      Unification θ a b none

theorem unifyArguments_spec (a b : Argument) (θ : Substitution) :
    Unification θ a b (unifyArguments a b θ) := by
  unfold unifyArguments
  cases hanon : a.isAnonymous || b.isAnonymous with
  | true => exact .anonymous hanon
  | false =>
    cases hsame : θ.resolve a == θ.resolve b with
    | true =>
      simp only [Bool.false_eq_true, if_false, hsame, if_true]
      exact .same hanon hsame
    | false =>
      simp only [Bool.false_eq_true, if_false, hsame]
      cases hb : (θ.resolve b).name? with
      | some n => exact .bindSecond n hanon hsame hb
      | none =>
        cases ha : (θ.resolve a).name? with
        | some n => exact .bindFirst n hanon hsame hb ha
        | none =>
          cases hcompat : (θ.resolve a).compatible (θ.resolve b) with
          | true => exact .compatible hanon hsame hb ha hcompat
          | false => exact .clash hanon hsame hb ha hcompat

/-- The cases exclude each other, so that they can be used in the other direction. -/
theorem Unification.eq {a b : Argument} {θ : Substitution} {result : Option Substitution}
    (h : Unification θ a b result) : TagReasoner.unifyArguments a b θ = result := by
  unfold TagReasoner.unifyArguments
  cases h with
  | anonymous hanon => rw [if_pos hanon]
  | same hanon hsame => simp only [hanon, Bool.false_eq_true, if_false, hsame, if_true]
  | bindSecond n hanon hsame hb => simp only [hanon, Bool.false_eq_true, if_false, hsame, hb]
  | bindFirst n hanon hsame hb ha =>
    simp only [hanon, Bool.false_eq_true, if_false, hsame, hb, ha]
  | compatible hanon hsame hb ha hcompat | clash hanon hsame hb ha hcompat =>
    simp only [hanon, Bool.false_eq_true, if_false, hsame, hb, ha, hcompat, if_true]

theorem Substitution.Layered.unifyArguments {θ θ' : Substitution} {a b : Argument}
    (h : θ.Layered) (hu : unifyArguments a b θ = some θ') : θ'.Layered := by
  have hspec := unifyArguments_spec a b θ
  rw [hu] at hspec
  cases hspec with
  | anonymous | same | compatible => exact h
  | bindSecond n => exact h.put (h.isRoot_resolve a)
  | bindFirst n => exact h.put (h.isRoot_resolve b)

/-- What is bound afterwards was bound before or is one of the two arguments. -/
theorem unifyArguments_range {P : Argument → Prop} {θ θ' : Substitution} {a b : Argument}
    (hθ : ∀ n c, θ.get? n = some c → P c) (ha : P a) (hb : P b)
    (hu : unifyArguments a b θ = some θ') : ∀ n c, θ'.get? n = some c → P c := by
  have hspec := unifyArguments_spec a b θ
  rw [hu] at hspec
  cases hspec with
  | anonymous | same | compatible => exact hθ
  | bindSecond n => exact Keyed.forall_put hθ (Substitution.resolve_mem hθ ha)
  | bindFirst n => exact Keyed.forall_put hθ (Substitution.resolve_mem hθ hb)

/-! ## Along the arguments -/

theorem matchArguments_cons {a b : Argument} (ha : a.isWildcard = false)
    (hb : b.isWildcard = false) (as bs : List Argument) (θ : Substitution) :
    matchArguments (a :: as) (b :: bs) θ = (unifyArguments a b θ).bind (matchArguments as bs) := by
  simp only [matchArguments, ha, hb, Bool.or_false, Bool.false_eq_true, if_false]

/-- A run along the arguments keeps up what each of its steps does. -/
theorem matchArguments_preserves {I : Substitution → Prop} {as bs : List Argument}
    {θ θ' : Substitution}
    (hstep : ∀ a ∈ as, ∀ b ∈ bs, ∀ θ θ', I θ → unifyArguments a b θ = some θ' → I θ')
    (h : I θ) (hm : matchArguments as bs θ = some θ') : I θ' := by
  induction as generalizing bs θ with
  | nil =>
    rw [matchArguments] at hm
    cases hm
    exact h
  | cons a as ih =>
    cases bs with
    | nil => cases hm
    | cons b bs =>
      rw [matchArguments] at hm
      split at hm
      · -- a wildcard ends the run early
        cases hm
        exact h
      · obtain ⟨θ₁, hu, hm⟩ := Option.bind_eq_some_iff.mp hm
        have hfirst : I θ₁ := hstep a (List.mem_cons_self ..) b (List.mem_cons_self ..) θ θ₁ h hu
        refine ih (fun c hc d hd => ?_) hfirst hm
        exact hstep c (List.mem_cons_of_mem a hc) d (List.mem_cons_of_mem b hd)

theorem Substitution.Layered.matchArguments {as bs : List Argument} {θ θ' : Substitution}
    (h : θ.Layered) (hm : matchArguments as bs θ = some θ') : θ'.Layered :=
  matchArguments_preserves (fun _ _ _ _ _ _ hθ hu => hθ.unifyArguments hu) h hm

theorem matchArguments_range {P : Argument → Prop} {as bs : List Argument} {θ θ' : Substitution}
    (hθ : ∀ n c, θ.get? n = some c → P c) (has : ∀ a ∈ as, P a) (hbs : ∀ b ∈ bs, P b)
    (hm : matchArguments as bs θ = some θ') : ∀ n c, θ'.get? n = some c → P c :=
  matchArguments_preserves (I := fun θ => ∀ n c, θ.get? n = some c → P c)
    (fun a ha b hb _ _ hθ hu => unifyArguments_range hθ (has a ha) (hbs b hb) hu) hθ hm

/-- A binding to anything but the bound name itself stays. -/
theorem unifyArguments_get?_of_ne {a b c : Argument} {θ θ' : Substitution} {n : Text}
    (h : θ.Layered) (hu : unifyArguments a b θ = some θ') (hn : θ.get? n = some c)
    (hc : c.name? ≠ some n) : θ'.get? n = some c := by
  have hput : ∀ m d e, θ.IsRoot d → d.name? = some m → (θ.put m e).get? n = some c := by
    intro m d e hd hm
    -- a step binds a root only, and what `n` is bound to shows that it is none
    have hnm : n ≠ m := by
      rintro rfl
      exact hc (hd n hm c hn)
    rw [Keyed.get?_put_ne θ hnm]
    exact hn
  have hspec := unifyArguments_spec a b θ
  rw [hu] at hspec
  cases hspec with
  | anonymous | same | compatible => exact hn
  | bindSecond m hanon hsame hm => exact hput m _ _ (h.isRoot_resolve b) hm
  | bindFirst m hanon hsame hb hm => exact hput m _ _ (h.isRoot_resolve a) hm

theorem matchArguments_get?_of_ne {as bs : List Argument} {c : Argument} {θ θ' : Substitution}
    {n : Text} (h : θ.Layered) (hm : matchArguments as bs θ = some θ') (hn : θ.get? n = some c)
    (hc : c.name? ≠ some n) : θ'.get? n = some c := by
  have hrun : θ'.Layered ∧ θ'.get? n = some c := by
    refine matchArguments_preserves (I := fun θ => θ.Layered ∧ θ.get? n = some c) ?_ ⟨h, hn⟩ hm
    rintro a - b - θ₁ θ₂ ⟨h₁, hn₁⟩ hu
    exact ⟨h₁.unifyArguments hu, unifyArguments_get?_of_ne h₁ hu hn₁ hc⟩
  exact hrun.2

/-- A match compares predicates and the lengths of the facts, and then goes along the arguments. -/
theorem matchFacts_eq_some_iff {f p : Fact} {θ θ' : Substitution} :
    matchFacts f p θ = some θ' ↔
      f.predicate = p.predicate ∧ (∀ b ∈ p.arguments.drop f.arity, b.isWildcard = true) ∧
        matchArguments f.arguments p.arguments θ = some θ' := by
  unfold matchFacts
  split
  next h =>
    rw [Bool.and_eq_true, beq_iff_eq, List.all_eq_true] at h
    simp only [h.1, true_and, Fact.arity]
    exact (and_iff_right h.2).symm
  next h =>
    rw [Bool.and_eq_true, beq_iff_eq, List.all_eq_true] at h
    constructor
    · intro hm
      cases hm
    · rintro ⟨hpred, hextra, -⟩
      exact absurd ⟨hpred, hextra⟩ h

/-! ## Equal facts -/

/-- Arguments that are equal one by one agree without any binding. -/
theorem matchArguments_of_beq {as bs : List Argument} (h : (as == bs) = true) :
    matchArguments as bs .empty = some .empty := by
  rw [beq_iff_forall₂] at h
  induction h with
  | nil => rfl
  | @cons a b as bs hab _ ih =>
    rw [matchArguments]
    split
    · rfl
    · have hstep : unifyArguments a b .empty = some .empty := by
        cases hanon : a.isAnonymous || b.isAnonymous with
        | true => exact (Unification.anonymous hanon).eq
        | false => exact (Unification.same (θ := .empty) hanon hab).eq
      rw [hstep]
      exact ih

/-- A fact fits every fact equal to it, variables and operators included. -/
theorem Fact.fits_of_beq {f g : Fact} (h : (f == g) = true) : f.fits g = true := by
  obtain ⟨hpredicate, harguments⟩ := Fact.beq_iff.mp h
  have harity : f.arity = g.arguments.length := (beq_iff_forall₂.mp harguments).length_eq
  have hmatch : matchFacts f g .empty = some .empty := by
    refine matchFacts_eq_some_iff.mpr ⟨hpredicate, ?_, matchArguments_of_beq harguments⟩
    rw [harity, List.drop_length]
    exact List.forall_mem_nil _
  rw [fits, hmatch]
  rfl

/-! ## Simple arguments -/

/-- A plain value or a variable. -/
def Argument.isSimple (a : Argument) : Bool := a.isPlain || a.isVariable

/-- All arguments are simple. -/
def Fact.isSimple (f : Fact) : Bool := f.arguments.all Argument.isSimple

namespace Argument

theorem isPlain_of_isSimple {a : Argument} (h : a.isSimple = true) (hname : a.name? = none) :
    a.isPlain = true := by
  simpa [isSimple, isVariable, hname] using h

theorem isWildcard_of_isSimple {a : Argument} (h : a.isSimple = true) : a.isWildcard = false := by
  cases hname : a.name? with
  | none => exact isWildcard_of_isPlain (isPlain_of_isSimple h hname)
  | some n => exact isWildcard_of_name? hname

/-- Under the assignment the arguments agree; a bare mark agrees with anything. -/
def Agree (v : Assignment) (a b : Argument) : Prop :=
  a.isAnonymous = true ∨ b.isAnonymous = true ∨ (a.valueUnder v == b.valueUnder v) = true

end Argument

/-- A substitution that is layered and binds names to simple arguments. -/
structure Substitution.Settled (θ : Substitution) : Prop where
  layered : θ.Layered
  simple : ∀ n a, θ.get? n = some a → a.isSimple = true

theorem Substitution.settled_empty : Substitution.Settled .empty :=
  ⟨layered_empty, fun _ _ h => by cases h⟩

/-- A step adds to the bindings just the equation of its two arguments, and is refused just when no
assignment that respects the bindings solves that. -/
theorem respects_unifyArguments_iff {v : Assignment} {θ : Substitution} {a b : Argument}
    (hθ : θ.Settled) (ha : a.isSimple = true) (hb : b.isSimple = true) :
    v.Respects θ ∧ Argument.Agree v a b ↔
      ∃ θ', unifyArguments a b θ = some θ' ∧ v.Respects θ' := by
  -- once both are named, agreement is a matter of what they resolve to
  have hagree : v.Respects θ → (a.isAnonymous || b.isAnonymous) = false →
      (Argument.Agree v a b ↔
        ((θ.resolve a).valueUnder v == (θ.resolve b).valueUnder v) = true) := by
    intro hv hanon
    rw [Bool.or_eq_false_iff] at hanon
    have hra := hv.valueUnder_resolve a
    have hrb := hv.valueUnder_resolve b
    simp only [Argument.Agree, hanon.1, hanon.2, Bool.false_eq_true, false_or]
    exact ⟨fun h => BEq.trans (BEq.symm hra) (BEq.trans h hrb),
      fun h => BEq.trans hra (BEq.trans h (BEq.symm hrb))⟩
  have hsimple : ∀ c, c.isSimple = true → (θ.resolve c).isSimple = true := fun c hc =>
    Substitution.resolve_mem (P := fun c => c.isSimple = true) hθ.simple hc
  cases hu : unifyArguments a b θ with
  | none =>
    have hspec := unifyArguments_spec a b θ
    rw [hu] at hspec
    cases hspec with
    | clash hanon hsame hb' ha' hclash =>
      have hne := Argument.compatible_eq_beq (Argument.isPlain_of_isSimple (hsimple a ha) ha')
        (Argument.isPlain_of_isSimple (hsimple b hb) hb')
      constructor
      · rintro ⟨hv, h⟩
        rw [hagree hv hanon, Argument.valueUnder_of_value ha', Argument.valueUnder_of_value hb',
          hsame] at h
        cases h
      · rintro ⟨θ', h, -⟩
        cases h
  | some θ' =>
    have hgoal : (∃ θ'', some θ' = some θ'' ∧ v.Respects θ'') ↔ v.Respects θ' := by simp
    rw [hgoal]
    have hspec := unifyArguments_spec a b θ
    rw [hu] at hspec
    cases hspec with
    | anonymous hanon =>
      refine and_iff_left ?_
      rw [Bool.or_eq_true] at hanon
      exact hanon.imp_right Or.inl
    | same hanon hsame =>
      exact and_iff_left_of_imp fun hv => (hagree hv hanon).mpr (Argument.valueUnder_congr hsame)
    | bindSecond n hanon hsame hn =>
      rw [Assignment.respects_put_iff (hθ.layered.isRoot_resolve b n hn)]
      refine and_congr_right fun hv => ?_
      rw [hagree hv hanon, Argument.valueUnder_of_name hn]
      exact ⟨BEq.symm, BEq.symm⟩
    | bindFirst n hanon hsame hb' hn =>
      rw [Assignment.respects_put_iff (hθ.layered.isRoot_resolve a n hn)]
      refine and_congr_right fun hv => ?_
      rw [hagree hv hanon, Argument.valueUnder_of_name hn]
    | compatible hanon hsame hb' ha' hcompat =>
      -- plain values are compatible only when they are equal
      rw [Argument.compatible_eq_beq (Argument.isPlain_of_isSimple (hsimple a ha) ha')
        (Argument.isPlain_of_isSimple (hsimple b hb) hb'), hsame] at hcompat
      cases hcompat

theorem Substitution.Settled.unifyArguments {θ θ' : Substitution} {a b : Argument}
    (h : θ.Settled) (ha : a.isSimple = true) (hb : b.isSimple = true)
    (hu : unifyArguments a b θ = some θ') : θ'.Settled :=
  ⟨h.layered.unifyArguments hu,
    unifyArguments_range (P := fun c => c.isSimple = true) h.simple ha hb hu⟩

/-- A run along simple arguments adds the equations of all pairs. -/
theorem respects_matchArguments_iff {v : Assignment} {θ : Substitution} {as bs : List Argument}
    (hθ : θ.Settled) (hlength : as.length = bs.length) (has : ∀ a ∈ as, a.isSimple = true)
    (hbs : ∀ b ∈ bs, b.isSimple = true) :
    (v.Respects θ ∧ ∀ ab ∈ as.zip bs, Argument.Agree v ab.1 ab.2) ↔
      ∃ θ', matchArguments as bs θ = some θ' ∧ v.Respects θ' := by
  induction as generalizing bs θ with
  | nil => simp [matchArguments]
  | cons a as ih =>
    cases bs with
    | nil => cases hlength
    | cons b bs =>
      obtain ⟨ha, has⟩ := List.forall_mem_cons.mp has
      obtain ⟨hb, hbs⟩ := List.forall_mem_cons.mp hbs
      have hwild : (a.isWildcard || b.isWildcard) = false := by
        rw [Argument.isWildcard_of_isSimple ha, Argument.isWildcard_of_isSimple hb]
        rfl
      rw [matchArguments, if_neg (by simp [hwild]), List.zip_cons_cons, List.forall_mem_cons,
        ← and_assoc, respects_unifyArguments_iff hθ ha hb]
      cases hu : unifyArguments a b θ with
      | none => simp
      | some θ₁ =>
        rw [Option.bind_some, ← ih (hθ.unifyArguments ha hb hu) (Nat.succ.inj hlength) has hbs]
        simp

/-! ## Matching simple facts -/

/-- The substitutions that successful matches of simple facts make from the empty one. -/
inductive Substitution.OfSimpleMatches : Substitution → Prop where
  | empty : OfSimpleMatches .empty
  | step {θ θ' : Substitution} {f p : Fact} : OfSimpleMatches θ → f.isSimple = true →
      p.isSimple = true → matchFacts f p θ = some θ' → OfSimpleMatches θ'

theorem Substitution.OfSimpleMatches.settled {θ : Substitution} (h : θ.OfSimpleMatches) :
    θ.Settled := by
  induction h with
  | empty => exact settled_empty
  | step _ hf hp hm ih =>
    rw [matchFacts_eq_some_iff] at hm
    exact ⟨ih.layered.matchArguments hm.2.2,
      matchArguments_range (P := fun c => c.isSimple = true) ih.simple
        (List.all_eq_true.mp hf) (List.all_eq_true.mp hp) hm.2.2⟩

/-- The assignment respects the bindings and makes the arguments of two facts agree one by one. -/
def Assignment.Solves (v : Assignment) (θ : Substitution) (f p : Fact) : Prop :=
  v.Respects θ ∧ ∀ ab ∈ f.arguments.zip p.arguments, Argument.Agree v ab.1 ab.2

/-- A plain assignment that respects a settled substitution. -/
def PlainAssignment.ofBindings (θ : Substitution) (h : θ.Settled) : PlainAssignment where
  value := Assignment.ofBindings θ
  plain n := by
    show (if (θ.resolve _).name?.isSome then _ else _ : Argument).isPlain = true
    split
    next => rfl
    next hname =>
      refine Argument.isPlain_of_isSimple ?_ (by simpa using hname)
      exact Substitution.resolve_mem (P := fun c => c.isSimple = true) h.simple rfl

/-- Matching simple facts is most general unification: it fails just when nothing solves the match,
and otherwise its bindings are respected by the solutions and by nothing else. -/
theorem matchFacts_most_general {f p : Fact} {θ : Substitution}
    (hpredicate : f.predicate = p.predicate) (harity : f.arity = p.arity)
    (hf : f.isSimple = true) (hp : p.isSimple = true) (hθ : θ.OfSimpleMatches) :
    (matchFacts f p θ = none ↔ ¬ ∃ v : PlainAssignment, v.value.Solves θ f p) ∧
      ∀ θ', matchFacts f p θ = some θ' →
        ∀ v : PlainAssignment, v.value.Solves θ f p ↔ v.value.Respects θ' := by
  have hsettled := hθ.settled
  have hextra : ∀ b ∈ p.arguments.drop f.arity, b.isWildcard = true := by
    rw [List.drop_eq_nil_of_le (Nat.le_of_eq harity.symm)]
    simp
  have hrun : ∀ θ', matchFacts f p θ = some θ' ↔
      matchArguments f.arguments p.arguments θ = some θ' := fun θ' => by
    rw [matchFacts_eq_some_iff]
    simp only [hpredicate, true_and]
    exact and_iff_right hextra
  have hsolves : ∀ v : PlainAssignment, v.value.Solves θ f p ↔
      ∃ θ', matchFacts f p θ = some θ' ∧ v.value.Respects θ' := fun v => by
    simp only [hrun]
    exact respects_matchArguments_iff hsettled harity (List.all_eq_true.mp hf)
      (List.all_eq_true.mp hp)
  constructor
  · constructor
    · rintro hnone ⟨v, hv⟩
      obtain ⟨θ', hm, -⟩ := (hsolves v).mp hv
      rw [hnone] at hm
      cases hm
    · intro hno
      -- the bindings of a match can be respected, by a plain assignment even
      cases hm : matchFacts f p θ with
      | none => rfl
      | some θ' =>
        have hsettled' := (hθ.step hf hp hm).settled
        exact absurd ⟨.ofBindings θ' hsettled', (hsolves _).mpr
          ⟨θ', hm, Assignment.respects_ofBindings hsettled'.layered⟩⟩ hno
  · intro θ' hm v
    rw [hsolves v, hm]
    simp

/-- A name that an earlier match bound to itself, under its other mark, is bound anew. -/
theorem matchFacts_most_general_self_bound :
    let f : Fact := ⟨['P'], [.named ['x'] .single [], .named ['x'] .single [],
      .named ['?'] .single []], .certain⟩
    let p : Fact := ⟨['P'], [.named ['y'] .single [], .literal ['a'],
      .named ['z'] .single []], .certain⟩
    let θ : Substitution := .put .empty ['x'] (.named ['x'] .multi [])
    (matchFacts f p θ = none ↔ ¬ ∃ v : PlainAssignment, v.value.Solves θ f p) ∧
      ∀ θ', matchFacts f p θ = some θ' →
        ∀ v : PlainAssignment, v.value.Solves θ f p ↔ v.value.Respects θ' := by
  intro f p θ
  have hθ : θ.OfSimpleMatches :=
    .step .empty (f := ⟨['Q'], [.named ['x'] .multi []], .certain⟩)
      (p := ⟨['Q'], [.named ['x'] .single []], .certain⟩) rfl rfl rfl
  exact matchFacts_most_general rfl rfl rfl rfl hθ

end TagReasoner
