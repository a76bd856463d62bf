import TagReasoner.Proofs.Matching.Satisfaction
import Mathlib.Data.List.Nodup
import Mathlib.Data.Set.Insert

/-!
# The order of patterns

A variable keeps the first value that it meets, and later values are compared with that one. So the
order of the patterns can matter where agreement is not transitive: `5` agrees with `>3` and with
`>4`, and these two do not agree. It matters for no other reason. Where agreement passes on among
the values that stand opposite variables, a variable may as well have any value that agrees with
those it meets, and there is a solution just when some assignment of values makes every pattern
agree with some fact (`solutions_ne_nil_iff`), which does not depend on an order. And where agreement
does not pass on, three facts with one argument each are enough to notice the order
(`order_invisible_iff`).
-/

namespace TagReasoner

/-! ## Values that agree -/

namespace Argument

/-- Two values agree: they are equal, or operators make them compatible. -/
def AgreesWith (a b : Argument) : Prop := (a == b) = true ∨ a.compatible b = true

theorem AgreesWith.refl (a : Argument) : a.AgreesWith a := .inl (BEq.refl a)

theorem AgreesWith.symm {a b : Argument} (h : a.AgreesWith b) : b.AgreesWith a :=
  h.imp BEq.symm fun hcompat => (compatible_comm b a).trans hcompat

/-- With a text only the same text agrees. -/
theorem agreesWith_iff_of_literal {a b : Argument} {t : Text} (ha : a.isGround = true)
    (hb : b.term = .literal t) : a.AgreesWith b ↔ a.term = .literal t := by
  obtain ⟨hname, hwild⟩ := isGround_iff.mp ha
  unfold name? at hname
  unfold isWildcard at hwild
  rw [AgreesWith, beq_def, compatible, hb]
  cases hterm : a.term <;> simp_all [Term.equal]

/-- Agreement passes on from one to the next of these values. -/
def AgreementPasses (W : Set Argument) : Prop :=
  ∀ a ∈ W, ∀ b ∈ W, ∀ c ∈ W, a.AgreesWith b → b.AgreesWith c → a.AgreesWith c

/-- A text may be put to the values, as it agrees with nothing new. -/
theorem AgreementPasses.insert_literal {W : Set Argument} (hground : ∀ a ∈ W, a.isGround = true)
    (h : AgreementPasses W) (t : Text) : AgreementPasses (insert (.literal t) W) := by
  have hground' : ∀ a ∈ insert (Argument.literal t) W, a.isGround = true :=
    Set.forall_mem_insert.mpr ⟨rfl, hground⟩
  have hold : ∀ a ∈ insert (Argument.literal t) W, a.term ≠ .literal t → a ∈ W := by
    rintro a (rfl | ha) hterm
    · exact absurd rfl hterm
    · exact ha
  intro a ha b hb c hc hab hbc
  -- what agrees with the text is the text, so none of the three is it or all are
  by_cases hterm : b.term = .literal t
  · have hterma := (agreesWith_iff_of_literal (hground' a ha) hterm).mp hab
    have htermc := (agreesWith_iff_of_literal (hground' c hc) hterm).mp hbc.symm
    refine .inl ?_
    rw [beq_def, hterma, htermc]
    exact Term.equal_refl _
  · have hterma : a.term ≠ .literal t := fun hterma =>
      hterm ((agreesWith_iff_of_literal (hground' b hb) hterma).mp hab.symm)
    have htermc : c.term ≠ .literal t := fun htermc =>
      hterm ((agreesWith_iff_of_literal (hground' b hb) htermc).mp hbc)
    exact h a (hold a ha hterma) b (hold b hb hterm) c (hold c hc htermc) hab hbc

theorem agreementPasses_plain : AgreementPasses {a | a.isPlain = true} := by
  intro a ha b hb c hc hab hbc
  have hequal : ∀ {d e : Argument}, d.isPlain = true → e.isPlain = true → d.AgreesWith e →
      (d == e) = true := by
    rintro d e hd he (hsame | hcompat)
    · exact hsame
    · rwa [← compatible_eq_beq hd he]
  exact .inl (BEq.trans (hequal ha hb hab) (hequal hb hc hbc))

end Argument

/-! ## Assignments up to agreement -/

/-- A set of values that agreement sorts into classes. -/
structure Values where
  carrier : Set Argument
  passes : Argument.AgreementPasses carrier

/-- A value is one of these; nothing is asked of a variable. -/
def Argument.StandsIn (W : Values) (a : Argument) : Prop := a.name? = none → a ∈ W.carrier

/-- If one of the arguments is a named variable, the other is not a value besides these. -/
def Argument.MeetIn (W : Values) (a b : Argument) : Prop :=
  (a.givenName?.isSome = true → b.isWildcard = false → b.StandsIn W) ∧
    (b.givenName?.isSome = true → a.isWildcard = false → a.StandsIn W)

/-- Variables are bound to these values or to variables. -/
def Substitution.BindsIn (W : Values) (θ : Substitution) : Prop :=
  ∀ n a, θ.get? n = some a → a.StandsIn W

/-- The substitution is layered and binds variables to these values or to variables. -/
structure Substitution.In (W : Values) (θ : Substitution) : Prop where
  layered : θ.Layered
  binds : θ.BindsIn W

/-- The arguments agree under the assignment; a bare mark agrees with anything. -/
def Argument.AgreeUnder (v : Assignment) (a b : Argument) : Prop :=
  a.isAnonymous = true ∨ b.isAnonymous = true ∨ (a.valueUnder v).AgreesWith (b.valueUnder v)

/-- An assignment of some of these values. -/
structure Assignment.In (W : Values) where
  value : Assignment
  mem : ∀ n, value n ∈ W.carrier

/-- Each bound variable agrees with what it is bound to. -/
def Assignment.Follows (v : Assignment) (θ : Substitution) : Prop :=
  ∀ n a, θ.get? n = some a → (v n).AgreesWith (a.valueUnder v)

/-- Values may be replaced by others that they agree with. -/
theorem Values.agreesWith_congr (W : Values) {a a' b b' : Argument} (ha : a ∈ W.carrier)
    (ha' : a' ∈ W.carrier) (hb : b ∈ W.carrier) (hb' : b' ∈ W.carrier) (haa' : a.AgreesWith a')
    (hbb' : b.AgreesWith b') : a.AgreesWith b ↔ a'.AgreesWith b' := by
  constructor
  · intro hab
    have hmixed : a.AgreesWith b' := W.passes a ha b hb b' hb' hab hbb'
    exact W.passes a' ha' a ha b' hb' haa'.symm hmixed
  · intro hab'
    have hmixed : a.AgreesWith b' := W.passes a ha a' ha' b' hb' haa' hab'
    exact W.passes a ha b' hb' b hb hmixed hbb'.symm

section Step

variable {W : Values} {θ θ' : Substitution} {a b : Argument}

theorem Assignment.In.valueUnder_mem (v : Assignment.In W) (ha : a.StandsIn W) :
    a.valueUnder v.value ∈ W.carrier := by
  cases hname : a.name? with
  | none =>
    rw [Argument.valueUnder_of_value hname]
    exact ha hname
  | some n =>
    rw [Argument.valueUnder_of_name hname]
    exact v.mem n

/-- An argument agrees with what it resolves to. -/
theorem Assignment.In.agreesWith_resolve (v : Assignment.In W) (hv : v.value.Follows θ)
    (hθ : θ.BindsIn W) (a : Argument) :
    (a.valueUnder v.value).AgreesWith ((θ.resolve a).valueUnder v.value) := by
  induction θ, a using Substitution.resolve_induct with
  | value θ a ha =>
    rw [Substitution.resolve_of_value ha]
    exact .refl _
  | unbound θ a n ha hn =>
    rw [Substitution.resolve_of_unbound ha hn]
    exact .refl _
  | bound θ a n b ha hn ih =>
    have hθ' : Substitution.BindsIn W (θ.erase n) := Keyed.forall_erase hθ n
    have hfirst : (v.value n).AgreesWith (b.valueUnder v.value) := hv n b hn
    have hrest := ih (Keyed.forall_erase hv n) hθ'
    rw [Substitution.resolve_of_bound ha hn, Argument.valueUnder_of_name ha]
    exact W.passes _ (v.mem n) _ (v.valueUnder_mem (hθ n b hn)) _
      (v.valueUnder_mem (Substitution.resolve_mem hθ' (hθ n b hn))) hfirst hrest

/-- Binding a root asks for one more agreement. -/
theorem Assignment.follows_put_iff {v : Assignment} {n : Text}
    (hself : ∀ b, θ.get? n = some b → b.name? = some n) :
    v.Follows (θ.put n a) ↔ v.Follows θ ∧ (v n).AgreesWith (a.valueUnder v) :=
  forall_put_iff Argument.AgreesWith.refl hself

/-- Where a variable is involved, both arguments are variables or among the values. -/
theorem Argument.MeetIn.standsIn (hab : MeetIn W a b)
    (hwild : (a.isWildcard || b.isWildcard) = false)
    (hanon : (a.isAnonymous || b.isAnonymous) = false)
    (hname : ¬ (a.name? = none ∧ b.name? = none)) : a.StandsIn W ∧ b.StandsIn W := by
  rw [Bool.or_eq_false_iff] at hwild hanon
  constructor
  · intro ha
    cases hb : b.name? with
    | none => exact absurd ⟨ha, hb⟩ hname
    | some n => exact hab.2 (by rw [givenName?_eq_some_iff.mpr ⟨hanon.2, hb⟩]; rfl) hwild.1 ha
  · intro hb
    cases ha : a.name? with
    | none => exact absurd ⟨ha, hb⟩ hname
    | some n => exact hab.1 (by rw [givenName?_eq_some_iff.mpr ⟨hanon.1, ha⟩]; rfl) hwild.2 hb

theorem Substitution.In.unifyArguments (hθ : θ.In W) (hab : a.MeetIn W b)
    (hwild : (a.isWildcard || b.isWildcard) = false) (hu : unifyArguments a b θ = some θ') :
    θ'.In W := by
  refine ⟨hθ.layered.unifyArguments hu, ?_⟩
  have hspec := unifyArguments_spec a b θ
  rw [hu] at hspec
  cases hspec with
  | anonymous | same | compatible => exact hθ.binds
  | bindSecond n hanon _ hn =>
    have hname : ¬ (a.name? = none ∧ b.name? = none) := by
      rintro ⟨-, hb⟩
      rw [resolve_of_value hb, hb] at hn
      cases hn
    exact Keyed.forall_put hθ.binds (resolve_mem hθ.binds (hab.standsIn hwild hanon hname).1)
  | bindFirst n hanon _ _ hn =>
    have hname : ¬ (a.name? = none ∧ b.name? = none) := by
      rintro ⟨ha, -⟩
      rw [resolve_of_value ha, ha] at hn
      cases hn
    exact Keyed.forall_put hθ.binds (resolve_mem hθ.binds (hab.standsIn hwild hanon hname).2)

/-- Two arguments agree when what they resolve to does. -/
theorem Assignment.In.agreeUnder_iff_resolve (v : Assignment.In W) (hv : v.value.Follows θ)
    (hθ : θ.BindsIn W) (hab : a.MeetIn W b) (hwild : (a.isWildcard || b.isWildcard) = false)
    (hanon : (a.isAnonymous || b.isAnonymous) = false) :
    Argument.AgreeUnder v.value a b ↔
      ((θ.resolve a).valueUnder v.value).AgreesWith ((θ.resolve b).valueUnder v.value) := by
  have hnamed : Argument.AgreeUnder v.value a b ↔
      (a.valueUnder v.value).AgreesWith (b.valueUnder v.value) := by
    rw [Bool.or_eq_false_iff] at hanon
    simp [Argument.AgreeUnder, hanon]
  rw [hnamed]
  by_cases hname : a.name? = none ∧ b.name? = none
  · rw [Substitution.resolve_of_value hname.1, Substitution.resolve_of_value hname.2]
  · obtain ⟨ha, hb⟩ := hab.standsIn hwild hanon hname
    exact W.agreesWith_congr (v.valueUnder_mem ha)
      (v.valueUnder_mem (Substitution.resolve_mem hθ ha)) (v.valueUnder_mem hb)
      (v.valueUnder_mem (Substitution.resolve_mem hθ hb)) (v.agreesWith_resolve hv hθ a)
      (v.agreesWith_resolve hv hθ b)

/-- A step asks for the agreement of its two arguments, whatever was bound before. -/
theorem follows_unifyArguments_iff (v : Assignment.In W) (hθ : θ.In W) (hab : a.MeetIn W b)
    (hwild : (a.isWildcard || b.isWildcard) = false) :
    v.value.Follows θ ∧ Argument.AgreeUnder v.value a b ↔
      ∃ θ', unifyArguments a b θ = some θ' ∧ v.value.Follows θ' := by
  have hagree := fun hv => v.agreeUnder_iff_resolve hv hθ.binds hab hwild
  have hspec := unifyArguments_spec a b θ
  generalize unifyArguments a b θ = result at hspec ⊢
  cases hspec with
  | anonymous hanon =>
    simp only [Option.some.injEq, exists_eq_left']
    refine and_iff_left ?_
    rw [Bool.or_eq_true] at hanon
    exact hanon.imp_right Or.inl
  | same hanon hsame =>
    simp only [Option.some.injEq, exists_eq_left']
    exact and_iff_left_of_imp fun hv =>
      (hagree hv hanon).mpr (.inl (Argument.valueUnder_congr hsame))
  | bindSecond n hanon hsame hn =>
    simp only [Option.some.injEq, exists_eq_left']
    rw [Assignment.follows_put_iff (hθ.layered.isRoot_resolve b n hn)]
    refine and_congr_right fun hv => ?_
    rw [hagree hv hanon, Argument.valueUnder_of_name hn]
    exact ⟨Argument.AgreesWith.symm, Argument.AgreesWith.symm⟩
  | bindFirst n hanon hsame hb hn =>
    simp only [Option.some.injEq, exists_eq_left']
    rw [Assignment.follows_put_iff (hθ.layered.isRoot_resolve a n hn)]
    refine and_congr_right fun hv => ?_
    rw [hagree hv hanon, Argument.valueUnder_of_name hn]
  | compatible hanon hsame hb ha hcompat =>
    simp only [Option.some.injEq, exists_eq_left']
    refine and_iff_left_of_imp fun hv => (hagree hv hanon).mpr (.inr ?_)
    rwa [Argument.valueUnder_of_value ha, Argument.valueUnder_of_value hb]
  | clash hanon hsame hb ha hcompat =>
    simp only [reduceCtorEq, false_and, exists_false, iff_false]
    rintro ⟨hv, hvalues⟩
    rw [hagree hv hanon, Argument.valueUnder_of_value ha, Argument.valueUnder_of_value hb,
      Argument.AgreesWith, hsame, hcompat] at hvalues
    simp at hvalues

end Step

/-! ## Along the arguments -/

/-- The arguments agree under the assignment one by one, up to the first wildcard. -/
def Argument.AgreeAlong (v : Assignment) : List Argument → List Argument → Prop
  | [], _ => True
  | _ :: _, [] => False
  | a :: as, b :: bs =>
    (a.isWildcard || b.isWildcard) = true ∨ AgreeUnder v a b ∧ AgreeAlong v as bs

section Run

variable {W : Values} {θ θ' : Substitution} {as bs : List Argument}

theorem Substitution.In.matchArguments (hθ : θ.In W)
    (hmeet : ∀ ab ∈ as.zip bs, Argument.MeetIn W ab.1 ab.2)
    (hm : matchArguments as bs θ = some θ') : θ'.In W := by
  induction as generalizing bs θ with
  | nil =>
    rw [TagReasoner.matchArguments] at hm
    cases hm
    exact hθ
  | cons a as ih =>
    cases bs with
    | nil => cases hm
    | cons b bs =>
      rw [List.zip_cons_cons, List.forall_mem_cons] at hmeet
      rw [TagReasoner.matchArguments] at hm
      split at hm
      next =>
        cases hm
        exact hθ
      next hwild =>
        obtain ⟨θ₁, hu, hm⟩ := Option.bind_eq_some_iff.mp hm
        exact ih (hθ.unifyArguments hmeet.1 (Bool.eq_false_iff.mpr hwild) hu) hmeet.2 hm

/-- A run along the arguments asks for the agreement of all pairs in front of a wildcard. -/
theorem follows_matchArguments_iff (v : Assignment.In W) (hθ : θ.In W)
    (hmeet : ∀ ab ∈ as.zip bs, Argument.MeetIn W ab.1 ab.2) :
    v.value.Follows θ ∧ Argument.AgreeAlong v.value as bs ↔
      ∃ θ', matchArguments as bs θ = some θ' ∧ v.value.Follows θ' := by
  induction as generalizing bs θ with
  | nil => simp [matchArguments, Argument.AgreeAlong]
  | cons a as ih =>
    cases bs with
    | nil => simp [matchArguments, Argument.AgreeAlong]
    | cons b bs =>
      rw [List.zip_cons_cons, List.forall_mem_cons] at hmeet
      rw [matchArguments, Argument.AgreeAlong]
      cases hwild : a.isWildcard || b.isWildcard with
      | true => simp
      | false =>
        have hstep := follows_unifyArguments_iff v hθ hmeet.1 hwild
        simp only [Bool.false_eq_true, false_or, if_false]
        rw [← and_assoc, hstep]
        cases hu : unifyArguments a b θ with
        | none => simp
        | some θ₁ =>
          rw [Option.bind_some, ← ih (hθ.unifyArguments hmeet.1 hwild hu) hmeet.2]
          simp

end Run

/-! ## The search -/

namespace Fact

/-- The fact agrees with a pattern under the assignment. -/
structure AgreesUnder (v : Assignment) (f p : Fact) : Prop where
  predicate : f.predicate = p.predicate
  /-- What the pattern has beyond the length of the fact are wildcards. -/
  extra : ∀ b ∈ p.arguments.drop f.arity, b.isWildcard = true
  along : Argument.AgreeAlong v f.arguments p.arguments

/-- Where a named variable is opposite a value, the value is one of these. -/
def MeetIn (W : Values) (f p : Fact) : Prop :=
  f.predicate = p.predicate → ∀ ab ∈ f.arguments.zip p.arguments, Argument.MeetIn W ab.1 ab.2

end Fact

section Search

variable {W : Values} {facts ps : List Fact} {θ θ' : Substitution}

theorem Substitution.In.matchFacts {f p : Fact} (hθ : θ.In W) (hmeet : f.MeetIn W p)
    (hm : matchFacts f p θ = some θ') : θ'.In W := by
  obtain ⟨hpredicate, -, hm⟩ := matchFacts_eq_some_iff.mp hm
  exact hθ.matchArguments (hmeet hpredicate) hm

theorem follows_matchFacts_iff {f p : Fact} (v : Assignment.In W) (hθ : θ.In W)
    (hmeet : f.MeetIn W p) :
    v.value.Follows θ ∧ f.AgreesUnder v.value p ↔
      ∃ θ', matchFacts f p θ = some θ' ∧ v.value.Follows θ' := by
  simp only [matchFacts_eq_some_iff]
  constructor
  · rintro ⟨hv, hpredicate, hextra, halong⟩
    obtain ⟨θ', hm, hv'⟩ :=
      (follows_matchArguments_iff v hθ (hmeet hpredicate)).mp ⟨hv, halong⟩
    exact ⟨θ', ⟨hpredicate, hextra, hm⟩, hv'⟩
  · rintro ⟨θ', ⟨hpredicate, hextra, hm⟩, hv'⟩
    obtain ⟨hv, halong⟩ :=
      (follows_matchArguments_iff v hθ (hmeet hpredicate)).mpr ⟨θ', hm, hv'⟩
    exact ⟨hv, hpredicate, hextra, halong⟩

/-- What a search asks of an assignment is that every pattern agrees with some fact. -/
theorem exists_solution_follows_iff (v : Assignment.In W) (hθ : θ.In W)
    (hmeet : ∀ f ∈ facts, ∀ p ∈ ps, f.MeetIn W p) :
    (∃ σ ∈ solutions facts ps θ, v.value.Follows σ) ↔
      v.value.Follows θ ∧ ∀ p ∈ ps, ∃ f ∈ facts, f.AgreesUnder v.value p := by
  induction ps generalizing θ with
  | nil => simp [solutions]
  | cons p ps ih =>
    have hfirst : ∀ f ∈ facts, f.MeetIn W p := fun f hf => hmeet f hf p (List.mem_cons_self ..)
    have hrest : ∀ f ∈ facts, ∀ q ∈ ps, f.MeetIn W q := fun f hf q hq =>
      hmeet f hf q (List.mem_cons_of_mem p hq)
    rw [List.forall_mem_cons]
    constructor
    · rintro ⟨σ, hσ, hv⟩
      obtain ⟨f, hf, θ', hm, hσ⟩ := mem_solutions_cons_iff.mp hσ
      obtain ⟨hv', hall⟩ := (ih (hθ.matchFacts (hfirst f hf) hm) hrest).mp ⟨σ, hσ, hv⟩
      obtain ⟨hvθ, hagrees⟩ := (follows_matchFacts_iff v hθ (hfirst f hf)).mpr ⟨θ', hm, hv'⟩
      exact ⟨hvθ, ⟨f, hf, hagrees⟩, hall⟩
    · rintro ⟨hvθ, ⟨f, hf, hagrees⟩, hall⟩
      obtain ⟨θ', hm, hv'⟩ := (follows_matchFacts_iff v hθ (hfirst f hf)).mp ⟨hvθ, hagrees⟩
      obtain ⟨σ, hσ, hv⟩ := (ih (hθ.matchFacts (hfirst f hf) hm) hrest).mpr ⟨hv', hall⟩
      exact ⟨σ, mem_solutions_cons_iff.mpr ⟨f, hf, θ', hm, hσ⟩, hv⟩

/-- A substitution that binds variables to these values only can be followed. -/
theorem Substitution.In.exists_follows (hθ : θ.In W) (hempty : .literal [] ∈ W.carrier) :
    ∃ v : Assignment.In W, v.value.Follows θ := by
  have hmem : ∀ n, Assignment.ofBindings θ n ∈ W.carrier := by
    intro n
    have hroot : (θ.resolve (.named n .single [])).StandsIn W :=
      resolve_mem hθ.binds fun hname => by cases hname
    rw [Assignment.valueUnder_ofBindings (Argument.name?_named n .single [])]
    split
    next => exact hempty
    next hname => exact hroot (Option.not_isSome_iff_eq_none.mp hname)
  exact ⟨⟨_, hmem⟩, fun n a hn => .inl (Assignment.respects_ofBindings hθ.layered n a hn)⟩

/-- There is a solution when, under one assignment of values, every pattern agrees with some
fact. -/
theorem solutions_ne_nil_iff (hempty : .literal [] ∈ W.carrier)
    (hmeet : ∀ f ∈ facts, ∀ p ∈ ps, f.MeetIn W p) :
    solutions facts ps .empty ≠ [] ↔
      ∃ v : Assignment.In W, ∀ p ∈ ps, ∃ f ∈ facts, f.AgreesUnder v.value p := by
  have hθ : Substitution.In W .empty := ⟨Substitution.layered_empty, fun n a h => by cases h⟩
  have hsearch : ∀ v : Assignment.In W, (∃ σ ∈ solutions facts ps .empty, v.value.Follows σ) ↔
      ∀ p ∈ ps, ∃ f ∈ facts, f.AgreesUnder v.value p := fun v =>
    (exists_solution_follows_iff v hθ hmeet).trans (and_iff_right fun n a h => by cases h)
  simp only [← hsearch]
  constructor
  · intro hne
    obtain ⟨σ, hσ⟩ := List.exists_mem_of_ne_nil _ hne
    have hin : σ.In W := solutions_preserves
      (fun f hf p hp _ _ h hm => h.matchFacts (hmeet f hf p hp) hm) hθ hσ
    obtain ⟨v, hv⟩ := hin.exists_follows hempty
    exact ⟨v, σ, hσ, hv⟩
  · rintro ⟨v, σ, hσ, -⟩
    exact List.ne_nil_of_mem hσ

end Search

/-! ## Orders -/

/-- The values of facts and patterns that stand opposite a named variable. -/
def Fact.metValues (facts ps : List Fact) : Set Argument :=
  {c | c.isGround = true ∧ ∃ f ∈ facts, ∃ p ∈ ps, f.predicate = p.predicate ∧
    ∃ ab ∈ f.arguments.zip p.arguments,
      ab.1.givenName?.isSome = true ∧ ab.2 = c ∨ ab.2.givenName?.isSome = true ∧ ab.1 = c}

section Order

variable {V : Set Argument} {facts ps qs : List Fact}

/-- Where agreement passes on among the values that variables meet, neither the order of the patterns
matters nor how often one of them comes. -/
theorem solutions_ne_nil_congr
    (hV : Argument.AgreementPasses {a ∈ V | a.isGround = true})
    (hmet : Fact.metValues facts ps ⊆ V) (hsame : ∀ p, p ∈ ps ↔ p ∈ qs) :
    solutions facts ps .empty ≠ [] ↔ solutions facts qs .empty ≠ [] := by
  have hground : ∀ a ∈ {a ∈ V | a.isGround = true}, a.isGround = true := fun a ha => ha.2
  let W : Values :=
    { carrier := insert (.literal []) {a ∈ V | a.isGround = true}
      passes := hV.insert_literal hground [] }
  have hempty : .literal [] ∈ W.carrier := Set.mem_insert ..
  have hmeet : ∀ f ∈ facts, ∀ p ∈ ps, f.MeetIn W p := by
    intro f hf p hp hpredicate ab hab
    constructor
    · intro hname hwild hvalue
      have hground : ab.2.isGround = true := Argument.isGround_iff.mpr ⟨hvalue, hwild⟩
      exact .inr ⟨hmet ⟨hground, f, hf, p, hp, hpredicate, ab, hab, .inl ⟨hname, rfl⟩⟩, hground⟩
    · intro hname hwild hvalue
      have hground : ab.1.isGround = true := Argument.isGround_iff.mpr ⟨hvalue, hwild⟩
      exact .inr ⟨hmet ⟨hground, f, hf, p, hp, hpredicate, ab, hab, .inr ⟨hname, rfl⟩⟩, hground⟩
  rw [solutions_ne_nil_iff hempty hmeet,
    solutions_ne_nil_iff hempty fun f hf p hp => hmeet f hf p ((hsame p).mpr hp)]
  simp only [hsame]

/-- Over plain values the order of the patterns never matters, whatever else the facts hold. -/
theorem solutions_ne_nil_of_perm_plain (hmet : ∀ c ∈ Fact.metValues facts ps, c.isPlain = true)
    (hperm : ps.Perm qs) : solutions facts ps .empty ≠ [] ↔ solutions facts qs .empty ≠ [] := by
  have hpasses : Argument.AgreementPasses
      {a ∈ {a : Argument | a.isPlain = true} | a.isGround = true} := by
    intro a ha b hb c hc
    exact Argument.agreementPasses_plain a ha.1 b hb.1 c hc.1
  exact solutions_ne_nil_congr hpasses hmet fun p => hperm.mem_iff

end Order

/-! ## Facts with one argument -/

/-- A fact with one argument. -/
def Fact.unary (P : Char) (a : Argument) : Fact := ⟨[P], [a], .certain⟩

section Unary

variable {facts : List Fact} {θ θ' σ : Substitution} {a c x : Argument} {n : Text}

/-- A value is compared with that of a bound variable. -/
theorem unifyArguments_bound_eq_some_iff (ha : a.name? = none) (hx : x.givenName? = some n)
    (hn : θ.get? n = some c) (hc : c.name? = none) :
    unifyArguments a x θ = some θ' ↔ θ = θ' ∧ a.AgreesWith c := by
  obtain ⟨hanon, hx⟩ := Argument.givenName?_eq_some_iff.mp hx
  simp only [unifyArguments, Argument.isAnonymous_of_name?_eq_none ha, hanon, Bool.or_false,
    Bool.false_eq_true, if_false, Substitution.resolve_of_value ha,
    Substitution.resolve_of_bound hx hn, Substitution.resolve_of_value hc, hc, ha,
    Argument.AgreesWith]
  cases a == c <;> cases a.compatible c <;> simp

/-- A pattern with one argument is matched with the one fact of its predicate. -/
theorem mem_solutions_unary_iff {P : Char} {ps : List Fact} (ha : a.isGround = true)
    (hx : x.isWildcard = false)
    (hfacts : ∀ f, f ∈ facts ∧ f.predicate = [P] ↔ f = .unary P a) :
    σ ∈ solutions facts (.unary P x :: ps) θ ↔
      ∃ θ', unifyArguments a x θ = some θ' ∧ σ ∈ solutions facts ps θ' := by
  have hmatch : ∀ θ', matchFacts (.unary P a) (.unary P x) θ = some θ' ↔
      unifyArguments a x θ = some θ' := by
    intro θ'
    have hrun : matchArguments [a] [x] θ = unifyArguments a x θ := by
      rw [matchArguments_cons (Argument.isGround_iff.mp ha).2 hx]
      exact Option.bind_fun_some _
    rw [matchFacts_eq_some_iff, Fact.unary, Fact.unary, hrun]
    simp [Fact.arity]
  rw [mem_solutions_cons_iff]
  constructor
  · rintro ⟨f, hf, θ', hm, hσ⟩
    obtain rfl := (hfacts f).mp ⟨hf, (matchFacts_eq_some_iff.mp hm).1⟩
    exact ⟨θ', (hmatch θ').mp hm, hσ⟩
  · rintro ⟨θ', hu, hσ⟩
    exact ⟨_, ((hfacts _).mpr rfl).1, θ', (hmatch θ').mpr hu, hσ⟩

/-- The facts have one of each predicate, with the value that comes with it. -/
def Fact.OneOfEach (facts : List Fact) (ds : List (Char × Argument)) : Prop :=
  ∀ d ∈ ds, d.2.isGround = true ∧ ∀ f, f ∈ facts ∧ f.predicate = [d.1] ↔ f = .unary d.1 d.2

/-- A variable that is bound is compared throughout. -/
theorem exists_mem_solutions_unary_iff {ds : List (Char × Argument)} (ha : a.name? = none)
    (hx : x.givenName? = some n) (hn : θ.get? n = some a) (hds : Fact.OneOfEach facts ds) :
    (∃ σ, σ ∈ solutions facts (ds.map fun d => .unary d.1 x) θ) ↔ ∀ d ∈ ds, d.2.AgreesWith a := by
  have hwild := Argument.isWildcard_of_name? (Argument.givenName?_eq_some_iff.mp hx).2
  induction ds with
  | nil => simp [solutions]
  | cons d ds ih =>
    obtain ⟨⟨hd, hfacts⟩, hrest⟩ := List.forall_mem_cons.mp hds
    rw [List.map_cons, List.forall_mem_cons]
    simp only [mem_solutions_unary_iff hd hwild hfacts,
      unifyArguments_bound_eq_some_iff (Argument.isGround_iff.mp hd).1 hx hn ha]
    constructor
    · rintro ⟨σ, θ', ⟨hθ, hagrees⟩, hσ⟩
      rw [← hθ] at hσ
      exact ⟨hagrees, (ih hrest).mp ⟨σ, hσ⟩⟩
    · rintro ⟨hagrees, hall⟩
      obtain ⟨σ, hσ⟩ := (ih hrest).mpr hall
      exact ⟨σ, θ, ⟨rfl, hagrees⟩, hσ⟩

/-- The first pattern binds the variable, and the others are compared with what it is bound to. -/
theorem solutions_unary_ne_nil_iff {P : Char} {ds : List (Char × Argument)}
    (hx : x.givenName? = some n) (hds : Fact.OneOfEach facts ((P, a) :: ds)) :
    solutions facts (.unary P x :: ds.map fun d => .unary d.1 x) .empty ≠ [] ↔
      ∀ d ∈ ds, d.2.AgreesWith a := by
  obtain ⟨⟨ha, hfacts⟩, hrest⟩ := List.forall_mem_cons.mp hds
  have hname := (Argument.isGround_iff.mp ha).1
  have hwild := Argument.isWildcard_of_name? (Argument.givenName?_eq_some_iff.mp hx).2
  have hfirst : unifyArguments a x .empty = some (.put .empty n a) :=
    unifyArguments_free hname hx rfl
  rw [← exists_mem_solutions_unary_iff hname hx (Keyed.get?_put_self .empty n a) hrest,
    ← List.isEmpty_eq_false_iff, List.isEmpty_eq_false_iff_exists_mem]
  refine exists_congr fun σ => ?_
  rw [mem_solutions_unary_iff ha hwild hfacts, hfirst]
  simp

theorem Fact.oneOfEach_map {ds : List (Char × Argument)} (hground : ∀ d ∈ ds, d.2.isGround = true)
    (hdistinct : (ds.map Prod.fst).Nodup) : OneOfEach (ds.map fun d => unary d.1 d.2) ds := by
  refine fun d hd => ⟨hground d hd, fun f => ⟨?_, ?_⟩⟩
  · rintro ⟨hf, hpredicate⟩
    obtain ⟨e, he, rfl⟩ := List.mem_map.mp hf
    have hsame : e.1 = d.1 := List.singleton_inj.mp hpredicate
    rw [List.inj_on_of_nodup_map hdistinct he hd hsame]
  · rintro rfl
    exact ⟨List.mem_map_of_mem hd, rfl⟩

theorem Fact.metValues_unary_subset {V : Set Argument} {ds es : List (Char × Argument)}
    (hx : x.isVariable = true) (hds : ∀ d ∈ ds, d.2 ∈ V) :
    metValues (ds.map fun d => unary d.1 d.2) (es.map fun d => unary d.1 x) ⊆ V := by
  rintro c ⟨hc, f, hf, p, hp, -, ab, hab, hmeet⟩
  obtain ⟨d, hd, rfl⟩ := List.mem_map.mp hf
  obtain ⟨e, he, rfl⟩ := List.mem_map.mp hp
  obtain rfl := List.mem_singleton.mp hab
  rcases hmeet with ⟨-, rfl⟩ | ⟨-, rfl⟩
  · -- the argument of a pattern is a variable and no value
    rw [Argument.isVariable, (Argument.isGround_iff.mp hc).1] at hx
    cases hx
  · exact hds d hd

end Unary

/-- For the facts and patterns in which variables meet these values only, the order of the patterns
does not matter, just when agreement passes on among the values. -/
theorem order_invisible_iff (V : Set Argument) :
    (∀ facts ps qs : List Fact, Fact.metValues facts ps ⊆ V → ps.Perm qs →
      (solutions facts ps .empty ≠ [] ↔ solutions facts qs .empty ≠ [])) ↔
      Argument.AgreementPasses {a ∈ V | a.isGround = true} := by
  constructor
  · rintro hall a ⟨haV, ha⟩ b ⟨hbV, hb⟩ c ⟨hcV, hc⟩ hab hbc
    let x : Argument := .named ['x'] .single []
    let ds : List (Char × Argument) := [('A', a), ('B', b), ('C', c)]
    let es : List (Char × Argument) := [('B', b), ('A', a), ('C', c)]
    let facts : List Fact := ds.map fun d => .unary d.1 d.2
    have hperm : es.Perm ds := .swap ..
    have hds : Fact.OneOfEach facts ds :=
      Fact.oneOfEach_map (by simp [ds, ha, hb, hc]) (by simp [ds])
    have hes : Fact.OneOfEach facts es := fun d hd => hds d (hperm.mem_iff.mp hd)
    have horder := hall facts (es.map fun d => .unary d.1 x) (ds.map fun d => .unary d.1 x)
      (Fact.metValues_unary_subset rfl (by simp [ds, haV, hbV, hcV])) (hperm.map _)
    have hbac := solutions_unary_ne_nil_iff (x := x) rfl hes
    have habc := solutions_unary_ne_nil_iff (x := x) rfl hds
    have hsolved := horder.mp (hbac.mpr (by simp [hab, hbc.symm]))
    have hagrees := habc.mp hsolved
    exact (hagrees ('C', c) (by simp)).symm
  · intro hV facts ps qs hmet hperm
    exact solutions_ne_nil_congr hV hmet fun p => hperm.mem_iff

/-- With the facts `A(5)`, `B(>3)` and `C(>4)` the variable may be `5`, and that is found when `A`
comes first. When `B` does, the variable is `>3`, with which `>4` does not agree. -/
theorem not_order_invisible_operators :
    let facts : List Fact := [.unary 'A' (.number (.ofNat 5) .eq),
      .unary 'B' (.number (.ofNat 3) .gt), .unary 'C' (.number (.ofNat 4) .gt)]
    let A : Fact := .unary 'A' (.named ['x'] .single [])
    let B : Fact := .unary 'B' (.named ['x'] .single [])
    let C : Fact := .unary 'C' (.named ['x'] .single [])
    [A, B, C].Perm [B, A, C] ∧
      ¬ (solutions facts [A, B, C] .empty ≠ [] ↔ solutions facts [B, A, C] .empty ≠ []) := by
  intro facts A B C
  have hfound : (solutions facts [A, B, C] .empty).isEmpty = false := by decide +kernel
  have hmissed : (solutions facts [B, A, C] .empty).isEmpty = true := by decide +kernel
  rw [List.isEmpty_iff] at hmissed
  rw [List.isEmpty_eq_false_iff] at hfound
  exact ⟨.swap .., fun h => h.mp hfound hmissed⟩

end TagReasoner
