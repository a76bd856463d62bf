import TagReasoner.Proofs.Composition.Soundness
import TagReasoner.Proofs.Reasoning.Snapshot

/-!
# Choosing inputs for the outputs of a rule

Composing two rules matches each output of the first with the first input of the second that it
matches, and goes on with the bindings of that match. So it finds a choice of inputs that the
outputs match together, if it finds something (`matchable_of_matchOutputs`). But it never goes back:
where the first match binds a variable in a way that an output further on cannot match, another
input that matches would have been the right one (`not_compose_matchable_grandparent`).

Composing finds a match whenever there is one just in case the first match spoils nothing, at any
output that it comes to (`FirstMatchSuffices`). That is so when all inputs that an output matches
leave the same bindings, but for the last output (`SameBindings`).
-/

namespace TagReasoner

/-! ## Choices -/

/-- Matches outputs with the inputs chosen for them, one by one, bindings carried along. -/
def matchChosen (outputs choice : List Tag) (θ : Substitution) : Option Substitution :=
  (outputs.zip choice).foldlM (fun θ p => matchTags p.1 p.2 θ) θ

/-- An input can be chosen for each output so that they match. -/
def Matchable (inputs outputs : List Tag) (θ : Substitution) : Prop :=
  ∃ choice : List Tag, choice ⊆ inputs ∧ choice.length = outputs.length ∧
    (matchChosen outputs choice θ).isSome = true

/-- The first match spoils nothing: if the outputs from here on can be matched, those behind can be
matched after the first input that this one matches, and so on from there. -/
def FirstMatchSuffices (inputs : List Tag) : List Tag → Substitution → Prop
  | [], _ => True
  | o :: os, θ => ∀ θ', matchOutput inputs θ o = some θ' →
      (Matchable inputs (o :: os) θ → Matchable inputs os θ') ∧ FirstMatchSuffices inputs os θ'

/-- All inputs that an output matches leave the same bindings. The last output may leave any. -/
def SameBindings (inputs outputs : List Tag) : Prop :=
  ∀ o ∈ outputs.dropLast, ∀ i ∈ inputs, ∀ j ∈ inputs, ∀ θ θ₁ θ₂,
    matchTags o i θ = some θ₁ → matchTags o j θ = some θ₂ → θ₁ = θ₂

section Match

variable {inputs os : List Tag} {o : Tag} {θ θ' : Substitution}

theorem matchable_nil : Matchable inputs [] θ := ⟨[], List.nil_subset _, rfl, rfl⟩

theorem matchable_cons_iff : Matchable inputs (o :: os) θ ↔
    ∃ i ∈ inputs, ∃ θ', matchTags o i θ = some θ' ∧ Matchable inputs os θ' := by
  constructor
  · rintro ⟨choice, hinputs, hlength, hm⟩
    cases choice with
    | nil => cases hlength
    | cons i choice =>
      obtain ⟨hi, hinputs⟩ := List.cons_subset.mp hinputs
      rw [matchChosen, List.zip_cons_cons, List.foldlM_cons, Option.isSome_iff_exists] at hm
      obtain ⟨σ, hm⟩ := hm
      obtain ⟨θ', hfirst, hrest⟩ := Option.bind_eq_some_iff.mp hm
      refine ⟨i, hi, θ', hfirst, choice, hinputs, Nat.succ.inj hlength, ?_⟩
      exact Option.isSome_iff_exists.mpr ⟨σ, hrest⟩
  · rintro ⟨i, hi, θ', hfirst, choice, hinputs, hlength, hrest⟩
    refine ⟨i :: choice, List.cons_subset.mpr ⟨hi, hinputs⟩, congrArg Nat.succ hlength, ?_⟩
    rw [matchChosen, List.zip_cons_cons, List.foldlM_cons]
    show ((matchTags o i θ).bind fun θ => matchChosen os choice θ).isSome = true
    rw [hfirst]
    exact hrest

theorem exists_of_matchOutput (h : matchOutput inputs θ o = some θ') :
    ∃ i ∈ inputs, matchTags o i θ = some θ' :=
  List.exists_of_findSome?_eq_some h

theorem matchOutputs_cons : matchOutputs (o :: os) inputs θ =
    (matchOutput inputs θ o).bind (matchOutputs os inputs) :=
  List.foldlM_cons ..

/-- What composing finds is a choice. -/
theorem matchable_of_matchOutputs {outputs : List Tag}
    (h : (matchOutputs outputs inputs θ).isSome = true) : Matchable inputs outputs θ := by
  induction outputs generalizing θ with
  | nil => exact matchable_nil
  | cons o os ih =>
    rw [matchOutputs_cons] at h
    cases hfirst : matchOutput inputs θ o with
    | none =>
      rw [hfirst] at h
      cases h
    | some θ' =>
      rw [hfirst, Option.bind_some] at h
      obtain ⟨i, hi, hm⟩ := exists_of_matchOutput hfirst
      exact matchable_cons_iff.mpr ⟨i, hi, θ', hm, ih h⟩

/-- Matching finds a choice if there is one, just when the first match spoils nothing. -/
theorem firstMatchSuffices_iff {outputs : List Tag} : FirstMatchSuffices inputs outputs θ ↔
    (Matchable inputs outputs θ → (matchOutputs outputs inputs θ).isSome = true) := by
  induction outputs generalizing θ with
  | nil => exact ⟨fun _ _ => rfl, fun _ => trivial⟩
  | cons o os ih =>
    rw [FirstMatchSuffices, matchOutputs_cons]
    cases hfirst : matchOutput inputs θ o with
    | none =>
      refine ⟨fun _ hmatchable => ?_, fun _ θ' h => by cases h⟩
      obtain ⟨i, hi, θ', hm, -⟩ := matchable_cons_iff.mp hmatchable
      rw [List.findSome?_eq_none_iff.mp hfirst i hi] at hm
      cases hm
    | some θ' =>
      obtain ⟨i, hi, hm⟩ := exists_of_matchOutput hfirst
      have hchosen : Matchable inputs os θ' → Matchable inputs (o :: os) θ := fun h =>
        matchable_cons_iff.mpr ⟨i, hi, θ', hm, h⟩
      rw [Option.bind_some]
      constructor
      · intro h hmatchable
        obtain ⟨hkept, hrest⟩ := h θ' rfl
        exact ih.mp hrest (hkept hmatchable)
      · rintro h _ ⟨⟩
        refine ⟨fun hmatchable => matchable_of_matchOutputs (h hmatchable), ih.mpr fun hrest => ?_⟩
        exact h (hchosen hrest)

/-- It does not matter which input is taken if all that match leave the same bindings. -/
theorem SameBindings.firstMatchSuffices {outputs : List Tag} (h : SameBindings inputs outputs)
    (θ : Substitution) : FirstMatchSuffices inputs outputs θ := by
  induction outputs generalizing θ with
  | nil => trivial
  | cons o os ih =>
    intro θ' hfirst
    cases os with
    | nil => exact ⟨fun _ => matchable_nil, trivial⟩
    | cons o' os =>
      rw [SameBindings, List.dropLast_cons_cons, List.forall_mem_cons] at h
      refine ⟨fun hmatchable => ?_, ih h.2 θ'⟩
      obtain ⟨i, hi, hm⟩ := exists_of_matchOutput hfirst
      obtain ⟨j, hj, θ₁, hm', hrest⟩ := matchable_cons_iff.mp hmatchable
      rwa [h.1 i hi j hj θ θ' θ₁ hm hm']

end Match

/-! ## Composing rules -/

theorem Tag.substituteAll_eq_nil_iff {θ : Substitution} {ts : List Tag} :
    Tag.substituteAll θ ts = [] ↔ ts = [] := by
  cases ts <;> simp [substituteAll]

namespace Rule

variable {first second : Rule}

theorem nothingToCompose_eq_false (hfirst : first.isEmpty = false)
    (hsecond : second.isEmpty = false) (houtputs : first.outputs ≠ []) :
    nothingToCompose first second = false := by
  rw [nothingToCompose, hfirst, hsecond, List.isEmpty_eq_false_iff.mpr houtputs]
  rfl

/-- A composed rule is not the empty one when the outputs match, unless there is neither an input of
the first nor an output of the second for it. -/
theorem isEmpty_compose_eq_false_iff (h : nothingToCompose first second = false) :
    (compose first second).isEmpty = false ↔
      (first.composingBindings second).isSome = true ∧
        (first.inputs ≠ [] ∨ second.outputs ≠ []) := by
  rw [compose, if_neg (by simp [h]), composeApart]
  cases hbindings : first.composingBindings second with
  | none =>
    rw [composingBindings] at hbindings
    rw [hbindings]
    simp [isEmpty, empty]
  | some θ =>
    rw [composingBindings] at hbindings
    rw [hbindings]
    simp only [isEmpty, Bool.and_eq_false_iff, List.isEmpty_eq_false_iff, ne_eq, renameApart,
      Rule.substitute, Tag.substituteAll_eq_nil_iff, Option.isSome_some, true_and]

/-- Nothing stands in the way of composing rules that hold nothing but tags. -/
theorem compositionRefusal?_eq_none (hfirst : first.toTag.foreignKind? = none)
    (hsecond : second.toTag.foreignKind? = none) : compositionRefusal? first second = none := by
  obtain ⟨-, houtputs⟩ := Option.or_eq_none_iff.mp hfirst
  obtain ⟨-, hsecondOutputs⟩ := Option.or_eq_none_iff.mp hsecond
  have hrenaming : ∀ ρ, second.toTag.substitutionRefusal? ρ = none := fun ρ => by
    rw [Tag.substitutionRefusal?, hsecond, ite_self]
  have hmatching : ∀ inputs, matchingRefusal? first.outputs inputs = none := fun inputs => by
    -- no output is dropped, for none is foreign
    have hnone : (first.outputs.dropWhile fun t => !t.isForeign) = [] := by
      rw [List.dropWhile_eq_nil_iff]
      intro t ht
      have hkind := Tag.firstForeignKind?_eq_none_iff.mp houtputs t ht
      cases t with
      | foreign => cases hkind
      | fact | recommendation | rule => rfl
    rw [matchingRefusal?, hnone]
  have hsubstitution : ∀ ρ θ, (Tag.rule [] (second.substitute ρ).outputs).substitutionRefusal? θ
      = none := fun ρ θ => by
    have hkind : (Tag.rule [] (second.substitute ρ).outputs).foreignKind? = none := by
      rw [Rule.substitute, Tag.foreignKind?, Tag.firstForeignKind?_substituteAll, hsecondOutputs]
      rfl
    rw [Tag.substitutionRefusal?, hkind, ite_self]
  rw [compositionRefusal?]
  split
  · rfl
  · simp only [hrenaming, hmatching, hsubstitution, Option.or_none]
    cases matchOutputs first.outputs _ .empty <;> rfl

end Rule

/-- Composing gives a rule only if inputs can be chosen that the outputs match. It does so whenever
they can be chosen, just when the first match spoils nothing and there is an input of the first or
an output of the second for the composed rule to hold. Nothing is spoilt where all inputs that an
output matches leave the same bindings. -/
theorem compose_matchable_iff (first second : Rule) (hfirst : first.isEmpty = false)
    (hsecond : second.isEmpty = false) (houtputs : first.outputs ≠ []) :
    let inputs := (second.renameApart first.namedVariables.keys).inputs
    (first.toTag.foreignKind? = none → second.toTag.foreignKind? = none →
      composeChecked first second = .ok (compose first second)) ∧
    ((compose first second).isEmpty = false → Matchable inputs first.outputs .empty) ∧
    (((compose first second).isEmpty = false ↔ Matchable inputs first.outputs .empty) ↔
      FirstMatchSuffices inputs first.outputs .empty ∧
        (Matchable inputs first.outputs .empty → first.inputs ≠ [] ∨ second.outputs ≠ [])) ∧
    (SameBindings inputs first.outputs →
      ((compose first second).isEmpty = false ↔
        Matchable inputs first.outputs .empty ∧ (first.inputs ≠ [] ∨ second.outputs ≠ []))) := by
  intro inputs
  have hempty := Rule.isEmpty_compose_eq_false_iff
    (Rule.nothingToCompose_eq_false hfirst hsecond houtputs)
  have hsound : (compose first second).isEmpty = false → Matchable inputs first.outputs .empty :=
    fun h => matchable_of_matchOutputs (hempty.mp h).1
  refine ⟨fun hf hs => ?_, hsound, ?_, fun hsame => ?_⟩
  · rw [composeChecked, Rule.compositionRefusal?_eq_none hf hs]
  · rw [firstMatchSuffices_iff, ← forall_and]
    constructor
    · intro h hmatchable
      exact hempty.mp (h.mpr hmatchable)
    · intro h
      exact ⟨hsound, fun hmatchable => hempty.mpr (h hmatchable)⟩
  · have hfound := firstMatchSuffices_iff.mp (hsame.firstMatchSuffices .empty)
    rw [hempty, and_congr_left_iff]
    exact fun _ => ⟨matchable_of_matchOutputs, hfound⟩

/-- Two inputs match the last output, and only one matches the output before it. -/
theorem compose_matchable_iff_last_output :
    let x := Argument.named ['x'] .single []
    let y := Argument.named ['y'] .single []
    let z := Argument.named ['z'] .single []
    let k := Argument.literal ['k']
    let first : Rule := ⟨[.fact ⟨['D'], [x], .certain⟩],
      [.fact ⟨['A'], [x], .certain⟩, .fact ⟨['B'], [x, k], .certain⟩]⟩
    let second : Rule := ⟨[.fact ⟨['B'], [z, k], .certain⟩, .fact ⟨['A'], [y], .certain⟩,
      .fact ⟨['B'], [y, z], .certain⟩], [.fact ⟨['C'], [y, z], .certain⟩]⟩
    let inputs := (second.renameApart first.namedVariables.keys).inputs
    SameBindings inputs first.outputs ∧ Matchable inputs first.outputs .empty ∧
      (compose first second).isEmpty = false := by
  intro x y z k first second inputs
  have hinputs : inputs = second.inputs := by
    show (second.renameApart first.namedVariables.keys).inputs = _
    rw [Rule.renameApart_eq_self (by decide +kernel)]
  have hsame : SameBindings inputs first.outputs := by
    rw [hinputs]
    intro o ho
    obtain rfl := List.mem_singleton.mp ho
    have hone : ∀ i ∈ second.inputs, ∀ θ θ',
        matchTags (.fact ⟨['A'], [x], .certain⟩) i θ = some θ' →
          i = .fact ⟨['A'], [y], .certain⟩ := by
      intro i hi θ θ' hm
      simp only [second, List.mem_cons, List.not_mem_nil, or_false] at hi
      rcases hi with rfl | rfl | rfl
      · cases hm
      · rfl
      · cases hm
    intro i hi j hj θ θ₁ θ₂ hm hm'
    rw [hone i hi θ θ₁ hm] at hm
    rw [hone j hj θ θ₂ hm', hm] at hm'
    exact Option.some.inj hm'
  have hmatchable : Matchable inputs first.outputs .empty := by
    rw [hinputs]
    refine ⟨[.fact ⟨['A'], [y], .certain⟩, .fact ⟨['B'], [y, z], .certain⟩], ?_, rfl, ?_⟩
    · exact List.subset_cons_self ..
    · decide +kernel
  obtain ⟨-, -, -, hchecked⟩ := compose_matchable_iff first second rfl rfl (List.cons_ne_nil _ _)
  exact ⟨hsame, hmatchable, (hchecked hsame).mpr ⟨hmatchable, .inl (List.cons_ne_nil _ _)⟩⟩

/-- Parents of parents, the younger generation first. The first output is matched with the first
input, after which the second output matches neither. -/
theorem not_compose_matchable_grandparent :
    let x := Argument.named ['x'] .single []
    let y := Argument.named ['y'] .single []
    let z := Argument.named ['z'] .single []
    let parent := fun a b : Argument => Tag.fact ⟨['P', 'a', 'r', 'e', 'n', 't'], [a, b], .certain⟩
    let first : Rule := ⟨[.fact ⟨['S'], [.literal ['k']], .certain⟩],
      [parent (.literal ['a']) (.literal ['b']), parent (.literal ['b']) (.literal ['c'])]⟩
    let second : Rule := ⟨[parent y z, parent x y],
      [.fact ⟨['G', 'r', 'a', 'n', 'd', 'p', 'a', 'r', 'e', 'n', 't'], [x, z], .certain⟩]⟩
    let inputs := (second.renameApart first.namedVariables.keys).inputs
    first.isEmpty = false ∧ second.isEmpty = false ∧ first.outputs ≠ [] ∧
      Matchable inputs first.outputs .empty ∧ (compose first second).isEmpty = true := by
  intro x y z parent first second inputs
  refine ⟨rfl, rfl, List.cons_ne_nil _ _, ?_, by decide +kernel⟩
  have hinputs : inputs = second.inputs := by
    show (second.renameApart first.namedVariables.keys).inputs = _
    rw [Rule.renameApart_eq_self (by decide +kernel)]
  rw [hinputs]
  refine ⟨[parent x y, parent y z], ?_, rfl, by decide +kernel⟩
  intro t ht
  simp only [second, List.mem_cons, List.not_mem_nil, or_false] at ht ⊢
  exact ht.symm

end TagReasoner
