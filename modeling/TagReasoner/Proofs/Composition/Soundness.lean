import TagReasoner.Composition.Basic
import TagReasoner.Matching.Satisfaction
import TagReasoner.Proofs.Composition.Lockstep
import TagReasoner.Proofs.Composition.Renaming
import TagReasoner.Proofs.Matching.Satisfaction

/-!
# When a composed rule derives what the chain does

Composing `A => o` and `q => C` gives `A => C` with the bindings put in that matching `o` with `q`
makes. They may bind variables of `A` as well, but these stay as they are in the inputs. So the
composed rule may fire where the chain from `A` to `C` does not.

`compose_chainDerives` tells when it is sound: if composing leaves the inputs of the first rule free
(`Rule.LeavesInputsFree`), the chain derives whatever the composed rule does, and where only the
asserted output can match, it does so from a generic solution in no other case. The outputs of both
differ in the names of variables that stay unbound, which `Tag.RenamedBy` allows for.

Firing a rule renames nothing, as composing does. So names that the rules share may come together in
the chain only, and both halves of `Rule.NamesApart` are needed
(`not_chainDerives_shared_free_name`, `not_chainDerives_bare_mark_name`).
-/

namespace TagReasoner

/-! ## Tags that differ in the names of variables -/

/-- Equal values, or variables with related names of which both or neither are bare marks. -/
def Argument.RenamedBy (R : Text → Text → Prop) (a b : Argument) : Prop :=
  (∃ m n, a.name? = some m ∧ b.name? = some n ∧ R m n ∧ a.isAnonymous = b.isAnonymous) ∨
    (a.name? = none ∧ (a == b) = true)

mutual

/-- The second tag is the first with its variables renamed. -/
def Tag.RenamedBy (R : Text → Text → Prop) : Tag → Tag → Prop
  | .fact f, .fact g =>
    f.predicate = g.predicate ∧ List.Forall₂ (Argument.RenamedBy R) f.arguments g.arguments
  | .recommendation c, .recommendation d => c = d
  | .rule i o, .rule j p => Tag.AllRenamedBy R i j ∧ Tag.AllRenamedBy R o p
  | .foreign k s, .foreign l t => k = l ∧ s = t
  | _, _ => False

/-- Several tags with their variables renamed. -/
def Tag.AllRenamedBy (R : Text → Text → Prop) : List Tag → List Tag → Prop
  | [], [] => True
  | t :: ts, u :: us => Tag.RenamedBy R t u ∧ Tag.AllRenamedBy R ts us
  | _, _ => False

end

namespace Fact

variable {f : Fact} {θ : Substitution}

theorem predicate_substitute (f : Fact) (θ : Substitution) :
    (f.substitute θ).predicate = f.predicate := by
  rw [substitute]
  split <;> rfl

/-- The arguments are resolved, up to equality. -/
theorem arguments_substitute_beq {as : List Argument} (θ : Substitution)
    (h : (f.arguments == as) = true) :
    ((f.substitute θ).arguments == as.map θ.resolve) = true := by
  have hmap : (f.arguments.map θ.resolve == as.map θ.resolve) = true := by
    rw [beq_iff_forall₂] at h ⊢
    rw [List.forall₂_map_left_iff, List.forall₂_map_right_iff]
    exact h.imp fun a b hab => Substitution.resolve_congr hab
  rw [substitute]
  split
  next hsame => exact BEq.trans (BEq.symm hsame) hmap
  next => exact hmap

/-- They are the resolved ones if what resolves to an equal argument resolves to itself. -/
theorem arguments_substitute
    (h : ∀ a ∈ f.arguments, (θ.resolve a == a) = true → θ.resolve a = a) :
    (f.substitute θ).arguments = f.arguments.map θ.resolve := by
  rw [substitute]
  split
  next hsame =>
    rw [beq_iff_forall₂, List.forall₂_map_left_iff, List.forall₂_same] at hsame
    refine ((List.map_congr_left fun a ha => ?_).trans (List.map_id _)).symm
    exact h a ha (hsame a ha)
  next => rfl

end Fact

theorem Argument.RenamedBy.congr {R : Text → Text → Prop} {a a' b b' : Argument}
    (h : RenamedBy R a b) (ha : (a' == a) = true) (hb : (b' == b) = true) :
    RenamedBy R a' b' := by
  rcases h with ⟨m, n, hm, hn, hR, hanon⟩ | ⟨hname, hab⟩
  · refine .inl ⟨m, n, (name?_congr ha).trans hm, (name?_congr hb).trans hn, hR, ?_⟩
    rw [isAnonymous_congr ha, isAnonymous_congr hb, hanon]
  · exact .inr ⟨(name?_congr ha).trans hname, BEq.trans ha (BEq.trans hab (BEq.symm hb))⟩

theorem Argument.RenamedBy.forall₂_congr {R : Text → Text → Prop} {as as' bs bs' : List Argument}
    (h : List.Forall₂ (RenamedBy R) as bs) (ha : (as' == as) = true) (hb : (bs' == bs) = true) :
    List.Forall₂ (RenamedBy R) as' bs' := by
  rw [beq_iff_forall₂] at ha hb
  induction h generalizing as' bs' with
  | nil =>
    cases ha
    cases hb
    exact .nil
  | cons hab _ ih =>
    cases ha with
    | cons haa' ha =>
      cases hb with
      | cons hbb' hb => exact .cons (hab.congr haa' hbb') (ih ha hb)

theorem Argument.RenamedBy.isVariable_eq {R : Text → Text → Prop} {a b : Argument}
    (h : RenamedBy R a b) : a.isVariable = b.isVariable := by
  rw [isVariable, isVariable]
  rcases h with ⟨m, n, hm, hn, -⟩ | ⟨-, hequal⟩
  · rw [hm, hn, Option.isSome_some, Option.isSome_some]
  · rw [name?_congr hequal]

mutual

/-- Renaming leaves variables where they are. -/
theorem Tag.RenamedBy.isVariable_eq {R : Text → Text → Prop} :
    ∀ {t u : Tag}, RenamedBy R t u →
      t.allArguments.map Argument.isVariable = u.allArguments.map Argument.isVariable
  | .fact f, u, h => by
    cases u <;> simp only [RenamedBy] at h
    rw [allArguments, allArguments, ← List.forall₂_eq_eq_eq, List.forall₂_map_left_iff,
      List.forall₂_map_right_iff]
    exact h.2.imp fun _ _ => Argument.RenamedBy.isVariable_eq
  | .rule i o, u, h => by
    cases u <;> simp only [RenamedBy] at h
    rw [allArguments, allArguments, List.map_append, List.map_append,
      Tag.AllRenamedBy.isVariable_eq h.1, Tag.AllRenamedBy.isVariable_eq h.2]
  | .recommendation c, u, h => by
    cases u <;> simp only [RenamedBy] at h
    rfl
  | .foreign k s, u, h => by
    cases u <;> simp only [RenamedBy] at h
    rfl

theorem Tag.AllRenamedBy.isVariable_eq {R : Text → Text → Prop} :
    ∀ {ts us : List Tag}, AllRenamedBy R ts us →
      (argumentsOf ts).map Argument.isVariable = (argumentsOf us).map Argument.isVariable
  | [], us, h => by
    cases us <;> simp only [AllRenamedBy] at h
    rfl
  | t :: ts, us, h => by
    cases us <;> simp only [AllRenamedBy] at h
    rw [argumentsOf, argumentsOf, List.map_append, List.map_append,
      Tag.RenamedBy.isVariable_eq h.1, Tag.AllRenamedBy.isVariable_eq h.2]

end

section Substitute

variable {R : Text → Text → Prop} {ρ θ s t : Substitution}

/-- What `t` puts in for the argument has, up to names, what the renaming, the bindings and the
solution put in one after another. -/
def Argument.PutInAlike (R : Text → Text → Prop) (ρ θ s t : Substitution) (b : Argument) : Prop :=
  RenamedBy R (t.resolve b) (s.resolve (θ.resolve (ρ.resolve b)))

theorem Fact.renamedBy_substitute {f : Fact}
    (h : ∀ b ∈ f.arguments, b.PutInAlike R ρ θ s t) :
    Tag.RenamedBy R (.fact (f.substitute t))
      (.fact (((f.substitute ρ).substitute θ).substitute s)) := by
  rw [Tag.RenamedBy]
  simp only [predicate_substitute, true_and]
  have hleft := Fact.arguments_substitute_beq t (BEq.refl f.arguments)
  have hright := Fact.arguments_substitute_beq s
    (Fact.arguments_substitute_beq θ (Fact.arguments_substitute_beq ρ (BEq.refl f.arguments)))
  rw [List.map_map, List.map_map] at hright
  refine Argument.RenamedBy.forall₂_congr ?_ hleft hright
  rw [List.forall₂_map_left_iff, List.forall₂_map_right_iff, List.forall₂_same]
  exact h

mutual

/-- Arguments that are put in alike make tags alike, however deep inside they stand. -/
theorem Tag.renamedBy_substitute :
    ∀ u : Tag, (∀ b ∈ u.allArguments, b.PutInAlike R ρ θ s t) →
      Tag.RenamedBy R (u.substitute t) (((u.substitute ρ).substitute θ).substitute s)
  | .fact f, h => by
    simp only [substitute]
    exact Fact.renamedBy_substitute h
  | .rule i o, h => by
    simp only [substitute, RenamedBy]
    exact ⟨Tag.allRenamedBy_substitute i fun b hb => h b (List.mem_append_left _ hb),
      Tag.allRenamedBy_substitute o fun b hb => h b (List.mem_append_right _ hb)⟩
  | .recommendation c, _ => by simp only [substitute, RenamedBy]
  | .foreign k l, _ => by simp only [substitute, RenamedBy, and_self]

theorem Tag.allRenamedBy_substitute :
    ∀ us : List Tag, (∀ b ∈ argumentsOf us, b.PutInAlike R ρ θ s t) →
      Tag.AllRenamedBy R (substituteAll t us)
        (substituteAll s (substituteAll θ (substituteAll ρ us)))
  | [], _ => by simp only [substituteAll, AllRenamedBy]
  | u :: us, h => by
    simp only [substituteAll, AllRenamedBy]
    exact ⟨Tag.renamedBy_substitute u fun b hb => h b (List.mem_append_left _ hb),
      Tag.allRenamedBy_substitute us fun b hb => h b (List.mem_append_right _ hb)⟩

end

end Substitute

/-- What the arguments of the second rule have put in is alike after both matches. A bare mark has
to be out of the way of both. -/
theorem Juncture.Lock.renamedBy {J : Juncture} {θ t : Substitution} {b b' : Argument}
    (h : J.Lock θ t) (hk : J.Keeps θ) (hb : J.Renames b b')
    (hmark : b.isAnonymous = true → ∀ n, b.name? = some n → J.solution.get? n = none ∧
      ¬ J.first n ∧ ¬ J.second n ∧ ∀ y, J.second y → J.renamed y ≠ n) :
    Argument.RenamedBy J.Related (t.resolve b) (J.solution.resolve (θ.resolve b')) := by
  cases hb with
  | value hname =>
    simp only [Substitution.resolve_of_value hname]
    exact .inr ⟨hname, BEq.refl b⟩
  | anonymous hanon =>
    cases hname : b.name? with
    | none =>
      simp only [Substitution.resolve_of_value hname]
      exact .inr ⟨hname, BEq.refl b⟩
    | some n =>
      obtain ⟨hs, hfirst, hsecond, hrenamed⟩ := hmark hanon n hname
      -- no link leads to the mark or from it, so that both matches leave it unbound
      have hleft : ∀ k, ¬ J.Linked k n := by
        rintro k (⟨_, hn⟩ | ⟨_, hn, -⟩)
        · exact hsecond hn
        · exact hfirst hn
      have hright : ∀ k, ¬ J.Linked n k := by
        intro k hlinked
        generalize hm : n = m at hlinked
        cases hlinked with
        | second _ hy => exact hrenamed k hy hm.symm
        | first _ hz => exact hfirst (hm ▸ hz)
      have ht : t.get? n = none := by
        rw [← Option.not_isSome_iff_eq_none]
        intro hbound
        obtain ⟨k, hlinked⟩ := h.boundInChain n hbound
        exact hleft k hlinked
      have hθ : θ.get? n = none := by
        rw [← Option.not_isSome_iff_eq_none]
        intro hbound
        rcases h.bound n hbound with hn | ⟨k, hlinked⟩
        · exact hfirst hn
        · exact hright k hlinked
      rw [Substitution.resolve_of_unbound hname ht, Substitution.resolve_of_unbound hname hθ,
        Substitution.resolve_of_unbound hname hs]
      exact .inl ⟨n, n, hname, hname, .inr ⟨rfl, hleft, hright⟩, rfl⟩
  | given y hy hby hby' =>
    obtain ⟨hanon, hname⟩ := Argument.givenName?_eq_some_iff.mp hby
    obtain ⟨hanon', hname'⟩ := Argument.givenName?_eq_some_iff.mp hby'
    rcases h.resolve_second hk hy hname hname' with ⟨htb, hθb⟩ | ⟨hofFirst, hsame⟩
    · rw [htb, hθb, Substitution.resolve_of_unbound hname' (J.unsolved y hy)]
      exact .inl ⟨y, J.renamed y, hname, hname', .inl (.second y hy), hanon.trans hanon'.symm⟩
    · rw [hsame]
      cases hm : (J.solution.resolve (θ.resolve b')).name? with
      | none => exact .inr ⟨hm, BEq.refl _⟩
      | some m =>
        obtain ⟨-, hfirst, hfree, -⟩ := Juncture.name?_resolve_solution hofFirst hm
        exact .inl ⟨m, m, hm, hm, .inl (.first m hfirst hfree), rfl⟩

/-! ## Composing an output with an input -/

namespace Rule

/-- The names that a solution of the rule's inputs binds. -/
def boundNames (r : Rule) : List Text := r.inputFacts.flatMap Fact.boundNames

/-- The bindings made in composing two rules. -/
def composingBindings (first second : Rule) : Option Substitution :=
  matchOutputs first.outputs (second.renameApart first.namedVariables.keys).inputs .empty

/-- Composing binds no variable of the first rule's inputs to anything but itself. -/
def LeavesInputsFree (first second : Rule) : Prop :=
  ∀ θ, first.composingBindings second = some θ → ∀ n ∈ first.boundNames,
    ∀ c, θ.get? n = some c → c.name? = some n

/-- The names of two rules do not get in each other's way: what the first leaves free in its outputs
is no name of the second, and no variable has the name of a bare mark in use. -/
structure NamesApart (first second : Rule) : Prop where
  free : ∀ a ∈ Tag.argumentsOf first.outputs, ∀ n, a.givenName? = some n →
    n ∈ first.boundNames ∨ n ∉ second.namedVariables.keys
  marks : ∀ a, a ∈ Tag.argumentsOf first.outputs ∨ a ∈ Tag.argumentsOf second.inputs ∨
      a ∈ Tag.argumentsOf second.outputs →
    a.isAnonymous = true → ∀ n, a.name? = some n →
      n ∉ first.namedVariables.keys ∧ n ∉ second.namedVariables.keys

instance (first second : Rule) : Decidable (first.LeavesInputsFree second) :=
  inferInstanceAs (Decidable (∀ θ ∈ first.composingBindings second, ∀ n ∈ first.boundNames,
    ∀ c ∈ θ.get? n, c.name? = some n))

instance (first second : Rule) : Decidable (first.NamesApart second) :=
  decidable_of_iff
    ((∀ a ∈ Tag.argumentsOf first.outputs, ∀ n ∈ a.givenName?,
        n ∈ first.boundNames ∨ n ∉ second.namedVariables.keys) ∧
      ∀ a ∈ Tag.argumentsOf first.outputs ++
          (Tag.argumentsOf second.inputs ++ Tag.argumentsOf second.outputs),
        a.isAnonymous = true → ∀ n ∈ a.name?,
          n ∉ first.namedVariables.keys ∧ n ∉ second.namedVariables.keys)
    ⟨fun h => ⟨h.1, fun a ha => h.2 a (by simpa using ha)⟩,
      fun h => ⟨h.free, fun a ha => h.marks a (by simpa using ha)⟩⟩

theorem boundNames_subset (r : Rule) : r.boundNames ⊆ r.namedVariables.keys := by
  intro n hn
  obtain ⟨f, hf, hn⟩ := List.mem_flatMap.mp hn
  obtain ⟨b, hb, hbn⟩ := List.mem_filterMap.mp hn
  obtain ⟨t, ht, htf⟩ := List.mem_filterMap.mp hf
  cases t <;> cases htf
  refine r.mem_namedVariables (.inl (Tag.mem_argumentsOf ht ?_)) hbn
  exact List.takeWhile_subset _ hb

variable {first second : Rule} {o q : Fact}

/-- Composing rules that meet in one fact matches the two facts, the second renamed apart. -/
theorem compose_single (ho : first.outputs = [.fact o]) (hq : second.inputs = [.fact q])
    (hcompose : (compose first second).isEmpty = false) :
    ∃ θ, first.composingBindings second = some θ ∧
      matchFacts o (q.substitute (second.renamingApart first.namedVariables.keys)) .empty
        = some θ ∧
      compose first second = ⟨first.inputs, Tag.substituteAll θ (Tag.substituteAll
        (second.renamingApart first.namedVariables.keys) second.outputs)⟩ := by
  have hmatch : first.composingBindings second =
      matchFacts o (q.substitute (second.renamingApart first.namedVariables.keys)) .empty := by
    rw [composingBindings, renameApart, Rule.substitute, ho, hq]
    simp [matchOutputs, matchOutput, Tag.substituteAll, Tag.substitute, matchTags]
  rw [compose] at hcompose ⊢
  split at hcompose
  · cases hcompose
  · rw [if_neg ‹_›]
    rw [composeApart] at hcompose ⊢
    cases hbindings : first.composingBindings second with
    | none =>
      rw [composingBindings] at hbindings
      rw [hbindings] at hcompose
      cases hcompose
    | some θ =>
      refine ⟨θ, rfl, hmatch ▸ hbindings, ?_⟩
      rw [composingBindings] at hbindings
      rw [hbindings]
      rfl

theorem inputFacts_compose (ho : first.outputs = [.fact o]) (hq : second.inputs = [.fact q])
    (hcompose : (compose first second).isEmpty = false) :
    (compose first second).inputFacts = first.inputFacts := by
  obtain ⟨θ, -, -, hcomposed⟩ := compose_single ho hq hcompose
  rw [hcomposed]
  rfl

/-- The juncture of two rules at an output of the first, under a solution of its inputs. -/
def juncture (ho : first.outputs = [.fact o]) (hapart : first.NamesApart second)
    (s : Substitution) (hplain : s.Plain)
    (hs : ∀ n, (s.get? n).isSome = true ↔ n ∈ first.boundNames) : Juncture where
  solution := s
  renamed := (second.renamingApart first.namedVariables.keys).renamed
  first n := ∃ a ∈ o.arguments, a.givenName? = some n
  second n := n ∈ second.namedVariables.keys
  plain := hplain
  injective _ _ hj hk := renamed_injOn hj hk
  apart y hy := by
    rintro ⟨a, ha, han⟩
    refine renamed_not_mem_taken hy (first.mem_namedVariables (.inr ?_) han)
    rw [ho]
    exact List.mem_append_left _ ha
  unsolved y hy := by
    cases hsy : s.get? ((second.renamingApart first.namedVariables.keys).renamed y) with
    | none => rfl
    | some v =>
      have hbound := (hs _).mp (by rw [hsy]; rfl)
      exact absurd (first.boundNames_subset hbound) (renamed_not_mem_taken hy)
  free := by
    rintro z ⟨a, ha, haz⟩ hfree hsecond
    rcases hapart.free a (by rw [ho]; exact List.mem_append_left _ ha) z haz with hbound | hno
    · rw [← hs, hfree] at hbound
      cases hbound
    · exact hno hsecond

theorem arguments_asserted (o : Fact) {s : Substitution} (hplain : s.Plain) :
    (o.substitute s).arguments = o.arguments.map s.resolve := by
  refine Fact.arguments_substitute fun a _ hsame => ?_
  cases hname : a.name? with
  | none => exact Substitution.resolve_of_value hname
  | some n =>
    cases hn : s.get? n with
    | none => exact Substitution.resolve_of_unbound hname hn
    | some v =>
      have hv := Argument.name?_of_isPlain (hplain n v hn)
      rw [Substitution.resolve_of_bound hname hn, Substitution.resolve_of_value hv] at hsame
      rw [Argument.name?_congr hsame, hname] at hv
      cases hv

theorem arguments_renamed (q : Fact) (taken : List Text) :
    (q.substitute (second.renamingApart taken)).arguments
      = q.arguments.map (second.renamingApart taken).resolve :=
  Fact.arguments_substitute fun _ _ => resolve_renamingApart_eq_of_beq

/-- The asserted output passes what is compared before the arguments if composing does. -/
theorem comparisons_iff (o q : Fact) (taken : List Text) {s : Substitution} (hplain : s.Plain) :
    (o.substitute s).predicate = q.predicate ∧
        (∀ b ∈ q.arguments.drop (o.substitute s).arity, b.isWildcard = true) ↔
      o.predicate = (q.substitute (second.renamingApart taken)).predicate ∧
        ∀ b ∈ (q.substitute (second.renamingApart taken)).arguments.drop o.arity,
          b.isWildcard = true := by
  have harity : (o.substitute s).arity = o.arity := by
    rw [Fact.arity, arguments_asserted o hplain, List.length_map]
    rfl
  rw [harity, Fact.predicate_substitute, Fact.predicate_substitute, arguments_renamed,
    ← List.map_drop, List.forall_mem_map]
  simp only [isWildcard_resolve_renamingApart]

section Juncture

variable {ho : first.outputs = [.fact o]} {hapart : first.NamesApart second} {s : Substitution}
  {hplain : s.Plain} {hs : ∀ n, (s.get? n).isSome = true ↔ n ∈ first.boundNames}
  {θ t : Substitution}

theorem isOutput {a : Argument} (ha : a ∈ o.arguments) :
    (juncture ho hapart s hplain hs).IsOutput a := by
  have houtput : a ∈ Tag.argumentsOf first.outputs := by
    rw [ho]
    exact List.mem_append_left _ ha
  cases hanon : a.isAnonymous with
  | false =>
    refine .inr ⟨hanon, fun n hn => ?_⟩
    exact ⟨a, ha, Argument.givenName?_eq_some_iff.mpr ⟨hanon, hn⟩⟩
  | true =>
    refine .inl ⟨hanon, ?_⟩
    show s.resolve a = a
    cases hname : a.name? with
    | none => exact Substitution.resolve_of_value hname
    | some n =>
      refine Substitution.resolve_of_unbound hname ?_
      cases hsn : s.get? n with
      | none => rfl
      | some v =>
        have hbound := (hs n).mp (by rw [hsn]; rfl)
        exact absurd (first.boundNames_subset hbound)
          (hapart.marks a (.inl houtput) hanon n hname).1

theorem renames {b : Argument}
    (hb : b ∈ Tag.argumentsOf second.inputs ∨ b ∈ Tag.argumentsOf second.outputs) :
    (juncture ho hapart s hplain hs).Renames b
      ((second.renamingApart first.namedVariables.keys).resolve b) := by
  cases hanon : b.isAnonymous with
  | true =>
    have hsame : (second.renamingApart first.namedVariables.keys).resolve b = b := by
      cases hname : b.name? with
      | none => exact Substitution.resolve_of_value hname
      | some n =>
        exact resolve_renamingApart_of_not_mem hname (hapart.marks b (.inr hb) hanon n hname).2
    rw [hsame]
    exact .anonymous hanon
  | false =>
    cases hname : b.name? with
    | none =>
      rw [Substitution.resolve_of_value hname]
      exact .value hname
    | some y =>
      have hgiven := Argument.givenName?_eq_some_iff.mpr ⟨hanon, hname⟩
      exact .given y (second.mem_namedVariables hb hgiven) hgiven (resolve_renamingApart hgiven)

theorem keeps_iff (hθ : first.composingBindings second = some θ) :
    (juncture ho hapart s hplain hs).Keeps θ ↔ first.LeavesInputsFree second := by
  constructor
  · intro hk θ' hθ' n hn c hc
    rw [hθ] at hθ'
    cases hθ'
    exact hk n c ((hs n).mpr hn) hc
  · intro hfree n c hn hc
    exact hfree θ hθ n ((hs n).mp hn) c hc

theorem putInAlike (h : (juncture ho hapart s hplain hs).Lock θ t)
    (hk : (juncture ho hapart s hplain hs).Keeps θ) {b : Argument}
    (hb : b ∈ Tag.argumentsOf second.outputs) :
    b.PutInAlike (juncture ho hapart s hplain hs).Related
      (second.renamingApart first.namedVariables.keys) θ s t := by
  refine h.renamedBy hk (renames (.inr hb)) fun hanon n hn => ?_
  obtain ⟨hfirst, hsecond⟩ := hapart.marks b (.inr (.inr hb)) hanon n hn
  refine ⟨?_, ?_, hsecond, fun y hy hyn => ?_⟩
  · show s.get? n = none
    rw [← Option.not_isSome_iff_eq_none, hs]
    exact fun hbound => hfirst (first.boundNames_subset hbound)
  · rintro ⟨a, ha, han⟩
    refine hfirst (first.mem_namedVariables (.inr ?_) han)
    rw [ho]
    exact List.mem_append_left _ ha
  · rcases renamed_eq_or_ne_mark second first.namedVariables.keys y with hsame | hmark
    · have hny : n = y := hyn.symm.trans hsame
      exact hsecond (hny ▸ hy)
    · obtain ⟨binder, hbinder⟩ := Argument.name?_of_isAnonymous hanon
      rw [hn] at hbinder
      exact hmark binder (hyn.trans (Option.some.inj hbinder))

theorem renames_arguments (hq : second.inputs = [.fact q]) :
    List.Forall₂ (juncture ho hapart s hplain hs).Renames q.arguments
      (q.substitute (second.renamingApart first.namedVariables.keys)).arguments := by
  rw [arguments_renamed, List.forall₂_map_right_iff, List.forall₂_same]
  intro b hb
  refine renames (.inl ?_)
  rw [hq]
  exact List.mem_append_left _ hb

/-- If composing leaves free what the solution binds, the asserted output matches, with bindings
that correspond. -/
theorem exists_matchFacts_asserted (hq : second.inputs = [.fact q])
    (hk : (juncture ho hapart s hplain hs).Keeps θ)
    (hm : matchFacts o (q.substitute (second.renamingApart first.namedVariables.keys)) .empty
      = some θ) :
    ∃ t, matchFacts (o.substitute s) q .empty = some t ∧
      (juncture ho hapart s hplain hs).Lock θ t := by
  obtain ⟨hpred, hextra, hm⟩ := matchFacts_eq_some_iff.mp hm
  obtain ⟨t, ht, hlock⟩ := Juncture.lock_empty.matchArguments Substitution.layered_empty
    Juncture.keeps_empty (fun a ha => isOutput ha) (renames_arguments hq) hm hk
  obtain ⟨hpred', hextra'⟩ := (comparisons_iff o q _ hplain).mpr ⟨hpred, hextra⟩
  refine ⟨t, matchFacts_eq_some_iff.mpr ⟨hpred', hextra', ?_⟩, hlock⟩
  rw [arguments_asserted o hplain]
  exact ht

/-- Under a generic solution, the asserted output does not match if composing binds what the
solution binds. -/
theorem matchFacts_asserted_eq_none (hq : second.inputs = [.fact q])
    (hgeneric : (juncture ho hapart s hplain hs).Generic)
    (hforeign : ∀ c, c ∈ o.arguments ∨ c ∈ q.arguments → ∀ n v, s.get? n = some v →
      (v == c) = false)
    (hk : ¬ (juncture ho hapart s hplain hs).Keeps θ)
    (hm : matchFacts o (q.substitute (second.renamingApart first.namedVariables.keys)) .empty
      = some θ) :
    matchFacts (o.substitute s) q .empty = none := by
  obtain ⟨-, -, hm⟩ := matchFacts_eq_some_iff.mp hm
  have hforeign' : ∀ c, c ∈ o.arguments ∨
      c ∈ (q.substitute (second.renamingApart first.namedVariables.keys)).arguments →
      ∀ n v, s.get? n = some v → (v == c) = false := by
    rintro c (hc | hc) n v hn
    · exact hforeign c (.inl hc) n v hn
    · rw [arguments_renamed] at hc
      obtain ⟨b, hb, rfl⟩ := List.mem_map.mp hc
      cases hname : b.name? with
      | none =>
        rw [Substitution.resolve_of_value hname]
        exact hforeign b (.inr hb) n v hn
      | some m =>
        rw [Bool.eq_false_iff]
        intro hsame
        have hvariable := isVariable_resolve_renamingApart second first.namedVariables.keys hname
        rw [Argument.isVariable, ← Argument.name?_congr hsame,
          Argument.name?_of_isPlain (hplain n v hn)] at hvariable
        cases hvariable
  have hnone := Juncture.lock_empty.matchArguments_eq_none hgeneric Juncture.keeps_empty
    (fun a ha => isOutput ha) (renames_arguments hq) (fun _ _ h => by cases h) hforeign' hm hk
  cases hm' : matchFacts (o.substitute s) q .empty with
  | none => rfl
  | some t =>
    obtain ⟨-, -, ht⟩ := matchFacts_eq_some_iff.mp hm'
    rw [arguments_asserted o hplain] at ht
    exact absurd (hnone.symm.trans ht) (by simp)

end Juncture

/-! ## Composed rules and chains -/

/-- Over some known facts, the first rule fires with `s`, and with its output facts known as well
the second fires and puts out what the composed rule does, up to names of variables. -/
def ChainDerives (first second : Rule) (facts : List Fact) (s : Substitution) : Prop :=
  s ∈ solutions facts first.inputFacts .empty ∧
    ∃ t ∈ solutions (facts ++ (first.substitute s).outputFacts) second.inputFacts .empty,
      ∃ R, Relator.BiUnique R ∧ Tag.AllRenamedBy R (Tag.substituteAll t second.outputs)
        (Tag.substituteAll s (compose first second).outputs)

/-- In a chain the second rule's input matches a known fact or the asserted output. -/
theorem mem_solutions_chain_iff (ho : first.outputs = [.fact o]) (hq : second.inputs = [.fact q])
    {facts : List Fact} {s t : Substitution} :
    t ∈ solutions (facts ++ (first.substitute s).outputFacts) second.inputFacts .empty ↔
      (∃ f ∈ facts, matchFacts f q .empty = some t) ∨
        matchFacts (o.substitute s) q .empty = some t := by
  have hinput : second.inputFacts = [q] := by
    rw [inputFacts, hq]
    rfl
  have hasserted : (first.substitute s).outputFacts = [o.substitute s] := by
    rw [outputFacts, Rule.substitute, ho]
    simp [Tag.substituteAll, Tag.substitute, Tag.asFact?]
  rw [hinput, hasserted, mem_solutions_cons_iff]
  simp [solutions, or_and_right, exists_or]

/-- If composing leaves the inputs of the first rule free, the chain derives whatever the composed
rule does. -/
theorem chainDerives_of_leavesInputsFree (ho : first.outputs = [.fact o])
    (hq : second.inputs = [.fact q]) (hcompose : (compose first second).isEmpty = false)
    (hapart : first.NamesApart second) (hfree : first.LeavesInputsFree second)
    {facts : List Fact} (hfacts : ∀ f ∈ facts, f.isPlain = true) {s : Substitution}
    (hs : s ∈ solutions facts first.inputFacts .empty) : first.ChainDerives second facts s := by
  obtain ⟨θ, hθ, hm, hcomposed⟩ := compose_single ho hq hcompose
  obtain ⟨hplain, hnames⟩ := solutions_boundNames Argument.isGround_of_isPlain
    (fun f hf => List.all_eq_true.mp (hfacts f hf)) hs
  have hk : (juncture ho hapart s hplain hnames).Keeps θ := (keeps_iff hθ).mpr hfree
  obtain ⟨t, ht, hlock⟩ := exists_matchFacts_asserted hq hk hm
  refine ⟨hs, t, (mem_solutions_chain_iff ho hq).mpr (.inr ht), _,
    Juncture.biUnique_related (juncture ho hapart s hplain hnames), ?_⟩
  rw [hcomposed]
  exact Tag.allRenamedBy_substitute second.outputs fun b hb => putInAlike hlock hk hb

end Rule

/-- The solution has different literals for the variables, none of which two facts hold. -/
structure Substitution.GenericFor (s : Substitution) (o q : Fact) : Prop where
  literal : ∀ n v, s.get? n = some v → ∃ text, v.term = .literal text
  distinct : ∀ m n v w, s.get? m = some v → s.get? n = some w → (v == w) = true → m = n
  foreign : ∀ c, c ∈ o.arguments ∨ c ∈ q.arguments → ∀ n v, s.get? n = some v → (v == c) = false

/-- Where only the asserted output can match, a chain from a generic solution derives something only
if composing leaves the inputs of the first rule free. -/
theorem Rule.leavesInputsFree_of_chainDerives {first second : Rule} {o q : Fact}
    (ho : first.outputs = [.fact o]) (hq : second.inputs = [.fact q])
    (hcompose : (compose first second).isEmpty = false) (hapart : first.NamesApart second)
    (hbound : ∀ a ∈ o.arguments, ∀ n, a.givenName? = some n → n ∈ first.boundNames)
    {facts : List Fact} (hfacts : ∀ f ∈ facts, f.isPlain = true)
    (hfits : ∀ f ∈ facts, f.fits q = false) {s : Substitution} (hgeneric : s.GenericFor o q)
    (hchain : first.ChainDerives second facts s) : first.LeavesInputsFree second := by
  obtain ⟨θ, hθ, hm, -⟩ := compose_single ho hq hcompose
  obtain ⟨hs, t, ht, -⟩ := hchain
  obtain ⟨hplain, hnames⟩ := solutions_boundNames Argument.isGround_of_isPlain
    (fun f hf => List.all_eq_true.mp (hfacts f hf)) hs
  by_contra hnot
  have hk : ¬ (juncture ho hapart s hplain hnames).Keeps θ :=
    fun hk => hnot ((keeps_iff hθ).mp hk)
  have hjuncture : (juncture ho hapart s hplain hnames).Generic :=
    ⟨fun n ⟨a, ha, han⟩ => (hnames n).mpr (hbound a ha n han), hgeneric.literal,
      hgeneric.distinct⟩
  have hnone := matchFacts_asserted_eq_none hq hjuncture hgeneric.foreign hk hm
  -- neither a known fact nor the asserted one matches the input
  rcases (mem_solutions_chain_iff ho hq).mp ht with ⟨f, hf, hft⟩ | hot
  · have hfit := hfits f hf
    rw [Fact.fits, hft] at hfit
    cases hfit
  · rw [hnone] at hot
    cases hot

/-- Composing rules that meet in one fact, with names apart. If it leaves the first rule's inputs
free, the chain derives whatever the composed rule does, from any plain facts. If the first rule's
output has no variables but those of its inputs, that is needed as well: where only the asserted
output can match, a chain from a generic solution derives it just when the inputs are left free. -/
theorem compose_chainDerives {first second : Rule} {o q : Fact} (ho : first.outputs = [.fact o])
    (hq : second.inputs = [.fact q]) (hcompose : (compose first second).isEmpty = false)
    (hapart : first.NamesApart second) :
    (first.LeavesInputsFree second → ∀ facts : List Fact, (∀ f ∈ facts, f.isPlain = true) →
      ∀ s ∈ solutions facts (compose first second).inputFacts .empty,
        first.ChainDerives second facts s) ∧
    ((∀ a ∈ o.arguments, ∀ n, a.givenName? = some n → n ∈ first.boundNames) →
      ∀ facts : List Fact, (∀ f ∈ facts, f.isPlain = true) → (∀ f ∈ facts, f.fits q = false) →
        ∀ s ∈ solutions facts (compose first second).inputFacts .empty, s.GenericFor o q →
          (first.ChainDerives second facts s ↔ first.LeavesInputsFree second)) := by
  rw [Rule.inputFacts_compose ho hq hcompose]
  have hsound := fun (hfree : first.LeavesInputsFree second) (facts : List Fact)
      (hfacts : ∀ f ∈ facts, f.isPlain = true) s
      (hs : s ∈ solutions facts first.inputFacts .empty) =>
    Rule.chainDerives_of_leavesInputsFree ho hq hcompose hapart hfree hfacts hs
  refine ⟨hsound, fun hbound facts hfacts hfits s hs hgeneric => ⟨?_, ?_⟩⟩
  · exact Rule.leavesInputsFree_of_chainDerives ho hq hcompose hapart hbound hfacts hfits hgeneric
  · exact fun hfree => hsound hfree facts hfacts s hs

/-- A variable of the input is bound, and the second rule has a variable of the same name. -/
theorem compose_chainDerives_shared_name :
    let x := Argument.named ['x'] .single []
    let y := Argument.named ['y'] .single []
    let first : Rule := ⟨[.fact ⟨['D'], [x], .certain⟩],
      [.fact ⟨['A'], [x, .literal ['b']], .certain⟩]⟩
    let second : Rule := ⟨[.fact ⟨['A'], [y, x], .certain⟩],
      [.fact ⟨['P'], [x, y, .named ['k'] .multi []], .certain⟩]⟩
    let facts : List Fact := [⟨['D'], [.literal ['r']], .certain⟩]
    let s : Substitution := .put .empty ['x'] (.literal ['r'])
    first.LeavesInputsFree second ∧ first.ChainDerives second facts s ∧
      (first.ChainDerives second facts s ↔ first.LeavesInputsFree second) := by
  intro x y first second facts s
  have ho : first.outputs = [.fact ⟨['A'], [x, .literal ['b']], .certain⟩] := rfl
  have hq : second.inputs = [.fact ⟨['A'], [y, x], .certain⟩] := rfl
  have hfree : first.LeavesInputsFree second := by decide +kernel
  have hcompose : (compose first second).isEmpty = false := by decide +kernel
  have hs : s ∈ solutions facts (compose first second).inputFacts .empty := by
    rw [Rule.inputFacts_compose ho hq hcompose]
    exact List.mem_singleton_self s
  have hvalue : ∀ n v, s.get? n = some v → n = ['x'] ∧ v = .literal ['r'] := by
    intro n v hn
    rw [Keyed.get?_put] at hn
    split at hn
    next hnx => exact ⟨hnx, (Option.some.inj hn).symm⟩
    next => cases hn
  obtain ⟨hsound, hexact⟩ := compose_chainDerives ho hq hcompose (by decide +kernel)
  refine ⟨hfree, hsound hfree facts (by decide) s hs,
    hexact (by decide +kernel) facts (by decide) (by decide +kernel) s hs ⟨?_, ?_, ?_⟩⟩
  · rintro n v hn
    exact ⟨['r'], (hvalue n v hn).2 ▸ rfl⟩
  · rintro m n v w hm hn -
    rw [(hvalue m v hm).1, (hvalue n w hn).1]
  · rintro c hc n v hn
    have hnone : ∀ c ∈ [x, .literal ['b']] ++ [y, x], (Argument.literal ['r'] == c) = false := by
      decide
    rw [(hvalue n v hn).2]
    exact hnone c (List.mem_append.mpr hc)

/-- A variable that the first rule leaves unbound keeps its name next to the second rule's own: the
chain takes the two for one, the composed rule does not. -/
theorem not_chainDerives_shared_free_name :
    let x := Argument.named ['x'] .single []
    let y := Argument.named ['y'] .single []
    let z := Argument.named ['z'] .single []
    let first : Rule := ⟨[.fact ⟨['P'], [x], .certain⟩], [.fact ⟨['Q'], [x, z], .certain⟩]⟩
    let second : Rule := ⟨[.fact ⟨['Q'], [z, y], .certain⟩], [.fact ⟨['R'], [z, y], .certain⟩]⟩
    let facts : List Fact := [⟨['P'], [.literal ['r']], .certain⟩]
    let s : Substitution := .put .empty ['x'] (.literal ['r'])
    first.LeavesInputsFree second ∧ s ∈ solutions facts (compose first second).inputFacts .empty ∧
      ¬ first.ChainDerives second facts s := by
  intro x y z first second facts s
  have hcompose : (compose first second).isEmpty = false := by decide +kernel
  have ho : first.outputs = [.fact ⟨['Q'], [x, z], .certain⟩] := rfl
  refine ⟨by decide +kernel, ?_, ?_⟩
  · rw [Rule.inputFacts_compose ho rfl hcompose]
    exact List.mem_singleton_self s
  rintro ⟨-, t, ht, R, -, hrenamed⟩
  have hsolved : solutions (facts ++ (first.substitute s).outputFacts) second.inputFacts .empty
      = [.put (.put .empty ['z'] (.literal ['r'])) ['y'] (.literal ['r'])] := rfl
  rw [hsolved, List.mem_singleton] at ht
  have hplaces := hrenamed.isVariable_eq
  rw [ht] at hplaces
  have hchain : (Tag.argumentsOf (Tag.substituteAll
      (.put (.put .empty ['z'] (.literal ['r'])) ['y'] (.literal ['r'])) second.outputs)).map
        Argument.isVariable = [false, false] := by decide +kernel
  have hcomposed : (Tag.argumentsOf (Tag.substituteAll s (compose first second).outputs)).map
      Argument.isVariable = [false, true] := by decide +kernel
  rw [hchain, hcomposed] at hplaces
  cases hplaces

/-- A variable with the name of a bare mark in use: the chain takes the mark for it, the composed
rule does not. -/
theorem not_chainDerives_bare_mark_name :
    let first : Rule := ⟨[.fact ⟨['P'], [.named ['?'] .multi []], .certain⟩],
      [.fact ⟨['Q'], [.named ['?'] .single []], .certain⟩]⟩
    let second : Rule := ⟨[.fact ⟨['Q'], [.literal ['f']], .certain⟩],
      [.recommendation ⟨['@', 'c'], rfl⟩]⟩
    let facts : List Fact := [⟨['P'], [.literal ['r']], .certain⟩]
    let s : Substitution := .put .empty ['?'] (.literal ['r'])
    first.LeavesInputsFree second ∧ s ∈ solutions facts (compose first second).inputFacts .empty ∧
      ¬ first.ChainDerives second facts s := by
  intro first second facts s
  have hcompose : (compose first second).isEmpty = false := by decide +kernel
  have ho : first.outputs = [.fact ⟨['Q'], [.named ['?'] .single []], .certain⟩] := rfl
  refine ⟨by decide +kernel, ?_, ?_⟩
  · rw [Rule.inputFacts_compose ho rfl hcompose]
    exact List.mem_singleton_self s
  rintro ⟨-, t, ht, -⟩
  have hnone : solutions (facts ++ (first.substitute s).outputFacts) second.inputFacts .empty
      = [] := rfl
  rw [hnone] at ht
  cases ht

/-- The input of the second rule is a fact about `fido`. Composing binds the variable of the first
rule to it and forgets so in the inputs, and then derives from a fact about `rex` what the chain
does not. -/
theorem compose_not_chainDerives_literal :
    let x := Argument.named ['x'] .single []
    let first : Rule := ⟨[.fact ⟨['D', 'o', 'g'], [x], .certain⟩],
      [.fact ⟨['A', 'n', 'i', 'm', 'a', 'l'], [x], .certain⟩]⟩
    let second : Rule := ⟨[.fact ⟨['A', 'n', 'i', 'm', 'a', 'l'],
      [.literal ['f', 'i', 'd', 'o']], .certain⟩],
      [.recommendation ⟨['@', 'f', 'e', 't', 'c', 'h'], rfl⟩]⟩
    let facts : List Fact := [⟨['D', 'o', 'g'], [.literal ['r', 'e', 'x']], .certain⟩]
    let s : Substitution := .put .empty ['x'] (.literal ['r', 'e', 'x'])
    (compose first second).isEmpty = false ∧ (∀ f ∈ facts, f.isPlain = true) ∧
      s ∈ solutions facts (compose first second).inputFacts .empty ∧
      ¬ first.ChainDerives second facts s := by
  intro x first second facts s
  have hcompose : (compose first second).isEmpty = false := by decide +kernel
  refine ⟨hcompose, by decide, ?_, ?_⟩
  · have ho : first.outputs = [.fact ⟨['A', 'n', 'i', 'm', 'a', 'l'], [x], .certain⟩] := rfl
    rw [Rule.inputFacts_compose ho rfl hcompose]
    exact List.mem_singleton_self s
  rintro ⟨-, t, ht, -⟩
  have hnone : solutions (facts ++ (first.substitute s).outputFacts) second.inputFacts .empty
      = [] := rfl
  rw [hnone] at ht
  cases ht

end TagReasoner
