import TagReasoner.Proofs.Matching.Refinement
import TagReasoner.Proofs.Matching.VariableNames

/-!
# Known fact and pattern change places

Which of two variables is bound to the other depends on the side that each stands on, so a match and
the match with its sides swapped leave different bindings. They agree on something coarser: which
arguments come to one variable, and what value an argument comes to. Substitutions that agree on
this are *alike* (`Substitution.Alike`), whatever their bindings.

Making a variable and another argument agree leads all that came to the variable to where the other
comes, and changes nothing else (`Substitution.LedTo`). Which of two variables is led to which
leaves alike substitutions. So a step from alike substitutions, made in one of them with its
arguments swapped, leads to alike substitutions or is refused in both (`Alike.unifyArguments_swap`),
and a run along the arguments does the same. Apart from that only lengths tell the known fact from the
pattern: facts of one arity fit each other in both directions or in neither (`Fact.fits_comm`).
-/

namespace TagReasoner

namespace Substitution

variable {θ θ' θ₁ θ₁' : Substitution} {a b : Argument} {n : Text}

/-! ## Where arguments come to -/

/-- The name of the variable that an argument comes to; a value has none. -/
def root? (θ : Substitution) (a : Argument) : Option Text := (θ.resolve a).name?

/-- The walk from a name that is bound to itself ends at once. -/
theorem resolve_of_selfBound (ha : a.name? = some n) (hn : θ.get? n = some b)
    (hb : b.name? = some n) : θ.resolve a = b := by
  rw [resolve_of_bound ha hn]
  exact resolve_of_unbound hb (Keyed.get?_erase_self θ n)

theorem Layered.resolve_resolve (h : θ.Layered) (a : Argument) :
    θ.resolve (θ.resolve a) = θ.resolve a :=
  (h.refines_self a).symm

/-- What came to a root that is bound comes to where that is bound to, and all else stays. -/
theorem Layered.resolve_put_resolve (h : θ.Layered) (hb : θ.root? b = some n) (a c : Argument) :
    resolve (θ.put n (θ.resolve a)) c = θ.resolve (if θ.root? c = θ.root? b then a else c) := by
  have hroot := h.isRoot_resolve a
  have hother : ∀ d, θ.root? d ≠ some n →
      resolve (θ.put n (θ.resolve a)) (θ.resolve d) = θ.resolve d := by
    intro d hd
    cases hname : (θ.resolve d).name? with
    | none => exact resolve_of_value hname
    | some m =>
      have hmn : m ≠ n := by
        rintro rfl
        exact hd hname
      have hget : (θ.put n (θ.resolve a)).get? m = θ.get? m := Keyed.get?_put_ne θ hmn _
      cases hm : θ.get? m with
      | none => exact resolve_of_unbound hname (hget.trans hm)
      | some e =>
        -- a root with a binding is bound to its own name, before and after
        have he : e.name? = some m := h.isRoot_resolve d m hname e hm
        calc resolve (θ.put n (θ.resolve a)) (θ.resolve d)
          _ = e := resolve_of_selfBound hname (hget.trans hm) he
          _ = θ.resolve (θ.resolve d) := (resolve_of_selfBound hname hm he).symm
          _ = θ.resolve d := h.resolve_resolve d
  have htarget : resolve (θ.put n (θ.resolve a)) (θ.resolve a) = θ.resolve a := by
    by_cases ha : θ.root? a = some n
    · exact resolve_of_selfBound ha (Keyed.get?_put_self ..) ha
    · exact hother a ha
  rw [h.refines_put hb hroot c, hb]
  split
  next hc => rw [(h.put hroot).resolve_bound hc (Keyed.get?_put_self ..), htarget]
  next hc => exact hother c hc

/-! ## Leading a variable to an argument -/

/-- The second substitution leads all that comes to where `b` does to where `a` comes in the first,
and keeps the rest. Of the variables only the names count. -/
structure LedTo (θ θ₁ : Substitution) (b a : Argument) : Prop where
  layered : θ₁.Layered
  root : ∀ c, θ₁.root? c = θ.root? (if θ.root? c = θ.root? b then a else c)
  value : ∀ c, θ₁.root? c = none →
    θ₁.resolve c = θ.resolve (if θ.root? c = θ.root? b then a else c)

theorem Layered.ledTo_put (h : θ.Layered) (hb : θ.root? b = some n) (a : Argument) :
    LedTo θ (θ.put n (θ.resolve a)) b a where
  layered := h.put (h.isRoot_resolve a)
  root c := congrArg Argument.name? (h.resolve_put_resolve hb a c)
  value c _ := h.resolve_put_resolve hb a c

/-- Nothing has to be done where both come to one variable already. -/
theorem Layered.ledTo_self (h : θ.Layered) (hb : θ.root? b = some n)
    (hab : θ.root? a = θ.root? b) : LedTo θ θ b a where
  layered := h
  root c := by
    split
    next hc => rw [hc, hab]
    next => rfl
  value c hc := by
    rw [if_neg]
    rw [hc, hb]
    exact Option.some_ne_none n |>.symm

/-- Making an argument agree with a variable leads the variable to it. -/
theorem Layered.ledTo_unifyArguments (h : θ.Layered)
    (hanon : (a.isAnonymous || b.isAnonymous) = false) (hb : θ.root? b = some n) :
    ∃ θ₁, TagReasoner.unifyArguments a b θ = some θ₁ ∧ LedTo θ θ₁ b a := by
  have hspec := unifyArguments_spec a b θ
  generalize TagReasoner.unifyArguments a b θ = result at hspec ⊢
  cases hspec with
  | anonymous hanon' =>
    rw [hanon] at hanon'
    cases hanon'
  | same _ hsame => exact ⟨θ, rfl, h.ledTo_self hb (Argument.name?_congr hsame)⟩
  | bindSecond m _ _ hm => exact ⟨_, rfl, h.ledTo_put hm a⟩
  | bindFirst _ _ _ hb' | compatible _ _ hb' | clash _ _ hb' =>
    rw [root?, hb'] at hb
    cases hb

/-! ## Alike substitutions -/

/-- Both substitutions bring together the same arguments and give them the same values. Which of the
variables that they bring together is bound to which does not count. -/
structure Alike (θ θ' : Substitution) : Prop where
  layered : θ.Layered
  layered' : θ'.Layered
  joined : ∀ c d, θ.root? c = θ.root? d ↔ θ'.root? c = θ'.root? d
  value : ∀ c, θ.root? c = none → (θ.resolve c == θ'.resolve c) = true

namespace Alike

theorem empty : Alike .empty .empty :=
  ⟨layered_empty, layered_empty, fun _ _ => Iff.rfl, fun _ _ => BEq.refl _⟩

/-- An argument comes to a value in both or in neither. -/
theorem root?_eq_none_iff (h : θ.Alike θ') (c : Argument) :
    θ.root? c = none ↔ θ'.root? c = none := by
  have hliteral : ∀ σ : Substitution, σ.root? (.literal []) = none := fun σ => by
    rw [root?, resolve_of_value rfl]
    rfl
  have hjoined := h.joined c (.literal [])
  rwa [hliteral, hliteral] at hjoined

theorem exists_root? (h : θ.Alike θ') (hb : θ.root? b = some n) : ∃ m, θ'.root? b = some m := by
  refine Option.ne_none_iff_exists'.mp fun hnone => ?_
  rw [(h.root?_eq_none_iff b).mpr hnone] at hb
  cases hb

/-- Leading an argument the same way in both. -/
theorem led (h : θ.Alike θ') (hled : LedTo θ θ₁ b a) (hled' : LedTo θ' θ₁' b a) :
    θ₁.Alike θ₁' := by
  have hsame : ∀ c, (if θ'.root? c = θ'.root? b then a else c) =
      if θ.root? c = θ.root? b then a else c :=
    fun c => if_congr (h.joined c b).symm rfl rfl
  refine ⟨hled.layered, hled'.layered, fun c d => ?_, fun c hc => ?_⟩
  · rw [hled.root, hled.root, hled'.root, hled'.root, hsame, hsame]
    exact h.joined _ _
  · have hvalue := hled.value c hc
    rw [hled.root] at hc
    have hc' := (h.root?_eq_none_iff _).mp hc
    rw [← hsame, ← hled'.root] at hc'
    rw [hvalue, hled'.value c hc', hsame]
    exact h.value _ hc

/-- Of two variables, leading the one in one substitution and the other in the other. -/
theorem led_swap (h : θ.Alike θ') (ha : θ.root? a = some n) (hled : LedTo θ θ₁ b a)
    (hled' : LedTo θ' θ₁' a b) : θ₁.Alike θ₁' := by
  refine ⟨hled.layered, hled'.layered, fun c d => ?_, fun c hc => ?_⟩
  · have hcd := h.joined c d
    have hab := h.joined a b
    have hac := h.joined c a
    have hbc := h.joined c b
    have had := h.joined d a
    have hbd := h.joined d b
    rw [hled.root, hled.root, hled'.root, hled'.root]
    grind
  · -- a value has come to neither of the two
    have hmiss : ¬ θ.root? c = θ.root? b := by
      intro hcb
      rw [hled.root, if_pos hcb, ha] at hc
      cases hc
    have hvalue := hled.value c hc
    rw [hled.root, if_neg hmiss] at hc
    have hmiss' : ¬ θ'.root? c = θ'.root? a := by
      rw [← h.joined c a, hc, ha]
      exact nofun
    have hc' : θ₁'.root? c = none := by
      rw [hled'.root, if_neg hmiss']
      exact (h.root?_eq_none_iff c).mp hc
    rw [hvalue, hled'.value c hc', if_neg hmiss, if_neg hmiss']
    exact h.value c hc

end Alike

end Substitution

/-! ## Steps with the sides swapped -/

/-- Where one argument comes to a value, a step does not depend on which side it stands on. -/
theorem unifyArguments_comm_of_value {θ : Substitution} {a b : Argument}
    (ha : θ.root? a = none) : unifyArguments a b θ = unifyArguments b a θ := by
  have hspec := unifyArguments_spec a b θ
  generalize unifyArguments a b θ = result at hspec ⊢
  have hsymm : ∀ {x}, (θ.resolve a == θ.resolve b) = x → (θ.resolve b == θ.resolve a) = x :=
    fun h => BEq.comm.trans h
  have hanon : ∀ {x}, (a.isAnonymous || b.isAnonymous) = x →
      (b.isAnonymous || a.isAnonymous) = x := fun h => (Bool.or_comm ..).trans h
  have hcompat : ∀ {x}, (θ.resolve a).compatible (θ.resolve b) = x →
      (θ.resolve b).compatible (θ.resolve a) = x :=
    fun h => (Argument.compatible_comm ..).trans h
  refine Eq.symm ?_
  cases hspec with
  | anonymous h => exact (Unification.anonymous (hanon h)).eq
  | same h hsame => exact (Unification.same (hanon h) (hsymm hsame)).eq
  | bindSecond n h hne hn => exact (Unification.bindFirst n (hanon h) (hsymm hne) ha hn).eq
  | bindFirst n _ _ _ hn =>
    rw [Substitution.root?, hn] at ha
    cases ha
  | compatible h hne hb _ hc =>
    exact (Unification.compatible (hanon h) (hsymm hne) ha hb (hcompat hc)).eq
  | clash h hne hb _ hc =>
    exact (Unification.clash (hanon h) (hsymm hne) ha hb (hcompat hc)).eq

/-- Two values agree or are refused, and nothing is bound. -/
theorem unifyArguments_of_values {θ : Substitution} {a b : Argument}
    (hanon : (a.isAnonymous || b.isAnonymous) = false) (ha : θ.root? a = none)
    (hb : θ.root? b = none) : unifyArguments a b θ =
      if (θ.resolve a == θ.resolve b) || (θ.resolve a).compatible (θ.resolve b) then some θ
      else none := by
  rw [Substitution.root?] at ha hb
  simp only [unifyArguments, hanon, ha, hb, Bool.false_eq_true, if_false]
  cases θ.resolve a == θ.resolve b <;> rfl

namespace Substitution.Alike

variable {θ θ' : Substitution} {a b : Argument} {as bs : List Argument}

/-- What two values agree with is the same in alike substitutions. -/
theorem unifyArguments_swap_of_values (h : θ.Alike θ')
    (hanon : (a.isAnonymous || b.isAnonymous) = false) (ha : θ.root? a = none)
    (hb : θ.root? b = none) :
    Option.Rel Alike (unifyArguments a b θ) (unifyArguments b a θ') := by
  have ha' := (h.root?_eq_none_iff a).mp ha
  have hb' := (h.root?_eq_none_iff b).mp hb
  have hsame : (θ.resolve a == θ.resolve b) = (θ'.resolve a == θ'.resolve b) :=
    (BEq.congr_left (h.value a ha)).trans (BEq.congr_right (h.value b hb))
  have hcompat : (θ.resolve a).compatible (θ.resolve b) =
      (θ'.resolve a).compatible (θ'.resolve b) := by
    rw [Argument.compatible_congr (h.value a ha), Argument.compatible_comm,
      Argument.compatible_congr (h.value b hb), Argument.compatible_comm]
  rw [← unifyArguments_comm_of_value ha', unifyArguments_of_values hanon ha hb,
    unifyArguments_of_values hanon ha' hb', hsame, hcompat]
  split
  · exact .some h
  · exact .none

/-- A step from alike substitutions, made in one of them with its arguments swapped, leads to alike
substitutions or is refused in both. -/
theorem unifyArguments_swap (h : θ.Alike θ') (a b : Argument) :
    Option.Rel Alike (unifyArguments a b θ) (unifyArguments b a θ') := by
  cases hanon : a.isAnonymous || b.isAnonymous with
  | true =>
    have hanon' : (b.isAnonymous || a.isAnonymous) = true := (Bool.or_comm ..).trans hanon
    rw [(Unification.anonymous hanon).eq, (Unification.anonymous hanon').eq]
    exact .some h
  | false =>
    have hanon' : (b.isAnonymous || a.isAnonymous) = false := (Bool.or_comm ..).trans hanon
    cases ha : θ.root? a with
    | none =>
      cases hb : θ.root? b with
      | none => exact h.unifyArguments_swap_of_values hanon ha hb
      | some n =>
        obtain ⟨n', hb'⟩ := h.exists_root? hb
        obtain ⟨θ₁, hu, hled⟩ := h.layered.ledTo_unifyArguments hanon hb
        obtain ⟨θ₁', hu', hled'⟩ := h.layered'.ledTo_unifyArguments hanon hb'
        rw [← unifyArguments_comm_of_value ((h.root?_eq_none_iff a).mp ha), hu, hu']
        exact .some (h.led hled hled')
    | some m =>
      obtain ⟨m', ha'⟩ := h.exists_root? ha
      obtain ⟨θ₁', hu', hled'⟩ := h.layered'.ledTo_unifyArguments hanon' ha'
      rw [hu']
      cases hb : θ.root? b with
      | none =>
        obtain ⟨θ₁, hu, hled⟩ := h.layered.ledTo_unifyArguments hanon' ha
        rw [← unifyArguments_comm_of_value hb, hu]
        exact .some (h.led hled hled')
      | some n =>
        -- the two substitutions lead the variables in opposite directions
        obtain ⟨θ₁, hu, hled⟩ := h.layered.ledTo_unifyArguments hanon hb
        rw [hu]
        exact .some (h.led_swap ha hled hled')

/-- So does a run along lists of one length. -/
theorem matchArguments_swap (h : θ.Alike θ') (hlength : as.length = bs.length) :
    Option.Rel Alike (matchArguments as bs θ) (matchArguments bs as θ') := by
  induction as generalizing bs θ θ' with
  | nil =>
    rw [List.eq_nil_of_length_eq_zero hlength.symm, matchArguments, matchArguments]
    exact .some h
  | cons a as ih =>
    cases bs with
    | nil => cases hlength
    | cons b bs =>
      rw [matchArguments, matchArguments, Bool.or_comm b.isWildcard]
      split
      · exact .some h
      · exact optionRel_bind (h.unifyArguments_swap a b) fun _ _ h₁ => ih h₁ (Nat.succ.inj hlength)

end Substitution.Alike

/-! ## Facts of one arity -/

namespace Fact

/-- Facts of one arity fit each other in both directions or in neither, whatever their arguments. -/
theorem fits_comm {f g : Fact} (harity : f.arity = g.arity) : f.fits g = g.fits f := by
  rw [arity, arity] at harity
  have hrun := Substitution.Alike.empty.matchArguments_swap harity
  rw [fits, fits, matchFacts, matchFacts, List.drop_eq_nil_of_le harity.ge,
    List.drop_eq_nil_of_le harity.le, BEq.comm (a := g.predicate)]
  split
  · exact (isSome_eq_of_optionRel hrun).symm
  · rfl

/-- Here `x` and `y` are brought together, the one bound to the other in one direction and to itself
in the other, before they meet a number. -/
theorem fits_comm_crossed_variables :
    let x := Argument.named ['x'] .single []
    let y := Argument.named ['y'] .single []
    let f : Fact := ⟨['P'], [x, y, x, .number (.ofNat 3) .gt, .wildcard], .certain⟩
    let g : Fact := ⟨['P'], [y, .named ['x'] .multi [], .number (.ofNat 5) .eq, y,
      .literal ['a']], .certain⟩
    f.arity = g.arity ∧ f.fits g = true ∧ f.fits g = g.fits f := by
  intro x y f g
  have harity : f.arity = g.arity := rfl
  exact ⟨harity, by decide +kernel, fits_comm harity⟩

/-- A pattern may go on with wildcards, a known fact may not. -/
example :
    let f : Fact := ⟨['P'], [.literal ['a']], .certain⟩
    let g : Fact := ⟨['P'], [.literal ['a'], .wildcard], .certain⟩
    f.fits g = true ∧ g.fits f = false := by decide

end Fact

end TagReasoner
