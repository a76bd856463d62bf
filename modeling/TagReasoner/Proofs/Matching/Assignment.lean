import TagReasoner.Proofs.Matching.Resolution

/-!
# Assignments and plain arguments

An assignment gives every variable a value. It *respects* a substitution when each bound variable
has the value of what it is bound to, and then every argument has the value of what it resolves to
(`Respects.valueUnder_resolve`). In a layered substitution such an assignment always exists, and one
by plain values if the bindings hold no others.

A *plain* argument is a literal or a number without an operator: a value that is compatible with
nothing but itself (`compatible_eq_beq`). Plain facts are what is usually known.
-/

namespace TagReasoner

/-- A value for each variable, by name. -/
abbrev Assignment := Text → Argument

namespace Argument

/-- The value of an argument. -/
def valueUnder (v : Assignment) (a : Argument) : Argument :=
  match a.name? with
  | some n => v n
  | none => a

theorem valueUnder_of_value {v : Assignment} {a : Argument} (h : a.name? = none) :
    a.valueUnder v = a := by
  rw [valueUnder, h]

theorem valueUnder_of_name {v : Assignment} {a : Argument} {n : Text} (h : a.name? = some n) :
    a.valueUnder v = v n := by
  rw [valueUnder, h]

theorem valueUnder_congr {v : Assignment} {a b : Argument} (h : (a == b) = true) :
    (a.valueUnder v == b.valueUnder v) = true := by
  have hname := name?_congr h
  cases hb : b.name? with
  | none => rwa [valueUnder_of_value hb, valueUnder_of_value (hname.trans hb)]
  | some n => rw [valueUnder_of_name hb, valueUnder_of_name (hname.trans hb)]; exact BEq.refl _

/-! ## Plain arguments -/

/-- A literal, or a number that is one and has no operator. -/
def isPlain (a : Argument) : Bool :=
  match a.term with
  | .literal _ => true
  | .number x r => !x.isNaN && r == .eq
  | _ => false

theorem name?_of_isPlain {a : Argument} (h : a.isPlain = true) : a.name? = none := by
  unfold isPlain at h
  unfold name?
  cases ha : a.term <;> simp_all

theorem isAnonymous_of_name?_eq_none {a : Argument} (h : a.name? = none) :
    a.isAnonymous = false := by
  unfold name? at h
  unfold isAnonymous
  cases ha : a.term <;> simp_all

theorem isWildcard_of_isPlain {a : Argument} (h : a.isPlain = true) : a.isWildcard = false := by
  unfold isPlain at h
  unfold isWildcard
  cases ha : a.term <;> simp_all

/-- Neither a variable nor the wildcard. -/
def isGround (a : Argument) : Bool := !(a.isVariable || a.isWildcard)

theorem isGround_iff {a : Argument} :
    a.isGround = true ↔ a.name? = none ∧ a.isWildcard = false := by
  rw [isGround, Bool.not_eq_true', Bool.or_eq_false_iff, isVariable, Option.isSome_eq_false_iff,
    Option.isNone_iff_eq_none]

theorem isGround_of_isPlain (a : Argument) (h : a.isPlain = true) : a.isGround = true :=
  isGround_iff.mpr ⟨name?_of_isPlain h, isWildcard_of_isPlain h⟩

theorem isPlain_congr {a b : Argument} (h : (a == b) = true) : a.isPlain = b.isPlain := by
  rw [beq_def] at h
  unfold isPlain
  cases ha : a.term <;> cases hb : b.term <;>
    simp only [ha, hb, Term.equal, Bool.false_eq_true] at h ⊢
  case number.number x r y s =>
    rw [Bool.and_eq_true, Binary64.same_iff, beq_iff_eq] at h
    rw [Binary64.isNaN_eq_isNone_rank, Binary64.isNaN_eq_isNone_rank, h.1, h.2]

/-- Plain arguments are compatible when they are equal. -/
theorem compatible_eq_beq {a b : Argument} (ha : a.isPlain = true) (hb : b.isPlain = true) :
    a.compatible b = (a == b) := by
  rw [beq_def]
  unfold isPlain at ha hb
  unfold compatible
  cases hs : a.term <;> cases ht : b.term <;> simp_all [Term.equal, numbersMatch]
  case number.number x _ y _ =>
    rw [Bool.eq_iff_iff, Binary64.equal_iff, Binary64.same_iff]
    exact and_iff_left ha.1

end Argument

namespace Assignment

/-- Each bound variable has the value of what it is bound to. -/
def Respects (v : Assignment) (θ : Substitution) : Prop :=
  ∀ n a, θ.get? n = some a → (v n == a.valueUnder v) = true

theorem respects_empty (v : Assignment) : v.Respects .empty := by
  intro n a h
  cases h

theorem Respects.erase {v : Assignment} {θ : Substitution} (h : v.Respects θ) (k : Text) :
    v.Respects (θ.erase k) :=
  Keyed.forall_erase h k

/-- An argument has the value of what it resolves to. -/
theorem Respects.valueUnder_resolve {v : Assignment} {θ : Substitution} (h : v.Respects θ)
    (a : Argument) : (a.valueUnder v == (θ.resolve a).valueUnder v) = true := by
  induction θ, a using Substitution.resolve_induct with
  | value θ a ha => rw [Substitution.resolve_of_value ha]; exact BEq.refl _
  | unbound θ a n ha hn => rw [Substitution.resolve_of_unbound ha hn]; exact BEq.refl _
  | bound θ a n b ha hn ih =>
    rw [Substitution.resolve_of_bound ha hn, Argument.valueUnder_of_name ha]
    exact BEq.trans (h n b hn) (ih (h.erase n))

/-- Binding a root puts one binding to those that are related to their values. The name may be bound
to itself, and a value is related to itself anyway. -/
theorem forall_put_iff {R : Argument → Argument → Prop} (hrefl : ∀ a, R a a) {v : Assignment}
    {θ : Substitution} {n : Text} {a : Argument}
    (hself : ∀ b, θ.get? n = some b → b.name? = some n) :
    (∀ m b, (θ.put n a).get? m = some b → R (v m) (b.valueUnder v)) ↔
      (∀ m b, θ.get? m = some b → R (v m) (b.valueUnder v)) ∧ R (v n) (a.valueUnder v) := by
  constructor
  · intro h
    refine ⟨fun m b hm => ?_, h n a (Keyed.get?_put_self θ n a)⟩
    by_cases hmn : m = n
    · subst hmn
      rw [Argument.valueUnder_of_name (hself b hm)]
      exact hrefl _
    · exact h m b (by rw [Keyed.get?_put_ne θ hmn]; exact hm)
  · rintro ⟨h, hn⟩
    exact Keyed.forall_put h hn

/-- Binding a root respects nothing but the new equation on top of what was respected. -/
theorem respects_put_iff {v : Assignment} {θ : Substitution} {n : Text} {a : Argument}
    (hself : ∀ b, θ.get? n = some b → b.name? = some n) :
    v.Respects (θ.put n a) ↔ v.Respects θ ∧ (v n == a.valueUnder v) = true :=
  forall_put_iff (R := fun a b => (a == b) = true) BEq.refl hself

/-- What a variable resolves to, and the empty text where that is a variable again. -/
def ofBindings (θ : Substitution) : Assignment := fun n =>
  let a := θ.resolve (.named n .single [])
  if a.name?.isSome then .literal [] else a

theorem valueUnder_ofBindings {θ : Substitution} {a : Argument} {n : Text}
    (ha : a.name? = some n) :
    ofBindings θ n = if (θ.resolve a).name?.isSome then .literal [] else θ.resolve a := by
  show (if (θ.resolve (.named n .single [])).name?.isSome then _ else _) = _
  have hname := Argument.name?_named n .single []
  cases hn : θ.get? n with
  | none =>
    rw [Substitution.resolve_of_unbound ha hn, Substitution.resolve_of_unbound hname hn, ha, hname]
    rfl
  | some b =>
    rw [Substitution.resolve_of_bound ha hn, Substitution.resolve_of_bound hname hn]

/-- The bindings of a layered substitution can all be respected at once. -/
theorem respects_ofBindings {θ : Substitution} (h : θ.Layered) : (ofBindings θ).Respects θ := by
  intro n a hn
  have hname := Argument.name?_named n .single []
  rw [valueUnder_ofBindings hname, h.resolve_bound hname hn]
  cases ha : a.name? with
  | none =>
    rw [Argument.valueUnder_of_value ha, Substitution.resolve_of_value ha, ha]
    exact BEq.refl _
  | some m =>
    rw [Argument.valueUnder_of_name ha, valueUnder_ofBindings ha]
    exact BEq.refl _

end Assignment

/-- An assignment of plain values. -/
structure PlainAssignment where
  value : Assignment
  plain : ∀ n, (value n).isPlain = true

end TagReasoner
