import TagReasoner.Proofs.Matching.PlainFacts
import Mathlib.Data.Set.Function
import Mathlib.Logic.Equiv.Basic

/-!
# The names of variables in a fact

Variables of a known fact and of a pattern share one space of names. Renaming the variables of both
in one go, by a map that keeps different names different, changes nothing in a match: each step
binds the renamed name to the renamed argument (`RenamesTo.unifyArguments`). Renaming the fact alone
comes to that as long as the map keeps the coincidences: a name of the fact is the same as one of
the pattern afterwards if it was before. And no other renaming leaves all matches alone
(`rename_invisible_iff`), since two positions are enough to notice a name that is shared.
-/

namespace TagReasoner

/-! ## Renaming -/

/-- A named variable gets a new name and keeps its binder; values and bare marks stay. -/
def Argument.rename (h : Text → Text) (a : Argument) : Argument :=
  match a.term with
  | .variable n b => if a.isAnonymous then a else .named (h n) b []
  | _ => a

namespace Fact

/-- The fact with its named variables renamed. -/
def rename (h : Text → Text) (f : Fact) : Fact :=
  { f with arguments := f.arguments.map (Argument.rename h) }

/-- The names of the named variables. -/
def givenNames (f : Fact) : List Text := f.arguments.filterMap Argument.givenName?

/-- The map renames the named variables of the fact: different names stay different, and no variable
becomes a bare mark. -/
structure RenamedBy (f : Fact) (h : Text → Text) : Prop where
  injOn : Set.InjOn h {n | n ∈ f.givenNames}
  named : ∀ a ∈ f.arguments, a.isAnonymous = false → (a.rename h).isAnonymous = false

/-- The named variables of the fact are among those of the other. -/
def VariablesAmong (g f : Fact) : Prop :=
  ∀ a ∈ g.arguments, a.givenName?.isSome = true → ∃ b ∈ f.arguments, b.term = a.term

theorem mem_givenNames {f : Fact} {n : Text} :
    n ∈ f.givenNames ↔ ∃ a ∈ f.arguments, a.givenName? = some n :=
  List.mem_filterMap

end Fact

namespace Argument

variable {h : Text → Text} {a b : Argument} {n : Text}

theorem term_of_name? (ha : a.name? = some n) : ∃ b, a.term = .variable n b := by
  unfold name? at ha
  split at ha
  next m b hterm =>
    cases ha
    exact ⟨b, hterm⟩
  next => cases ha

theorem rename_of_value (ha : a.name? = none) : a.rename h = a := by
  unfold rename
  split
  next n b hterm => simp [name?, hterm] at ha
  next => rfl

theorem rename_of_anonymous (ha : a.isAnonymous = true) : a.rename h = a := by
  unfold rename
  split
  · rw [if_pos ha]
  · rfl

theorem rename_of_given {b : Binder} (ha : a.isAnonymous = false) (hterm : a.term = .variable n b) :
    a.rename h = .named (h n) b [] := by
  unfold rename
  rw [hterm]
  simp only [ha, Bool.false_eq_true, if_false]

theorem givenName?_congr_term (hab : a.term = b.term) : a.givenName? = b.givenName? := by
  rw [givenName?, givenName?, isAnonymous, isAnonymous, name?, name?, hab]

end Argument

/-! ## Both sides renamed in one go -/

theorem optionRel_bind {α β γ δ : Type} {R : α → β → Prop} {S : γ → δ → Prop} {x : Option α}
    {y : Option β} {f : α → Option γ} {g : β → Option δ} (hxy : Option.Rel R x y)
    (hfg : ∀ a b, R a b → Option.Rel S (f a) (g b)) : Option.Rel S (x.bind f) (y.bind g) := by
  cases hxy with
  | none => exact .none
  | some hab => exact hfg _ _ hab

theorem isSome_eq_of_optionRel {α β : Type} {R : α → β → Prop} {x : Option α} {y : Option β}
    (hxy : Option.Rel R x y) : y.isSome = x.isSome := by
  cases hxy <;> rfl

theorem all_eq_of_forall₂ {α β : Type} {R : α → β → Prop} {P : α → Bool} {Q : β → Bool}
    {as : List α} {bs : List β} (h : List.Forall₂ R as bs) (hPQ : ∀ a b, R a b → Q b = P a) :
    bs.all Q = as.all P := by
  induction h with
  | nil => rfl
  | cons hab _ ih => rw [List.all_cons, List.all_cons, hPQ _ _ hab, ih]

/-- The second argument is the first under new names, those of `N`, for a value or a named
variable. -/
inductive Argument.RenamesTo (N : Set Text) (h : Text → Text) : Argument → Argument → Prop where
  | value {a : Argument} : a.name? = none → RenamesTo N h a a
  | name {a a' : Argument} {n : Text} (b : Binder) : n ∈ N → a.term = .variable n b →
      a'.term = .variable (h n) b → RenamesTo N h a a'

/-- The second substitution binds the new names to what the first binds the old ones to, under new
names as well. -/
def Substitution.RenamesTo (N : Set Text) (h : Text → Text) (θ θ' : Substitution) : Prop :=
  ∀ n ∈ N, Option.Rel (Argument.RenamesTo N h) (θ.get? n) (θ'.get? (h n))

section Simultaneous

variable {N : Set Text} {h : Text → Text} {a a' b b' : Argument} {θ θ' : Substitution}

theorem Argument.RenamesTo.name?_eq (ha : a.RenamesTo N h a') :
    a'.name? = a.name?.map h := by
  cases ha with
  | value ha => rw [ha, Option.map_none]
  | name b _ ha ha' => rw [name?, name?, ha, ha', Option.map_some]

theorem Argument.RenamesTo.mem (ha : a.RenamesTo N h a') {n : Text} (hn : a.name? = some n) :
    n ∈ N := by
  cases ha with
  | value ha =>
    rw [ha] at hn
    cases hn
  | name b hmem ha ha' =>
    rw [name?, ha] at hn
    cases hn
    exact hmem

theorem Argument.RenamesTo.eq_of_value (ha : a.RenamesTo N h a') (hn : a.name? = none) :
    a' = a := by
  cases ha with
  | value => rfl
  | name b _ ha => simp [name?, ha] at hn

/-- Arguments stay equal, and stay different. -/
theorem Argument.RenamesTo.beq_eq (hinj : Set.InjOn h N) (ha : a.RenamesTo N h a')
    (hb : b.RenamesTo N h b') : (a' == b') = (a == b) := by
  cases ha with
  | value ha =>
    cases hb with
    | value => rfl
    | name c _ hterm hterm' =>
      rw [beq_def, beq_def, hterm, hterm']
      unfold name? at ha
      cases hvalue : a.term <;> simp_all [Term.equal]
  | name c hn hterm hterm' =>
    cases hb with
    | value hb =>
      rw [beq_def, beq_def, hterm, hterm']
      unfold name? at hb
      cases hvalue : b.term <;> simp_all [Term.equal]
    | name d hm hterm₁ hterm₁' =>
      rw [beq_def, beq_def, hterm, hterm', hterm₁, hterm₁', Term.equal, Term.equal,
        Bool.eq_iff_iff, Bool.and_eq_true, Bool.and_eq_true, beq_iff_eq, beq_iff_eq, beq_iff_eq,
        hinj.eq_iff hn hm]

/-- The second argument is the first under new names; a bare mark stays one, whatever its name. -/
def Argument.RenamesAll (N : Set Text) (h : Text → Text) (a a' : Argument) : Prop :=
  a'.isAnonymous = a.isAnonymous ∧ (a.isAnonymous = false → a.RenamesTo N h a')

theorem Argument.RenamesAll.isWildcard_eq (ha : a.RenamesAll N h a') :
    a'.isWildcard = a.isWildcard := by
  cases hanon : a.isAnonymous with
  | true =>
    obtain ⟨b, hb⟩ := name?_of_isAnonymous hanon
    obtain ⟨b', hb'⟩ := name?_of_isAnonymous (ha.1.trans hanon)
    rw [isWildcard_of_name? hb, isWildcard_of_name? hb']
  | false =>
    cases ha.2 hanon with
    | value => rfl
    | name b _ hterm hterm' => rw [isWildcard, isWildcard, hterm, hterm']

theorem Argument.renamesAll_self (hkept : ∀ n, a.givenName? = some n → n ∈ N ∧ h n = n) :
    a.RenamesAll N h a := by
  refine ⟨rfl, fun hanon => ?_⟩
  cases hname : a.name? with
  | none => exact .value hname
  | some n =>
    obtain ⟨b, hterm⟩ := term_of_name? hname
    obtain ⟨hmem, hn⟩ := hkept n (givenName?_eq_some_iff.mpr ⟨hanon, hname⟩)
    exact .name b hmem hterm (by rw [hn, hterm])

/-- Renaming an argument by a map that agrees with `h` on its name. -/
theorem Argument.renamesAll_rename {g : Text → Text}
    (hnamed : a.isAnonymous = false → (a.rename g).isAnonymous = false)
    (hagree : ∀ n, a.givenName? = some n → n ∈ N ∧ h n = g n) :
    a.RenamesAll N h (a.rename g) := by
  cases hanon : a.isAnonymous with
  | true =>
    rw [rename_of_anonymous hanon]
    exact ⟨rfl, fun hgiven => absurd (hgiven.symm.trans hanon) (by decide)⟩
  | false =>
    refine ⟨(hnamed hanon).trans hanon.symm, fun _ => ?_⟩
    cases hname : a.name? with
    | none =>
      rw [rename_of_value hname]
      exact .value hname
    | some n =>
      obtain ⟨b, hterm⟩ := term_of_name? hname
      obtain ⟨hmem, hn⟩ := hagree n (givenName?_eq_some_iff.mpr ⟨hanon, hname⟩)
      rw [rename_of_given hanon hterm, ← hn]
      exact .name b hmem hterm rfl

namespace Substitution.RenamesTo

theorem empty : RenamesTo N h .empty .empty := fun _ _ => .none

theorem erase (hinj : Set.InjOn h N) (hθ : RenamesTo N h θ θ') {n : Text} (hn : n ∈ N) :
    RenamesTo N h (θ.erase n) (θ'.erase (h n)) := by
  intro m hm
  rw [Keyed.get?_erase, Keyed.get?_erase]
  by_cases hmn : m = n
  · rw [if_pos hmn, if_pos (congrArg h hmn)]
    exact .none
  · rw [if_neg hmn, if_neg fun heq => hmn (hinj hm hn heq)]
    exact hθ m hm

theorem put (hinj : Set.InjOn h N) (hθ : RenamesTo N h θ θ') {n : Text} (hn : n ∈ N)
    (ha : a.RenamesTo N h a') : RenamesTo N h (θ.put n a) (θ'.put (h n) a') := by
  intro m hm
  rw [Keyed.get?_put, Keyed.get?_put]
  by_cases hmn : m = n
  · rw [if_pos hmn, if_pos (congrArg h hmn)]
    exact .some ha
  · rw [if_neg hmn, if_neg fun heq => hmn (hinj hm hn heq)]
    exact hθ m hm

/-- Walks take the same steps. -/
theorem resolve (hinj : Set.InjOn h N) (hθ : RenamesTo N h θ θ') (ha : a.RenamesTo N h a') :
    (θ.resolve a).RenamesTo N h (θ'.resolve a') := by
  induction θ, a using resolve_induct generalizing θ' a' with
  | value θ a hname =>
    rw [ha.eq_of_value hname, resolve_of_value hname, resolve_of_value hname]
    exact .value hname
  | unbound θ a n hname hn =>
    have hrel := hθ n (ha.mem hname)
    have hname' : a'.name? = some (h n) := by rw [ha.name?_eq, hname, Option.map_some]
    rw [hn] at hrel
    have hn' : θ'.get? (h n) = none := by
      cases hget : θ'.get? (h n) with
      | none => rfl
      | some c =>
        rw [hget] at hrel
        cases hrel
    rw [resolve_of_unbound hname hn, resolve_of_unbound hname' hn']
    exact ha
  | bound θ a n b hname hn ih =>
    have hrel := hθ n (ha.mem hname)
    have hname' : a'.name? = some (h n) := by rw [ha.name?_eq, hname, Option.map_some]
    rw [hn] at hrel
    cases hget : θ'.get? (h n) with
    | none =>
      rw [hget] at hrel
      cases hrel
    | some b' =>
      rw [hget] at hrel
      cases hrel with
      | some hb =>
      rw [resolve_of_bound hname hn, resolve_of_bound hname' hget]
      exact ih (hθ.erase hinj (ha.mem hname)) hb

/-- A step binds the renamed name to the renamed argument. -/
theorem unifyArguments (hinj : Set.InjOn h N) (hθ : RenamesTo N h θ θ') (ha : a.RenamesAll N h a')
    (hb : b.RenamesAll N h b') :
    Option.Rel (RenamesTo N h) (unifyArguments a b θ) (unifyArguments a' b' θ') := by
  cases hanon : a.isAnonymous || b.isAnonymous with
  | true =>
    have hanon' : (a'.isAnonymous || b'.isAnonymous) = true := by rw [ha.1, hb.1, hanon]
    rw [(Unification.anonymous hanon).eq, (Unification.anonymous hanon').eq]
    exact .some hθ
  | false =>
    have hanon' : (a'.isAnonymous || b'.isAnonymous) = false := by rw [ha.1, hb.1, hanon]
    obtain ⟨hanona, hanonb⟩ := Bool.or_eq_false_iff.mp hanon
    have hra := hθ.resolve hinj (ha.2 hanona)
    have hrb := hθ.resolve hinj (hb.2 hanonb)
    have hsame' := Argument.RenamesTo.beq_eq hinj hra hrb
    have hname' := hrb.name?_eq
    have hname₁' := hra.name?_eq
    have hspec := unifyArguments_spec a b θ
    generalize TagReasoner.unifyArguments a b θ = result at hspec ⊢
    cases hspec with
    | anonymous h =>
      rw [hanon] at h
      cases h
    | same _ hsame =>
      rw [hsame] at hsame'
      rw [(Unification.same hanon' hsame').eq]
      exact .some hθ
    | bindSecond n _ hsame hn =>
      rw [hsame] at hsame'
      rw [hn, Option.map_some] at hname'
      rw [(Unification.bindSecond _ hanon' hsame' hname').eq]
      exact .some (hθ.put hinj (hrb.mem hn) hra)
    | bindFirst n _ hsame hn hm =>
      rw [hsame] at hsame'
      rw [hn, Option.map_none] at hname'
      rw [hm, Option.map_some] at hname₁'
      rw [(Unification.bindFirst _ hanon' hsame' hname' hname₁').eq]
      exact .some (hθ.put hinj (hra.mem hm) hrb)
    | compatible _ hsame hn hm hcompat =>
      rw [hsame] at hsame'
      rw [hn, Option.map_none] at hname'
      rw [hm, Option.map_none] at hname₁'
      rw [← hra.eq_of_value hm, ← hrb.eq_of_value hn] at hcompat
      rw [(Unification.compatible hanon' hsame' hname' hname₁' hcompat).eq]
      exact .some hθ
    | clash _ hsame hn hm hcompat =>
      rw [hsame] at hsame'
      rw [hn, Option.map_none] at hname'
      rw [hm, Option.map_none] at hname₁'
      rw [← hra.eq_of_value hm, ← hrb.eq_of_value hn] at hcompat
      rw [(Unification.clash hanon' hsame' hname' hname₁' hcompat).eq]
      exact .none

/-- So does a run along the arguments. -/
theorem matchArguments {as as' bs bs' : List Argument} (hinj : Set.InjOn h N)
    (has : List.Forall₂ (Argument.RenamesAll N h) as as')
    (hbs : List.Forall₂ (Argument.RenamesAll N h) bs bs') (hθ : RenamesTo N h θ θ') :
    Option.Rel (RenamesTo N h) (matchArguments as bs θ) (matchArguments as' bs' θ') := by
  induction has generalizing bs bs' θ θ' with
  | nil =>
    rw [TagReasoner.matchArguments, TagReasoner.matchArguments]
    exact .some hθ
  | @cons a a' as as' ha _ ih =>
    cases hbs with
    | nil => exact .none
    | @cons b b' bs bs' hb hbs =>
      rw [TagReasoner.matchArguments, TagReasoner.matchArguments, ha.isWildcard_eq,
        hb.isWildcard_eq]
      split
      · exact .some hθ
      · exact optionRel_bind (hθ.unifyArguments hinj ha hb) fun _ _ hθ₁ => ih hbs hθ₁

end Substitution.RenamesTo

/-- Two facts that are renamed in one go fit each other as before. -/
theorem Fact.fits_eq_of_renamesAll {f f' p p' : Fact} (hinj : Set.InjOn h N)
    (hf : f'.predicate = f.predicate)
    (hfs : List.Forall₂ (Argument.RenamesAll N h) f.arguments f'.arguments)
    (hp : p'.predicate = p.predicate)
    (hps : List.Forall₂ (Argument.RenamesAll N h) p.arguments p'.arguments) :
    f'.fits p' = f.fits p := by
  have hlong : (p'.arguments.drop f'.arguments.length).all Argument.isWildcard =
      (p.arguments.drop f.arguments.length).all Argument.isWildcard := by
    rw [← hfs.length_eq]
    exact all_eq_of_forall₂ (List.forall₂_drop _ hps) fun _ _ ha => ha.isWildcard_eq
  have hrun := Substitution.RenamesTo.matchArguments hinj hfs hps .empty
  rw [fits, fits, matchFacts, matchFacts, hf, hp, hlong]
  split
  · exact isSome_eq_of_optionRel hrun
  · rfl

end Simultaneous

/-! ## The fact alone -/

namespace Fact

variable {f p : Fact} {h : Text → Text}

/-- The fact alone is renamed as if both were, by the map that leaves the other names alone. -/
theorem RenamedBy.fits_rename (hh : f.RenamedBy h)
    (hshared : ∀ x ∈ f.givenNames, ∀ y ∈ p.givenNames, (h x = y ↔ x = y)) :
    f.fits p = (f.rename h).fits p := by
  let η : Text → Text := fun n => if n ∈ f.givenNames then h n else n
  have hη : ∀ n ∈ f.givenNames, η n = h n := fun n hn => if_pos hn
  have hother : ∀ n ∈ p.givenNames, η n = n := by
    intro n hn
    by_cases hnf : n ∈ f.givenNames
    · rw [hη n hnf]
      exact (hshared n hnf n hn).mpr rfl
    · exact if_neg hnf
  let N : Set Text := {n | n ∈ f.givenNames ∨ n ∈ p.givenNames}
  have hinj : Set.InjOn η N := by
    rintro x (hx | hx) y (hy | hy) heq
    · rw [hη x hx, hη y hy] at heq
      exact hh.injOn hx hy heq
    · rw [hη x hx, hother y hy] at heq
      exact (hshared x hx y hy).mp heq
    · rw [hη y hy, hother x hx] at heq
      exact ((hshared y hy x hx).mp heq.symm).symm
    · rwa [hother x hx, hother y hy] at heq
  have hfs : List.Forall₂ (Argument.RenamesAll N η) f.arguments (f.rename h).arguments := by
    rw [rename, List.forall₂_map_right_iff, List.forall₂_same]
    intro a ha
    refine Argument.renamesAll_rename (hh.named a ha) fun n hn => ?_
    have hmem : n ∈ f.givenNames := mem_givenNames.mpr ⟨a, ha, hn⟩
    exact ⟨.inl hmem, hη n hmem⟩
  have hps : List.Forall₂ (Argument.RenamesAll N η) p.arguments p.arguments := by
    rw [List.forall₂_same]
    intro a ha
    refine Argument.renamesAll_self fun n hn => ?_
    have hmem : n ∈ p.givenNames := mem_givenNames.mpr ⟨a, ha, hn⟩
    exact ⟨.inr hmem, hother n hmem⟩
  have hboth : (f.rename h).fits p = f.fits p := fits_eq_of_renamesAll hinj rfl hfs rfl hps
  exact hboth.symm

theorem VariablesAmong.mem_givenNames {g : Fact} (hg : g.VariablesAmong f) {n : Text}
    (hn : n ∈ g.givenNames) : n ∈ f.givenNames := by
  obtain ⟨a, ha, han⟩ := Fact.mem_givenNames.mp hn
  obtain ⟨b, hb, hba⟩ := hg a ha (by rw [han]; rfl)
  exact Fact.mem_givenNames.mpr ⟨b, hb, (Argument.givenName?_congr_term hba).trans han⟩

theorem RenamedBy.givenName?_rename (hh : f.RenamedBy h) {a : Argument} {n : Text}
    (ha : a ∈ f.arguments) (hn : a.givenName? = some n) :
    (a.rename h).givenName? = some (h n) := by
  obtain ⟨hanon, hname⟩ := Argument.givenName?_eq_some_iff.mp hn
  obtain ⟨b, hterm⟩ := Argument.term_of_name? hname
  refine Argument.givenName?_eq_some_iff.mpr ⟨hh.named a ha hanon, ?_⟩
  rw [Argument.rename_of_given hanon hterm]
  rfl

/-- A map renames a fact if it renames one with the same variables or more. -/
theorem RenamedBy.of_variablesAmong {g : Fact} (hh : f.RenamedBy h) (hg : g.VariablesAmong f) :
    g.RenamedBy h := by
  refine ⟨hh.injOn.mono fun n => hg.mem_givenNames, fun a ha hanon => ?_⟩
  cases hname : a.name? with
  | none => rwa [Argument.rename_of_value hname]
  | some n =>
    obtain ⟨c, hterm⟩ := Argument.term_of_name? hname
    obtain ⟨b, hb, hba⟩ :=
      hg a ha (by rw [Argument.givenName?_eq_some_iff.mpr ⟨hanon, hname⟩]; rfl)
    have hbanon : b.isAnonymous = false := by
      rw [← hanon, Argument.isAnonymous, Argument.isAnonymous, hba]
    have hrename := hh.named b hb hbanon
    rw [Argument.rename_of_given hanon hterm]
    rwa [Argument.rename_of_given hbanon (hba.trans hterm)] at hrename

/-- A variable opposite one text and a variable opposite another fit together as long as they have
different names. -/
theorem fits_across_iff {a c : Argument} {m n : Text} (ha : a.givenName? = some m)
    (hc : c.givenName? = some n) {s t : Text} (hst : s ≠ t) :
    (⟨[], [a, .literal t], .certain⟩ : Fact).fits ⟨[], [.literal s, c], .certain⟩ = true ↔
      m ≠ n := by
  obtain ⟨hanon, ha⟩ := Argument.givenName?_eq_some_iff.mp ha
  let θ : Substitution := Keyed.put .empty m (.literal s)
  have hfirst : unifyArguments a (.literal s) .empty = some θ := by
    have hroot : Substitution.resolve .empty a = a := Substitution.resolve_of_unbound ha rfl
    have hne : (a == .literal s) = false := by
      rw [Bool.eq_false_iff]
      intro hsame
      rw [Argument.name?_congr hsame] at ha
      cases ha
    refine Unification.eq (.bindFirst m ?_ ?_ rfl ?_)
    · rw [hanon]
      rfl
    · rw [hroot]
      exact hne
    · rw [hroot, ha]
  have hsecond : (unifyArguments (.literal t) c θ).isSome = true ↔ m ≠ n := by
    by_cases hmn : m = n
    · subst hmn
      have hts : (Argument.literal t == .literal s) = false := by
        rw [Argument.beq_def]
        exact beq_eq_false_iff_ne.mpr hst.symm
      rw [unifyArguments_bound rfl hc rfl (Keyed.get?_put_self ..), hts]
      simp
    · rw [unifyArguments_free rfl hc (Keyed.get?_put_ne _ (Ne.symm hmn) _)]
      simp [hmn]
  have hrun : matchArguments [a, .literal t] [.literal s, c] .empty =
      unifyArguments (.literal t) c θ := by
    have hcw := Argument.isWildcard_of_name? (Argument.givenName?_eq_some_iff.mp hc).2
    rw [matchArguments_cons (Argument.isWildcard_of_name? ha) rfl, hfirst, Option.bind_some,
      matchArguments_cons rfl hcw]
    exact Option.bind_fun_some _
  rw [← hsecond, ← hrun]
  rfl

/-- Renaming the variables of a fact leaves all matches alone, whatever the facts and the patterns
that are made with variables like these, just when it keeps every coincidence with a name of the
pattern and makes none. -/
theorem rename_invisible_iff (hh : f.RenamedBy h) :
    (∀ g q : Fact, g.VariablesAmong f → q.VariablesAmong p → g.fits q = (g.rename h).fits q) ↔
      ∀ x ∈ f.givenNames, ∀ y ∈ p.givenNames, (h x = y ↔ x = y) := by
  constructor
  · intro hall x hx y hy
    obtain ⟨a, ha, hax⟩ := mem_givenNames.mp hx
    obtain ⟨c, hc, hcy⟩ := mem_givenNames.mp hy
    have hax' := hh.givenName?_rename ha hax
    let g : Fact := ⟨[], [a, .literal ['2']], .certain⟩
    let q : Fact := ⟨[], [.literal ['1'], c], .certain⟩
    have hg : g.VariablesAmong f := by
      intro d hd hname
      rcases List.mem_pair.mp hd with rfl | rfl
      · exact ⟨d, ha, rfl⟩
      · cases hname
    have hq : q.VariablesAmong p := by
      intro d hd hname
      rcases List.mem_pair.mp hd with rfl | rfl
      · cases hname
      · exact ⟨d, hc, rfl⟩
    have hbefore : g.fits q = true ↔ x ≠ y := fits_across_iff hax hcy (by decide)
    have hafter : (g.rename h).fits q = true ↔ h x ≠ y := fits_across_iff hax' hcy (by decide)
    rw [← hall g q hg hq, hbefore] at hafter
    exact (not_iff_not.mp hafter).symm
  · intro hshared g q hg hq
    refine (hh.of_variablesAmong hg).fits_rename fun x hx y hy => ?_
    exact hshared x (hg.mem_givenNames hx) y (hq.mem_givenNames hy)

/-- The pattern `P(a,?y)` shares no name with the fact `P(?x,b)`, also after `x` becomes `z`. -/
theorem rename_invisible_iff_fresh_name :
    let f : Fact := ⟨['P'], [.named ['x'] .single [], .literal ['b']], .certain⟩
    let p : Fact := ⟨['P'], [.literal ['a'], .named ['y'] .single []], .certain⟩
    let h : Text → Text := Equiv.swap ['x'] ['z']
    f.RenamedBy h ∧
      ∀ g q : Fact, g.VariablesAmong f → q.VariablesAmong p → g.fits q = (g.rename h).fits q := by
  intro f p h
  have hh : f.RenamedBy h := ⟨(Equiv.injective _).injOn, by decide⟩
  exact ⟨hh, (rename_invisible_iff hh).mpr (by decide)⟩

/-- The fact `P(?x,b)` does not fit the pattern `P(a,?x)`, which has a variable of the same name,
but fits it once its own variable is called `y`. -/
theorem not_fits_rename_shared_name :
    let f : Fact := ⟨['P'], [.named ['x'] .single [], .literal ['b']], .certain⟩
    let p : Fact := ⟨['P'], [.literal ['a'], .named ['x'] .single []], .certain⟩
    let h : Text → Text := Equiv.swap ['x'] ['y']
    f.RenamedBy h ∧ ¬ (f.fits p = true ↔ (f.rename h).fits p = true) :=
  ⟨⟨(Equiv.injective _).injOn, by decide⟩, by decide⟩

end Fact

end TagReasoner
