import TagReasoner.Binary64.Display

/-!
# Arguments of facts

An argument is a term with the token it is displayed by. Terms are literals, numbers under a
relational operator, variables, and the wildcard, which absorbs the rest of a fact. Two arguments
are equal when their terms are, whatever their tokens: `5`, `5.0` and `==5` are one number.

`compatible` says whether two arguments are compatible without binding anything.
-/

namespace TagReasoner

/-- The relational operator of a number. -/
inductive Relation where
  | eq
  | ne
  | gt
  | lt
  | ge
  | le
  deriving DecidableEq

namespace Relation

/-- The operator as it is written. -/
def symbol : Relation → Text
  | eq => ['=']
  | ne => ['!', '=']
  | gt => ['>']
  | lt => ['<']
  | ge => ['>', '=']
  | le => ['<', '=']

/-- Does the operator hold between two numbers? Nothing but `ne` holds of `nan`. -/
def holds (r : Relation) (x y : Binary64) : Bool :=
  match r with
  | eq => x.equal y
  | ne => !x.equal y
  | gt => y.below x
  | lt => x.below y
  | ge => y.atMost x
  | le => x.atMost y

end Relation

/-- How a variable is marked. -/
inductive Binder where
  | single
  | multi
  deriving DecidableEq

/-- The mark in front of a variable's name. -/
def Binder.mark : Binder → Char
  | single => '?'
  | multi => '&'

/-- What an argument stands for. -/
inductive Term where
  | literal (text : Text)
  | number (value : Binary64) (relation : Relation)
  | variable (name : Text) (binder : Binder)
  | wildcard
  deriving DecidableEq

/-- Equal terms: numbers are compared as numbers, whatever the sign of a zero. Every term is equal
to itself, `nan` among them, so that a set finds again what was put into it. -/
def Term.equal : Term → Term → Bool
  | .literal s, .literal t => s == t
  | .number x r, .number y s => x.same y && r == s
  | .variable m b, .variable n c => m == n && b == c
  | .wildcard, .wildcard => true
  | _, _ => false

/-- An argument of a fact: a term and the token that displays it. -/
structure Argument where
  term : Term
  token : Text

namespace Argument

/-- Equality is that of the terms. -/
instance : BEq Argument := ⟨fun a b => a.term.equal b.term⟩

theorem beq_def (a b : Argument) : (a == b) = a.term.equal b.term := rfl

/-- A constant text. -/
def literal (text : Text) : Argument := ⟨.literal text, text⟩

/-- A number, displayed with six significant digits behind its operator. -/
def number (value : Binary64) (relation : Relation) : Argument :=
  ⟨.number value relation, (if relation = .eq then [] else relation.symbol) ++ value.general⟩

/-- The token of a variable that is given none: its mark and its name, or the bare mark. -/
def variableToken (name : Text) (binder : Binder) : Text :=
  if name = [binder.mark] then name else binder.mark :: name

/-- A variable, displayed by `token` unless that is empty. -/
def named (name : Text) (binder : Binder) (token : Text) : Argument :=
  ⟨.variable name binder, if token.isEmpty then variableToken name binder else token⟩

/-- The argument that absorbs the rest of a fact. -/
def wildcard : Argument := ⟨.wildcard, ['*']⟩

/-- The name of a variable. -/
def name? (a : Argument) : Option Text :=
  match a.term with
  | .variable name _ => some name
  | _ => none

def isVariable (a : Argument) : Bool := a.name?.isSome

/-- A bare mark is anonymous: it matches anything and is never bound. -/
def isAnonymous (a : Argument) : Bool :=
  match a.term with
  | .variable name binder => name == [binder.mark]
  | _ => false

def isWildcard (a : Argument) : Bool :=
  match a.term with
  | .wildcard => true
  | _ => false

/-- Two numbers are compatible when the operator of the side that has one holds of the other
side's number; two operators have to be the same on the same number. -/
def numbersMatch (x : Binary64) (r : Relation) (y : Binary64) (s : Relation) : Bool :=
  if r ≠ .eq && s ≠ .eq then r == s && x.equal y
  else if s ≠ .eq then s.holds x y
  else if r ≠ .eq then r.holds y x
  else x.equal y

/-- Are two arguments compatible? Wildcards and variables are compatible with everything. -/
def compatible (a b : Argument) : Bool :=
  match a.term, b.term with
  | .wildcard, _ | _, .wildcard | .variable .., _ | _, .variable .. => true
  | .literal s, .literal t => s == t
  | .number x r, .number y s => numbersMatch x r y s
  | _, _ => false

end Argument

/-! ## Equality of terms -/

namespace Term

theorem equal_refl (t : Term) : t.equal t = true := by
  cases t <;> simp [equal, Binary64.same]

theorem equal_comm (s t : Term) : s.equal t = t.equal s := by
  cases s <;> cases t <;> simp only [equal, Binary64.same]
  · exact Bool.beq_comm
  · rw [Bool.beq_comm, Bool.beq_comm (a := (_ : Relation))]
  · rw [Bool.beq_comm, Bool.beq_comm (a := (_ : Binder))]

theorem equal_trans {s t u : Term} (hst : s.equal t = true) (htu : t.equal u = true) :
    s.equal u = true := by
  cases s <;> cases t <;> simp [equal, Binary64.same_iff] at hst <;>
    cases u <;> simp [equal, Binary64.same_iff] at htu ⊢
  · exact hst.trans htu
  · exact ⟨hst.1.trans htu.1, hst.2.trans htu.2⟩
  · exact ⟨hst.1.trans htu.1, hst.2.trans htu.2⟩

end Term

instance : EquivBEq Argument where
  rfl {a} := Term.equal_refl a.term
  symm {a b} h := (Term.equal_comm b.term a.term).trans h
  trans h₁ h₂ := Term.equal_trans h₁ h₂

end TagReasoner
