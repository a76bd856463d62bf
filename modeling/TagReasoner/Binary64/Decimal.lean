import TagReasoner.Binary64.Basic

/-!
# Decimals and doubles

A decimal `c · 10^e` becomes the nearest double. The other way, a double has digits at any count:
`significant` rounds its exact value to a set number of significant digits, and `shortest` finds
the fewest digits that read back to the same double. Both work on whole numbers: the value of `u`
units scaled by a power of ten is a quotient of naturals.
-/

namespace TagReasoner

/-- The exponent of the largest power of ten that is not above `n`; zero for zero. -/
def decimalLog (n : Nat) : Nat :=
  if _h : n < 10 then 0 else decimalLog (n / 10) + 1
termination_by n
decreasing_by omega

namespace Binary64

/-- The double nearest to `c · 10^e` with a sign. Exponents far outside the format are settled
without computing the power. -/
def ofDecimal (negative : Bool) (c : Nat) (e : Int) : Binary64 :=
  let top := decimalLog c + e
  if c = 0 || top < -400 then zero negative
  else if 400 < top then infinite negative
  else if 0 ≤ e then ofQuotient negative (c * Nat.pow 10 e.toNat * unitsPerOne) 1
  else ofQuotient negative (c * unitsPerOne) (Nat.pow 10 (-e).toNat)

/-- By how many places a value is moved to bring its leading digit in front of the point. -/
def leadingShift : Nat := 400

/-- The exponent of the leading decimal digit of `units > 0`. The smallest value of the format is
above `10⁻⁴⁰⁰`, so the scaled quotient is not zero. -/
def decimalExponent (units : Nat) : Int :=
  (decimalLog (units * Nat.pow 10 leadingShift / unitsPerOne) : Int) - leadingShift

/-- Numerator and denominator of the value of `units` times `10^s`. -/
def scaled (units : Nat) (s : Int) : Nat × Nat :=
  if 0 ≤ s then (units * Nat.pow 10 s.toNat, unitsPerOne)
  else (units, unitsPerOne * Nat.pow 10 (-s).toNat)

/-- A decimal with a set number of digits: `coefficient` is written with its leading digit at
`10^exponent`. -/
structure Digits where
  coefficient : Nat
  exponent : Int
  deriving DecidableEq

/-- The value of `units > 0` rounded to `count > 0` significant digits, halfway cases to even. -/
def significant (count units : Nat) : Digits :=
  let e := decimalExponent units
  let q := scaled units (count - 1 - e)
  let c := roundDiv q.1 q.2
  if c = Nat.pow 10 count then ⟨Nat.pow 10 (count - 1), e + 1⟩ else ⟨c, e⟩

/-- The decimal with `count` digits and leading digit at `10^e` reads back as `units`. -/
def readsBack (units count c : Nat) (e : Int) : Bool :=
  match ofDecimal false c (e - (count - 1)) with
  | finite _ u _ => u == units
  | _ => false

/-- The decimal with `count` digits that reads back as `units`, if there is one. Only the two
neighbours of the value on the grid of such decimals can be nearest; of two that read back the
nearer wins, and the even one of two equally near. -/
def shortestWith? (units count : Nat) : Option Digits :=
  let e := decimalExponent units
  let q := scaled units (count - 1 - e)
  let low := q.1 / q.2
  let near := roundDiv q.1 q.2
  let far := if near = low then low + 1 else low
  if readsBack units count near e then some ⟨near, e⟩
  else if readsBack units count far e then some ⟨far, e⟩
  else none

/-- The fewest digits that read back as `units > 0`; seventeen always do. Rounding that carries
beyond the leading place gives a one followed by zeros, one place higher. -/
def shortest (units : Nat) : Digits :=
  match (List.range 17).findSome? fun k =>
      (shortestWith? units (k + 1)).map fun d => (k + 1, d) with
  | some (count, d) => if d.coefficient = Nat.pow 10 count then ⟨1, d.exponent + 1⟩ else d
  | none => significant 17 units

end Binary64
end TagReasoner
