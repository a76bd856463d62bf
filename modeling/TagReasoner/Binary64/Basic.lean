/-!
# Double-precision numbers, exactly

A finite double is a whole number of *units* of `2⁻¹⁰⁷⁴`, the smallest positive value of the
format. `n` units are a value of the format when `n` keeps at most 53 significant bits and stays
below `2²⁰⁹⁸`; that is `Representable`, and every finite value carries it. Rounding takes an exact
quotient of units to the nearest representable one, halfway cases to the even neighbour
(`representable_roundUnits`).

All arithmetic and every comparison is on whole numbers, so laws about it are laws about `Nat` and
`Int`.
-/

namespace TagReasoner

/-- How many units make one. -/
def unitsPerOne : Nat := Nat.pow 2 1074

/-- The least number of units that is too large for the format. -/
def unitBound : Nat := Nat.pow 2 2098

/-- The distance in units between neighbouring values around `n` units: one below `2⁵³`, and
doubling with each further bit. -/
def spacing (n : Nat) : Nat := Nat.pow 2 (n.log2 - 52)

/-- `n` units are the magnitude of a finite value. -/
def Representable (n : Nat) : Prop := n < unitBound ∧ spacing n ∣ n

instance (n : Nat) : Decidable (Representable n) := inferInstanceAs (Decidable (_ ∧ _))

/-- A double-precision number. Zero has two signs, and there is one value that is not a number. -/
inductive Binary64 where
  | nan
  | infinite (negative : Bool)
  | finite (negative : Bool) (units : Nat) (representable : Representable units)
  deriving DecidableEq

/-! ## Rounding -/

/-- The whole number nearest to `n / d`, the even one of two equally near. -/
def roundDiv (n d : Nat) : Nat :=
  let q := n / d
  let r := n % d
  if 2 * r < d then q else if d < 2 * r then q + 1 else q + q % 2

/-- The representable number of units nearest to `n / d` units, were the format unbounded. -/
def roundUnits (n d : Nat) : Nat :=
  let s := spacing (n / d)
  roundDiv n (d * s) * s

theorem roundDiv_le (n d : Nat) : roundDiv n d ≤ n / d + 1 := by
  simp only [roundDiv]
  split
  · omega
  · split <;> omega

theorem unitBound_pos : 0 < unitBound := by decide +kernel

theorem representable_zero : Representable 0 := ⟨unitBound_pos, Nat.dvd_zero _⟩

/-- Rounding to the spacing leaves a number with at most 53 significant bits. -/
theorem spacing_roundUnits_dvd (n d : Nat) : spacing (roundUnits n d) ∣ roundUnits n d := by
  have hm : roundDiv n (d * spacing (n / d)) ≤ 2 ^ 53 := by
    refine Nat.le_trans (roundDiv_le _ _) ?_
    rw [← Nat.div_div_eq_div_mul]
    have hlog : n / d < 2 ^ ((n / d).log2 + 1) := Nat.lt_log2_self
    have hpow : 2 ^ ((n / d).log2 + 1) ≤ spacing (n / d) * 2 ^ 53 := by
      rw [spacing, Nat.pow_eq, ← Nat.pow_add]
      exact Nat.pow_le_pow_right (by decide) (by omega)
    exact Nat.div_lt_of_lt_mul (Nat.lt_of_lt_of_le hlog hpow)
  simp only [roundUnits]
  generalize roundDiv n (d * spacing (n / d)) = m at hm
  simp only [spacing, Nat.pow_eq]
  generalize (n / d).log2 - 52 = k
  rcases Nat.lt_or_eq_of_le hm with hlt | rfl
  · refine Nat.dvd_trans ?_ (Nat.dvd_mul_left (2 ^ k) m)
    refine Nat.pow_dvd_pow 2 ?_
    by_cases hz : m * 2 ^ k = 0
    · simp [hz]
    · have hbound : m * 2 ^ k < 2 ^ (53 + k) := by
        rw [Nat.pow_add]
        exact Nat.mul_lt_mul_of_pos_right hlt (Nat.two_pow_pos k)
      have := (Nat.log2_lt hz).2 hbound
      omega
  · rw [← Nat.pow_add, Nat.log2_two_pow]
    exact Nat.pow_dvd_pow 2 (by omega)

theorem representable_roundUnits {n d : Nat} (h : roundUnits n d < unitBound) :
    Representable (roundUnits n d) := ⟨h, spacing_roundUnits_dvd n d⟩

namespace Binary64

/-- The double nearest to `n / d` units with the given sign; infinite if that is too large. -/
def ofQuotient (negative : Bool) (n d : Nat) : Binary64 :=
  if h : roundUnits n d < unitBound then finite negative (roundUnits n d) (representable_roundUnits h)
  else infinite negative

/-- Zero with a sign. -/
def zero (negative : Bool) : Binary64 := finite negative 0 representable_zero

/-- The number, unless it is infinite. -/
def bounded? : Binary64 → Option Binary64
  | infinite _ => none
  | x => some x

/-- The double nearest to a whole number, if that is finite. -/
def ofInt? (z : Int) : Option Binary64 :=
  (ofQuotient (z < 0) (z.natAbs * unitsPerOne) 1).bounded?

/-- The double nearest to a natural number; infinite if that is too large. -/
def ofNat (n : Nat) : Binary64 := ofQuotient false (n * unitsPerOne) 1

/-- The whole number that a double is, if it is one. -/
def whole? : Binary64 → Option Int
  | finite negative units _ =>
    if units % unitsPerOne = 0 then
      let n : Int := (units / unitsPerOne : Nat)
      some (if negative then -n else n)
    else none
  | _ => none

/-! ## Order -/

/-- A whole number of units with a sign. -/
def signed (negative : Bool) (units : Nat) : Int := if negative then -units else units

/-- The place of a number in the order, in units; infinities lie at the bound of the format, and
what is not a number has no place. -/
def rank : Binary64 → Option Int
  | nan => none
  | infinite negative => some (signed negative unitBound)
  | finite negative units _ => some (signed negative units)

/-- Two numbers with the same place. The zeros are equal, and nothing equals `nan`. -/
def equal (a b : Binary64) : Bool :=
  match a.rank, b.rank with
  | some x, some y => x == y
  | _, _ => false

/-- The same number. Unlike under `equal`, `nan` is the same as itself. -/
def same (a b : Binary64) : Bool := a.rank == b.rank

/-- The first number comes before the second. -/
def below (a b : Binary64) : Bool :=
  match a.rank, b.rank with
  | some x, some y => x < y
  | _, _ => false

/-- The first number does not come after the second. -/
def atMost (a b : Binary64) : Bool :=
  match a.rank, b.rank with
  | some x, some y => x ≤ y
  | _, _ => false

/-- The number reaches a whole number of any size, compared exactly. -/
def reaches (a : Binary64) (z : Int) : Bool :=
  match a with
  | nan => false
  | infinite negative => !negative
  | finite negative units _ => z * unitsPerOne ≤ signed negative units

/-- Not a number? -/
def isNaN : Binary64 → Bool
  | nan => true
  | _ => false

/-- Neither infinite nor `nan`? -/
def isFinite : Binary64 → Bool
  | finite .. => true
  | _ => false

theorem equal_comm (a b : Binary64) : a.equal b = b.equal a := by
  simp only [equal]
  cases a.rank <;> cases b.rank <;> simp [Bool.beq_comm]

theorem equal_trans {a b c : Binary64} (hab : a.equal b = true) (hbc : b.equal c = true) :
    a.equal c = true := by
  simp only [equal] at *
  cases ha : a.rank <;> cases hb : b.rank <;> cases hc : c.rank <;> simp_all

/-- Equal numbers have one place in the order, and only `nan` has none. -/
theorem equal_iff (a b : Binary64) : a.equal b = true ↔ a.rank = b.rank ∧ a.isNaN = false := by
  cases a <;> cases b <;> simp [equal, rank, isNaN]

theorem isNaN_eq_isNone_rank (a : Binary64) : a.isNaN = a.rank.isNone := by cases a <;> rfl

theorem same_iff (a b : Binary64) : a.same b = true ↔ a.rank = b.rank := by simp [same]

theorem equal_self_iff (a : Binary64) : a.equal a = !a.isNaN := by
  cases a <;> simp [equal, rank, isNaN]

/-! ## Arithmetic -/

/-- The number with the other sign. -/
def neg : Binary64 → Binary64
  | nan => nan
  | infinite negative => infinite !negative
  | finite negative units h => finite (!negative) units h

/-- The sum, rounded. An exact zero is negative only if both summands are. -/
def add : Binary64 → Binary64 → Binary64
  | nan, _ => nan
  | _, nan => nan
  | infinite s, infinite t => if s = t then infinite s else nan
  | infinite s, finite .. => infinite s
  | finite .., infinite t => infinite t
  | finite s m _, finite t n _ =>
    let sum := signed s m + signed t n
    if sum = 0 then zero (s && t) else ofQuotient (sum < 0) sum.natAbs 1

/-- The difference, rounded. -/
def sub (a b : Binary64) : Binary64 := a.add b.neg

/-- The product, rounded. It is negative if just one factor is. -/
def mul : Binary64 → Binary64 → Binary64
  | nan, _ => nan
  | _, nan => nan
  | infinite s, infinite t => infinite (s != t)
  | infinite s, finite t n _ => if n = 0 then nan else infinite (s != t)
  | finite s m _, infinite t => if m = 0 then nan else infinite (s != t)
  | finite s m _, finite t n _ => ofQuotient (s != t) (m * n) unitsPerOne

/-- The quotient by a positive whole number, rounded. -/
def divNat : Binary64 → Nat → Binary64
  | nan, _ => nan
  | infinite s, _ => infinite s
  | finite s m _, n => ofQuotient s m n

/-- The plain sum from left to right, starting at zero. Each addition is rounded, without
compensation for what that loses. -/
def sum (xs : List Binary64) : Binary64 := xs.foldl add (zero false)

end Binary64
end TagReasoner
