import TagReasoner.Binary64.Decimal
import TagReasoner.Proofs.Binary64.Rounding
import Mathlib.Algebra.Order.Field.Power
import Mathlib.Algebra.Order.Field.Rat
import Mathlib.Algebra.Order.Floor.Semifield
import Mathlib.Data.Nat.Log
import Mathlib.Data.Rat.Floor
import Mathlib.Tactic.FieldSimp
import Mathlib.Tactic.Linarith
import Mathlib.Tactic.NormNum.GCD
import Mathlib.Tactic.Positivity
import Mathlib.Tactic.Ring

/-!
# Significant digits

A positive number has a leading place, the largest power of ten that is not above it. Rounding to a
count of significant digits takes the nearest number that ends so many places below, and of two
equally near the even one (`RoundedTo`), so there is only one way to round (`RoundedTo.unique`).
`significant` does that, and writes a number that has been rounded up to the next power of ten one
place higher (`exists_roundedTo`). How high the leading digit stands afterwards can be told from the
number itself (`exponent_significant_lt_iff`).

What double a decimal becomes depends on nothing but the rational number that it denotes
(`ofDecimal_congr`), so zeros at its end and the place of its point make no difference.
-/

namespace TagReasoner

/-! ## The nearest whole number -/

/-- No whole number is nearer to `y` than `c`, which is even if `y` lies halfway. -/
structure Nearest (y : ℚ) (c : Nat) : Prop where
  near : |y - c| ≤ 1 / 2
  even : |y - c| = 1 / 2 → c % 2 = 0

namespace Nearest

variable {y : ℚ} {c c' m : Nat}

/-- Halfway below an even number is rounded up to it. -/
theorem lt_iff (h : Nearest y c) (hm : m % 2 = 0) : c < m ↔ y < m - 1 / 2 := by
  obtain ⟨hlow, hhigh⟩ := abs_le.mp h.near
  constructor
  · intro hlt
    have hle : (c : ℚ) + 1 ≤ m := by exact_mod_cast hlt
    refine lt_of_le_of_ne (by linarith) fun heq => ?_
    -- the number below `m` is odd, so it is not what lies halfway is rounded to
    have hself : (c : ℚ) + 1 = m := by linarith
    have htie : |y - c| = 1 / 2 := by
      rw [abs_of_nonneg] <;> linarith
    have := h.even htie
    have : c + 1 = m := by exact_mod_cast hself
    omega
  · intro hlt
    have : (c : ℚ) < m := by linarith
    exact_mod_cast this

theorem unique (h : Nearest y c) (h' : Nearest y c') : c = c' := by
  by_contra hne
  wlog hlt : c < c' generalizing c c'
  · exact this h' h (Ne.symm hne) (by omega)
  obtain ⟨hlow, hhigh⟩ := abs_le.mp h.near
  obtain ⟨hlow', hhigh'⟩ := abs_le.mp h'.near
  have hle : (c : ℚ) + 1 ≤ c' := by exact_mod_cast hlt
  -- two numbers that are both nearest are neighbours, and `y` is halfway between them
  have hnext : c + 1 = c' := by
    have : (c : ℚ) + 1 = c' := by linarith
    exact_mod_cast this
  have heven := h.even (by rw [abs_of_nonneg] <;> linarith)
  have heven' := h'.even (by rw [abs_of_nonpos] <;> linarith)
  omega

end Nearest

section RoundDiv

variable {n d n' d' : Nat}

theorem cast_div_eq (n : Nat) (hd : 0 < d) : (n : ℚ) / d = (n / d : Nat) + (n % d : Nat) / d := by
  have hd' : (d : ℚ) ≠ 0 := Nat.cast_ne_zero.mpr hd.ne'
  rw [div_eq_iff hd', add_mul, div_mul_cancel₀ _ hd']
  exact_mod_cast (Nat.div_add_mod' n d).symm

theorem nearest_roundDiv (n : Nat) (hd : 0 < d) : Nearest ((n : ℚ) / d) (roundDiv n d) := by
  have hd' : (0 : ℚ) < d := Nat.cast_pos.mpr hd
  rw [cast_div_eq n hd, roundDiv]
  generalize n / d = q
  have hlt : n % d < d := Nat.mod_lt n hd
  generalize n % d = r at hlt
  have hrest : (0 : ℚ) ≤ r / d := by positivity
  split
  next hbelow =>
    have hhalf : (r : ℚ) / d < 1 / 2 := by
      rw [div_lt_iff₀ hd']
      have : (2 * r : ℚ) < d := by exact_mod_cast hbelow
      linarith
    have hdistance : |(q : ℚ) + r / d - q| = r / d := by
      rw [add_sub_cancel_left, abs_of_nonneg hrest]
    exact ⟨by rw [hdistance]; exact hhalf.le, fun h => absurd (hdistance.symm.trans h) hhalf.ne⟩
  next hbelow =>
    split
    next habove =>
      have hhalf : 1 / 2 < (r : ℚ) / d := by
        rw [lt_div_iff₀ hd']
        have : (d : ℚ) < 2 * r := by exact_mod_cast habove
        linarith
      have hone : (r : ℚ) / d < 1 := by
        rw [div_lt_one hd']
        exact_mod_cast hlt
      have hdistance : |(q : ℚ) + r / d - (q + 1 : Nat)| = 1 - r / d := by
        rw [Nat.cast_add, Nat.cast_one, add_sub_add_left_eq_sub, abs_of_nonpos (by linarith)]
        ring
      exact ⟨by linarith, fun h => by linarith⟩
    next habove =>
      have htie : (r : ℚ) / d = 1 / 2 := by
        have : (2 * r : ℚ) = d := by exact_mod_cast (by omega : 2 * r = d)
        rw [div_eq_iff hd'.ne']
        linarith
      rw [htie]
      rcases Nat.mod_two_eq_zero_or_one q with heven | hodd
      · rw [heven, Nat.add_zero]
        exact ⟨by rw [add_sub_cancel_left, abs_of_nonneg (by norm_num)], fun _ => heven⟩
      · rw [hodd]
        refine ⟨?_, fun _ => by omega⟩
        rw [Nat.cast_add, Nat.cast_one, add_sub_add_left_eq_sub, abs_of_nonpos] <;> norm_num

theorem roundDiv_congr (hd : 0 < d) (hd' : 0 < d') (h : (n : ℚ) / d = n' / d') :
    roundDiv n d = roundDiv n' d' :=
  (nearest_roundDiv n hd).unique (h ▸ nearest_roundDiv n' hd')

theorem roundUnits_congr (hd : 0 < d) (hd' : 0 < d') (h : (n : ℚ) / d = n' / d') :
    roundUnits n d = roundUnits n' d' := by
  have hfloor : n / d = n' / d' := by
    rw [← Nat.floor_div_eq_div (K := ℚ) n d, h, Nat.floor_div_eq_div]
  rw [roundUnits, roundUnits, hfloor]
  have hs := spacing_pos (n' / d')
  refine congrArg (· * _) (roundDiv_congr (Nat.mul_pos hd hs) (Nat.mul_pos hd' hs) ?_)
  rw [Nat.cast_mul, Nat.cast_mul, div_mul_eq_div_div, div_mul_eq_div_div, h]

end RoundDiv

/-! ## Decimal logarithms -/

theorem decimalLog_eq_log (n : Nat) : decimalLog n = Nat.log 10 n := by
  induction n using Nat.strongRecOn with
  | ind n ih =>
    rw [decimalLog]
    split
    next h => exact (Nat.log_of_lt h).symm
    next h =>
      have hlog : 0 < Nat.log 10 n := Nat.log_pos (by decide) (by omega)
      rw [ih (n / 10) (by omega), Nat.log_div_base]
      omega

theorem log_mul_ten_pow {n : Nat} (hn : n ≠ 0) (k : Nat) :
    Nat.log 10 (n * 10 ^ k) = Nat.log 10 n + k := by
  induction k with
  | zero => simp
  | succ k ih =>
    rw [pow_succ, ← Nat.mul_assoc, Nat.log_mul_base (by decide), ih, Nat.add_assoc]
    exact Nat.mul_ne_zero hn (Nat.pow_pos (by decide)).ne'

namespace Binary64

/-! ## The double of a decimal -/

section OfDecimal

variable {n d n' d' c c' : Nat} {e e' : Int}

/-- The double nearest to a quotient depends on the quotient only. -/
theorem ofQuotient_congr (negative : Bool) (hd : 0 < d) (hd' : 0 < d')
    (h : (n : ℚ) / d = n' / d') : ofQuotient negative n d = ofQuotient negative n' d' := by
  simp only [ofQuotient, roundUnits_congr hd hd' h]

/-- A decimal that is neither too large nor too small is a quotient of units. -/
theorem exists_ofDecimal_eq (negative : Bool) (hc : c ≠ 0)
    (hlow : ¬ (Nat.log 10 c : Int) + e < -400) (hhigh : ¬ 400 < (Nat.log 10 c : Int) + e) :
    ∃ n d : Nat, 0 < d ∧ (n : ℚ) / d = c * 10 ^ e * unitsPerOne ∧
      ofDecimal negative c e = ofQuotient negative n d := by
  have hinside : ¬ (decide (c = 0) || decide ((Nat.log 10 c : Int) + e < -400)) = true := by
    simp [hc, hlow]
  simp only [ofDecimal, decimalLog_eq_log]
  rw [if_neg hinside, if_neg hhigh]
  -- a name keeps the casts below from computing the number
  generalize unitsPerOne = one
  split
  next he =>
    obtain ⟨k, rfl⟩ := Int.eq_ofNat_of_zero_le he
    refine ⟨c * 10 ^ k * one, 1, Nat.one_pos, ?_, rfl⟩
    rw [zpow_natCast]
    push_cast
    ring
  next he =>
    obtain ⟨k, hk⟩ := Int.eq_ofNat_of_zero_le (show 0 ≤ -e by omega)
    refine ⟨c * one, 10 ^ k, Nat.pow_pos (by decide), ?_, by rw [hk]; rfl⟩
    rw [show e = -(k : Int) by omega, zpow_neg, zpow_natCast]
    push_cast
    ring

theorem ofDecimal_zero (negative : Bool) (e : Int) : ofDecimal negative 0 e = zero negative := rfl

/-- The double of a decimal depends on its value only. -/
theorem ofDecimal_congr (negative : Bool) (h : (c : ℚ) * 10 ^ e = c' * 10 ^ e') :
    ofDecimal negative c e = ofDecimal negative c' e' := by
  wlog hle : e ≤ e' generalizing c c' e e'
  · exact (this h.symm (by omega)).symm
  obtain ⟨k, rfl⟩ : ∃ k : Nat, e' = e + k := ⟨(e' - e).toNat, by omega⟩
  have hcoefficient : c = c' * 10 ^ k := by
    rw [zpow_add₀ (by norm_num), zpow_natCast, mul_comm ((10 : ℚ) ^ e), ← mul_assoc] at h
    exact_mod_cast mul_right_cancel₀ (by positivity) h
  by_cases hc' : c' = 0
  · rw [hcoefficient, hc', Nat.zero_mul, ofDecimal_zero, ofDecimal_zero]
  have hc : c ≠ 0 := hcoefficient ▸ Nat.mul_ne_zero hc' (Nat.pow_pos (by decide)).ne'
  have htop : (Nat.log 10 c : Int) + e = Nat.log 10 c' + (e + k) := by
    rw [hcoefficient, log_mul_ten_pow hc', Nat.cast_add]
    ring
  by_cases hlow : (Nat.log 10 c : Int) + e < -400
  · simp only [ofDecimal, decimalLog_eq_log, ← htop, decide_eq_true hlow, Bool.or_true, if_true]
  by_cases hhigh : 400 < (Nat.log 10 c : Int) + e
  · simp only [ofDecimal, decimalLog_eq_log, ← htop, decide_eq_false hlow, decide_eq_false hc,
      decide_eq_false hc', if_pos hhigh, Bool.or_false, Bool.false_eq_true, if_false]
  obtain ⟨n, d, hd, hratio, hdecimal⟩ := exists_ofDecimal_eq negative hc hlow hhigh
  obtain ⟨n', d', hd', hratio', hdecimal'⟩ :=
    exists_ofDecimal_eq negative hc' (htop ▸ hlow) (htop ▸ hhigh)
  rw [hdecimal, hdecimal']
  exact ofQuotient_congr negative hd hd' (by rw [hratio, hratio', h])

end OfDecimal

/-! ## The leading place -/

/-- Numerator and denominator of a scaled number are its quotient. -/
theorem scaled_eq (units : Nat) (s : Int) :
    0 < (scaled units s).2 ∧
      ((scaled units s).1 : ℚ) / (scaled units s).2 = units / unitsPerOne * 10 ^ s := by
  have hone := unitsPerOne_pos
  rw [scaled]
  generalize unitsPerOne = one at hone ⊢
  split
  next hs =>
    obtain ⟨k, rfl⟩ := Int.eq_ofNat_of_zero_le hs
    refine ⟨hone, ?_⟩
    rw [Int.toNat_natCast, Nat.pow_eq, Nat.cast_mul, Nat.cast_pow, Nat.cast_ofNat, zpow_natCast,
      mul_div_right_comm]
  next hs =>
    obtain ⟨k, hk⟩ := Int.eq_ofNat_of_zero_le (show 0 ≤ -s by omega)
    refine ⟨Nat.mul_pos hone (Nat.pow_pos (by decide)), ?_⟩
    rw [hk, Int.toNat_natCast, Nat.pow_eq, Nat.cast_mul, Nat.cast_pow, Nat.cast_ofNat,
      show s = -(k : Int) by omega, zpow_neg, zpow_natCast, div_mul_eq_div_div,
      div_eq_mul_inv _ (10 ^ k : ℚ)]

/-- The exponent of the leading digit, found at a scale at which no value is below one. -/
theorem exists_decimalExponent_eq (units : Nat) : ∃ k : Nat, unitsPerOne ≤ Nat.pow 10 k ∧
    decimalExponent units = (Nat.log 10 (units * Nat.pow 10 k / unitsPerOne) : Int) - k := by
  refine ⟨leadingShift, by decide +kernel, ?_⟩
  rw [decimalExponent, decimalLog_eq_log]

theorem decimalExponent_spec {units : Nat} (hunits : units ≠ 0) :
    (10 : ℚ) ^ decimalExponent units ≤ units / unitsPerOne ∧
      (units : ℚ) / unitsPerOne < 10 ^ (decimalExponent units + 1) := by
  obtain ⟨k, hk, hexponent⟩ := exists_decimalExponent_eq units
  rw [Nat.pow_eq] at hk hexponent
  rw [hexponent]
  have hone := unitsPerOne_pos
  have hone' : (0 : ℚ) < unitsPerOne := Nat.cast_pos.mpr hone
  have hquotient : units * 10 ^ k / unitsPerOne ≠ 0 :=
    (Nat.div_pos (hk.trans (Nat.le_mul_of_pos_left _ (Nat.pos_of_ne_zero hunits))) hone).ne'
  generalize hL : Nat.log 10 (units * 10 ^ k / unitsPerOne) = L
  have hlow : 10 ^ L * unitsPerOne ≤ units * 10 ^ k := by
    rw [← Nat.le_div_iff_mul_le hone, ← hL]
    exact Nat.pow_log_le_self 10 hquotient
  have hhigh : units * 10 ^ k < 10 ^ (L + 1) * unitsPerOne := by
    rw [← Nat.div_lt_iff_lt_mul hone, ← hL]
    exact Nat.lt_pow_succ_log_self (by decide) _
  have hlow' : (10 : ℚ) ^ L * unitsPerOne ≤ units * 10 ^ k := by exact_mod_cast hlow
  have hhigh' : (units : ℚ) * 10 ^ k < 10 ^ (L + 1) * unitsPerOne := by exact_mod_cast hhigh
  have hpow : (0 : ℚ) < 10 ^ k := by positivity
  constructor
  · rw [zpow_sub₀ (by norm_num), zpow_natCast, zpow_natCast, div_le_div_iff₀ hpow hone']
    exact hlow'
  · rw [show (L : Int) - k + 1 = ((L + 1 : Nat) : Int) - k by push_cast; ring,
      zpow_sub₀ (by norm_num), zpow_natCast, zpow_natCast, div_lt_div_iff₀ hone' hpow]
    exact hhigh'

/-! ## Rounding to significant digits -/

/-- In `count` significant digits `x` is `c · 10^(e - (count - 1))`: the leading digit of `x` stands
at `10^e`, and `c` is what is nearest to `x` on the places that are left. -/
structure RoundedTo (count : Nat) (x : ℚ) (c : Nat) (e : Int) : Prop where
  leading : x ≠ 0 → (10 : ℚ) ^ e ≤ x ∧ x < 10 ^ (e + 1)
  nearest : Nearest (x * 10 ^ ((count : Int) - 1 - e)) c

theorem roundedTo_zero (count : Nat) : RoundedTo count 0 0 0 where
  leading h := absurd rfl h
  nearest := ⟨by norm_num, fun _ => rfl⟩

/-- What is rounded up to `10^e` in `count` digits starts halfway between `10^e` and the last
number with `count` digits below it. -/
def carryBound (count : Nat) (e : Int) : ℚ := (10 ^ count - 1 / 2) * 10 ^ (e - count)

section CarryBound

variable {count : Nat} {e e' : Int}

theorem carryBound_lt (count : Nat) (e : Int) : carryBound count e < 10 ^ e := by
  have hpow : (0 : ℚ) < 10 ^ (e - count) := by positivity
  have hsplit : (10 : ℚ) ^ e = 10 ^ count * 10 ^ (e - count) := by
    rw [← zpow_natCast, ← zpow_add₀ (by norm_num), add_sub_cancel]
  rw [carryBound, hsplit]
  exact mul_lt_mul_of_pos_right (by linarith) hpow

theorem le_carryBound (hcount : 0 < count) (e : Int) : (10 : ℚ) ^ (e - 1) ≤ carryBound count e := by
  obtain ⟨k, rfl⟩ := Nat.exists_eq_succ_of_ne_zero hcount.ne'
  have hone : (1 : ℚ) ≤ 10 ^ k := one_le_pow₀ (by norm_num)
  have hsplit : (10 : ℚ) ^ (e - 1) = 10 ^ k * 10 ^ (e - (k + 1 : Nat)) := by
    rw [← zpow_natCast, ← zpow_add₀ (by norm_num)]
    congr 1
    push_cast
    ring
  rw [carryBound, hsplit, Nat.succ_eq_add_one, pow_succ]
  exact mul_le_mul_of_nonneg_right (by linarith) (by positivity)

theorem carryBound_mono (count : Nat) (h : e ≤ e') :
    carryBound count e ≤ carryBound count e' := by
  have hone : (1 : ℚ) ≤ 10 ^ count := one_le_pow₀ (by norm_num)
  refine mul_le_mul_of_nonneg_left ?_ (by linarith)
  exact zpow_le_zpow_right₀ (by norm_num) (by omega)

end CarryBound

namespace RoundedTo

variable {count c c' : Nat} {x : ℚ} {e e' : Int}

/-- A number other than zero is rounded in one way only. -/
theorem unique (h : RoundedTo count x c e) (h' : RoundedTo count x c' e') (hx : x ≠ 0) :
    c = c' ∧ e = e' := by
  have hexponent : ∀ {a b : Int}, (10 : ℚ) ^ a ≤ x → x < 10 ^ (b + 1) → a ≤ b := by
    intro a b ha hb
    have := (zpow_lt_zpow_iff_right₀ (show (1 : ℚ) < 10 by norm_num)).mp (ha.trans_lt hb)
    omega
  obtain ⟨hlow, hhigh⟩ := h.leading hx
  obtain ⟨hlow', hhigh'⟩ := h'.leading hx
  obtain rfl : e = e' := Int.le_antisymm (hexponent hlow hhigh') (hexponent hlow' hhigh)
  exact ⟨h.nearest.unique h'.nearest, rfl⟩

/-- There are `count` digits, unless they are carried to one more. -/
theorem coefficient_mem (h : RoundedTo count x c e) (hcount : 0 < count) (hx : x ≠ 0) :
    10 ^ (count - 1) ≤ c ∧ c ≤ 10 ^ count := by
  obtain ⟨k, rfl⟩ := Nat.exists_eq_succ_of_ne_zero hcount.ne'
  obtain ⟨hlow, hhigh⟩ := h.leading hx
  obtain ⟨hbelow, habove⟩ := abs_le.mp h.nearest.near
  have hplaces : ((k + 1 : Nat) : Int) - 1 - e = (k : Int) - e := by push_cast; ring
  rw [hplaces] at hbelow habove
  have hpow : (0 : ℚ) < 10 ^ ((k : Int) - e) := by positivity
  have hlow' : (10 : ℚ) ^ k ≤ x * 10 ^ ((k : Int) - e) := by
    refine le_trans (le_of_eq ?_) (mul_le_mul_of_nonneg_right hlow hpow.le)
    rw [← zpow_natCast, ← zpow_add₀ (by norm_num), add_sub_cancel]
  have hhigh' : x * 10 ^ ((k : Int) - e) < 10 ^ (k + 1) := by
    refine lt_of_lt_of_eq (mul_lt_mul_of_pos_right hhigh hpow) ?_
    rw [← zpow_natCast, ← zpow_add₀ (by norm_num)]
    congr 1
    push_cast
    ring
  rw [Nat.succ_eq_add_one, Nat.add_sub_cancel]
  constructor
  · have : ((10 ^ k : Nat) : ℚ) < (c + 1 : Nat) := by push_cast; linarith
    exact Nat.lt_succ_iff.mp (by exact_mod_cast this)
  · have : (c : ℚ) < ((10 ^ (k + 1) + 1 : Nat) : ℚ) := by push_cast; linarith
    exact Nat.lt_succ_iff.mp (by exact_mod_cast this)

/-- The digits are carried to the next power of ten from halfway below it on. -/
theorem coefficient_lt_iff (h : RoundedTo count x c e) (hcount : 0 < count) :
    c < 10 ^ count ↔ x < carryBound count (e + 1) := by
  have heven : 10 ^ count % 2 = 0 :=
    Nat.mod_eq_zero_of_dvd (dvd_pow (by decide : 2 ∣ 10) hcount.ne')
  have hpow : (0 : ℚ) < 10 ^ ((count : Int) - 1 - e) := by positivity
  have hinverse : (10 : ℚ) ^ (e + 1 - count) = (10 ^ ((count : Int) - 1 - e))⁻¹ := by
    rw [← zpow_neg]
    congr 1
    ring
  rw [h.nearest.lt_iff heven, carryBound, hinverse, ← div_eq_mul_inv, lt_div_iff₀ hpow]
  push_cast
  rfl

end RoundedTo

section Significant

variable {count units : Nat}

theorem value_pos (hunits : units ≠ 0) : (0 : ℚ) < units / unitsPerOne :=
  div_pos (Nat.cast_pos.mpr (Nat.pos_of_ne_zero hunits)) (Nat.cast_pos.mpr unitsPerOne_pos)

/-- The digits of a number are those it is rounded to, the carried ones one place higher. -/
theorem exists_roundedTo (hcount : 0 < count) (hunits : units ≠ 0) :
    ∃ c e, RoundedTo count (units / unitsPerOne) c e ∧ significant count units =
      if c < 10 ^ count then ⟨c, e⟩ else ⟨10 ^ (count - 1), e + 1⟩ := by
  obtain ⟨hden, hquotient⟩ := scaled_eq units ((count : Int) - 1 - decimalExponent units)
  generalize hscaled : scaled units ((count : Int) - 1 - decimalExponent units) = q
    at hden hquotient
  have hrounded :
      RoundedTo count (units / unitsPerOne) (roundDiv q.1 q.2) (decimalExponent units) :=
    ⟨fun _ => decimalExponent_spec hunits, hquotient ▸ nearest_roundDiv q.1 hden⟩
  have hle := (hrounded.coefficient_mem hcount (value_pos hunits).ne').2
  refine ⟨_, _, hrounded, ?_⟩
  simp only [significant, hscaled, Nat.pow_eq]
  split
  next hcarry => rw [if_neg hcarry.not_lt]
  next hcarry => rw [if_pos (lt_of_le_of_ne hle hcarry)]

/-- Carrying moves the digits and keeps the number. -/
theorem exists_roundedTo_eq (hcount : 0 < count) (hunits : units ≠ 0) :
    ∃ c e, RoundedTo count (units / unitsPerOne) c e ∧
      ((significant count units).coefficient : ℚ) * 10 ^ (significant count units).exponent =
        c * 10 ^ e := by
  obtain ⟨c, e, hrounded, hdigits⟩ := exists_roundedTo hcount hunits
  refine ⟨c, e, hrounded, ?_⟩
  rw [hdigits]
  split
  next => rfl
  next hcarry =>
    obtain ⟨k, rfl⟩ := Nat.exists_eq_succ_of_ne_zero hcount.ne'
    have hc : c = 10 ^ (k + 1) :=
      le_antisymm (hrounded.coefficient_mem hcount (value_pos hunits).ne').2 (not_lt.mp hcarry)
    rw [hc, Nat.succ_eq_add_one, Nat.add_sub_cancel, zpow_add₀ (by norm_num)]
    push_cast
    ring

theorem coefficient_significant_mem (hcount : 0 < count) (hunits : units ≠ 0) :
    10 ^ (count - 1) ≤ (significant count units).coefficient ∧
      (significant count units).coefficient < 10 ^ count := by
  obtain ⟨c, e, hrounded, hdigits⟩ := exists_roundedTo hcount hunits
  rw [hdigits]
  split
  next hcarry => exact ⟨(hrounded.coefficient_mem hcount (value_pos hunits).ne').1, hcarry⟩
  next => exact ⟨le_rfl, Nat.pow_lt_pow_right (by decide) (Nat.sub_lt hcount Nat.one_pos)⟩

theorem coefficient_significant_pos (hcount : 0 < count) (hunits : units ≠ 0) :
    0 < (significant count units).coefficient :=
  (Nat.pow_pos (by decide)).trans_le (coefficient_significant_mem hcount hunits).1

/-- The leading digit stands below a place just for the numbers below the carry to that place. -/
theorem exponent_significant_lt_iff (hcount : 0 < count) (hunits : units ≠ 0) (E : Int) :
    (significant count units).exponent < E ↔ (units : ℚ) / unitsPerOne < carryBound count E := by
  obtain ⟨c, e, hrounded, hdigits⟩ := exists_roundedTo hcount hunits
  have hcarry := hrounded.coefficient_lt_iff hcount
  obtain ⟨hlow, hhigh⟩ := hrounded.leading (value_pos hunits).ne'
  rw [hdigits]
  generalize (units : ℚ) / unitsPerOne = x at hcarry hlow hhigh
  split
  next hc =>
    constructor
    · intro he
      exact (hcarry.mp hc).trans_le (carryBound_mono count he)
    · intro hx
      by_contra hE
      have hpow : (10 : ℚ) ^ E ≤ 10 ^ e := zpow_le_zpow_right₀ (by norm_num) (not_lt.mp hE)
      exact absurd hx (not_lt.mpr ((carryBound_lt count E).le.trans (hpow.trans hlow)))
  next hc =>
    have hx := not_lt.mp (mt hcarry.mpr hc)
    constructor
    · intro he
      have hpow : (10 : ℚ) ^ (e + 1) ≤ 10 ^ (E - 1) :=
        zpow_le_zpow_right₀ (by norm_num) (Int.le_sub_one_of_lt he)
      exact hhigh.trans_le (hpow.trans (le_carryBound hcount E))
    · intro hE
      by_contra he
      exact absurd hE (not_lt.mpr ((carryBound_mono count (not_lt.mp he)).trans hx))

end Significant

end Binary64
end TagReasoner
