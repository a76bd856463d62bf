import TagReasoner.Binary64.Basic
import Mathlib.Algebra.Order.Ring.Nat

/-!
# Rounding

What a number of units is rounded to: itself if it is representable (`roundUnits_eq_self`), and never
below a representable number that it was not below itself (`le_roundUnits`). Whole numbers below
`2⁵³` are representable, so small whole numbers become doubles without loss
(`Binary64.ofInt?_of_lt`).
-/

namespace TagReasoner

variable {m n d : Nat}

/-- One is a power of two, far enough below the bound of the format for any significand. -/
theorem exists_unitsPerOne_eq : ∃ p b, unitsPerOne = 2 ^ p ∧ unitBound = 2 ^ b ∧ 53 + p ≤ b :=
  ⟨1074, 2098, by decide +kernel⟩

theorem unitsPerOne_pos : 0 < unitsPerOne := by
  obtain ⟨p, -, hp, -⟩ := exists_unitsPerOne_eq
  rw [hp]
  exact Nat.two_pow_pos p

theorem spacing_pos (n : Nat) : 0 < spacing n := Nat.pow_pos (by decide)

theorem roundDiv_mul_right (n : Nat) (hd : 0 < d) : roundDiv (n * d) d = n := by
  simp only [roundDiv, Nat.mul_mod_left, Nat.mul_div_cancel n hd]
  rw [if_pos (by omega)]

theorem div_le_roundDiv (n d : Nat) : n / d ≤ roundDiv n d := by
  simp only [roundDiv]
  split
  · omega
  · split <;> omega

theorem roundUnits_eq_self (h : spacing m ∣ m) : roundUnits m 1 = m := by
  obtain ⟨k, hk⟩ := h
  have hmul : m = k * spacing m := hk.trans (Nat.mul_comm ..)
  rw [roundUnits, Nat.div_one, Nat.one_mul]
  calc roundDiv m (spacing m) * spacing m
      = roundDiv (k * spacing m) (spacing m) * spacing m := by rw [← hmul]
    _ = k * spacing m := by rw [roundDiv_mul_right k (spacing_pos m)]
    _ = m := hmul.symm

/-- Rounding does not pass a representable number on the way down. -/
theorem le_roundUnits (hm : spacing m ∣ m) (h : m ≤ n / d) : m ≤ roundUnits n d := by
  generalize hq : n / d = q at h
  have hround : q / spacing q * spacing q ≤ roundUnits n d := by
    rw [roundUnits, hq]
    refine Nat.mul_le_mul_right _ (le_trans (le_of_eq ?_) (div_le_roundDiv ..))
    rw [← Nat.div_div_eq_div_mul, hq]
  refine le_trans ?_ hround
  by_cases hlog : m.log2 = q.log2
  · -- Both lie on one grid.
    have hgrid : spacing q ∣ m := by rwa [spacing, ← hlog]
    exact (Nat.div_mul_cancel hgrid).symm.le.trans
      (Nat.mul_le_mul_right _ (Nat.div_le_div_right h))
  · -- A power of two, on the grid of the larger, lies between.
    have hq0 : q ≠ 0 := by
      rintro rfl
      exact hlog (congrArg Nat.log2 (Nat.le_zero.mp h))
    have hbetween : m ≤ 2 ^ q.log2 := by
      by_cases hm0 : m = 0
      · exact hm0 ▸ Nat.zero_le _
      · have hle : m.log2 ≤ q.log2 := (Nat.le_log2 hq0).mpr ((Nat.log2_self_le hm0).trans h)
        exact ((Nat.log2_lt hm0).mp (lt_of_le_of_ne hle hlog)).le
    have hgrid : spacing q ∣ 2 ^ q.log2 := by
      rw [spacing, Nat.pow_eq]
      exact pow_dvd_pow 2 (Nat.sub_le ..)
    calc m ≤ 2 ^ q.log2 := hbetween
      _ = 2 ^ q.log2 / spacing q * spacing q := (Nat.div_mul_cancel hgrid).symm
      _ ≤ q / spacing q * spacing q :=
        Nat.mul_le_mul_right _ (Nat.div_le_div_right (Nat.log2_self_le hq0))

/-! ## Whole numbers -/

/-- Whole numbers that fit a significand are values of the format. -/
theorem representable_whole (h : n < 2 ^ 53) : Representable (n * unitsPerOne) := by
  obtain ⟨p, b, hp, hb, hpb⟩ := exists_unitsPerOne_eq
  have hlt : n * 2 ^ p < 2 ^ (53 + p) := by
    rw [pow_add]
    exact Nat.mul_lt_mul_of_pos_right h (Nat.two_pow_pos p)
  rw [hp]
  refine ⟨?_, ?_⟩
  · rw [hb]
    exact hlt.trans_le (Nat.pow_le_pow_right (by decide) hpb)
  · by_cases hn : n = 0
    · rw [hn, Nat.zero_mul]
      exact Nat.dvd_zero _
    · have hlog := (Nat.log2_lt (Nat.mul_ne_zero hn (Nat.two_pow_pos p).ne')).mpr hlt
      refine Dvd.dvd.mul_left ?_ n
      rw [spacing, Nat.pow_eq]
      exact pow_dvd_pow 2 (by omega)

namespace Binary64

theorem ofQuotient_of_lt {negative : Bool} (h : roundUnits n d < unitBound) :
    ofQuotient negative n d = .finite negative (roundUnits n d) (representable_roundUnits h) :=
  dif_pos h

theorem ofQuotient_eq_self (negative : Bool) (h : Representable n) :
    ofQuotient negative n 1 = .finite negative n h := by
  have hself := roundUnits_eq_self h.2
  rw [ofQuotient_of_lt (hself.symm ▸ h.1), finite.injEq]
  exact ⟨rfl, hself⟩

/-- The double that a small whole number becomes. -/
theorem ofInt?_of_lt {z : Int} (h : z.natAbs < 2 ^ 53) :
    ofInt? z = some (.finite (z < 0) (z.natAbs * unitsPerOne) (representable_whole h)) := by
  rw [ofInt?, ofQuotient_eq_self _ (representable_whole h), bounded?]
  intro negative hinfinite
  cases hinfinite

/-- A whole number becomes a double that is at least as large as any small one below it. -/
theorem le_of_ofInt? {z : Int} {x : Binary64} (h : ofInt? z = some x) (hm : m < 2 ^ 53)
    (hle : m ≤ z.natAbs) :
    ∃ units hunits, x = .finite (z < 0) units hunits ∧ m * unitsPerOne ≤ units := by
  have hround : m * unitsPerOne ≤ roundUnits (z.natAbs * unitsPerOne) 1 := by
    refine le_roundUnits (representable_whole hm).2 ?_
    rw [Nat.div_one]
    exact Nat.mul_le_mul_right _ hle
  rw [ofInt?] at h
  by_cases hbound : roundUnits (z.natAbs * unitsPerOne) 1 < unitBound
  · rw [ofQuotient_of_lt hbound] at h
    exact ⟨_, _, (Option.some.inj h).symm, hround⟩
  · rw [ofQuotient, dif_neg hbound] at h
    cases h

theorem signed_eq_zero_iff {negative : Bool} {m : Nat} : signed negative m = 0 ↔ m = 0 := by
  cases negative <;> simp [signed]

/-- A zero of either sign adds nothing. -/
theorem add_of_equal_zero {x : Binary64} (hx : x.equal (.zero false) = true) (hn : n ≠ 0)
    (h : Representable n) : x.add (.finite false n h) = .finite false n h := by
  obtain ⟨hrank, hnan⟩ := (equal_iff x (.zero false)).mp hx
  cases x with
  | nan => cases hnan
  | infinite negative =>
    have hzero : signed negative unitBound = 0 := Option.some.inj hrank
    exact absurd (signed_eq_zero_iff.mp hzero) unitBound_pos.ne'
  | finite negative units hunits =>
    have hzero : signed negative units = 0 := Option.some.inj hrank
    have hsum : signed negative units + signed false n = n := by
      rw [hzero, signed, if_neg Bool.false_ne_true, Int.zero_add]
    simp only [add, hsum]
    rw [if_neg (by omega), Int.natAbs_natCast, decide_eq_false (by omega), ofQuotient_eq_self]

theorem ofNat_of_lt (h : n < 2 ^ 53) :
    ofNat n = .finite false (n * unitsPerOne) (representable_whole h) :=
  ofQuotient_eq_self false (representable_whole h)

theorem reaches_whole {z : Int} (h : Representable (n * unitsPerOne)) :
    reaches (.finite false (n * unitsPerOne) h) z = true ↔ z ≤ n := by
  rw [reaches, decide_eq_true_eq, signed, if_neg Bool.false_ne_true, Int.natCast_mul]
  exact ⟨fun hle => Int.le_of_mul_le_mul_right hle (Int.natCast_pos.mpr unitsPerOne_pos),
    fun hle => Int.mul_le_mul_of_nonneg_right hle (Int.natCast_nonneg _)⟩

theorem exists_eq_finite_of_equal {x : Binary64} (hm : m < 2 ^ 53)
    (hx : x.equal (.ofNat m) = true) : ∃ negative units h, x = .finite negative units h ∧
      signed negative units = (m * unitsPerOne : Nat) := by
  have hrank : x.rank = some ((m * unitsPerOne : Nat) : Int) := by
    rw [((equal_iff x _).mp hx).1, ofNat_of_lt hm]
    rfl
  cases x with
  | nan => cases hrank
  | infinite negative =>
    have hbound : signed negative unitBound = (m * unitsPerOne : Nat) := Option.some.inj hrank
    have hlt := (representable_whole hm).1
    cases negative
    · have : (unitBound : Int) = (m * unitsPerOne : Nat) := hbound
      omega
    · have : -(unitBound : Int) = (m * unitsPerOne : Nat) := hbound
      have := unitBound_pos
      omega
  | finite negative units h => exact ⟨negative, units, h, rfl, Option.some.inj hrank⟩

theorem whole?_of_equal {x : Binary64} (hm : m < 2 ^ 53) (hx : x.equal (.ofNat m) = true) :
    x.whole? = some (m : Int) := by
  obtain ⟨negative, units, h, rfl, hsigned⟩ := exists_eq_finite_of_equal hm hx
  have hunits : units = m * unitsPerOne ∧ (negative = true → m = 0) := by
    cases negative
    · rw [signed, if_neg Bool.false_ne_true, Int.natCast_inj] at hsigned
      exact ⟨hsigned, nofun⟩
    · rw [signed, if_pos rfl] at hsigned
      have hzero : m * unitsPerOne = 0 := by omega
      have := (Nat.mul_eq_zero.mp hzero).resolve_right unitsPerOne_pos.ne'
      exact ⟨by omega, fun _ => this⟩
  obtain ⟨hunits, hzero⟩ := hunits
  simp only [whole?, hunits, Nat.mul_mod_left, Nat.mul_div_cancel _ unitsPerOne_pos, if_true]
  cases negative
  · rfl
  · rw [hzero rfl]
    rfl

/-- Small whole numbers are added without loss. -/
theorem add_of_equal {x : Binary64} (hx : x.equal (.ofNat m) = true) (hn : n ≠ 0)
    (h : m + n < 2 ^ 53) : x.add (.ofNat n) = .ofNat (m + n) := by
  obtain ⟨negative, units, hunits, rfl, hsigned⟩ := exists_eq_finite_of_equal (by omega) hx
  have hsum : signed negative units + signed false (n * unitsPerOne) =
      ((m + n) * unitsPerOne : Nat) := by
    rw [hsigned, signed, if_neg Bool.false_ne_true, Nat.add_mul, Int.natCast_add]
  have hpos : 0 < (m + n) * unitsPerOne := Nat.mul_pos (by omega) unitsPerOne_pos
  rw [ofNat_of_lt (show n < 2 ^ 53 by omega)]
  simp only [add, hsum]
  rw [if_neg (by omega), Int.natAbs_natCast, decide_eq_false (by omega)]
  rfl

/-- Small natural numbers are added without loss, zeros among them. -/
theorem add_ofNat (h : m + n < 2 ^ 53) : add (.ofNat m) (.ofNat n) = .ofNat (m + n) := by
  have hsum : signed false (m * unitsPerOne) + signed false (n * unitsPerOne) =
      ((m + n) * unitsPerOne : Nat) := by
    rw [signed, signed, if_neg Bool.false_ne_true, if_neg Bool.false_ne_true, Nat.add_mul,
      Int.natCast_add]
  rw [ofNat_of_lt (show m < 2 ^ 53 by omega), ofNat_of_lt (show n < 2 ^ 53 by omega),
    ofNat_of_lt h]
  simp only [add, hsum]
  split
  next hzero =>
    rw [zero, finite.injEq]
    exact ⟨rfl, (Int.natCast_eq_zero.mp hzero).symm⟩
  next =>
    rw [Int.natAbs_natCast, decide_eq_false (by omega), ofQuotient_eq_self]

theorem reaches_ofNat {z : Int} (h : n < 2 ^ 53) : reaches (.ofNat n) z = true ↔ z ≤ n := by
  rw [ofNat_of_lt h]
  exact reaches_whole _

end Binary64
end TagReasoner
