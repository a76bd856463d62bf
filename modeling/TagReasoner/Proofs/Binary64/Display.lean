import TagReasoner.Proofs.Binary64.Significant
import TagReasoner.Proofs.Text.DecimalDigit
import TagReasoner.Binary64.Display
import Mathlib.Data.List.DropRight

/-!
# How doubles are written, and how large they are

Whatever number is written, and in whatever style, a minus sign, digits, a point with digits and an
exponent are all there is (`IsDecimal`); there is a digit in front, since the digits of a positive
number are never all rounded away (`coefficient_significant_pos`).

In the general style a whole number below `10⁶` is written with just its own digits
(`general_of_ofInt?`), and one from there on with an exponent (`mem_general_of_ofInt?`).
-/

namespace TagReasoner

open Text

namespace Binary64

/-! ## Digits -/

theorem exists_trimmedDigits (n : Nat) :
    ∃ k, Text.ofNat n = trimmedDigits n ++ List.replicate k '0' := by
  refine ⟨((Text.ofNat n).rtakeWhile (· == '0')).length, ?_⟩
  have hzeros : (Text.ofNat n).rtakeWhile (· == '0') =
      List.replicate ((Text.ofNat n).rtakeWhile (· == '0')).length '0' :=
    List.eq_replicate_of_mem fun c hc => by simpa using List.mem_rtakeWhile_imp hc
  rw [← hzeros]
  exact List.rdropWhile_append_rtakeWhile.symm

theorem isNumeral_trimmedDigits (n : Nat) : IsNumeral (trimmedDigits n) := by
  obtain ⟨k, hk⟩ := exists_trimmedDigits n
  have hnumeral := isNumeral_ofNat n
  rw [hk] at hnumeral
  exact hnumeral.of_append.1

theorem trimmedDigits_ne_nil {n : Nat} (hn : n ≠ 0) : trimmedDigits n ≠ [] := by
  intro h
  obtain ⟨k, hk⟩ := exists_trimmedDigits n
  apply hn
  rw [← digitsValue_ofNat n, hk, h, List.nil_append, digitsValue_replicate_zero]

theorem trimmedDigits_mul_ten_pow {n : Nat} (hn : n ≠ 0) (k : Nat) :
    trimmedDigits (n * 10 ^ k) = trimmedDigits n := by
  rw [trimmedDigits, trimmedDigits, ofNat_mul_ten_pow hn, List.reverse_append,
    List.reverse_replicate, List.dropWhile_append_of_pos]
  intro c hc
  rw [List.eq_of_mem_replicate hc]
  rfl

/-! ## The shape of a decimal -/

/-- Digits, perhaps with a point and more digits behind. -/
inductive IsMantissa : Text → Prop
  | whole {whole : Text} (ne_nil : whole ≠ []) (numeral : IsNumeral whole) : IsMantissa whole
  | fraction {whole fraction : Text} (ne_nil : whole ≠ []) (numeral : IsNumeral whole)
      (fraction_ne_nil : fraction ≠ []) (fraction_numeral : IsNumeral fraction) :
      IsMantissa (whole ++ '.' :: fraction)

/-- A mantissa, perhaps with a power of ten behind. -/
inductive IsDecimal : Text → Prop
  | positional {mantissa : Text} (h : IsMantissa mantissa) : IsDecimal mantissa
  | scientific {mantissa : Text} (h : IsMantissa mantissa) (e : Int) :
      IsDecimal (mantissa ++ exponentText e)

/-- The digits of an exponent, behind its sign. -/
theorem exponentText_eq (e : Int) : ∃ digits, digits ≠ [] ∧ IsNumeral digits ∧
    exponentText e = 'e' :: (if e < 0 then '-' else '+') :: digits := by
  have hnumeral := isNumeral_ofNat e.natAbs
  rw [exponentText]
  by_cases hshort : (Text.ofNat e.natAbs).length < 2
  · refine ⟨'0' :: Text.ofNat e.natAbs, List.cons_ne_nil _ _, ?_, by simp only [if_pos hshort]⟩
    exact (isNumeral_replicate_zero 1).append hnumeral
  · exact ⟨_, ofNat_ne_nil _, hnumeral, by simp only [if_neg hshort]⟩

theorem IsMantissa.forall_mem {p : Char → Bool} {t : Text} (h : IsMantissa t)
    (hdigit : ∀ d < 10, p (digitChar d) = true) (hpoint : p '.' = true) : ∀ c ∈ t, p c = true := by
  cases h with
  | whole _ hnumeral => exact hnumeral.all hdigit
  | fraction _ hnumeral _ hfraction =>
    rw [List.forall_mem_append, List.forall_mem_cons]
    exact ⟨hnumeral.all hdigit, hpoint, hfraction.all hdigit⟩

/-- The characters of a decimal. -/
theorem IsDecimal.forall_mem {p : Char → Bool} {t : Text} (h : IsDecimal t)
    (hdigit : ∀ d < 10, p (digitChar d) = true)
    (hmark : ∀ c ∈ ['.', 'e', '+', '-'], p c = true) : ∀ c ∈ t, p c = true := by
  cases h with
  | positional hmantissa => exact hmantissa.forall_mem hdigit (hmark '.' (by decide))
  | scientific hmantissa e =>
    obtain ⟨digits, -, hnumeral, htext⟩ := exponentText_eq e
    rw [htext, List.forall_mem_append, List.forall_mem_cons, List.forall_mem_cons]
    refine ⟨hmantissa.forall_mem hdigit (hmark '.' (by decide)), hmark 'e' (by decide), ?_,
      hnumeral.all hdigit⟩
    split
    · exact hmark '-' (by decide)
    · exact hmark '+' (by decide)

theorem isMantissa_positional (style : Style) {digits : Text} (hne : digits ≠ [])
    (hnumeral : IsNumeral digits) (e : Int) : IsMantissa (positional style digits e) := by
  have hzero : IsNumeral ['0'] := isNumeral_replicate_zero 1
  rw [positional]
  split
  next =>
    have hfraction := (isNumeral_replicate_zero (-e - 1).toNat).append hnumeral
    exact .fraction (List.cons_ne_nil _ _) hzero (List.append_ne_nil_of_right_ne_nil _ hne) hfraction
  next =>
    generalize hwidth : e.toNat + 1 = width
    obtain ⟨htake, hdrop⟩ : IsNumeral (digits.take width) ∧ IsNumeral (digits.drop width) :=
      IsNumeral.of_append (by rwa [List.take_append_drop])
    have hwhole : digits.take width ++ List.replicate (width - digits.length) '0' ≠ [] := by
      refine List.append_ne_nil_of_left_ne_nil ?_ _
      rw [Ne, List.take_eq_nil_iff, not_or]
      exact ⟨by omega, hne⟩
    have hwholenumeral := htake.append (isNumeral_replicate_zero (width - digits.length))
    simp only
    split
    next =>
      split
      · exact .fraction hwhole hwholenumeral (List.cons_ne_nil _ _) hzero
      · exact .whole hwhole hwholenumeral
    next hfraction => exact .fraction hwhole hwholenumeral hfraction hdrop

theorem isDecimal_scientific {digits : Text} (hne : digits ≠ []) (hnumeral : IsNumeral digits)
    (e : Int) : IsDecimal (scientific digits e) := by
  cases digits with
  | nil => exact absurd rfl hne
  | cons d fraction =>
    obtain ⟨hd, hf⟩ := IsNumeral.of_append (s := [d]) hnumeral
    cases fraction with
    | nil => exact .scientific (.whole hne hnumeral) e
    | cons c fraction =>
      exact .scientific (.fraction (List.cons_ne_nil d []) hd (List.cons_ne_nil _ _) hf) e

theorem isDecimal_text (style : Style) {d : Digits} (h : d.coefficient ≠ 0) :
    IsDecimal (d.text style) := by
  have hne := trimmedDigits_ne_nil h
  have hnumeral := isNumeral_trimmedDigits d.coefficient
  rw [Digits.text]
  split
  · exact .positional (isMantissa_positional style hne hnumeral d.exponent)
  · exact isDecimal_scientific hne hnumeral d.exponent

/-! ## The general style -/

/-- What the general style writes. -/
theorem general_cases (x : Binary64) : x = .nan ∨ (∃ negative, x = .infinite negative) ∨
    ∃ negative t, IsDecimal t ∧ x.general = withSign negative t := by
  cases x with
  | nan => exact .inl rfl
  | infinite negative => exact .inr (.inl ⟨negative, rfl⟩)
  | finite negative units _ =>
    refine .inr (.inr ⟨negative, _, ?_, rfl⟩)
    split
    next => exact .positional (.whole (List.cons_ne_nil _ _) (isNumeral_replicate_zero 1))
    next hunits => exact isDecimal_text _ (coefficient_significant_pos (by decide) hunits).ne'

theorem not_isBlank_of_all {t : Text} (h : t.all (!isBlank ·) = true) :
    ∀ c ∈ t, isBlank c = false := by
  simpa using h

theorem not_isBlank_withSign {t : Text} (h : ∀ c ∈ t, isBlank c = false) (negative : Bool) :
    ∀ c ∈ withSign negative t, isBlank c = false := by
  cases negative with
  | true => exact List.forall_mem_cons.mpr ⟨by decide, h⟩
  | false => exact h

theorem IsDecimal.not_isBlank {t : Text} (h : IsDecimal t) : ∀ c ∈ t, isBlank c = false := by
  have hmarks : ∀ c ∈ ['.', 'e', '+', '-'], !isBlank c := List.all_eq_true.mp rfl
  simpa using h.forall_mem (p := fun c => !isBlank c) (by decide +kernel) hmarks

theorem not_isBlank_general (x : Binary64) : ∀ c ∈ x.general, isBlank c = false := by
  rcases x.general_cases with rfl | ⟨negative, rfl⟩ | ⟨negative, t, ht, hx⟩
  · exact not_isBlank_of_all (t := general .nan) rfl
  · exact not_isBlank_withSign (not_isBlank_of_all rfl) negative
  · rw [hx]
    exact not_isBlank_withSign ht.not_isBlank negative

/-! ## Whole numbers -/

theorem decimalExponent_whole {n : Nat} (hn : n ≠ 0) :
    decimalExponent (n * unitsPerOne) = Nat.log 10 n := by
  obtain ⟨k, -, hk⟩ := exists_decimalExponent_eq (n * unitsPerOne)
  rw [hk, Nat.mul_right_comm, Nat.mul_div_cancel _ unitsPerOne_pos, Nat.pow_eq, log_mul_ten_pow hn]
  omega

/-- Six digits are enough for a whole number with at most six. -/
theorem significant_whole {n : Nat} (hn : n ≠ 0) (hlt : n < 10 ^ 6) :
    significant 6 (n * unitsPerOne) = ⟨n * 10 ^ (5 - Nat.log 10 n), Nat.log 10 n⟩ := by
  have hlog : Nat.log 10 n < 6 := Nat.log_lt_of_lt_pow hn hlt
  have hbelow : n * 10 ^ (5 - Nat.log 10 n) < 10 ^ 6 := by
    calc n * 10 ^ (5 - Nat.log 10 n)
        < 10 ^ (Nat.log 10 n + 1) * 10 ^ (5 - Nat.log 10 n) :=
          Nat.mul_lt_mul_of_pos_right (Nat.lt_pow_succ_log_self (by decide) n)
            (Nat.pow_pos (by decide))
      _ = 10 ^ 6 := by rw [← Nat.pow_add]; congr 1; omega
  have hscaled : scaled (n * unitsPerOne) ((6 : Nat) - 1 - (Nat.log 10 n : Int)) =
      (n * 10 ^ (5 - Nat.log 10 n) * unitsPerOne, unitsPerOne) := by
    have hplaces : ((6 : Nat) - 1 - (Nat.log 10 n : Int)).toNat = 5 - Nat.log 10 n := by omega
    rw [scaled, if_pos (by omega), hplaces, Nat.mul_right_comm]
    rfl
  rw [significant, decimalExponent_whole hn]
  simp only [hscaled, roundDiv_mul_right _ unitsPerOne_pos]
  exact if_neg hbelow.ne

theorem text_significant_whole {n : Nat} (hn : n ≠ 0) (hlt : n < 10 ^ 6) :
    (significant 6 (n * unitsPerOne)).text .general = Text.ofNat n := by
  have hlog : Nat.log 10 n < 6 := Nat.log_lt_of_lt_pow hn hlt
  obtain ⟨k, hk⟩ := exists_trimmedDigits n
  have hlength : (trimmedDigits n).length + k = Nat.log 10 n + 1 := by
    have := congrArg List.length hk
    rw [length_ofNat, List.length_append, List.length_replicate] at this
    omega
  rw [significant_whole hn hlt, Digits.text]
  simp only [trimmedDigits_mul_ten_pow hn]
  generalize Nat.log 10 n = e at hlog hlength
  have hplain : (decide (-4 ≤ (e : Int)) && decide ((e : Int) < Style.general.positionalBelow)) =
      true :=
    Bool.and_eq_true_iff.mpr ⟨decide_eq_true (by omega), decide_eq_true (show (e : Int) < 6 by omega)⟩
  have hzeros : e + 1 - (trimmedDigits n).length = k := by omega
  rw [if_pos hplain, positional, if_neg (by omega)]
  simp only [Int.toNat_natCast, hzeros]
  rw [List.drop_eq_nil_of_le (by omega), List.take_of_length_le (by omega), hk]
  rfl

/-- A small whole number is written with its own digits. -/
theorem general_of_ofInt? {z : Int} (h : z.natAbs < 10 ^ 6) :
    ∃ x, ofInt? z = some x ∧ x.general = Text.ofInt z := by
  have hlt : z.natAbs < 2 ^ 53 := by omega
  refine ⟨_, ofInt?_of_lt hlt, ?_⟩
  rw [general, textWith, Text.ofInt]
  by_cases hz : z = 0
  · subst hz
    rw [if_pos (by rw [Int.natAbs_zero, Nat.zero_mul])]
    decide +kernel
  · have hunits : z.natAbs * unitsPerOne ≠ 0 :=
      Nat.mul_ne_zero (Int.natAbs_ne_zero.mpr hz) unitsPerOne_pos.ne'
    rw [if_neg hunits, text_significant_whole (Int.natAbs_ne_zero.mpr hz) h, withSign]
    by_cases hneg : z < 0 <;> simp [hneg]

theorem mem_scientific (digits : Text) (e : Int) : 'e' ∈ scientific digits e := by
  have hexponent : 'e' ∈ exponentText e := List.mem_cons_self ..
  match digits with
  | [] => exact hexponent
  | [d] => exact List.mem_cons_of_mem d hexponent
  | d :: c :: fraction => exact List.mem_append_right (d :: '.' :: c :: fraction) hexponent

/-- A large whole number is written with an exponent. -/
theorem mem_general_of_ofInt? {z : Int} {x : Binary64} (hz : 10 ^ 6 ≤ z.natAbs)
    (h : ofInt? z = some x) : 'e' ∈ x.general := by
  obtain ⟨units, hunits, rfl, hle⟩ := le_of_ofInt? h (m := 10 ^ 6) (by decide) hz
  have hpos : units ≠ 0 :=
    ((Nat.mul_pos (by decide) unitsPerOne_pos).trans_le hle).ne'
  have hexponent : 6 ≤ (significant 6 units).exponent := by
    rw [← not_lt, exponent_significant_lt_iff (show 0 < 6 by decide) hpos, not_lt]
    refine (carryBound_lt 6 6).le.trans ?_
    rw [le_div_iff₀ (Nat.cast_pos.mpr unitsPerOne_pos)]
    exact_mod_cast hle
  have htext : 'e' ∈ (significant 6 units).text .general := by
    rw [Digits.text, if_neg]
    · exact mem_scientific ..
    · rw [Bool.and_eq_true, decide_eq_true_eq, decide_eq_true_eq, not_and]
      exact fun _ => not_lt.mpr hexponent
  rw [general, textWith, if_neg hpos, withSign]
  split
  · exact List.mem_cons_of_mem _ htext
  · exact htext

end Binary64
end TagReasoner
