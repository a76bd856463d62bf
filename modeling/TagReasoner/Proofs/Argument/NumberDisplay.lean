import TagReasoner.Proofs.Tag.FactGrammar

/-!
# Numbers read back from their display

A number is displayed with six significant digits behind its operator. Where the digits are written
without an exponent they are a complete decimal number, and what is read is the double nearest to
them (`plainNumber?_text`). An exponent is no part of the numbers that arguments read, and a token
with one becomes a literal.

Which of the two it is can be told from the magnitude (`isPositional_iff`): zero and what rounds to
at least `10⁻⁴` and to less than `10⁶` is read back, with its sign and its operator, and nothing
else is (`number_reread_iff`).
-/

namespace TagReasoner

open Text Binary64

/-! ## Decimals as plain numbers -/

namespace Number

variable {whole fraction digits t : Text}

theorem isDigits_of_isNumeral (hne : digits ≠ []) (h : IsNumeral digits) : IsDigits digits :=
  ⟨hne, h.all fun _ => isDigit_digitChar⟩

theorem plainNumber?_whole (negative : Bool) (h : IsDigits whole) :
    plainNumber? (withSign negative whole) = some (.ofDecimal negative (digitsValue whole) 0) := by
  rw [plainNumber?, takeMinus_withSign (.whole h)]
  simp only [span_of_forall h.2]
  obtain ⟨c, s, rfl⟩ := List.exists_cons_of_ne_nil h.1
  rfl

theorem plainNumber?_fraction (negative : Bool) (h : IsDigits whole)
    (hfraction : IsDigits fraction) : plainNumber? (withSign negative (whole ++ '.' :: fraction)) =
      some (.ofDecimal negative (digitsValue (whole ++ fraction)) (-fraction.length)) := by
  have hpoint : isDigit '.' = false := by decide +kernel
  rw [plainNumber?, takeMinus_withSign (.fraction h hfraction)]
  simp only [span_append_cons h.2 hpoint]
  obtain ⟨c, s, rfl⟩ := List.exists_cons_of_ne_nil h.1
  simp only [if_pos (isDigits_iff.mp hfraction), ofDigits, Int.zero_sub]

/-- The characters of a plain number. -/
theorem IsPlain.mem (h : IsPlain t) : ∀ c ∈ t, isDigit c = true ∨ c ∈ ['.', '-'] := by
  obtain @⟨digits, negative, hunsigned⟩ := h
  have hmem : ∀ c ∈ digits, isDigit c = true ∨ c ∈ ['.', '-'] := by
    intro c hc
    cases hunsigned with
    | whole h => exact .inl (h.2 c hc)
    | fraction h hfraction =>
      rw [List.mem_append, List.mem_cons] at hc
      rcases hc with hc | rfl | hc
      · exact .inl (h.2 c hc)
      · exact .inr (by decide)
      · exact .inl (hfraction.2 c hc)
  cases negative with
  | true => exact List.forall_mem_cons.mpr ⟨.inr (by decide), hmem⟩
  | false => exact hmem

/-- The point of positional digits stands where their value is kept. -/
theorem plainNumber?_positional (style : Style) (negative : Bool) (hne : digits ≠ [])
    (hnumeral : IsNumeral digits) (e : Int) :
    plainNumber? (withSign negative (positional style digits e)) =
      some (.ofDecimal negative (digitsValue digits) (e + 1 - digits.length)) := by
  have hlength : 0 < digits.length := List.length_pos_iff.mpr hne
  have hdigits := isDigits_of_isNumeral hne hnumeral
  have hzero : IsDigits ['0'] :=
    isDigits_of_isNumeral (List.cons_ne_nil _ _) (isNumeral_replicate_zero 1)
  rw [positional]
  split
  next he =>
    obtain ⟨k, hk⟩ := Int.eq_ofNat_of_zero_le (show 0 ≤ -e - 1 by omega)
    rw [hk, Int.toNat_natCast, List.cons_append, List.cons_append]
    have hfraction : IsDigits (List.replicate k '0' ++ digits) :=
      isDigits_of_isNumeral (List.append_ne_nil_of_right_ne_nil _ hne)
        ((isNumeral_replicate_zero k).append hnumeral)
    have hvalue : digitsValue (['0'] ++ (List.replicate k '0' ++ digits)) = digitsValue digits := by
      rw [← List.append_assoc]
      exact digitsValue_replicate_zero_append (k + 1) digits
    have hplaces : -((List.replicate k '0' ++ digits).length : Int) = e + 1 - digits.length := by
      rw [List.length_append, List.length_replicate]
      omega
    rw [← hvalue, ← hplaces]
    exact plainNumber?_fraction negative hzero hfraction
  next he =>
    obtain ⟨n, rfl⟩ := Int.eq_ofNat_of_zero_le (not_lt.mp he)
    rw [Int.toNat_natCast]
    dsimp only
    by_cases hshort : digits.length ≤ n + 1
    · -- no digit is left for a fraction, and zeros fill up to the point
      obtain ⟨k, hk⟩ := Nat.exists_eq_add_of_le hshort
      have hwhole : IsDigits (digits ++ List.replicate k '0') :=
        isDigits_of_isNumeral (List.append_ne_nil_of_left_ne_nil hne _)
          (hnumeral.append (isNumeral_replicate_zero k))
      have hplaces : (n : Int) + 1 - digits.length = k := by omega
      rw [List.drop_eq_nil_of_le hshort, List.take_of_length_le hshort,
        show n + 1 - digits.length = k by omega, hplaces]
      dsimp only
      split
      next =>
        rw [plainNumber?_fraction negative hwhole hzero]
        refine congrArg some (ofDecimal_congr negative ?_)
        rw [digitsValue_append _ ['0'], digitsValue_append_replicate_zero, List.length_singleton,
          show digitsValue ['0'] = 0 from digitsValue_replicate_zero 1, zpow_natCast]
        push_cast
        ring
      next =>
        rw [plainNumber?_whole negative hwhole, digitsValue_append_replicate_zero]
        refine congrArg some (ofDecimal_congr negative ?_)
        rw [zpow_zero, mul_one, zpow_natCast]
        push_cast
        rfl
    · have hdrop : digits.drop (n + 1) ≠ [] := by
        rw [Ne, List.drop_eq_nil_iff]
        exact hshort
      have htake : digits.take (n + 1) ≠ [] := by
        rw [Ne, List.take_eq_nil_iff, not_or]
        exact ⟨Nat.succ_ne_zero n, hne⟩
      obtain ⟨hwhole, hfraction⟩ :
          IsNumeral (digits.take (n + 1)) ∧ IsNumeral (digits.drop (n + 1)) :=
        IsNumeral.of_append (by rwa [List.take_append_drop])
      have hread := plainNumber?_fraction negative (isDigits_of_isNumeral htake hwhole)
        (isDigits_of_isNumeral hdrop hfraction)
      have hplaces : -((digits.drop (n + 1)).length : Int) = (n : Int) + 1 - digits.length := by
        rw [List.length_drop]
        omega
      rw [List.take_append_drop, hplaces] at hread
      rw [show n + 1 - digits.length = 0 by omega, List.replicate_zero, List.append_nil]
      split
      next hnil => exact absurd hnil hdrop
      next => exact hread

/-- A decimal is read as the double nearest to it, unless it has an exponent. -/
theorem plainNumber?_text (style : Style) (negative : Bool) {d : Digits} (hd : d.coefficient ≠ 0) :
    plainNumber? (withSign negative (d.text style)) =
      if -4 ≤ d.exponent ∧ d.exponent < style.positionalBelow then
        some (.ofDecimal negative d.coefficient (d.exponent - Nat.log 10 d.coefficient))
      else none := by
  have hne := trimmedDigits_ne_nil hd
  have hnumeral := isNumeral_trimmedDigits d.coefficient
  obtain ⟨k, hk⟩ := exists_trimmedDigits d.coefficient
  have hlength : (trimmedDigits d.coefficient).length + k = Nat.log 10 d.coefficient + 1 := by
    rw [← length_ofNat, hk, List.length_append, List.length_replicate]
  have hvalue : d.coefficient = digitsValue (trimmedDigits d.coefficient) * 10 ^ k := by
    rw [← digitsValue_append_replicate_zero, ← hk, digitsValue_ofNat]
  simp only [Digits.text, Bool.and_eq_true, decide_eq_true_eq]
  split
  next =>
    rw [plainNumber?_positional style negative hne hnumeral]
    refine congrArg some (ofDecimal_congr negative ?_)
    have hcast : (d.coefficient : ℚ) =
        digitsValue (trimmedDigits d.coefficient) * 10 ^ (k : Int) := by
      exact_mod_cast hvalue
    rw [hcast, mul_assoc, ← zpow_add₀ (by norm_num)]
    congr 2
    omega
  next =>
    rw [← Option.not_isSome_iff_eq_none, isSome_plainNumber?_iff]
    intro hplain
    have hletter :
        'e' ∈ withSign negative (scientific (trimmedDigits d.coefficient) d.exponent) := by
      cases negative with
      | true => exact List.mem_cons_of_mem _ (mem_scientific ..)
      | false => exact mem_scientific ..
    rcases hplain.mem 'e' hletter with h | h
    · exact absurd h (by decide +kernel)
    · exact absurd h (by decide)

end Number

/-! ## Six significant digits -/

/-- The magnitudes that are written without an exponent: zero, and what six digits round to at least
`10⁻⁴` and to less than `10⁶`. -/
def IsPositional (x : ℚ) : Prop := x = 0 ∨ (10 ^ 6 - 1 / 2) / 10 ^ 10 ≤ x ∧ x < 10 ^ 6 - 1 / 2

instance (x : ℚ) : Decidable (IsPositional x) := inferInstanceAs (Decidable (_ ∨ _ ∧ _))

variable {units : Nat}

theorem isPositional_iff (hunits : units ≠ 0) : IsPositional (units / unitsPerOne) ↔
    -4 ≤ (significant 6 units).exponent ∧ (significant 6 units).exponent < 6 := by
  have hlow := not_congr (exponent_significant_lt_iff (show 0 < 6 by decide) hunits (-4))
  have hhigh := exponent_significant_lt_iff (show 0 < 6 by decide) hunits 6
  have hpos := value_pos hunits
  rw [not_lt, not_lt] at hlow
  rw [IsPositional, hhigh, hlow]
  generalize (units : ℚ) / unitsPerOne = x at hpos
  have hbelow : carryBound 6 (-4) = (10 ^ 6 - 1 / 2) / 10 ^ 10 := by
    norm_num [carryBound]
  have habove : carryBound 6 6 = 10 ^ 6 - 1 / 2 := by
    norm_num [carryBound]
  rw [hbelow, habove, or_iff_right hpos.ne']

/-- What is read from the display of a double is the double of its six digits, if these are written
without an exponent. -/
theorem exists_plainNumber?_general (negative : Bool) (h : Representable units) :
    ∃ c e, RoundedTo 6 (units / unitsPerOne) c e ∧
      Number.plainNumber? (general (.finite negative units h)) =
        if IsPositional (units / unitsPerOne) then some (.ofDecimal negative c (e - 5))
        else none := by
  by_cases hunits : units = 0
  · subst hunits
    rw [Nat.cast_zero, zero_div]
    refine ⟨0, 0, roundedTo_zero 6, ?_⟩
    rw [if_pos (show IsPositional 0 from .inl rfl)]
    change Number.plainNumber? (withSign negative ['0']) = _
    cases negative <;> decide +kernel
  · obtain ⟨c, e, hrounded, hvalue⟩ := exists_roundedTo_eq (show 0 < 6 by decide) hunits
    refine ⟨c, e, hrounded, ?_⟩
    obtain ⟨hleast, hmost⟩ := coefficient_significant_mem (show 0 < 6 by decide) hunits
    have hlog : Nat.log 10 (significant 6 units).coefficient = 5 :=
      (Nat.log_eq_iff (.inl (by decide))).mpr ⟨hleast, hmost⟩
    have hcoefficient := (coefficient_significant_pos (show 0 < 6 by decide) hunits).ne'
    rw [general, textWith, if_neg hunits, Number.plainNumber?_text _ _ hcoefficient, hlog]
    refine if_congr (isPositional_iff hunits).symm (congrArg some (ofDecimal_congr negative ?_)) rfl
    rw [zpow_sub₀ (by norm_num), zpow_sub₀ (by norm_num), ← mul_div_assoc, ← mul_div_assoc, hvalue]
    rfl

/-! ## Tokens -/

/-- A displayed number does not start like an operator, a wildcard or a variable. -/
theorem exists_general_cons (x : Binary64) : ∃ c t, x.general = c :: t ∧
    isOperatorChar c = false ∧ c ∉ ['*', '?', '&'] := by
  have hdigit : ∀ d < 10, isOperatorChar (digitChar d) = false ∧ digitChar d ∉ ['*', '?', '&'] := by
    decide +kernel
  rcases x.general_cases with rfl | ⟨negative, rfl⟩ | ⟨negative, t, ht, hx⟩
  · exact ⟨'n', _, rfl, by decide⟩
  · cases negative with
    | true => exact ⟨'-', _, rfl, by decide⟩
    | false => exact ⟨'i', _, rfl, by decide⟩
  · rw [hx]
    cases negative with
    | true => exact ⟨'-', t, rfl, by decide⟩
    | false =>
      cases ht with
      | positional hm =>
        obtain ⟨d, hd, rest, rfl⟩ := Number.exists_digitChar_cons_of_isMantissa hm
        exact ⟨_, _, rfl, hdigit d hd⟩
      | scientific hm =>
        obtain ⟨d, hd, rest, rfl⟩ := Number.exists_digitChar_cons_of_isMantissa hm
        exact ⟨_, _, rfl, hdigit d hd⟩

theorem isBlank_of_isOperatorChar {c : Char} (h : isOperatorChar c = true) : isBlank c = false := by
  simp only [isOperatorChar, Bool.or_eq_true, decide_eq_true_eq] at h
  rcases h with ((rfl | rfl) | rfl) | rfl <;> decide

namespace Argument

theorem ofRest_of_not_mem {token : Text} {c : Char} {t : Text} (hc : c ∉ ['*', '?', '&']) :
    ofRest token (c :: t) = literal token := by
  simp only [List.mem_cons, List.not_mem_nil, or_false, not_or] at hc
  obtain ⟨hstar, hsingle, hmulti⟩ := hc
  unfold ofRest
  split
  next heq => exact absurd (List.cons.inj heq).1 hstar
  next heq => exact absurd (List.cons.inj heq).1 hsingle
  next heq => exact absurd (List.cons.inj heq).1 hmulti
  next heq => exact absurd (List.cons.inj heq).1 hsingle
  next heq => exact absurd (List.cons.inj heq).1 hmulti
  next => rfl

/-- The token of a number is read as its operator and what its digits are read as. -/
theorem parse_token_number (x : Binary64) (r : Relation) : parse (number x r).token =
    match Number.plainNumber? x.general with
    | some value => .ok ⟨.number value r, (number x r).token⟩
    | none => .ok (literal (number x r).token) := by
  obtain ⟨c, t, hx, hc, hmark⟩ := exists_general_cons x
  have hdigits : ∀ d ∈ c :: t, isBlank d = false := hx ▸ not_isBlank_general x
  have hrun : ∀ d ∈ if r = .eq then [] else r.symbol, isOperatorChar d = true :=
    List.all_eq_true.mp (by cases r <;> rfl)
  have hrelation : Relation.ofRun (if r = .eq then [] else r.symbol) = .ok r := by
    cases r <;> rfl
  simp only [number, hx]
  generalize (if r = .eq then [] else r.symbol) = run at hrun hrelation
  have hwritten : ((run ++ c :: t).isEmpty || (run ++ c :: t).any isBlank) = false := by
    rw [Bool.or_eq_false_iff, List.isEmpty_eq_false_iff, List.any_eq_false]
    refine ⟨List.append_ne_nil_of_right_ne_nil _ (List.cons_ne_nil c t), ?_⟩
    simp only [Bool.not_eq_true]
    exact List.forall_mem_append.mpr ⟨fun d hd => isBlank_of_isOperatorChar (hrun d hd), hdigits⟩
  rw [parse, hwritten, span_append_cons hrun hc]
  simp only [Bool.false_eq_true, if_false, hrelation]
  cases Number.plainNumber? (c :: t) with
  | some value => rfl
  | none => exact congrArg Except.ok (ofRest_of_not_mem hmark)

/-- A finite number comes back from its token with its operator and the value of its six significant
digits if these are written without an exponent; the token is a literal otherwise. -/
theorem exists_parse_token_number (negative : Bool) (h : Representable units) (r : Relation) :
    let a := number (.finite negative units h) r
    ∃ c e, RoundedTo 6 (units / unitsPerOne) c e ∧ parse a.token =
      .ok (if IsPositional (units / unitsPerOne) then
        ⟨.number (.ofDecimal negative c (e - 5)) r, a.token⟩ else literal a.token) := by
  intro a
  obtain ⟨c, e, hrounded, hread⟩ := exists_plainNumber?_general negative h
  refine ⟨c, e, hrounded, ?_⟩
  rw [parse_token_number, hread]
  by_cases hx : IsPositional (units / unitsPerOne)
  · rw [if_pos hx, if_pos hx]
  · rw [if_neg hx, if_neg hx]

end Argument

/-- A finite number is read back from its display, with its operator and the value of its six
significant digits, just where it is written without an exponent; otherwise the display is read as a
literal. -/
theorem number_reread_iff (negative : Bool) (h : Representable units) (r : Relation) :
    let a := Argument.number (.finite negative units h) r
    ((∃ c e, RoundedTo 6 (units / unitsPerOne) c e ∧
        Argument.parse a.token = .ok ⟨.number (.ofDecimal negative c (e - 5)) r, a.token⟩) ↔
      IsPositional (units / unitsPerOne)) ∧
    (Argument.parse a.token = .ok (.literal a.token) ↔ ¬ IsPositional (units / unitsPerOne)) := by
  intro a
  obtain ⟨c, e, hrounded, hparse⟩ := Argument.exists_parse_token_number negative h r
  by_cases hx : IsPositional (units / unitsPerOne)
  · rw [if_pos hx] at hparse
    refine ⟨iff_of_true ⟨c, e, hrounded, hparse⟩ hx, iff_of_false ?_ (not_not.mpr hx)⟩
    intro hliteral
    cases hparse.symm.trans hliteral
  · rw [if_neg hx] at hparse
    refine ⟨iff_of_false ?_ hx, iff_of_true hparse hx⟩
    rintro ⟨c, e, -, hnumber⟩
    cases hparse.symm.trans hnumber

/-- Three halves behind an operator are read back. -/
theorem number_reread_iff_three_halves : ∃ h : Representable (3 * unitsPerOne / 2),
    let a := Argument.number (.finite false (3 * unitsPerOne / 2) h) .ge
    ∃ c e, RoundedTo 6 ((3 * unitsPerOne / 2 : Nat) / unitsPerOne) c e ∧
      Argument.parse a.token = .ok ⟨.number (.ofDecimal false c (e - 5)) .ge, a.token⟩ :=
  ⟨by decide +kernel, (number_reread_iff false (by decide +kernel) .ge).1.mpr (by decide +kernel)⟩

/-- A million is displayed with an exponent, and its display is read as a literal. -/
theorem not_number_reread_million : ∃ h : Representable (10 ^ 6 * unitsPerOne),
    let a := Argument.number (.finite false (10 ^ 6 * unitsPerOne) h) .eq
    Argument.parse a.token = .ok (.literal a.token) ∧
      ¬ ∃ c e, RoundedTo 6 ((10 ^ 6 * unitsPerOne : Nat) / unitsPerOne) c e ∧
        Argument.parse a.token = .ok ⟨.number (.ofDecimal false c (e - 5)) .eq, a.token⟩ := by
  have hlarge : ¬ IsPositional ((10 ^ 6 * unitsPerOne : Nat) / unitsPerOne) := by decide +kernel
  have h : Representable (10 ^ 6 * unitsPerOne) := by decide +kernel
  obtain ⟨c, e, -, hparse⟩ := Argument.exists_parse_token_number false h .eq
  rw [if_neg hlarge] at hparse
  refine ⟨h, hparse, ?_⟩
  rintro ⟨c, e, -, hnumber⟩
  rw [hparse] at hnumber
  cases hnumber

end TagReasoner
