import TagReasoner.Text.DecimalDigit
import Mathlib.Algebra.Order.Ring.Nat
import Mathlib.Data.List.Induction
import Mathlib.Data.Nat.Log

/-!
# Decimal digits of a number

The digits of a number denote that number (`digitsValue_ofNat`), so no two numbers have the same
digits. There is always a digit, and nothing else (`isNumeral_ofNat`): as many as the logarithm says,
and a factor of ten adds a zero.
-/

namespace TagReasoner
namespace Text

theorem digitValue?_digitChar : ∀ d < 10, digitValue? (digitChar d) = some d := by decide +kernel

theorem ofNat_of_lt {n : Nat} (h : n < 10) : ofNat n = [digitChar n] := by
  rw [ofNat, dif_pos h]

theorem ofNat_of_ge {n : Nat} (h : ¬ n < 10) :
    ofNat n = ofNat (n / 10) ++ [digitChar (n % 10)] := by
  rw [ofNat, dif_neg h]

theorem digitsValue_concat (t : Text) (c : Char) :
    digitsValue (t ++ [c]) = 10 * digitsValue t + (digitValue? c).getD 0 := by
  rw [digitsValue, List.foldl_append]
  rfl

theorem digitsValue_append (s t : Text) :
    digitsValue (s ++ t) = digitsValue s * 10 ^ t.length + digitsValue t := by
  induction t using List.reverseRecOn with
  | nil => simp [digitsValue]
  | append_singleton t c ih =>
    rw [← List.append_assoc, digitsValue_concat, digitsValue_concat, ih, List.length_append,
      List.length_singleton, pow_succ, ← Nat.mul_assoc]
    omega

theorem digitsValue_ofNat (n : Nat) : digitsValue (ofNat n) = n := by
  induction n using Nat.strongRecOn with
  | ind n ih =>
    by_cases h : n < 10
    · rw [ofNat_of_lt h, digitsValue, List.foldl_cons, List.foldl_nil, digitValue?_digitChar n h]
      simp
    · rw [ofNat_of_ge h, digitsValue_concat, ih (n / 10) (by omega),
        digitValue?_digitChar _ (Nat.mod_lt n (by omega)), Option.getD_some]
      omega

theorem ofNat_injective {m n : Nat} (h : ofNat m = ofNat n) : m = n := by
  rw [← digitsValue_ofNat m, h, digitsValue_ofNat]

theorem ofNat_ne_nil (n : Nat) : ofNat n ≠ [] := by
  by_cases h : n < 10
  · simp [ofNat_of_lt h]
  · simp [ofNat_of_ge h]

/-- The digits are those from `0` to `9`. -/
def IsNumeral (t : Text) : Prop := ∀ c ∈ t, ∃ d < 10, c = digitChar d

theorem mem_ofNat {n : Nat} {c : Char} (h : c ∈ ofNat n) : ∃ d < 10, c = digitChar d := by
  induction n using Nat.strongRecOn with
  | ind n ih =>
    by_cases hn : n < 10
    · rw [ofNat_of_lt hn, List.mem_singleton] at h
      exact ⟨n, hn, h⟩
    · rw [ofNat_of_ge hn, List.mem_append, List.mem_singleton] at h
      rcases h with h | h
      · exact ih (n / 10) (by omega) h
      · exact ⟨n % 10, Nat.mod_lt n (by omega), h⟩

theorem length_ofNat (n : Nat) : (ofNat n).length = Nat.log 10 n + 1 := by
  induction n using Nat.strongRecOn with
  | ind n ih =>
    by_cases h : n < 10
    · rw [ofNat_of_lt h, Nat.log_of_lt h]
      rfl
    · have hlog : 0 < Nat.log 10 n := Nat.log_pos (by decide) (by omega)
      rw [ofNat_of_ge h, List.length_append, ih (n / 10) (by omega), Nat.log_div_base,
        List.length_singleton]
      omega

theorem ofNat_mul_ten_pow {n : Nat} (hn : n ≠ 0) (k : Nat) :
    ofNat (n * 10 ^ k) = ofNat n ++ List.replicate k '0' := by
  induction k with
  | zero => simp
  | succ k ih =>
    have hpos : 0 < n * 10 ^ k := Nat.mul_pos (Nat.pos_of_ne_zero hn) (Nat.pow_pos (by decide))
    have hmul : n * 10 ^ (k + 1) = n * 10 ^ k * 10 := by rw [Nat.pow_succ, Nat.mul_assoc]
    rw [hmul, ofNat_of_ge (by omega), Nat.mul_div_cancel _ (by decide), Nat.mul_mod_left, ih,
      List.append_assoc, List.replicate_succ']
    rfl

theorem digitsValue_replicate_zero (k : Nat) : digitsValue (List.replicate k '0') = 0 := by
  induction k with
  | zero => rfl
  | succ k ih =>
    rw [List.replicate_succ', digitsValue_concat, ih]
    decide +kernel

theorem digitsValue_replicate_zero_append (k : Nat) (t : Text) :
    digitsValue (List.replicate k '0' ++ t) = digitsValue t := by
  rw [digitsValue_append, digitsValue_replicate_zero, Nat.zero_mul, Nat.zero_add]

theorem digitsValue_append_replicate_zero (t : Text) (k : Nat) :
    digitsValue (t ++ List.replicate k '0') = digitsValue t * 10 ^ k := by
  rw [digitsValue_append, digitsValue_replicate_zero, List.length_replicate, Nat.add_zero]

/-! ## Numerals -/

theorem isNumeral_ofNat (n : Nat) : IsNumeral (ofNat n) := fun _ => mem_ofNat

theorem isNumeral_replicate_zero (k : Nat) : IsNumeral (List.replicate k '0') :=
  fun c hc => ⟨0, by decide, (List.eq_of_mem_replicate hc).trans (by decide +kernel)⟩

namespace IsNumeral

variable {s t : Text}

theorem append (hs : IsNumeral s) (ht : IsNumeral t) : IsNumeral (s ++ t) :=
  List.forall_mem_append.mpr ⟨hs, ht⟩

theorem of_append (h : IsNumeral (s ++ t)) : IsNumeral s ∧ IsNumeral t :=
  List.forall_mem_append.mp h

/-- What holds of the ten digits holds all through a numeral. -/
theorem all {p : Char → Bool} (h : IsNumeral t) (hp : ∀ d < 10, p (digitChar d) = true) :
    ∀ c ∈ t, p c = true := by
  intro c hc
  obtain ⟨d, hd, rfl⟩ := h c hc
  exact hp d hd

end IsNumeral

end Text
end TagReasoner
