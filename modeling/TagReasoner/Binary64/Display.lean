import TagReasoner.Binary64.Decimal
import TagReasoner.Text.DecimalDigit

/-!
# How doubles are written

A number is written from its digits. Exponents in a middle range are positional, the others stand
behind an `e` with a sign and at least two digits. Two styles are in use: the *general* style of
tags and records has six significant digits, and the *exact* style of messages and documents has
as many digits as it takes to read the number back. Zeros at the end of the digits are dropped.
-/

namespace TagReasoner
namespace Binary64

/-- The decisions of a number style. -/
structure Style where
  /-- Exponents from here on are written with an `e`; those below `-4` always are. -/
  positionalBelow : Int
  /-- A positional whole number keeps a point and a zero. -/
  keepsPoint : Bool

/-- Six digits, whole numbers without a point. -/
def Style.general : Style := ⟨6, false⟩

/-- Whole numbers keep their point, and up to sixteen places are positional. -/
def Style.exact : Style := ⟨16, true⟩

/-- The digits of a number without the zeros at their end. -/
def trimmedDigits (n : Nat) : Text := ((Text.ofNat n).reverse.dropWhile (· == '0')).reverse

/-- The exponent of a power of ten: a sign and at least two digits. -/
def exponentText (e : Int) : Text :=
  let digits := Text.ofNat e.natAbs
  'e' :: (if e < 0 then '-' else '+') :: (if digits.length < 2 then '0' :: digits else digits)

/-- Digits with the point behind the place `10^0`. -/
def positional (style : Style) (digits : Text) (e : Int) : Text :=
  if e < 0 then '0' :: '.' :: List.replicate (-e - 1).toNat '0' ++ digits
  else
    let width := e.toNat + 1
    let whole := digits.take width ++ List.replicate (width - digits.length) '0'
    match digits.drop width with
    | [] => if style.keepsPoint then whole ++ ['.', '0'] else whole
    | fraction => whole ++ '.' :: fraction

/-- Digits with the point behind the first of them and the power of ten after them. -/
def scientific (digits : Text) (e : Int) : Text :=
  match digits with
  | [] => exponentText e
  | [d] => d :: exponentText e
  | d :: fraction => d :: '.' :: fraction ++ exponentText e

/-- A decimal in a style. -/
def Digits.text (style : Style) (d : Digits) : Text :=
  let digits := trimmedDigits d.coefficient
  if -4 ≤ d.exponent && d.exponent < style.positionalBelow then positional style digits d.exponent
  else scientific digits d.exponent

/-- A minus sign in front of a negative number. -/
def withSign (negative : Bool) (t : Text) : Text := if negative then '-' :: t else t

/-- A number in a style, its digits chosen by `digits`. -/
def textWith (style : Style) (digits : Nat → Digits) : Binary64 → Text
  | nan => ['n', 'a', 'n']
  | infinite negative => withSign negative ['i', 'n', 'f']
  | finite negative units _ =>
    withSign negative <|
      if units = 0 then (if style.keepsPoint then ['0', '.', '0'] else ['0'])
      else (digits units).text style

/-- The number with six significant digits. -/
def general : Binary64 → Text := textWith .general (significant 6)

/-- The number with the fewest digits that read it back. -/
def exact : Binary64 → Text := textWith .exact shortest

/-- The sign stands above the exponent and the fraction. -/
def signBit : Nat := Nat.pow 2 63

/-- The leading bit of a significand, which the format leaves out. -/
def leadingBit : Nat := Nat.pow 2 52

/-- The sixty-four bits of the interchange format. -/
def bits : Binary64 → Nat
  | nan => 0x7FF8000000000000
  | infinite negative => (if negative then signBit else 0) + 0x7FF0000000000000
  | finite negative units _ =>
    let shift := units.log2 - 52
    let field :=
      if units < leadingBit then units
      else (shift + 1) * leadingBit + (units / Nat.pow 2 shift - leadingBit)
    (if negative then signBit else 0) + field

end Binary64
end TagReasoner
