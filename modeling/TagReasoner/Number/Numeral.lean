import TagReasoner.Binary64.Decimal
import TagReasoner.Text.DecimalDigit
import TagReasoner.Text.Pieces

/-!
# Reading numbers

Three grammars read numbers, all with the digits of every script:

* `plainNumber?` of arguments: digits, perhaps with a minus sign in front and a fraction behind;
* `wholeNumber?` of thresholds: a sign and digits, at most `digitLimit` of them;
* `realNumber?` of weights: a sign, then a decimal with an optional exponent or the name of an
  infinity or of a value that is not a number.

The last two let a single underscore stand between two digits.
-/

namespace TagReasoner
namespace Number

open Text

/-- A leading minus sign and what follows it. -/
def takeMinus : Text → Bool × Text
  | '-' :: r => (true, r)
  | t => (false, t)

/-- A leading sign and what follows it. -/
def takeSign : Text → Bool × Text
  | '-' :: r => (true, r)
  | '+' :: r => (false, r)
  | t => (false, t)

/-- The digits of a run in which single underscores may stand between digits. -/
def ungrouped? (t : Text) : Option Text :=
  let groups := splitOn '_' t
  if groups.all fun g => !g.isEmpty && g.all isDigit then some groups.flatten else none

/-- A run of digits that may be missing. -/
def ungroupedOrNil? (t : Text) : Option Text := if t.isEmpty then some [] else ungrouped? t

/-- The double that digits denote when the last `places` of them are a fraction. -/
def ofDigits (negative : Bool) (digits : Text) (places : Nat) (exponent : Int) : Binary64 :=
  Binary64.ofDecimal negative (digitsValue digits) (exponent - places)

/-- Digits, perhaps with a minus sign in front and a point and more digits behind. -/
def plainNumber? (t : Text) : Option Binary64 :=
  let (negative, r) := takeMinus t
  match r.span isDigit with
  | ([], _) => none
  | (whole, []) => some (ofDigits negative whole 0 0)
  | (whole, '.' :: fraction) =>
    if !fraction.isEmpty && fraction.all isDigit then
      some (ofDigits negative (whole ++ fraction) fraction.length 0)
    else none
  | _ => none

/-- The most digits that a whole number is read with. -/
def digitLimit : Nat := 4300

/-- A whole number: a sign and digits. -/
def wholeNumber? (t : Text) : Option Int :=
  let (negative, r) := takeSign (strip t)
  (ungrouped? r).bind fun digits =>
    if digits.length ≤ digitLimit then
      let n : Int := digitsValue digits
      some (if negative then -n else n)
    else none

/-- The lower case of the ASCII letters; other characters stay. -/
def lowerAscii (t : Text) : Text := t.map Char.toLower

/-- The names of an infinity. -/
def infinityNames : List Text := [['i', 'n', 'f'], ['i', 'n', 'f', 'i', 'n', 'i', 't', 'y']]

/-- An exponent: a sign and digits. -/
def exponent? (t : Text) : Option Int :=
  let (negative, r) := takeSign t
  (ungrouped? r).map fun digits =>
    let n : Int := digitsValue digits
    if negative then -n else n

/-- Whole part and fraction, of which one may be missing, times a power of ten. -/
def decimal? (negative : Bool) (mantissa : Text) (exponent : Int) : Option Binary64 :=
  match splitOn '.' mantissa with
  | [whole] => (ungrouped? whole).map fun w => ofDigits negative w 0 exponent
  | [whole, fraction] =>
    if whole.isEmpty && fraction.isEmpty then none
    else
      (ungroupedOrNil? whole).bind fun w =>
        (ungroupedOrNil? fraction).map fun f => ofDigits negative (w ++ f) f.length exponent
  | _ => none

/-- A real number, rounded to the nearest double. -/
def realNumber? (t : Text) : Option Binary64 :=
  let (negative, r) := takeSign (strip t)
  let name := lowerAscii r
  if name = ['n', 'a', 'n'] then some .nan
  else if infinityNames.contains name then some (.infinite negative)
  else
    match r.span fun c => !(c = 'e' || c = 'E') with
    | (mantissa, []) => decimal? negative mantissa 0
    | (mantissa, _ :: power) => (exponent? power).bind (decimal? negative mantissa)

end Number
end TagReasoner
