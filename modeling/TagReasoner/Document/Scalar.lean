import TagReasoner.Calendar.Reading
import TagReasoner.Document.Basic

/-!
# Plain scalars

A scalar without quotes in a document means a value by its spelling: nothing, a truth value, a
whole number in base ten, two, eight or sixteen or in base-sixty places, a real number, which has a
point and may be in base-sixty places too, a moment, or else the text that it is. Digits may be set
apart by underscores.

Two spellings stand for what is no value, the mark that merges maps and the mark of a default. Some
other texts are spelled like a value and have none, as `0x_` or the thirteenth month.
-/

namespace TagReasoner
namespace Scalar

/-- A digit or an underscore. -/
def isDigitOrMark (c : Char) : Bool := c.isDigit || c = '_'

/-- The spellings of nothing. -/
def nullNames : List String := ["", "~", "null", "Null", "NULL"]

/-- The spellings of a truth value. -/
def truthNames : List (String × Bool) :=
  [("yes", true), ("Yes", true), ("YES", true), ("no", false), ("No", false), ("NO", false),
   ("true", true), ("True", true), ("TRUE", true), ("false", false), ("False", false),
   ("FALSE", false), ("on", true), ("On", true), ("ON", true), ("off", false), ("Off", false),
   ("OFF", false)]

/-- The mark of the maps that are merged into a map. -/
def mergeMark : Text := ['<', '<']

/-- The mark of the default value of a map. -/
def defaultMark : Text := ['=']

/-- The text without underscores. -/
def unmarked (t : Text) : Text := t.filter (· != '_')

/-! ## Whole numbers -/

/-- The value of a hexadecimal digit. -/
def hexValue? (c : Char) : Option Nat :=
  if c.isDigit then some (c.toNat - 0x30)
  else if 'a' ≤ c && c ≤ 'f' then some (c.toNat - 0x57)
  else if 'A' ≤ c && c ≤ 'F' then some (c.toNat - 0x37)
  else none

/-- The number that digits below `base` denote, if there are any and all of them are. -/
def inBase? (base : Nat) (digits : Text) : Option Nat :=
  if digits.isEmpty then none
  else
    digits.foldlM (fun n c => (hexValue? c).bind fun d => if d < base then some (base * n + d) else none)
      0

/-- A number in a base. Underscores alone are spelled like one, and none is missing. -/
def markedInBase? (base : Nat) (t : Text) : Option (Except ScalarError Nat) :=
  if t.isEmpty then none
  else if (unmarked t).isEmpty then some (.error (.noDigits base))
  else (inBase? base (unmarked t)).map .ok

/-- A number in base ten, of which the digits are limited. -/
def decimal (digits : Text) : Except ScalarError Nat :=
  if Number.digitLimit < digits.length then .error (.tooManyDigits digits.length)
  else .ok (Text.digitsValue digits)

/-- A place behind the first one in base sixty: one or two digits, below sixty. -/
def sixtyPlace? (t : Text) : Option Nat :=
  if t.length ≤ 2 then (inBase? 10 t).bind fun n => if n < 60 then some n else none else none

/-- The first place in base sixty: digits, perhaps with underscores behind the first. -/
def firstPlace? (t : Text) : Option Text :=
  if (t.head?.map Char.isDigit).getD false && t.all isDigitOrMark then some (unmarked t) else none

/-- A whole number in base sixty, of at least two places and without a zero in front. -/
def sixties? (t : Text) : Option (Except ScalarError Nat) :=
  match Text.splitOn ':' t with
  | first :: rest@(_ :: _) =>
    if first.head? = some '0' then none
    else do
      let first ← firstPlace? first
      let places ← rest.mapM sixtyPlace?
      return (decimal first).map fun n => places.foldl (fun n d => 60 * n + d) n
  | _ => none

/-- A whole number without its sign. -/
def natural? (t : Text) : Option (Except ScalarError Nat) :=
  match t with
  | ['0'] => some (.ok 0)
  | '0' :: 'b' :: r => markedInBase? 2 r
  | '0' :: 'x' :: r => markedInBase? 16 r
  | '0' :: r => (inBase? 8 ('0' :: unmarked r)).map .ok
  | t =>
    match firstPlace? t with
    | some digits => some (decimal digits)
    | none => sixties? t

/-- A whole number with an optional sign. -/
def whole? (t : Text) : Option (Except ScalarError Int) :=
  let (negative, r) := Number.takeSign t
  (natural? r).map fun found => found.map fun n => if negative then -(n : Int) else n

/-! ## Real numbers -/

/-- An exponent, which has a sign; nothing counts as none. -/
def power? (t : Text) : Option Int :=
  match t with
  | [] => some 0
  | e :: r =>
    if e = 'e' || e = 'E' then
      match r with
      | '+' :: digits => (inBase? 10 digits).map fun n => (n : Int)
      | '-' :: digits => (inBase? 10 digits).map fun n => -(n : Int)
      | _ => none
    else none

/-- Digits, a point, and perhaps more digits and an exponent. Without digits in front there is no
sign and there have to be some behind. -/
def pointed? (signed : Bool) (negative : Bool) (r : Text) : Option Binary64 :=
  match r.span isDigitOrMark with
  | (before, '.' :: behind) =>
    let (fraction, power) := behind.span isDigitOrMark
    let starts := if before.isEmpty then !signed && (fraction.head?.map Char.isDigit).getD false
      else before.head? != some '_'
    if starts then
      let f := unmarked fraction
      (power? power).map fun e => Number.ofDigits negative (unmarked before ++ f) f.length e
    else none
  | _ => none

/-- The names of an infinity and of what is not a number. -/
def namedReal? (signed negative : Bool) (r : Text) : Option Binary64 :=
  let name := String.ofList r
  if [".inf", ".Inf", ".INF"].contains name then some (.infinite negative)
  else if !signed && [".nan", ".NaN", ".NAN"].contains name then some .nan
  else none

/-- The sum of places, the last one first, each times the power of sixty that it counts; that has to
be in the range of doubles. -/
def sixtySum : Binary64 → Nat → List Binary64 → Except Fault Binary64
  | sum, _, [] => .ok sum
  | sum, power, place :: places =>
    match Binary64.ofInt? power with
    | none => .error .tooLarge
    | some p => sixtySum (sum.add (place.mul p)) (60 * power) places

/-- The last place of a real number in base sixty, which has a point. -/
def lastPlace? (t : Text) : Option Binary64 :=
  match t.span (· != '.') with
  | (whole, '.' :: fraction) =>
    if fraction.all isDigitOrMark && (sixtyPlace? whole).isSome then
      let f := unmarked fraction
      some (Number.ofDigits false (whole ++ f) f.length 0)
    else none
  | _ => none

/-- A real number in base sixty, of at least two places. -/
def realSixties? (negative : Bool) (t : Text) : Option (Except Fault Binary64) :=
  match (Text.splitOn ':' t).reverse with
  | last :: rest@(_ :: _) => do
    let last ← lastPlace? last
    let first ← firstPlace? (rest.getLast?.getD [])
    let middle ← rest.dropLast.mapM sixtyPlace?
    let places := last :: middle.map Binary64.ofNat ++ [Number.ofDigits false first 0 0]
    return (sixtySum (.zero false) 1 places).map fun x => if negative then x.neg else x
  | _ => none

/-- A real number with an optional sign. -/
def real? (t : Text) : Option (Except Fault Binary64) :=
  let (negative, r) := Number.takeSign t
  let signed := r.length < t.length
  (((namedReal? signed negative r).or (pointed? signed negative r)).map .ok).or
    (realSixties? negative r)

/-! ## All scalars -/

/-- What a plain scalar means. -/
def read (t : Text) : Except Fault Document :=
  let name := String.ofList t
  if t = mergeMark || t = defaultMark then .error .brokenDocument
  else if nullNames.contains name then .ok .null
  else
    match truthNames.find? fun e => e.1 == name with
    | some (_, value) => .ok (.truth value)
    | none =>
      match real? t, whole? t, Moment.read? t with
      | some x, _, _ => x.map .real
      | none, some n, _ => (n.map .whole).mapError .scalar
      | none, none, some m => (m.map .moment).mapError fun e => .scalar (.calendar e)
      | none, none, none => .ok (.text t)

end Scalar
end TagReasoner
