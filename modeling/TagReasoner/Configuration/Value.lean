import TagReasoner.Document.Basic

/-!
# Values of settings

A setting takes a whole number, a whole number above zero, a number or a text. Texts are read as
numbers, with some license.

* A whole number may have blanks around it, a plus sign, zeros in front, underscores between digits
  and zeros behind a point. Even a minus sign may stand behind the zeros in front.
* A number may have blanks around it or else single underscores inside of it, anywhere.

A value that does not suit its setting is refused for one of a few reasons.
-/

namespace TagReasoner
namespace SettingValue

/-! ## Texts -/

/-- The blanks around a number; the separators of ASCII are not among them. -/
def isSpace (c : Char) : Bool := Text.isBlank c && !(0x1C ≤ c.toNat && c.toNat ≤ 0x1F)

/-- The text without the blanks at either end. -/
def trimmed (t : Text) : Text := ((t.dropWhile isSpace).reverse.dropWhile isSpace).reverse

/-- The text without its underscores, if there are some, and single ones inside of it. -/
def ungrouped? (t : Text) : Option Text :=
  match Text.splitOn '_' t with
  | groups@(_ :: _ :: _) => if groups.all fun g => !g.isEmpty then some groups.flatten else none
  | _ => none

/-! ## Whole numbers -/

/-- A digit other than zero. -/
def isLeading (c : Char) : Bool := c.isDigit && c ≠ '0'

/-- A whole number in digits, without zeros in front. -/
def exactWhole? (t : Text) : Option Int :=
  let (negative, digits) := Number.takeMinus t
  if (digits = ['0'] || (digits.head?.map isLeading).getD false) && digits.all Char.isDigit &&
      t.length ≤ Number.digitLimit then
    let n : Int := Text.digitsValue digits
    some (if negative then -n else n)
  else none

/-- Does the text start with more digits than are read? -/
def startsTooLong (t : Text) : Bool :=
  let (negative, r) := Number.takeMinus t
  (r.head?.map isLeading).getD false &&
    Number.digitLimit < (r.takeWhile Char.isDigit).length + (if negative then 1 else 0)

/-- What follows zeros, of which underscores may set off any but the first. Of zeros alone one is
left, as in front of a point. -/
def behindZeros? : Text → Option Text
  | [] => some ['0']
  | '0' :: r => behindZeros? r
  | '_' :: '0' :: r => behindZeros? r
  | '_' :: c :: r => if isLeading c || c = '-' then some (c :: r) else none
  | '.' :: r => some ('0' :: '.' :: r)
  | c :: r => if isLeading c || c = '-' then some (c :: r) else none

/-- The text without zeros in front, if it starts like a number at all. -/
def withoutZeros? : Text → Option Text
  | '0' :: r => behindZeros? r
  | c :: r => if isLeading c || c = '-' then some (c :: r) else none
  | [] => none

/-- The text without a point that has nothing but zeros behind it. -/
def withoutFraction (t : Text) : Text :=
  match t.span (· ≠ '.') with
  | (whole, '.' :: zeros@(_ :: _)) => if zeros.all (· = '0') then whole else t
  | _ => t

/-- The text without a plus sign, which no minus sign may follow. -/
def withoutPlus? : Text → Option Text
  | '+' :: '-' :: _ => none
  | '+' :: r => some r
  | t => some t

/-- The text with all that is let pass in a whole number taken out. -/
def cleaned? (t : Text) : Option Text := do
  let t ← withoutZeros? (← withoutPlus? (trimmed t))
  let t := withoutFraction t
  return (ungrouped? t).getD t

/-- The whole number of a text. -/
def wholeText (t : Text) : Except Refusal Int :=
  if startsTooLong t then .error .outOfRange
  else
    match (exactWhole? t).or ((cleaned? t).bind exactWhole?) with
    | some n => .ok n
    | none => .error .notInteger

/-- Reals from here on, and from the negative of it down, are no values of a whole setting. -/
def wholeBound : Nat := Nat.pow 2 63

/-- The whole number that a real is. -/
def wholeReal (x : Binary64) : Except Refusal Int :=
  if !x.isFinite then .error .notFinite
  else
    match x.whole? with
    | none => .error .fractional
    | some n => if n.natAbs < wholeBound then .ok n else .error .outOfRange

/-- A whole number. -/
def whole : Document → Except Refusal Int
  | .whole n => .ok n
  | .truth b => .ok (if b then 1 else 0)
  | .real x => wholeReal x
  | .text t => wholeText t
  | _ => .error .integerWanted

/-- A whole number above zero. -/
def positive (d : Document) : Except Refusal { n : Nat // 0 < n } :=
  match whole d with
  | .error r => .error r
  | .ok n => if h : 0 < n.toNat then .ok ⟨n.toNat, h⟩ else .error .belowOne

/-! ## Real numbers -/

/-- The real number of a text of ASCII characters without blanks and underscores. -/
def plainReal? (t : Text) : Option Binary64 :=
  if t.all fun c => c.toNat < 0x80 && c ≠ '_' && !Text.isBlank c then Number.realNumber? t else none

/-- The real number of a text. -/
def realText (t : Text) : Except Refusal Binary64 :=
  match (plainReal? (trimmed t)).or ((ungrouped? t).bind plainReal?) with
  | some x => .ok x
  | none => .error .notNumber

/-- A number. -/
def real : Document → Except Refusal Binary64
  | .text t => realText t
  | d =>
    match d.number? with
    | some x => .ok x
    | none => .error .numberWanted

/-- A text. -/
def text : Document → Except Refusal Text
  | .text t => .ok t
  | _ => .error .textWanted

end SettingValue
end TagReasoner
