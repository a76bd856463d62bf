import TagReasoner.Calendar.Moment

/-!
# Reading moments

A day is written as year, month and day of the month, with four, two and two digits and hyphens
between them. A time follows a day, of which month and day may then have one digit, behind a `T` or
blanks: hour, minute and second with colons between them, perhaps a fraction of the second, perhaps
an offset. `Moment.read?` tells apart a text that is not spelled like a moment and one that is but
names none.
-/

namespace TagReasoner
namespace Moment

/-- The number of at most `most` digits at the start, of which there are `least` or more. -/
def numeral? (least most : Nat) (t : Text) : Option (Nat × Text) :=
  let digits := (t.take most).takeWhile Char.isDigit
  if digits.length < least then none
  else some (Text.digitsValue digits, t.drop digits.length)

/-- What follows a mark at the start. -/
def behind? (mark : Char) : Text → Option Text
  | c :: r => if c = mark then some r else none
  | [] => none

/-- Year, month and day, the last two with `least` digits or more, and what follows. -/
def dayNumbers? (least : Nat) (t : Text) : Option ((Nat × Nat × Nat) × Text) := do
  let (year, r) ← numeral? 4 4 t
  let (month, r) ← numeral? least 2 (← behind? '-' r)
  let (day, r) ← numeral? least 2 (← behind? '-' r)
  return ((year, month, day), r)

/-- A space or a tab. -/
def isGapChar (c : Char) : Bool := c = ' ' || c = '\t'

/-- What follows the mark between day and time: a letter or blanks. -/
def behindDay? : Text → Option Text
  | c :: r =>
    if c = 'T' || c = 't' then some r
    else if isGapChar c then some (r.dropWhile isGapChar)
    else none
  | [] => none

/-- The millionths of a second that a fraction has, further digits cut off; and what follows. -/
def fraction : Text → Nat × Text
  | '.' :: r =>
    let digits := r.takeWhile Char.isDigit
    let six := digits.take 6
    (Text.digitsValue six * Nat.pow 10 (6 - six.length), r.drop digits.length)
  | t => (0, t)

/-- The minutes of an offset with a sign in front: hours, and perhaps minutes. -/
def offsetMinutes? (negative : Bool) (t : Text) : Option Int := do
  let (hours, r) ← numeral? 1 2 t
  let minutes ← match r with
    | [] => some 0
    | r => do
      let (minutes, r) ← numeral? 2 2 (← behind? ':' r)
      if r.isEmpty then some minutes else none
  let n : Int := (hours * 60 + minutes : Nat)
  return if negative then -n else n

/-- The offset that ends a time, in minutes; there may be none. -/
def offset? (t : Text) : Option (Option Int) :=
  match t.dropWhile isGapChar with
  | [] => if t.isEmpty then some none else none
  | ['Z'] => some (some 0)
  | '+' :: r => (offsetMinutes? false r).map some
  | '-' :: r => (offsetMinutes? true r).map some
  | _ => none

/-- Hour, minute, second and millionths, and the minutes of the offset. -/
def timeNumbers? (t : Text) : Option ((Nat × Nat × Nat × Nat) × Option Int) := do
  let (hour, r) ← numeral? 1 2 t
  let (minute, r) ← numeral? 2 2 (← behind? ':' r)
  let (second, r) ← numeral? 2 2 (← behind? ':' r)
  let (micros, r) := fraction r
  return ((hour, minute, second, micros), ← offset? r)

/-- The moment that a text is spelled like, or what is wrong with its numbers: with the offset
first, then with the day, then with the time. -/
def read? (t : Text) : Option (Except CalendarError Moment) :=
  match dayNumbers? 2 t with
  | some ((year, month, day), []) => some ((Day.of year month day).map .date)
  | _ => do
    let ((year, month, day), r) ← dayNumbers? 1 t
    let ((hour, minute, second, micros), minutes) ← timeNumbers? (← behindDay? r)
    return do
      let offset ← minutes.mapM Offset.of
      return .time (← Day.of year month day) (← TimeOfDay.of hour minute second micros) offset

end Moment
end TagReasoner
