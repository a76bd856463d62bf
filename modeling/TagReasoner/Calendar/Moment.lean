import TagReasoner.Text.DecimalDigit
import TagReasoner.Text.Pieces

/-!
# Moments

A moment is a day of the calendar or a time on a day, perhaps with its offset from universal time.
Numbers that name no day, time or offset are refused when one is made of them, so the values of
these types are valid.

A moment has two texts: the plain one, and a description that tells its parts.
-/

namespace TagReasoner

/-- Why numbers are no moment. -/
inductive CalendarError where
  | year (got : Nat)
  | month
  | day
  | hour
  | minute
  | second
  /-- An offset of a day or more. -/
  | offset (minutes : Int)
  deriving DecidableEq

/-! ## Days -/

/-- Has the year a leap day? -/
def isLeapYear (year : Nat) : Bool := year % 4 = 0 && (year % 100 ≠ 0 || year % 400 = 0)

/-- How many days the months have, in a year without a leap day. -/
def monthLengths : List Nat := [31, 28, 31, 30, 31, 30, 31, 31, 30, 31, 30, 31]

/-- How many days a month has. -/
def daysInMonth (year month : Nat) : Nat :=
  if month = 2 && isLeapYear year then 29 else monthLengths.getD (month - 1) 0

/-- A day of the calendar. -/
structure Day where
  year : Nat
  month : Nat
  day : Nat
  year_pos : 0 < year
  month_valid : 0 < month ∧ month ≤ 12
  day_valid : 0 < day ∧ day ≤ daysInMonth year month
  deriving DecidableEq

/-- The day with these numbers. -/
def Day.of (year month day : Nat) : Except CalendarError Day :=
  if hy : 0 < year then
    if hm : 0 < month ∧ month ≤ 12 then
      if hd : 0 < day ∧ day ≤ daysInMonth year month then .ok ⟨year, month, day, hy, hm, hd⟩
      else .error .day
    else .error .month
  else .error (.year year)

/-- The numbers of a day make it again. -/
theorem Day.of_numbers (d : Day) : Day.of d.year d.month d.day = .ok d := by
  rw [Day.of, dif_pos d.year_pos, dif_pos d.month_valid, dif_pos d.day_valid]

/-- The days in the first months of a year. -/
def daysInMonths (year : Nat) : Nat → Nat
  | 0 => 0
  | months + 1 => daysInMonths year months + daysInMonth year (months + 1)

/-- The place of a day in the calendar, counted in days. -/
def Day.ordinal (d : Day) : Nat :=
  let before := d.year - 1
  365 * before + before / 4 - before / 100 + before / 400 +
    daysInMonths d.year (d.month - 1) + d.day

/-- The day as year, month and day of the month. -/
def Day.text (d : Day) : Text :=
  Text.padded 4 d.year ++ '-' :: Text.padded 2 d.month ++ '-' :: Text.padded 2 d.day

/-! ## Times -/

/-- A time of the day. -/
structure TimeOfDay where
  hour : Nat
  minute : Nat
  second : Nat
  /-- Millionths of a second. -/
  micros : Nat
  hour_lt : hour < 24
  minute_lt : minute < 60
  second_lt : second < 60
  deriving DecidableEq

/-- The time with these numbers. -/
def TimeOfDay.of (hour minute second micros : Nat) : Except CalendarError TimeOfDay :=
  if hh : hour < 24 then
    if hm : minute < 60 then
      if hs : second < 60 then .ok ⟨hour, minute, second, micros, hh, hm, hs⟩ else .error .second
    else .error .minute
  else .error .hour

/-- The numbers of a time make it again. -/
theorem TimeOfDay.of_numbers (t : TimeOfDay) :
    TimeOfDay.of t.hour t.minute t.second t.micros = .ok t := by
  rw [TimeOfDay.of, dif_pos t.hour_lt, dif_pos t.minute_lt, dif_pos t.second_lt]

/-- The seconds of the day that have passed, without millionths. -/
def TimeOfDay.seconds (t : TimeOfDay) : Nat := (t.hour * 60 + t.minute) * 60 + t.second

/-- The time with its millionths, if there are any. -/
def TimeOfDay.text (t : TimeOfDay) : Text :=
  Text.padded 2 t.hour ++ ':' :: Text.padded 2 t.minute ++ ':' :: Text.padded 2 t.second ++
    if t.micros = 0 then [] else '.' :: Text.padded 6 t.micros

/-- A distance from universal time of less than a day, in minutes to the east. -/
structure Offset where
  minutes : Int
  within_day : minutes.natAbs < 1440
  deriving DecidableEq

/-- No distance. -/
def Offset.universal : Offset := ⟨0, by decide⟩

/-- The offset of so many minutes. -/
def Offset.of (minutes : Int) : Except CalendarError Offset :=
  if h : minutes.natAbs < 1440 then .ok ⟨minutes, h⟩ else .error (.offset minutes)

/-- The offset as hours and minutes with a sign. -/
def Offset.text (o : Offset) : Text :=
  let n := o.minutes.natAbs
  (if o.minutes < 0 then '-' else '+') :: Text.padded 2 (n / 60) ++ ':' :: Text.padded 2 (n % 60)

/-! ## Moments -/

/-- A day, or a time on a day. -/
inductive Moment where
  | date (day : Day)
  | time (day : Day) (time : TimeOfDay) (offset : Option Offset)
  deriving DecidableEq

/-- The seconds up to a time with an offset, in universal time. -/
def universalSeconds (d : Day) (t : TimeOfDay) (o : Offset) : Int :=
  d.ordinal * 86400 + t.seconds - o.minutes * 60

/-- The moments are the same. Times with an offset are compared in universal time; they differ from
those without, and days differ from times. -/
def Moment.same : Moment → Moment → Bool
  | time d t (some o), time e u (some p) =>
    universalSeconds d t o == universalSeconds e u p && t.micros == u.micros
  | m, n => m == n

/-- The day, and the time behind it. -/
def Moment.text : Moment → Text
  | date d => d.text
  | time d t o => d.text ++ ' ' :: t.text ++ (o.map Offset.text).getD []

/-- A call of a maker with its arguments. -/
def describedCall (maker : String) (arguments : List Text) : Text :=
  "datetime.".toList ++ maker.toList ++ '(' :: Text.join [',', ' '] arguments ++ [')']

/-- The description of a stretch of minutes: days, and the seconds of the day that is left. -/
def describedMinutes (minutes : Int) : Text :=
  let days := minutes / 1440
  let seconds := minutes % 1440 * 60
  let parts :=
    (if days = 0 then [] else ["days=".toList ++ Text.ofInt days]) ++
      if seconds = 0 then [] else ["seconds=".toList ++ Text.ofInt seconds]
  describedCall "timedelta" (if parts.isEmpty then [['0']] else parts)

/-- The description of an offset. -/
def Offset.description (o : Offset) : Text :=
  if o.minutes = 0 then "datetime.timezone.utc".toList
  else describedCall "timezone" [describedMinutes o.minutes]

/-- The parts of a time without the last ones that are zero, but with hour and minute. -/
def TimeOfDay.parts (t : TimeOfDay) : List Nat :=
  if t.micros ≠ 0 then [t.hour, t.minute, t.second, t.micros]
  else if t.second ≠ 0 then [t.hour, t.minute, t.second]
  else [t.hour, t.minute]

/-- The moment told by its parts. -/
def Moment.description : Moment → Text
  | date d => describedCall "date" ([d.year, d.month, d.day].map Text.ofNat)
  | time d t o =>
    describedCall "datetime" <|
      ([d.year, d.month, d.day] ++ t.parts).map Text.ofNat ++
        o.toList.map fun o => "tzinfo=".toList ++ o.description

/-- The complaint in words. -/
def CalendarError.message : CalendarError → Text
  | year got => "year ".toList ++ Text.ofNat got ++ " is out of range".toList
  | month => "month must be in 1..12".toList
  | day => "day is out of range for month".toList
  | hour => "hour must be in 0..23".toList
  | minute => "minute must be in 0..59".toList
  | second => "second must be in 0..59".toList
  | offset minutes =>
    "offset must be a timedelta strictly between -timedelta(hours=24) and ".toList ++
      "timedelta(hours=24), not ".toList ++ describedMinutes minutes ++ ['.']

end TagReasoner
