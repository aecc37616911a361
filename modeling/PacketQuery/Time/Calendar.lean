import PacketQuery.Text.Ascii
/-!
The proleptic Gregorian calendar in UTC: dates as day counts from 1970-01-01, the reading of
dates and times of day, and the text of a moment given in seconds since the epoch.
-/

namespace PacketQuery.Time

/-- A day of the calendar. Year 0 is the one before year 1. -/
structure Date where
  year : Int
  month : Nat
  day : Nat
  deriving DecidableEq, Repr

/-- A leap year has 366 days. -/
def isLeap (year : Int) : Bool :=
  year % 4 == 0 && (year % 100 != 0 || year % 400 == 0)

/-- The number of days of a month; zero for a month that does not exist. -/
def daysIn (year : Int) (month : Nat) : Nat :=
  match month with
  | 1 | 3 | 5 | 7 | 8 | 10 | 12 => 31
  | 4 | 6 | 9 | 11 => 30
  | 2 => if isLeap year then 29 else 28
  | _ => 0

def Date.isValid (d : Date) : Bool :=
  1 ≤ d.day && d.day ≤ daysIn d.year d.month

/-- Days from 1970-01-01. Years are counted from March, so that the leap day comes last, and
grouped into eras of 400 years, which all have 146097 days. -/
def Date.toDays (d : Date) : Int :=
  let year : Int := if d.month ≤ 2 then d.year - 1 else d.year
  let era := year / 400
  let yearOfEra := year % 400
  let dayOfYear : Int := (153 * ((d.month + 9 : Nat) % 12 : Nat) + 2) / 5 + d.day - 1
  era * 146097 + (yearOfEra * 365 + yearOfEra / 4 - yearOfEra / 100 + dayOfYear) - 719468

/-- The date that lies `days` after 1970-01-01. -/
def Date.ofDays (days : Int) : Date :=
  let shifted := days + 719468
  let era := shifted / 146097
  let dayOfEra := shifted % 146097
  let yearOfEra := (dayOfEra - dayOfEra / 1460 + dayOfEra / 36524 - dayOfEra / 146096) / 365
  let dayOfYear := dayOfEra - (365 * yearOfEra + yearOfEra / 4 - yearOfEra / 100)
  let monthFromMarch := (5 * dayOfYear + 2) / 153
  let day := dayOfYear - (153 * monthFromMarch + 2) / 5 + 1
  let month := if monthFromMarch < 10 then monthFromMarch + 3 else monthFromMarch - 9
  ⟨yearOfEra + era * 400 + (if month ≤ 2 then 1 else 0), month.toNat, day.toNat⟩

def secondsPerDay : Int := 86400

/-- A decimal number of at most `width` digits. -/
def number? (width : Nat) (cs : List Char) : Option Nat :=
  if cs.length ≤ width then Text.decimal? cs else none

/-- A date written as year, month and day between minus signs, the year in at most four digits
and the others in at most two. -/
def readDate? (cs : List Char) : Option Date :=
  match Text.pieces '-' cs with
  | [y, m, d] => do
    let date : Date := ⟨(← number? 4 y : Nat), ← number? 2 m, ← number? 2 d⟩
    if date.isValid then some date else none
  | _ => none

/-- A time of day, as seconds from midnight, written as hours, minutes and seconds between
colons in at most two digits each. Second 60 stands for the last one of its minute. -/
def readClock? (cs : List Char) : Option Nat :=
  match Text.pieces ':' cs with
  | [h, m, s] => do
    let hours ← number? 2 h
    let minutes ← number? 2 m
    let seconds ← number? 2 s
    if hours < 24 ∧ minutes < 60 ∧ seconds ≤ 60 then
      some (hours * 3600 + minutes * 60 + min seconds 59)
    else none
  | _ => none

/-- Midnight of a date. -/
def ofDate (d : Date) : Int :=
  d.toDays * secondsPerDay

/-- Midnight of the day on which the moment `now` falls. -/
def midnight (now : Int) : Int :=
  now / secondsPerDay * secondsPerDay

/-- Four digits for the years 0 to 9999, else a sign and at least four digits. -/
def yearText (year : Int) : String :=
  if 0 ≤ year ∧ year ≤ 9999 then Text.digits 4 year.toNat
  else (if year < 0 then "-" else "+") ++ Text.digits 4 year.natAbs

/-- The years that have a text. -/
def hasText (year : Int) : Bool :=
  -262143 ≤ year && year ≤ 262142

/-- Date and time of day of a moment; the bare number of seconds for a year without text. -/
def text (seconds : Int) : String :=
  let date := Date.ofDays (seconds / secondsPerDay)
  let clock := (seconds % secondsPerDay).toNat
  if hasText date.year then
    yearText date.year ++ "-" ++ Text.digits 2 date.month ++ "-" ++ Text.digits 2 date.day ++ " "
      ++ Text.digits 2 (clock / 3600) ++ ":" ++ Text.digits 2 (clock / 60 % 60) ++ ":"
      ++ Text.digits 2 (clock % 60)
  else toString seconds

end PacketQuery.Time
