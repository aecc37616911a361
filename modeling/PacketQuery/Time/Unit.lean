import PacketQuery.Number.Double
/-!
Units of time and moments reckoned back from the present, within 64 bits.
-/

namespace PacketQuery.Time

/-- A unit in which distances from the present are given. -/
inductive Unit
  | seconds
  | minutes
  | hours
  | days
  | weeks
  | months
  deriving DecidableEq, Repr

namespace Unit

/-- The letter that writes a unit; small `m` is minutes, capital `M` months. -/
def suffix : Unit → String
  | seconds => "s"
  | minutes => "m"
  | hours => "h"
  | days => "d"
  | weeks => "w"
  | months => "M"

/-- The unit that a letter writes. -/
def ofSuffix? (s : String) : Option Unit :=
  [seconds, minutes, hours, days, weeks, months].find? (·.suffix == s)

theorem ofSuffix?_suffix (u : Unit) : ofSuffix? u.suffix = some u := by
  cases u <;> decide

/-- The seconds of one unit; a month counts as a day. -/
def length : Unit → Int
  | seconds => 1
  | minutes => 60
  | hours => 3600
  | days | months => 86400
  | weeks => 7 * 86400

/-- The moment `offset` units before `now`, unless the distance or the moment leaves 64 bits. -/
def shiftBack (u : Unit) (now offset : Int64) : Option Int64 := do
  let distance ← Number.int64? (offset.toInt * u.length)
  Number.int64? (now.toInt - distance.toInt)

end Unit

end PacketQuery.Time
