import PacketQuery.Number.Shortest
/-!
How a double is written: which of two equally good decimals is taken, where positional notation
ends, and what marks a whole number.
-/

namespace PacketQuery.Number

/-- The choices of one way of writing doubles. -/
structure Layout where
  tie : Tie
  /-- Exponents of the leading digit that are written positionally; all when absent. -/
  positional : Option (Int × Int)
  /-- What follows the digits of a whole number in positional notation. -/
  wholeSuffix : String

/-- Every digit before and after the point, and whole numbers without a point. -/
def Layout.plain : Layout := ⟨.up, none, ""⟩

/-- Positional from 10 ^ -5 to below 10 ^ 16, and whole numbers with `.0`. -/
def Layout.compact : Layout := ⟨.even, some (-5, 15), ".0"⟩

/-- The digits of `d` · 10 ^ `exponent` with the point in its place. -/
def Layout.positionalText (layout : Layout) (ds : List Char) (exponent : Int) : List Char :=
  if 0 ≤ exponent then
    ds ++ List.replicate exponent.toNat '0' ++ layout.wholeSuffix.toList
  else
    let places := (-exponent).toNat
    if places < ds.length then ds.take (ds.length - places) ++ '.' :: ds.drop (ds.length - places)
    else '0' :: '.' :: (List.replicate (places - ds.length) '0' ++ ds)

/-- The digits with a point after the first, and the exponent with its sign. -/
def exponentialText (ds : List Char) (lead : Int) : List Char :=
  let fraction := match ds.tail with
    | [] => []
    | rest => '.' :: rest
  ds.take 1 ++ fraction ++ 'e' :: (if lead < 0 then '-' else '+') :: Nat.toDigits 10 lead.natAbs

/-- The text of a decimal without its sign. -/
def Layout.decimalText (layout : Layout) (x : Decimal) : List Char :=
  let ds := Nat.toDigits 10 x.digits
  let lead := (ds.length : Int) - 1 + x.exponent
  match layout.positional with
  | none => layout.positionalText ds x.exponent
  | some (least, greatest) =>
    if least ≤ lead ∧ lead ≤ greatest then layout.positionalText ds x.exponent
    else exponentialText ds lead

/-- The text of a finite double. -/
def Layout.finiteText (layout : Layout) (x : Finite) : String :=
  let digits := if x.mantissa = 0 then ⟨0, 0⟩ else shortest layout.tie x.mantissa x.exponent
  String.ofList ((if x.negative then ['-'] else []) ++ layout.decimalText digits)

/-- The text of any double in plain layout. -/
def floatText (x : Float) : String :=
  match finite? x with
  | some f => Layout.plain.finiteText f
  | none => if x == x then (if x < 0 then "-inf" else "inf") else "NaN"

end PacketQuery.Number
