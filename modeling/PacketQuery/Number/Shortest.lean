import PacketQuery.Number.Double
/-!
The shortest decimal that reads back as a given double. A decimal reads back if it lies in the
interval of reals that round to the double, whose ends belong to it when the mantissa is even.
The search goes from coarse decimal grids to fine ones; on each it tries the two grid points
around the value, and the first grid with a point in the interval gives the fewest digits.
-/

namespace PacketQuery.Number

/-- A positive decimal: `digits` · 10 ^ `exponent`. -/
structure Decimal where
  digits : Nat
  exponent : Int
  deriving DecidableEq, Repr

/-- Which of two decimals is taken that are equally short and equally near. -/
inductive Tie
  /-- The one whose last digit is even. -/
  | even
  /-- The greater one. -/
  | up
  deriving DecidableEq, Repr

/-- The ratio 2 ^ `two` / 10 ^ `ten` as a fraction. -/
def scale (two ten : Int) : Nat × Nat :=
  (Nat.pow 10 (-ten).toNat <<< two.toNat, Nat.pow 10 ten.toNat <<< (-two).toNat)

/-- The grid point of step 10 ^ `ten` that reads back as the positive double
`mantissa` · 2 ^ `exponent` and lies nearest to it; on an exact tie `tie` decides.
The interval is counted in quarters of the last mantissa bit; below the double whose mantissa is
the least of its exponent it is half as wide. -/
def gridPoint? (tie : Tie) (mantissa : Nat) (exponent ten : Int) : Option Nat :=
  let (num, den) := scale (exponent - 2) ten
  let value := 4 * mantissa * num
  let low := (4 * mantissa - (if mantissa = leadingBit ∧ -1074 < exponent then 1 else 2)) * num
  let high := (4 * mantissa + 2) * num
  let inside := fun d : Nat =>
    if mantissa % 2 = 0 then decide (low ≤ d * den ∧ d * den ≤ high)
    else decide (low < d * den ∧ d * den < high)
  let below := value / den
  let above := below + 1
  match inside below, inside above with
  | true, false => some below
  | false, true => some above
  | false, false => none
  | true, true =>
    -- Both points read back, so the nearer one is taken.
    let down := value - below * den
    let up := above * den - value
    if down < up ∨ down = up ∧ tie = .even ∧ below % 2 = 0 then some below else some above

/-- The first grid point that reads back, over `steps` grids from step 10 ^ `ten` downward. -/
def searchGrids (tie : Tie) (mantissa : Nat) (exponent : Int) : Nat → Int → Option Decimal
  | 0, _ => none
  | steps + 1, ten =>
    match gridPoint? tie mantissa exponent ten with
    | some d => some ⟨d, ten⟩
    | none => searchGrids tie mantissa exponent steps (ten - 1)

/-- The shortest decimal of a positive double, the nearest of that length. Seventeen digits are
always enough, and the first grid is at most three steps coarser than the value. -/
def shortest (tie : Tie) (mantissa : Nat) (exponent : Int) : Decimal :=
  let ten := ((mantissa.log2 : Int) + 1 + exponent) * 30103 / 100000 + 2
  (searchGrids tie mantissa exponent 24 ten).getD ⟨mantissa, 0⟩

end PacketQuery.Number
