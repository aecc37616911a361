/-!
Double-precision numbers seen through their bits: the exact value of a finite one, conversion
from and to 64-bit integers, and the two comparisons, one that leaves NaN out and one that
orders every bit pattern.
-/

namespace PacketQuery.Number

/-- A finite double as sign, mantissa and exponent: the value is ± mantissa · 2 ^ exponent. -/
structure Finite where
  negative : Bool
  mantissa : Nat
  exponent : Int
  deriving DecidableEq, Repr

/-- The highest bit of a double, set in the negative ones. -/
def signBit : Nat := 0x8000000000000000

/-- The leading bit of a mantissa, which the bits of a normal double leave out. -/
def leadingBit : Nat := 0x10000000000000

/-- The parts of a finite double, `none` for an infinity or NaN. -/
def finite? (x : Float) : Option Finite :=
  let bits : Nat := x.toBits.toNat
  let negative := decide (signBit ≤ bits)
  let biased : Nat := bits / leadingBit % 2048
  let fraction : Nat := bits % leadingBit
  if biased = 2047 then none
  else if biased = 0 then some ⟨negative, fraction, -1074⟩
  else some ⟨negative, leadingBit + fraction, (biased : Int) - 1075⟩

/-- The whole part, toward zero. -/
def Finite.truncate (x : Finite) : Int :=
  let whole : Nat := if 0 ≤ x.exponent then x.mantissa <<< x.exponent.toNat
    else x.mantissa >>> (-x.exponent).toNat
  if x.negative then -(whole : Int) else whole

/-- The 64-bit integer with the value `n`, if there is one. -/
def int64? (n : Int) : Option Int64 :=
  if Int64.minValue.toInt ≤ n ∧ n ≤ Int64.maxValue.toInt then some (Int64.ofInt n) else none

/-- The 64-bit integer nearest to `n`. -/
def clampInt64 (n : Int) : Int64 :=
  if n < Int64.minValue.toInt then Int64.minValue
  else if Int64.maxValue.toInt < n then Int64.maxValue
  else Int64.ofInt n

/-- The double nearest to an integer, a half going to the even neighbour. -/
def ofInt64 (n : Int64) : Float :=
  .ofModel (.ofInt64 n)

/-- The order of two doubles where neither is NaN. -/
def order? (x y : Float) : Option Ordering :=
  if x < y then some .lt else if x == y then some .eq else if y < x then some .gt else none

/-- The place of a double in the total order of bit patterns: the negative ones below the others
and by falling magnitude, so that -0 comes just before +0 and NaN lies outside the infinities. -/
def totalKey (x : Float) : Int :=
  let bits : Nat := x.toBits.toNat
  if signBit ≤ bits then -((bits - signBit : Nat) : Int) - 1 else bits

/-- The total order of bit patterns. -/
def totalOrder (x y : Float) : Ordering :=
  compare (totalKey x) (totalKey y)

end PacketQuery.Number
