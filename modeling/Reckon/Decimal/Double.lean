/-
Doubles as whole numbers.

A finite double is a sign and `m * 2 ^ q` with whole `m` and `q`.  Reading a double
off a fraction picks the nearest one, and of two equally near ones the one with the
even `m`, in exact arithmetic.
-/

namespace Reckon.Decimal

/-- What a double stands for. -/
inductive Double where
  | finite (negative : Bool) (m : Nat) (q : Int)
  | infinite (negative : Bool)
  | nan
deriving DecidableEq, Repr

namespace Double

/-- The least exponent of a finite double. -/
def leastExponent : Int := -1074

/-- The sign, the whole number and the exponent in a double's bits. -/
def ofFloat (x : Float) : Double :=
  let bits := x.toBits.toNat
  let negative := decide (Nat.pow 2 63 ≤ bits)
  let exponent : Nat := bits / Nat.pow 2 52 % Nat.pow 2 11
  let fraction : Nat := bits % Nat.pow 2 52
  if exponent = 2047 then
    if fraction = 0 then infinite negative else nan
  else if exponent = 0 then finite negative fraction leastExponent
  else finite negative (Nat.pow 2 52 + fraction) (exponent - 1075)

end Double

/-- The whole number nearest to a fraction; of two equally near ones the even one. -/
def nearestEven (num den : Nat) : Nat :=
  let whole := num / den
  let twice := 2 * (num % den)
  if den < twice || (twice = den && whole % 2 = 1) then whole + 1 else whole

/-- The exponent at which a positive fraction has a whole part of 53 bits, or the least
exponent there is. -/
def exponentOf (num den : Nat) : Int :=
  let guess : Int := (num.log2 : Int) - den.log2 - 52
  let short := num * Nat.pow 2 (-guess).toNat < Nat.pow 2 52 * (den * Nat.pow 2 guess.toNat)
  max (if short then guess - 1 else guess) Double.leastExponent

/-- The double nearest to a positive fraction.  A whole part that rounds up to 54 bits carries
into the exponent, and what is too large is infinite. -/
def nearestFloat (num den : Nat) : Float :=
  let q := exponentOf num den
  let m := nearestEven (num * Nat.pow 2 (-q).toNat) (den * Nat.pow 2 q.toNat)
  let bits := (q - Double.leastExponent).toNat * Nat.pow 2 52 + m
  Float.ofBits (UInt64.ofNat (min bits (2047 * Nat.pow 2 52)))

/-- The double nearest to `coefficient / 10 ^ places`. -/
def toFloat (coefficient places : Nat) : Float :=
  if coefficient = 0 then 0 else nearestFloat coefficient (Nat.pow 10 places)

end Reckon.Decimal
