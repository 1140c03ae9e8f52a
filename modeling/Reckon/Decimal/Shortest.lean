/-
The shortest decimal that reads back as a given double.

The reals that round to `m * 2 ^ q` form an interval.  For one digit, two digits and
so on, the grid of decimals with that many digits is tested at the two points next to
the value; the first grid with a point in the interval gives the answer.  Of two such
points the nearer one is taken, and the larger one if both are equally near.
Seventeen digits always suffice.
-/
import Reckon.Decimal.Double

namespace Reckon.Decimal

/-- The number `coefficient * 10 ^ exponent`. -/
structure Scaled where
  coefficient : Nat
  exponent : Int
deriving DecidableEq, Repr

/-- The reals that round to one double, as whole multiples of one fraction `num / den`. -/
structure Interval where
  low : Nat
  value : Nat
  high : Nat
  /-- Whether the ends belong to the interval. -/
  closed : Bool
  num : Nat
  den : Nat

namespace Interval

/-- The interval of `m * 2 ^ q` in quarters of its last place.  Below a power of two the
neighbour is twice as near, and the ends round to the value itself only if `m` is even. -/
def ofDouble (m : Nat) (q : Int) : Interval where
  low := 4 * m - (if m = Nat.pow 2 52 && q != Double.leastExponent then 1 else 2)
  value := 4 * m
  high := 4 * m + 2
  closed := m % 2 = 0
  num := Nat.pow 2 (q - 2).toNat
  den := Nat.pow 2 (2 - q).toNat

/-- The same interval, measured in steps of `10 ^ exponent`. -/
def inSteps (i : Interval) (exponent : Int) : Interval :=
  { i with
    num := i.num * Nat.pow 10 (-exponent).toNat
    den := i.den * Nat.pow 10 exponent.toNat }

/-- Whether a whole number of steps lies in the interval. -/
def holds (i : Interval) (steps : Nat) : Bool :=
  let point := steps * i.den
  if i.closed then i.low * i.num ≤ point && point ≤ i.high * i.num
  else i.low * i.num < point && point < i.high * i.num

/-- The whole number of steps next to the value that lies in the interval, if there is one. -/
def pick? (i : Interval) : Option Nat :=
  let below := i.value * i.num / i.den
  match i.holds below, i.holds (below + 1) with
  | true, true =>
    if 2 * (i.value * i.num % i.den) < i.den then some below else some (below + 1)
  | true, false => some below
  | false, true => some (below + 1)
  | false, false => none

/-- Refines the grid until it has a point in the interval, `left` times at most. -/
def search (i : Interval) : (left : Nat) → (exponent : Int) → Scaled
  | 0, exponent =>
    let grid := i.inSteps exponent
    ⟨grid.value * grid.num / grid.den, exponent⟩
  | left + 1, exponent =>
    match (i.inSteps exponent).pick? with
    | some steps => ⟨steps, exponent⟩
    | none => i.search left (exponent - 1)

end Interval

/-- The exponent of the leading decimal digit of `2 ^ (log2 m + q)`. -/
def leadingExponent (m : Nat) (q : Int) : Int :=
  ((m.log2 : Int) + q) * 30103 / 100000

/-- The shortest decimal that reads back as `m * 2 ^ q`.  The leading digit stands at the
estimated place or one to the left of it, so eighteen grids are enough. -/
def shortest (m : Nat) (q : Int) : Scaled :=
  if m = 0 then ⟨0, 0⟩
  else (Interval.ofDouble m q).search 18 (leadingExponent m q + 1)

end Reckon.Decimal
