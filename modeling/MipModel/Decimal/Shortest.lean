/-!
# Shortest decimals

A positive binary number `mantissa * 2 ^ exponent` stands for every real that rounds to it. Among
the decimals in that interval the shortest one names the number; of several equally short ones, the
nearest to the number itself, and of two equally near, the larger.

The search walks the decimal grids `10 ^ k` from coarse to fine. On each grid only the two
neighbours of the number can be its best name, so a grid costs one division of natural numbers.
-/

namespace MipModel

/-- The number `digits * 10 ^ exponent`. -/
structure Decimal where
  digits : Nat
  exponent : Int
  deriving DecidableEq, Repr

namespace Decimal

/-- The reals that round to a binary number, in units of a common denominator: they lie between
`lower` and `upper`, around `centre`, and the two ends belong to them when `closed` holds. -/
structure Interval where
  lower : Nat
  centre : Nat
  upper : Nat
  denominator : Nat
  closed : Bool

namespace Interval

/-- The interval of `mantissa * 2 ^ exponent`. Its ends are half a unit in the last place away,
except below a power of two (`narrow`), where the neighbour is only half as far. Ties go to even
mantissas, so these own both of their ends. -/
def ofBinary (mantissa : Nat) (exponent : Int) (narrow : Bool) : Interval :=
  let unit := Nat.pow 2 (exponent - 2).toNat
  { lower := (4 * mantissa - if narrow then 1 else 2) * unit
    centre := 4 * mantissa * unit
    upper := (4 * mantissa + 2) * unit
    denominator := Nat.pow 2 (2 - exponent).toNat
    closed := mantissa % 2 == 0 }

/-- The same interval measured in units of `10 ^ k`. -/
def onGrid (i : Interval) (k : Int) : Interval :=
  let up := Nat.pow 10 (-k).toNat
  { lower := i.lower * up
    centre := i.centre * up
    upper := i.upper * up
    denominator := i.denominator * Nat.pow 10 k.toNat
    closed := i.closed }

/-- Whether the whole number `n` lies in the interval. -/
def contains (i : Interval) (n : Nat) : Bool :=
  let x := n * i.denominator
  if i.closed then i.lower ≤ x && x ≤ i.upper else i.lower < x && x < i.upper

/-- The whole number in the interval that is nearest to its centre, if there is one. -/
def nearest? (i : Interval) : Option Nat :=
  let below := i.centre / i.denominator
  let downward := 2 * (i.centre - below * i.denominator) < i.denominator
  match i.contains below, i.contains (below + 1) with
  | true, true => some (if downward then below else below + 1)
  | true, false => some below
  | false, true => some (below + 1)
  | false, false => none

/-- The first hit on the grids `10 ^ k`, `10 ^ (k - 1)`, and so on. -/
def firstHit (i : Interval) : Nat → Int → Decimal
  | 0, k => ⟨(i.onGrid k).centre / (i.onGrid k).denominator, k⟩
  | fuel + 1, k =>
    match (i.onGrid k).nearest? with
    | some digits => ⟨digits, k⟩
    | none => i.firstHit fuel (k - 1)

end Interval

/-- An exponent of ten above `mantissa * 2 ^ exponent`; the factor is the logarithm of two. -/
def ceilingExponent (mantissa : Nat) (exponent : Int) : Int :=
  (Nat.log2 mantissa + 1 + exponent) * 30103 / 100000 + 1

/-- The shortest decimal that rounds to `mantissa * 2 ^ exponent`. Seventeen digits always
suffice for a mantissa of 53 bits, so the search ends within twenty grids. -/
def shortest (mantissa : Nat) (exponent : Int) (narrow : Bool) : Decimal :=
  (Interval.ofBinary mantissa exponent narrow).firstHit 20 (ceilingExponent mantissa exponent)

end Decimal
end MipModel
