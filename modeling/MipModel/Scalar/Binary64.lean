import MipModel.Decimal.Layout
import MipModel.Scalar.Basic

/-!
# Binary64 scalars

A binary64 number is taken apart into a sign, a mantissa and an exponent; from there on its
integer value, its rounding and its text are computed exactly, in natural numbers. Arithmetic and
comparisons are those of the floating-point type itself.

Selecting the lesser or greater of two numbers passes over one that is not a number, and of an
empty or wholly undefined list the least member is positive infinity, the greatest negative
infinity.
-/

namespace MipModel.Binary64

/-- A binary64 number taken apart. -/
inductive Parts where
  /-- Not a number. -/
  | undefined
  /-- One of the two infinities. -/
  | infinite (negative : Bool)
  /-- The number `mantissa * 2 ^ exponent`, or its negation. -/
  | finite (negative : Bool) (mantissa : Nat) (exponent : Int)
  deriving DecidableEq, Repr

/-- The mantissa of a power of two, a one before 52 zeros. -/
def leadingOne : Nat := 0x10000000000000

def signPlace : Nat := 0x8000000000000000

/-- Read the sign bit, the eleven exponent bits and the 52 fraction bits. Fractions of exponent
zero have no leading one. -/
def parts (x : Float) : Parts :=
  let bits := x.toBits.toNat
  let negative := decide (signPlace ≤ bits)
  let exponent : Nat := bits / leadingOne % 2048
  let fraction := bits % leadingOne
  if exponent = 2047 then
    if fraction = 0 then .infinite negative else .undefined
  else if exponent = 0 then .finite negative fraction (-1074)
  else .finite negative (leadingOne + fraction) (exponent - 1075)

def withSign (negative : Bool) (n : Nat) : Int :=
  if negative then -n else n

/-- The integer that a number is equal to, if there is one. -/
def integer? (x : Float) : Option Int :=
  match parts x with
  | .finite negative mantissa exponent =>
    if 0 ≤ exponent then some (withSign negative (mantissa * Nat.pow 2 exponent.toNat))
    else
      let scale := Nat.pow 2 (-exponent).toNat
      if mantissa % scale = 0 then some (withSign negative (mantissa / scale)) else none
  | _ => none

/-- The nearest whole number, with the sign of the argument; a half goes away from zero. -/
def round (x : Float) : Float :=
  match parts x with
  | .finite negative mantissa exponent =>
    if 0 ≤ exponent then x
    else
      let scale := Nat.pow 2 (-exponent).toNat
      let whole := Float.ofInt ((2 * mantissa + scale) / (2 * scale) : Nat)
      if negative then -whole else whole
  | _ => x

def infinity : Float := Float.ofBits 0x7FF0000000000000

/-- The lesser of two numbers, passing over one that is not a number. Two zeros are equal whatever
their signs, and the second of two equal numbers is taken. -/
def least (a b : Float) : Float :=
  if b.isNaN || a < b then a else b

/-- The greater of two numbers, passing over one that is not a number. Two zeros are equal whatever
their signs, and the second of two equal numbers is taken. -/
def greatest (a b : Float) : Float :=
  if b.isNaN || b < a then a else b

def write (layout : Decimal.Layout) (x : Float) : String :=
  match parts x with
  | .undefined => "NaN"
  | .infinite negative => layout.sign negative ++ "inf"
  | .finite negative mantissa exponent =>
    let narrow := mantissa == leadingOne && decide (-1074 < exponent)
    layout.sign negative ++
      if mantissa = 0 then layout.zero
      else layout.magnitude (Decimal.shortest mantissa exponent narrow)

instance instScalar : Scalar Float where
  zero := 0.0
  one := 1.0
  decLe := Float.decLe
  decLt := Float.decLt
  ofInt := Float.ofInt
  integer? := integer?
  isFinite := Float.isFinite
  abs := Float.abs
  round := round
  least := least
  greatest := greatest
  leastOf := List.foldl least infinity
  greatestOf := List.foldl greatest (-infinity)
  text := write .plain
  signedText := write .signed
  listedText := write .listed

end MipModel.Binary64
