import MipModel.Decimal.Shortest

/-!
# Layouts of decimals

A layout fixes everything about a written number that its digits leave open: the sign of a number
that is not negative, whether a whole number keeps a fraction, and which magnitudes are written
with an exponent. The library writes numbers in three layouts.
-/

namespace MipModel.Decimal

structure Layout where
  /-- A number that is not negative starts with a plus sign. -/
  plus : Bool
  /-- A whole number written without an exponent ends in a zero fraction. -/
  fraction : Bool
  /-- The powers of ten that are written without an exponent, from the first up to and including
  the second; `none` stands for all of them. -/
  positional : Option (Int × Int)

namespace Layout

/-- Numbers in running text: no sign, no fraction, never an exponent. -/
def plain : Layout := ⟨false, false, none⟩

/-- Coefficients and right sides of a written model: always a sign. -/
def signed : Layout := ⟨true, false, none⟩

/-- Members of a bracketed list: whole numbers keep a fraction, and magnitudes below `1e-4` or
from `1e16` on take an exponent. -/
def listed : Layout := ⟨false, true, some (-4, 15)⟩

def sign (layout : Layout) (negative : Bool) : String :=
  if negative then "-" else if layout.plus then "+" else ""

def zero (layout : Layout) : String :=
  if layout.fraction then "0.0" else "0"

def zeros (n : Nat) : String :=
  String.ofList (List.replicate n '0')

/-- The decimal digits with the point at its place. -/
def positionally (layout : Layout) (d : Decimal) : String :=
  let digits := Nat.toDigits 10 d.digits
  if 0 ≤ d.exponent then
    String.ofList digits ++ zeros d.exponent.toNat ++ if layout.fraction then ".0" else ""
  else
    let places := (-d.exponent).toNat
    if places < digits.length then
      String.ofList (digits.take (digits.length - places)) ++ "." ++
        String.ofList (digits.drop (digits.length - places))
    else
      "0." ++ zeros (places - digits.length) ++ String.ofList digits

def leadingPower (d : Decimal) : Int :=
  d.exponent + (Nat.toDigits 10 d.digits).length - 1

/-- One digit, the rest behind a point, and the power of ten of the leading digit. -/
def scientifically (d : Decimal) : String :=
  let digits := Nat.toDigits 10 d.digits
  let rest := if digits.length ≤ 1 then "" else "." ++ String.ofList (digits.drop 1)
  String.ofList (digits.take 1) ++ rest ++ "e" ++ toString (leadingPower d)

def magnitude (layout : Layout) (d : Decimal) : String :=
  match layout.positional with
  | none => layout.positionally d
  | some (first, last) =>
    if first ≤ leadingPower d ∧ leadingPower d ≤ last then layout.positionally d
    else scientifically d

end Layout
end MipModel.Decimal
