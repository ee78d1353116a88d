import Bundler.Number.Binary64

/-!
# Shortest decimal text

A number is written with the fewest decimal digits that read back as the same
value; among those the nearest to it, and the greater one of two that are
equally near.  The text is always positional, without an exponent.

The candidates come from the decimal grids around the value: for one digit, two
digits and so on, the grid points next to the value are tried, and the first
grid with a point in the interval of reals that round to the value wins.
-/

namespace Bundler

namespace Binary64

/-- A positive value with the reals that round to it, over the common
denominator `2 ^ 1076`. -/
structure Interval where
  value : Nat
  low : Nat
  high : Nat
  /-- Whether the ends of the interval round to the value as well. -/
  closed : Bool

namespace Interval

def denominator : Nat := Nat.pow 2 1076

/-- The interval around `significand * 2 ^ exponent` units.  Below a power of
two the neighbour is only half as far away. -/
def ofUnits (significand exponent : Nat) : Interval :=
  let below := if significand = Nat.pow 2 52 then 1 else 2
  let scale := Nat.pow 2 exponent
  { value := 4 * significand * scale
    low := (4 * significand - below) * scale
    high := (4 * significand + 2) * scale
    closed := significand % 2 = 0 }

/-- Whether `num / den` lies in the interval. -/
def holds (interval : Interval) (num den : Nat) : Bool :=
  let point := num * denominator
  let low := interval.low * den
  let high := interval.high * den
  if interval.closed then low ≤ point && point ≤ high
  else low < point && point < high

end Interval

/-- A decimal `digits * 10 ^ exponent`. -/
structure Decimal where
  digits : Nat
  exponent : Int

namespace Decimal

/-- The decimal as a quotient. -/
def ratio (decimal : Decimal) : Nat × Nat :=
  if 0 ≤ decimal.exponent then
    (decimal.digits * Nat.pow 10 decimal.exponent.toNat, 1)
  else (decimal.digits, Nat.pow 10 (-decimal.exponent).toNat)

/-- The greatest point of the grid of multiples of `10 ^ exponent` that is not
above `num / den`. -/
def floor (num den : Nat) (exponent : Int) : Nat :=
  if 0 ≤ exponent then num / (den * Nat.pow 10 exponent.toNat)
  else num * Nat.pow 10 (-exponent).toNat / den

/-- Splits off trailing zeros, at most `fuel` of them. -/
def normalize : Nat → Decimal → Decimal
  | 0, decimal => decimal
  | fuel + 1, decimal =>
      if decimal.digits ≠ 0 ∧ decimal.digits % 10 = 0 then
        normalize fuel ⟨decimal.digits / 10, decimal.exponent + 1⟩
      else decimal

/-- Positional notation. -/
def render (decimal : Decimal) : String :=
  let digits := (toString decimal.digits).toList
  if 0 ≤ decimal.exponent then
    String.ofList (digits ++ List.replicate decimal.exponent.toNat '0')
  else
    let places := (-decimal.exponent).toNat
    if places < digits.length then
      let whole := digits.length - places
      String.ofList (digits.take whole ++ '.' :: digits.drop whole)
    else
      String.ofList
        ('0' :: '.' :: List.replicate (places - digits.length) '0' ++ digits)

end Decimal

/-- The least `k` from `start` on with `den ≤ num * 10 ^ k`. -/
def fractionZeros (num den : Nat) : Nat → Nat → Nat
  | 0, start => start
  | fuel + 1, start =>
      if den ≤ num * Nat.pow 10 start then start
      else fractionZeros num den fuel (start + 1)

/-- The exponent `k` with `10 ^ (k - 1) ≤ num / den < 10 ^ k`. -/
def decimalExponent (num den : Nat) : Int :=
  if den ≤ num then ((toString (num / den)).length : Int)
  else 1 - (fractionZeros num den 400 1 : Int)

/-- The better of the two grid points next to the value, if one of them is in
the interval. -/
def onGrid? (interval : Interval) (exponent : Int) : Option Decimal :=
  let below := Decimal.floor interval.value Interval.denominator exponent
  let lower : Decimal := ⟨below, exponent⟩
  let upper : Decimal := ⟨below + 1, exponent⟩
  let holds := fun decimal : Decimal =>
    interval.holds decimal.ratio.1 decimal.ratio.2
  match holds lower, holds upper with
  | false, false => none
  | true, false => some lower
  | false, true => some upper
  | true, true =>
      -- Twice the value against the sum of the two points.
      let (num, den) := (⟨2 * below + 1, exponent⟩ : Decimal).ratio
      if 2 * interval.value * den < num * Interval.denominator then some lower
      else some upper

/-- Tries the grids for `digits` digits and more, seventeen at most. -/
def shortestFrom (interval : Interval) (scale : Int) : Nat → Nat → Decimal
  | 0, digits =>
      ⟨Decimal.floor interval.value Interval.denominator (scale - digits),
        scale - digits⟩
  | fuel + 1, digits =>
      match onGrid? interval (scale - digits) with
      | some decimal => decimal
      | none => shortestFrom interval scale fuel (digits + 1)

/-- The shortest decimal for `significand * 2 ^ exponent` units. -/
def shortest (significand exponent : Nat) : Decimal :=
  let interval := Interval.ofUnits significand exponent
  let scale := decimalExponent interval.value Interval.denominator
  Decimal.normalize 400 (shortestFrom interval scale 17 1)

/-- The text of a value. -/
def render : Binary64 → String
  | .nan => "NaN"
  | .infinity negative => if negative then "-inf" else "inf"
  | .finite negative significand exponent =>
      let text :=
        if significand = 0 then "0" else (shortest significand exponent).render
      if negative then "-" ++ text else text

end Binary64

end Bundler
