/-!
# Binary floating point

Binary64 values, exactly.  A finite magnitude is a natural number of units of
`2 ^ -1074`, the least positive value: `significand * 2 ^ exponent` units, where
the significand has at most 53 bits and has all 53 unless the exponent is zero.
With that reading no operation below needs a fraction or a negative exponent.
-/

namespace Bundler

inductive Binary64
  | nan
  | infinity (negative : Bool)
  | finite (negative : Bool) (significand exponent : Nat)
  deriving DecidableEq

namespace Binary64

/-- The quotient rounded to the nearest integer, a half to the even one. -/
def roundDiv (num den : Nat) : Nat :=
  let quotient := num / den
  let twice := 2 * (num % den)
  if twice < den then quotient
  else if den < twice then quotient + 1
  else quotient + quotient % 2

/-- How many binary digits a number has; none for zero. -/
def bitLength (n : Nat) : Nat := if n = 0 then 0 else n.log2 + 1

/-- The units of `2 ^ -1074` in one. -/
def unit : Nat := Nat.pow 2 1074

def zero (negative : Bool) : Binary64 := .finite negative 0 0

/-- The value nearest to `num / den` units, a half to the even significand. -/
def ofUnits (negative : Bool) (num den : Nat) : Binary64 :=
  let shift := bitLength (num / den) - 53
  let rounded := roundDiv num (den * Nat.pow 2 shift)
  let (significand, exponent) :=
    if rounded = Nat.pow 2 53 then (Nat.pow 2 52, shift + 1)
    else (rounded, shift)
  if 2046 ≤ exponent then .infinity negative
  else .finite negative significand exponent

/-- The value nearest to `num / den`. -/
def ofRatio (negative : Bool) (num den : Nat) : Binary64 :=
  ofUnits negative (num * unit) den

/-- The value nearest to a natural number. -/
def ofNat (n : Nat) : Binary64 := ofRatio false n 1

/-- A natural number rounded to 53 binary digits, a half to the even one. -/
def roundNat (n : Nat) : Nat :=
  let shift := bitLength n - 53
  roundDiv n (Nat.pow 2 shift) * Nat.pow 2 shift

/-- The bits without the sign, read as a number.  They grow with the
magnitude. -/
def magnitude : Binary64 → Nat
  | .nan => 0x7ff8000000000000
  | .infinity _ => 0x7ff0000000000000
  | .finite _ significand exponent => exponent * Nat.pow 2 52 + significand

def isNegative : Binary64 → Bool
  | .nan => false
  | .infinity negative | .finite negative _ _ => negative

/-- The IEEE 754 encoding. -/
def bits (value : Binary64) : Nat :=
  (if value.isNegative then Nat.pow 2 63 else 0) + value.magnitude

/-- An integer that orders all values but NaN; both zeros have the key zero. -/
def orderKey (value : Binary64) : Int :=
  if value.isNegative then -(value.magnitude : Int) else value.magnitude

/-- Equality of values.  All NaNs are equal, and so are the zeros. -/
def sameValue : Binary64 → Binary64 → Bool
  | .nan, .nan => true
  | .nan, _ | _, .nan => false
  | left, right => left.orderKey == right.orderKey

/-- The order of values, in which NaN counts as equal to everything. -/
def order : Binary64 → Binary64 → Ordering
  | .nan, _ | _, .nan => .eq
  | left, right => compare left.orderKey right.orderKey

/-- What a hash of a value is made from: the bits, those of positive zero for
either zero, and nothing for NaN. -/
def hashKey : Binary64 → Option Nat
  | .nan => none
  | value => if value.orderKey = 0 then some 0 else some value.bits

def isFinite : Binary64 → Bool
  | .finite _ _ _ => true
  | _ => false

end Binary64

end Bundler
