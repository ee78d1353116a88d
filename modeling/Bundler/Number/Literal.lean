import Bundler.Number.Binary64
import Bundler.Source.CharClass

/-!
# The values of numeric literals

Separators are removed before anything else is looked at.  Radix and legacy
octal literals are read digit by digit, rounding to 53 binary digits at each
step; every other literal is a decimal and is rounded once.
-/

namespace Bundler

namespace Binary64

/-- The number that decimal digits spell. -/
def digitsValue (digits : List Char) : Nat :=
  digits.foldl (fun value c => 10 * value + (c.toNat - '0'.toNat)) 0

/-- The value nearest to `digits * 10 ^ exponent`.  Exponents far outside the
range are decided without computing the power. -/
def ofDecimal (negative : Bool) (digits : Nat) (exponent : Int) : Binary64 :=
  let size : Int := (toString digits).length
  if digits = 0 then zero negative
  else if 310 < exponent + size then .infinity negative
  else if exponent + size < -330 then zero negative
  else if 0 ≤ exponent then
    ofRatio negative (digits * Nat.pow 10 exponent.toNat) 1
  else ofRatio negative digits (Nat.pow 10 (-exponent).toNat)

/-- The value of an exponent after its letter: a sign and at least one digit. -/
def exponent? (text : List Char) : Option Int :=
  let (negative, digits) := match text with
    | '-' :: rest => (true, rest)
    | '+' :: rest => (false, rest)
    | rest => (false, rest)
  if digits.isEmpty || !digits.all CharClass.isDigit then none
  else some (if negative then -(digitsValue digits : Int)
    else digitsValue digits)

/-- The value of an unsigned decimal.  A point may stand first or last, but one
digit is needed. -/
def unsignedDecimal? (negative : Bool) (text : List Char) : Option Binary64 :=
  let whole := text.takeWhile CharClass.isDigit
  let rest := text.dropWhile CharClass.isDigit
  let (fraction, rest) := match rest with
    | '.' :: rest =>
        (rest.takeWhile CharClass.isDigit, rest.dropWhile CharClass.isDigit)
    | rest => ([], rest)
  let exponent := match rest with
    | [] => some 0
    | c :: rest => if c = 'e' || c = 'E' then exponent? rest else none
  if whole.isEmpty && fraction.isEmpty then none
  else exponent.map fun exponent =>
    ofDecimal negative (digitsValue (whole ++ fraction))
      (exponent - fraction.length)

/-- The value of a decimal with an optional sign, or of one of the words
`inf`, `infinity` and `nan` in any case. -/
def decimal? (text : List Char) : Option Binary64 :=
  let (negative, text) := match text with
    | '-' :: rest => (true, rest)
    | '+' :: rest => (false, rest)
    | rest => (false, rest)
  match unsignedDecimal? negative text with
  | some value => some value
  | none =>
      let word := String.ofList (text.map Char.toLower)
      if word = "inf" || word = "infinity" then some (.infinity negative)
      else if word = "nan" then some .nan
      else none

/-- One more digit of a radix literal; `none` stands for a value past the
greatest finite one. -/
def accumulate (radix : Nat) (value : Option Nat) (digit : Nat) : Option Nat :=
  (value.map fun value => roundNat (value * radix + digit)).filter
    (· < Nat.pow 2 1024)

/-- The value of the digits of a radix literal. -/
def radixDigits? (radix : Nat) (digits : List Char) : Option Binary64 :=
  if digits.isEmpty then none
  else
    (digits.mapM (CharClass.digitValue? radix)).map fun values =>
      match values.foldl (accumulate radix) (some 0) with
      | some value => ofNat value
      | none => .infinity false

/-- Whether a literal is a legacy octal one: a leading zero, and octal digits
only. -/
def isLegacyOctal (text : List Char) : Bool :=
  match text with
  | '0' :: rest => !rest.isEmpty && rest.all CharClass.isOctalDigit
  | _ => false

/-- The value of the text of a numeric literal. -/
def ofLiteral? (raw : List Char) : Option Binary64 :=
  let text := raw.filter (· != '_')
  match text with
  | '0' :: c :: digits =>
      if c = 'x' || c = 'X' then radixDigits? 16 digits
      else if c = 'b' || c = 'B' then radixDigits? 2 digits
      else if c = 'o' || c = 'O' then radixDigits? 8 digits
      else if isLegacyOctal text then radixDigits? 8 (c :: digits)
      else decimal? text
  | _ => decimal? text

end Binary64

end Bundler
