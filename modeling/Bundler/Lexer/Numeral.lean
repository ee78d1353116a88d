import Bundler.Source.CharClass
import Bundler.Token.Basic

/-!
# Numerals

Decimal, legacy octal, radix and BigInt numerals.  Underscores count as digits
here; whether they are placed well is never checked.  A numeral that breaks off
or runs into an identifier becomes an invalid token that keeps what was read.
-/

namespace Bundler

/-- One lexical item: its kind, what it took and what it left. -/
structure Lexeme where
  kind : TokenKind
  taken : List Char
  rest : List Char

namespace Lexeme

def text (lexeme : Lexeme) : List Char := lexeme.taken ++ lexeme.rest

/-- Puts characters read earlier in front. -/
def after (taken : List Char) (lexeme : Lexeme) : Lexeme :=
  { lexeme with taken := taken ++ lexeme.taken }

@[simp]
theorem text_after (taken : List Char) (lexeme : Lexeme) :
    (lexeme.after taken).text = taken ++ lexeme.text := by
  simp [after, text]

end Lexeme

namespace Numeral

def isDigitOrSeparator (c : Char) : Bool := CharClass.isDigit c || c == '_'

/-- Splits off the digits and separators at the front. -/
def digits (text : List Char) : List Char × List Char :=
  (text.takeWhile isDigitOrSeparator, text.dropWhile isDigitOrSeparator)

/-- A number ends here, unless an identifier starts right after it. -/
def close : List Char → Lexeme
  | [] => ⟨.number, [], []⟩
  | c :: cs =>
      if CharClass.isNameStart c then ⟨.invalid, [], c :: cs⟩
      else ⟨.number, [], c :: cs⟩

/-- The digits of an exponent, of which there must be one. -/
def exponentDigits (text : List Char) : Lexeme :=
  let (taken, rest) := digits text
  if taken.isEmpty then ⟨.invalid, [], rest⟩ else (close rest).after taken

/-- The rest of an exponent after the letter that opens it. -/
def exponent : List Char → Lexeme
  | [] => ⟨.invalid, [], []⟩
  | c :: cs =>
      if c = '+' || c = '-' then (exponentDigits cs).after [c]
      else exponentDigits (c :: cs)

/-- The rest of a decimal numeral after its fraction. -/
def afterFraction : List Char → Lexeme
  | [] => close []
  | c :: cs =>
      if c = 'e' || c = 'E' then (exponent cs).after [c] else close (c :: cs)

/-- The rest of a decimal numeral after its integer part. -/
def afterInteger (fractionAllowed : Bool) : List Char → Lexeme
  | [] => close []
  | c :: cs =>
      if c = 'n' then ⟨.bigint, [c], cs⟩
      else if c = '.' && fractionAllowed then
        let (taken, rest) := digits cs
        (afterFraction rest).after (c :: taken)
      else afterFraction (c :: cs)

/-- Whether an integer part makes the numeral a legacy octal one, which has no
fraction: a leading zero with more digits behind it. -/
def isLegacyOctal : List Char → Bool
  | c :: _ :: _ => c == '0'
  | _ => false

def decimal (text : List Char) : Lexeme :=
  let (taken, rest) := digits text
  (afterInteger (!isLegacyOctal taken) rest).after taken

/-- A numeral with a radix mark, after the mark. -/
def radix (isDigit : Char → Bool) (text : List Char) : Lexeme :=
  let accepts := fun c => c == '_' || isDigit c
  let taken := text.takeWhile accepts
  let rest := text.dropWhile accepts
  if taken.isEmpty then ⟨.invalid, [], rest⟩
  else
    match rest with
    | 'n' :: rest => ⟨.bigint, taken ++ ['n'], rest⟩
    | rest => ⟨.number, taken, rest⟩

/-- Reads a numeral that starts with a digit, or with a point and a digit. -/
def lex : List Char → Lexeme
  | '0' :: c :: cs =>
      if c = 'b' || c = 'B' then
        (radix CharClass.isBinaryDigit cs).after ['0', c]
      else if c = 'x' || c = 'X' then
        (radix CharClass.isHexDigit cs).after ['0', c]
      else if c = 'o' || c = 'O' then
        (radix CharClass.isOctalDigit cs).after ['0', c]
      else decimal ('0' :: c :: cs)
  | text => decimal text

end Numeral

end Bundler
