/-!
# Character classes

The lexical classes of ECMAScript source text, with one simplification: outside
ASCII every character that is neither white space nor a line terminator may
stand in an identifier.  `isUnicodeSpace` is a different set, the characters
with the Unicode property `White_Space`, and is used for trimming only.
-/

namespace Bundler

namespace CharClass

def isAscii (c : Char) : Bool := c.toNat < 128

def isLineTerminator (c : Char) : Bool :=
  c == '\n' || c == '\r' || c == '\u2028' || c == '\u2029'

/-- White space that may separate tokens, line terminators excluded. -/
def isWhitespace (c : Char) : Bool :=
  let n := c.toNat
  n == 0x09 || n == 0x0b || n == 0x0c || n == 0x20 || n == 0xa0 ||
    n == 0x1680 || (0x2000 ≤ n && n ≤ 0x200a) || n == 0x202f || n == 0x205f ||
    n == 0x3000 || n == 0xfeff

def isDigit (c : Char) : Bool := '0' ≤ c && c ≤ '9'

def isBinaryDigit (c : Char) : Bool := c == '0' || c == '1'

def isOctalDigit (c : Char) : Bool := '0' ≤ c && c ≤ '7'

def isHexDigit (c : Char) : Bool :=
  isDigit c || ('a' ≤ c && c ≤ 'f') || ('A' ≤ c && c ≤ 'F')

def isAsciiLetter (c : Char) : Bool :=
  ('a' ≤ c && c ≤ 'z') || ('A' ≤ c && c ≤ 'Z')

def isAsciiNameStart (c : Char) : Bool :=
  isAsciiLetter c || c == '$' || c == '_'

def isAsciiNamePart (c : Char) : Bool := isAsciiNameStart c || isDigit c

def isForeignNameChar (c : Char) : Bool :=
  !isAscii c && !isWhitespace c && !isLineTerminator c

/-- Characters an identifier may start with. -/
def isNameStart (c : Char) : Bool := isAsciiNameStart c || isForeignNameChar c

/-- Characters an identifier may continue with. -/
def isNamePart (c : Char) : Bool := isAsciiNamePart c || isForeignNameChar c

/-- The value of a digit, if it is one below `radix`. -/
def digitValue? (radix : Nat) (c : Char) : Option Nat :=
  let value :=
    if isDigit c then some (c.toNat - '0'.toNat)
    else if 'a' ≤ c && c ≤ 'z' then some (c.toNat - 'a'.toNat + 10)
    else if 'A' ≤ c && c ≤ 'Z' then some (c.toNat - 'A'.toNat + 10)
    else none
  value.filter (· < radix)

/-- Characters with the Unicode property `White_Space`. -/
def isUnicodeSpace (c : Char) : Bool :=
  let n := c.toNat
  (0x09 ≤ n && n ≤ 0x0d) || n == 0x20 || n == 0x85 || n == 0xa0 ||
    n == 0x1680 || (0x2000 ≤ n && n ≤ 0x200a) || n == 0x2028 || n == 0x2029 ||
    n == 0x202f || n == 0x205f || n == 0x3000

def trimStart (text : List Char) : List Char := text.dropWhile isUnicodeSpace

def trimEnd (text : List Char) : List Char :=
  (text.reverse.dropWhile isUnicodeSpace).reverse

end CharClass

end Bundler
