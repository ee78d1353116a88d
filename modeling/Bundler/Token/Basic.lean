import Bundler.Source.Span
import Bundler.Token.Keyword
import Bundler.Token.Punctuator

/-!
# Tokens

Text that fits no token is a token as well, of kind `invalid`, so that looking
ahead never fails.  A token keeps its own text, and whether the white space and
comments in front of it hold a line terminator, which is what automatic
semicolon insertion asks for.
-/

namespace Bundler

inductive TokenKind
  | endOfInput
  | invalid
  | identifier
  | privateName
  | bigint
  | number
  | string
  | regex
  /-- A chunk of a template literal that ends where a substitution starts. -/
  | templatePart
  /-- The last chunk of a template literal. -/
  | templateTail
  | keyword (word : Keyword)
  | punctuator (mark : Punctuator)
  deriving DecidableEq

namespace TokenKind

/-- How diagnostics call a kind of token. -/
def label : TokenKind → String
  | .endOfInput => "EOF"
  | .invalid => "Invalid"
  | .identifier => "Identifier"
  | .privateName => "PrivateMember"
  | .bigint => "LiteralBigInt"
  | .number => "LiteralNumber"
  | .string => "LiteralString"
  | .regex => "LiteralRegex"
  | .templatePart => "LiteralTemplatePartString"
  | .templateTail => "LiteralTemplatePartStringEnd"
  | .keyword word => word.label
  | .punctuator mark => mark.label

def isKeyword : TokenKind → Bool
  | .keyword _ => true
  | _ => false

/-- Whether a token of this kind is an identifier or a key word. -/
def isWord : TokenKind → Bool
  | .identifier | .keyword _ => true
  | _ => false

end TokenKind

structure Token where
  kind : TokenKind
  span : Span
  text : String
  /-- A line terminator stands between the previous token and this one. -/
  afterLineBreak : Bool
  deriving DecidableEq

/-- A comment, delimiters included. -/
structure Comment where
  span : Span
  multiline : Bool
  deriving DecidableEq

end Bundler
