import Bundler.Token.Basic

/-!
# Syntax errors

Why a source is not a program.  Each cause has a stable code, which ends the
message.
-/

namespace Bundler

inductive SyntaxFault
  /-- Something described in words was expected. -/
  | expected (what : String)
  | invalidAssignmentTarget
  | invalidEscape
  | lineBreakBeforeArrow
  | lineBreakAfterThrow
  | lineBreakInString
  | malformedBigint
  | malformedNumber
  /-- A token of one kind was required. -/
  | missingToken (kind : TokenKind)
  | tryWithoutHandler
  | unexpectedEnd
  deriving DecidableEq

/-- A fault, where it is, and the kind of the token found there, if the fault
is about a token. -/
structure SyntaxError where
  fault : SyntaxFault
  span : Span
  found : Option TokenKind
  deriving DecidableEq

namespace SyntaxFault

def code : SyntaxFault → String
  | .expected _ => "PS0002"
  | .invalidAssignmentTarget => "PS0003"
  | .invalidEscape => "PS0004"
  | .lineBreakBeforeArrow => "PS0006"
  | .lineBreakAfterThrow => "PS0007"
  | .lineBreakInString => "PS0010"
  | .malformedBigint => "PS0011"
  | .malformedNumber => "PS0012"
  | .missingToken _ => "PS0013"
  | .tryWithoutHandler => "PS0014"
  | .unexpectedEnd => "PS0015"

def describe (found : Option TokenKind) : SyntaxFault → String
  | .expected what => "expected " ++ what
  | .invalidAssignmentTarget => "invalid assignment target"
  | .invalidEscape => "invalid character escape"
  | .lineBreakBeforeArrow =>
      "line terminator not allowed after arrow function parameters"
  | .lineBreakAfterThrow => "line terminator not allowed after `throw`"
  | .lineBreakInString => "line terminator not allowed in string literal"
  | .malformedBigint => "malformed bigint literal"
  | .malformedNumber => "malformed number literal"
  | .missingToken kind =>
      match found with
      | some found =>
          "expected token " ++ kind.label ++ ", found " ++ found.label
      | none => "expected token " ++ kind.label
  | .tryWithoutHandler => "try statement requires a catch or finally block"
  | .unexpectedEnd => "unexpected end of input"

end SyntaxFault

namespace SyntaxError

def code (error : SyntaxError) : String := error.fault.code

def message (error : SyntaxError) : String :=
  error.fault.describe error.found ++ " (" ++ error.code ++ ")"

end SyntaxError

/-- An error about a token. -/
def Token.error (token : Token) (fault : SyntaxFault) : SyntaxError :=
  ⟨fault, token.span, some token.kind⟩

/-- An error about a range that is no single token. -/
def Span.error (span : Span) (fault : SyntaxFault) : SyntaxError :=
  ⟨fault, span, none⟩

end Bundler
