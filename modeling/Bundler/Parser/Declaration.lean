import Bundler.Parser.Operand

/-!
# Declarations

Variable, function and class declarations.  A variable declaration occurs as a
statement, where it ends like one, and in the header of a loop, where it ends
at the first token that does not belong to it.
-/

namespace Bundler

namespace Parser

/-- The end of a statement: a semicolon, or a place where it may be left
out. -/
def statementEnd : Parser Unit := do
  if ← acceptMark .semicolon then return
  let token ← peek
  if !endsWithoutSemicolon token then
    fail (token.error (.missingToken (.punctuator .semicolon)))

def varKind : Parser VarKind := do
  let token ← consume
  match token.kind with
  | .keyword .letWord => return .lexical
  | .keyword .constWord => return .constant
  | .keyword .varWord => return .variable
  | _ => fail (token.error (.expected "variable declaration"))

/-- Whether the declarators of a statement end here, at a semicolon, which is
consumed, or where it may be left out. -/
def declaratorsEnd : Parser Bool := do
  if ← acceptMark .semicolon then return true
  let token ← peek
  return endsWithoutSemicolon token && token.kind ≠ .punctuator .comma

end Parser

namespace Grammar

open Bundler.Parser

variable (grammar : Grammar)

/-- Whether a token starts a variable declaration when another one follows it:
`let` does so only in front of a pattern. -/
def startsVariables (first second : Token) : Bool :=
  match first.kind with
  | .keyword .varWord | .keyword .constWord => true
  | .keyword .letWord =>
      second.kind = .punctuator .braceOpen ||
        second.kind = .punctuator .bracketOpen ||
        grammar.rules.allows second.kind
  | _ => false

/-- A variable pattern and its initial value. -/
def declarator (ends : List TokenKind) (lineEnds : Bool) :
    Parser (Declarator Node) := do
  let pattern ← grammar.pattern
  let initial ← afterMark .equals (grammar.expressionFrom 1 ends lineEnds)
  return ⟨pattern, initial⟩

/-- A variable declaration that is a statement, with the semicolon that may end
it. -/
def variableDeclaration : Parser Node := node do
  let kind ← varKind
  let ends := [.punctuator .semicolon, .punctuator .comma]
  let step := fun found : List (Declarator Node) => do
    let found := (← grammar.declarator ends true) :: found
    if ← declaratorsEnd then return .inr found
    let _ ← requireMark .comma
    return .inl found
  return .varDeclaration kind (← iterate step []).reverse

/-- A variable declaration in the header of a loop, where `in` ends an initial
value. -/
def headerVariables : Parser Node := node do
  let kind ← varKind
  let ends :=
    [.punctuator .semicolon, .punctuator .comma, .keyword .inWord]
  let step := fun found : List (Declarator Node) => do
    let found := (← grammar.declarator ends false) :: found
    if ← acceptMark .comma then return .inl found else return .inr found
  return .varDeclaration kind (← iterate step []).reverse

def functionDeclaration : Parser Node := node do
  let isAsync ← acceptWord .asyncWord
  let _ ← requireWord .functionWord
  let isGenerator ← acceptMark .asterisk
  let name ← grammar.declaredName
  let func ← grammar.functionTail isAsync isGenerator
  return .funcDeclaration name func

def classDeclaration : Parser Node := node do
  let _ ← requireWord .classWord
  let name ← grammar.declaredName
  let heritage ← grammar.heritage?
  let members ← grammar.classBody
  return .classDeclaration name heritage members

end Grammar

end Bundler
