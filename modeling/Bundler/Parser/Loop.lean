import Bundler.Parser.Declaration
import Bundler.Parser.Target

/-!
# Loops

Three kinds of loop start with `for`.  Which one it is shows only behind the
first part of the header, so the header is read ahead that far, given back, and
read again as what it is.
-/

namespace Bundler

/-- The kinds of loop that start with `for`. -/
inductive ForKind
  /-- A loop with a start, a condition and a step. -/
  | counting
  /-- A loop over the keys of an object. -/
  | keys
  /-- A loop over the values of an iterable. -/
  | values

namespace Grammar

open Bundler.Parser

variable (grammar : Grammar)

/-- The kind of loop whose header goes on after its first part.  What is
neither of the other two is left to be reported as a counting loop. -/
def forKindBehindStart : Parser ForKind := do
  match ← peekKind with
  | .keyword .inWord => return .keys
  | .keyword .ofWord => return .values
  | _ => return .counting

/-- The kind of a loop, whose header is read up to where it shows. -/
def forKind : Parser ForKind := do
  let _ ← requireWord .forWord
  if ← acceptWord .awaitWord then return .values
  let _ ← requireMark .parenthesisOpen
  let (first, second) ← peekTwo
  if first.kind = .punctuator .semicolon then return .counting
  else if grammar.startsVariables first second then
    let _ ← grammar.headerVariables
    forKindBehindStart
  else
    let ends :=
      [.keyword .inWord, .keyword .ofWord, .punctuator .semicolon]
    match ← attempt (grammar.expression ends) with
    | .ok _ => forKindBehindStart
    | .error _ => return .counting

/-- The body of a loop; the braces of a block belong to it. -/
def forBody : Parser Node := node do
  if (← peekKind) = .punctuator .braceOpen then
    return .forBody (← grammar.bracedStatements)
  else return .forBody [← grammar.statement]

/-- What a loop over keys or values sets. -/
def forTarget : Parser (ForTarget Node) := do
  let (first, second) ← peekTwo
  if grammar.startsVariables first second then
    let kind ← varKind
    return .declare kind (← grammar.pattern)
  else
    let target ← grammar.expression [.keyword .inWord, .keyword .ofWord]
    match target.toPattern with
    | .ok pattern => return .assign pattern
    | .error error => fail error

/-- The rest of a loop over keys or values after the word between its target
and what it runs over. -/
def forRest : Parser (Node × Node) := do
  let source ← grammar.expressionUntil .parenthesisClose
  let _ ← requireMark .parenthesisClose
  return (source, ← grammar.forBody)

def keysLoop : Parser Node := node do
  let _ ← requireWord .forWord
  let _ ← requireMark .parenthesisOpen
  let target ← grammar.forTarget
  let _ ← requireWord .inWord
  let (object, body) ← grammar.forRest
  return .forIn target object body

def valuesLoop : Parser Node := node do
  let _ ← requireWord .forWord
  let isAwait ← acceptWord .awaitWord
  let _ ← requireMark .parenthesisOpen
  let target ← grammar.forTarget
  let _ ← requireWord .ofWord
  let (iterable, body) ← grammar.forRest
  return .forOf isAwait target iterable body

def forStart : Parser (ForStart Node) := do
  let (first, second) ← peekTwo
  if first.kind = .punctuator .semicolon then return .nothing
  else if grammar.startsVariables first second then
    return .declare (← grammar.headerVariables)
  else return .expression (← grammar.expressionUntil .semicolon)

/-- A part of the header of a counting loop, which may be missing, and the mark
that ends it. -/
def forPart (close : Punctuator) : Parser (Option Node) := do
  if ← acceptMark close then return none
  let part ← grammar.expressionUntil close
  let _ ← requireMark close
  return some part

def countingLoop : Parser Node := node do
  let _ ← requireWord .forWord
  let _ ← requireMark .parenthesisOpen
  let start ← grammar.forStart
  let _ ← requireMark .semicolon
  let condition ← grammar.forPart .semicolon
  let step ← grammar.forPart .parenthesisClose
  let body ← grammar.forBody
  return .forLoop start condition step body

def forStatement : Parser Node := do
  let start ← checkpoint
  let kind ← grammar.forKind
  restore start
  match kind with
  | .counting => grammar.countingLoop
  | .keys => grammar.keysLoop
  | .values => grammar.valuesLoop

end Grammar

end Bundler
