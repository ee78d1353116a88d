import Bundler.Parser.Operand
import Bundler.Parser.Target

/-!
# Operator expressions

Operands joined by operators, by precedence climbing: an operator is taken only
if it binds at least as tightly as required, and its right operand is read with
the requirement raised according to its associativity.
-/

namespace Bundler

namespace Grammar

open Bundler.Parser

variable (grammar : Grammar)

def argument : Parser Node := node do
  let isSpread ← acceptMark .dotDotDot
  let value ← grammar.expressionInList .parenthesisClose
  return .argument isSpread value

/-- The arguments of a call up to the closing parenthesis. -/
def arguments : Parser (List Node) := do
  let step := fun found : List Node => do
    if (← peekKind) = .punctuator .parenthesisClose then return .inr found
    let argument ← grammar.argument
    if ← acceptMark .comma then return .inl (argument :: found)
    return .inr (argument :: found)
  return (← iterate step []).reverse

/-- A node from the start of one range to the end of another. -/
def spanning (left right : Span) (shape : Shape Node) : Node :=
  .mk (left.join right) shape

def callOn (callee : Node) (optional : Bool) : Parser Node := do
  let arguments ← grammar.arguments
  let close ← requireMark .parenthesisClose
  return spanning callee.span close.span (.call optional callee arguments)

def computedMemberOf (object : Node) (optional : Bool) : Parser Node := do
  let key ← grammar.expressionUntil .bracketClose
  let close ← requireMark .bracketClose
  return spanning object.span close.span (.computedMember optional object key)

def memberOf (object : Node) (optional : Bool) : Parser Node := do
  let property ← consume
  if property.kind.isWord || property.kind = .privateName then
    return spanning object.span property.span
      (.member optional object property.text)
  else fail (property.error (.expected "member access property"))

/-- A conditional after its test and the question mark. -/
def conditionalOn (test : Node) (ends : List TokenKind) (lineEnds : Bool) :
    Parser Node := do
  let consequent ← grammar.expressionUntil .colon
  let _ ← requireMark .colon
  let alternate ← grammar.expressionFrom
    Operator.conditionalAlternate.precedence ends lineEnds
  return spanning test.span alternate.span
    (.conditional test consequent alternate)

/-- A binary operation after its left operand and the operator.  The left
operand of an assignment has to be a target. -/
def binaryOn (left : Node) (operator : Operator) (ends : List TokenKind)
    (lineEnds : Bool) : Parser Node := do
  let left ←
    if operator.isAssignment then
      match left.toAssignmentTarget operator with
      | .ok target => pure target
      | .error error => fail error
    else pure left
  let right ←
    grammar.expressionFrom operator.rightPrecedence ends lineEnds
  return spanning left.span right.span (.binary operator left right)

/-- What an operator after an operand makes of it. -/
def operationOn (left : Node) (operator : Operator) (ends : List TokenKind)
    (lineEnds : Bool) : Parser Node :=
  match operator with
  | .call => grammar.callOn left false
  | .optionalChainingCall => grammar.callOn left true
  | .computedMemberAccess => grammar.computedMemberOf left false
  | .optionalChainingComputedMemberAccess => grammar.computedMemberOf left true
  | .memberAccess => memberOf left false
  | .optionalChainingMemberAccess => memberOf left true
  | .conditional => grammar.conditionalOn left ends lineEnds
  | operator => grammar.binaryOn left operator ends lineEnds

/-- A template tagged by an operand. -/
def taggedTemplate (tag : Node) : Parser Node := do
  let (span, texts, values) ← withSpan (grammar.templateParts true)
  return spanning tag.span span (.tagged tag texts values)

/-- The postfix operator that a token right after an operand is. -/
def postfixOperator? (token : Token) : Option Operator :=
  if token.afterLineBreak then none
  else
    match token.kind with
    | .punctuator .plusPlus => some .postfixIncrement
    | .punctuator .hyphenHyphen => some .postfixDecrement
    | _ => none

/-- Whether a token right after an operand starts a template tagged by it. -/
def startsTemplate (token : Token) : Bool :=
  !token.afterLineBreak &&
    (token.kind = .templatePart || token.kind = .templateTail)

/-- Extends an expression by one more operator, or ends it. -/
def extendExpression (least : Nat) (ends : List TokenKind) (lineEnds : Bool)
    (left : Node) : Parser (Node ⊕ Node) := do
  let start ← checkpoint
  let token ← consume
  if ends.contains token.kind then
    restore start
    return .inr left
  else if let some operator := postfixOperator? token then
    if operator.precedence < least then
      restore start
      return .inr left
    else
      return .inl (spanning left.span token.span (.update operator left))
  else if startsTemplate token then
    restore start
    return .inl (← grammar.taggedTemplate left)
  else
    match token.kind.infixOperator? with
    | none =>
        if lineEnds && endsWithoutSemicolon token then
          restore start
          return .inr left
        else fail (token.error (.expected "expression operator"))
    | some operator =>
        if operator.precedence < least then
          restore start
          return .inr left
        else
          return .inl (← grammar.operationOn left operator ends lineEnds)

/-- The rule for expressions. -/
def expressionRule (least : Nat) (ends : List TokenKind) (lineEnds : Bool) :
    Parser Node := do
  let first ← grammar.operand ends lineEnds
  iterate (grammar.extendExpression least ends lineEnds) first

end Grammar

end Bundler
