import Bundler.Parser.Function

/-!
# Operands

What stands between operators: names, literals, functions, classes, unary
operators with their operands, and groupings.  An opening parenthesis may start
the parameters of an arrow function or a grouping; the former is tried first.
-/

namespace Bundler

namespace Grammar

open Bundler.Parser

variable (grammar : Grammar)

/-- A name as an expression. -/
def identifier : Parser Node := node do
  return .ident (← grammar.bindingWord).text

/-- The parameters of an arrow function and the arrow after them. -/
def arrowHead : Parser (List Node × Token) := do
  let (first, second) ← peekTwo
  if grammar.rules.allows first.kind &&
      second.kind = .punctuator .equalsChevronRight then
    let name ← consume
    let arrow ← requireMark .equalsChevronRight
    let pattern := .mk name.span (.identPattern name.text)
    return ([.mk name.span (.parameter false pattern none)], arrow)
  else
    let parameters ← grammar.parameters
    let arrow ← requireMark .equalsChevronRight
    return (parameters, arrow)

/-- The body of an arrow function, a block or an expression. -/
def arrowBody (ends : List TokenKind) : Parser (FuncBody Node) := do
  if (← peekKind) = .punctuator .braceOpen then
    return .block (← grammar.bracedStatements)
  else return .concise (← grammar.expressionOrLine ends)

def arrowFunction (ends : List TokenKind) : Parser Node := do
  let func ← node do
    let (_, second) ← peekTwo
    -- In `async => 1` the first word is the parameter.
    let isAsync ←
      if second.kind = .punctuator .equalsChevronRight then pure false
      else acceptWord .asyncWord
    let (parameters, arrow) ← grammar.arrowHead
    if arrow.afterLineBreak then
      fail (arrow.error .lineBreakBeforeArrow)
    let body ← grammar.arrowBody ends
    return .func true isAsync false parameters body
  return .mk func.span (.arrow func)

/-- An arrow function, or what `other` reads if there is none.  Of the errors
of an arrow function only a misplaced line terminator is reported. -/
def arrowFunctionOr (ends : List TokenKind) (other : Parser Node) :
    Parser Node := do
  let start ← checkpoint
  match ← attempt (grammar.arrowFunction ends) with
  | .ok arrow => return arrow
  | .error error =>
      if error.fault = .lineBreakBeforeArrow then fail error
      else
        restore start
        other

/-- An expression in parentheses. -/
def grouping (lineEnds : Bool) : Parser Node := do
  let _ ← requireMark .parenthesisOpen
  let inner ←
    grammar.expressionFrom 1 [.punctuator .parenthesisClose] lineEnds
  let _ ← requireMark .parenthesisClose
  return inner

def functionExpression : Parser Node := node do
  let isAsync ← acceptWord .asyncWord
  let _ ← requireWord .functionWord
  let isGenerator ← acceptMark .asterisk
  let name ← grammar.declaredName?
  let func ← grammar.functionTail isAsync isGenerator
  return .funcExpr name func

def classExpression : Parser Node := node do
  let _ ← requireWord .classWord
  let name ← grammar.declaredName?
  let heritage ← grammar.heritage?
  let members ← grammar.classBody
  return .classExpr name heritage members

/-- An import of a module that is computed. -/
def importCall : Parser Node := node do
  let _ ← requireWord .importWord
  let _ ← requireMark .parenthesisOpen
  let source ← grammar.expressionInList .parenthesisClose
  let _ ← acceptMark .comma
  let _ ← requireMark .parenthesisClose
  return .importCall source

/-- A key word, a dot and one particular name after it. -/
def metaProperty (word : Keyword) (name : String) (what : String)
    (shape : Shape Node) : Parser Node := node do
  let _ ← requireWord word
  let _ ← requireMark .dot
  let property ← require .identifier
  if property.text ≠ name then fail (property.error (.expected what))
  return shape

def importMeta : Parser Node :=
  metaProperty .importWord "meta" "`meta` property" .importMeta

def newTarget : Parser Node :=
  metaProperty .newWord "target" "`target` property" .newTarget

def wordExpression (word : Keyword) (shape : Shape Node) : Parser Node :=
  node do
    let _ ← requireWord word
    return shape

/-- Whether a `yield` before this token has no operand. -/
def endsYield (ends : List TokenKind) (next : Token) : Bool :=
  next.afterLineBreak || ends.contains next.kind ||
    match next.kind with
    | .endOfInput => true
    | .punctuator mark =>
        match mark with
        | .semicolon | .comma | .colon | .parenthesisClose | .bracketClose
        | .braceClose => true
        | _ => false
    | _ => false

/-- A unary operator with its operand.  A `yield` without one yields
`undefined`, which has no text of its own. -/
def unaryExpression (ends : List TokenKind) (lineEnds : Bool) : Parser Node :=
  node do
    let token ← consumeIn .slashIsRegex
    match token.kind.unaryOperator? with
    | none => fail (token.error (.expected "unary operator"))
    | some first =>
        let delegates ←
          if first = .yield then acceptMark .asterisk else pure false
        let operator := if delegates then .yieldDelegated else first
        let next ← peekIn .slashIsRegex
        if operator = .yield && endsYield ends next then
          let stop := (← get).lastEnd
          return .unary operator (.mk (.point stop) (.ident "undefined"))
        else
          let operand ←
            grammar.expressionFrom operator.rightPrecedence ends lineEnds
          return .unary operator operand

/-- Whether a token is a unary operator here: `await` and `yield` may be names,
and `new.target` is no use of `new`. -/
def startsUnary (first second : Token) : Bool :=
  match first.kind.unaryOperator? with
  | none => false
  | some .await => !grammar.rules.awaitIsName
  | some .yield => !grammar.rules.yieldIsName
  | some .new => second.kind ≠ .punctuator .dot
  | some _ => true

/-- An operand that starts with `async`, which may be a plain name. -/
def asyncOperand (ends : List TokenKind) (second third : Token) :
    Parser Node :=
  if second.kind = .keyword .functionWord && !second.afterLineBreak then
    grammar.functionExpression
  else if second.kind = .punctuator .parenthesisOpen then
    grammar.arrowFunctionOr ends grammar.identifier
  else if !second.afterLineBreak && grammar.rules.allows second.kind &&
      third.kind = .punctuator .equalsChevronRight then
    grammar.arrowFunction ends
  else grammar.identifier

/-- An operand that starts with a key word that is no name. -/
def wordOperand (first second : Token) : Keyword → Parser Node
  | .classWord => grammar.classExpression
  | .functionWord => grammar.functionExpression
  | .importWord =>
      if second.kind = .punctuator .dot then importMeta
      else if second.kind = .punctuator .parenthesisOpen then
        grammar.importCall
      else fail (first.error (.expected "import expression"))
  | .newWord => newTarget
  | .superWord => wordExpression .superWord .superRef
  | .thisWord => wordExpression .thisWord .thisRef
  | .trueWord | .falseWord => booleanLiteral
  | .nullWord => nullLiteral
  | _ => fail (first.error (.expected "expression operand"))

/-- An operand that starts with neither a name nor a unary operator. -/
def otherOperand (ends : List TokenKind) (lineEnds : Bool)
    (first second : Token) : Parser Node :=
  match first.kind with
  | .keyword word => grammar.wordOperand first second word
  | .bigint => bigintLiteral
  | .number => numberLiteral
  | .regex => regexLiteral
  | .string => stringLiteral
  | .templatePart | .templateTail => grammar.templateLiteral
  | .punctuator .bracketOpen => grammar.arrayLiteral
  | .punctuator .braceOpen => grammar.objectLiteral
  | .punctuator .parenthesisOpen =>
      grammar.arrowFunctionOr ends (grammar.grouping lineEnds)
  | _ => fail (first.error (.expected "expression operand"))

/-- An operand of an expression that ends as given. -/
def operand (ends : List TokenKind) (lineEnds : Bool) : Parser Node := do
  let start ← checkpoint
  let first ← consumeIn .slashIsRegex
  let second ← consume
  let third ← consume
  restore start
  if grammar.startsUnary first second then
    grammar.unaryExpression ends lineEnds
  else if first.kind = .keyword .asyncWord &&
      second.kind ≠ .punctuator .equalsChevronRight then
    grammar.asyncOperand ends second third
  else if grammar.rules.allows first.kind then
    if second.kind = .punctuator .equalsChevronRight then
      grammar.arrowFunction ends
    else grammar.identifier
  else grammar.otherOperand ends lineEnds first second

end Grammar

end Bundler
