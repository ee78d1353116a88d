import Bundler.Parser.Pattern

/-!
# Functions, classes and members

Parameter lists and bodies, and the members of classes and object literals.
The words `static`, `get`, `set` and `async` are keys of their own when what
follows them ends a key.
-/

namespace Bundler

namespace Grammar

open Bundler.Parser

variable (grammar : Grammar)

def parameter : Parser Node := node do
  let isRest ← acceptMark .dotDotDot
  let pattern ← grammar.pattern
  let initial ←
    afterMark .equals (grammar.expressionInList .parenthesisClose)
  return .parameter isRest pattern initial

/-- A parameter list with its parentheses. -/
def parameters : Parser (List Node) := do
  let _ ← requireMark .parenthesisOpen
  commaList .parenthesisClose grammar.parameter

/-- Parameters and body of a function that is no arrow function. -/
def functionTail (isAsync isGenerator : Bool) : Parser Node := node do
  let parameters ← grammar.parameters
  let body ← grammar.bracedStatements
  return .func false isAsync isGenerator parameters (.block body)

/-- The name of a function or class, if there is one. -/
def declaredName? : Parser (Option Node) := do
  let token ← consumeWhen fun token => grammar.rules.allows token.kind
  return token.map fun token => .mk token.span (.declaredName token.text)

/-- The name of a function or class, which must be there. -/
def declaredName : Parser Node := do
  let token ← peek
  match ← grammar.declaredName? with
  | some name => return name
  | none => fail (token.error (.expected "name"))

/-- Whether a token right after a modifier makes the modifier a key. -/
def endsKey (token : Token) : Bool :=
  match token.kind with
  | .endOfInput => true
  | .punctuator mark =>
      match mark with
      | .parenthesisOpen | .equals | .colon | .comma | .semicolon
      | .braceClose => true
      | _ => false
  | _ => false

/-- A method, getter or setter after its modifiers. -/
def methodMember (kind : MemberKind) (isAsync isGenerator : Bool) :
    Parser (PropertyKey Node × MemberKind × Option Node) := do
  let key ← grammar.propertyKey
  let func ← grammar.functionTail isAsync isGenerator
  return (key, kind, some func)

/-- A key with a method after it, or with a value after `valueMark`, or alone.
The value ends at `endMark` or a closing brace. -/
def keyedMember (valueMark endMark : Punctuator) (lineEnds : Bool) :
    Parser (PropertyKey Node × MemberKind × Option Node) := do
  let key ← grammar.propertyKey
  if (← peekKind) = .punctuator .parenthesisOpen then
    let func ← grammar.functionTail false false
    return (key, .method, some func)
  else
    let ends := [.punctuator endMark, .punctuator .braceClose]
    let value ← afterMark valueMark (grammar.expressionFrom 1 ends lineEnds)
    return (key, .field, value)

/-- A member of a class or an object literal. -/
def member (valueMark endMark : Punctuator) (lineEnds : Bool) :
    Parser (PropertyKey Node × MemberKind × Option Node) := do
  let (first, second) ← peekTwo
  match first.kind with
  | .keyword .getWord =>
      if endsKey second then grammar.keyedMember valueMark endMark lineEnds
      else
        let _ ← consume
        grammar.methodMember .getter false false
  | .keyword .setWord =>
      if endsKey second then grammar.keyedMember valueMark endMark lineEnds
      else
        let _ ← consume
        grammar.methodMember .setter false false
  | .keyword .asyncWord =>
      if endsKey second || second.afterLineBreak then
        grammar.keyedMember valueMark endMark lineEnds
      else
        let _ ← consume
        let isGenerator ← acceptMark .asterisk
        grammar.methodMember .method true isGenerator
  | .punctuator .asterisk =>
      let _ ← consume
      grammar.methodMember .method false true
  | _ => grammar.keyedMember valueMark endMark lineEnds

def classMember : Parser Node := node do
  let (first, second) ← peekTwo
  let isStatic := first.kind = .keyword .staticWord && !endsKey second
  if isStatic then
    let _ ← consume
  let (key, kind, value) ← grammar.member .equals .semicolon true
  let _ ← acceptMark .semicolon
  return .classMember key isStatic kind value

/-- The members of a class with the braces around them. -/
def classBody : Parser (List Node) := do
  let _ ← requireMark .braceOpen
  let step := fun found : List Node => do
    if ← acceptMark .semicolon then return .inl found
    if (← peekKind) = .punctuator .braceClose then return .inr found
    return .inl ((← grammar.classMember) :: found)
  let members ← iterate step []
  let _ ← requireMark .braceClose
  return members.reverse

/-- The class that another one extends, if it is given. -/
def heritage? : Parser (Option Node) :=
  afterWord .extendsWord (grammar.expressionUntil .braceOpen)

/-- What an object member without a value stands for: a shorthand, possibly
with a default that only a pattern can have. -/
def shorthandMember (span : Span) (text : String) (kind : TokenKind)
    (key : Node) : Parser (Shape Node) := do
  if !grammar.rules.allows kind then
    fail (span.error (.expected "identifier"))
  match ← afterMark .equals (grammar.expressionInList .braceClose) with
  | none => return .shorthandProperty (.mk span (.ident text))
  | some initial =>
      let assignment := .binary .assignment
        (.mk span (.identPattern text)) initial
      return .property (.literal key) .field
        (some (.mk (span.join initial.span) assignment))

def objectMember : Parser Node := node do
  if ← acceptMark .dotDotDot then
    return .spreadProperty (← grammar.expressionInList .braceClose)
  let (key, kind, value) ← grammar.member .colon .comma false
  match key, kind, value with
  | .literal name, .field, none =>
      match name with
      | .mk span (.literalKey text kind) =>
          grammar.shorthandMember span text kind name
      | .mk span _ => fail (span.error (.expected "identifier"))
  | .computed value, .field, none =>
      fail (value.span.error (.expected "object literal value"))
  | key, kind, value => return .property key kind value

def objectLiteral : Parser Node := node do
  let _ ← requireMark .braceOpen
  let step := fun found : List Node => do
    if (← peekKind) = .punctuator .braceClose then return .inr found
    let member ← grammar.objectMember
    if ← acceptMark .comma then return .inl (member :: found)
    return .inr (member :: found)
  let members ← iterate step []
  let _ ← requireMark .braceClose
  return .object members.reverse

end Grammar

end Bundler
