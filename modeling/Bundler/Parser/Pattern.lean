import Bundler.Number.Shortest
import Bundler.Parser.Literal

/-!
# Property keys and patterns

The keys of object members, class members and pattern properties, and the
patterns that declarations and parameters take values apart with.
-/

namespace Bundler

namespace Grammar

open Bundler.Parser

variable (grammar : Grammar)

/-- The text of a key that is not computed: a name, a key word, or the value of
a string or number literal. -/
def literalKeyText (token : Token) : Parser String :=
  match token.kind with
  | .string => stringValue
  | .number => do return (← numberValue).render
  | .bigint => bigintDigits
  | .privateName | .identifier | .keyword _ => do return (← consume).text
  | _ => fail (token.error (.expected "keyword or identifier"))

def propertyKey : Parser (PropertyKey Node) := do
  if ← acceptMark .bracketOpen then
    let value ← grammar.expressionUntil .bracketClose
    let _ ← requireMark .bracketClose
    return .computed value
  else
    let name ← node do
      let token ← peek
      return .literalKey (← literalKeyText token) token.kind
    return .literal name

/-- A pattern that is a single name. -/
def namePattern : Parser Node := node do
  return .identPattern (← grammar.bindingWord).text

/-- The target of a pattern property after its key, and whether the property is
a shorthand, whose key has to be a name. -/
def propertyTarget (key : PropertyKey Node) : Parser (Node × Bool) := do
  if ← acceptMark .colon then return (← grammar.pattern, false)
  else
    match key with
    | .literal (.mk span (.literalKey text kind)) =>
        if grammar.rules.allows kind then
          return (.mk span (.identPattern text), true)
        else fail (span.error (.expected "identifier"))
    | _ =>
        let token ← peek
        fail (token.error (.missingToken (.punctuator .colon)))

def patternProperty : Parser Node := node do
  let key ← grammar.propertyKey
  let (target, shorthand) ← grammar.propertyTarget key
  let initial ←
    afterMark .equals (grammar.expressionInList .braceClose)
  return .patternProperty key target shorthand initial

def objectPattern : Parser Node := node do
  let _ ← requireMark .braceOpen
  let step := fun found : List Node => do
    if (← peekKind) = .punctuator .braceClose then return .inr (found, none)
    if ← acceptMark .dotDotDot then
      let rest ← grammar.namePattern
      return .inr (found, some rest)
    let property ← grammar.patternProperty
    if ← acceptMark .comma then return .inl (property :: found)
    return .inr (property :: found, none)
  let (properties, rest) ← iterate step []
  let _ ← requireMark .braceClose
  return .objectPattern properties.reverse rest

def arrayPattern : Parser Node := node do
  let _ ← requireMark .bracketOpen
  let step := fun found : List (PatternElement Node) => do
    if (← peekKind) = .punctuator .bracketClose then return .inr (found, none)
    if ← acceptMark .dotDotDot then
      let rest ← grammar.pattern
      return .inr (found, some rest)
    if ← acceptMark .comma then return .inl (.hole :: found)
    let target ← grammar.pattern
    let initial ←
      afterMark .equals (grammar.expressionInList .bracketClose)
    let found := .item target initial :: found
    if ← acceptMark .comma then return .inl found
    return .inr (found, none)
  let (elements, rest) ← iterate step []
  let _ ← requireMark .bracketClose
  return .arrayPattern elements.reverse rest

/-- The rule for patterns. -/
def patternRule : Parser Node := do
  let token ← peek
  match token.kind with
  | .punctuator .braceOpen => grammar.objectPattern
  | .punctuator .bracketOpen => grammar.arrayPattern
  | kind =>
      if grammar.rules.allows kind then grammar.namePattern
      else fail (token.error (.expected "pattern"))

end Grammar

end Bundler
