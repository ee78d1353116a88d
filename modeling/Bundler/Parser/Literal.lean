import Bundler.Number.Literal
import Bundler.Parser.Grammar
import Bundler.Source.Escape

/-!
# Literals

Strings, numbers, templates and array literals.  Escapes are decoded here, and
a malformed one is reported at the byte of its backslash.
-/

namespace Bundler

namespace Parser

/-- The value of a string literal. -/
def stringValue : Parser String := do
  let token ← consume
  let text := token.text.toList
  match token.kind with
  | .string => pure ()
  | .invalid =>
      if text.head? = some '"' || text.head? = some '\'' then
        fail (token.error .lineBreakInString)
      else fail (token.error (.missingToken .string))
  | _ => fail (token.error (.missingToken .string))
  match Escape.decode false (text.drop 1).dropLast with
  | .ok value => return String.ofList value
  | .error offset =>
      let start := token.span.start + 1 + offset
      fail ⟨.invalidEscape, ⟨start, start + 1⟩, some .string⟩

/-- The value of a number literal. -/
def numberValue : Parser Binary64 := do
  let token ← require .number
  match Binary64.ofLiteral? token.text.toList with
  | some value => return value
  | none => fail (token.error .malformedNumber)

/-- The digits of a BigInt literal, without separators and the final letter. -/
def bigintDigits : Parser String := do
  let token ← require .bigint
  let text := token.text.toList
  if text.getLast? = some 'n' then
    return String.ofList (text.dropLast.filter (· != '_'))
  else fail (token.error .malformedBigint)

def stringLiteral : Parser Node := node do return .string (← stringValue)

def numberLiteral : Parser Node := node do return .number (← numberValue)

def bigintLiteral : Parser Node := node do return .bigint (← bigintDigits)

def booleanLiteral : Parser Node := node do
  let token ← consume
  match token.kind with
  | .keyword .trueWord => return .boolean true
  | .keyword .falseWord => return .boolean false
  | _ => fail (token.error (.expected "boolean literal"))

def nullLiteral : Parser Node := node do
  let _ ← requireWord .nullWord
  return .null

def regexLiteral : Parser Node := node do
  let token ← requireIn .slashIsRegex .regex
  return .regex token.text

/-- The body of a chunk of a template, without its delimiters, and the number
of bytes cut off in front of it. -/
def templateBody (isTail : Bool) (text : List Char) : Nat × List Char :=
  let cut := if isTail then 1 else 2
  let body := text.take (text.length - cut)
  match body with
  | '\x60' :: rest => (1, rest)
  | _ => (0, body)

/-- The decoded text of a chunk of a template.  In a tagged template a malformed
escape makes the text empty. -/
def templateText (isTagged isTail : Bool) (token : Token) : Parser String := do
  let (offset, body) := templateBody isTail token.text.toList
  match Escape.decode true body with
  | .ok text => return String.ofList text
  | .error fault =>
      if isTagged then return ""
      else
        let start := token.span.start + offset + fault
        fail (Span.error ⟨start, start + 1⟩ .invalidEscape)

end Parser

namespace Grammar

open Bundler.Parser

variable (grammar : Grammar)

/-- The texts and values of a template that come after a text: none after its
last text. -/
def templateRest (isTagged : Bool) :
    Parser (List (Node × String)) := do
  let step := fun found : List (Node × String) => do
    let value ← grammar.expressionUntil .braceClose
    let _ ← requireMark .braceClose
    let token ← consumeIn .templateContinue
    match token.kind with
    | .templatePart =>
        let text ← templateText isTagged false token
        return .inl ((value, text) :: found)
    | .templateTail =>
        let text ← templateText isTagged true token
        return .inr ((value, text) :: found)
    | _ => fail (token.error .unexpectedEnd)
  return (← iterate step []).reverse

/-- The texts and the values of a template, one more of the former. -/
def templateParts (isTagged : Bool) : Parser (List String × List Node) := do
  let token ← consume
  match token.kind with
  | .templatePart =>
      let text ← templateText isTagged false token
      let rest ← grammar.templateRest isTagged
      return (text :: rest.map (·.2), rest.map (·.1))
  | .templateTail => return ([← templateText isTagged true token], [])
  | .invalid => fail (token.error .unexpectedEnd)
  | _ => fail (token.error (.expected "template string part"))

def templateLiteral : Parser Node := node do
  let (texts, values) ← grammar.templateParts false
  return .template texts values

def arrayLiteral : Parser Node := node do
  let _ ← requireMark .bracketOpen
  let step := fun found : List (ArrayElement Node) => do
    if ← acceptMark .comma then return .inl (.hole :: found)
    if (← peekKind) = .punctuator .bracketClose then return .inr found
    let isSpread ← acceptMark .dotDotDot
    let value ← grammar.expressionInList .bracketClose
    let found := (if isSpread then .spread value else .single value) :: found
    if (← peekKind) = .punctuator .bracketClose then return .inr found
    let _ ← requireMark .comma
    return .inl found
  let elements ← iterate step []
  let _ ← requireMark .bracketClose
  return .array elements.reverse

end Grammar

end Bundler
