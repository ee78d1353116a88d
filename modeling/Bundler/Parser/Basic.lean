import Bundler.Parser.Error
import Bundler.Parser.Stream
import Bundler.Tree.Basic

/-!
# Parsers

A parser reads from a token stream and yields a value or fails.  A failure
keeps the stream as it is, so that whoever handles it can give tokens back.

Recursion in the grammar and repetition are bounded by a number of steps that
is computed from the length of the source.  Running out of steps is a failure of
its own, which no caller handles; every step but a fixed number consumes a
token, so the bounds are never reached.
-/

namespace Bundler

inductive ParseFailure
  /-- The source is not a program. -/
  | refused (error : SyntaxError)
  /-- The bound on the number of steps was reached. -/
  | exhausted

abbrev Parser := EStateM ParseFailure TokenStream

namespace Parser

variable {α β : Type}

def fail (error : SyntaxError) : Parser α := throw (.refused error)

def exhausted : Parser α := throw .exhausted

/-- Runs a parser and hands over a syntax error as a value. -/
def attempt (parser : Parser α) : Parser (Except SyntaxError α) :=
  fun stream =>
    match parser stream with
    | .ok value stream => .ok (.ok value) stream
    | .error (.refused error) stream => .ok (.error error) stream
    | .error .exhausted stream => .error .exhausted stream

def checkpoint : Parser Checkpoint := do return (← get).checkpoint

def restore (checkpoint : Checkpoint) : Parser Unit :=
  modify (·.restore checkpoint)

def forward (mode : LexMode) (keep : Token → Bool) : Parser Token :=
  modifyGet (·.forward mode keep)

/-- Consumes a token whatever it is. -/
def consumeIn (mode : LexMode) : Parser Token := forward mode fun _ => true

def consume : Parser Token := consumeIn .standard

/-- The next token, which is not consumed. -/
def peekIn (mode : LexMode) : Parser Token := forward mode fun _ => false

def peek : Parser Token := peekIn .standard

def peekKind : Parser TokenKind := do return (← peek).kind

/-- Consumes tokens in the given modes, and gives them back. -/
def peekAhead (modes : List LexMode) : Parser (List Token) := do
  let start ← checkpoint
  let tokens ← modes.mapM consumeIn
  restore start
  return tokens

/-- The next two tokens. -/
def peekTwo : Parser (Token × Token) := do
  let start ← checkpoint
  let first ← consume
  let second ← consume
  restore start
  return (first, second)

/-- Consumes the next token if it satisfies a condition. -/
def consumeWhen (condition : Token → Bool) : Parser (Option Token) := do
  let token ← forward .standard condition
  return if condition token then some token else none

/-- Consumes the next token if it is of a kind, and says whether it did. -/
def accept (kind : TokenKind) : Parser Bool := do
  return (← consumeWhen (·.kind = kind)).isSome

/-- Consumes the next token, which must be of a kind. -/
def requireIn (mode : LexMode) (kind : TokenKind) : Parser Token := do
  let token ← consumeIn mode
  if token.kind = kind then return token
  else fail (token.error (.missingToken kind))

def require (kind : TokenKind) : Parser Token := requireIn .standard kind

def acceptMark (mark : Punctuator) : Parser Bool := accept (.punctuator mark)

def acceptWord (word : Keyword) : Parser Bool := accept (.keyword word)

def requireMark (mark : Punctuator) : Parser Token :=
  require (.punctuator mark)

def requireWord (word : Keyword) : Parser Token := require (.keyword word)

/-- Runs a parser if the next token is a punctuator, which is consumed. -/
def afterMark (mark : Punctuator) (parser : Parser α) : Parser (Option α) := do
  if ← acceptMark mark then return some (← parser) else return none

/-- Runs a parser if the next token is a key word, which is consumed. -/
def afterWord (word : Keyword) (parser : Parser α) : Parser (Option α) := do
  if ← acceptWord word then return some (← parser) else return none

/-- Whether a token ends an expression that may end without a semicolon. -/
def endsWithoutSemicolon (token : Token) : Bool :=
  token.afterLineBreak || token.kind = .punctuator .braceClose ||
    token.kind = .endOfInput

/-- Pairs what a parser yields with the range of the tokens it consumed. -/
def withSpan (parser : Parser α) : Parser (Span × α) := do
  let start ← checkpoint
  let value ← parser
  return ((← get).spanSince start, value)

/-- Makes a node of the shape that a parser yields and the range of the tokens
it consumed. -/
def node (parser : Parser (Shape Node)) : Parser Node := do
  let (span, shape) ← withSpan parser
  return .mk span shape

/-- Repeats a step, at most `fuel` times, until it yields a result. -/
def iterateWith (step : β → Parser (β ⊕ α)) : Nat → β → Parser α
  | 0, _ => exhausted
  | fuel + 1, state => do
      match ← step state with
      | .inl state => iterateWith step fuel state
      | .inr result => return result

/-- Repeats a step until it yields a result.  All steps but the last consume a
token, so there are no more of them than unread bytes. -/
def iterate (step : β → Parser (β ⊕ α)) (state : β) : Parser α := do
  iterateWith step ((← get).unread + 2) state

/-- Collects what a parser yields until it yields nothing. -/
def collect (parser : Parser (Option α)) : Parser (List α) := do
  let step := fun found : List α => do
    match ← parser with
    | some value => return .inl (value :: found)
    | none => return .inr found
  return (← iterate step []).reverse

/-- Repeats a parser as long as the next token is of none of some kinds. -/
def untilKind (ends : List TokenKind) (parser : Parser α) : Parser (List α) :=
  collect do
    if ends.contains (← peekKind) then return none else return some (← parser)

/-- Items separated by commas up to a closing mark, which is consumed.  A comma
may precede the closing mark. -/
def commaList (close : Punctuator) (item : Parser α) : Parser (List α) := do
  let step := fun found : List α => do
    if ← acceptMark close then return .inr found
    let value ← item
    if ← acceptMark .comma then return .inl (value :: found)
    let _ ← requireMark close
    return .inr (value :: found)
  return (← iterate step []).reverse

end Parser

end Bundler
