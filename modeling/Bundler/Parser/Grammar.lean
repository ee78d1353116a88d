import Bundler.Parser.Basic

/-!
# Grammars

The grammar is mutually recursive in three places only: expressions, patterns
and statements occur in each other.  Every rule takes the parsers for these
three from a `Grammar`, so a rule is an ordinary definition, and what holds of
the three parsers can be assumed when a rule is studied.
-/

namespace Bundler

/-- Which of the two contextual operators are plain names. -/
structure NameRules where
  awaitIsName : Bool
  yieldIsName : Bool

namespace NameRules

/-- In a module both `await` and `yield` are operators. -/
def module : NameRules := ⟨false, false⟩

/-- Whether a token of this kind may name a binding. -/
def allows (rules : NameRules) : TokenKind → Bool
  | .identifier => true
  | .keyword .awaitWord => rules.awaitIsName
  | .keyword .yieldWord => rules.yieldIsName
  | .keyword word => word.isUnreserved
  | _ => false

end NameRules

structure Grammar where
  rules : NameRules
  /-- An expression whose operators have at least some precedence.  It ends
  before a token of one of the kinds given, which are not operators there, and,
  if `lineEnds` holds, where a semicolon may be left out. -/
  expressionFrom : (least : Nat) → (ends : List TokenKind) →
    (lineEnds : Bool) → Parser Node
  pattern : Parser Node
  statement : Parser Node

namespace Grammar

variable (grammar : Grammar)

/-- An expression up to a token of one of some kinds. -/
def expression (ends : List TokenKind) : Parser Node :=
  grammar.expressionFrom 1 ends false

/-- An expression up to a mark. -/
def expressionUntil (mark : Punctuator) : Parser Node :=
  grammar.expression [.punctuator mark]

/-- An expression up to a comma or a mark. -/
def expressionInList (mark : Punctuator) : Parser Node :=
  grammar.expression [.punctuator .comma, .punctuator mark]

/-- An expression that may end where a semicolon may be left out. -/
def expressionOrLine (ends : List TokenKind) : Parser Node :=
  grammar.expressionFrom 1 ends true

/-- The grammar that has no steps left. -/
def empty (rules : NameRules) : Grammar :=
  { rules := rules
    expressionFrom := fun _ _ _ => Parser.exhausted
    pattern := Parser.exhausted
    statement := Parser.exhausted }

/-- A name that may be bound, with its range. -/
def bindingWord : Parser Token := do
  let token ← Parser.consume
  if grammar.rules.allows token.kind then return token
  else Parser.fail (token.error (.expected "identifier"))

/-- A statement list up to the brace that closes it, with both braces. -/
def bracedStatements : Parser (List Node) := do
  let _ ← Parser.requireMark .braceOpen
  let statements ←
    Parser.untilKind [.punctuator .braceClose] grammar.statement
  let _ ← Parser.requireMark .braceClose
  return statements

end Grammar

end Bundler
