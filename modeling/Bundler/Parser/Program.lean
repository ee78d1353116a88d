import Bundler.Parser.Expression
import Bundler.Parser.Statement

/-!
# Whole programs

The three mutually recursive places of the grammar are tied together level by
level: a grammar of some depth reads its parts by a grammar that is one less
deep.  Every second level at least consumes a token, so a depth in proportion
to the length of a source is enough to read it.
-/

namespace Bundler

namespace Grammar

/-- The grammar whose parts are read by the given one. -/
def deepen (grammar : Grammar) : Grammar :=
  { rules := grammar.rules
    expressionFrom := grammar.expressionRule
    pattern := grammar.patternRule
    statement := grammar.statementRule }

/-- The grammar for constructs that are nested up to some depth. -/
def ofDepth (rules : NameRules) : Nat → Grammar
  | 0 => empty rules
  | depth + 1 => (ofDepth rules depth).deepen

/-- A grammar that is deep enough for a source. -/
def forSource (rules : NameRules) (source : String) : Grammar :=
  ofDepth rules (2 * source.utf8ByteSize + 4)

/-- Statements up to the end of the source. -/
def statements (grammar : Grammar) : Parser (List Node) :=
  Parser.untilKind [.endOfInput] grammar.statement

end Grammar

namespace Parser

variable {α : Type}

/-- Runs a parser on a source.  Steps do not run out; if they did, the source
would count as cut short. -/
def run (parser : Parser α) (source : String) :
    Except SyntaxError (α × TokenStream) :=
  match parser (TokenStream.ofSource source.toList) with
  | .ok value stream => .ok (value, stream)
  | .error (.refused error) _ => .error error
  | .error .exhausted stream =>
      .error (Span.error (.point stream.lastEnd) .unexpectedEnd)

end Parser

namespace Program

/-- Reads a source as a module. -/
def parse (source : String) : Except SyntaxError Program := do
  let grammar := Grammar.forSource .module source
  let whole := do
    let statements ← grammar.statements
    let _ ← Parser.require .endOfInput
    return statements
  let (statements, stream) ← whole.run source
  return ⟨⟨0, source.utf8ByteSize⟩, statements, stream.comments.reverse⟩

end Program

end Bundler
