import Bundler.Parser.Loop
import Bundler.Parser.ModuleItem

/-!
# Statements

A statement is recognized by its first two tokens.  What starts like no other
statement is an expression.
-/

namespace Bundler

namespace Grammar

open Bundler.Parser

variable (grammar : Grammar)

def blockStatement : Parser Node := node do
  return .block (← grammar.bracedStatements)

/-- A label on the line of the word that jumps to it. -/
def jumpLabel : Parser (Option String) := do
  let label ← consumeWhen fun token =>
    grammar.rules.allows token.kind && !token.afterLineBreak
  statementEnd
  return label.map (·.text)

def breakStatement : Parser Node := node do
  let _ ← requireWord .breakWord
  return .breakTo (← grammar.jumpLabel)

def continueStatement : Parser Node := node do
  let _ ← requireWord .continueWord
  return .continueTo (← grammar.jumpLabel)

def debuggerStatement : Parser Node := node do
  let _ ← requireWord .debuggerWord
  statementEnd
  return .debugger

def emptyStatement : Parser Node := node do
  let _ ← requireMark .semicolon
  return .empty

/-- An expression and the end of the statement that it ends. -/
def lastExpression : Parser Node := do
  let value ← grammar.expressionOrLine [.punctuator .semicolon]
  statementEnd
  return value

def expressionStatement : Parser Node := node do
  return .expressionStatement (← grammar.lastExpression)

def labelledStatement : Parser Node := node do
  let label ← consume
  let _ ← requireMark .colon
  return .labelled label.text (← grammar.statement)

/-- An expression in the parentheses that belong to a statement. -/
def parenthesized : Parser Node := do
  let _ ← requireMark .parenthesisOpen
  let value ← grammar.expressionUntil .parenthesisClose
  let _ ← requireMark .parenthesisClose
  return value

def ifStatement : Parser Node := node do
  let _ ← requireWord .ifWord
  let test ← grammar.parenthesized
  let consequent ← grammar.statement
  let alternate ← afterWord .elseWord grammar.statement
  return .ifElse test consequent alternate

def returnStatement : Parser Node := node do
  let _ ← requireWord .returnWord
  if endsWithoutSemicolon (← peek) then return .returnValue none
  else if ← acceptMark .semicolon then return .returnValue none
  else return .returnValue (some (← grammar.lastExpression))

def throwStatement : Parser Node := node do
  let word ← requireWord .throwWord
  if (← peek).afterLineBreak then fail (word.error .lineBreakAfterThrow)
  return .throwValue (← grammar.lastExpression)

/-- A handler of exceptions, which may bind what was thrown. -/
def catchClause : Parser Node := node do
  let _ ← requireWord .catchWord
  let caught ← afterMark .parenthesisOpen do
    let pattern ← grammar.pattern
    let _ ← requireMark .parenthesisClose
    return pattern
  return .catchClause caught (← grammar.bracedStatements)

def tryStatement : Parser Node := node do
  let word ← requireWord .tryWord
  let body ← grammar.blockStatement
  let handler ←
    if (← peekKind) = .keyword .catchWord then
      pure (some (← grammar.catchClause))
    else pure none
  let finalizer ← afterWord .finallyWord grammar.blockStatement
  if handler.isNone && finalizer.isNone then
    fail (word.error .tryWithoutHandler)
  return .tryCatch body handler finalizer

def whileStatement : Parser Node := node do
  let _ ← requireWord .whileWord
  let condition ← grammar.parenthesized
  return .whileLoop condition (← grammar.statement)

def withStatement : Parser Node := node do
  let _ ← requireWord .withWord
  let object ← grammar.parenthesized
  return .withObject object (← grammar.statement)

/-- A loop that tests its condition last.  A semicolon behind it is never
needed. -/
def doWhileStatement : Parser Node := node do
  let _ ← requireWord .doWord
  let body ← grammar.statement
  let _ ← requireWord .whileWord
  let condition ← grammar.parenthesized
  let _ ← acceptMark .semicolon
  return .doWhile condition body

def switchCase : Parser Node := node do
  let test ← afterWord .caseWord (grammar.expressionUntil .colon)
  if test.isNone then
    let _ ← requireWord .defaultWord
  let _ ← requireMark .colon
  let ends : List TokenKind :=
    [.keyword .caseWord, .keyword .defaultWord, .punctuator .braceClose,
     .endOfInput]
  return .switchCase test (← untilKind ends grammar.statement)

def switchStatement : Parser Node := node do
  let _ ← requireWord .switchWord
  let subject ← grammar.parenthesized
  let _ ← requireMark .braceOpen
  let cases ← collect do
    if ← acceptMark .braceClose then return none
    else return some (← grammar.switchCase)
  return .switch subject cases

/-- A statement that starts with no word of its own, or with one that means
something else here. -/
def otherStatement (first second : Token) : Parser Node :=
  if grammar.startsVariables first second then grammar.variableDeclaration
  else if grammar.rules.allows first.kind &&
      second.kind = .punctuator .colon then
    grammar.labelledStatement
  else grammar.expressionStatement

/-- A statement that starts with a key word. -/
def wordStatement (first second : Token) : Keyword → Parser Node
  | .asyncWord =>
      if second.kind = .keyword .functionWord && !second.afterLineBreak then
        grammar.functionDeclaration
      else grammar.otherStatement first second
  | .breakWord => grammar.breakStatement
  | .classWord => grammar.classDeclaration
  | .continueWord => grammar.continueStatement
  | .debuggerWord => debuggerStatement
  | .doWord => grammar.doWhileStatement
  | .exportWord => grammar.exportStatement
  | .forWord => grammar.forStatement
  | .functionWord => grammar.functionDeclaration
  | .ifWord => grammar.ifStatement
  | .importWord =>
      if second.kind = .punctuator .parenthesisOpen ||
          second.kind = .punctuator .dot then
        grammar.expressionStatement
      else grammar.importStatement
  | .returnWord => grammar.returnStatement
  | .switchWord => grammar.switchStatement
  | .throwWord => grammar.throwStatement
  | .tryWord => grammar.tryStatement
  | .whileWord => grammar.whileStatement
  | .withWord => grammar.withStatement
  | _ => grammar.otherStatement first second

/-- The rule for statements. -/
def statementRule : Parser Node := do
  let (first, second) ← peekTwo
  match first.kind with
  | .punctuator .braceOpen => grammar.blockStatement
  | .punctuator .semicolon => emptyStatement
  | .keyword word => grammar.wordStatement first second word
  | _ => grammar.otherStatement first second

end Grammar

end Bundler
