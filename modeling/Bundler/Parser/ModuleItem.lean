import Bundler.Parser.Declaration

/-!
# Imports and exports

The statements that connect a module to others.  An exported declaration is a
node of its own inside the statement, which starts at `export`.
-/

namespace Bundler

namespace Parser

/-- A name in an import or export clause: any word, or a string. -/
def clauseName : Parser ClauseName := do
  let token ← peek
  if token.kind = .string then return .string (← stringValue)
  else if token.kind.isWord then
    let _ ← consume
    return .ident token.text
  else fail (token.error (.expected "import or export name"))

/-- An item of an export clause, which has its own name where it gives no
other. -/
def exportItem : Parser Node := node do
  let exported ← clauseName
  let asName ← afterWord .asWord clauseName
  return .exportItem exported (asName.getD exported)

/-- Whether an item of an export clause names what it exports by a string. -/
def exportsString (item : Node) : Bool :=
  match item.shape with
  | .exportItem (.string _) _ => true
  | _ => false

/-- The items of an export clause after its brace.  A string can only name what
another module exports. -/
def exportItems : Parser (Shape Node) := do
  let items ← commaList .braceClose exportItem
  let source ← afterWord .fromWord stringValue
  if source.isNone then
    if let some item := items.find? exportsString then
      fail ⟨.expected "identifier", item.span, some .string⟩
  statementEnd
  return .exportItems items source

/-- The export of all that another module exports, after the asterisk. -/
def exportAll : Parser (Shape Node) := do
  let asName ← afterWord .asWord clauseName
  let _ ← requireWord .fromWord
  let source ← stringValue
  statementEnd
  return .exportAll asName source

end Parser

namespace Grammar

open Bundler.Parser

variable (grammar : Grammar)

/-- An item of an import clause.  A string or a reserved word needs a name to
bind. -/
def importItem : Parser Node := node do
  let token ← peek
  let imported ← clauseName
  match ← afterWord .asWord grammar.namePattern with
  | some asName => return .importItem imported asName
  | none =>
      if grammar.rules.allows token.kind then
        let asName := .mk token.span (.identPattern imported.text)
        return .importItem imported asName
      else fail (token.error (.expected "\x60as\x60 alias"))

/-- The names of an import other than the default one. -/
def importNames : Parser (ImportNames Node) := do
  let token ← consume
  match token.kind with
  | .punctuator .asterisk =>
      let _ ← requireWord .asWord
      return .all (← grammar.namePattern)
  | .punctuator .braceOpen =>
      return .items (← commaList .braceClose grammar.importItem)
  | _ => fail (token.error (.expected "import specifiers"))

/-- The default name and the other names of an import, of which it has at least
one kind. -/
def importClause : Parser (Option Node × Option (ImportNames Node)) := do
  if grammar.rules.allows (← peekKind) then
    let defaultName ← grammar.namePattern
    let names ← afterMark .comma grammar.importNames
    return (some defaultName, names)
  else return (none, some (← grammar.importNames))

def importStatement : Parser Node := node do
  let _ ← requireWord .importWord
  if (← peekKind) = .string then
    let source ← stringValue
    statementEnd
    return .importFrom none none source
  else
    let (defaultName, names) ← grammar.importClause
    let _ ← requireWord .fromWord
    let source ← stringValue
    statementEnd
    return .importFrom defaultName names source

/-- Whether a function that starts with the next token has a name. -/
def nextFunctionIsNamed : Parser Bool := do
  let tokens ←
    peekAhead [.standard, .standard, .standard, .standard]
  let kinds := tokens.map (·.kind)
  let kinds :=
    if kinds.head? = some (.keyword .asyncWord) then kinds.drop 2
    else kinds.drop 1
  let kinds :=
    if kinds.head? = some (.punctuator .asterisk) then kinds.drop 1 else kinds
  return kinds.head?.any grammar.rules.allows

/-- A function or class as the default export; a semicolon after it belongs to
the statement. -/
def exportDefaultOf (value : Parser Node) : Parser (Shape Node) := do
  let value ← value
  let _ ← acceptMark .semicolon
  return .exportDefault value

/-- The default export after the word `default`: a declaration if it is a
function or class with a name, else an expression. -/
def defaultExport : Parser (Shape Node) := do
  let (first, second) ← peekTwo
  let isFunction :=
    first.kind = .keyword .functionWord ||
      (first.kind = .keyword .asyncWord &&
        second.kind = .keyword .functionWord && !second.afterLineBreak)
  if isFunction then
    if ← grammar.nextFunctionIsNamed then
      return .exportDeclaration true (← grammar.functionDeclaration)
    else exportDefaultOf grammar.functionExpression
  else if first.kind = .keyword .classWord then
    if grammar.rules.allows second.kind then
      return .exportDeclaration true (← grammar.classDeclaration)
    else exportDefaultOf grammar.classExpression
  else
    let value ← grammar.expressionOrLine [.punctuator .semicolon]
    statementEnd
    return .exportDefault value

def exportStatement : Parser Node := node do
  let _ ← requireWord .exportWord
  let (first, second) ← peekTwo
  match first.kind with
  | .punctuator .braceOpen =>
      let _ ← consume
      exportItems
  | .punctuator .asterisk =>
      let _ ← consume
      exportAll
  | .keyword .asyncWord | .keyword .functionWord =>
      return .exportDeclaration false (← grammar.functionDeclaration)
  | .keyword .classWord =>
      return .exportDeclaration false (← grammar.classDeclaration)
  | .keyword .defaultWord =>
      let _ ← consume
      grammar.defaultExport
  | _ =>
      if grammar.startsVariables first second then
        return .exportDeclaration false (← grammar.variableDeclaration)
      else fail (first.error (.expected "exportable"))

end Grammar

end Bundler
