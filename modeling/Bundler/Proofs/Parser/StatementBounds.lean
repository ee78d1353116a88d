import Bundler.Proofs.Parser.Bounds

/-!
# Statements settle

The rules for declarations, loops, imports, exports and statements.  All but an
expression statement start with a word or a mark of their own; it is read by the
grammar one level below, where expressions settle within the same room.
-/

set_option synthInstance.maxSize 4000

namespace Bundler

namespace Parser

variable {text : List Char} {room : Nat}

instance : Settles text room statementEnd statementEnd := by
  rw [statementEnd]
  infer_instance

instance : Settles text room varKind varKind := by
  rw [varKind]
  refine .bind inferInstance inferInstance fun token => ?_
  split <;> infer_instance

instance : Settles text room declaratorsEnd declaratorsEnd := by
  rw [declaratorsEnd]
  infer_instance

instance : Settles text room clauseName clauseName := by
  rw [clauseName]
  infer_instance

instance : Settles text room exportItem exportItem := by
  rw [exportItem]
  infer_instance

instance : Settles text room exportItems exportItems := by
  rw [exportItems]
  refine .bind inferInstance inferInstance fun items =>
    .bind inferInstance inferInstance fun source => ?_
  dsimp only
  repeat' split
  all_goals infer_instance

instance : Settles text room exportAll exportAll := by
  rw [exportAll]
  infer_instance

end Parser

namespace Grammar

open Bundler.Parser

/-- Expressions settle where they are what a statement starts with. -/
class Leading (text : List Char) (room : Nat) (grammar grammar' : Grammar) :
    Prop where
  expressionFrom : ∀ least ends lineEnds,
    Settles text (room + 1) (grammar.expressionFrom least ends lineEnds)
      (grammar'.expressionFrom least ends lineEnds)

variable {text : List Char} {room : Nat} {grammar grammar' : Grammar}
  [grammar.IsDisciplined] [grammar.IsAdvancing]
  [hrules : SameRules grammar grammar']
  [hgrammar : Settling text room grammar grammar']

/-! ### Declarations -/

omit [grammar.IsDisciplined] [grammar.IsAdvancing] hrules in
theorem SameRules.startsVariables_eq (h : SameRules grammar grammar') :
    grammar.startsVariables = grammar'.startsVariables := by
  funext first second
  rw [startsVariables.eq_def, startsVariables.eq_def, h.rules_eq]

instance {ends : List TokenKind} {lineEnds : Bool} :
    Settles text room (grammar.declarator ends lineEnds)
      (grammar'.declarator ends lineEnds) := by
  rw [declarator, declarator]
  infer_instance

instance : Settles text (room + 1) grammar.variableDeclaration
    grammar'.variableDeclaration := by
  rw [variableDeclaration, variableDeclaration]
  infer_instance

instance : Settles text room grammar.variableDeclaration
    grammar'.variableDeclaration := .mono inferInstance (Nat.le_succ room)

instance : Settles text room grammar.headerVariables
    grammar'.headerVariables := by
  rw [headerVariables, headerVariables]
  infer_instance

instance : Settles text (room + 1) grammar.functionDeclaration
    grammar'.functionDeclaration := by
  rw [functionDeclaration, functionDeclaration]
  infer_instance

instance : Settles text room grammar.functionDeclaration
    grammar'.functionDeclaration := .mono inferInstance (Nat.le_succ room)

instance : Settles text (room + 1) grammar.classDeclaration
    grammar'.classDeclaration := by
  rw [classDeclaration, classDeclaration]
  infer_instance

instance : Settles text room grammar.classDeclaration
    grammar'.classDeclaration := .mono inferInstance (Nat.le_succ room)

/-! ### Loops -/

instance : Settles text room forKindBehindStart forKindBehindStart := by
  rw [forKindBehindStart]
  refine .bind inferInstance inferInstance fun kind => ?_
  split <;> infer_instance

instance : Settles text (room + 1) grammar.forKind grammar'.forKind := by
  rw [forKind, forKind, ← hrules.startsVariables_eq]
  refine .bindAdvancing inferInstance inferInstance inferInstance fun word =>
    .bind inferInstance inferInstance fun isAwait => ?_
  split
  · infer_instance
  · refine .bind inferInstance inferInstance fun start =>
      .bind inferInstance inferInstance fun (first, second) => ?_
    dsimp only
    split
    · infer_instance
    · split
      · infer_instance
      · refine .bind inferInstance inferInstance fun outcome => ?_
        cases outcome <;> infer_instance

instance : Settles text room grammar.forBody grammar'.forBody := by
  rw [forBody, forBody]
  infer_instance

instance : Settles text room grammar.forTarget grammar'.forTarget := by
  rw [forTarget, forTarget, ← hrules.startsVariables_eq]
  refine .bind inferInstance inferInstance fun (first, second) => ?_
  dsimp only
  split
  · infer_instance
  · refine .bind inferInstance inferInstance fun target => ?_
    cases htarget : target.toPattern with
    | ok pattern => infer_instance
    | error error =>
        exact settles_fail_of_refusesTargets target.refusesTargets_toPattern
          htarget

instance : Settles text room grammar.forRest grammar'.forRest := by
  rw [forRest, forRest]
  infer_instance

instance : Settles text (room + 1) grammar.keysLoop grammar'.keysLoop := by
  rw [keysLoop, keysLoop]
  infer_instance

instance : Settles text (room + 1) grammar.valuesLoop
    grammar'.valuesLoop := by
  rw [valuesLoop, valuesLoop]
  infer_instance

instance : Settles text room grammar.forStart grammar'.forStart := by
  rw [forStart, forStart, ← hrules.startsVariables_eq]
  infer_instance

instance {close : Punctuator} :
    Settles text room (grammar.forPart close) (grammar'.forPart close) := by
  rw [forPart, forPart]
  infer_instance

instance : Settles text (room + 1) grammar.countingLoop
    grammar'.countingLoop := by
  rw [countingLoop, countingLoop]
  infer_instance

instance : Settles text (room + 1) grammar.forStatement
    grammar'.forStatement := by
  rw [forStatement_eq, forStatement_eq]
  have hloop : ∀ kind, Settles text (room + 1) (grammar.loopOf kind)
      (grammar'.loopOf kind) := by
    intro kind
    cases kind
    · exact inferInstanceAs (Settles text (room + 1) grammar.countingLoop
        grammar'.countingLoop)
    · exact inferInstanceAs (Settles text (room + 1) grammar.keysLoop
        grammar'.keysLoop)
    · exact inferInstanceAs (Settles text (room + 1) grammar.valuesLoop
        grammar'.valuesLoop)
  infer_instance

/-! ### Imports and exports -/

instance : Settles text room grammar.importItem grammar'.importItem := by
  rw [importItem, importItem, ← hrules.rules_eq]
  refine .node (.bind inferInstance inferInstance fun token =>
    .bind inferInstance inferInstance fun imported =>
    .bind inferInstance inferInstance fun asName => ?_)
  cases asName <;> infer_instance

instance : Settles text room grammar.importNames grammar'.importNames := by
  rw [importNames, importNames]
  refine .bind inferInstance inferInstance fun token => ?_
  split <;> infer_instance

instance : Settles text room grammar.importClause grammar'.importClause := by
  rw [importClause, importClause, ← hrules.rules_eq]
  infer_instance

instance : Settles text (room + 1) grammar.importStatement
    grammar'.importStatement := by
  rw [importStatement, importStatement]
  infer_instance

instance : Settles text room grammar.nextFunctionIsNamed
    grammar'.nextFunctionIsNamed := by
  rw [nextFunctionIsNamed, nextFunctionIsNamed, ← hrules.rules_eq]
  infer_instance

instance {value value' : Parser Node} [Disciplined false value]
    [Settles text room value value'] :
    Settles text room (exportDefaultOf value) (exportDefaultOf value') := by
  rw [exportDefaultOf, exportDefaultOf]
  infer_instance

instance : Settles text room grammar.defaultExport
    grammar'.defaultExport := by
  rw [defaultExport, defaultExport, ← hrules.rules_eq]
  infer_instance

instance : Settles text (room + 1) grammar.exportStatement
    grammar'.exportStatement := by
  rw [exportStatement, exportStatement, ← hrules.startsVariables_eq]
  refine .node (.bindAdvancing inferInstance inferInstance inferInstance
    fun word => .bind inferInstance inferInstance fun (first, second) => ?_)
  dsimp only
  split <;> infer_instance

/-! ### Statements -/

instance : Settles text (room + 1) grammar.blockStatement
    grammar'.blockStatement := by
  rw [blockStatement, blockStatement]
  infer_instance

instance : Settles text room grammar.blockStatement
    grammar'.blockStatement := .mono inferInstance (Nat.le_succ room)

instance : Settles text room grammar.jumpLabel grammar'.jumpLabel := by
  rw [jumpLabel, jumpLabel, ← hrules.rules_eq]
  infer_instance

instance : Settles text room grammar.breakStatement
    grammar'.breakStatement := by
  rw [breakStatement, breakStatement]
  infer_instance

instance : Settles text room grammar.continueStatement
    grammar'.continueStatement := by
  rw [continueStatement, continueStatement]
  infer_instance

instance : Settles text room debuggerStatement debuggerStatement := by
  rw [debuggerStatement]
  infer_instance

instance : Settles text room emptyStatement emptyStatement := by
  rw [emptyStatement]
  infer_instance

instance : Settles text room grammar.lastExpression
    grammar'.lastExpression := by
  rw [lastExpression, lastExpression]
  infer_instance

instance : Settles text (room + 1) grammar.labelledStatement
    grammar'.labelledStatement := by
  rw [labelledStatement, labelledStatement]
  infer_instance

instance : Settles text room grammar.parenthesized grammar'.parenthesized := by
  rw [parenthesized, parenthesized]
  infer_instance

instance : Settles text (room + 1) grammar.ifStatement
    grammar'.ifStatement := by
  rw [ifStatement, ifStatement]
  infer_instance

instance : Settles text (room + 1) grammar.returnStatement
    grammar'.returnStatement := by
  rw [returnStatement, returnStatement]
  infer_instance

instance : Settles text (room + 1) grammar.throwStatement
    grammar'.throwStatement := by
  rw [throwStatement, throwStatement]
  infer_instance

instance : Settles text room grammar.catchClause grammar'.catchClause := by
  rw [catchClause, catchClause]
  infer_instance

instance : Settles text (room + 1) grammar.tryStatement
    grammar'.tryStatement := by
  rw [tryStatement, tryStatement]
  infer_instance

instance : Settles text (room + 1) grammar.whileStatement
    grammar'.whileStatement := by
  rw [whileStatement, whileStatement]
  infer_instance

instance : Settles text (room + 1) grammar.withStatement
    grammar'.withStatement := by
  rw [withStatement, withStatement]
  infer_instance

instance : Settles text (room + 1) grammar.doWhileStatement
    grammar'.doWhileStatement := by
  rw [doWhileStatement, doWhileStatement]
  infer_instance

instance : Settles text room grammar.switchCase grammar'.switchCase := by
  rw [switchCase, switchCase]
  infer_instance

instance : Settles text (room + 1) grammar.switchStatement
    grammar'.switchStatement := by
  rw [switchStatement, switchStatement]
  infer_instance

section WithLeading

variable [hleading : Leading text room grammar grammar']

instance {ends : List TokenKind} :
    Settles text (room + 1) (grammar.expressionOrLine ends)
      (grammar'.expressionOrLine ends) := by
  rw [expressionOrLine, expressionOrLine]
  exact hleading.expressionFrom 1 ends true

instance : Settles text (room + 1) grammar.expressionStatement
    grammar'.expressionStatement := by
  rw [expressionStatement, expressionStatement, lastExpression, lastExpression]
  infer_instance

instance {first second : Token} :
    Settles text (room + 1) (grammar.otherStatement first second)
      (grammar'.otherStatement first second) := by
  rw [otherStatement, otherStatement, ← hrules.startsVariables_eq,
    ← hrules.rules_eq]
  infer_instance

instance {first second : Token} {word : Keyword} :
    Settles text (room + 1) (grammar.wordStatement first second word)
      (grammar'.wordStatement first second word) := by
  unfold wordStatement
  split <;> infer_instance

theorem settles_statementRule :
    Settles text (room + 1) grammar.statementRule grammar'.statementRule := by
  rw [statementRule, statementRule]
  refine .bind inferInstance inferInstance fun (first, second) => ?_
  dsimp only
  split <;> infer_instance

end WithLeading

end Grammar

end Bundler
