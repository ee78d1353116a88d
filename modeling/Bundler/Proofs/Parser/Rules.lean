import Bundler.Parser.Program
import Bundler.Proofs.Parser.Discipline

/-!
# All rules of the grammar are disciplined

Rule by rule, in the order of the grammar.  A rule takes the parsers for
expressions, patterns and statements from a grammar whose parsers are
disciplined, so its own discipline follows from how it is put together; tying
the grammar together is an induction on its depth.
-/

namespace Bundler

namespace Parser

variable {looks : Bool}

/-! ### Literals -/

instance : Disciplined looks stringValue := by
  apply Disciplined.any
  rw [stringValue]
  apply Disciplined.bindLooking inferInstance
  intro token
  dsimp only
  repeat' split
  all_goals infer_instance

instance : Disciplined looks numberValue := by
  apply Disciplined.any
  rw [numberValue]
  apply Disciplined.bindLooking inferInstance
  intro token
  split <;> infer_instance

instance : Disciplined looks bigintDigits :=
  .any (by rw [bigintDigits]; infer_instance)

instance : Disciplined looks stringLiteral := by
  rw [stringLiteral]
  infer_instance

instance : Disciplined looks numberLiteral := by
  rw [numberLiteral]
  infer_instance

instance : Disciplined looks bigintLiteral := by
  rw [bigintLiteral]
  infer_instance

instance : Disciplined looks booleanLiteral := by
  rw [booleanLiteral]
  apply Disciplined.node
  apply Disciplined.bindLooking inferInstance
  intro token
  split <;> infer_instance

instance : Disciplined looks nullLiteral := by
  rw [nullLiteral]
  infer_instance

instance : Disciplined looks regexLiteral := by
  rw [regexLiteral]
  infer_instance

instance (isTagged isTail : Bool) (token : Token) :
    Disciplined false (templateText isTagged isTail token) := by
  rw [templateText]
  dsimp only
  split <;> infer_instance

/-! ### Ends of statements and heads of declarations -/

instance : Disciplined looks statementEnd :=
  .any (by rw [statementEnd]; infer_instance)

instance : Disciplined looks varKind := by
  apply Disciplined.any
  rw [varKind]
  apply Disciplined.bindLooking inferInstance
  intro token
  split <;> infer_instance

instance : Disciplined looks declaratorsEnd :=
  .any (by rw [declaratorsEnd]; infer_instance)

/-! ### Clauses of imports and exports -/

instance : Disciplined looks clauseName :=
  .any (by rw [clauseName]; infer_instance)

instance : Disciplined looks exportItem := by
  rw [exportItem]
  infer_instance

instance : Disciplined false exportItems := by
  rw [exportItems]
  refine .bind inferInstance fun items => .bind inferInstance fun source => ?_
  dsimp only
  repeat' split
  all_goals infer_instance

instance : Disciplined false exportAll := by
  rw [exportAll]
  infer_instance

end Parser

namespace Grammar

open Bundler.Parser

/-- The parsers of a grammar for expressions, patterns and statements are
disciplined and look at a token. -/
class IsDisciplined (grammar : Grammar) : Prop where
  expressionFrom : ∀ least ends lineEnds,
    Disciplined true (grammar.expressionFrom least ends lineEnds)
  pattern : Disciplined true grammar.pattern
  statement : Disciplined true grammar.statement

section WithoutParts

/-! ### Rules without parts of their own -/

variable (grammar : Grammar) {looks : Bool}

instance : Disciplined looks grammar.bindingWord :=
  .any (by rw [bindingWord]; infer_instance)

instance (token : Token) : Disciplined false (literalKeyText token) := by
  rw [literalKeyText]
  split <;> infer_instance

instance : Disciplined looks grammar.namePattern := by
  rw [namePattern]
  infer_instance

instance : Disciplined looks grammar.declaredName? :=
  .any (by rw [declaredName?]; infer_instance)

instance : Disciplined looks grammar.declaredName := by
  apply Disciplined.any
  rw [declaredName]
  refine .bindLooking inferInstance fun token =>
    .bind inferInstance fun name => ?_
  cases name with
  | none => infer_instance
  | some name => infer_instance

instance : Disciplined looks grammar.identifier := by
  rw [identifier]
  infer_instance

instance (word : Keyword) (name what : String) (shape : Shape Node) :
    Disciplined looks (metaProperty word name what shape) := by
  rw [metaProperty]
  infer_instance

instance : Disciplined looks importMeta := by
  rw [importMeta]
  infer_instance

instance : Disciplined looks newTarget := by
  rw [newTarget]
  infer_instance

instance (word : Keyword) (shape : Shape Node) :
    Disciplined looks (wordExpression word shape) := by
  rw [wordExpression]
  infer_instance

instance (object : Node) (optional : Bool) :
    Disciplined false (memberOf object optional) := by
  rw [memberOf]
  infer_instance

instance : Disciplined false forKindBehindStart := by
  rw [forKindBehindStart]
  apply Disciplined.bind inferInstance
  intro kind
  split <;> infer_instance

instance : Disciplined looks grammar.importItem := by
  rw [importItem]
  refine .node (.bindLooking inferInstance fun token =>
    .bind inferInstance fun imported => .bind inferInstance fun asName => ?_)
  cases asName with
  | none => infer_instance
  | some asName => infer_instance

instance : Disciplined false grammar.importNames := by
  rw [importNames]
  apply Disciplined.bind inferInstance
  intro token
  split <;> infer_instance

instance : Disciplined false grammar.importClause := by
  rw [importClause]
  infer_instance

instance : Disciplined looks grammar.importStatement := by
  rw [importStatement]
  infer_instance

instance : Disciplined false grammar.nextFunctionIsNamed := by
  rw [nextFunctionIsNamed]
  infer_instance

instance {value : Parser Node} [Disciplined false value] :
    Disciplined false (exportDefaultOf value) := by
  rw [exportDefaultOf]
  infer_instance

instance : Disciplined false grammar.jumpLabel := by
  rw [jumpLabel]
  infer_instance

instance : Disciplined looks grammar.breakStatement := by
  rw [breakStatement]
  infer_instance

instance : Disciplined looks grammar.continueStatement := by
  rw [continueStatement]
  infer_instance

instance : Disciplined looks debuggerStatement := by
  rw [debuggerStatement]
  infer_instance

instance : Disciplined looks emptyStatement := by
  rw [emptyStatement]
  infer_instance

end WithoutParts

variable (grammar : Grammar) [hgrammar : grammar.IsDisciplined] {looks : Bool}

instance (least : Nat) (ends : List TokenKind) (lineEnds : Bool) :
    Disciplined looks (grammar.expressionFrom least ends lineEnds) :=
  (hgrammar.expressionFrom least ends lineEnds).any

instance : Disciplined looks grammar.pattern := hgrammar.pattern.any

instance : Disciplined looks grammar.statement := hgrammar.statement.any

instance (ends : List TokenKind) :
    Disciplined looks (grammar.expression ends) := by
  rw [expression]
  infer_instance

instance (mark : Punctuator) :
    Disciplined looks (grammar.expressionUntil mark) := by
  rw [expressionUntil]
  infer_instance

instance (mark : Punctuator) :
    Disciplined looks (grammar.expressionInList mark) := by
  rw [expressionInList]
  infer_instance

instance (ends : List TokenKind) :
    Disciplined looks (grammar.expressionOrLine ends) := by
  rw [expressionOrLine]
  infer_instance

instance : Disciplined looks grammar.bracedStatements :=
  .any (by rw [bracedStatements]; infer_instance)

/-! ### Literals with parts -/

instance (isTagged : Bool) :
    Disciplined false (grammar.templateRest isTagged) := by
  rw [templateRest]
  refine .bind (.iterate fun found => .bind inferInstance fun value =>
    .bind inferInstance fun close => .bind inferInstance fun token => ?_)
    fun rest => inferInstance
  split <;> infer_instance

instance (isTagged : Bool) :
    Disciplined looks (grammar.templateParts isTagged) := by
  apply Disciplined.any
  rw [templateParts]
  apply Disciplined.bindLooking inferInstance
  intro token
  split <;> infer_instance

instance : Disciplined looks grammar.templateLiteral := by
  rw [templateLiteral]
  infer_instance

instance : Disciplined looks grammar.arrayLiteral := by
  rw [arrayLiteral]
  refine .node (.bindLooking inferInstance fun start =>
    .bind (.iterate fun found => ?_) fun elements => inferInstance)
  infer_instance

/-! ### Keys and patterns -/

instance : Disciplined looks grammar.propertyKey :=
  .any (by rw [propertyKey]; infer_instance)

instance (key : PropertyKey Node) :
    Disciplined false (grammar.propertyTarget key) := by
  unfold propertyTarget
  apply Disciplined.bind inferInstance
  intro isNamed
  repeat' split
  all_goals infer_instance

instance : Disciplined looks grammar.patternProperty := by
  rw [patternProperty]
  infer_instance

instance : Disciplined looks grammar.objectPattern := by
  rw [objectPattern]
  refine .node (.bindLooking inferInstance fun start =>
    .bind (.iterate fun found => ?_) fun properties => inferInstance)
  infer_instance

instance : Disciplined looks grammar.arrayPattern := by
  rw [arrayPattern]
  refine .node (.bindLooking inferInstance fun start =>
    .bind (.iterate fun found => .bind inferInstance fun kind => ?_)
      fun elements => inferInstance)
  infer_instance

theorem disciplined_patternRule : Disciplined true grammar.patternRule := by
  rw [patternRule]
  apply Disciplined.bindLooking inferInstance
  intro token
  repeat' split
  all_goals infer_instance

/-! ### Functions, classes and members -/

instance : Disciplined looks grammar.parameter := by
  rw [parameter]
  infer_instance

instance : Disciplined looks grammar.parameters :=
  .any (by rw [parameters]; infer_instance)

instance (isAsync isGenerator : Bool) :
    Disciplined looks (grammar.functionTail isAsync isGenerator) := by
  rw [functionTail]
  infer_instance

instance (kind : MemberKind) (isAsync isGenerator : Bool) :
    Disciplined false (grammar.methodMember kind isAsync isGenerator) := by
  rw [methodMember]
  infer_instance

instance (valueMark endMark : Punctuator) (lineEnds : Bool) :
    Disciplined false (grammar.keyedMember valueMark endMark lineEnds) := by
  rw [keyedMember]
  infer_instance

instance (valueMark endMark : Punctuator) (lineEnds : Bool) :
    Disciplined looks (grammar.member valueMark endMark lineEnds) := by
  apply Disciplined.any
  rw [member]
  refine .bindLooking inferInstance fun (first, second) => ?_
  dsimp only
  split <;> infer_instance

instance : Disciplined looks grammar.classMember := by
  rw [classMember]
  infer_instance

instance : Disciplined looks grammar.classBody :=
  .any (by rw [classBody]; infer_instance)

instance : Disciplined looks grammar.heritage? := by
  rw [heritage?]
  infer_instance

instance (span : Span) (text : String) (kind : TokenKind) (key : Node) :
    Disciplined false (grammar.shorthandMember span text kind key) := by
  rw [shorthandMember]
  split
  · infer_instance
  · apply Disciplined.bind inferInstance
    intro initial
    cases initial with
    | none => infer_instance
    | some initial => infer_instance

instance : Disciplined looks grammar.objectMember := by
  rw [objectMember]
  apply Disciplined.node
  apply Disciplined.bindLooking inferInstance
  intro isSpread
  split
  · infer_instance
  · apply Disciplined.bind inferInstance
    intro found
    repeat' split
    all_goals infer_instance

instance : Disciplined looks grammar.objectLiteral := by
  rw [objectLiteral]
  infer_instance

/-! ### Operands -/

instance : Disciplined looks grammar.arrowHead :=
  .any (by rw [arrowHead]; infer_instance)

instance (ends : List TokenKind) :
    Disciplined false (grammar.arrowBody ends) := by
  rw [arrowBody]
  infer_instance

instance (ends : List TokenKind) :
    Disciplined looks (grammar.arrowFunction ends) := by
  apply Disciplined.any
  rw [arrowFunction]
  refine .bindLooking (.node ?_) fun func => inferInstance
  infer_instance

omit hgrammar in
theorem arrowFunctionOr_eq (ends : List TokenKind) (other : Parser Node) :
    grammar.arrowFunctionOr ends other =
      rewinding (attempt (grammar.arrowFunction ends))
        (fun
          | .ok _ => false
          | .error error => error.fault ≠ .lineBreakBeforeArrow)
        (fun
          | .ok arrow => pure arrow
          | .error error =>
              if error.fault = .lineBreakBeforeArrow then fail error
              else other) := by
  rw [arrowFunctionOr, rewinding]
  congr
  funext start
  congr
  funext outcome
  cases outcome with
  | ok arrow => rfl
  | error error =>
      by_cases hfault : error.fault = .lineBreakBeforeArrow
      · simp [hfault]
      · simp [hfault]

instance (ends : List TokenKind) {other : Parser Node}
    [Disciplined false other] :
    Disciplined false (grammar.arrowFunctionOr ends other) := by
  rw [arrowFunctionOr_eq]
  apply Disciplined.rewinding _ inferInstance
  intro outcome
  cases outcome with
  | ok arrow => infer_instance
  | error error => infer_instance

instance (lineEnds : Bool) :
    Disciplined false (grammar.grouping lineEnds) := by
  rw [grouping]
  infer_instance

instance : Disciplined looks grammar.functionExpression := by
  rw [functionExpression]
  infer_instance

instance : Disciplined looks grammar.classExpression := by
  rw [classExpression]
  infer_instance

instance : Disciplined looks grammar.importCall := by
  rw [importCall]
  infer_instance

/-- The operand that is not there stands where the operator ends. -/
instance (operator : Operator) : Disciplined false
    (get >>= fun stream => pure (.unary operator
      (.mk (.point stream.lastEnd) (.ident "undefined"))) :
      Parser (Shape Node)) :=
  .position
    (f := fun stop _ => pure (Shape.unary operator
      (Node.mk (.point stop) (.ident "undefined"))))
    fun _ _ => inferInstance

instance (ends : List TokenKind) (lineEnds : Bool) :
    Disciplined looks (grammar.unaryExpression ends lineEnds) := by
  rw [unaryExpression]
  apply Disciplined.node
  apply Disciplined.bindLooking inferInstance
  intro token
  split
  · infer_instance
  · dsimp only
    infer_instance

instance (ends : List TokenKind) (second third : Token) :
    Disciplined false (grammar.asyncOperand ends second third) := by
  rw [asyncOperand]
  infer_instance

instance (first second : Token) (word : Keyword) :
    Disciplined false (grammar.wordOperand first second word) := by
  unfold wordOperand
  split <;> infer_instance

instance (ends : List TokenKind) (lineEnds : Bool) (first second : Token) :
    Disciplined false
      (grammar.otherOperand ends lineEnds first second) := by
  rw [otherOperand]
  split <;> infer_instance

omit hgrammar in
theorem operand_eq (ends : List TokenKind) (lineEnds : Bool) :
    grammar.operand ends lineEnds =
      rewinding
        (do return (← consumeIn .slashIsRegex, ← consume, ← consume))
        (fun _ => true)
        (fun (first, second, third) =>
          if grammar.startsUnary first second then
            grammar.unaryExpression ends lineEnds
          else if first.kind = .keyword .asyncWord &&
              second.kind ≠ .punctuator .equalsChevronRight then
            grammar.asyncOperand ends second third
          else if grammar.rules.allows first.kind then
            if second.kind = .punctuator .equalsChevronRight then
              grammar.arrowFunction ends
            else grammar.identifier
          else grammar.otherOperand ends lineEnds first second) := by
  simp [operand, rewinding]

instance (ends : List TokenKind) (lineEnds : Bool) :
    Disciplined looks (grammar.operand ends lineEnds) := by
  apply Disciplined.any
  rw [operand_eq]
  exact .rewinding _ inferInstance fun (first, second, third) =>
    inferInstance

/-! ### Operator expressions -/

instance : Disciplined looks grammar.argument := by
  rw [argument]
  infer_instance

instance : Disciplined false grammar.arguments := by
  rw [arguments]
  infer_instance

instance (callee : Node) (optional : Bool) :
    Disciplined false (grammar.callOn callee optional) := by
  rw [callOn]
  infer_instance

instance (object : Node) (optional : Bool) :
    Disciplined false (grammar.computedMemberOf object optional) := by
  rw [computedMemberOf]
  infer_instance

instance (test : Node) (ends : List TokenKind) (lineEnds : Bool) :
    Disciplined false (grammar.conditionalOn test ends lineEnds) := by
  rw [conditionalOn]
  infer_instance

instance (left : Node) (operator : Operator) (ends : List TokenKind)
    (lineEnds : Bool) :
    Disciplined false (grammar.binaryOn left operator ends lineEnds) := by
  rw [binaryOn]
  dsimp only
  repeat' split
  all_goals infer_instance

instance (left : Node) (operator : Operator) (ends : List TokenKind)
    (lineEnds : Bool) :
    Disciplined false (grammar.operationOn left operator ends lineEnds) := by
  unfold operationOn
  split <;> infer_instance

instance (tag : Node) : Disciplined false (grammar.taggedTemplate tag) := by
  rw [taggedTemplate]
  infer_instance

/-- Whether an expression ends in front of a token, which is then given back,
or the token starts a template, which is read from its start. -/
def givesBack (least : Nat) (ends : List TokenKind) (lineEnds : Bool)
    (token : Token) : Bool :=
  ends.contains token.kind ||
    match postfixOperator? token with
    | some operator => operator.precedence < least
    | none =>
        startsTemplate token ||
          match token.kind.infixOperator? with
          | none => lineEnds && endsWithoutSemicolon token
          | some operator => operator.precedence < least

/-- How an expression goes on at a token. -/
def extendAt (least : Nat) (ends : List TokenKind) (lineEnds : Bool)
    (left : Node) (token : Token) : Parser (Node ⊕ Node) :=
  if ends.contains token.kind then return .inr left
  else
    match postfixOperator? token with
    | some operator =>
        if operator.precedence < least then return .inr left
        else return .inl (spanning left.span token.span (.update operator left))
    | none =>
        if startsTemplate token then
          return .inl (← grammar.taggedTemplate left)
        else
          match token.kind.infixOperator? with
          | none =>
              if lineEnds && endsWithoutSemicolon token then
                return .inr left
              else fail (token.error (.expected "expression operator"))
          | some operator =>
              if operator.precedence < least then return .inr left
              else
                return .inl
                  (← grammar.operationOn left operator ends lineEnds)

omit hgrammar in
theorem extendExpression_eq (least : Nat) (ends : List TokenKind)
    (lineEnds : Bool) (left : Node) :
    grammar.extendExpression least ends lineEnds left =
      rewinding consume (givesBack least ends lineEnds)
        (grammar.extendAt least ends lineEnds left) := by
  rw [extendExpression, rewinding]
  congr
  funext start
  congr
  funext token
  rw [givesBack, extendAt]
  by_cases hends : ends.contains token.kind = true
  · simp only [hends, if_true, Bool.true_or]
  · simp only [hends]
    cases hpostfix : postfixOperator? token with
    | some operator =>
        by_cases hleast : operator.precedence < least <;> simp [hleast]
    | none =>
        by_cases htemplate : startsTemplate token
        · simp [htemplate]
        · cases hinfix : token.kind.infixOperator? with
          | none =>
              by_cases hline : (lineEnds && endsWithoutSemicolon token) = true
              · simp [htemplate, hline]
              · simp [htemplate, hline]
          | some operator =>
              by_cases hleast : operator.precedence < least
              · simp [htemplate, hleast]
              · simp [htemplate, hleast]

instance (least : Nat) (ends : List TokenKind) (lineEnds : Bool)
    (left : Node) (token : Token) :
    Disciplined false (grammar.extendAt least ends lineEnds left token) := by
  rw [extendAt]
  repeat' split
  all_goals infer_instance

instance (least : Nat) (ends : List TokenKind) (lineEnds : Bool)
    (left : Node) :
    Disciplined false
      (grammar.extendExpression least ends lineEnds left) := by
  rw [extendExpression_eq]
  exact .rewinding _ inferInstance fun token => inferInstance

theorem disciplined_expressionRule (least : Nat) (ends : List TokenKind)
    (lineEnds : Bool) :
    Disciplined true (grammar.expressionRule least ends lineEnds) := by
  rw [expressionRule]
  infer_instance

/-! ### Declarations -/

instance (ends : List TokenKind) (lineEnds : Bool) :
    Disciplined false (grammar.declarator ends lineEnds) := by
  rw [declarator]
  infer_instance

instance : Disciplined looks grammar.variableDeclaration := by
  rw [variableDeclaration]
  infer_instance

instance : Disciplined looks grammar.headerVariables := by
  rw [headerVariables]
  infer_instance

instance : Disciplined looks grammar.functionDeclaration := by
  rw [functionDeclaration]
  infer_instance

instance : Disciplined looks grammar.classDeclaration := by
  rw [classDeclaration]
  infer_instance

/-! ### Loops -/

instance : Disciplined looks grammar.forKind := by
  apply Disciplined.any
  rw [forKind]
  refine .bindLooking inferInstance fun word =>
    .bind inferInstance fun isAwait => ?_
  split
  · infer_instance
  · refine .bind inferInstance fun start =>
      .bind inferInstance fun (first, second) => ?_
    dsimp only
    split
    · infer_instance
    · split
      · infer_instance
      · apply Disciplined.bind inferInstance
        intro outcome
        cases outcome with
        | ok start => infer_instance
        | error error => infer_instance

instance : Disciplined looks grammar.forBody := by
  rw [forBody]
  infer_instance

instance : Disciplined false grammar.forTarget := by
  rw [forTarget]
  refine .bind inferInstance fun (first, second) => ?_
  dsimp only
  split
  · infer_instance
  · apply Disciplined.bind inferInstance
    intro target
    split <;> infer_instance

instance : Disciplined false grammar.forRest := by
  rw [forRest]
  infer_instance

instance : Disciplined looks grammar.keysLoop := by
  rw [keysLoop]
  infer_instance

instance : Disciplined looks grammar.valuesLoop := by
  rw [valuesLoop]
  infer_instance

instance : Disciplined false grammar.forStart := by
  rw [forStart]
  infer_instance

instance (close : Punctuator) :
    Disciplined false (grammar.forPart close) := by
  rw [forPart]
  infer_instance

instance : Disciplined looks grammar.countingLoop := by
  rw [countingLoop]
  apply Disciplined.node
  apply Disciplined.bindLooking inferInstance
  intro word
  infer_instance

/-- The loop of a kind. -/
def loopOf : ForKind → Parser Node
  | .counting => grammar.countingLoop
  | .keys => grammar.keysLoop
  | .values => grammar.valuesLoop

omit hgrammar in
theorem forStatement_eq :
    grammar.forStatement =
      rewinding grammar.forKind (fun _ => true) grammar.loopOf := rfl

instance (kind : ForKind) : Disciplined false (grammar.loopOf kind) := by
  cases kind with
  | counting => exact inferInstanceAs (Disciplined false grammar.countingLoop)
  | keys => exact inferInstanceAs (Disciplined false grammar.keysLoop)
  | values => exact inferInstanceAs (Disciplined false grammar.valuesLoop)

instance : Disciplined looks grammar.forStatement := by
  apply Disciplined.any
  rw [forStatement_eq]
  exact .rewinding _ inferInstance fun kind => inferInstance

/-! ### Exports -/

instance : Disciplined false grammar.defaultExport := by
  rw [defaultExport]
  infer_instance

instance : Disciplined looks grammar.exportStatement := by
  rw [exportStatement]
  refine .node (.bindLooking inferInstance fun word =>
    .bind inferInstance fun (first, second) => ?_)
  dsimp only
  split <;> infer_instance

/-! ### Statements -/

instance : Disciplined looks grammar.blockStatement := by
  rw [blockStatement]
  infer_instance

instance : Disciplined looks grammar.lastExpression :=
  .any (by rw [lastExpression]; infer_instance)

instance : Disciplined looks grammar.expressionStatement := by
  rw [expressionStatement]
  infer_instance

instance : Disciplined looks grammar.labelledStatement := by
  rw [labelledStatement]
  infer_instance

instance : Disciplined false grammar.parenthesized := by
  rw [parenthesized]
  infer_instance

instance : Disciplined looks grammar.ifStatement := by
  rw [ifStatement]
  infer_instance

instance : Disciplined looks grammar.returnStatement := by
  rw [returnStatement]
  infer_instance

instance : Disciplined looks grammar.throwStatement := by
  rw [throwStatement]
  infer_instance

instance : Disciplined looks grammar.catchClause := by
  rw [catchClause]
  infer_instance

instance : Disciplined looks grammar.tryStatement := by
  rw [tryStatement]
  infer_instance

instance : Disciplined looks grammar.whileStatement := by
  rw [whileStatement]
  infer_instance

instance : Disciplined looks grammar.withStatement := by
  rw [withStatement]
  infer_instance

instance : Disciplined looks grammar.doWhileStatement := by
  rw [doWhileStatement]
  infer_instance

instance : Disciplined looks grammar.switchCase := by
  rw [switchCase]
  infer_instance

instance : Disciplined looks grammar.switchStatement := by
  rw [switchStatement]
  apply Disciplined.node
  apply Disciplined.bindLooking inferInstance
  intro word
  infer_instance

instance (first second : Token) :
    Disciplined false (grammar.otherStatement first second) := by
  rw [otherStatement]
  infer_instance

instance (first second : Token) (word : Keyword) :
    Disciplined false (grammar.wordStatement first second word) := by
  unfold wordStatement
  split <;> infer_instance

theorem disciplined_statementRule :
    Disciplined true grammar.statementRule := by
  rw [statementRule]
  refine .bindLooking inferInstance fun (first, second) => ?_
  dsimp only
  split <;> infer_instance

/-! ### The whole grammar -/

instance : grammar.deepen.IsDisciplined where
  expressionFrom := grammar.disciplined_expressionRule
  pattern := grammar.disciplined_patternRule
  statement := grammar.disciplined_statementRule

omit hgrammar in
instance (rules : NameRules) (depth : Nat) :
    (ofDepth rules depth).IsDisciplined := by
  induction depth with
  | zero => exact ⟨fun _ _ _ => .exhausted, .exhausted, .exhausted⟩
  | succ depth ih => exact inferInstanceAs (deepen _).IsDisciplined

omit hgrammar in
instance (rules : NameRules) (source : String) :
    (forSource rules source).IsDisciplined :=
  inferInstanceAs (ofDepth rules _).IsDisciplined

end Grammar

end Bundler
