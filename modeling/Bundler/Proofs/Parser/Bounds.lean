import Bundler.Parser.Program
import Bundler.Proofs.Parser.Settling

/-!
# The rules of the grammar settle

Rule by rule, in the order of the grammar, for two grammars whose parsers for
expressions, patterns and statements settle.  An operand, a pattern or a
statement takes up text before it comes to one of these, so it settles within
room for one byte more.  Only a statement may start with an expression right
away; its grammar has to be deeper by a level for the same room.
-/

set_option synthInstance.maxSize 4000

namespace Bundler

/-! ### Refused targets -/

/-- What is refused is no target. -/
def RefusesTargets {α : Type} (outcome : Except SyntaxError α) : Prop :=
  ∀ error, outcome = .error error → error.fault = .invalidAssignmentTarget

namespace RefusesTargets

variable {α β : Type}

theorem ok {value : α} : RefusesTargets (.ok value) :=
  fun _ herror => by cases herror

theorem refuse {span : Span} :
    RefusesTargets (Node.refuse span : Except SyntaxError α) := by
  intro error herror
  cases herror
  rfl

theorem bind {outcome : Except SyntaxError α}
    {next : α → Except SyntaxError β} (h : RefusesTargets outcome)
    (hnext : ∀ value, RefusesTargets (next value)) :
    RefusesTargets (outcome >>= next) := by
  cases outcome with
  | error error =>
      intro found hfound
      cases hfound
      exact h error rfl
  | ok value => exact hnext value

end RefusesTargets

namespace Node

mutual

theorem refusesTargets_toPattern (node : Node) :
    RefusesTargets node.toPattern := by
  rw [Node.toPattern.eq_def]
  split
  · exact .bind (refusesTargets_elementsToPattern _ _) fun _ => .ok
  · exact .bind (refusesTargets_membersToPattern _) fun _ => .ok
  · exact .ok
  · exact .ok
  · exact .ok
  · exact .ok
  · exact .refuse
termination_by 2 * sizeOf node

theorem refusesTargets_toDefaultedPattern (node : Node) :
    RefusesTargets node.toDefaultedPattern := by
  rw [Node.toDefaultedPattern.eq_def]
  split
  · split
    · exact .bind (refusesTargets_toPattern _) fun _ => .ok
    · exact .refuse
  · exact .bind (refusesTargets_toPattern _) fun _ => .ok
termination_by 2 * sizeOf node + 1

theorem refusesTargets_elementsToPattern (span : Span)
    (elements : List (ArrayElement Node)) :
    RefusesTargets (elementsToPattern span elements) := by
  rw [Node.elementsToPattern.eq_def]
  split
  · exact .ok
  · exact .bind (refusesTargets_elementsToPattern _ _) fun _ => .ok
  · exact .bind (refusesTargets_toDefaultedPattern _) fun _ =>
      .bind (refusesTargets_elementsToPattern _ _) fun _ => .ok
  · refine .bind (refusesTargets_toPattern _) fun _ => ?_
    split
    · exact .ok
    · exact .refuse
termination_by 2 * sizeOf elements

theorem refusesTargets_membersToPattern (members : List Node) :
    RefusesTargets (membersToPattern members) := by
  rw [Node.membersToPattern.eq_def]
  split
  · exact .ok
  · exact .bind (refusesTargets_toDefaultedPattern _) fun _ =>
      .bind (refusesTargets_membersToPattern _) fun _ => .ok
  · exact .bind (refusesTargets_membersToPattern _) fun _ => .ok
  · refine .bind (refusesTargets_toPattern _) fun target => ?_
    split
    · split
      · exact .ok
      · exact .refuse
    · exact .refuse
  · exact .refuse
termination_by 2 * sizeOf members

end

theorem refusesTargets_toAssignmentTarget (operator : Operator) (node : Node) :
    RefusesTargets (node.toAssignmentTarget operator) := by
  rw [Node.toAssignmentTarget]
  split
  · exact node.refusesTargets_toPattern
  · split
    · exact node.refusesTargets_toPattern
    · exact .refuse
  · split
    · exact node.refusesTargets_toPattern
    · exact .refuse
  · exact .ok
  · exact .ok
  · exact .refuse

end Node

namespace Parser

variable {α : Type} {text : List Char} {room : Nat}

theorem settles_fail_of_refusesTargets {β : Type}
    {outcome : Except SyntaxError β} (h : RefusesTargets outcome)
    {error : SyntaxError} (herror : outcome = .error error) :
    Settles text room (fail error) (fail error : Parser α) :=
  settles_fail fun hfault => by
    rw [h error herror] at hfault
    cases hfault

theorem eq_error_of_attempt {parser : Parser α} {stream after : TokenStream}
    {error : SyntaxError}
    (hrun : attempt parser stream = .ok (.error error) after) :
    parser stream = .error (.refused error) after := by
  rw [attempt] at hrun
  cases hparser : parser stream with
  | ok found between =>
      rw [hparser] at hrun
      cases hrun
  | error failure between =>
      rw [hparser] at hrun
      cases failure with
      | refused found =>
          cases hrun
          rfl
      | exhausted => cases hrun

/-- An arrow that is consumed is in the text. -/
theorem hasArrow_of_requireMark {stream after : TokenStream} {token : Token}
    (hstream : stream.Reads text)
    (hrun : requireMark .equalsChevronRight stream = .ok token after) :
    HasArrow text := by
  rw [requireMark, require, requireIn] at hrun
  obtain ⟨found, between, hconsume, hrun⟩ := Outcome.bind_eq_ok_iff.mp hrun
  rw [consumeIn, forward_eq] at hconsume
  cases hconsume
  split at hrun
  · rename_i hkind
    refine ⟨.standard, stream.cursorAt stream.consumed,
      (hstream.cursorAt_isIn hstream.lexes.consumed_le).1, ?_⟩
    rw [TokenStream.forward] at hkind
    dsimp only at hkind
    rwa [hstream.lexes.upcoming_prepare] at hkind
  · cases hrun

/-! ### Literals -/

instance : Settles text room stringValue stringValue := by
  rw [stringValue]
  refine .bind inferInstance inferInstance fun token => ?_
  dsimp only
  repeat' split
  all_goals infer_instance

instance : Settles text room numberValue numberValue := by
  rw [numberValue]
  refine .bind inferInstance inferInstance fun token => ?_
  split <;> infer_instance

instance : Settles text room bigintDigits bigintDigits := by
  rw [bigintDigits]
  infer_instance

instance : Settles text room stringLiteral stringLiteral := by
  rw [stringLiteral]
  infer_instance

instance : Settles text room numberLiteral numberLiteral := by
  rw [numberLiteral]
  infer_instance

instance : Settles text room bigintLiteral bigintLiteral := by
  rw [bigintLiteral]
  infer_instance

instance : Settles text room booleanLiteral booleanLiteral := by
  rw [booleanLiteral]
  refine .node (.bind inferInstance inferInstance fun token => ?_)
  split <;> infer_instance

instance : Settles text room nullLiteral nullLiteral := by
  rw [nullLiteral]
  infer_instance

instance : Settles text room regexLiteral regexLiteral := by
  rw [regexLiteral]
  infer_instance

instance {isTagged isTail : Bool} {token : Token} :
    Settles text room (templateText isTagged isTail token)
      (templateText isTagged isTail token) := by
  rw [templateText]
  dsimp only
  repeat' split
  all_goals infer_instance

end Parser

namespace Grammar

open Bundler.Parser

/-- Two grammars take the same words for names. -/
class SameRules (grammar grammar' : Grammar) : Prop where
  rules_eq : grammar.rules = grammar'.rules

/-- The three mutually recursive parsers of two grammars, one of which may be
deeper than the other, settle. -/
class Settling (text : List Char) (room : Nat)
    (grammar grammar' : Grammar) : Prop where
  expressionFrom : ∀ least ends lineEnds,
    Settles text room (grammar.expressionFrom least ends lineEnds)
      (grammar'.expressionFrom least ends lineEnds)
  pattern : Settles text room grammar.pattern grammar'.pattern
  statement : Settles text room grammar.statement grammar'.statement

variable {text : List Char} {room : Nat} {grammar grammar' : Grammar}

theorem Settling.mono {less : Nat} (h : Settling text room grammar grammar')
    (hle : less ≤ room) : Settling text less grammar grammar' where
  expressionFrom least ends lineEnds :=
    (h.expressionFrom least ends lineEnds).mono hle
  pattern := h.pattern.mono hle
  statement := h.statement.mono hle

variable [grammar.IsDisciplined] [grammar.IsAdvancing]
  [hrules : SameRules grammar grammar']
  [hgrammar : Settling text room grammar grammar']

instance {least : Nat} {ends : List TokenKind} {lineEnds : Bool} :
    Settles text room (grammar.expressionFrom least ends lineEnds)
      (grammar'.expressionFrom least ends lineEnds) :=
  hgrammar.expressionFrom least ends lineEnds

instance : Settles text room grammar.pattern grammar'.pattern := hgrammar.pattern

instance : Settles text room grammar.statement grammar'.statement :=
  hgrammar.statement

instance {ends : List TokenKind} :
    Settles text room (grammar.expression ends) (grammar'.expression ends) := by
  rw [expression, expression]
  infer_instance

instance {mark : Punctuator} :
    Settles text room (grammar.expressionUntil mark)
      (grammar'.expressionUntil mark) := by
  rw [expressionUntil, expressionUntil]
  infer_instance

instance {mark : Punctuator} :
    Settles text room (grammar.expressionInList mark)
      (grammar'.expressionInList mark) := by
  rw [expressionInList, expressionInList]
  infer_instance

instance {ends : List TokenKind} :
    Settles text room (grammar.expressionOrLine ends)
      (grammar'.expressionOrLine ends) := by
  rw [expressionOrLine, expressionOrLine]
  infer_instance

instance : Settles text room grammar.bindingWord grammar'.bindingWord := by
  rw [bindingWord, bindingWord, ← hrules.rules_eq]
  infer_instance

instance : Settles text (room + 1) grammar.bracedStatements
    grammar'.bracedStatements := by
  rw [bracedStatements, bracedStatements]
  infer_instance

instance : Settles text room grammar.bracedStatements grammar'.bracedStatements :=
  .mono inferInstance (Nat.le_succ room)

/-! ### Templates, patterns and members -/

instance {isTagged : Bool} :
    Settles text room (grammar.templateRest isTagged)
      (grammar'.templateRest isTagged) := by
  have hmatch : ∀ (found : List (Node × String)) (value : Node)
      (token : Token), Disciplined false (match token.kind with
        | .templatePart => do
            let text ← templateText isTagged false token
            return .inl ((value, text) :: found)
        | .templateTail => do
            let text ← templateText isTagged true token
            return .inr ((value, text) :: found)
        | _ => fail (token.error .unexpectedEnd) :
          Parser (List (Node × String) ⊕ List (Node × String))) := by
    intro found value token
    split <;> infer_instance
  rw [templateRest, templateRest]
  refine .bind (.iterate fun found => ?_) (.iterate (fun found => ?_)
    (fun found => ?_) fun found => ?_) inferInstance
  · infer_instance
  · infer_instance
  · infer_instance
  · refine .bind inferInstance inferInstance fun value =>
      .bind inferInstance inferInstance fun close =>
      .bind inferInstance inferInstance fun token => ?_
    split <;> infer_instance

instance {isTagged : Bool} :
    Settles text (room + 1) (grammar.templateParts isTagged)
      (grammar'.templateParts isTagged) := by
  rw [templateParts, templateParts]
  refine .consumeIn (fun token _ => ?_) fun token htoken => ?_
  · split <;> infer_instance
  · split
    · rename_i hkind
      exact absurd ⟨by simp [hkind], by simp [hkind]⟩ htoken
    all_goals infer_instance

instance {isTagged : Bool} :
    Settles text room (grammar.templateParts isTagged)
      (grammar'.templateParts isTagged) :=
  .mono inferInstance (Nat.le_succ room)

instance : Settles text (room + 1) grammar.templateLiteral
    grammar'.templateLiteral := by
  rw [templateLiteral, templateLiteral]
  infer_instance

instance : Settles text (room + 1) grammar.arrayLiteral
    grammar'.arrayLiteral := by
  rw [arrayLiteral, arrayLiteral]
  infer_instance

instance {token : Token} :
    Settles text room (literalKeyText token) (literalKeyText token) := by
  rw [literalKeyText]
  split <;> infer_instance

instance : Settles text room grammar.propertyKey grammar'.propertyKey := by
  rw [propertyKey, propertyKey]
  infer_instance

instance : Settles text room grammar.namePattern grammar'.namePattern := by
  rw [namePattern, namePattern]
  infer_instance

instance {key : PropertyKey Node} :
    Settles text room (grammar.propertyTarget key)
      (grammar'.propertyTarget key) := by
  unfold propertyTarget
  refine .bind inferInstance inferInstance fun accepted => ?_
  rw [← hrules.rules_eq]
  split
  · infer_instance
  · split <;> infer_instance

instance : Settles text room grammar.patternProperty
    grammar'.patternProperty := by
  rw [patternProperty, patternProperty]
  infer_instance

instance : Settles text (room + 1) grammar.objectPattern
    grammar'.objectPattern := by
  rw [objectPattern, objectPattern]
  infer_instance

instance : Settles text (room + 1) grammar.arrayPattern
    grammar'.arrayPattern := by
  rw [arrayPattern, arrayPattern]
  infer_instance

omit [grammar.IsAdvancing] in
theorem settles_patternRule :
    Settles text (room + 1) grammar.patternRule grammar'.patternRule := by
  unfold patternRule
  rw [← hrules.rules_eq]
  refine .bind inferInstance inferInstance fun token => ?_
  split <;> infer_instance

instance : Settles text room grammar.parameter grammar'.parameter := by
  rw [parameter, parameter]
  infer_instance

instance : Settles text (room + 1) grammar.parameters grammar'.parameters := by
  rw [parameters, parameters]
  infer_instance

instance : Settles text room grammar.parameters grammar'.parameters :=
  .mono inferInstance (Nat.le_succ room)

instance {isAsync isGenerator : Bool} :
    Settles text room (grammar.functionTail isAsync isGenerator)
      (grammar'.functionTail isAsync isGenerator) := by
  rw [functionTail, functionTail]
  infer_instance

instance : Settles text room grammar.declaredName? grammar'.declaredName? := by
  rw [declaredName?, declaredName?, ← hrules.rules_eq]
  infer_instance

instance : Settles text room grammar.declaredName grammar'.declaredName := by
  rw [declaredName, declaredName]
  refine .bind inferInstance inferInstance fun token =>
    .bind inferInstance inferInstance fun name => ?_
  cases name <;> infer_instance

instance {kind : MemberKind} {isAsync isGenerator : Bool} :
    Settles text room (grammar.methodMember kind isAsync isGenerator)
      (grammar'.methodMember kind isAsync isGenerator) := by
  rw [methodMember, methodMember]
  infer_instance

instance {valueMark endMark : Punctuator} {lineEnds : Bool} :
    Settles text room (grammar.keyedMember valueMark endMark lineEnds)
      (grammar'.keyedMember valueMark endMark lineEnds) := by
  rw [keyedMember, keyedMember]
  infer_instance

instance {valueMark endMark : Punctuator} {lineEnds : Bool} :
    Settles text room (grammar.member valueMark endMark lineEnds)
      (grammar'.member valueMark endMark lineEnds) := by
  rw [member, member]
  refine .bind inferInstance inferInstance fun (first, second) => ?_
  dsimp only
  split <;> infer_instance

instance : Settles text room grammar.classMember grammar'.classMember := by
  rw [classMember, classMember]
  infer_instance

instance : Settles text room grammar.classBody grammar'.classBody := by
  rw [classBody, classBody]
  infer_instance

instance : Settles text room grammar.heritage? grammar'.heritage? := by
  rw [heritage?, heritage?]
  infer_instance

instance {span : Span} {name : String} {kind : TokenKind} {key : Node} :
    Settles text room (grammar.shorthandMember span name kind key)
      (grammar'.shorthandMember span name kind key) := by
  rw [shorthandMember, shorthandMember, ← hrules.rules_eq]
  split
  · infer_instance
  · refine .bind inferInstance inferInstance fun initial => ?_
    cases initial <;> infer_instance

instance : Settles text room grammar.objectMember grammar'.objectMember := by
  rw [objectMember, objectMember]
  refine .node (.bind inferInstance inferInstance fun isSpread => ?_)
  split
  · infer_instance
  · refine .bind inferInstance inferInstance fun (key, kind, value) => ?_
    dsimp only
    repeat' split
    all_goals infer_instance

instance : Settles text (room + 1) grammar.objectLiteral
    grammar'.objectLiteral := by
  rw [objectLiteral, objectLiteral]
  infer_instance

/-! ### Operands -/

instance : Settles text room grammar.identifier grammar'.identifier := by
  rw [identifier, identifier]
  infer_instance

instance : Settles text (room + 1) grammar.arrowHead grammar'.arrowHead := by
  rw [arrowHead, arrowHead, ← hrules.rules_eq]
  infer_instance

instance {ends : List TokenKind} :
    Settles text room (grammar.arrowBody ends) (grammar'.arrowBody ends) := by
  rw [arrowBody, arrowBody]
  infer_instance

omit [grammar.IsAdvancing] in
/-- The arrow behind the parameters of an arrow function is in the text. -/
theorem hasArrow_of_arrowHead {stream after : TokenStream}
    {head : List Node × Token} (hstream : stream.Reads text)
    (hrun : grammar.arrowHead stream = .ok head after) : HasArrow text := by
  rw [arrowHead] at hrun
  obtain ⟨⟨first, second⟩, between, hpeek, hrun⟩ :=
    Outcome.bind_eq_ok_iff.mp hrun
  have hbetween := (inferInstance : Disciplined false peekTwo).reads hstream
    hpeek
  dsimp only at hrun
  split at hrun
  · obtain ⟨name, following, hname, hrun⟩ := Outcome.bind_eq_ok_iff.mp hrun
    obtain ⟨arrow, last, harrow, _⟩ := Outcome.bind_eq_ok_iff.mp hrun
    exact hasArrow_of_requireMark ((inferInstance : Disciplined false
      consume).reads hbetween hname) harrow
  · obtain ⟨name, following, hname, hrun⟩ := Outcome.bind_eq_ok_iff.mp hrun
    obtain ⟨arrow, last, harrow, _⟩ := Outcome.bind_eq_ok_iff.mp hrun
    exact hasArrow_of_requireMark ((inferInstance : Disciplined false
      grammar.parameters).reads hbetween hname) harrow

instance {ends : List TokenKind} :
    Settles text (room + 1) (grammar.arrowFunction ends)
      (grammar'.arrowFunction ends) := by
  rw [arrowFunction, arrowFunction]
  refine .bind inferInstance (.node (.bind inferInstance inferInstance
    fun (first, second) => ?_)) inferInstance
  dsimp only
  -- Only behind an arrow it is asked whether there is a line break before it.
  have hhead : ∀ isAsync : Bool, Settles text (room + 1) (do
      let (parameters, arrow) ← grammar.arrowHead
      if arrow.afterLineBreak then
        fail (arrow.error .lineBreakBeforeArrow)
      let body ← grammar.arrowBody ends
      return Shape.func true isAsync false parameters body) (do
      let (parameters, arrow) ← grammar'.arrowHead
      if arrow.afterLineBreak then
        fail (arrow.error .lineBreakBeforeArrow)
      let body ← grammar'.arrowBody ends
      return Shape.func true isAsync false parameters body) := by
    intro isAsync
    refine .bindAdvancing_of inferInstance inferInstance inferInstance
      fun {_ head _} hstream hrun => ?_
    have hfail : Settles text room
        (fail (head.2.error .lineBreakBeforeArrow))
        (fail (head.2.error .lineBreakBeforeArrow) : Parser Unit) :=
      settles_fail fun _ => hasArrow_of_arrowHead hstream hrun
    obtain ⟨parameters, arrow⟩ := head
    dsimp only at hfail ⊢
    infer_instance
  split
  · exact .bind inferInstance inferInstance hhead
  · exact .bind inferInstance inferInstance hhead

instance {ends : List TokenKind} {other other' : Parser Node}
    [h : Settles text (room + 1) other other'] :
    Settles text (room + 1) (grammar.arrowFunctionOr ends other)
      (grammar'.arrowFunctionOr ends other') := by
  rw [arrowFunctionOr_eq, arrowFunctionOr_eq]
  refine .rewinding inferInstance inferInstance
    fun {stream outcome after} hstream hroom hrun {between} hbetween hless => ?_
  cases outcome with
  | ok arrow => exact ⟨rfl, fun hfailure => by cases hfailure⟩
  | error error =>
      -- The error of the arrow function that is reported is its own.
      have hfounded : (ParseFailure.refused error).IsFounded text :=
        (inferInstance : Settles text (room + 1) (grammar.arrowFunction ends)
          (grammar'.arrowFunction ends)).founded hstream hroom
          (eq_error_of_attempt hrun)
      have hfail : Settles text (room + 1) (fail error)
          (fail error : Parser Node) := settles_fail hfounded
      have hnext : Settles text (room + 1)
          (if error.fault = .lineBreakBeforeArrow then fail error else other)
          (if error.fault = .lineBreakBeforeArrow then fail error
            else other') := inferInstance
      exact ⟨hnext.agrees hbetween hless, hnext.founded hbetween hless⟩

instance {lineEnds : Bool} :
    Settles text (room + 1) (grammar.grouping lineEnds)
      (grammar'.grouping lineEnds) := by
  rw [grouping, grouping]
  infer_instance

instance : Settles text (room + 1) grammar.functionExpression
    grammar'.functionExpression := by
  rw [functionExpression, functionExpression]
  infer_instance

instance : Settles text room grammar.functionExpression
    grammar'.functionExpression := .mono inferInstance (Nat.le_succ room)

instance : Settles text (room + 1) grammar.classExpression
    grammar'.classExpression := by
  rw [classExpression, classExpression]
  infer_instance

instance : Settles text room grammar.classExpression
    grammar'.classExpression := .mono inferInstance (Nat.le_succ room)

instance : Settles text (room + 1) grammar.importCall grammar'.importCall := by
  rw [importCall, importCall]
  infer_instance

instance {ends : List TokenKind} {lineEnds : Bool} :
    Settles text (room + 1) (grammar.unaryExpression ends lineEnds)
      (grammar'.unaryExpression ends lineEnds) := by
  rw [unaryExpression, unaryExpression]
  refine .node (.consumeIn (fun token _ => ?_) fun token htoken => ?_)
  · split
    · infer_instance
    · dsimp only
      infer_instance
  · split
    · infer_instance
    · rename_i hoperator
      exact absurd (TokenKind.isSolid_of_unaryOperator? hoperator) htoken

instance {word : Keyword} {name what : String} {shape : Shape Node} :
    Settles text room (metaProperty word name what shape)
      (metaProperty word name what shape) := by
  rw [metaProperty]
  infer_instance

instance : Settles text room importMeta importMeta := by
  rw [importMeta]
  infer_instance

instance : Settles text room newTarget newTarget := by
  rw [newTarget]
  infer_instance

instance {word : Keyword} {shape : Shape Node} :
    Settles text room (wordExpression word shape)
      (wordExpression word shape) := by
  rw [wordExpression]
  infer_instance

instance {ends : List TokenKind} {second third : Token} :
    Settles text (room + 1) (grammar.asyncOperand ends second third)
      (grammar'.asyncOperand ends second third) := by
  rw [asyncOperand, asyncOperand, ← hrules.rules_eq]
  infer_instance

instance {first second : Token} {word : Keyword} :
    Settles text (room + 1) (grammar.wordOperand first second word)
      (grammar'.wordOperand first second word) := by
  unfold wordOperand
  split <;> infer_instance

instance {ends : List TokenKind} {lineEnds : Bool} {first second : Token} :
    Settles text (room + 1) (grammar.otherOperand ends lineEnds first second)
      (grammar'.otherOperand ends lineEnds first second) := by
  unfold otherOperand
  split <;> infer_instance

instance {ends : List TokenKind} {lineEnds : Bool} :
    Settles text (room + 1) (grammar.operand ends lineEnds)
      (grammar'.operand ends lineEnds) := by
  have hunary : grammar'.startsUnary = grammar.startsUnary := by
    funext first second
    rw [startsUnary, startsUnary, hrules.rules_eq]
  rw [operand_eq, operand_eq, ← hrules.rules_eq, hunary]
  infer_instance

/-! ### Operator expressions -/

instance : Settles text room grammar.argument grammar'.argument := by
  rw [argument, argument]
  infer_instance

instance : Settles text room grammar.arguments grammar'.arguments := by
  rw [arguments, arguments]
  infer_instance

instance {callee : Node} {optional : Bool} :
    Settles text room (grammar.callOn callee optional)
      (grammar'.callOn callee optional) := by
  rw [callOn, callOn]
  infer_instance

instance {object : Node} {optional : Bool} :
    Settles text room (grammar.computedMemberOf object optional)
      (grammar'.computedMemberOf object optional) := by
  rw [computedMemberOf, computedMemberOf]
  infer_instance

instance {object : Node} {optional : Bool} :
    Settles text room (memberOf object optional) (memberOf object optional) := by
  rw [memberOf]
  infer_instance

instance {test : Node} {ends : List TokenKind} {lineEnds : Bool} :
    Settles text room (grammar.conditionalOn test ends lineEnds)
      (grammar'.conditionalOn test ends lineEnds) := by
  rw [conditionalOn, conditionalOn]
  infer_instance

instance {left : Node} {operator : Operator} {ends : List TokenKind}
    {lineEnds : Bool} :
    Settles text room (grammar.binaryOn left operator ends lineEnds)
      (grammar'.binaryOn left operator ends lineEnds) := by
  rw [binaryOn, binaryOn]
  dsimp only
  split
  · cases htarget : left.toAssignmentTarget operator with
    | ok target => infer_instance
    | error error =>
        have hfail : Settles text room (fail error) (fail error : Parser Node) :=
          settles_fail_of_refusesTargets
            (left.refusesTargets_toAssignmentTarget operator) htarget
        infer_instance
  · infer_instance

instance {left : Node} {operator : Operator} {ends : List TokenKind}
    {lineEnds : Bool} :
    Settles text room (grammar.operationOn left operator ends lineEnds)
      (grammar'.operationOn left operator ends lineEnds) := by
  unfold operationOn
  split <;> infer_instance

instance {tag : Node} :
    Settles text room (grammar.taggedTemplate tag)
      (grammar'.taggedTemplate tag) := by
  rw [taggedTemplate, taggedTemplate]
  infer_instance

instance {least : Nat} {ends : List TokenKind} {lineEnds : Bool} {left : Node}
    {token : Token} :
    Settles text room (grammar.extendAt least ends lineEnds left token)
      (grammar'.extendAt least ends lineEnds left token) := by
  rw [extendAt, extendAt]
  repeat' split
  all_goals infer_instance

/-- Only a token that takes up text is an operator. -/
theorem isSolid_of_extends {least : Nat} {ends : List TokenKind}
    {lineEnds : Bool} {token : Token}
    (hstays : givesBack least ends lineEnds token = false) :
    token.kind.IsSolid ∨ ends.contains token.kind = false ∧
      postfixOperator? token = none ∧ startsTemplate token = false ∧
      token.kind.infixOperator? = none := by
  rw [givesBack, Bool.or_eq_false_iff] at hstays
  obtain ⟨hends, hstays⟩ := hstays
  by_cases hsolid : token.kind.IsSolid
  · exact .inl hsolid
  · have hkind : token.kind = .endOfInput ∨ token.kind = .invalid := by
      by_contra hneither
      exact hsolid ⟨fun hend => hneither (.inl hend),
        fun hinvalid => hneither (.inr hinvalid)⟩
    refine .inr ⟨hends, ?_⟩
    rcases hkind with hkind | hkind
    all_goals
      simp [postfixOperator?, startsTemplate, TokenKind.infixOperator?, hkind]

omit hgrammar hrules in
instance {least : Nat} {ends : List TokenKind} {lineEnds : Bool} {left : Node} :
    GoesOnIf Sum.isLeft
      (grammar.extendExpression least ends lineEnds left) := by
  rw [extendExpression_eq]
  refine .rewinding (fun token hback => ?_) (fun {_ token _} hback hrun => ?_)
    inferInstance inferInstance
  · rw [givesBack] at hback
    rw [extendAt]
    split
    · infer_instance
    · rename_i hends
      rw [Bool.not_eq_true] at hends
      rw [hends, Bool.false_or] at hback
      split
      · rename_i operator hupdate
        rw [hupdate] at hback
        rw [if_pos (of_decide_eq_true hback)]
        infer_instance
      · rename_i hupdate
        rw [hupdate] at hback
        split
        · infer_instance
        · rename_i htemplate
          rw [Bool.not_eq_true] at htemplate
          rw [htemplate, Bool.false_or] at hback
          split
          · infer_instance
          · rename_i operator hbinary
            rw [hbinary] at hback
            rw [if_pos (of_decide_eq_true hback)]
            infer_instance
  · rcases isSolid_of_extends hback with
      hsolid | ⟨hends, hupdate, htemplate, hbinary⟩
    · exact .inr (goesOn_of_consumeIn hrun hsolid)
    · left
      rw [extendAt, hends, hupdate, hbinary, htemplate]
      simp only [Bool.false_eq_true, if_false]
      infer_instance

instance {least : Nat} {ends : List TokenKind} {lineEnds : Bool} {left : Node} :
    Settles text room (grammar.extendExpression least ends lineEnds left)
      (grammar'.extendExpression least ends lineEnds left) := by
  rw [extendExpression_eq, extendExpression_eq]
  infer_instance

theorem settles_expressionRule (least : Nat) (ends : List TokenKind)
    (lineEnds : Bool) :
    Settles text (room + 1) (grammar.expressionRule least ends lineEnds)
      (grammar'.expressionRule least ends lineEnds) := by
  rw [expressionRule, expressionRule]
  infer_instance

end Grammar

end Bundler
