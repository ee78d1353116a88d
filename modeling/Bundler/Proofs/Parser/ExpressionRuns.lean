import Bundler.Proofs.Parser.Runs

/-!
# Runs of expressions

What the rules for names, operands and operators do from a place on: the token
there, and the two behind it, say which operand it is, and the token behind an
expression whether and how it goes on.
-/

set_option synthInstance.maxSize 1000

namespace Bundler

open TokenStream

theorem Operator.precedence_of_isAssignment {operator : Operator}
    (h : operator.isAssignment = true) : operator.precedence = 2 := by
  cases operator <;> first | exact absurd h (by decide) | rfl

theorem Operator.one_le_precedence (operator : Operator) :
    1 ≤ operator.precedence := by
  cases operator <;> decide

/-- The operator that binds least is the comma. -/
theorem TokenKind.eq_comma_of_precedence {kind : TokenKind}
    {operator : Operator} (h : kind.infixOperator? = some operator)
    (hlt : operator.precedence < 2) : kind = .punctuator .comma := by
  cases kind with
  | keyword word =>
      cases word <;> cases h <;> exact absurd hlt (by decide)
  | punctuator mark =>
      cases mark <;> cases h <;> first | rfl | exact absurd hlt (by decide)
  | _ => cases h

theorem Grammar.precedence_of_postfixOperator? {token : Token}
    {operator : Operator} (h : postfixOperator? token = some operator) :
    operator.precedence = 16 := by
  rw [postfixOperator?] at h
  split at h
  · cases h
  · split at h <;> cases h <;> rfl

namespace NameRules

variable {rules : NameRules} {kind : TokenKind}

/-- What may name a binding writes no operator where it does so. -/
theorem startsUnary_of_allows {grammar : Grammar} {first second : Token}
    (h : grammar.rules.allows first.kind = true) :
    grammar.startsUnary first second = false := by
  rw [Grammar.startsUnary]
  cases hkind : first.kind with
  | keyword word =>
      rw [hkind] at h
      cases word <;>
        simp_all [allows, TokenKind.unaryOperator?, Keyword.unaryOperator?,
          Keyword.isUnreserved]
  | identifier => simp [TokenKind.unaryOperator?]
  | _ =>
      rw [hkind] at h
      cases h

theorem ne_punctuator_of_allows (h : rules.allows kind = true)
    (mark : Punctuator) : kind ≠ .punctuator mark := by
  rintro rfl
  cases h

end NameRules

namespace Grammar

open Bundler.Parser

section Names

variable (grammar : Grammar) {text : List Char} {start stop : Nat} {node : Node}

theorem runs_bindingWord {token : Token} :
    Runs text grammar.bindingWord start token stop ↔
      Reaches text start ∧ token = tokenAt text .standard start ∧
        grammar.rules.allows token.kind = true ∧ stop = token.span.stop := by
  rw [bindingWord, runs_bind]
  constructor
  · rintro ⟨found, between, hconsume, hrun⟩
    obtain ⟨hstart, rfl, rfl⟩ := runs_consume.mp hconsume
    split at hrun
    · obtain ⟨_, rfl, rfl⟩ := runs_pure.mp hrun
      exact ⟨hstart, rfl, ‹_›, rfl⟩
    · exact absurd hrun not_runs_fail
  · rintro ⟨hstart, rfl, hallows, rfl⟩
    refine ⟨_, _, runs_consume.mpr ⟨hstart, rfl, rfl⟩, ?_⟩
    rw [if_pos hallows]
    exact runs_pure.mpr ⟨reaches_next hstart .standard, rfl, rfl⟩

instance : Opens grammar.bindingWord := by
  rw [bindingWord]
  infer_instance

/-- A single name as a node. -/
theorem runs_node_bindingWord {shape : String → Shape Node} :
    Runs text (Parser.node do return shape (← grammar.bindingWord).text) start
        node stop ↔
      Reaches text start ∧
        grammar.rules.allows (tokenAt text .standard start).kind = true ∧
        node = .mk (tokenAt text .standard start).span
          (shape (tokenAt text .standard start).text) ∧
        stop = (tokenAt text .standard start).span.stop := by
  simp only [runs_node, runs_bind, runs_bindingWord, runs_pure]
  constructor
  · rintro ⟨_, ⟨_, _, ⟨hstart, rfl, hallows, rfl⟩, _, rfl, rfl⟩, rfl⟩
    exact ⟨hstart, hallows, rfl, rfl⟩
  · rintro ⟨hstart, hallows, rfl, rfl⟩
    exact ⟨_, ⟨_, _, ⟨hstart, rfl, hallows, rfl⟩, reaches_next hstart _, rfl,
      rfl⟩, rfl⟩

theorem runs_identifier :
    Runs text grammar.identifier start node stop ↔
      Reaches text start ∧
        grammar.rules.allows (tokenAt text .standard start).kind = true ∧
        node = .mk (tokenAt text .standard start).span
          (.ident (tokenAt text .standard start).text) ∧
        stop = (tokenAt text .standard start).span.stop :=
  grammar.runs_node_bindingWord

theorem runs_namePattern :
    Runs text grammar.namePattern start node stop ↔
      Reaches text start ∧
        grammar.rules.allows (tokenAt text .standard start).kind = true ∧
        node = .mk (tokenAt text .standard start).span
          (.identPattern (tokenAt text .standard start).text) ∧
        stop = (tokenAt text .standard start).span.stop :=
  grammar.runs_node_bindingWord

end Names

/-- What stands between operands is neither behind one nor a template. -/
theorem of_infixOperator? {token : Token} {operator : Operator}
    (h : token.kind.infixOperator? = some operator) :
    postfixOperator? token = none ∧ startsTemplate token = false := by
  constructor
  · rw [postfixOperator?]
    split
    · rfl
    · split
      · rename_i hkind
        rw [hkind] at h
        cases h
      · rename_i hkind
        rw [hkind] at h
        cases h
      · rfl
  · cases hkind : token.kind with
    | templatePart =>
        rw [hkind] at h
        cases h
    | templateTail =>
        rw [hkind] at h
        cases h
    | _ => simp [startsTemplate, hkind]

section Assignments

variable {grammar : Grammar} {left target : Node} {operator : Operator}
  {ends : List TokenKind} {lineEnds : Bool} {error : SyntaxError}

theorem operationOn_of_isAssignment (h : operator.isAssignment = true) :
    grammar.operationOn left operator ends lineEnds =
      grammar.binaryOn left operator ends lineEnds := by
  cases operator <;> first | exact absurd h (by decide) | rfl

/-- To what is a target a value is assigned. -/
theorem operationOn_of_target (h : operator.isAssignment = true)
    (htarget : left.toAssignmentTarget operator = .ok target) :
    grammar.operationOn left operator ends lineEnds = (do
      let right ←
        grammar.expressionFrom operator.rightPrecedence ends lineEnds
      return spanning target.span right.span
        (.binary operator target right)) := by
  rw [operationOn_of_isAssignment h, binaryOn, if_pos h, htarget]
  rfl

/-- What is no target is not assigned to. -/
theorem operationOn_of_noTarget (h : operator.isAssignment = true)
    (htarget : left.toAssignmentTarget operator = .error error) :
    grammar.operationOn left operator ends lineEnds = fail error := by
  rw [operationOn_of_isAssignment h, binaryOn, if_pos h, htarget]
  exact fail_bind _ _

end Assignments

section Operands

variable {grammar : Grammar} [grammar.IsDisciplined] {text : List Char}
  {start stop : Nat} {node : Node} {ends : List TokenKind}
  {lineEnds : Bool}

theorem runs_operand {first second third : Token}
    (hfirst : first = tokenAt text .slashIsRegex start)
    (hsecond : second = tokenAt text .standard first.span.stop)
    (hthird : third = tokenAt text .standard second.span.stop) :
    Runs text (grammar.operand ends lineEnds) start node stop ↔
      Reaches text start ∧ Runs text
        (if grammar.startsUnary first second then
          grammar.unaryExpression ends lineEnds
        else if first.kind = .keyword .asyncWord &&
            second.kind ≠ .punctuator .equalsChevronRight then
          grammar.asyncOperand ends second third
        else if grammar.rules.allows first.kind then
          if second.kind = .punctuator .equalsChevronRight then
            grammar.arrowFunction ends
          else grammar.identifier
        else grammar.otherOperand ends lineEnds first second) start node
        stop := by
  subst hfirst hsecond hthird
  simp only [operand_eq, runs_rewinding, if_true, runs_bind, runs_consume,
    runs_consumeIn, runs_pure]
  constructor
  · rintro ⟨_, _, ⟨_, _, ⟨hstart, rfl, rfl⟩, _, _, ⟨_, rfl, rfl⟩, _, _,
      ⟨_, rfl, rfl⟩, _, rfl, rfl⟩, hrun⟩
    exact ⟨hstart, hrun⟩
  · rintro ⟨hstart, hrun⟩
    have hsecond := reaches_next hstart .slashIsRegex
    have hthird := reaches_next hsecond .standard
    exact ⟨_, _, ⟨_, _, ⟨hstart, rfl, rfl⟩, _, _, ⟨hsecond, rfl, rfl⟩, _, _,
      ⟨hthird, rfl, rfl⟩, reaches_next hthird .standard, rfl, rfl⟩, hrun⟩

/-- An expression goes on, or ends, by the token behind it. -/
theorem runs_extendExpression {least : Nat} {left : Node}
    {result : Node ⊕ Node} {token : Token}
    (htoken : token = tokenAt text .standard start) :
    Runs text (grammar.extendExpression least ends lineEnds left) start result
        stop ↔
      Reaches text start ∧
        Runs text (grammar.extendAt least ends lineEnds left token)
          (if givesBack least ends lineEnds token then start
            else token.span.stop) result stop := by
  subst htoken
  simp only [extendExpression_eq, runs_rewinding, runs_consume]
  constructor
  · rintro ⟨_, _, ⟨hstart, rfl, rfl⟩, hrun⟩
    exact ⟨hstart, hrun⟩
  · rintro ⟨hstart, hrun⟩
    exact ⟨_, _, ⟨hstart, rfl, rfl⟩, hrun⟩

/-- In front of a token of a kind that ends it, an expression is left as it
is. -/
theorem runs_extendExpression_of_ends {least : Nat} {left : Node}
    (hstart : Reaches text start)
    (hends : ends.contains (tokenAt text .standard start).kind = true) :
    Runs text (grammar.extendExpression least ends lineEnds left) start
      (.inr left) start := by
  rw [runs_extendExpression rfl, extendAt, givesBack, hends, Bool.true_or,
    if_pos rfl, if_pos rfl]
  exact ⟨hstart, runs_pure.mpr ⟨hstart, rfl, rfl⟩⟩

omit [grammar.IsDisciplined] in
/-- Where a comma ends an expression, it makes no difference whether commas are
taken as operators. -/
theorem extendExpression_comma (hcomma : .punctuator .comma ∈ ends)
    (left : Node) :
    grammar.extendExpression 1 ends lineEnds left =
      grammar.extendExpression 2 ends lineEnds left := by
  have hlevel : ∀ {token : Token} {operator : Operator},
      ¬ ends.contains token.kind = true →
      (postfixOperator? token = some operator ∨
        token.kind.infixOperator? = some operator) →
      ¬ operator.precedence < 2 := by
    rintro token operator hends (hupdate | hbinary) hlt
    · rw [precedence_of_postfixOperator? hupdate] at hlt
      exact absurd hlt (by decide)
    · rw [TokenKind.eq_comma_of_precedence hbinary hlt] at hends
      exact hends (List.contains_iff_mem.mpr hcomma)
  have hnone : ∀ operator : Operator, ¬ operator.precedence < 1 :=
    fun operator => Nat.not_lt_of_le operator.one_le_precedence
  have hsame : ∀ token : Token,
      givesBack 1 ends lineEnds token = givesBack 2 ends lineEnds token ∧
        grammar.extendAt 1 ends lineEnds left token =
          grammar.extendAt 2 ends lineEnds left token := by
    intro token
    simp only [givesBack, extendAt]
    by_cases hends : ends.contains token.kind = true
    · simp only [hends, Bool.true_or, if_true, and_self]
    · cases hupdate : postfixOperator? token with
      | some operator =>
          simp only [hnone, hlevel hends (.inl hupdate), and_self]
      | none =>
          cases hbinary : token.kind.infixOperator? with
          | none => simp only [and_self]
          | some operator =>
              simp only [hnone, hlevel hends (.inr hbinary), and_self]
  rw [extendExpression_eq, extendExpression_eq,
    funext fun token => (hsame token).1, funext fun token => (hsame token).2]

end Operands

section Sources

variable {rules : NameRules} {source : String} {start stop : Nat} {node : Node}
  {ends : List TokenKind} {lineEnds : Bool} {least : Nat}

theorem runs_expression_iff :
    Runs source.toList
        ((forSource rules source).expressionFrom least ends lineEnds) start node
        stop ↔
      ∃ first between, Runs source.toList
          ((forSource rules source).operand ends lineEnds) start first between ∧
        Repeats source.toList
          ((forSource rules source).extendExpression least ends lineEnds) first
          between node stop := by
  simp only [runs_expressionFrom, expressionRule, runs_bind, runs_iterate]

theorem runs_expression_comma (hcomma : .punctuator .comma ∈ ends) :
    Runs source.toList ((forSource rules source).expressionFrom 1 ends lineEnds)
        start node stop ↔
      Runs source.toList
        ((forSource rules source).expressionFrom 2 ends lineEnds) start node
        stop := by
  rw [runs_expression_iff, runs_expression_iff,
    funext (extendExpression_comma hcomma)]

end Sources

end Grammar

end Bundler
