import Bundler.Proofs.Parser.ExpressionRuns
import Bundler.Proofs.Parser.Refusals

/-!
# Where expressions end

An expression is extended by one operator after the other up to a token at which
it ends.  What extends it does so too where operators may bind less tightly.  An
expression is refused where its operand is, or what extends it.
-/

set_option synthInstance.maxSize 1000

namespace Bundler

open TokenStream

namespace Grammar

open Bundler.Parser

/-- At a token an expression ends, because of its kind, because it is an operator
that binds less than operators have to, or because a line ends. -/
inductive EndsAt (least : Nat) (ends : List TokenKind) (lineEnds : Bool)
    (token : Token) : Prop
  | kind : ends.contains token.kind = true → EndsAt least ends lineEnds token
  | update {operator : Operator} :
      postfixOperator? token = some operator → operator.precedence < least →
      EndsAt least ends lineEnds token
  | operator {operator : Operator} :
      postfixOperator? token = none → startsTemplate token = false →
      token.kind.infixOperator? = some operator → operator.precedence < least →
      EndsAt least ends lineEnds token
  | line :
      postfixOperator? token = none → startsTemplate token = false →
      token.kind.infixOperator? = none → lineEnds = true →
      endsWithoutSemicolon token = true → EndsAt least ends lineEnds token

section Ends

variable {grammar : Grammar} {least less : Nat} {left : Node}
  {ends : List TokenKind} {lineEnds : Bool} {token : Token}

theorem EndsAt.givesBack_eq (h : EndsAt least ends lineEnds token) :
    givesBack least ends lineEnds token = true := by
  rw [givesBack]
  cases h with
  | kind hends => rw [hends, Bool.true_or]
  | update hupdate hless => simp [hupdate, hless]
  | operator hupdate htemplate hoperator hless =>
      simp [hupdate, hoperator, hless]
  | line hupdate htemplate hoperator hline hends =>
      simp [hupdate, hoperator, hline, hends]

theorem EndsAt.extendAt_eq (h : EndsAt least ends lineEnds token) :
    grammar.extendAt least ends lineEnds left token = pure (.inr left) := by
  rw [extendAt]
  cases h with
  | kind hends => rw [if_pos hends]
  | update hupdate hless => simp [hupdate, hless]
  | operator hupdate htemplate hoperator hless =>
      simp [hupdate, htemplate, hoperator, hless]
  | line hupdate htemplate hoperator hline hends =>
      simp [hupdate, htemplate, hoperator, hline, hends]

/-- A token that does not end an expression is taken in the same way where
operators may bind less tightly. -/
theorem extendAt_of_not_endsAt (h : ¬ EndsAt least ends lineEnds token)
    (hle : less ≤ least) :
    givesBack less ends lineEnds token = givesBack least ends lineEnds token ∧
      grammar.extendAt less ends lineEnds left token =
        grammar.extendAt least ends lineEnds left token := by
  rw [givesBack, givesBack, extendAt, extendAt]
  by_cases hends : ends.contains token.kind = true
  · exact absurd (.kind hends) h
  cases hupdate : postfixOperator? token with
  | some operator =>
      have hless : ¬ operator.precedence < least :=
        fun hless => h (.update hupdate hless)
      have hless' : ¬ operator.precedence < less :=
        fun hlt => hless (Nat.lt_of_lt_of_le hlt hle)
      simp only [hless, hless', and_self]
  | none =>
      cases htemplate : startsTemplate token with
      | true => simp
      | false =>
          cases hoperator : token.kind.infixOperator? with
          | none => simp
          | some operator =>
              have hless : ¬ operator.precedence < least :=
                fun hless => h (.operator hupdate htemplate hoperator hless)
              have hless' : ¬ operator.precedence < less :=
                fun hlt => hless (Nat.lt_of_lt_of_le hlt hle)
              simp only [hless, hless', and_self]

section Operators

variable {operator : Operator}

/-- An operator that binds tightly enough is not given back. -/
theorem givesBack_of_operator
    (hoperator : token.kind.infixOperator? = some operator)
    (hends : token.kind ∉ ends) (hle : least ≤ operator.precedence) :
    givesBack least ends lineEnds token = false := by
  obtain ⟨hupdate, htemplate⟩ := of_infixOperator? hoperator
  simp [givesBack, hends, hupdate, htemplate, hoperator, hle]

theorem extendAt_of_operator
    (hoperator : token.kind.infixOperator? = some operator)
    (hends : token.kind ∉ ends) (hle : least ≤ operator.precedence) :
    grammar.extendAt least ends lineEnds left token = (do
      return .inl (← grammar.operationOn left operator ends lineEnds)) := by
  obtain ⟨hupdate, htemplate⟩ := of_infixOperator? hoperator
  simp [extendAt, hends, hupdate, htemplate, hoperator, Nat.not_lt_of_le hle]

end Operators

/-- Where a semicolon may be left out an expression ends with the text. -/
theorem EndsAt.endOfInput (h : token.kind = .endOfInput) :
    EndsAt least ends true token :=
  .line (by simp [postfixOperator?, h]) (by simp [startsTemplate, h])
    (by rw [h]; rfl) rfl (by simp [endsWithoutSemicolon, h])

/-- Where commas are no operators, what else ends an expression does so where
they are. -/
theorem EndsAt.one (h : EndsAt 2 ends lineEnds token)
    (hcomma : token.kind ≠ .punctuator .comma) :
    EndsAt 1 ends lineEnds token := by
  cases h with
  | kind hends => exact .kind hends
  | update hupdate hless =>
      rw [precedence_of_postfixOperator? hupdate] at hless
      exact absurd hless (by decide)
  | operator hupdate htemplate hoperator hless =>
      exact absurd (TokenKind.eq_comma_of_precedence hoperator hless) hcomma
  | line hupdate htemplate hoperator hline hends =>
      exact .line hupdate htemplate hoperator hline hends

end Ends

section Extending

variable {grammar : Grammar} [grammar.IsDisciplined] {text : List Char}
  {start stop place least less : Nat} {left later node : Node}
  {ends : List TokenKind} {lineEnds : Bool} {error : SyntaxError}

/-- Where an expression ends it is left as it is. -/
theorem EndsAt.runs
    (h : EndsAt least ends lineEnds (tokenAt text .standard place))
    (hplace : Reaches text place) :
    Runs text (grammar.extendExpression least ends lineEnds left) place
      (.inr left) place := by
  rw [runs_extendExpression rfl, h.extendAt_eq, h.givesBack_eq, if_pos rfl]
  exact ⟨hplace, runs_pure.mpr ⟨hplace, rfl, rfl⟩⟩

omit [grammar.IsDisciplined] in
theorem not_runs_inl {parser : Parser Node} [Disciplined false parser] :
    ¬ Runs text (do return .inl (← parser) : Parser (Node ⊕ Node)) start
      (.inr node) stop := by
  intro hrun
  obtain ⟨_, _, _, hpure⟩ := runs_bind.mp hrun
  cases (runs_pure.mp hpure).2.1

theorem endsAt_of_extendExpression
    (hrun : Runs text (grammar.extendExpression least ends lineEnds left) place
      (.inr node) stop) :
    node = left ∧ stop = place ∧
      EndsAt least ends lineEnds (tokenAt text .standard place) := by
  rw [runs_extendExpression rfl] at hrun
  obtain ⟨hplace, hrun⟩ := hrun
  have hends : EndsAt least ends lineEnds (tokenAt text .standard place) := by
    rw [extendAt] at hrun
    split at hrun
    · exact .kind ‹_›
    · split at hrun
      · split at hrun
        · exact .update ‹_› ‹_›
        · cases (runs_pure.mp hrun).2.1
      · split at hrun
        · exact absurd hrun not_runs_inl
        · split at hrun
          · split at hrun
            · rename_i hupdate htemplate _ hoperator hline
              rw [Bool.and_eq_true] at hline
              exact .line hupdate (eq_false_of_ne_true htemplate) hoperator
                hline.1 hline.2
            · exact absurd hrun not_runs_fail
          · split at hrun
            · exact .operator ‹_› (eq_false_of_ne_true ‹_›) ‹_› ‹_›
            · exact absurd hrun not_runs_inl
  rw [hends.extendAt_eq, hends.givesBack_eq, if_pos rfl, runs_pure] at hrun
  exact ⟨Sum.inr.inj hrun.2.1, hrun.2.2, hends⟩

/-- What extends an expression does so where operators may bind less
tightly. -/
theorem runs_extendExpression_of_le (hle : less ≤ least)
    (hrun : Runs text (grammar.extendExpression least ends lineEnds left) place
      (.inl later) stop) :
    Runs text (grammar.extendExpression less ends lineEnds left) place
      (.inl later) stop := by
  have hnot : ¬ EndsAt least ends lineEnds (tokenAt text .standard place) := by
    intro hends
    have hextend : Disciplined false
        (grammar.extendExpression least ends lineEnds left) := inferInstance
    cases (hextend.runs_unique hrun (hends.runs hrun.reaches_start)).1
  rw [runs_extendExpression rfl] at hrun ⊢
  obtain ⟨hgives, hextend⟩ := extendAt_of_not_endsAt hnot hle
  rwa [hgives, hextend]

/-- At an operator that binds tightly enough an expression goes on with it. -/
theorem runs_extendExpression_of_operator {operator : Operator}
    (hoperator : (tokenAt text .standard place).kind.infixOperator? =
      some operator)
    (hends : (tokenAt text .standard place).kind ∉ ends)
    (hle : least ≤ operator.precedence) (hplace : Reaches text place)
    (hrun : Runs text (grammar.operationOn left operator ends lineEnds)
      (tokenAt text .standard place).span.stop later stop) :
    Runs text (grammar.extendExpression least ends lineEnds left) place
      (.inl later) stop := by
  rw [runs_extendExpression rfl, extendAt_of_operator hoperator hends hle,
    givesBack_of_operator hoperator hends hle, if_neg Bool.false_ne_true]
  exact ⟨hplace, .bind hrun (runs_pure.mpr ⟨hrun.reaches_stop, rfl, rfl⟩)⟩

theorem fails_extendExpression :
    Fails text (grammar.extendExpression least ends lineEnds left) place
        error ↔
      Reaches text place ∧
        Fails text (grammar.extendAt least ends lineEnds left
          (tokenAt text .standard place))
          (if givesBack least ends lineEnds (tokenAt text .standard place)
            then place else (tokenAt text .standard place).span.stop)
          error := by
  rw [extendExpression_eq, Disciplined.fails_rewinding inferInstance
    fun token => inferInstance]
  constructor
  · rintro (hconsume | ⟨_, _, hconsume, hfails⟩)
    · exact absurd hconsume not_fails_consume
    · obtain ⟨hplace, rfl, rfl⟩ := runs_consume.mp hconsume
      exact ⟨hplace, hfails⟩
  · rintro ⟨hplace, hfails⟩
    exact .inr ⟨_, _, runs_consume.mpr ⟨hplace, rfl, rfl⟩, hfails⟩

/-- An expression is refused where what its operator makes of it is. -/
theorem fails_extendExpression_of_operator {operator : Operator}
    (hoperator : (tokenAt text .standard place).kind.infixOperator? =
      some operator)
    (hends : (tokenAt text .standard place).kind ∉ ends)
    (hle : least ≤ operator.precedence) (hplace : Reaches text place)
    (hfails : Fails text (grammar.operationOn left operator ends lineEnds)
      (tokenAt text .standard place).span.stop error) :
    Fails text (grammar.extendExpression least ends lineEnds left) place
      error := by
  rw [fails_extendExpression, extendAt_of_operator hoperator hends hle,
    givesBack_of_operator hoperator hends hle, if_neg Bool.false_ne_true]
  exact ⟨hplace, hfails.first⟩

end Extending

/-! ### Whole expressions -/

section Sources

variable {rules : NameRules} {source : String} {start stop : Nat}
  {node : Node} {ends : List TokenKind} {lineEnds : Bool} {least : Nat}
  {error : SyntaxError}

theorem runs_expression_of_operand
    (hrun : Runs source.toList ((forSource rules source).operand ends lineEnds)
      start node stop)
    (hends : EndsAt least ends lineEnds (tokenAt source.toList .standard stop)) :
    Runs source.toList
      ((forSource rules source).expressionFrom least ends lineEnds) start node
      stop :=
  runs_expression_iff.mpr
    ⟨node, stop, hrun, .done (hends.runs hrun.reaches_stop)⟩

theorem fails_expressionFrom :
    Fails source.toList
        ((forSource rules source).expressionFrom least ends lineEnds) start
        error ↔
      Fails source.toList
        ((forSource rules source).expressionRule least ends lineEnds) start
        error :=
  fails_of_settles (settling_deepen.expressionFrom least ends lineEnds)

theorem fails_expression_of_operand
    (h : Fails source.toList ((forSource rules source).operand ends lineEnds)
      start error) :
    Fails source.toList
      ((forSource rules source).expressionFrom least ends lineEnds) start
      error := by
  rw [fails_expressionFrom, expressionRule]
  exact h.first

theorem fails_expression_of_extend
    (hrun : Runs source.toList ((forSource rules source).operand ends lineEnds)
      start node stop)
    (hfails : Fails source.toList
      ((forSource rules source).extendExpression least ends lineEnds node) stop
      error) :
    Fails source.toList
      ((forSource rules source).expressionFrom least ends lineEnds) start
      error := by
  rw [fails_expressionFrom, expressionRule]
  exact hrun.fails (Steps.here node |>.fails_iterate hfails)

end Sources

end Grammar

end Bundler
