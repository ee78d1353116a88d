import Bundler.Proofs.Parser.ExpressionRuns
import Bundler.Proofs.Parser.Refusals

/-!
# Runs of arrow functions

An arrow function is an opening, which is its parameters with the arrow behind
them, and a body.  The first tokens of an operand say whether it can only be an
arrow function, or may be one.
-/

set_option synthInstance.maxSize 1000

namespace Bundler

open TokenStream

/-- A node is an arrow function of some parts. -/
def Node.IsArrow (node : Node) (isAsync : Bool) (parameters : List Node)
    (body : FuncBody Node) : Prop :=
  ∃ span, node =
    .mk span (.arrow (.mk span (.func true isAsync false parameters body)))

namespace Grammar

open Bundler.Parser

section Openings

variable (grammar : Grammar)

/-- What an arrow function has in front of its body: whether it is an `async`
one, its parameters, and the arrow, which is on the same line. -/
def arrowOpening : Parser (Bool × List Node × Token) := do
  let (_, second) ← peekTwo
  let isAsync ←
    if second.kind = .punctuator .equalsChevronRight then pure false
    else acceptWord .asyncWord
  let (parameters, arrow) ← grammar.arrowHead
  if arrow.afterLineBreak then
    fail (arrow.error .lineBreakBeforeArrow)
  return (isAsync, parameters, arrow)

/-- The function that an arrow function is. -/
def arrowShape (ends : List TokenKind) : Parser (Shape Node) := do
  let (isAsync, parameters, _) ← grammar.arrowOpening
  let body ← grammar.arrowBody ends
  return .func true isAsync false parameters body

theorem arrowFunction_eq (ends : List TokenKind) :
    grammar.arrowFunction ends = do
      let func ← node (grammar.arrowShape ends)
      return .mk func.span (.arrow func) := by
  rw [arrowFunction, arrowShape, arrowOpening]
  simp only [bind_assoc, pure_bind]
  congr 2
  congr 1
  funext tokens
  split <;> simp only [bind_assoc]
  · congr 1
    funext head
    split <;> rfl
  · congr 1
    funext isAsync
    congr 1
    funext head
    split <;> rfl

instance [grammar.IsDisciplined] {looks : Bool} :
    Disciplined looks grammar.arrowOpening :=
  .any (by rw [arrowOpening]; infer_instance)

instance [grammar.IsDisciplined] {looks : Bool} (ends : List TokenKind) :
    Disciplined looks (grammar.arrowShape ends) :=
  .any (by rw [arrowShape]; infer_instance)

end Openings

section Functions

variable {grammar : Grammar} [grammar.IsDisciplined] {text : List Char}
  {start stop bodyStart : Nat} {node : Node} {ends : List TokenKind}
  {isAsync : Bool} {parameters : List Node} {arrow : Token}
  {body : FuncBody Node} {error : SyntaxError}

/-- Behind the parameters the arrow is read. -/
theorem kind_of_arrowHead
    (hrun : Runs text grammar.arrowHead start (parameters, arrow) stop) :
    arrow.kind = .punctuator .equalsChevronRight := by
  rw [arrowHead, runs_bind] at hrun
  obtain ⟨⟨first, second⟩, _, _, hrun⟩ := hrun
  dsimp only at hrun
  split at hrun
  · obtain ⟨_, _, _, hrun⟩ := runs_bind.mp hrun
    obtain ⟨_, _, hmark, hrun⟩ := runs_bind.mp hrun
    obtain ⟨_, hvalue, _⟩ := runs_pure.mp hrun
    cases hvalue
    exact (runs_requireMark.mp hmark).2.2.1
  · obtain ⟨_, _, _, hrun⟩ := runs_bind.mp hrun
    obtain ⟨_, _, hmark, hrun⟩ := runs_bind.mp hrun
    obtain ⟨_, hvalue, _⟩ := runs_pure.mp hrun
    cases hvalue
    exact (runs_requireMark.mp hmark).2.2.1

/-- The token at the end of an opening is an arrow on the line of the
parameters. -/
theorem arrow_of_arrowOpening
    (hrun : Runs text grammar.arrowOpening start (isAsync, parameters, arrow)
      stop) :
    arrow.kind = .punctuator .equalsChevronRight ∧
      arrow.afterLineBreak = false := by
  have hhead : ∀ {place : Nat} {isAsync' : Bool},
      Runs text (do
        let (parameters, arrow) ← grammar.arrowHead
        if arrow.afterLineBreak then
          fail (arrow.error .lineBreakBeforeArrow)
        return (isAsync', parameters, arrow)) place
          (isAsync, parameters, arrow) stop →
      arrow.kind = .punctuator .equalsChevronRight ∧
        arrow.afterLineBreak = false := by
    intro place isAsync' hrun
    obtain ⟨⟨parameters', arrow'⟩, _, hhead, hrun⟩ := runs_bind.mp hrun
    dsimp only at hrun
    split at hrun
    · exact absurd hrun not_runs_fail
    · obtain ⟨_, hvalue, _⟩ := runs_pure.mp hrun
      cases hvalue
      exact ⟨kind_of_arrowHead hhead, eq_false_of_ne_true ‹_›⟩
  rw [arrowOpening, runs_bind] at hrun
  obtain ⟨⟨first, second⟩, _, _, hrun⟩ := hrun
  dsimp only at hrun
  split at hrun
  · obtain ⟨_, _, _, hrun⟩ := runs_bind.mp hrun
    exact hhead hrun
  · obtain ⟨_, _, _, hrun⟩ := runs_bind.mp hrun
    exact hhead hrun

theorem exists_runs_arrowFunction
    (hopening : Runs text grammar.arrowOpening start
      (isAsync, parameters, arrow) bodyStart)
    (hbody : Runs text (grammar.arrowBody ends) bodyStart body stop) :
    ∃ node : Node, node.IsArrow isAsync parameters body ∧
      Runs text (grammar.arrowFunction ends) start node stop := by
  have hshape : Runs text (grammar.arrowShape ends) start
      (.func true isAsync false parameters body) stop := by
    rw [arrowShape]
    exact .bind hopening (.bind hbody
      (runs_pure.mpr ⟨hbody.reaches_stop, rfl, rfl⟩))
  obtain ⟨span, hnode⟩ := hshape.exists_node
  rw [arrowFunction_eq]
  exact ⟨_, ⟨span, rfl⟩, hnode.bind (runs_pure.mpr
    ⟨hbody.reaches_stop, rfl, rfl⟩)⟩

theorem fails_arrowFunction
    (hopening : Runs text grammar.arrowOpening start
      (isAsync, parameters, arrow) bodyStart)
    (hbody : Fails text (grammar.arrowBody ends) bodyStart error) :
    Fails text (grammar.arrowFunction ends) start error := by
  have hshape : Fails text (grammar.arrowShape ends) start error := by
    rw [arrowShape]
    exact hopening.fails hbody.first
  rw [arrowFunction_eq]
  exact hshape.node.first

end Functions

/-! ### Operands -/

section Operands

variable {grammar : Grammar} [grammar.IsDisciplined] {text : List Char}
  {start stop : Nat} {node : Node} {ends : List TokenKind} {lineEnds : Bool}
  {otherwise : Option (Parser Node)} {error : SyntaxError}

/-- An operand fails as the rule does that its first tokens select. -/
theorem fails_operand {first second third : Token}
    (hfirst : first = tokenAt text .slashIsRegex start)
    (hsecond : second = tokenAt text .standard first.span.stop)
    (hthird : third = tokenAt text .standard second.span.stop) :
    Fails text (grammar.operand ends lineEnds) start error ↔
      Fails text
        (if grammar.startsUnary first second then
          grammar.unaryExpression ends lineEnds
        else if first.kind = .keyword .asyncWord &&
            second.kind ≠ .punctuator .equalsChevronRight then
          grammar.asyncOperand ends second third
        else if grammar.rules.allows first.kind then
          if second.kind = .punctuator .equalsChevronRight then
            grammar.arrowFunction ends
          else grammar.identifier
        else grammar.otherOperand ends lineEnds first second) start error := by
  subst hfirst hsecond hthird
  rw [operand_eq, Disciplined.fails_rewinding inferInstance
    (by rintro ⟨first, second, third⟩; infer_instance)]
  simp only [fails_bind, not_fails_consumeIn, not_fails_consume, not_fails_pure,
    false_or, and_false, exists_false, if_true, runs_bind, runs_consume,
    runs_consumeIn, runs_pure]
  constructor
  · rintro ⟨_, _, ⟨_, _, ⟨_, rfl, rfl⟩, _, _, ⟨_, rfl, rfl⟩, _, _,
      ⟨_, rfl, rfl⟩, _, rfl, rfl⟩, hfails⟩
    exact hfails
  · intro hfails
    have hstart := hfails.reaches
    have hsecond := reaches_next hstart .slashIsRegex
    have hthird := reaches_next hsecond .standard
    exact ⟨_, _, ⟨_, _, ⟨hstart, rfl, rfl⟩, _, _, ⟨hsecond, rfl, rfl⟩, _, _,
      ⟨hthird, rfl, rfl⟩, reaches_next hthird .standard, rfl, rfl⟩, hfails⟩

/-- An operand starts like an arrow function; what it is `otherwise`, if it may
be something else. -/
inductive StartsArrow (grammar : Grammar) (text : List Char) (lineEnds : Bool)
    (start : Nat) : (otherwise : Option (Parser Node)) → Prop
  | name {first second : Token} :
      first = tokenAt text .standard start →
      second = tokenAt text .standard first.span.stop →
      grammar.rules.allows first.kind = true →
      second.kind = .punctuator .equalsChevronRight →
      StartsArrow grammar text lineEnds start none
  | asyncName {first second third : Token} :
      first = tokenAt text .standard start →
      second = tokenAt text .standard first.span.stop →
      third = tokenAt text .standard second.span.stop →
      first.kind = .keyword .asyncWord →
      grammar.rules.allows second.kind = true →
      second.afterLineBreak = false →
      third.kind = .punctuator .equalsChevronRight →
      StartsArrow grammar text lineEnds start none
  | parameters {first : Token} :
      first = tokenAt text .standard start →
      first.kind = .punctuator .parenthesisOpen →
      StartsArrow grammar text lineEnds start (some (grammar.grouping lineEnds))
  | asyncParameters {first second : Token} :
      first = tokenAt text .standard start →
      second = tokenAt text .standard first.span.stop →
      first.kind = .keyword .asyncWord →
      second.kind = .punctuator .parenthesisOpen →
      StartsArrow grammar text lineEnds start (some grammar.identifier)

/-- An operand that starts like an arrow function. -/
def arrowOperand (grammar : Grammar) (ends : List TokenKind) :
    Option (Parser Node) → Parser Node
  | none => grammar.arrowFunction ends
  | some other => grammar.arrowFunctionOr ends other

namespace StartsArrow

omit [grammar.IsDisciplined] in
theorem not_slash (h : grammar.StartsArrow text lineEnds start otherwise)
    {mark : Punctuator} (hmark : mark ≠ .parenthesisOpen) :
    (tokenAt text .standard start).kind ≠ .punctuator mark := by
  cases h with
  | name hfirst _ hallows _ =>
      exact NameRules.ne_punctuator_of_allows (hfirst ▸ hallows) mark
  | asyncName hfirst _ _ hasync _ _ _ =>
      rw [← hfirst, hasync]
      exact nofun
  | parameters hfirst hopen =>
      rw [← hfirst, hopen]
      exact fun hsame => hmark (TokenKind.punctuator.inj hsame).symm
  | asyncParameters hfirst _ hasync _ =>
      rw [← hfirst, hasync]
      exact nofun

omit [grammar.IsDisciplined] in
/-- The rule for an operand that starts like an arrow function. -/
theorem rule_eq (h : grammar.StartsArrow text lineEnds start otherwise)
    {first second third : Token}
    (hfirst : first = tokenAt text .slashIsRegex start)
    (hsecond : second = tokenAt text .standard first.span.stop)
    (hthird : third = tokenAt text .standard second.span.stop) :
    (if grammar.startsUnary first second then
      grammar.unaryExpression ends lineEnds
    else if first.kind = .keyword .asyncWord &&
        second.kind ≠ .punctuator .equalsChevronRight then
      grammar.asyncOperand ends second third
    else if grammar.rules.allows first.kind then
      if second.kind = .punctuator .equalsChevronRight then
        grammar.arrowFunction ends
      else grammar.identifier
    else grammar.otherOperand ends lineEnds first second) =
      grammar.arrowOperand ends otherwise := by
  rw [tokenAt_slashIsRegex (h.not_slash nofun) (h.not_slash nofun)] at hfirst
  cases h with
  | name hfirst' hsecond' hallows harrow =>
      subst hfirst' hfirst hsecond' hsecond
      simp [NameRules.startsUnary_of_allows hallows, hallows, harrow,
        arrowOperand]
  | asyncName hfirst' hsecond' hthird' hasync hallows hline harrow =>
      subst hfirst' hfirst hsecond' hsecond hthird' hthird
      have hmark := NameRules.ne_punctuator_of_allows hallows
      have hword : (tokenAt text .standard
          (tokenAt text .standard start).span.stop).kind ≠
            .keyword .functionWord := by
        intro hword
        rw [hword] at hallows
        cases hallows
      simp [startsUnary, TokenKind.unaryOperator?, Keyword.unaryOperator?,
        hasync, hmark, hword, hallows, hline, harrow, asyncOperand,
        arrowOperand]
  | parameters hfirst' hopen =>
      subst hfirst' hfirst
      simp [startsUnary, TokenKind.unaryOperator?, Punctuator.unaryOperator?,
        hopen, NameRules.allows, otherOperand, arrowOperand]
  | asyncParameters hfirst' hsecond' hasync hopen =>
      subst hfirst' hfirst hsecond' hsecond
      simp [startsUnary, TokenKind.unaryOperator?, Keyword.unaryOperator?,
        hasync, hopen, asyncOperand, arrowOperand]

theorem runs_operand (h : grammar.StartsArrow text lineEnds start otherwise) :
    Runs text (grammar.operand ends lineEnds) start node stop ↔
      Runs text (grammar.arrowOperand ends otherwise) start node stop := by
  rw [Grammar.runs_operand rfl rfl rfl, h.rule_eq rfl rfl rfl]
  exact ⟨And.right, fun hrun => ⟨hrun.reaches_start, hrun⟩⟩

theorem fails_operand (h : grammar.StartsArrow text lineEnds start otherwise) :
    Fails text (grammar.operand ends lineEnds) start error ↔
      Fails text (grammar.arrowOperand ends otherwise) start error := by
  rw [Grammar.fails_operand rfl rfl rfl, h.rule_eq rfl rfl rfl]

theorem disciplined {other : Parser Node}
    (h : grammar.StartsArrow text lineEnds start (some other)) :
    Disciplined false other := by
  cases h with
  | parameters => infer_instance
  | asyncParameters => infer_instance

/-- An arrow function that can be read is the operand. -/
theorem runs_operand_of_arrow
    (h : grammar.StartsArrow text lineEnds start otherwise)
    (hrun : Runs text (grammar.arrowFunction ends) start node stop) :
    Runs text (grammar.operand ends lineEnds) start node stop := by
  rw [h.runs_operand]
  cases otherwise with
  | none => exact hrun
  | some other =>
      obtain ⟨stream, after, hstream, hafter, hstart, hstop, hrun⟩ := hrun
      have hattempt : attempt (grammar.arrowFunction ends) stream =
          .ok (.ok node) after := by
        rw [attempt, hrun]
      refine ⟨stream, after, hstream, hafter, hstart, hstop, ?_⟩
      rw [arrowOperand, arrowFunctionOr_eq, rewinding_of_ok hattempt]
      rfl

end StartsArrow

end Operands

end Grammar

end Bundler
