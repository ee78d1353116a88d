import Mathlib.Logic.Relation
import Bundler.Proofs.Parser.OperatorTrees

/-!
# Reading what is printed

What an expression of operators is printed as is read as that expression.  Each
tree is read from the front of its words on as an operand with operators behind
it, whatever follows, if it binds as tightly as it has to where it stands and
its last operand ends in front of what follows.  Where a parenthesis opens, no
arrow function is found, as there is no arrow in print.
-/

set_option synthInstance.maxSize 1000

namespace Bundler

open TokenStream Bundler.Parser

/-! ### Words ahead -/

/-- What is left of a text from a place on are words with spaces between
them. -/
structure Ahead (text : List Char) (place : Nat) (words : List Word) :
    Prop where
  reaches : Reaches text place
  exists_gap : ∃ gap, (∀ c ∈ gap, c = ' ') ∧
    (Cursor.mk place (gap ++ Word.spaced words)).IsIn text

/-- The kind of the first of some words. -/
def Word.firstKind : List Word → TokenKind
  | [] => .endOfInput
  | word :: _ => word.kind

theorem Word.firstKind_ne_arrow (words : List Word) :
    Word.firstKind words ≠ .punctuator .equalsChevronRight := by
  rintro h
  rcases words with _ | ⟨_ | _ | ⟨mark, hmark⟩, _⟩
  · cases h
  · cases h
  · cases h
  · exact hmark (TokenKind.punctuator.inj h)

namespace Ahead

variable {text : List Char} {place : Nat} {word : Word} {words : List Word}

theorem kind_eq (h : Ahead text place words) :
    (tokenAt text .standard place).kind = Word.firstKind words := by
  obtain ⟨_, gap, hgap, hin⟩ := h
  have hcursor := hin.eq_dropBytes
  dsimp only at hcursor
  rw [tokenAt, ← hcursor]
  cases words with
  | nil =>
      rw [Word.spaced, List.append_nil, lexToken_spaces hgap]
      rfl
  | cons word words =>
      obtain ⟨rest, hspaced, hrest, _⟩ := word.isApart_spaced words
      rw [hspaced, lexToken_word hgap place word hrest]
      rfl

theorem token_eq (h : Ahead text place (word :: words)) :
    (tokenAt text .standard place).text = String.ofList word.text ∧
      (tokenAt text .standard place).afterLineBreak = false ∧
      Ahead text (tokenAt text .standard place).span.stop words := by
  obtain ⟨hreaches, gap, hgap, hin⟩ := h
  obtain ⟨rest, hspaced, hrest, gap', hgap', hspaces⟩ :=
    word.isApart_spaced words
  rw [hspaced] at hin
  have hlex := lexToken_word hgap place word hrest
  have hafter := hin.lexToken .standard
  have hcursor := hin.eq_dropBytes
  dsimp only at hcursor
  have htoken : tokenAt text .standard place = (lexToken .standard
      ⟨place, gap ++ (word.text ++ rest)⟩).token := by
    rw [tokenAt, ← hcursor]
  have hnext := reaches_next hreaches .standard
  rw [hlex] at htoken hafter
  rw [htoken] at hnext ⊢
  refine ⟨rfl, rfl, hnext, gap', hspaces, ?_⟩
  rw [← hgap']
  exact hafter

end Ahead

/-! ### Operators as they are written -/

theorem Operator.eq_conditional {operator : Operator}
    (h : operator.rightPrecedence = 3) : operator = .conditional := by
  cases operator <;> first | rfl | exact absurd h (by decide)

theorem UnaryOperator.rightPrecedence_ne_three (operator : UnaryOperator) :
    operator.operator.rightPrecedence ≠ 3 := by
  intro h
  have hwritten := operator.isWritten
  rw [Operator.eq_conditional h] at hwritten
  cases hkind : operator.word.kind with
  | keyword word =>
      rw [hkind] at hwritten
      cases word <;> cases hwritten
  | punctuator mark =>
      rw [hkind] at hwritten
      cases mark <;> cases hwritten
  | _ =>
      rw [hkind] at hwritten
      cases hwritten

theorem InfixOperator.rightPrecedence_ne_three (operator : InfixOperator) :
    operator.operator.rightPrecedence ≠ 3 := by
  intro h
  have hjoins := operator.joins
  rw [Operator.eq_conditional h] at hjoins
  cases hjoins

theorem AssignmentOperator.rightPrecedence_ne_three
    (operator : AssignmentOperator) :
    operator.operator.rightPrecedence ≠ 3 := by
  intro h
  have hassignment := operator.isAssignment
  rw [Operator.eq_conditional h] at hassignment
  cases hassignment

/-- What is written between operands and binds like an assignment is one. -/
theorem TokenKind.isAssignment_of_precedence {kind : TokenKind}
    {operator : Operator} (h : kind.infixOperator? = some operator)
    (htwo : operator.precedence = 2) : operator.isAssignment = true := by
  cases kind with
  | keyword word =>
      cases word <;> cases h <;> exact absurd htwo (by decide)
  | punctuator mark =>
      cases mark <;> cases h <;> first | rfl | exact absurd htwo (by decide)
  | _ => cases h

theorem InfixOperator.precedence_ne_two (operator : InfixOperator) :
    operator.operator.precedence ≠ 2 := by
  intro h
  have hassignment :=
    TokenKind.isAssignment_of_precedence operator.isWritten h
  have hjoins := operator.joins
  unfold Operator.joins at hjoins
  rw [hassignment] at hjoins
  cases hjoins

namespace Grammar

variable {grammar : Grammar} {left : Node} {operator : Operator}
  {ends : List TokenKind} {lineEnds : Bool}

theorem operationOn_of_joins (h : operator.joins = true) :
    grammar.operationOn left operator ends lineEnds = (do
      let right ←
        grammar.expressionFrom operator.rightPrecedence ends lineEnds
      return spanning left.span right.span (.binary operator left right)) := by
  cases operator <;> first | exact absurd h (by decide) | rfl

end Grammar

/-! ### Going on and stopping -/

namespace TokenKind

/-- The operator that a token on the same line is behind an operand. -/
def operatorBehind? (kind : TokenKind) : Option Operator :=
  match kind with
  | .punctuator .plusPlus => some .postfixIncrement
  | .punctuator .hyphenHyphen => some .postfixDecrement
  | kind => kind.infixOperator?

end TokenKind

/-- An expression is not continued by a token of a kind. -/
def Stops (ends : List TokenKind) (least : Nat) (kind : TokenKind) : Prop :=
  kind ∈ ends ∨ ∃ operator, kind.operatorBehind? = some operator ∧
    operator.precedence < least

/-- Among what ends an expression there is no operator that it takes, and none
that an assignment takes. -/
def Closing (ends : List TokenKind) (least : Nat) : Prop :=
  ∀ kind ∈ ends, ∀ operator, kind.operatorBehind? = some operator →
    operator.precedence < least ∧ operator.precedence < 2

theorem Stops.mono {ends : List TokenKind} {least more : Nat} {kind : TokenKind}
    (h : Stops ends least kind) (hle : least ≤ more) : Stops ends more kind :=
  h.imp_right fun ⟨operator, hkind, hlt⟩ =>
    ⟨operator, hkind, Nat.lt_of_lt_of_le hlt hle⟩

theorem Closing.mono {ends : List TokenKind} {least more : Nat}
    (h : Closing ends least) (hle : least ≤ more) : Closing ends more :=
  fun kind hkind operator hoperator =>
    (h kind hkind operator hoperator).imp_left (Nat.lt_of_lt_of_le · hle)

theorem Closing.of_assignment {ends : List TokenKind} {least : Nat}
    (h : Closing ends least) : Closing ends 2 :=
  fun kind hkind operator hoperator =>
    ⟨(h kind hkind operator hoperator).2, (h kind hkind operator hoperator).2⟩

theorem closing_singleton {kind : TokenKind} (h : kind.operatorBehind? = none)
    (least : Nat) : Closing [kind] least := by
  intro other hother operator hoperator
  rw [List.mem_singleton.mp hother, h] at hoperator
  cases hoperator

namespace Grammar

/-- An operator behind an operand is a postfix one or stands between two. -/
theorem operatorBehind?_cases {token : Token} {operator : Operator}
    (hline : token.afterLineBreak = false)
    (h : token.kind.operatorBehind? = some operator) :
    postfixOperator? token = some operator ∨
      token.kind.infixOperator? = some operator := by
  rw [postfixOperator?, hline, if_neg Bool.false_ne_true]
  unfold TokenKind.operatorBehind? at h
  split at h
  · rename_i hkind
    rw [hkind]
    exact .inl h
  · rename_i hkind
    rw [hkind]
    exact .inl h
  · exact .inr h

theorem operatorBehind?_infixOperator {kind : TokenKind} {operator : Operator}
    (h : kind.infixOperator? = some operator) :
    kind.operatorBehind? = some operator := by
  unfold TokenKind.operatorBehind?
  split
  · cases h
  · cases h
  · exact h

section Extending

variable {grammar : Grammar} [grammar.IsDisciplined] {text : List Char}
  {start stop least : Nat} {ends : List TokenKind} {left node : Node}
  {words : List Word} {word : Word} {operator : Operator}

theorem runs_extendExpression_of_stops (h : Ahead text start words)
    (hstops : Stops ends least (Word.firstKind words)) :
    Runs text (grammar.extendExpression least ends false left) start
      (.inr left) start := by
  have hkind := h.kind_eq
  by_cases hends : ends.contains (tokenAt text .standard start).kind = true
  · exact runs_extendExpression_of_ends h.reaches hends
  obtain hmem | ⟨operator, hoperator, hlt⟩ := hstops
  · rw [hkind] at hends
    exact absurd (List.contains_iff_mem.mpr hmem) hends
  have hline : (tokenAt text .standard start).afterLineBreak = false := by
    cases words with
    | nil => cases hoperator
    | cons word words => exact h.token_eq.2.1
  rw [← hkind] at hoperator
  rw [runs_extendExpression rfl, extendAt, givesBack]
  refine ⟨h.reaches, ?_⟩
  obtain hupdate | hbinary := operatorBehind?_cases hline hoperator
  · simp only [hends, hupdate, hlt, decide_true, Bool.or_true, if_true]
    exact runs_pure.mpr ⟨h.reaches, rfl, rfl⟩
  · obtain ⟨hupdate, htemplate⟩ := of_infixOperator? hbinary
    simp only [hends, hupdate, htemplate, hbinary, hlt, decide_true,
      Bool.or_true, if_true]
    exact runs_pure.mpr ⟨h.reaches, rfl, rfl⟩

omit [grammar.IsDisciplined] in
theorem not_contains_of_closing {kind : TokenKind} (hends : Closing ends least)
    (hoperator : kind.operatorBehind? = some operator)
    (hleast : least ≤ operator.precedence) : ends.contains kind = false := by
  rw [← Bool.not_eq_true, List.contains_iff_mem]
  exact fun hmem =>
    absurd (hends kind hmem operator hoperator).1 (Nat.not_lt_of_le hleast)

theorem runs_extendExpression_infixOperator
    (h : Ahead text start (word :: words))
    (hends : Closing ends least)
    (hword : word.kind.infixOperator? = some operator)
    (hleast : least ≤ operator.precedence)
    (hoperation : Runs text (grammar.operationOn left operator ends false)
      (tokenAt text .standard start).span.stop node stop) :
    Runs text (grammar.extendExpression least ends false left) start
      (.inl node) stop := by
  have hkind : (tokenAt text .standard start).kind.infixOperator? =
      some operator := h.kind_eq ▸ hword
  have hgoes :=
    not_contains_of_closing hends (operatorBehind?_infixOperator hkind) hleast
  have hlt : ¬ operator.precedence < least := Nat.not_lt_of_le hleast
  obtain ⟨hupdate, htemplate⟩ := of_infixOperator? hkind
  rw [runs_extendExpression rfl, extendAt, givesBack]
  refine ⟨h.reaches, ?_⟩
  simp only [hgoes, hupdate, htemplate, hkind, hlt, decide_false,
    Bool.or_false, if_false, Bool.false_eq_true]
  exact .bind hoperation (runs_pure.mpr ⟨hoperation.reaches_stop, rfl, rfl⟩)

theorem runs_extendExpression_of_update {operator : UpdateOperator}
    (h : Ahead text start (operator.word :: words))
    (hends : Closing ends least)
    (hleast : least ≤ operator.operator.precedence) :
    Runs text (grammar.extendExpression least ends false left) start
      (.inl (spanning left.span (tokenAt text .standard start).span
        (.update operator.operator left)))
      (tokenAt text .standard start).span.stop := by
  have hkind := h.kind_eq
  obtain ⟨_, hline, hnext⟩ := h.token_eq
  have hbehind : (tokenAt text .standard start).kind.operatorBehind? =
      some operator.operator := by
    rw [hkind]
    cases operator <;> rfl
  have hupdate : postfixOperator? (tokenAt text .standard start) =
      some operator.operator := by
    rw [postfixOperator?, hline, hkind]
    cases operator <;> rfl
  have hgoes := not_contains_of_closing hends hbehind hleast
  have hlt : ¬ operator.operator.precedence < least := Nat.not_lt_of_le hleast
  rw [runs_extendExpression rfl, extendAt, givesBack]
  refine ⟨h.reaches, ?_⟩
  simp only [hgoes, hupdate, hlt, decide_false, Bool.or_false, if_false,
    Bool.false_eq_true]
  exact runs_pure.mpr ⟨hnext.reaches, rfl, rfl⟩

end Extending

/-! ### Parentheses -/

theorem hasArrow_of_arrowFunction {grammar : Grammar} [grammar.IsDisciplined]
    {text : List Char} {ends : List TokenKind} {node : Node}
    {stream after : TokenStream} (hstream : stream.Reads text)
    (hrun : grammar.arrowFunction ends stream = .ok node after) :
    HasArrow text := by
  rw [arrowFunction] at hrun
  obtain ⟨_, _, hfunction, _⟩ := Outcome.bind_eq_ok_iff.mp hrun
  obtain ⟨_, hfunction, _⟩ := Parser.node_eq_ok_iff.mp hfunction
  obtain ⟨⟨first, second⟩, between, hpeek, hfunction⟩ :=
    Outcome.bind_eq_ok_iff.mp hfunction
  have hbetween := (inferInstance : Disciplined false peekTwo).reads hstream
    hpeek
  have hhead : ∀ {α : Type} {next : List Node × Token → Parser α} {value}
      {later last : TokenStream}, later.Reads text →
      (grammar.arrowHead >>= next) later = .ok value last → HasArrow text := by
    intro α next value later last hlater hrun
    obtain ⟨_, _, harrow, _⟩ := Outcome.bind_eq_ok_iff.mp hrun
    exact hasArrow_of_arrowHead hlater harrow
  dsimp only at hfunction
  split at hfunction
  · rw [pure_bind] at hfunction
    exact hhead hbetween hfunction
  · obtain ⟨_, later, hword, hfunction⟩ := Outcome.bind_eq_ok_iff.mp hfunction
    exact hhead ((inferInstance : Disciplined false
      (acceptWord .asyncWord)).reads hbetween hword) hfunction

section Sources

variable {source : String} {start stop : Nat} {node : Node}

theorem runs_operationOn_assignment {rules : NameRules} {span : Span}
    {name : String} {operator : Operator} {ends : List TokenKind} {value : Node}
    (hassignment : operator.isAssignment = true)
    (hvalue : Runs source.toList ((forSource rules source).expressionFrom
      operator.rightPrecedence ends false) start value stop) :
    Runs source.toList ((forSource rules source).operationOn
      (.mk span (.ident name)) operator ends false) start
      (spanning span value.span (.binary operator
        (.mk span (.identPattern name)) value)) stop := by
  have htarget : (Node.mk span (.ident name)).toAssignmentTarget operator =
      .ok (.mk span (.identPattern name)) := by
    rw [Node.toAssignmentTarget, Node.shape, Node.toPattern]
  rw [operationOn_of_target hassignment htarget]
  exact .bind hvalue (runs_pure.mpr ⟨hvalue.reaches_stop, rfl, rfl⟩)

/-- In a text without arrows nothing is an arrow function. -/
theorem runs_arrowFunctionOr {rules : NameRules} {ends : List TokenKind}
    {other : Parser Node} [hother : Disciplined false other]
    (harrow : ¬ HasArrow source.toList)
    (hrun : Runs source.toList other start node stop) :
    Runs source.toList ((forSource rules source).arrowFunctionOr ends other)
      start node stop := by
  obtain ⟨stream, hstream, rfl⟩ := hrun.reaches_start
  have hsettles : Settles source.toList (source.utf8ByteSize + 2 + 1)
      ((forSource rules source).arrowFunction ends)
      ((forSource rules source).arrowFunction ends) := inferInstance
  have hroom := Nat.lt_succ_of_lt (unread_lt hstream)
  have hattempt : Disciplined false
      (attempt ((forSource rules source).arrowFunction ends)) := inferInstance
  cases hfunction : (forSource rules source).arrowFunction ends stream with
  | ok function after =>
      exact absurd (hasArrow_of_arrowFunction hstream hfunction) harrow
  | error failure after =>
      have hfounded := hsettles.founded hstream hroom hfunction
      cases failure with
      | exhausted => exact hfounded.elim
      | refused error =>
          have hfault : error.fault ≠ .lineBreakBeforeArrow :=
            fun hfault => harrow (hfounded hfault)
          have hrefused : attempt ((forSource rules source).arrowFunction ends)
              stream = .ok (.error error) after := by
            rw [attempt, hfunction]
          rw [arrowFunctionOr_eq, Disciplined.runs_rewinding hattempt]
          · refine ⟨_, _, hattempt.runs hstream hrefused, ?_⟩
            simpa [hfault] using hrun
          · rintro (error | arrow)
            · dsimp only
              infer_instance
            · dsimp only
              infer_instance

/-- What stands in parentheses is an operand. -/
theorem runs_operand_grouping {rules : NameRules} {ends : List TokenKind}
    {words rest : List Word} {place : Nat} (harrow : ¬ HasArrow source.toList)
    (h : Ahead source.toList start (.mark .parenthesisOpen :: words))
    (hinner : Runs source.toList ((forSource rules source).expressionFrom 1
      [.punctuator .parenthesisClose] false)
      (tokenAt source.toList .standard start).span.stop node place)
    (hclose : Ahead source.toList place (.mark .parenthesisClose :: rest)) :
    Runs source.toList ((forSource rules source).operand ends false) start node
      (tokenAt source.toList .standard place).span.stop := by
  have hkind : (tokenAt source.toList .standard start).kind =
      .punctuator .parenthesisOpen := h.kind_eq
  have hfirst : tokenAt source.toList .slashIsRegex start =
      tokenAt source.toList .standard start := by
    apply tokenAt_slashIsRegex <;> rw [hkind] <;> exact nofun
  have hend := hclose.kind_eq
  have hgrouping : Runs source.toList ((forSource rules source).grouping false)
      start node (tokenAt source.toList .standard place).span.stop := by
    rw [grouping]
    have hopen := runs_requireMark.mpr ⟨h.reaches, rfl, hkind, rfl⟩
    have hmark := runs_requireMark.mpr ⟨hclose.reaches, rfl, hend, rfl⟩
    exact .bind hopen (.bind hinner (.bind hmark
      (runs_pure.mpr ⟨hmark.reaches_stop, rfl, rfl⟩)))
  have harrowOr : Runs source.toList ((forSource rules source).arrowFunctionOr
      ends ((forSource rules source).grouping false)) start node
      (tokenAt source.toList .standard place).span.stop :=
    runs_arrowFunctionOr harrow hgrouping
  rw [runs_operand hfirst.symm rfl rfl]
  refine ⟨h.reaches, ?_⟩
  simpa [startsUnary, TokenKind.unaryOperator?, Punctuator.unaryOperator?,
    hkind, NameRules.allows, otherOperand] using harrowOr

/-- A name is an operand, as no arrow is behind it. -/
theorem runs_operand_plainName {rules : NameRules} {ends : List TokenKind}
    {name : PlainName} {rest : List Word}
    (h : Ahead source.toList start (.name name :: rest)) :
    Runs source.toList ((forSource rules source).operand ends false) start
      (.mk (tokenAt source.toList .standard start).span
        (.ident (String.ofList name.text)))
      (tokenAt source.toList .standard start).span.stop := by
  have hkind : (tokenAt source.toList .standard start).kind = .identifier :=
    h.kind_eq
  have htext : (tokenAt source.toList .standard start).text =
      String.ofList name.text := h.token_eq.1
  have hnext := h.token_eq.2.2
  have hfirst : tokenAt source.toList .slashIsRegex start =
      tokenAt source.toList .standard start := by
    apply tokenAt_slashIsRegex <;> rw [hkind] <;> exact nofun
  have hallows : (forSource rules source).rules.allows
      (tokenAt source.toList .standard start).kind = true := by
    rw [hkind]
    rfl
  have hidentifier := (forSource rules source).runs_identifier.mpr
    ⟨h.reaches, hallows, rfl, rfl⟩
  rw [runs_operand hfirst.symm rfl rfl]
  refine ⟨h.reaches, ?_⟩
  have hrest := Word.firstKind_ne_arrow rest
  rw [← hnext.kind_eq] at hrest
  rw [htext] at hidentifier
  simpa [startsUnary, TokenKind.unaryOperator?, hkind, hrest,
    NameRules.allows] using hidentifier

theorem rules_ofDepth (rules : NameRules) (depth : Nat) :
    (ofDepth rules depth).rules = rules := by
  induction depth with
  | zero => rfl
  | succ depth ih => exact ih

/-- An operator in front of an operand starts one itself, as modules read
it. -/
theorem exists_runs_operand_unary {ends : List TokenKind}
    {operator : UnaryOperator} {words : List Word} {operand : Node}
    (h : Ahead source.toList start (operator.word :: words))
    (hwords : Word.firstKind words ≠ .punctuator .dot)
    (hoperand : Runs source.toList ((forSource .module source).expressionFrom
      operator.operator.rightPrecedence ends false)
      (tokenAt source.toList .standard start).span.stop operand stop) :
    ∃ span, Runs source.toList
      ((forSource .module source).operand ends false) start
      (.mk span (.unary operator.operator operand)) stop := by
  have hkind : (tokenAt source.toList .standard start).kind.unaryOperator? =
      some operator.operator := by
    rw [h.kind_eq]
    exact operator.isWritten
  have hsecond := h.token_eq.2.2.kind_eq
  have hfirst : tokenAt source.toList .slashIsRegex start =
      tokenAt source.toList .standard start := by
    apply tokenAt_slashIsRegex <;> intro hslash <;> rw [hslash] at hkind <;>
      cases hkind
  have hstarts : (forSource .module source).startsUnary
      (tokenAt source.toList .standard start)
      (tokenAt source.toList .standard
        (tokenAt source.toList .standard start).span.stop) = true := by
    have hrules : (forSource .module source).rules = .module :=
      rules_ofDepth .module _
    rw [startsUnary, hkind, hrules]
    split
    · rename_i hnone
      cases hnone
    · rfl
    · rename_i hyield
      exact absurd (Option.some.inj hyield) operator.isNoYield
    · rw [hsecond]
      exact decide_eq_true hwords
    · rfl
  obtain ⟨span, hnode⟩ : ∃ span, Runs source.toList
      ((forSource .module source).unaryExpression ends false) start
      (.mk span (.unary operator.operator operand)) stop := by
    rw [unaryExpression]
    apply Runs.exists_node
    have hnext := reaches_next h.reaches .standard
    have hconsume : Runs source.toList (consumeIn .slashIsRegex) start
        (tokenAt source.toList .standard start)
        (tokenAt source.toList .standard start).span.stop :=
      runs_consumeIn.mpr ⟨h.reaches, hfirst.symm, rfl⟩
    refine (Disciplined.runs_bind inferInstance fun token => by
      split
      · infer_instance
      · dsimp only
        infer_instance).mpr ⟨_, _, hconsume, ?_⟩
    dsimp only
    rw [hkind]
    simp only [operator.isNoYield, if_false, pure_bind, decide_false,
      Bool.false_and, Bool.false_eq_true]
    exact .bind (runs_peekIn.mpr ⟨hnext, rfl, rfl⟩) (.bind hoperand
      (runs_pure.mpr ⟨hoperand.reaches_stop, rfl, rfl⟩))
  refine ⟨span, ?_⟩
  rw [runs_operand hfirst.symm rfl rfl, hstarts]
  exact ⟨h.reaches, hnode⟩

end Sources

/-! ### Arguments -/

section Arguments

variable (grammar : Grammar)

/-- One step along the arguments of a call. -/
def argumentsStep (found : List Node) : Parser (List Node ⊕ List Node) := do
  if (← peekKind) = .punctuator .parenthesisClose then return .inr found
  let argument ← grammar.argument
  if ← acceptMark .comma then return .inl (argument :: found)
  return .inr (argument :: found)

theorem arguments_eq :
    grammar.arguments = do
      return (← iterate grammar.argumentsStep []).reverse := rfl

end Arguments

section ArgumentSteps

variable {grammar : Grammar} [grammar.IsDisciplined] {text : List Char}
  {start stop : Nat} {found : List Node} {node : Node}

instance (found : List Node) :
    Disciplined false (grammar.argumentsStep found) := by
  rw [argumentsStep]
  infer_instance

instance [grammar.IsAdvancing] (found : List Node) :
    GoesOnIf Sum.isLeft (grammar.argumentsStep found) := by
  rw [argumentsStep]
  infer_instance

theorem runs_argumentsStep_close (hstart : Reaches text start)
    (hkind :
      (tokenAt text .standard start).kind = .punctuator .parenthesisClose) :
    Runs text (grammar.argumentsStep found) start (.inr found) start := by
  rw [argumentsStep]
  refine .bind (runs_peekKind.mpr ⟨hstart, rfl, rfl⟩) ?_
  rw [if_pos hkind]
  exact runs_pure.mpr ⟨hstart, rfl, rfl⟩

theorem runs_argumentsStep_last
    (hkind :
      (tokenAt text .standard start).kind ≠ .punctuator .parenthesisClose)
    (hargument : Runs text grammar.argument start node stop)
    (hcomma : (tokenAt text .standard stop).kind ≠ .punctuator .comma) :
    Runs text (grammar.argumentsStep found) start (.inr (node :: found))
      stop := by
  rw [argumentsStep]
  refine .bind (runs_peekKind.mpr ⟨hargument.reaches_start, rfl, rfl⟩) ?_
  rw [if_neg hkind]
  refine .bind hargument ?_
  rw [runs_acceptMark_bind, if_neg hcomma]
  exact ⟨hargument.reaches_stop,
    runs_pure.mpr ⟨hargument.reaches_stop, rfl, rfl⟩⟩

theorem runs_argumentsStep_more
    (hkind :
      (tokenAt text .standard start).kind ≠ .punctuator .parenthesisClose)
    (hargument : Runs text grammar.argument start node stop)
    (hcomma : (tokenAt text .standard stop).kind = .punctuator .comma) :
    Runs text (grammar.argumentsStep found) start (.inl (node :: found))
      (tokenAt text .standard stop).span.stop := by
  rw [argumentsStep]
  refine .bind (runs_peekKind.mpr ⟨hargument.reaches_start, rfl, rfl⟩) ?_
  rw [if_neg hkind]
  refine .bind hargument ?_
  rw [runs_acceptMark_bind, if_pos hcomma]
  exact ⟨hargument.reaches_stop,
    runs_pure.mpr ⟨reaches_next hargument.reaches_stop _, rfl, rfl⟩⟩

end ArgumentSteps

/-! ### Trees -/

section Trees

variable {source : String} {ends : List TokenKind} {least start stop : Nat}
  {node : Node}

/-- An operand with operators behind it, which may go on. -/
def Begins (source : String) (ends : List TokenKind) (least start : Nat)
    (node : Node) (stop : Nat) : Prop :=
  ∃ first, Runs source.toList ((forSource .module source).operand ends false)
      start first.1 first.2 ∧
    Relation.ReflTransGen (fun before after : Node × Nat =>
      Runs source.toList ((forSource .module source).extendExpression least ends
        false before.1) before.2 (.inl after.1) after.2) first (node, stop)

theorem begins_of_operand (h : Runs source.toList
    ((forSource .module source).operand ends false) start node stop) :
    Begins source ends least start node stop :=
  ⟨(node, stop), h, .refl⟩

theorem Begins.extend {place : Nat} {left : Node}
    (h : Begins source ends least start left place)
    (hrun : Runs source.toList ((forSource .module source).extendExpression
      least ends false left) place (.inl node) stop) :
    Begins source ends least start node stop := by
  obtain ⟨first, hfirst, hsteps⟩ := h
  exact ⟨first, hfirst, hsteps.tail hrun⟩

theorem Begins.runs {words : List Word}
    (h : Begins source ends least start node stop)
    (hahead : Ahead source.toList stop words)
    (hstops : Stops ends least (Word.firstKind words)) :
    Runs source.toList ((forSource .module source).expressionFrom least ends
      false) start node stop := by
  obtain ⟨first, hfirst, hsteps⟩ := h
  refine runs_expression_iff.mpr ⟨first.1, first.2, hfirst, ?_⟩
  have hdone : Repeats source.toList ((forSource .module
      source).extendExpression least ends false) node stop node stop :=
    .done (runs_extendExpression_of_stops hahead hstops)
  clear hfirst
  induction hsteps using Relation.ReflTransGen.head_induction_on with
  | refl => exact hdone
  | head hstep _ ih => exact .more hstep ih

/-- Wherever a tree is ahead in a source, it is read. -/
def IsRead (source : String) (tree : OperatorTree) : Prop :=
  ∀ ⦃ends : List TokenKind⦄ ⦃least start : Nat⦄ ⦃rest : List Word⦄,
    Ahead source.toList start (tree.words ++ rest) →
    least ≤ tree.precedence → Closing ends least →
    Stops ends tree.edge (Word.firstKind rest) →
    ∃ node stop, Begins source ends least start node stop ∧
      node.Shows tree ∧ Ahead source.toList stop rest

namespace IsRead

variable {tree : OperatorTree} {rest : List Word}

/-- A tree is read up to a mark that closes it. -/
theorem runs_until (h : IsRead source tree) {mark : Punctuator}
    (hmark : mark ≠ .equalsChevronRight)
    (hahead : Ahead source.toList start
      (tree.words ++ .mark mark hmark :: rest))
    (hcloses : (TokenKind.punctuator mark).operatorBehind? = none) :
    ∃ node stop, Runs source.toList ((forSource .module source).expressionFrom 1
        [.punctuator mark] false) start node stop ∧
      node.Shows tree ∧
      Ahead source.toList stop (.mark mark hmark :: rest) := by
  obtain ⟨node, stop, hbegins, hshows, hrest⟩ := h hahead
    tree.one_le_precedence (closing_singleton hcloses 1)
    (.inl (List.mem_singleton_self _))
  exact ⟨node, stop, hbegins.runs hrest (.inl (List.mem_singleton_self _)),
    hshows, hrest⟩

/-- A tree is read where it has to bind as tightly as an operator asks for. -/
theorem enclosed (h : IsRead source tree) (harrow : ¬ HasArrow source.toList)
    {tightness : Nat}
    (hahead : Ahead source.toList start
      (tree.enclosed tightness tree.words ++ rest))
    (hleast : least ≤ tightness) (hends : Closing ends least)
    (hstops : tightness ≤ tree.precedence →
      Stops ends tree.edge (Word.firstKind rest)) :
    ∃ node stop, Begins source ends least start node stop ∧
      node.Shows tree ∧ Ahead source.toList stop rest := by
  rw [OperatorTree.enclosed] at hahead
  split at hahead
  · rw [List.cons_append, List.append_assoc] at hahead
    obtain ⟨node, place, hrun, hshows, hclose⟩ :=
      h.runs_until (by decide) hahead.token_eq.2.2 rfl
    exact ⟨node, _, begins_of_operand (runs_operand_grouping harrow hahead hrun
      hclose), hshows, hclose.token_eq.2.2⟩
  · rename_i htight
    have htight := Nat.le_of_not_lt htight
    exact h hahead (Nat.le_trans hleast htight) hends (hstops htight)

/-- A tree on the left of an operator is read up to the operator. -/
theorem begins_left (h : IsRead source tree) (harrow : ¬ HasArrow source.toList)
    {word : Word} {operator : Operator}
    (hahead : Ahead source.toList start
      (tree.enclosed operator.leftPrecedence tree.words ++ word :: rest))
    (hword : word.kind.operatorBehind? = some operator)
    (hoperator : operator.precedence ≠ 2)
    (hleast : least ≤ operator.precedence) (hends : Closing ends least) :
    ∃ node stop, Begins source ends least start node stop ∧
      node.Shows tree ∧ Ahead source.toList stop (word :: rest) :=
  h.enclosed harrow hahead
    (Nat.le_trans hleast operator.precedence_le_leftPrecedence) hends
    fun htight => .inr ⟨operator, hword, OperatorTree.lt_edge htight hoperator⟩

/-- A tree on the right of an operator is read to its end. -/
theorem runs_right (h : IsRead source tree) (harrow : ¬ HasArrow source.toList)
    (hahead : Ahead source.toList start
      (tree.enclosed least tree.words ++ rest))
    (hleast : least ≠ 3) (hends : Closing ends least)
    (hstops : Stops ends least (Word.firstKind rest)) :
    ∃ node stop, Runs source.toList ((forSource .module source).expressionFrom
        least ends false) start node stop ∧
      node.Shows tree ∧ Ahead source.toList stop rest := by
  obtain ⟨node, stop, hbegins, hshows, hrest⟩ := h.enclosed harrow hahead
    (Nat.le_refl _) hends
    fun htight => hstops.mono (OperatorTree.le_edge htight hleast)
  exact ⟨node, stop, hbegins.runs hrest hstops, hshows, hrest⟩

/-- An argument is read up to the comma or the parenthesis behind it. -/
theorem exists_runs_argument (h : IsRead source tree) (isSpread : Bool)
    (harrow : ¬ HasArrow source.toList)
    (hahead : Ahead source.toList start
      ((if isSpread then [.mark .dotDotDot] else []) ++
        (tree.enclosed 2 tree.words ++ rest)))
    (hrest : Word.firstKind rest ∈
      [.punctuator .comma, .punctuator .parenthesisClose]) :
    ∃ node stop, Runs source.toList (forSource .module source).argument start
        node stop ∧
      node.ShowsArgument (isSpread, tree) ∧
      Ahead source.toList stop rest := by
  have hclosing :
      Closing [.punctuator .comma, .punctuator .parenthesisClose] 2 := by
    intro kind hkind operator hoperator
    simp only [List.mem_cons, List.not_mem_nil, or_false] at hkind
    rcases hkind with rfl | rfl <;> cases hoperator
    exact ⟨by decide, by decide⟩
  have hvalue : ∀ {place : Nat},
      Ahead source.toList place (tree.enclosed 2 tree.words ++ rest) →
      ∃ value stop, Runs source.toList
        ((forSource .module source).expressionInList .parenthesisClose) place
        value stop ∧ value.Shows tree ∧ Ahead source.toList stop rest := by
    intro place hplace
    obtain ⟨value, stop, hrun, hshows, hnext⟩ :=
      h.runs_right harrow hplace (by decide) hclosing (.inl hrest)
    exact ⟨value, stop,
      (runs_expression_comma (List.mem_cons_self ..)).mpr hrun, hshows, hnext⟩
  have hspread : ∃ value stop, Runs source.toList (do
        let isSpread ← acceptMark .dotDotDot
        let value ←
          (forSource .module source).expressionInList .parenthesisClose
        return Shape.argument isSpread value) start (.argument isSpread value)
        stop ∧ value.Shows tree ∧ Ahead source.toList stop rest := by
    cases isSpread with
    | true =>
        obtain ⟨value, stop, hrun, hshows, hnext⟩ :=
          hvalue hahead.token_eq.2.2
        refine ⟨value, stop, ?_, hshows, hnext⟩
        have hfirst : (tokenAt source.toList .standard start).kind =
            .punctuator .dotDotDot := hahead.kind_eq
        rw [runs_acceptMark_bind, if_pos hfirst]
        exact ⟨hahead.reaches,
          .bind hrun (runs_pure.mpr ⟨hnext.reaches, rfl, rfl⟩)⟩
    | false =>
        obtain ⟨value, stop, hrun, hshows, hnext⟩ := hvalue hahead
        refine ⟨value, stop, ?_, hshows, hnext⟩
        have hfirst : (tokenAt source.toList .standard start).kind ≠
            .punctuator .dotDotDot := by
          obtain ⟨word, others, hwords, hword⟩ :=
            (tree.startsOperand_words.enclosed 2).append rest
          rw [hahead.kind_eq, if_neg Bool.false_ne_true, List.nil_append,
            hwords]
          exact hword .dotDotDot (by decide)
        rw [runs_acceptMark_bind, if_neg hfirst]
        exact ⟨hahead.reaches,
          .bind hrun (runs_pure.mpr ⟨hnext.reaches, rfl, rfl⟩)⟩
  obtain ⟨value, stop, hrun, hshows, hnext⟩ := hspread
  obtain ⟨span, hnode⟩ := hrun.exists_node
  exact ⟨_, stop, hnode, .mk span isSpread hshows, hnext⟩

/-- Arguments are read one after the other. -/
theorem exists_repeats_argumentsStep :
    {arguments : List (Bool × OperatorTree)} → {start : Nat} →
    (∀ argument ∈ arguments, IsRead source argument.2) →
    ¬ HasArrow source.toList →
    Ahead source.toList start (OperatorTree.argumentWords arguments ++
      .mark .parenthesisClose :: rest) →
    ∃ nodes stop, List.Forall₂ Node.ShowsArgument nodes arguments ∧
      Ahead source.toList stop (.mark .parenthesisClose :: rest) ∧
      ∀ found, Repeats source.toList (forSource .module source).argumentsStep
        found start (nodes.reverse ++ found) stop
  | [], start, _, _, hahead => by
      rw [OperatorTree.argumentWords, List.nil_append] at hahead
      exact ⟨[], start, .nil, hahead, fun found =>
        .done (runs_argumentsStep_close hahead.reaches hahead.kind_eq)⟩
  | (isSpread, tree) :: arguments, start, hread, harrow, hahead => by
      have hfirst : (tokenAt source.toList .standard start).kind ≠
          .punctuator .parenthesisClose := by
        obtain ⟨word, others, hwords, hword⟩ :=
          OperatorTree.exists_argumentWords_cons isSpread tree arguments
        rw [hahead.kind_eq, hwords]
        exact hword
      have htree := hread _ (List.mem_cons_self ..)
      cases arguments with
      | nil =>
          rw [OperatorTree.argumentWords, List.append_assoc, List.append_assoc]
            at hahead
          obtain ⟨node, stop, hrun, hshows, hnext⟩ :=
            htree.exists_runs_argument isSpread harrow hahead
              (List.mem_cons_of_mem _ (List.mem_cons_self ..))
          have hcomma : (tokenAt source.toList .standard stop).kind ≠
              .punctuator .comma := by
            rw [hnext.kind_eq]
            rintro ⟨⟩
          exact ⟨[node], stop, .cons hshows .nil, hnext, fun found =>
            .done (runs_argumentsStep_last hfirst hrun hcomma)⟩
      | cons other arguments =>
          rw [OperatorTree.argumentWords, List.append_assoc, List.append_assoc,
            List.cons_append] at hahead
          obtain ⟨node, place, hrun, hshows, hcomma⟩ :=
            htree.exists_runs_argument isSpread harrow hahead
              (List.mem_cons_self ..)
          obtain ⟨nodes, stop, hothers, hnext, hrepeats⟩ :=
            exists_repeats_argumentsStep
              (fun argument hargument =>
                hread argument (List.mem_cons_of_mem _ hargument))
              harrow hcomma.token_eq.2.2
          refine ⟨node :: nodes, stop, .cons hshows hothers, hnext,
            fun found => ?_⟩
          rw [List.reverse_cons, List.append_assoc, List.singleton_append]
          exact .more (runs_argumentsStep_more hfirst hrun hcomma.kind_eq)
            (hrepeats (node :: found))

/-- Arguments are read up to the parenthesis behind them. -/
theorem exists_runs_arguments {arguments : List (Bool × OperatorTree)}
    (harguments : ∀ argument ∈ arguments, IsRead source argument.2)
    (harrow : ¬ HasArrow source.toList)
    (hahead : Ahead source.toList start (OperatorTree.argumentWords arguments ++
      .mark .parenthesisClose :: rest)) :
    ∃ nodes stop, Runs source.toList (forSource .module source).arguments start
        nodes stop ∧
      List.Forall₂ Node.ShowsArgument nodes arguments ∧
      Ahead source.toList stop (.mark .parenthesisClose :: rest) := by
  obtain ⟨nodes, stop, hshows, hclose, hrepeats⟩ :=
    exists_repeats_argumentsStep harguments harrow hahead
  refine ⟨nodes, stop, ?_, hshows, hclose⟩
  rw [arguments_eq]
  refine .bind (runs_iterate.mpr (hrepeats [])) ?_
  rw [List.append_nil, List.reverse_reverse]
  exact runs_pure.mpr ⟨hclose.reaches, rfl, rfl⟩

theorem name (plain : PlainName) : IsRead source (.name plain) := by
  intro ends least start rest hahead _ _ _
  rw [OperatorTree.words] at hahead
  exact ⟨_, _, begins_of_operand (runs_operand_plainName hahead), .name _ _,
    hahead.token_eq.2.2⟩

theorem unary (operator : UnaryOperator) (h : IsRead source tree)
    (harrow : ¬ HasArrow source.toList) :
    IsRead source (.unary operator tree) := by
  intro ends least start rest hahead hleast hends hstops
  rw [OperatorTree.words, List.cons_append] at hahead
  have hprecedence := operator.operator.precedence_le_rightPrecedence
  obtain ⟨operand, stop, hrun, hshows, hrest⟩ :=
    h.runs_right harrow hahead.token_eq.2.2 operator.rightPrecedence_ne_three
      (hends.mono (Nat.le_trans hleast hprecedence)) hstops
  have hdot : Word.firstKind (tree.enclosed operator.operator.rightPrecedence
      tree.words ++ rest) ≠ .punctuator .dot := by
    obtain ⟨word, others, hwords, hword⟩ :=
      (tree.startsOperand_words.enclosed _).append rest
    rw [hwords]
    exact hword .dot (by decide)
  obtain ⟨span, hoperand⟩ := exists_runs_operand_unary hahead hdot hrun
  exact ⟨_, _, begins_of_operand hoperand, .unary span operator hshows, hrest⟩

theorem update (operator : UpdateOperator) (h : IsRead source tree)
    (harrow : ¬ HasArrow source.toList) :
    IsRead source (.update operator tree) := by
  intro ends least start rest hahead hleast hends _
  rw [OperatorTree.words, List.append_assoc] at hahead
  obtain ⟨operand, place, hbegins, hshows, hnext⟩ := h.begins_left harrow hahead
    (by cases operator <;> rfl) (by cases operator <;> decide) hleast hends
  exact ⟨_, _, hbegins.extend (runs_extendExpression_of_update hnext hends
    hleast), .update _ operator hshows, hnext.token_eq.2.2⟩

theorem binary {right : OperatorTree} (operator : InfixOperator)
    (hleft : IsRead source tree) (hright : IsRead source right)
    (harrow : ¬ HasArrow source.toList) :
    IsRead source (.binary operator tree right) := by
  intro ends least start rest hahead hleast hends hstops
  rw [OperatorTree.words, List.append_assoc, List.cons_append] at hahead
  obtain ⟨left, place, hbegins, hleftShows, hnext⟩ := hleft.begins_left harrow
    hahead (operatorBehind?_infixOperator operator.isWritten)
    operator.precedence_ne_two hleast hends
  have hprecedence := operator.operator.precedence_le_rightPrecedence
  obtain ⟨value, stop, hrun, hrightShows, hrest⟩ := hright.runs_right harrow
    hnext.token_eq.2.2 operator.rightPrecedence_ne_three
    (hends.mono (Nat.le_trans hleast hprecedence)) hstops
  have hoperation : Runs source.toList ((forSource .module source).operationOn
      left operator.operator ends false)
      (tokenAt source.toList .standard place).span.stop
      (spanning left.span value.span (.binary operator.operator left value))
      stop := by
    rw [operationOn_of_joins operator.joins]
    exact .bind hrun (runs_pure.mpr ⟨hrest.reaches, rfl, rfl⟩)
  exact ⟨_, _, hbegins.extend (runs_extendExpression_infixOperator hnext
    hends operator.isWritten hleast hoperation),
    .binary _ operator hleftShows hrightShows, hrest⟩

theorem assignment (operator : AssignmentOperator) (target : PlainName)
    (h : IsRead source tree) (harrow : ¬ HasArrow source.toList) :
    IsRead source (.assignment operator target tree) := by
  intro ends least start rest hahead hleast hends hstops
  rw [OperatorTree.words, List.cons_append, List.cons_append] at hahead
  have hnext := hahead.token_eq.2.2
  have hprecedence := operator.operator.precedence_le_rightPrecedence
  obtain ⟨value, stop, hrun, hshows, hrest⟩ := h.runs_right harrow
    hnext.token_eq.2.2 operator.rightPrecedence_ne_three
    (hends.mono (Nat.le_trans hleast hprecedence)) hstops
  exact ⟨_, _, (begins_of_operand (runs_operand_plainName hahead)).extend
    (runs_extendExpression_infixOperator hnext hends operator.isWritten
      hleast (runs_operationOn_assignment operator.isAssignment hrun)),
    .assignment _ _ operator target hshows, hrest⟩

theorem conditional {consequent alternate : OperatorTree}
    (htest : IsRead source tree) (hconsequent : IsRead source consequent)
    (halternate : IsRead source alternate)
    (harrow : ¬ HasArrow source.toList) :
    IsRead source (.conditional tree consequent alternate) := by
  intro ends least start rest hahead hleast hends hstops
  rw [OperatorTree.words, List.append_assoc, List.cons_append,
    List.append_assoc, List.cons_append] at hahead
  obtain ⟨test, place, hbegins, htestShows, hquestion⟩ :=
    htest.begins_left harrow hahead rfl (by decide) hleast hends
  obtain ⟨first, colonPlace, hfirst, hfirstShows, hcolon⟩ :=
    hconsequent.runs_until (by decide) hquestion.token_eq.2.2 rfl
  obtain ⟨second, stop, hsecond, hsecondShows, hrest⟩ :=
    halternate.runs_right harrow hcolon.token_eq.2.2 (by decide)
      hends.of_assignment hstops
  have hoperation : Runs source.toList ((forSource .module source).operationOn
      test .conditional ends false)
      (tokenAt source.toList .standard place).span.stop
      (spanning test.span second.span (.conditional test first second))
      stop := by
    have hmark := runs_requireMark.mpr
      ⟨hcolon.reaches, rfl, hcolon.kind_eq, rfl⟩
    change Runs _ ((forSource .module source).conditionalOn test ends false) _ _
      _
    rw [conditionalOn]
    exact .bind hfirst (.bind hmark (.bind hsecond
      (runs_pure.mpr ⟨hrest.reaches, rfl, rfl⟩)))
  exact ⟨_, _, hbegins.extend (runs_extendExpression_infixOperator hquestion
    hends rfl hleast hoperation),
    .conditional _ htestShows hfirstShows hsecondShows, hrest⟩

theorem member (property : PlainName) (h : IsRead source tree)
    (harrow : ¬ HasArrow source.toList) :
    IsRead source (.member tree property) := by
  intro ends least start rest hahead hleast hends _
  rw [OperatorTree.words, List.append_assoc] at hahead
  obtain ⟨object, place, hbegins, hshows, hdot⟩ :=
    h.begins_left harrow hahead rfl (by decide) hleast hends
  have hname := hdot.token_eq.2.2
  have htext := hname.token_eq.1
  have hoperation : Runs source.toList ((forSource .module source).operationOn
      object .memberAccess ends false)
      (tokenAt source.toList .standard place).span.stop
      (spanning object.span (tokenAt source.toList .standard
        (tokenAt source.toList .standard place).span.stop).span
        (.member false object (String.ofList property.text)))
      (tokenAt source.toList .standard
        (tokenAt source.toList .standard place).span.stop).span.stop := by
    change Runs _ (memberOf object false) _ _ _
    rw [memberOf]
    refine .bind (runs_consume.mpr ⟨hname.reaches, rfl, rfl⟩) ?_
    rw [hname.kind_eq, htext]
    exact runs_pure.mpr ⟨hname.token_eq.2.2.reaches, rfl, rfl⟩
  exact ⟨_, _, hbegins.extend (runs_extendExpression_infixOperator hdot hends
    rfl hleast hoperation), .member _ property hshows, hname.token_eq.2.2⟩

theorem computedMember {key : OperatorTree} (h : IsRead source tree)
    (hkey : IsRead source key) (harrow : ¬ HasArrow source.toList) :
    IsRead source (.computedMember tree key) := by
  intro ends least start rest hahead hleast hends _
  rw [OperatorTree.words, List.append_assoc, List.cons_append,
    List.append_assoc] at hahead
  obtain ⟨object, place, hbegins, hshows, hopen⟩ :=
    h.begins_left harrow hahead rfl (by decide) hleast hends
  obtain ⟨value, closePlace, hvalue, hvalueShows, hclose⟩ :=
    hkey.runs_until (by decide) hopen.token_eq.2.2 rfl
  have hoperation : Runs source.toList ((forSource .module source).operationOn
      object .computedMemberAccess ends false)
      (tokenAt source.toList .standard place).span.stop
      (spanning object.span (tokenAt source.toList .standard closePlace).span
        (.computedMember false object value))
      (tokenAt source.toList .standard closePlace).span.stop := by
    have hmark := runs_requireMark.mpr
      ⟨hclose.reaches, rfl, hclose.kind_eq, rfl⟩
    change Runs _ ((forSource .module source).computedMemberOf object false) _ _
      _
    rw [computedMemberOf]
    exact .bind hvalue (.bind hmark
      (runs_pure.mpr ⟨hmark.reaches_stop, rfl, rfl⟩))
  exact ⟨_, _, hbegins.extend (runs_extendExpression_infixOperator hopen hends
    rfl hleast hoperation), .computedMember _ hshows hvalueShows,
    hclose.token_eq.2.2⟩

theorem call {arguments : List (Bool × OperatorTree)} (h : IsRead source tree)
    (harguments : ∀ argument ∈ arguments, IsRead source argument.2)
    (harrow : ¬ HasArrow source.toList) :
    IsRead source (.call tree arguments) := by
  intro ends least start rest hahead hleast hends _
  rw [OperatorTree.words, List.append_assoc, List.cons_append,
    List.append_assoc] at hahead
  obtain ⟨callee, place, hbegins, hshows, hopen⟩ :=
    h.begins_left harrow hahead rfl (by decide) hleast hends
  obtain ⟨nodes, closePlace, hnodes, hnodesShow, hclose⟩ :=
    exists_runs_arguments harguments harrow hopen.token_eq.2.2
  have hoperation : Runs source.toList ((forSource .module source).operationOn
      callee .call ends false)
      (tokenAt source.toList .standard place).span.stop
      (spanning callee.span (tokenAt source.toList .standard closePlace).span
        (.call false callee nodes))
      (tokenAt source.toList .standard closePlace).span.stop := by
    have hmark := runs_requireMark.mpr
      ⟨hclose.reaches, rfl, hclose.kind_eq, rfl⟩
    change Runs _ ((forSource .module source).callOn callee false) _ _ _
    rw [callOn]
    exact .bind hnodes (.bind hmark
      (runs_pure.mpr ⟨hmark.reaches_stop, rfl, rfl⟩))
  exact ⟨_, _, hbegins.extend (runs_extendExpression_infixOperator hopen hends
    rfl hleast hoperation), .call _ hshows hnodesShow, hclose.token_eq.2.2⟩

end IsRead

mutual

/-- In a source without an arrow every tree is read. -/
theorem isRead (harrow : ¬ HasArrow source.toList) :
    (tree : OperatorTree) → IsRead source tree
  | .name plain => .name plain
  | .unary operator operand => (isRead harrow operand).unary operator harrow
  | .update operator operand => (isRead harrow operand).update operator harrow
  | .binary operator left right =>
      (isRead harrow left).binary operator (isRead harrow right) harrow
  | .assignment operator target value =>
      (isRead harrow value).assignment operator target harrow
  | .conditional test consequent alternate =>
      (isRead harrow test).conditional (isRead harrow consequent)
        (isRead harrow alternate) harrow
  | .member object property => (isRead harrow object).member property harrow
  | .computedMember object key =>
      (isRead harrow object).computedMember (isRead harrow key) harrow
  | .call callee arguments =>
      (isRead harrow callee).call (isRead_arguments harrow arguments) harrow

theorem isRead_arguments (harrow : ¬ HasArrow source.toList) :
    (arguments : List (Bool × OperatorTree)) →
    ∀ argument ∈ arguments, IsRead source argument.2
  | [], _, hmem => absurd hmem List.not_mem_nil
  | (_, tree) :: arguments, argument, hmem => by
      rcases List.mem_cons.mp hmem with rfl | hmem
      · exact isRead harrow tree
      · exact isRead_arguments harrow arguments argument hmem

end

/-- What is printed has spaces between its words and no arrow. -/
theorem not_hasArrow_print (tree : OperatorTree) :
    ¬ HasArrow tree.print.toList := by
  rintro ⟨mode, cursor, ⟨front, htext, _⟩, hkind⟩
  have harrow := infix_of_lexToken hkind
  have hrest : cursor.rest <:+: tree.print.toList :=
    ⟨front, [], by rw [List.append_nil, htext]⟩
  rw [OperatorTree.print, String.toList_ofList] at hrest
  exact Word.not_arrow_infix_spaced tree.words (harrow.trans hrest)

/-- An expression of operators that is printed is read back as it was. -/
theorem run_print (tree : OperatorTree) : ∃ node after,
    ((forSource .module tree.print).expression [.endOfInput]).run tree.print =
      .ok (node, after) ∧ node.Shows tree := by
  have hstream := Program.reads_ofSource tree.print.toList
  have hahead : Ahead tree.print.toList 0 (tree.words ++ []) := by
    refine ⟨⟨_, hstream, rfl⟩, [], nofun, ?_⟩
    rw [List.append_nil, List.nil_append, OperatorTree.print,
      String.toList_ofList]
    exact Cursor.isIn_ofText _
  have hends : Word.firstKind [] ∈ [TokenKind.endOfInput] :=
    List.mem_singleton_self _
  obtain ⟨node, stop, hbegins, hshows, hrest⟩ :=
    isRead (not_hasArrow_print tree) tree hahead tree.one_le_precedence
      (closing_singleton rfl 1) (.inl hends)
  have hexpression : Disciplined false
      ((forSource .module tree.print).expression [.endOfInput]) := inferInstance
  obtain ⟨after, hrun, _⟩ := hexpression.exists_run
    (hbegins.runs hrest (.inl hends)) hstream rfl
  exact ⟨node, after, Program.run_eq_ok_iff.mpr hrun, hshows⟩

end Trees

end Grammar

end Bundler
