import Bundler.Proofs.Parser.ExpressionRuns

/-!
# Patterns are literals

What declarations read as a pattern, expressions read as a literal, and as the
target of an assignment it means the same pattern.  From a place on both rules
consume the same tokens: a default is read as an assignment, whose left operand
is turned into a pattern at once, a rest as a spread, and a shorthand with a
default as a member that is kept for patterns only.
-/

set_option synthInstance.maxSize 1000

namespace Bundler

open TokenStream

namespace Node

/-! ### Patterns that are the same -/

mutual

/-- Two patterns are the same, but for the kinds of token that are recorded for
the keys of shorthands. -/
inductive SamePattern : Node → Node → Prop
  | name (span : Span) (name : String) :
      SamePattern (.mk span (.identPattern name))
        (.mk span (.identPattern name))
  | array {span : Span} {elements elements' : List (PatternElement Node)}
      {rest rest' : Option Node} :
      List.Forall₂ SameElement elements elements' →
      Option.Rel SamePattern rest rest' →
      SamePattern (.mk span (.arrayPattern elements rest))
        (.mk span (.arrayPattern elements' rest'))
  | object {span : Span} {properties properties' : List Node}
      {rest : Option Node} :
      List.Forall₂ SameProperty properties properties' →
      SamePattern (.mk span (.objectPattern properties rest))
        (.mk span (.objectPattern properties' rest))

inductive SameElement : PatternElement Node → PatternElement Node → Prop
  | hole : SameElement .hole .hole
  | item {target target' : Node} {initial : Option Node} :
      SamePattern target target' →
      SameElement (.item target initial) (.item target' initial)

inductive SameProperty : Node → Node → Prop
  | keyed {span : Span} {key : PropertyKey Node} {target target' : Node}
      {initial : Option Node} : SamePattern target target' →
      SameProperty (.mk span (.patternProperty key target false initial))
        (.mk span (.patternProperty key target' false initial))
  | shorthand {span keySpan : Span} {text : String} {kind kind' : TokenKind}
      {target : Node} {initial : Option Node} :
      SameProperty
        (.mk span (.patternProperty (.literal
          (.mk keySpan (.literalKey text kind))) target true initial))
        (.mk span (.patternProperty (.literal
          (.mk keySpan (.literalKey text kind'))) target true initial))

end

theorem SamePattern.span_eq {target pattern : Node}
    (h : target.SamePattern pattern) : target.span = pattern.span := by
  cases h <;> rfl

/-- A pattern means itself. -/
theorem SamePattern.toPattern_eq {target pattern : Node}
    (h : target.SamePattern pattern) : target.toPattern = .ok target := by
  cases h <;> rw [toPattern]

/-! ### What literals mean -/

/-- An expression means a pattern wherever it is a target. -/
structure Means (node target : Node) : Prop where
  toPattern_eq : node.toPattern = .ok target
  toDefaultedPattern_eq : node.toDefaultedPattern = .ok (target, none)
  toAssignmentTarget_eq :
    node.toAssignmentTarget .assignment = .ok target

theorem means_ident (span : Span) (name : String) :
    Means (.mk span (.ident name)) (.mk span (.identPattern name)) := by
  have htarget : toPattern (.mk span (.ident name)) =
      .ok (.mk span (.identPattern name)) := by rw [toPattern]
  refine ⟨htarget, ?_, ?_⟩
  · simp [toDefaultedPattern, htarget, bind, Except.bind, pure, Except.pure]
  · simp [toAssignmentTarget, shape, htarget]

theorem means_array {span : Span} {elements : List (ArrayElement Node)}
    {targets : List (PatternElement Node)} {rest : Option Node}
    (h : elementsToPattern span elements = .ok (targets, rest)) :
    Means (.mk span (.array elements))
      (.mk span (.arrayPattern targets rest)) := by
  have htarget : toPattern (.mk span (.array elements)) =
      .ok (.mk span (.arrayPattern targets rest)) := by
    rw [toPattern, h]
    rfl
  refine ⟨htarget, ?_, ?_⟩
  · simp [toDefaultedPattern, htarget, bind, Except.bind, pure, Except.pure]
  · simp [toAssignmentTarget, shape, htarget]

theorem means_object {span : Span} {members properties : List Node}
    {rest : Option Node}
    (h : membersToPattern members = .ok (properties, rest)) :
    Means (.mk span (.object members))
      (.mk span (.objectPattern properties rest)) := by
  have htarget : toPattern (.mk span (.object members)) =
      .ok (.mk span (.objectPattern properties rest)) := by
    rw [toPattern, h]
    rfl
  refine ⟨htarget, ?_, ?_⟩
  · simp [toDefaultedPattern, htarget, bind, Except.bind, pure, Except.pure]
  · simp [toAssignmentTarget, shape, htarget]

end Node

namespace TokenKind

/-- Kinds of tokens that may stand behind a target. -/
def endsTarget : TokenKind → Bool
  | .endOfInput => true
  | .punctuator mark =>
      match mark with
      | .equals | .comma | .bracketClose | .braceClose => true
      | _ => false
  | _ => false

theorem ne_of_endsTarget {kind other : TokenKind}
    (h : kind.endsTarget = true) (hother : other.endsTarget = false) :
    kind ≠ other := by
  rintro rfl
  exact Bool.noConfusion (h.symm.trans hother)

theorem endsTarget_of_contains {kind : TokenKind} {mark : Punctuator}
    (h : [.punctuator .comma, .punctuator mark].contains kind = true)
    (hmark : (punctuator mark).endsTarget = true) :
    kind.endsTarget = true := by
  simp only [List.contains_iff_mem, List.mem_cons, List.not_mem_nil,
    or_false] at h
  rcases h with rfl | rfl
  · rfl
  · exact hmark

end TokenKind

namespace Grammar

open Bundler.Parser

section Names

variable {grammar : Grammar} [grammar.IsDisciplined] {text : List Char}
  {start : Nat} {ends : List TokenKind} {lineEnds : Bool}

/-- A name with a token behind it that may stand behind a target is an
operand. -/
theorem runs_operand_name (hstart : Reaches text start)
    (hallows :
      grammar.rules.allows (tokenAt text .standard start).kind = true)
    (hends : (tokenAt text .standard
      (tokenAt text .standard start).span.stop).kind.endsTarget = true) :
    Runs text (grammar.operand ends lineEnds) start
      (.mk (tokenAt text .standard start).span
        (.ident (tokenAt text .standard start).text))
      (tokenAt text .standard start).span.stop := by
  have hfirst := tokenAt_slashIsRegex
    (NameRules.ne_punctuator_of_allows hallows .slash)
    (NameRules.ne_punctuator_of_allows hallows .slashEquals)
  have hidentifier := grammar.runs_identifier.mpr
    ⟨hstart, hallows, rfl, rfl⟩
  rw [runs_operand hfirst.symm rfl rfl,
    NameRules.startsUnary_of_allows hallows]
  refine ⟨hstart, ?_⟩
  generalize tokenAt text .standard
    (tokenAt text .standard start).span.stop = second at hends
  have harrow : second.kind ≠ .punctuator .equalsChevronRight :=
    TokenKind.ne_of_endsTarget hends rfl
  have hparenthesis : second.kind ≠ .punctuator .parenthesisOpen :=
    TokenKind.ne_of_endsTarget hends rfl
  have hfunction : second.kind ≠ .keyword .functionWord :=
    TokenKind.ne_of_endsTarget hends rfl
  have hname : grammar.rules.allows second.kind = false := by
    cases hkind : second.kind with
    | punctuator mark => rfl
    | endOfInput => rfl
    | _ =>
        rw [hkind] at hends
        cases hends
  simpa [asyncOperand, harrow, hparenthesis, hfunction, hname, hallows]
    using hidentifier

/-- A literal in brackets or braces is the operand that starts with it. -/
theorem runs_operand_literal {mark : Punctuator} {node : Node} {stop : Nat}
    (hkind : (tokenAt text .standard start).kind = .punctuator mark)
    (hmark : mark = .bracketOpen ∨ mark = .braceOpen)
    (hrun : Runs text (if mark = .bracketOpen then grammar.arrayLiteral
      else grammar.objectLiteral) start node stop) :
    Runs text (grammar.operand ends lineEnds) start node stop := by
  have hfirst : tokenAt text .slashIsRegex start =
      tokenAt text .standard start := by
    apply tokenAt_slashIsRegex <;> rw [hkind] <;> rcases hmark with rfl | rfl
    all_goals exact nofun
  rw [runs_operand hfirst.symm rfl rfl]
  refine ⟨hrun.reaches_start, ?_⟩
  rcases hmark with rfl | rfl
  · simpa [startsUnary, TokenKind.unaryOperator?, Punctuator.unaryOperator?,
      hkind, NameRules.allows, otherOperand] using hrun
  · simpa [startsUnary, TokenKind.unaryOperator?, Punctuator.unaryOperator?,
      hkind, NameRules.allows, otherOperand] using hrun

end Names

section Values

variable {rules : NameRules} {source : String} {start between stop : Nat}
  {pattern : Node} {initial : Option Node}

/-- From one place to another an operand is read that means a pattern. -/
def ReadsAsTarget (rules : NameRules) (source : String) (start stop : Nat)
    (pattern : Node) : Prop :=
  ∀ ends lineEnds, ∃ node target,
    Runs source.toList ((forSource rules source).operand ends lineEnds) start
      node stop ∧ node.Means target ∧ target.SamePattern pattern

theorem runs_extendExpression_assignment {ends : List TokenKind}
    {left target value : Node}
    (hkind : (tokenAt source.toList .standard start).kind =
      .punctuator .equals)
    (hequals : .punctuator .equals ∉ ends) (hcomma : .punctuator .comma ∈ ends)
    (hstart : Reaches source.toList start)
    (htarget : left.toAssignmentTarget .assignment = .ok target)
    (hvalue : Runs source.toList
      ((forSource rules source).expressionFrom 1 ends false)
      (tokenAt source.toList .standard start).span.stop value stop) :
    Runs source.toList ((forSource rules source).extendExpression 1 ends false
        left) start
      (.inl (spanning target.span value.span
        (.binary .assignment target value))) stop := by
  have hends : ends.contains (TokenKind.punctuator .equals) = false := by
    rw [← Bool.not_eq_true, List.contains_iff_mem]
    exact hequals
  have hupdate : postfixOperator? (tokenAt source.toList .standard start) =
      none := by
    rw [postfixOperator?, hkind]
    split <;> rfl
  have htemplate : startsTemplate (tokenAt source.toList .standard start) =
      false := by
    simp [startsTemplate, hkind]
  have hbinary : (TokenKind.punctuator .equals).infixOperator? =
      some .assignment := rfl
  have hvalue : Runs source.toList ((forSource rules source).expressionFrom
      Operator.assignment.rightPrecedence ends false)
      (tokenAt source.toList .standard start).span.stop value stop :=
    (runs_expression_comma hcomma).mp hvalue
  have hleast : ¬ Operator.assignment.precedence < 1 := by decide
  rw [runs_extendExpression rfl]
  refine ⟨hstart, ?_⟩
  simp only [givesBack, extendAt, hkind, hends, hupdate, htemplate, hbinary,
    operationOn, binaryOn, Operator.isAssignment, htarget]
  simp only [hleast, decide_false, Bool.or_self, Bool.false_eq_true, if_false,
    if_true, pure_bind, bind_assoc]
  exact .bind hvalue (runs_pure.mpr ⟨hvalue.reaches_stop, rfl, rfl⟩)

/-- In front of a default stands what may stand behind a target. -/
theorem endsTarget_of_runs_afterMark {mark : Punctuator}
    (hinitial : Runs source.toList
      (afterMark .equals ((forSource rules source).expressionInList mark))
      between initial stop)
    (hends : (tokenAt source.toList .standard stop).kind.endsTarget = true) :
    (tokenAt source.toList .standard between).kind.endsTarget = true := by
  obtain ⟨_, hinitial⟩ := runs_afterMark.mp hinitial
  split at hinitial
  · rename_i hequals
    rw [hequals]
    rfl
  · obtain ⟨_, rfl⟩ := hinitial
    exact hends

/-- A target with its default is an assignment. -/
theorem exists_value {mark : Punctuator} (hmark : mark ≠ .equals)
    (htarget : ReadsAsTarget rules source start between pattern)
    (hinitial : Runs source.toList
      (afterMark .equals ((forSource rules source).expressionInList mark))
      between initial stop)
    (hends : [.punctuator .comma, .punctuator mark].contains
      (tokenAt source.toList .standard stop).kind = true) :
    ∃ value target, Runs source.toList
        ((forSource rules source).expressionInList mark) start value stop ∧
      value.toDefaultedPattern = .ok (target, initial) ∧
      target.SamePattern pattern := by
  obtain ⟨node, target, hnode, hmeans, hsame⟩ :=
    htarget [.punctuator .comma, .punctuator mark] false
  simp only [expressionInList, expression, runs_expression_iff] at *
  obtain ⟨hbetween, hinitial⟩ := runs_afterMark.mp hinitial
  split at hinitial
  · rename_i hequals
    obtain ⟨value, rfl, hvalue⟩ := hinitial
    refine ⟨_, target, ⟨node, between, hnode, .more
      (runs_extendExpression_assignment hequals ?_ List.mem_cons_self hbetween
        hmeans.toAssignmentTarget_eq hvalue)
      (.done (runs_extendExpression_of_ends hvalue.reaches_stop hends))⟩, ?_,
      hsame⟩
    · simpa using hmark.symm
    · rw [spanning, Node.toDefaultedPattern, if_pos rfl, hsame.toPattern_eq]
      rfl
  · obtain ⟨rfl, rfl⟩ := hinitial
    exact ⟨node, target, ⟨node, _, hnode, .done
      (runs_extendExpression_of_ends hbetween hends)⟩,
      hmeans.toDefaultedPattern_eq, hsame⟩

end Values

/-! ### Arrays -/

section Steps

variable (grammar : Grammar)

/-- One step along the elements of an array pattern. -/
def arrayPatternStep (found : List (PatternElement Node)) :
    Parser (List (PatternElement Node) ⊕
      (List (PatternElement Node) × Option Node)) := do
  if (← peekKind) = .punctuator .bracketClose then return .inr (found, none)
  if ← acceptMark .dotDotDot then
    let rest ← grammar.pattern
    return .inr (found, some rest)
  if ← acceptMark .comma then return .inl (.hole :: found)
  let target ← grammar.pattern
  let initial ←
    afterMark .equals (grammar.expressionInList .bracketClose)
  let found := .item target initial :: found
  if ← acceptMark .comma then return .inl found
  return .inr (found, none)

/-- One step along the elements of an array literal. -/
def arrayLiteralStep (found : List (ArrayElement Node)) :
    Parser (List (ArrayElement Node) ⊕ List (ArrayElement Node)) := do
  if ← acceptMark .comma then return .inl (.hole :: found)
  if (← peekKind) = .punctuator .bracketClose then return .inr found
  let isSpread ← acceptMark .dotDotDot
  let value ← grammar.expressionInList .bracketClose
  let found := (if isSpread then .spread value else .single value) :: found
  if (← peekKind) = .punctuator .bracketClose then return .inr found
  let _ ← requireMark .comma
  return .inl found

theorem arrayPattern_eq :
    grammar.arrayPattern = node do
      let _ ← requireMark .bracketOpen
      let (elements, rest) ← iterate grammar.arrayPatternStep []
      let _ ← requireMark .bracketClose
      return .arrayPattern elements.reverse rest := rfl

theorem arrayLiteral_eq :
    grammar.arrayLiteral = node do
      let _ ← requireMark .bracketOpen
      let elements ← iterate grammar.arrayLiteralStep []
      let _ ← requireMark .bracketClose
      return .array elements.reverse := rfl

end Steps

section ArraySteps

variable {grammar : Grammar} [grammar.IsDisciplined] [grammar.IsAdvancing]
  {text : List Char} {start stop : Nat}

instance (found : List (PatternElement Node)) :
    Disciplined false (grammar.arrayPatternStep found) := by
  rw [arrayPatternStep]
  infer_instance

instance (found : List (PatternElement Node)) :
    GoesOnIf Sum.isLeft (grammar.arrayPatternStep found) := by
  rw [arrayPatternStep]
  infer_instance

instance (found : List (ArrayElement Node)) :
    Disciplined false (grammar.arrayLiteralStep found) := by
  rw [arrayLiteralStep]
  infer_instance

instance (found : List (ArrayElement Node)) :
    GoesOnIf Sum.isLeft (grammar.arrayLiteralStep found) := by
  rw [arrayLiteralStep]
  infer_instance

omit [grammar.IsAdvancing] in
/-- An array pattern ends, or has its rest, a hole or a target next. -/
theorem runs_arrayPatternStep {found : List (PatternElement Node)}
    {outcome : List (PatternElement Node) ⊕
      (List (PatternElement Node) × Option Node)}
    (hrun : Runs text (grammar.arrayPatternStep found) start outcome stop) :
    ((tokenAt text .standard start).kind = .punctuator .bracketClose ∧
      outcome = .inr (found, none) ∧ stop = start) ∨
    ((tokenAt text .standard start).kind = .punctuator .dotDotDot ∧
      ∃ rest, Runs text grammar.pattern
          (tokenAt text .standard start).span.stop rest stop ∧
        outcome = .inr (found, some rest)) ∨
    ((tokenAt text .standard start).kind = .punctuator .comma ∧
      outcome = .inl (.hole :: found) ∧
      stop = (tokenAt text .standard start).span.stop) ∨
    ((tokenAt text .standard start).kind ≠ .punctuator .bracketClose ∧
      (tokenAt text .standard start).kind ≠ .punctuator .dotDotDot ∧
      (tokenAt text .standard start).kind ≠ .punctuator .comma ∧
      ∃ target initial between last,
        Runs text grammar.pattern start target between ∧
        Runs text (afterMark .equals (grammar.expressionInList .bracketClose))
          between initial last ∧
        ((tokenAt text .standard last).kind = .punctuator .comma ∧
            outcome = .inl (.item target initial :: found) ∧
            stop = (tokenAt text .standard last).span.stop ∨
          (tokenAt text .standard last).kind ≠ .punctuator .comma ∧
            outcome = .inr (.item target initial :: found, none) ∧
            stop = last)) := by
  rw [arrayPatternStep, runs_bind] at hrun
  obtain ⟨kind, between, hpeek, hrun⟩ := hrun
  obtain ⟨hstart, rfl, rfl⟩ := runs_peekKind.mp hpeek
  split at hrun
  · rename_i hclose
    obtain ⟨_, rfl, rfl⟩ := runs_pure.mp hrun
    exact .inl ⟨hclose, rfl, rfl⟩
  · rename_i hclose
    obtain ⟨_, hrun⟩ := runs_acceptMark_bind.mp hrun
    split at hrun
    · rename_i hrest
      rw [if_pos rfl] at hrun
      obtain ⟨rest, last, hpattern, hpure⟩ := runs_bind.mp hrun
      obtain ⟨_, rfl, rfl⟩ := runs_pure.mp hpure
      exact .inr (.inl ⟨hrest, rest, hpattern, rfl⟩)
    · rename_i hrest
      rw [if_neg Bool.false_ne_true] at hrun
      obtain ⟨_, hrun⟩ := runs_acceptMark_bind.mp hrun
      split at hrun
      · rename_i hcomma
        rw [if_pos rfl] at hrun
        obtain ⟨_, rfl, rfl⟩ := runs_pure.mp hrun
        exact .inr (.inr (.inl ⟨hcomma, rfl, rfl⟩))
      · rename_i hcomma
        rw [if_neg Bool.false_ne_true] at hrun
        obtain ⟨target, between, htarget, hrun⟩ := runs_bind.mp hrun
        obtain ⟨initial, last, hinitial, hrun⟩ := runs_bind.mp hrun
        refine .inr (.inr (.inr ⟨hclose, hrest, hcomma, target, initial,
          between, last, htarget, hinitial, ?_⟩))
        obtain ⟨_, hrun⟩ := runs_acceptMark_bind.mp hrun
        split at hrun
        · rename_i hmore
          rw [if_pos rfl] at hrun
          obtain ⟨_, rfl, rfl⟩ := runs_pure.mp hrun
          exact .inl ⟨hmore, rfl, rfl⟩
        · rename_i hmore
          rw [if_neg Bool.false_ne_true] at hrun
          obtain ⟨_, rfl, rfl⟩ := runs_pure.mp hrun
          exact .inr ⟨hmore, rfl, rfl⟩

omit [grammar.IsAdvancing] in
theorem runs_arrayLiteralStep_hole {found : List (ArrayElement Node)}
    (hstart : Reaches text start)
    (hkind : (tokenAt text .standard start).kind = .punctuator .comma) :
    Runs text (grammar.arrayLiteralStep found) start (.inl (.hole :: found))
      (tokenAt text .standard start).span.stop := by
  rw [arrayLiteralStep, runs_acceptMark_bind, if_pos hkind, if_pos rfl]
  exact ⟨hstart, runs_pure.mpr ⟨reaches_next hstart _, rfl, rfl⟩⟩

omit [grammar.IsAdvancing] in
theorem runs_arrayLiteralStep_close {found : List (ArrayElement Node)}
    (hstart : Reaches text start)
    (hkind :
      (tokenAt text .standard start).kind = .punctuator .bracketClose) :
    Runs text (grammar.arrayLiteralStep found) start (.inr found) start := by
  have hcomma : (tokenAt text .standard start).kind ≠ .punctuator .comma := by
    rw [hkind]
    exact nofun
  rw [arrayLiteralStep, runs_acceptMark_bind, if_neg hcomma,
    if_neg Bool.false_ne_true]
  refine ⟨hstart, .bind (runs_peekKind.mpr ⟨hstart, rfl, rfl⟩) ?_⟩
  rw [if_pos hkind]
  exact runs_pure.mpr ⟨hstart, rfl, rfl⟩

omit [grammar.IsAdvancing] in
/-- A value in an array literal is followed by a comma or ends it. -/
theorem runs_arrayLiteralStep_value {found : List (ArrayElement Node)}
    {value : Node} {last : Nat} (isSpread : Bool)
    (hcomma : (tokenAt text .standard start).kind ≠ .punctuator .comma)
    (hclose : (tokenAt text .standard start).kind ≠ .punctuator .bracketClose)
    (hstart : Reaches text start)
    (hspread : isSpread = true ↔
      (tokenAt text .standard start).kind = .punctuator .dotDotDot)
    (hvalue : Runs text (grammar.expressionInList .bracketClose)
      (if isSpread then (tokenAt text .standard start).span.stop else start)
      value last) {outcome : List (ArrayElement Node) ⊕ List (ArrayElement Node)}
    (houtcome : (tokenAt text .standard last).kind = .punctuator .bracketClose ∧
        outcome = .inr ((if isSpread then .spread value else .single value) ::
          found) ∧ stop = last ∨
      (tokenAt text .standard last).kind = .punctuator .comma ∧
        outcome = .inl ((if isSpread then .spread value else .single value) ::
          found) ∧ stop = (tokenAt text .standard last).span.stop) :
    Runs text (grammar.arrayLiteralStep found) start outcome stop := by
  have hlast := hvalue.reaches_stop
  rw [arrayLiteralStep, runs_acceptMark_bind, if_neg hcomma,
    if_neg Bool.false_ne_true]
  refine ⟨hstart, .bind (runs_peekKind.mpr ⟨hstart, rfl, rfl⟩) ?_⟩
  rw [if_neg hclose]
  have haccept : Runs text (acceptMark .dotDotDot) start isSpread
      (if isSpread then (tokenAt text .standard start).span.stop
        else start) := by
    rw [acceptMark, runs_accept]
    refine ⟨hstart, ?_⟩
    split
    · rename_i hkind
      obtain rfl := hspread.mpr hkind
      exact ⟨rfl, rfl⟩
    · rename_i hkind
      obtain rfl := Bool.eq_false_iff.mpr fun h => hkind (hspread.mp h)
      exact ⟨rfl, rfl⟩
  refine .bind haccept (.bind hvalue (.bind (runs_peekKind.mpr
    ⟨hlast, rfl, rfl⟩) ?_))
  rcases houtcome with ⟨hkind, rfl, rfl⟩ | ⟨hkind, rfl, rfl⟩
  · rw [if_pos hkind]
    exact runs_pure.mpr ⟨hlast, rfl, rfl⟩
  · rw [if_neg (by rw [hkind]; exact nofun)]
    exact .bind (runs_requireMark.mpr ⟨hlast, rfl, hkind, rfl⟩)
      (runs_pure.mpr ⟨reaches_next hlast _, rfl, rfl⟩)

end ArraySteps

section Arrays

variable {rules : NameRules} {source : String} {start stop : Nat}

/-- What is read as a pattern from a place on is read as a target as well. -/
def ReadsTargets (rules : NameRules) (source : String) (start : Nat) : Prop :=
  ∀ {pattern : Node} {stop : Nat},
    Runs source.toList (forSource rules source).pattern start pattern stop →
    (tokenAt source.toList .standard stop).kind.endsTarget = true →
    ReadsAsTarget rules source start stop pattern

/-- The elements of an array pattern are read as those of a literal. -/
def ReadsAsElements (rules : NameRules) (source : String) (start stop : Nat)
    (items : List (PatternElement Node)) (rest : Option Node) : Prop :=
  ∃ literals targets rest',
    (∀ others, Repeats source.toList
      (forSource rules source).arrayLiteralStep others start
        (literals.reverse ++ others) stop) ∧
    (∀ span, Node.elementsToPattern span literals = .ok (targets, rest')) ∧
    List.Forall₂ Node.SameElement targets items ∧
    Option.Rel Node.SamePattern rest' rest

theorem readsAsElements_nil (hstart : Reaches source.toList start)
    (hkind : (tokenAt source.toList .standard start).kind =
      .punctuator .bracketClose) :
    ReadsAsElements rules source start start [] none := by
  refine ⟨[], [], none, fun others =>
    .done (runs_arrayLiteralStep_close hstart hkind), fun span => ?_, .nil,
    .none⟩
  rw [Node.elementsToPattern]

theorem readsAsElements_rest {rest : Node}
    (hkind : (tokenAt source.toList .standard start).kind =
      .punctuator .dotDotDot)
    (hclose : (tokenAt source.toList .standard stop).kind =
      .punctuator .bracketClose) (hstart : Reaches source.toList start)
    (hrest : ReadsAsTarget rules source
      (tokenAt source.toList .standard start).span.stop stop rest) :
    ReadsAsElements rules source start stop [] (some rest) := by
  obtain ⟨node, target, hnode, hmeans, hsame⟩ :=
    hrest [.punctuator .comma, .punctuator .bracketClose] false
  have hvalue : Runs source.toList
      ((forSource rules source).expressionInList .bracketClose)
      (tokenAt source.toList .standard start).span.stop node stop := by
    refine runs_expression_iff.mpr ⟨node, stop, hnode, .done
      (runs_extendExpression_of_ends hnode.reaches_stop ?_)⟩
    rw [hclose]
    decide
  refine ⟨[.spread node], [], some target, fun others => .done ?_,
    fun span => ?_, .nil, .some hsame⟩
  · refine runs_arrayLiteralStep_value true ?_ ?_ hstart
      ⟨fun _ => hkind, fun _ => rfl⟩ hvalue (.inl ⟨hclose, rfl, rfl⟩)
    · rw [hkind]
      exact nofun
    · rw [hkind]
      exact nofun
  · rw [Node.elementsToPattern, hmeans.toPattern_eq]
    rfl

theorem ReadsAsElements.hole {between : Nat}
    {items : List (PatternElement Node)} {rest : Option Node}
    (hkind : (tokenAt source.toList .standard start).kind = .punctuator .comma)
    (hstart : Reaches source.toList start)
    (hbetween : between = (tokenAt source.toList .standard start).span.stop)
    (h : ReadsAsElements rules source between stop items rest) :
    ReadsAsElements rules source start stop (.hole :: items) rest := by
  subst hbetween
  obtain ⟨literals, targets, rest', hrepeats, htargets, hsame, hrest⟩ := h
  refine ⟨.hole :: literals, .hole :: targets, rest', fun others => ?_,
    fun span => ?_, .cons .hole hsame, hrest⟩
  · have hmore := hrepeats (.hole :: others)
    rw [List.reverse_cons, List.append_assoc]
    exact .more (runs_arrayLiteralStep_hole hstart hkind) hmore
  · rw [Node.elementsToPattern, htargets span]
    rfl

/-- A target in an array pattern, with what follows it, is read as a value. -/
theorem exists_item {target : Node} {initial : Option Node}
    {between last : Nat} (hclose : (tokenAt source.toList .standard start).kind ≠
      .punctuator .bracketClose)
    (hdots : (tokenAt source.toList .standard start).kind ≠
      .punctuator .dotDotDot)
    (hcomma : (tokenAt source.toList .standard start).kind ≠
      .punctuator .comma)
    (htargets : ReadsTargets rules source start)
    (htarget : Runs source.toList (forSource rules source).pattern start target
      between)
    (hinitial : Runs source.toList (afterMark .equals
      ((forSource rules source).expressionInList .bracketClose)) between initial
      last)
    (hends : [.punctuator .comma, .punctuator .bracketClose].contains
      (tokenAt source.toList .standard last).kind = true) :
    ∃ value target',
      (∀ (found : List (ArrayElement Node))
        (outcome : List (ArrayElement Node) ⊕ List (ArrayElement Node)) next,
        ((tokenAt source.toList .standard last).kind =
            .punctuator .bracketClose ∧
          outcome = .inr (.single value :: found) ∧ next = last ∨
        (tokenAt source.toList .standard last).kind = .punctuator .comma ∧
          outcome = .inl (.single value :: found) ∧
          next = (tokenAt source.toList .standard last).span.stop) →
        Runs source.toList ((forSource rules source).arrayLiteralStep found)
          start outcome next) ∧
      value.toDefaultedPattern = .ok (target', initial) ∧
      target'.SamePattern target := by
  obtain ⟨value, target', hvalue, hpattern, hsame⟩ := exists_value (by decide)
    (htargets htarget (endsTarget_of_runs_afterMark hinitial
      (TokenKind.endsTarget_of_contains hends rfl))) hinitial hends
  refine ⟨value, target', fun found outcome next houtcome => ?_, hpattern,
    hsame⟩
  exact runs_arrayLiteralStep_value false hcomma hclose htarget.reaches_start
    ⟨fun h => absurd h Bool.false_ne_true, fun h => absurd h hdots⟩ hvalue
    houtcome

/-- The elements of a pattern are those of a literal, whichever comes last. -/
theorem exists_elements {first : Nat}
    (htargets : ∀ place, first ≤ place → ReadsTargets rules source place)
    {found : List (PatternElement Node)}
    {result : List (PatternElement Node) × Option Node}
    (hrepeats : Repeats source.toList (forSource rules source).arrayPatternStep
      found start result stop) (hfirst : first ≤ start)
    (hclose : (tokenAt source.toList .standard stop).kind =
      .punctuator .bracketClose) :
    ∃ items, result.1 = items.reverse ++ found ∧
      ReadsAsElements rules source start stop items result.2 := by
  have hends : TokenKind.endsTarget
      (tokenAt source.toList .standard stop).kind = true := by
    rw [hclose]
    rfl
  induction hrepeats with
  | @done found start result stop hdone =>
      have hstart := hdone.reaches_start
      obtain ⟨hkind, h, rfl⟩ | ⟨hkind, rest, hrest, h⟩ | ⟨_, h, _⟩ |
        ⟨hbracket, hdots, hcomma, target, initial, between, last, htarget,
          hinitial, ⟨_, h, _⟩ | ⟨_, h, rfl⟩⟩ := runs_arrayPatternStep hdone
      · cases h
        exact ⟨[], rfl, readsAsElements_nil hstart hkind⟩
      · cases h
        refine ⟨[], rfl, readsAsElements_rest hkind hclose hstart
          (htargets _ ?_ hrest hends)⟩
        exact Nat.le_trans hfirst (runs_consume.mpr
          ⟨hstart, rfl, rfl⟩ : Runs _ consume start _ _).le
      · cases h
      · cases h
      · cases h
        obtain ⟨value, target', hvalue, hpattern, hsame⟩ := exists_item hbracket
          hdots hcomma (htargets _ hfirst) htarget hinitial
          (by rw [hclose]; decide)
        refine ⟨[.item target initial], rfl, [.single value],
          [.item target' initial], none, fun others => .done
            (hvalue others _ _ (.inl ⟨hclose, rfl, rfl⟩)), fun span => ?_,
          .cons (.item hsame) .nil, .none⟩
        rw [Node.elementsToPattern, hpattern, Node.elementsToPattern]
        rfl
  | @more found later start between result stop hmore hrest ih =>
      have hnext : start ≤ between := hmore.le
      obtain ⟨items, hitems, h⟩ := ih (Nat.le_trans hfirst hnext) hclose hends
      obtain ⟨_, h', _⟩ | ⟨_, _, _, h'⟩ | ⟨hkind, h', hbetween⟩ |
        ⟨hbracket, hdots, hcomma, target, initial, place, last, htarget,
          hinitial, ⟨hkind, h', rfl⟩ | ⟨_, h', _⟩⟩ :=
        runs_arrayPatternStep hmore
      · cases h'
      · cases h'
      · cases h'
        exact ⟨.hole :: items, by simpa using hitems,
          h.hole hkind hmore.reaches_start hbetween⟩
      · cases h'
        obtain ⟨value, target', hvalue, hpattern, hsame⟩ := exists_item hbracket
          hdots hcomma (htargets _ hfirst) htarget hinitial
          (by rw [hkind]; decide)
        obtain ⟨literals, targets, rest, hrepeats, hliterals, hothers, hrest⟩ :=
          h
        refine ⟨.item target initial :: items, by simpa using hitems,
          .single value :: literals,
          .item target' initial :: targets, rest, fun others => ?_,
          fun span => ?_, .cons (.item hsame) hothers, hrest⟩
        · rw [List.reverse_cons, List.append_assoc]
          exact .more (hvalue others _ _ (.inr ⟨hkind, rfl, rfl⟩))
            (hrepeats (.single value :: others))
        · rw [Node.elementsToPattern, hpattern, hliterals span]
          rfl
      · cases h'

/-- An array pattern is read as an array literal. -/
theorem readsAsTarget_array {pattern : Node}
    (htargets : ∀ place, start < place → ReadsTargets rules source place)
    (hrun : Runs source.toList (forSource rules source).arrayPattern start
      pattern stop) : ReadsAsTarget rules source start stop pattern := by
  rw [arrayPattern_eq, runs_node] at hrun
  obtain ⟨shape, hshape, rfl⟩ := hrun
  obtain ⟨_, first, hopen, hshape⟩ := runs_bind.mp hshape
  obtain ⟨hstart, rfl, hkind, rfl⟩ := runs_requireMark.mp hopen
  obtain ⟨⟨elements, rest⟩, last, hrepeats, hshape⟩ := runs_bind.mp hshape
  rw [runs_iterate] at hrepeats
  obtain ⟨_, _, hclose, hpure⟩ := runs_bind.mp hshape
  obtain ⟨_, rfl, rfl⟩ := runs_pure.mp hpure
  obtain ⟨_, rfl, hbracket, rfl⟩ := runs_requireMark.mp hclose
  have hlt : start < (tokenAt source.toList .standard start).span.stop :=
    hopen.lt
  obtain ⟨items, hitems, literals, targets, rest', hliterals, htargets, hsame,
    hrest⟩ := exists_elements (fun place h => htargets place
      (Nat.lt_of_lt_of_le hlt h)) hrepeats (Nat.le_refl _) hbracket
  obtain rfl : elements = items.reverse := hitems.trans (List.append_nil _)
  intro ends lineEnds
  refine ⟨_, _, runs_operand_literal hkind (.inl rfl) ?_,
    Node.means_array (htargets _), .array (by rwa [List.reverse_reverse]) hrest⟩
  rw [if_pos rfl, arrayLiteral_eq, runs_node]
  refine ⟨_, .bind hopen (.bind (runs_iterate.mpr (hliterals []))
    (.bind hclose (runs_pure.mpr ⟨hclose.reaches_stop, ?_, rfl⟩))), rfl⟩
  simp

end Arrays

end Grammar

end Bundler
