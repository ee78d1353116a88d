import Bundler.Proofs.Parser.Arrows
import Bundler.Proofs.Parser.Ensures
import Bundler.Proofs.Parser.Locations
import Bundler.Proofs.Parser.ObjectPatterns

/-!
# Where expressions start

The first token of an operand may be a slash, which is lexed in a mode of its own;
but where a token starts depends on the mode only inside of a template.  So an
expression starts where lexing finds a token, or behind it if that is an opening
parenthesis, which leaves no node.
-/

set_option synthInstance.maxSize 4000

namespace Bundler

open TokenStream

namespace TokenStream

variable {text : List Char} {stream between after : TokenStream}

/-- Outside of templates a token starts where it does in every mode. -/
theorem start_tokenAt {mode : LexMode} (hmode : mode ≠ .templateContinue)
    (place : Nat) :
    (tokenAt text mode place).span.start =
      (tokenAt text .standard place).span.start := by
  rw [tokenAt, tokenAt, lexToken_eq hmode, lexToken_eq (by decide)]
  rfl

/-- The first token that one stream has consumed and another one has not starts
where lexing finds a token. -/
structure Begins (text : List Char) (stream after : TokenStream) : Prop where
  consumed_lt : stream.consumed < after.consumed
  exists_first : ∃ next, after.buffer[stream.consumed]? = some next ∧
    next.token.span.start = (tokenAt text .standard stream.lastEnd).span.start

theorem Begins.start_spanSince (h : Begins text stream after) :
    (after.spanSince stream.checkpoint).start =
      (tokenAt text .standard stream.lastEnd).span.start := by
  obtain ⟨next, hnext, hstart⟩ := h.exists_first
  rw [checkpoint, spanSince_of_lt h.consumed_lt hnext]
  exact hstart

theorem Begins.further (h : Begins text stream between)
    (hleads : Leads 0 between after) : Begins text stream after := by
  obtain ⟨next, hnext, hstart⟩ := h.exists_first
  exact ⟨Nat.lt_of_lt_of_le h.consumed_lt hleads.consumed_le, next,
    (hleads.read_eq _ (Nat.zero_le _) h.consumed_lt).symm.trans hnext, hstart⟩

theorem Begins.later (h : Begins text between after)
    (hconsumed : between.consumed = stream.consumed)
    (hplace : between.lastEnd = stream.lastEnd) : Begins text stream after := by
  obtain ⟨next, hnext, hstart⟩ := h.exists_first
  rw [hconsumed] at hnext
  rw [hplace] at hstart
  exact ⟨hconsumed ▸ h.consumed_lt, next, hnext, hstart⟩

theorem begins_prepare (hstream : stream.Reads text) {mode : LexMode}
    (hmode : mode ≠ .templateContinue) :
    Begins text stream (stream.prepare mode).advance := by
  refine ⟨Nat.lt_succ_of_le (Nat.le_of_eq (consumed_prepare mode _).symm), _,
    hstream.lexes.getElem?_prepare_consumed mode, ?_⟩
  rw [hstream.cursorAt_consumed]
  exact start_tokenAt hmode _

end TokenStream

namespace Node

theorem span_toPattern {node pattern : Node} (hrun : node.toPattern = .ok pattern) :
    pattern.span = node.span := by
  rw [Node.toPattern.eq_def] at hrun
  split at hrun
  · obtain ⟨_, _, hrun⟩ := Except.bind_eq_ok_iff.mp hrun
    cases hrun
    rfl
  · obtain ⟨_, _, hrun⟩ := Except.bind_eq_ok_iff.mp hrun
    cases hrun
    rfl
  all_goals
    cases hrun
    try rfl

theorem span_toAssignmentTarget {node target : Node} {operator : Operator}
    (hrun : node.toAssignmentTarget operator = .ok target) :
    target.span = node.span := by
  unfold toAssignmentTarget at hrun
  split at hrun
  case h_1 => exact span_toPattern hrun
  case h_2 | h_3 =>
    split at hrun
    · exact span_toPattern hrun
    · cases hrun
  case h_4 | h_5 =>
    cases hrun
    rfl
  case h_6 => cases hrun

end Node

namespace Parser

variable {α β : Type} {parser : Parser α} {next : α → Parser β}

/-- Parsers whose first token starts where lexing finds a token. -/
class Begins {α : Type} (parser : Parser α) : Prop where
  begins : ∀ {text stream value after}, stream.Reads text →
    parser stream = .ok value after → TokenStream.Begins text stream after

instance [h : Opens parser] : Begins parser where
  begins hstream hrun := by
    obtain ⟨hlt, hopening⟩ := h.opening hstream hrun
    rw [hstream.cursorAt_consumed] at hopening
    exact ⟨hlt, _, hopening, rfl⟩

theorem begins_consumeIn {mode : LexMode} (hmode : mode ≠ .templateContinue) :
    Begins (consumeIn mode) where
  begins hstream hrun := by
    rw [consumeIn, forward_eq] at hrun
    cases hrun
    exact begins_prepare hstream hmode

instance : Begins (consumeIn .slashIsRegex) := begins_consumeIn (by decide)

theorem Begins.bind (hparser : Begins parser)
    (hdisciplined : Disciplined false parser)
    (hnext : ∀ value, Disciplined false (next value)) :
    Begins (parser >>= next) where
  begins hstream hrun := by
    obtain ⟨value, between, hfirst, hsecond⟩ := Outcome.bind_eq_ok_iff.mp hrun
    have hbetween := hdisciplined.reads hstream hfirst
    exact (hparser.begins hstream hfirst).further
      ((hnext value).leads hbetween.lexes hsecond).2

instance [Begins parser] [Disciplined false parser]
    [∀ value, Disciplined false (next value)] : Begins (parser >>= next) :=
  .bind inferInstance inferInstance inferInstance

instance {condition : Prop} [Decidable condition] {other : Parser α}
    [h : Begins parser] [hother : Begins other] :
    Begins (if condition then parser else other) := by
  split
  · exact h
  · exact hother

instance {kind : TokenKind} : Begins (requireIn .slashIsRegex kind) := by
  rw [requireIn]
  infer_instance

instance {word : Keyword} : Begins (requireWord word) := by
  rw [requireWord]
  infer_instance

/-- A word that may be missing is the first token if it is there. -/
instance {word : Keyword} {next : Bool → Parser β}
    [hdisciplined : ∀ accepted, Disciplined false (next accepted)]
    [hnext : Begins (next false)] : Begins (acceptWord word >>= next) where
  begins {text stream _ _} hstream hrun := by
    obtain ⟨accepted, between, hfirst, hsecond⟩ :=
      Outcome.bind_eq_ok_iff.mp hrun
    have haccept : Disciplined false (acceptWord word) := inferInstance
    have hbetween := haccept.reads hstream hfirst
    rw [acceptWord, accept_eq] at hfirst
    split at hfirst
    · cases hfirst
      exact (begins_prepare hstream (by decide)).further
        ((hdisciplined true).leads hbetween.lexes hsecond).2
    · cases hfirst
      exact (hnext.begins hbetween hsecond).later
        (consumed_prepare .standard stream) (hstream.lastEnd_prepare .standard)

/-- What is given back leaves the first token to what follows. -/
theorem Begins.rewinding {back : α → Bool} (hparser : Disciplined false parser)
    (hnext : ∀ value, Disciplined false (next value))
    (hback : ∀ value, back value = true → Begins (next value))
    (hkept : ∀ {text stream value between result after}, stream.Reads text →
      parser stream = .ok value between → back value = false →
      next value between = .ok result after →
      TokenStream.Begins text stream between) :
    Begins (rewinding parser back next) where
  begins {text stream _ _} hstream hrun := by
    cases hfirst : parser stream with
    | error failure between =>
        rw [rewinding_of_error hfirst] at hrun
        cases hrun
    | ok value between =>
        rw [rewinding_of_ok hfirst] at hrun
        have hleads := (hparser.leads hstream.lexes hfirst).2
        cases hvalue : back value with
        | true =>
            rw [hvalue, if_pos rfl] at hrun
            exact ((hback value hvalue).begins
              (hparser.reads_restore hstream hfirst) hrun).later rfl
              (lastEnd_restore hleads)
        | false =>
            rw [hvalue, if_neg Bool.false_ne_true] at hrun
            exact (hkept hstream hfirst hvalue hrun).further
              ((hnext value).leads (hparser.reads hstream hfirst).lexes hrun).2

/-- What consumes nothing leaves the first token to what follows. -/
theorem Begins.of_stays (hparser : Disciplined false parser)
    (hstays : ∀ {stream value after}, parser stream = .ok value after →
      after.consumed = stream.consumed) (hnext : ∀ value, Begins (next value)) :
    Begins (parser >>= next) where
  begins {text stream _ _} hstream hrun := by
    obtain ⟨value, between, hfirst, hsecond⟩ := Outcome.bind_eq_ok_iff.mp hrun
    have hconsumed := hstays hfirst
    have hleads := (hparser.leads hstream.lexes hfirst).2
    have hplace : between.lastEnd = stream.lastEnd := by
      rw [lastEnd_eq_stopAt, lastEnd_eq_stopAt, hconsumed]
      exact stopAt_congr fun index hindex =>
        (hleads.read_eq index (Nat.zero_le index) hindex).symm
    exact ((hnext value).begins (hparser.reads hstream hfirst) hsecond).later
      hconsumed hplace

theorem consumed_of_peekTwo {tokens : Token × Token} {stream after : TokenStream}
    (hrun : peekTwo stream = .ok tokens after) :
    after.consumed = stream.consumed := by
  rw [peekTwo_eq] at hrun
  cases hfirst : (do return (← consume, ← consume) :
      Parser (Token × Token)) stream with
  | ok tokens between =>
      rw [rewinding_of_ok hfirst, if_pos rfl] at hrun
      cases hrun
      rfl
  | error failure between =>
      rw [rewinding_of_error hfirst] at hrun
      cases hrun

instance {next : Token × Token → Parser β} [h : ∀ tokens, Begins (next tokens)] :
    Begins (peekTwo >>= next) :=
  .of_stays inferInstance consumed_of_peekTwo h

instance {shape : Parser (Shape Node)} [h : Begins shape]
    [hdisciplined : Disciplined true shape] : Begins (node shape) := by
  have hspan : Begins (withSpan shape) := by
    constructor
    intro text stream result after hstream hrun
    cases hfirst : shape stream with
    | ok value between =>
        rw [withSpan_of_ok hfirst] at hrun
        cases hrun
        exact h.begins hstream hfirst
    | error failure between =>
        rw [withSpan_of_error hfirst] at hrun
        cases hrun
  have : Disciplined false (withSpan shape) := .withSpan hdisciplined
  rw [node]
  infer_instance

/-- Parsers of nodes that start where lexing finds their first token. -/
class Fronts (parser : Parser Node) : Prop extends Begins parser where
  start_eq : ∀ {text stream node after}, stream.Reads text →
    parser stream = .ok node after →
    node.span.start = (tokenAt text .standard stream.lastEnd).span.start

theorem Fronts.node {shape : Parser (Shape Node)} (h : Begins shape)
    (hdisciplined : Disciplined true shape) : Fronts (node shape) where
  start_eq hstream hrun := by
    obtain ⟨⟨span, value⟩, between, hspan, hpure⟩ := Outcome.bind_eq_ok_iff.mp hrun
    obtain ⟨rfl, rfl⟩ := Outcome.pure_eq_ok_iff.mp hpure
    cases hfirst : shape _ with
    | ok found last =>
        rw [withSpan_of_ok hfirst] at hspan
        cases hspan
        exact (h.begins hstream hfirst).start_spanSince
    | error failure last =>
        rw [withSpan_of_error hfirst] at hspan
        cases hspan

instance {shape : Parser (Shape Node)} [Begins shape] [Disciplined true shape] :
    Fronts (node shape) := .node inferInstance inferInstance

instance {condition : Prop} [Decidable condition] {parser other : Parser Node}
    [h : Fronts parser] [hother : Fronts other] :
    Fronts (if condition then parser else other) := by
  split
  · exact h
  · exact hother

end Parser

namespace Grammar

open Bundler.Parser

variable {grammar : Grammar} [grammar.IsDisciplined]

/-! ### Operands -/

instance : Fronts grammar.identifier :=
  inferInstanceAs (Fronts (node _))

instance : Begins grammar.arrowHead := by
  rw [arrowHead, Grammar.parameters]
  infer_instance

instance : Begins grammar.arrowOpening := by
  rw [arrowOpening]
  refine .of_stays inferInstance consumed_of_peekTwo fun (first, second) => ?_
  dsimp only
  split
  · rw [pure_bind]
    infer_instance
  · infer_instance

instance {ends : List TokenKind} : Begins (grammar.arrowShape ends) := by
  rw [arrowShape]
  infer_instance

instance {ends : List TokenKind} : Fronts (grammar.arrowFunction ends) := by
  have hfunc : Fronts (node (grammar.arrowShape ends)) := inferInstance
  rw [arrowFunction_eq]
  have hbegins : Begins (do
      let func ← node (grammar.arrowShape ends)
      return .mk func.span (.arrow func) : Parser Node) := inferInstance
  refine ⟨fun hstream hrun => ?_⟩
  obtain ⟨func, between, hfirst, hpure⟩ := Outcome.bind_eq_ok_iff.mp hrun
  obtain ⟨rfl, _⟩ := Outcome.pure_eq_ok_iff.mp hpure
  change func.span.start = _
  exact hfunc.start_eq hstream hfirst

instance : Fronts grammar.functionExpression := by
  rw [functionExpression]
  infer_instance

instance : Fronts grammar.classExpression := by
  rw [classExpression]
  infer_instance

instance : Fronts grammar.importCall := by
  rw [importCall]
  infer_instance

instance {word : Keyword} {name what : String} {shape : Shape Node} :
    Fronts (metaProperty word name what shape) := by
  rw [metaProperty]
  infer_instance

instance : Fronts importMeta := by
  rw [importMeta]
  infer_instance

instance : Fronts newTarget := by
  rw [newTarget]
  infer_instance

instance {word : Keyword} {shape : Shape Node} :
    Fronts (wordExpression word shape) := by
  rw [wordExpression]
  infer_instance

instance {ends : List TokenKind} {lineEnds : Bool} :
    Fronts (grammar.unaryExpression ends lineEnds) := by
  rw [unaryExpression]
  refine .node (.bind inferInstance inferInstance fun token => ?_) (.bindLooking
    inferInstance fun token => ?_)
  all_goals
    split
    · infer_instance
    · dsimp only
      infer_instance

instance : Fronts regexLiteral := by
  rw [regexLiteral]
  infer_instance

instance : Fronts stringLiteral := by
  rw [stringLiteral]
  infer_instance

instance : Fronts numberLiteral := by
  rw [numberLiteral]
  infer_instance

instance : Fronts bigintLiteral := by
  rw [bigintLiteral]
  infer_instance

instance : Fronts booleanLiteral := by
  rw [booleanLiteral]
  refine .node (.bind inferInstance inferInstance fun token => ?_) (.bindLooking
    inferInstance fun token => ?_)
  all_goals split <;> infer_instance

instance : Fronts nullLiteral := by
  rw [nullLiteral]
  infer_instance

instance {isTagged : Bool} : Begins (grammar.templateParts isTagged) := by
  rw [templateParts]
  refine .bind inferInstance inferInstance fun token => ?_
  split <;> infer_instance

instance : Fronts grammar.templateLiteral := by
  rw [templateLiteral]
  infer_instance

instance : Fronts grammar.arrayLiteral := by
  rw [arrayLiteral]
  infer_instance

instance : Fronts grammar.objectLiteral := by
  rw [objectLiteral]
  infer_instance

instance {lineEnds : Bool} : Begins (grammar.grouping lineEnds) := by
  rw [grouping]
  infer_instance

section Choices

variable {ends : List TokenKind} {lineEnds : Bool} {other : Parser Node}

/-- What is no arrow function is read again from its first token on. -/
instance [Disciplined false other] [h : Begins other] :
    Begins (grammar.arrowFunctionOr ends other) := by
  have harrow : Begins (grammar.arrowFunction ends) := inferInstance
  rw [arrowFunctionOr_eq]
  refine .rewinding inferInstance (fun outcome => ?_) (fun outcome hback => ?_)
    fun {text stream outcome between _ _} hstream hrun hback hnext => ?_
  · cases outcome <;> infer_instance
  · cases outcome with
    | ok arrow => cases hback
    | error error =>
        dsimp only
        rw [if_neg (by simpa using hback)]
        exact h
  · cases outcome with
    | ok arrow => exact harrow.begins hstream (eq_ok_of_attempt hrun)
    | error error =>
        dsimp only at hnext
        rw [if_pos (by simpa using hback)] at hnext
        cases hnext

instance [Disciplined false other] [h : Fronts other] :
    Fronts (grammar.arrowFunctionOr ends other) where
  start_eq {text stream _ _} hstream hrun := by
    have harrow : Fronts (grammar.arrowFunction ends) := inferInstance
    rw [arrowFunctionOr_eq] at hrun
    cases hfirst : attempt (grammar.arrowFunction ends) stream with
    | error failure between =>
        rw [rewinding_of_error hfirst] at hrun
        cases hrun
    | ok outcome between =>
        rw [rewinding_of_ok hfirst] at hrun
        have hattempt : Disciplined false (attempt (grammar.arrowFunction ends)) :=
          inferInstance
        cases outcome with
        | ok arrow =>
            obtain ⟨rfl, _⟩ := Outcome.pure_eq_ok_iff.mp hrun
            exact harrow.start_eq hstream (eq_ok_of_attempt hfirst)
        | error error =>
            dsimp only at hrun
            split at hrun
            · cases hrun
            · rw [if_pos (by simpa using ‹_›)] at hrun
              rw [h.start_eq (hattempt.reads_restore hstream hfirst) hrun,
                lastEnd_restore (hattempt.leads hstream.lexes hfirst).2]

instance {second third : Token} :
    Fronts (grammar.asyncOperand ends second third) := by
  rw [asyncOperand]
  infer_instance

instance {error : SyntaxError} : Fronts (fail error) where
  start_eq _ hrun := by cases hrun

instance {first second : Token} {word : Keyword} :
    Fronts (grammar.wordOperand first second word) := by
  unfold wordOperand
  split <;> infer_instance

instance {first second : Token} :
    Begins (grammar.otherOperand ends lineEnds first second) := by
  unfold otherOperand
  split <;> infer_instance

theorem fronts_otherOperand {first second : Token}
    (hfirst : first.kind ≠ .punctuator .parenthesisOpen) :
    Fronts (grammar.otherOperand ends lineEnds first second) := by
  unfold otherOperand
  split
  case h_10 hkind => exact absurd hkind hfirst
  all_goals infer_instance

end Choices

/-! ### Expressions -/

section Expressions

variable {least : Nat} {ends : List TokenKind} {lineEnds : Bool}

instance : Begins (grammar.operand ends lineEnds) := by
  rw [operand_eq]
  exact .rewinding inferInstance (fun (_, _, _) => inferInstance)
    (fun (_, _, _) _ => inferInstance) fun _ _ hback => absurd hback nofun

instance [∀ left, Disciplined false
    (grammar.extendExpression least ends lineEnds left)] :
    Begins (grammar.expressionRule least ends lineEnds) := by
  rw [expressionRule]
  infer_instance

/-- An operand that is not in parentheses starts at its first token. -/
theorem start_of_runs_operand {text : List Char} {start stop : Nat} {node : Node}
    (hrun : Runs text (grammar.operand ends lineEnds) start node stop)
    (hfirst : (tokenAt text .slashIsRegex start).kind ≠
      .punctuator .parenthesisOpen) :
    node.span.start = (tokenAt text .standard start).span.start := by
  obtain ⟨_, hrun⟩ := (runs_operand rfl rfl rfl).mp hrun
  have hother : ∀ second, Fronts (grammar.otherOperand ends lineEnds
      (tokenAt text .slashIsRegex start) second) :=
    fun _ => fronts_otherOperand hfirst
  obtain ⟨stream, after, hstream, _, rfl, _, hrun⟩ := hrun
  exact Fronts.start_eq hstream hrun

end Expressions

/-! ### Extended expressions -/

section Extended

omit [grammar.IsDisciplined]

variable {least : Nat} {ends : List TokenKind} {lineEnds : Bool} {left : Node}
  {place : Nat}

/-- What an expression is extended to starts no later. -/
theorem start_spanning {right : Span} {shape : Shape Node}
    (h : left.span.start ≤ place) :
    (spanning left.span right shape).span.start ≤ place :=
  Nat.le_trans (Nat.min_le_left _ _) h

theorem start_callOn {optional : Bool} (h : left.span.start ≤ place) :
    Ensures (grammar.callOn left optional) (·.span.start ≤ place) :=
  .skip fun _ => .skip fun _ => .pure (start_spanning h)

theorem start_computedMemberOf {optional : Bool} (h : left.span.start ≤ place) :
    Ensures (grammar.computedMemberOf left optional) (·.span.start ≤ place) :=
  .skip fun _ => .skip fun _ => .pure (start_spanning h)

theorem start_memberOf {optional : Bool} (h : left.span.start ≤ place) :
    Ensures (memberOf left optional) (·.span.start ≤ place) :=
  .skip fun _ => .ite (.pure (start_spanning h)) .fail

theorem start_conditionalOn (h : left.span.start ≤ place) :
    Ensures (grammar.conditionalOn left ends lineEnds) (·.span.start ≤ place) :=
  .skip fun _ => .skip fun _ => .skip fun _ => .pure (start_spanning h)

theorem start_binaryOn {operator : Operator} (h : left.span.start ≤ place) :
    Ensures (grammar.binaryOn left operator ends lineEnds)
      (·.span.start ≤ place) := by
  rw [binaryOn]
  dsimp only
  split
  · split
    · rename_i target htarget
      rw [pure_bind]
      rw [← Node.span_toAssignmentTarget htarget] at h
      exact .skip fun _ => .pure (start_spanning h)
    · rw [fail_bind]
      exact .fail
  · rw [pure_bind]
    exact .skip fun _ => .pure (start_spanning h)

theorem start_operationOn {operator : Operator} (h : left.span.start ≤ place) :
    Ensures (grammar.operationOn left operator ends lineEnds)
      (·.span.start ≤ place) := by
  unfold operationOn
  split
  · exact start_callOn h
  · exact start_callOn h
  · exact start_computedMemberOf h
  · exact start_computedMemberOf h
  · exact start_memberOf h
  · exact start_memberOf h
  · exact start_conditionalOn h
  · exact start_binaryOn h

theorem start_taggedTemplate (h : left.span.start ≤ place) :
    Ensures (grammar.taggedTemplate left) (·.span.start ≤ place) :=
  .skip fun _ => .pure (start_spanning h)

theorem start_extendExpression (h : left.span.start ≤ place) :
    Ensures (grammar.extendExpression least ends lineEnds left)
      (Sum.elim (·.span.start ≤ place) (·.span.start ≤ place)) := by
  refine .skip fun _ => .skip fun token => .ite (.skip fun _ => .pure h) ?_
  split
  · exact .ite (.skip fun _ => .pure h) (.pure (start_spanning h))
  · refine .ite (.skip fun _ => (start_taggedTemplate h).map fun _ h => h) ?_
    split
    · exact .ite (.skip fun _ => .pure h) .fail
    · exact .ite (.skip fun _ => .pure h) ((start_operationOn h).map fun _ h => h)

end Extended

/-! ### Expressions of a source -/

section Sources

variable {rules : NameRules} {source : String} {least : Nat}
  {ends : List TokenKind} {lineEnds : Bool} {start stop : Nat} {node : Node}

/-- No expression starts in front of its first token, and one that is extended starts
where its first operand does, if not before. -/
theorem start_of_runs_expression
    (hrun : Runs source.toList
      ((forSource rules source).expressionFrom least ends lineEnds) start node
      stop) :
    (tokenAt source.toList .standard start).span.start ≤ node.span.start ∧
      ((tokenAt source.toList .slashIsRegex start).kind ≠
          .punctuator .parenthesisOpen →
        node.span.start = (tokenAt source.toList .standard start).span.start) := by
  have hle : (tokenAt source.toList .standard start).span.start ≤
      node.span.start := by
    have hrule := runs_expressionFrom.mp hrun
    obtain ⟨stream, after, hstream, hafter, rfl, rfl, hstep⟩ := hrule
    have hbegins : Begins
        ((forSource rules source).expressionRule least ends lineEnds) :=
      inferInstance
    have hsound : ∀ passage, Sound passage
        ((forSource rules source).expressionRule least ends lineEnds) :=
      fun _ => sound_expressionRule _ least ends lineEnds
    have henters : (Program.passageOf source.toList).Enters stream :=
      ⟨hstream, Nat.zero_le _, trivial⟩
    have hplaced := (Sound.of_ok hsound henters hstep hafter).2.placed
    rw [← (hbegins.begins hstream hstep).start_spanSince]
    exact (Span.contains_iff.mp (Node.Located.contains hplaced)).1
  refine ⟨hle, fun hkind => Nat.le_antisymm ?_ hle⟩
  obtain ⟨first, between, hfirst, hrest⟩ := runs_expression_iff.mp hrun
  have hplace := Nat.le_of_eq (start_of_runs_operand hfirst hkind)
  clear hfirst hrun hle
  induction hrest with
  | done hdone =>
      obtain ⟨_, _, _, _, _, _, hdone⟩ := hdone
      exact start_extendExpression hplace _ _ _ hdone
  | more hmore _ ih =>
      obtain ⟨_, _, _, _, _, _, hmore⟩ := hmore
      exact ih (start_extendExpression hplace _ _ _ hmore)

end Sources

end Grammar

end Bundler
