import Bundler.Proofs.Parser.Arrows
import Bundler.Proofs.Parser.ExpressionEnds

/-!
# Errors behind an arrow

Whether an opening parenthesis starts the parameters of an arrow function or a
grouping is found out by an attempt.  An attempt that fails is abandoned, also if
it has come past the arrow, so what is wrong with the body of an arrow function
is not reported: the parameters are read once more as a grouping, or as the
arguments of a call of `async`, and what is wrong with that is reported.  Only a
line break in front of an arrow is reported as it is, from every depth.
-/

set_option synthInstance.maxSize 1000

namespace Bundler

open TokenStream

namespace Grammar

open Bundler.Parser

section Operands

variable {grammar : Grammar} [grammar.IsDisciplined] {text : List Char}
  {start stop : Nat} {node : Node} {ends : List TokenKind} {lineEnds : Bool}
  {otherwise : Parser Node} {arrow : Token} {error found : SyntaxError}

/-- At a place an arrow function has its parameters in parentheses and its
`arrow` on the same line, but its body is in error. -/
inductive HasBadBody (grammar : Grammar) (text : List Char)
    (ends : List TokenKind) (lineEnds : Bool) (start : Nat)
    (otherwise : Parser Node) (arrow : Token) (error : SyntaxError) : Prop
  | behind {isAsync : Bool} {parameters : List Node} {bodyStart : Nat} :
      grammar.StartsArrow text lineEnds start (some otherwise) →
      Runs text grammar.arrowOpening start (isAsync, parameters, arrow)
        bodyStart →
      Fails text (grammar.arrowBody ends) bodyStart error →
      HasBadBody grammar text ends lineEnds start otherwise arrow error

namespace HasBadBody

/-- A misplaced line terminator in the body is what the operand is refused
for. -/
theorem fails_operand_of_lineBreak
    (h : grammar.HasBadBody text ends lineEnds start otherwise arrow error)
    (hfault : error.fault = .lineBreakBeforeArrow) :
    Fails text (grammar.operand ends lineEnds) start error := by
  obtain ⟨hstarts, hopening, hbody⟩ := h
  rw [hstarts.fails_operand]
  exact (fails_arrowFunction hopening hbody).arrowFunctionOr hfault

theorem runs_operand
    (h : grammar.HasBadBody text ends lineEnds start otherwise arrow error)
    (hfault : error.fault ≠ .lineBreakBeforeArrow) :
    Runs text (grammar.operand ends lineEnds) start node stop ↔
      Runs text otherwise start node stop := by
  obtain ⟨hstarts, hopening, hbody⟩ := h
  have hother := hstarts.disciplined
  rw [hstarts.runs_operand]
  exact (fails_arrowFunction hopening hbody).runs_arrowFunctionOr hfault

theorem fails_operand
    (h : grammar.HasBadBody text ends lineEnds start otherwise arrow error)
    (hfault : error.fault ≠ .lineBreakBeforeArrow) :
    Fails text (grammar.operand ends lineEnds) start found ↔
      Fails text otherwise start found := by
  obtain ⟨hstarts, hopening, hbody⟩ := h
  have hother := hstarts.disciplined
  rw [hstarts.fails_operand]
  exact (fails_arrowFunction hopening hbody).fails_arrowFunctionOr hfault

/-- No expression goes on at the arrow. -/
theorem fails_extendExpression {least : Nat} {left : Node}
    (h : grammar.HasBadBody text ends lineEnds start otherwise arrow error)
    (hstop : Reaches text stop) (harrow : tokenAt text .standard stop = arrow)
    (hends : arrow.kind ∉ ends) :
    Fails text (grammar.extendExpression least ends lineEnds left) stop
      (arrow.error (.expected "expression operator")) := by
  obtain ⟨_, hopening, _⟩ := h
  obtain ⟨hkind, hline⟩ := arrow_of_arrowOpening hopening
  rw [hkind] at hends
  rw [Grammar.fails_extendExpression, harrow]
  refine ⟨hstop, ?_⟩
  have hback : givesBack least ends lineEnds arrow = false := by
    simp [givesBack, hends, postfixOperator?, hline, hkind, startsTemplate,
      TokenKind.infixOperator?, Punctuator.infixOperator?, endsWithoutSemicolon]
  have hfail : grammar.extendAt least ends lineEnds left arrow =
      fail (arrow.error (.expected "expression operator")) := by
    simp [extendAt, hends, postfixOperator?, hline, hkind, startsTemplate,
      TokenKind.infixOperator?, Punctuator.infixOperator?, endsWithoutSemicolon]
  rw [hback, if_neg Bool.false_ne_true, hfail, fails_fail, ← harrow]
  exact ⟨reaches_next hstop .standard, rfl⟩

end HasBadBody

end Operands

end Grammar

namespace Program

open Bundler.Parser Bundler.Grammar

variable {source : String} {attempted : Bool} {least place : Nat}
  {ends : List TokenKind} {lineEnds : Bool} {otherwise : Parser Node}
  {arrow : Token} {error : SyntaxError}

theorem parse_eq_error_of_fails
    (h : Parser.Fails source.toList (wholeSource source) 0 error) :
    parse source = .error error := by
  have hwhole : Disciplined false (wholeSource source) := inferInstance
  obtain ⟨after, hrun⟩ :=
    hwhole.exists_failure h (reads_ofSource source.toList) rfl
  rw [parse_eq, Parser.run, hrun]
  rfl

/-- An arrow function whose body goes on with a second name, as the first
statement of a source. -/
theorem exists_badBody :
    ∃ arrow error,
      HandsOver "(a) => b c".toList false (wholeSource "(a) => b c") 0
        ((forSource .module "(a) => b c").expressionFrom 1
          [.punctuator .semicolon] true) 0 ∧
      (forSource .module "(a) => b c").HasBadBody "(a) => b c".toList
        [.punctuator .semicolon] true 0
        ((forSource .module "(a) => b c").grouping true) arrow error ∧
      error.fault = .expected "expression operator" ∧ error.span = ⟨9, 10⟩ ∧
      arrow = tokenAt "(a) => b c".toList .standard 3 ∧
      arrow.kind = .punctuator .equalsChevronRight ∧ arrow.span = ⟨4, 6⟩ := by
  have hstream := reads_ofSource "(a) => b c".toList
  have hplace : Reaches "(a) => b c".toList 0 := ⟨_, hstream, rfl⟩
  have hopen : (tokenAt "(a) => b c".toList .standard 0).kind =
      .punctuator .parenthesisOpen := by decide +kernel
  have hhead : Outcome.passes (forSource .module "(a) => b c").arrowOpening
      (ofSource "(a) => b c".toList) (fun found after =>
        found.2.2 = tokenAt "(a) => b c".toList .standard 3 ∧
        found.2.2.span = ⟨4, 6⟩ ∧
        refuses ((forSource .module "(a) => b c").arrowBody
          [.punctuator .semicolon]) after
          ⟨.expected "expression operator", ⟨9, 10⟩, some .identifier⟩) =
      true := by decide +kernel
  obtain ⟨⟨isAsync, parameters, arrow⟩, after, hrun, htest⟩ :=
    Outcome.exists_of_passes hhead
  obtain ⟨harrow, hspan, hbody⟩ := of_decide_eq_true htest
  have hdisciplined : Disciplined false
      (forSource .module "(a) => b c").arrowOpening := inferInstance
  have hruns := hdisciplined.runs hstream hrun
  exact ⟨arrow, _, (handsOver_statement (.here []) hplace
      (by rw [hopen]; exact nofun)).trans (handsOver_expression hplace hopen),
    .behind (.parameters rfl hopen) hruns
      (.of_refuses (hdisciplined.reads hstream hrun) hbody),
    rfl, rfl, harrow, (arrow_of_arrowOpening hruns).1, hspan⟩

/-- At the start of an operand an arrow function has its parameters in
parentheses and the arrow on the same line, but its body is in error.  If that is
a line break in front of an arrow, it is what the source is refused for, however
deep it is.  Any other error is dropped: the operand is read, or refused, as if
there were no arrow function.  The source is refused for what is wrong with that
then, or else for the arrow behind it, unless an arrow function around it has
been attempted. -/
theorem errors_behind_arrow
    (hposition : HandsOver source.toList attempted (wholeSource source) 0
      ((forSource .module source).expressionFrom least ends lineEnds) place)
    (hbody : (forSource .module source).HasBadBody source.toList ends lineEnds
      place otherwise arrow error) :
    (error.fault = .lineBreakBeforeArrow → parse source = .error error) ∧
    (error.fault ≠ .lineBreakBeforeArrow →
      (∀ node stop,
        Runs source.toList ((forSource .module source).operand ends lineEnds)
            place node stop ↔
          Runs source.toList otherwise place node stop) ∧
      (∀ found,
        Parser.Fails source.toList
            ((forSource .module source).operand ends lineEnds) place found ↔
          Parser.Fails source.toList otherwise place found) ∧
      (attempted = false →
        (∀ found, Parser.Fails source.toList otherwise place found →
          parse source = .error found) ∧
        ∀ node stop, Runs source.toList otherwise place node stop →
          tokenAt source.toList .standard stop = arrow → arrow.kind ∉ ends →
          parse source =
            .error (arrow.error (.expected "expression operator")))) := by
  have hrefused : ∀ {found : SyntaxError},
      Parser.Fails source.toList
        ((forSource .module source).expressionFrom least ends lineEnds) place
        found →
      (attempted = false ∨ found.fault = .lineBreakBeforeArrow) →
      parse source = .error found :=
    fun hfails hends => parse_eq_error_of_fails (hposition.fails hfails hends)
  refine ⟨fun hfault => hrefused (fails_expression_of_operand
    (hbody.fails_operand_of_lineBreak hfault)) (.inr hfault), fun hfault =>
    ⟨fun node stop => hbody.runs_operand hfault,
      fun found => hbody.fails_operand hfault, fun hattempted =>
      ⟨fun found hfails => ?_, fun node stop hrun harrow hends => ?_⟩⟩⟩
  · exact hrefused (fails_expression_of_operand
      ((hbody.fails_operand hfault).mpr hfails)) (.inl hattempted)
  · exact hrefused (fails_expression_of_extend
      ((hbody.runs_operand hfault).mpr hrun)
      (hbody.fails_extendExpression hrun.reaches_stop harrow hends))
      (.inl hattempted)

/-- A second name in a body, which is refused for the arrow. -/
theorem errors_behind_arrow_grouping :
    ∃ arrow error,
      HandsOver "(a) => b c".toList false (wholeSource "(a) => b c") 0
        ((forSource .module "(a) => b c").expressionFrom 1
          [.punctuator .semicolon] true) 0 ∧
      (forSource .module "(a) => b c").HasBadBody "(a) => b c".toList
        [.punctuator .semicolon] true 0
        ((forSource .module "(a) => b c").grouping true) arrow error ∧
      error.span = ⟨9, 10⟩ ∧ arrow.span = ⟨4, 6⟩ ∧
      parse "(a) => b c" =
        .error (arrow.error (.expected "expression operator")) := by
  obtain ⟨arrow, error, hposition, hbody, hfault, hspan, harrow, hkind,
    hplace⟩ := exists_badBody
  have hstream := reads_ofSource "(a) => b c".toList
  have hgrouping : Outcome.passes
      ((forSource .module "(a) => b c").grouping true)
      (ofSource "(a) => b c".toList) (fun _ after => after.lastEnd = 3) =
      true := by decide +kernel
  obtain ⟨node, after, hrun, htest⟩ := Outcome.exists_of_passes hgrouping
  have hdisciplined : Disciplined false
      ((forSource .module "(a) => b c").grouping true) := inferInstance
  have hruns := hdisciplined.runs hstream hrun
  rw [of_decide_eq_true htest] at hruns
  exact ⟨arrow, error, hposition, hbody, hspan, hplace,
    (((errors_behind_arrow hposition hbody).2 (by rw [hfault]; exact nofun)).2.2
      rfl).2 node 3 hruns harrow.symm (by rw [hkind]; exact nofun)⟩

/-- Not every error in the body of an arrow function is what its source is
refused for. -/
theorem not_errors_behind_arrow :
    ¬ ∀ (source : String) (least place : Nat) (ends : List TokenKind)
      (lineEnds : Bool) (otherwise : Parser Node) (arrow : Token)
      (error : SyntaxError),
      HandsOver source.toList false (wholeSource source) 0
        ((forSource .module source).expressionFrom least ends lineEnds) place →
      (forSource .module source).HasBadBody source.toList ends lineEnds place
        otherwise arrow error →
      parse source = .error error := by
  intro hall
  obtain ⟨arrow, error, hposition, hbody, _, hspan, _⟩ := exists_badBody
  have herror := hall _ _ _ _ _ _ _ _ hposition hbody
  have hrefused : refuses (wholeSource "(a) => b c")
      (ofSource "(a) => b c".toList) ⟨.expected "expression operator", ⟨4, 6⟩,
        some (.punctuator .equalsChevronRight)⟩ = true := by decide +kernel
  have hparse := parse_eq_error_of_fails
    (.of_refuses (reads_ofSource "(a) => b c".toList) hrefused)
  rw [hparse] at herror
  cases herror
  cases hspan

end Program

end Bundler
