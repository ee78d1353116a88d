import Bundler.Proofs.Parser.Locations
import Bundler.Proofs.Parser.StatementBounds

/-!
# Parsing ends

Two levels of the grammar take up at least one byte, so a grammar that is twice
as deep as its source is long does what every deeper one does, and neither it
nor a loop in it runs out of steps.  What is behind this is that no item of a
list, no operand and no statement is empty.
-/

namespace Bundler

open TokenStream

namespace Grammar

open Bundler.Parser

variable {text : List Char} {room : Nat} {rules : NameRules}
  {grammar grammar' : Grammar}

instance : SameRules grammar grammar := ⟨rfl⟩

instance [h : SameRules grammar grammar'] :
    SameRules grammar.deepen grammar'.deepen := ⟨h.rules_eq⟩

instance {depth depth' : Nat} :
    SameRules (ofDepth rules depth) (ofDepth rules depth') := by
  have hrules : ∀ depth, (ofDepth rules depth).rules = rules := by
    intro depth
    induction depth with
    | zero => rfl
    | succ depth ih => exact ih
  exact ⟨(hrules depth).trans (hrules depth').symm⟩

/-! ### One level more -/

section Deepening

variable [grammar.IsDisciplined] [grammar.IsAdvancing]
  [SameRules grammar grammar']

/-- One level below which the parts settle, expressions and patterns have room
for one byte more. -/
theorem Settling.deepen (h : Settling text room grammar grammar') :
    Leading text room grammar.deepen grammar'.deepen ∧
      Settles text (room + 1) grammar.deepen.pattern grammar'.deepen.pattern ∧
      Settling text room grammar.deepen grammar'.deepen := by
  refine ⟨⟨settles_expressionRule⟩, settles_patternRule,
    fun least ends lineEnds =>
      (settles_expressionRule least ends lineEnds).mono (Nat.le_succ room),
    settles_patternRule.mono (Nat.le_succ room), ?_⟩
  cases room with
  | zero => exact settles_zero
  | succ less =>
      have := h.mono (Nat.le_succ less)
      have : Leading text less grammar grammar' := ⟨h.expressionFrom⟩
      exact settles_statementRule

/-- Two levels further down so have statements. -/
theorem Settling.deepen_deepen (h : Settling text room grammar grammar') :
    Settling text (room + 1) grammar.deepen.deepen grammar'.deepen.deepen := by
  obtain ⟨_, _, _⟩ := h.deepen
  exact ⟨settles_expressionRule, settles_patternRule, settles_statementRule⟩

end Deepening

theorem settling_ofDepth {depth depth' : Nat} (hdepth : 2 * room ≤ depth)
    (hdepth' : 2 * room ≤ depth') :
    Settling text room (ofDepth rules depth) (ofDepth rules depth') := by
  induction room generalizing depth depth' with
  | zero => exact ⟨fun _ _ _ => settles_zero, settles_zero, settles_zero⟩
  | succ room ih =>
      obtain ⟨depth, rfl⟩ : ∃ less, depth = less + 2 :=
        Nat.exists_eq_add_of_le' (by omega)
      obtain ⟨depth', rfl⟩ : ∃ less, depth' = less + 2 :=
        Nat.exists_eq_add_of_le' (by omega)
      exact (ih (by omega) (by omega)).deepen_deepen

variable {source : String}

/-- The grammar for a source does the same as every deeper one, wherever it is
in the source, and fails only with reason. -/
instance settling_forSource :
    Settling source.toList (source.utf8ByteSize + 2) (forSource rules source)
      (forSource rules source) :=
  settling_ofDepth (by omega) (by omega)

theorem settling_deeper {depth : Nat}
    (hdepth : 2 * source.utf8ByteSize + 4 ≤ depth) :
    Settling source.toList (source.utf8ByteSize + 2) (forSource rules source)
      (ofDepth rules depth) :=
  settling_ofDepth (by omega) (by omega)

theorem unread_lt {stream : TokenStream}
    (hstream : stream.Reads source.toList) :
    stream.unread < source.utf8ByteSize + 2 := by
  rw [unread, hstream.size_eq, Text.utf8ByteSize_eq]
  omega

/-! ### Items and loops -/

/-- The parsers for the items of lists, and for all that is nested. -/
inductive IsItem (grammar : Grammar) : {α : Type} → Parser α → Prop
  | statement : IsItem grammar grammar.statement
  | expression (least : Nat) (ends : List TokenKind) (lineEnds : Bool) :
      IsItem grammar (grammar.expressionFrom least ends lineEnds)
  | operand (ends : List TokenKind) (lineEnds : Bool) :
      IsItem grammar (grammar.operand ends lineEnds)
  | pattern : IsItem grammar grammar.pattern
  | member (valueMark endMark : Punctuator) (lineEnds : Bool) :
      IsItem grammar (grammar.member valueMark endMark lineEnds)
  | classMember : IsItem grammar grammar.classMember
  | objectMember : IsItem grammar grammar.objectMember
  | patternProperty : IsItem grammar grammar.patternProperty
  | parameter : IsItem grammar grammar.parameter
  | argument : IsItem grammar grammar.argument
  | declarator (ends : List TokenKind) (lineEnds : Bool) :
      IsItem grammar (grammar.declarator ends lineEnds)
  | templateParts (isTagged : Bool) :
      IsItem grammar (grammar.templateParts isTagged)
  | switchCase : IsItem grammar grammar.switchCase
  | importItem : IsItem grammar grammar.importItem
  | exportItem : IsItem grammar exportItem

/-- The parsers that repeat others until something ends what they read. -/
inductive IsLoop (grammar : Grammar) : {α : Type} → Parser α → Prop
  | statements (ends : List TokenKind) :
      IsLoop grammar (untilKind ends grammar.statement)
  | switchBody : IsLoop grammar grammar.switchStatement
  | classBody : IsLoop grammar grammar.classBody
  | parameters : IsLoop grammar grammar.parameters
  | arguments : IsLoop grammar grammar.arguments
  | arrayLiteral : IsLoop grammar grammar.arrayLiteral
  | objectLiteral : IsLoop grammar grammar.objectLiteral
  | arrayPattern : IsLoop grammar grammar.arrayPattern
  | objectPattern : IsLoop grammar grammar.objectPattern
  | templateRest (isTagged : Bool) :
      IsLoop grammar (grammar.templateRest isTagged)
  | operators (least : Nat) (ends : List TokenKind) (lineEnds : Bool)
      (left : Node) :
      IsLoop grammar (iterate (grammar.extendExpression least ends lineEnds) left)
  | variables : IsLoop grammar grammar.variableDeclaration
  | headerVariables : IsLoop grammar grammar.headerVariables
  | importNames : IsLoop grammar grammar.importNames
  | exportItems : IsLoop grammar exportItems

variable {α : Type} {parser : Parser α}

theorem IsItem.advances [grammar.IsDisciplined] [grammar.IsAdvancing]
    (h : IsItem grammar parser) : Advances parser := by
  cases h <;> infer_instance

theorem IsItem.settles [grammar.IsDisciplined] [grammar.IsAdvancing]
    [Settling text room grammar grammar]
    (h : IsItem grammar parser) : Settles text room parser parser := by
  cases h with
  | operand => exact .mono inferInstance (Nat.le_succ room)
  | _ => infer_instance

theorem IsLoop.settles [grammar.IsDisciplined] [grammar.IsAdvancing]
    [Settling text room grammar grammar]
    (h : IsLoop grammar parser) : Settles text room parser parser := by
  cases h with
  | switchBody => exact .mono inferInstance (Nat.le_succ room)
  | arrayLiteral => exact .mono inferInstance (Nat.le_succ room)
  | objectLiteral => exact .mono inferInstance (Nat.le_succ room)
  | arrayPattern => exact .mono inferInstance (Nat.le_succ room)
  | objectPattern => exact .mono inferInstance (Nat.le_succ room)
  | _ => infer_instance

/-- Neither items nor loops are left for want of steps. -/
theorem ne_exhausted
    (h : IsItem (forSource rules source) parser ∨
      IsLoop (forSource rules source) parser) {stream after : TokenStream}
    (hstream : stream.Reads source.toList) :
    parser stream ≠ .error .exhausted after := by
  intro hrun
  rcases h with h | h
  · exact h.settles.founded hstream (unread_lt hstream) hrun
  · exact h.settles.founded hstream (unread_lt hstream) hrun

end Grammar

namespace Program

open Bundler.Parser

instance {source : String} :
    Settles source.toList (source.utf8ByteSize + 2) (wholeSource source)
      (wholeSource source) := by
  rw [wholeSource, Grammar.statements]
  infer_instance

/-- A source is read, or refused for an error in it. -/
theorem parse_cases (source : String) :
    match parse source with
    | .ok program => ∃ last, wholeSource source (ofSource source.toList) =
        .ok program.statements last
    | .error error => ∃ last, wholeSource source (ofSource source.toList) =
        .error (.refused error) last := by
  rw [parse_eq, Parser.run]
  cases hrun : wholeSource source (ofSource source.toList) with
  | ok nodes last => exact ⟨last, rfl⟩
  | error failure last =>
      cases failure with
      | refused error => exact ⟨last, rfl⟩
      | exhausted =>
          have hstream := reads_ofSource source.toList
          have hsettles : Settles source.toList (source.utf8ByteSize + 2)
              (wholeSource source) (wholeSource source) := inferInstance
          exact (hsettles.founded hstream (Grammar.unread_lt hstream)
            hrun).elim

end Program

namespace Grammar

open Bundler.Parser

/-- Wherever it is in a source, the parser goes on: what it reads as an item or
an operand is not empty, and neither is what an operator extends an expression
by.  So each item and each loop comes to an end within its bounds, and a source
is either read or refused. -/
theorem parsing_ends (rules : NameRules) (source : String) :
    (∀ {α : Type} {parser : Parser α},
      IsItem (forSource rules source) parser →
      ∀ {stream value after}, stream.Reads source.toList →
        parser stream = .ok value after → stream.lastEnd < after.lastEnd) ∧
    (∀ {least ends lineEnds left} {stream value after},
      stream.Reads source.toList →
      (forSource rules source).extendExpression least ends lineEnds left
        stream = .ok (.inl value) after → stream.lastEnd < after.lastEnd) ∧
    (∀ {α : Type} {parser : Parser α},
      IsItem (forSource rules source) parser ∨
        IsLoop (forSource rules source) parser →
      ∀ {stream after}, stream.Reads source.toList →
        parser stream ≠ .error .exhausted after) ∧
    match Program.parse source with
    | .ok program => ∃ last, Program.wholeSource source
        (ofSource source.toList) = .ok program.statements last
    | .error error => ∃ last, Program.wholeSource source
        (ofSource source.toList) = .error (.refused error) last := by
  refine ⟨fun hitem _ _ _ hstream hrun => hitem.advances.fills hstream hrun,
    fun {least ends lineEnds left _ _ _} hstream hrun => ?_,
    fun {_ _} h {_ _} hstream => ne_exhausted h hstream,
    Program.parse_cases source⟩
  have hgoes : GoesOnIf Sum.isLeft ((forSource rules
      source).extendExpression least ends lineEnds left) := inferInstance
  exact (hgoes.goesOn hrun rfl).lastEnd_lt hstream

/-- A statement, an operator with its right operand, and a list that is cut
short. -/
theorem parsing_ends_statement :
    (∃ value after, (forSource .module "a;").statement
        (ofSource "a;".toList) = .ok value after ∧
      (ofSource "a;".toList).lastEnd < after.lastEnd) ∧
    (∃ value after, (forSource .module "+b").extendExpression 1 [.endOfInput]
        false (.mk ⟨0, 0⟩ (.ident "a")) (ofSource "+b".toList) =
          .ok (.inl value) after ∧
      (ofSource "+b".toList).lastEnd < after.lastEnd) ∧
    ∀ after, (forSource .module "[a,").arrayLiteral (ofSource "[a,".toList) ≠
      .error .exhausted after := by
  refine ⟨?_, ?_, fun after => (parsing_ends .module "[a,").2.2.1
    (.inr .arrayLiteral) (Program.reads_ofSource _)⟩
  · have hfacts : (((forSource .module "a;").statement.run
        "a;").toOption.any fun _ => true) = true := by decide +kernel
    obtain ⟨⟨value, after⟩, hrun, _⟩ := Except.exists_of_any_toOption hfacts
    have hrun := Program.run_eq_ok_iff.mp hrun
    exact ⟨value, after, hrun, (parsing_ends .module "a;").1 .statement
      (Program.reads_ofSource _) hrun⟩
  · have hfacts : ((((forSource .module "+b").extendExpression 1 [.endOfInput]
        false (.mk ⟨0, 0⟩ (.ident "a"))).run "+b").toOption.any
          fun outcome => outcome.1.isLeft) = true := by decide +kernel
    obtain ⟨⟨value, after⟩, hrun, hleft⟩ := Except.exists_of_any_toOption hfacts
    have hrun := Program.run_eq_ok_iff.mp hrun
    cases value with
    | inl value =>
        exact ⟨value, after, hrun, (parsing_ends .module "+b").2.1
          (Program.reads_ofSource _) hrun⟩
    | inr value => cases hleft

end Grammar

end Bundler
