import Bundler.Proofs.Outcome
import Bundler.Proofs.Parser.Names
import Bundler.Proofs.Parser.Spending
import Bundler.Proofs.Parser.Tallies

/-!
# All rules of the grammar read a word as one name

Names are read by a few rules, each of which consumes the word that the name is.  All
others only pass on what their parts yield, each part once.
-/

namespace Bundler

open Bundler.Parser TokenStream
open Tallied (tally)
open Node (tallyRange tallySpan tallyName tallyParts)

attribute [local simp] tally_untallied tally_shape tally_element tally_patternElement
  tally_declarator tally_body tally_target tally_start tally_names Shape.isName
  tallyName Shape.parts ArrayElement.parts PatternElement.parts Declarator.parts
  FuncBody.parts ForTarget.parts ForStart.parts ImportNames.parts
  Grammar.spanning

variable {place : Span} {held : Nat} {stream after : TokenStream}

/-! ### Words -/

/-- A word that is consumed counts where it stands. -/
theorem TokenStream.Lexes.tally_advance (h : stream.Lexes 0) (mode : LexMode)
    (place : Span) (hword : (stream.prepare mode).upcoming.kind.isWord = true) :
    tallyRange place (stream.prepare mode).upcoming.span +
        (stream.prepare mode).advance.tallyUpTo place stream.consumed ≤
      (stream.prepare mode).advance.tallyUpTo place
        (stream.prepare mode).advance.consumed := by
  have hnext : (stream.prepare mode).advance.buffer[stream.consumed]? = _ :=
    h.getElem?_prepare_consumed mode
  have hconsumed : (stream.prepare mode).advance.consumed = stream.consumed + 1 :=
    congrArg (· + 1) (consumed_prepare mode stream)
  rw [h.upcoming_prepare] at hword
  rw [hconsumed, tallyUpTo_succ, hnext, h.upcoming_prepare, tallyRange,
    Option.any_some, isWordAt]
  change _ ≤ _ + if ((lexToken mode _).token.kind.isWord && _) = true then 1 else 0
  simp only [hword, Bool.true_and, decide_eq_true_eq]
  exact Nat.le_of_eq (Nat.add_comm _ _)

namespace Parser

/-- A word that is consumed may be used as a name. -/
theorem spends_of_word {α : Type} [Tallied α] {next : Token → Parser α} {result : α}
    (hnext : ∀ token, Spends place (tallySpan place token.span) (next token))
    (hstream : stream.Lexes 0)
    (hword : (stream.prepare .standard).upcoming.kind.isWord = true)
    (hrun : (consume >>= next) stream = .ok result after) :
    after.Lexes 0 ∧ Leads 0 stream after ∧
      tally place result + after.tallyUpTo place stream.consumed ≤
        after.tallyUpTo place after.consumed := by
  obtain ⟨token, between, hconsume, hrun⟩ := Outcome.bind_eq_ok_iff.mp hrun
  obtain ⟨hbetween, hforward⟩ :=
    (inferInstance : Disciplined true consume).leads hstream hconsume
  obtain ⟨hafter, hleads, hresult⟩ := (hnext token).spends hbetween hrun
  refine ⟨hafter, hforward.trans hleads, ?_⟩
  obtain ⟨rfl, rfl⟩ := consume_eq_ok_iff.mp hconsume
  have htoken := hstream.tally_advance .standard place hword
  have hspan := Node.tallySpan_le place (stream.prepare .standard).upcoming.span
  rw [hleads.tallyUpTo_eq (Nat.le_refl _)] at hresult
  rw [hleads.tallyUpTo_eq hforward.consumed_le]
  omega

/-- A single word is the name of a node that has its range. -/
theorem spends_node_of_word {word : Parser Token} {shapeOf : String → Shape Node}
    (hword : ∀ {stream token after}, word stream = .ok token after →
      consume stream = .ok token after ∧ token.kind.mayName = true)
    (hparts : ∀ name, (shapeOf name).parts = []) :
    Spends place 0 (node do return shapeOf (← word).text) := by
  constructor
  intro stream result after hstream hrun
  obtain ⟨shape, hshape, rfl⟩ := node_eq_ok_iff.mp hrun
  obtain ⟨token, between, htoken, hshape⟩ := Outcome.bind_eq_ok_iff.mp hshape
  obtain ⟨rfl, rfl⟩ := Outcome.pure_eq_ok_iff.mp hshape
  obtain ⟨hconsume, hkind⟩ := hword htoken
  obtain ⟨hafter, hleads⟩ :=
    (inferInstance : Disciplined true consume).leads hstream hconsume
  obtain ⟨rfl, rfl⟩ := consume_eq_ok_iff.mp hconsume
  refine ⟨hafter, hleads, ?_⟩
  have htoken :=
    hstream.tally_advance .standard place (TokenKind.isWord_of_mayName hkind)
  rw [hstream.spanSince_advance, tally_node, hparts, tallyParts_nil]
  have hname := Node.tallyName_le place (stream.prepare .standard).upcoming.span
    (shapeOf (stream.prepare .standard).upcoming.text)
  omega

/-! ### Literals and clauses -/

instance : Spends place 0 stringLiteral := by
  rw [stringLiteral]
  exact .node (.skip fun _ => .pure (by simp))

instance : Spends place 0 numberLiteral := by
  rw [numberLiteral]
  exact .node (.skip fun _ => .pure (by simp))

instance : Spends place 0 bigintLiteral := by
  rw [bigintLiteral]
  exact .node (.skip fun _ => .pure (by simp))

instance : Spends place 0 booleanLiteral := by
  rw [booleanLiteral]
  refine .node (.skip fun token => ?_)
  split
  · exact .pure (by simp)
  · exact .pure (by simp)
  · exact .fail

instance : Spends place 0 nullLiteral := by
  rw [nullLiteral]
  exact .node (.skip fun _ => .pure (by simp))

instance : Spends place 0 regexLiteral := by
  rw [regexLiteral]
  exact .node (.skip fun _ => .pure (by simp))

instance : Spends place 0 exportItem := by
  rw [exportItem]
  exact .node (.skip fun _ => .skip fun _ => .pure (by simp))

instance : Spends place 0 exportItems := by
  rw [exportItems]
  refine .read fun items => .skip fun source => ?_
  dsimp only
  repeat' split
  all_goals
    first
    | exact .skip fun _ => .pure (by simp)
    | exact .skip fun _ => .skip fun _ => .pure (by simp)

instance : Spends place 0 exportAll := by
  rw [exportAll]
  exact .skip fun _ => .skip fun _ => .skip fun _ => .skip fun _ => .pure (by simp)

end Parser

namespace Grammar

open Bundler.Parser

section WithoutParts

variable (grammar : Grammar)

instance : Spends place 0 grammar.identifier :=
  spends_node_of_word grammar.bindingWord_of_ok fun _ => rfl

instance : Spends place 0 grammar.namePattern :=
  spends_node_of_word grammar.bindingWord_of_ok fun _ => rfl

instance : Spends place 0 grammar.declaredName? := by
  constructor
  intro stream result after hstream hrun
  have hdisciplined : Disciplined true grammar.declaredName? := inferInstance
  obtain ⟨hafter, hleads⟩ := hdisciplined.leads hstream hrun
  refine ⟨hafter, hleads, ?_⟩
  simp only [declaredName?, consumeWhen, bind_assoc, pure_bind] at hrun
  obtain ⟨token, between, hforward, hrun⟩ := Outcome.bind_eq_ok_iff.mp hrun
  obtain ⟨rfl, rfl⟩ := Outcome.pure_eq_ok_iff.mp hrun
  cases hforward
  by_cases hallows :
      grammar.rules.allows (stream.prepare .standard).upcoming.kind = true
  · simp only [hallows, if_true, Option.map_some]
    have htoken := hstream.tally_advance .standard place
      (TokenKind.isWord_of_mayName (TokenKind.mayName_of_allows hallows))
    simp only [tally_some, tally_node, tallyName, Shape.parts, tallyParts_nil]
    omega
  · simp only [hallows, Bool.false_eq_true, if_false, Option.map_none, tally_none,
      Nat.zero_add]
    exact tallyUpTo_mono (Nat.le_of_eq (consumed_prepare _ _).symm)

instance : Spends place 0 grammar.declaredName := by
  rw [declaredName]
  refine .skip fun token => .read fun name => ?_
  cases name with
  | none => exact .fail
  | some name => exact .pure (Nat.le_refl _)

/-- A key that is a word is counted, since it may name a variable as well. -/
theorem spends_literalKey : Spends place 0 (do
    let name ← node do
      let token ← peek
      return .literalKey (← literalKeyText token) token.kind
    return PropertyKey.literal name) := by
  constructor
  intro stream result after hstream hrun
  obtain ⟨name, between, hname, hrun⟩ := Outcome.bind_eq_ok_iff.mp hrun
  obtain ⟨rfl, rfl⟩ := Outcome.pure_eq_ok_iff.mp hrun
  have hdisciplined : Disciplined true (node do
      let token ← peek
      return .literalKey (← literalKeyText token) token.kind) := inferInstance
  obtain ⟨hafter, hleads⟩ := hdisciplined.leads hstream hname
  refine ⟨hafter, hleads, ?_⟩
  obtain ⟨shape, hshape, rfl⟩ := node_eq_ok_iff.mp hname
  obtain ⟨token, between, hpeek, hshape⟩ := Outcome.bind_eq_ok_iff.mp hshape
  obtain ⟨text, between, htext, hshape⟩ := Outcome.bind_eq_ok_iff.mp hshape
  obtain ⟨rfl, rfl⟩ := Outcome.pure_eq_ok_iff.mp hshape
  obtain ⟨htoken, rfl⟩ := peek_eq_ok_iff.mp hpeek
  change (if token.kind.mayName = true then _ else 0) + _ ≤ _
  by_cases hword : token.kind.mayName = true
  · rw [literalKeyText_of_isWord (TokenKind.isWord_of_mayName hword)] at htext
    obtain ⟨found, between, hfound, htext⟩ := Outcome.bind_eq_ok_iff.mp htext
    obtain ⟨rfl, rfl⟩ := Outcome.pure_eq_ok_iff.mp htext
    obtain ⟨hsame, rfl⟩ := consume_eq_ok_iff.mp hfound
    rw [hstream.prepare_prepare, if_pos hword, hstream.spanSince_advance]
    have htally := hstream.tally_advance .standard place
      (by rw [htoken]; exact TokenKind.isWord_of_mayName hword)
    have hspan := Node.tallySpan_le place (stream.prepare .standard).upcoming.span
    omega
  · rw [if_neg hword, Nat.zero_add]
    exact Nat.le_add_left_of_le (tallyUpTo_mono hleads.consumed_le)

/-- A word that is looked at in front of a name in an import clause counts, if it is
the name. -/
theorem spends_clauseName {α : Type} [Tallied α]
    {next : Token → ClauseName → Parser α}
    (hnext : ∀ token imported, Spends place
      (if token.kind.isWord then tallySpan place token.span else 0)
      (next token imported)) :
    Spends place 0 (do
      let token ← peek
      let imported ← clauseName
      next token imported) := by
  constructor
  intro stream result after hstream hrun
  obtain ⟨token, between, hpeek, hbehind⟩ := Outcome.bind_eq_ok_iff.mp hrun
  obtain ⟨imported, later, hclause, hnextRun⟩ := Outcome.bind_eq_ok_iff.mp hbehind
  obtain ⟨hbetween, hpeeked⟩ :=
    (inferInstance : Disciplined true peek).leads hstream hpeek
  obtain ⟨hlater, hforward⟩ :=
    (inferInstance : Disciplined true clauseName).leads hbetween hclause
  obtain ⟨hafter, hleads, hresult⟩ :=
    ((hnext token imported).spends hlater hnextRun)
  have hstart := hpeeked.trans hforward
  refine ⟨hafter, hstart.trans hleads, ?_⟩
  rw [hleads.tallyUpTo_eq (Nat.le_refl _)] at hresult
  rw [hleads.tallyUpTo_eq hstart.consumed_le]
  by_cases hword : token.kind.isWord = true
  · rw [if_pos hword] at hresult
    obtain ⟨hconsume, _⟩ := consume_of_clauseName hstream hpeek hclause hword
    obtain ⟨rfl, rfl⟩ := consume_eq_ok_iff.mp hconsume
    have htoken := hbetween.tally_advance .standard place hword
    have hspan := Node.tallySpan_le place (between.prepare .standard).upcoming.span
    have hcount : tallyUpTo place (between.prepare .standard).advance _ ≤ _ :=
      tallyUpTo_mono hpeeked.consumed_le
    omega
  · rw [if_neg hword] at hresult
    have hcount : later.tallyUpTo place _ ≤ _ := tallyUpTo_mono hstart.consumed_le
    omega

instance : Spends place 0 grammar.importItem := by
  rw [importItem]
  refine .node (spends_clauseName fun token imported => .read fun asName => ?_)
  cases asName with
  | some asName => exact .pure (by simp)
  | none =>
      dsimp only
      by_cases hallowed : grammar.rules.allows token.kind = true
      · have hword :=
          TokenKind.isWord_of_mayName (TokenKind.mayName_of_allows hallowed)
        rw [if_pos hallowed]
        exact .pure (by simp [hword])
      · rw [if_neg hallowed]
        exact .fail

/-! ### Rules without parts of their own -/

theorem spends_metaProperty {word : Keyword} {name what : String}
    {shape : Shape Node} (hshape : tally place shape = 0) :
    Spends place 0 (metaProperty word name what shape) := by
  rw [metaProperty]
  refine .node (.skip fun _ => .skip fun _ => .skip fun property => ?_)
  exact .ite .fail (.pure (Nat.le_of_eq hshape))

instance : Spends place 0 importMeta := spends_metaProperty (by simp)

instance : Spends place 0 newTarget := spends_metaProperty (by simp)

theorem spends_wordExpression {word : Keyword} {shape : Shape Node}
    (hshape : tally place shape = 0) :
    Spends place 0 (wordExpression word shape) := by
  rw [wordExpression]
  exact .node (.skip fun _ => .pure (Nat.le_of_eq hshape))

instance : Spends place 0 grammar.importNames := by
  rw [importNames]
  refine .skip fun token => ?_
  split
  · exact .skip fun _ => .map fun _ => by simp
  · exact .map fun _ => by simp
  · exact .fail

instance : Spends place 0 grammar.importClause := by
  rw [importClause]
  exact .skip fun _ => .ite (.read fun _ => .read fun _ => .pure (by simp; omega))
    (.map fun _ => by simp)

instance : Spends place 0 grammar.importStatement := by
  rw [importStatement]
  refine .node (.skip fun _ => .skip fun _ => .ite ?_ ?_)
  · exact .skip fun _ => .skip fun _ => .pure (by simp)
  · exact .readPair fun _ _ => .skip fun _ => .skip fun _ => .skip fun _ =>
      .pure (by simp)

instance {value : Parser Node} [Disciplined false value] [Spends place 0 value] :
    Spends place 0 (exportDefaultOf value) := by
  rw [exportDefaultOf]
  exact .read fun _ => .skip fun _ => .pure (by simp)

instance : Spends place 0 grammar.breakStatement := by
  rw [breakStatement]
  exact .node (.skip fun _ => .skip fun _ => .pure (by simp))

instance : Spends place 0 grammar.continueStatement := by
  rw [continueStatement]
  exact .node (.skip fun _ => .skip fun _ => .pure (by simp))

instance : Spends place 0 debuggerStatement := by
  rw [debuggerStatement]
  exact .node (.skip fun _ => .skip fun _ => .pure (by simp))

instance : Spends place 0 emptyStatement := by
  rw [emptyStatement]
  exact .node (.skip fun _ => .pure (by simp))

end WithoutParts

/-- The parsers of a grammar for expressions, patterns and statements read a word as
one name. -/
class SpendsNames (place : Span) (grammar : Grammar) : Prop where
  expressionFrom : ∀ least ends lineEnds,
    Spends place 0 (grammar.expressionFrom least ends lineEnds)
  pattern : Spends place 0 grammar.pattern
  statement : Spends place 0 grammar.statement

variable (grammar : Grammar) [hdisciplined : grammar.IsDisciplined]
  [hgrammar : grammar.SpendsNames place]

instance {least : Nat} {ends : List TokenKind} {lineEnds : Bool} :
    Spends place 0 (grammar.expressionFrom least ends lineEnds) :=
  hgrammar.expressionFrom least ends lineEnds

instance : Spends place 0 grammar.pattern := hgrammar.pattern

instance : Spends place 0 grammar.statement := hgrammar.statement

instance {ends : List TokenKind} : Spends place 0 (grammar.expression ends) := by
  rw [expression]
  infer_instance

instance {mark : Punctuator} : Spends place 0 (grammar.expressionUntil mark) := by
  rw [expressionUntil]
  infer_instance

instance {mark : Punctuator} : Spends place 0 (grammar.expressionInList mark) := by
  rw [expressionInList]
  infer_instance

instance {ends : List TokenKind} :
    Spends place 0 (grammar.expressionOrLine ends) := by
  rw [expressionOrLine]
  infer_instance

instance : Spends place 0 grammar.bracedStatements := by
  rw [bracedStatements]
  exact .skip fun _ => .read fun _ => .skip fun _ => .pure (Nat.le_refl _)

/-! ### Literals with parts -/

instance {isTagged : Bool} : Spends place 0 (grammar.templateRest isTagged) := by
  rw [templateRest]
  refine .gather fun found => .read fun value => .skip fun _ => .skip fun token => ?_
  split
  · exact .skip fun _ => .pure (by simp)
  · exact .skip fun _ => .pure (by simp)
  · exact .fail

instance {isTagged : Bool} : Spends place 0 (grammar.templateParts isTagged) := by
  rw [templateParts]
  refine .skip fun token => ?_
  split
  · exact .skip fun _ => .read fun _ => .pure (by simp)
  · exact .skip fun _ => .pure (by simp)
  · exact .fail
  · exact .fail

instance : Spends place 0 grammar.templateLiteral := by
  rw [templateLiteral]
  exact .node (.readPair fun _ _ => .pure (by simp))

instance : Spends place 0 grammar.arrayLiteral := by
  rw [arrayLiteral]
  refine .node (.skip fun _ => .bind (.iterateNil fun found => .skip fun _ => ?_)
    fun elements => .skip fun _ => .pure (by simp))
  refine .ite (.pure (by simp)) (.skip fun _ => .ite (.pure (by simp))
    (.skip fun isSpread => .read fun value => .skip fun _ => .ite (.pure ?_)
      (.skip fun _ => .pure ?_)))
  all_goals cases isSpread <;> simp

/-! ### Keys and patterns -/

instance : Spends place 0 grammar.propertyKey := by
  rw [propertyKey]
  refine .skip fun _ => .ite ?_ spends_literalKey
  exact .read fun _ => .skip fun _ => .pure (Nat.le_refl _)

omit hdisciplined in
/-- The key of a shorthand is what its target is made of, so it is not in hand any
longer, except for what it is on its own. -/
theorem spends_propertyTarget {α : Type} [Tallied α] {key : PropertyKey Node}
    {next : Node × Bool → Parser α}
    (hnext : ∀ target shorthand,
      Spends place (tally place key.part.2 + tally place target)
        (next (target, shorthand))) :
    Spends place (tally place key) (grammar.propertyTarget key >>= next) := by
  have hpart : tally place key.part.2 ≤ tally place key := tally_part_le key
  unfold propertyTarget
  simp only [bind_assoc]
  refine .skip fun isNamed => ?_
  split
  · rw [bind_assoc]
    exact .read fun target => .mono (hnext target false) (by omega)
  · split
    · rename_i span text kind
      split
      · rename_i hallowed
        refine .mono (hnext _ true) (Nat.le_of_eq ?_)
        change _ = if kind.mayName then tallySpan place span else 0
        rw [if_pos (TokenKind.mayName_of_allows hallowed)]
        simp [PropertyKey.part]
      · exact .fail
    · rw [bind_assoc]
      exact .skip fun _ => .fail

instance : Spends place 0 grammar.patternProperty := by
  rw [patternProperty]
  exact .node (.read fun key => .mono (grammar.spends_propertyTarget fun _ _ =>
    .read fun _ => .pure (by simp; omega)) (Nat.le_refl _))

instance : Spends place 0 grammar.objectPattern := by
  rw [objectPattern]
  refine .node (.skip fun _ => .bindPair (.iterateNil fun found => .skip fun _ =>
    .ite (.pure (by simp)) (.skip fun _ => .ite (.read fun rest => .pure ?_)
      (.read fun property => .skip fun _ => .ite (.pure ?_) (.pure ?_))))
    fun properties rest => .skip fun _ => .pure ?_)
  all_goals simp <;> omega

instance : Spends place 0 grammar.arrayPattern := by
  rw [arrayPattern]
  refine .node (.skip fun _ => .bindPair (.iterateNil fun found => .skip fun _ =>
    .ite (.pure (by simp)) (.skip fun _ => .ite (.read fun rest => .pure ?_)
      (.skip fun _ => .ite (.pure (by simp)) (.read fun target =>
        .read fun initial => .skip fun _ => .ite (.pure ?_) (.pure ?_)))))
    fun elements rest => .skip fun _ => .pure ?_)
  all_goals simp <;> omega

theorem spends_patternRule : Spends place 0 grammar.patternRule := by
  rw [patternRule]
  refine .skip fun token => ?_
  repeat' split
  all_goals
    first
    | infer_instance
    | exact .fail

/-! ### Functions, classes and members -/

instance : Spends place 0 grammar.parameter := by
  rw [parameter]
  exact .node (.skip fun _ => .read fun _ => .read fun _ => .pure (by simp; omega))

instance : Spends place 0 grammar.parameters := by
  rw [parameters]
  exact .skip fun _ => inferInstance

instance {isAsync isGenerator : Bool} :
    Spends place 0 (grammar.functionTail isAsync isGenerator) := by
  rw [functionTail]
  exact .node (.read fun _ => .read fun _ => .pure (by simp; omega))

instance {kind : MemberKind} {isAsync isGenerator : Bool} :
    Spends place 0 (grammar.methodMember kind isAsync isGenerator) := by
  rw [methodMember]
  exact .read fun _ => .read fun _ => .pure (by simp; omega)

instance {valueMark endMark : Punctuator} {lineEnds : Bool} :
    Spends place 0 (grammar.keyedMember valueMark endMark lineEnds) := by
  rw [keyedMember]
  exact .read fun _ => .skip fun _ => .ite
    (.read fun _ => .pure (by simp; omega)) (.read fun _ => .pure (by simp; omega))

instance {valueMark endMark : Punctuator} {lineEnds : Bool} :
    Spends place 0 (grammar.member valueMark endMark lineEnds) := by
  rw [member]
  refine .skipPair fun first second => ?_
  dsimp only
  split
  · exact .ite inferInstance (.skip fun _ => inferInstance)
  · exact .ite inferInstance (.skip fun _ => inferInstance)
  · exact .ite inferInstance (.skip fun _ => .skip fun _ => inferInstance)
  · exact .skip fun _ => inferInstance
  · infer_instance

instance : Spends place 0 grammar.classMember := by
  rw [classMember]
  refine .node (.skipPair fun first second => ?_)
  dsimp only
  split
  · refine .skip fun _ => .read fun found => .skip fun _ => .pure ?_
    obtain ⟨key, kind, value⟩ := found
    simpa using tally_part_le key
  · refine .read fun found => .skip fun _ => .pure ?_
    obtain ⟨key, kind, value⟩ := found
    simpa using tally_part_le key

instance : Spends place 0 grammar.classBody := by
  rw [classBody]
  refine .skip fun _ => .bind (.iterateNil fun found => .skip fun _ =>
    .ite (.pure (by simp)) (.skip fun _ => .ite (.pure (by simp))
      (.read fun _ => .pure (by simp)))) fun _ => .skip fun _ => .pure (by simp)

instance : Spends place 0 grammar.heritage? := by
  rw [heritage?]
  infer_instance

theorem spends_shorthandMember {span : Span} {text : String} {kind : TokenKind} :
    Spends place (if kind.mayName then tallySpan place span else 0)
      (grammar.shorthandMember span text kind (.mk span (.literalKey text kind))) := by
  rw [shorthandMember]
  by_cases hallowed : grammar.rules.allows kind = true
  · rw [if_pos (TokenKind.mayName_of_allows hallowed)]
    simp only [hallowed, Bool.not_true, Bool.false_eq_true, if_false]
    refine .read fun initial => ?_
    cases initial with
    | none => exact .pure (by simp)
    | some initial => exact .pure (by simp [PropertyKey.part]; omega)
  · simp only [hallowed]
    exact .fail

instance : Spends place 0 grammar.objectMember := by
  rw [objectMember]
  refine .node (.skip fun _ => .ite (.read fun _ => .pure (by simp))
    (.read fun found => ?_))
  obtain ⟨key, kind, value⟩ := found
  dsimp only
  split
  · rename_i name
    split
    · exact .mono grammar.spends_shorthandMember (Nat.le_refl _)
    · exact .fail
  · exact .fail
  · refine .pure ?_
    have hpart : tally place key.part.2 ≤ tally place key := tally_part_le key
    simp
    omega

instance : Spends place 0 grammar.objectLiteral := by
  rw [objectLiteral]
  refine .node (.skip fun _ => .bind (.iterateNil fun found => .skip fun _ =>
    .ite (.pure (by simp)) (.read fun _ => .skip fun _ => .ite (.pure ?_) (.pure ?_)))
    fun members => .skip fun _ => .pure ?_)
  all_goals simp

/-! ### Operands -/

instance : Spends place 0 grammar.arrowHead := by
  constructor
  intro stream result after hstream hrun
  rw [arrowHead] at hrun
  obtain ⟨⟨first, second⟩, between, hpeek, hrun⟩ :=
    Outcome.bind_eq_ok_iff.mp hrun
  obtain ⟨hbetween, hpeeked⟩ :=
    (inferInstance : Disciplined true peekTwo).leads hstream hpeek
  dsimp only at hrun
  have hrest : after.Lexes 0 ∧ Leads 0 between after ∧
      tally place result + after.tallyUpTo place between.consumed ≤
        after.tallyUpTo place after.consumed := by
    split at hrun
    · rename_i hsingle
      obtain ⟨hallowed, _⟩ := Bool.and_eq_true_iff.mp hsingle
      have hfirst := eq_of_peekTwo hstream hpeek (consume_eq_ok_iff.mpr ⟨rfl, rfl⟩)
      refine spends_of_word (fun name => .skip fun _ => .pure (by simp)) hbetween ?_
        hrun
      rw [hfirst]
      exact TokenKind.isWord_of_mayName (TokenKind.mayName_of_allows hallowed)
    · have hparameters : Spends place 0 (do
          let parameters ← grammar.parameters
          let arrow ← requireMark .equalsChevronRight
          return (parameters, arrow)) := .read fun _ => .skip fun _ => .pure (by simp)
      simpa using hparameters.spends hbetween hrun
  obtain ⟨hafter, hleads, hresult⟩ := hrest
  refine ⟨hafter, hpeeked.trans hleads, ?_⟩
  have hcount : after.tallyUpTo place stream.consumed ≤ _ :=
    tallyUpTo_mono hpeeked.consumed_le
  omega

instance {ends : List TokenKind} : Spends place 0 (grammar.arrowBody ends) := by
  rw [arrowBody]
  exact .skip fun _ => .ite (.read fun _ => .pure (by simp))
    (.read fun _ => .pure (by simp))

instance {ends : List TokenKind} : Spends place 0 (grammar.arrowFunction ends) := by
  rw [arrowFunction]
  refine .bind (.node (.skipPair fun first second => ?_)) fun func => .pure (by simp)
  refine .ite (.skip fun _ => ?_) (.skip fun _ => ?_)
  all_goals
    exact .readPair fun _ _ => .ite .fail (.read fun _ => .pure (by simp; omega))

instance {ends : List TokenKind} {other : Parser Node} [Disciplined false other]
    [hother : Spends place 0 other] :
    Spends place 0 (grammar.arrowFunctionOr ends other) := by
  rw [arrowFunctionOr_eq]
  refine .rewinding (fun outcome hback => ?_) fun outcome => ?_
  · cases outcome with
    | ok arrow => exact absurd hback Bool.false_ne_true
    | error error => rfl
  · cases outcome with
    | ok arrow => exact .pure (Nat.le_refl _)
    | error error => exact .ite .fail (hother.mono (Nat.zero_le _))

instance {lineEnds : Bool} : Spends place 0 (grammar.grouping lineEnds) := by
  rw [grouping]
  exact .skip fun _ => .read fun _ => .skip fun _ => .pure (Nat.le_refl _)

instance : Spends place 0 grammar.functionExpression := by
  rw [functionExpression]
  exact .node (.skip fun _ => .skip fun _ => .skip fun _ => .read fun _ =>
    .read fun _ => .pure (by simp; omega))

instance : Spends place 0 grammar.classExpression := by
  rw [classExpression]
  exact .node (.skip fun _ => .read fun _ => .read fun _ => .read fun _ =>
    .pure (by simp; omega))

instance : Spends place 0 grammar.importCall := by
  rw [importCall]
  exact .node (.skip fun _ => .skip fun _ => .read fun _ => .skip fun _ =>
    .skip fun _ => .pure (by simp))

omit hdisciplined hgrammar in
/-- What is implied has no text, so it does not count. -/
theorem tallySpan_point (offset : Nat) : tallySpan place (.point offset) = 0 := by
  simp [tallySpan, Span.point, Span.isEmpty]

instance {ends : List TokenKind} {lineEnds : Bool} :
    Spends place 0 (grammar.unaryExpression ends lineEnds) := by
  rw [unaryExpression]
  refine .node (.skip fun token => ?_)
  split
  · exact .fail
  · refine .ite (.skip fun _ => ?_) (.skip fun _ => ?_)
    all_goals
      refine .skip fun next => .ite (.read fun stream => .pure ?_)
        (.read fun operand => .pure ?_)
      · simp [tallySpan_point]
      · simp

instance {ends : List TokenKind} {second third : Token} :
    Spends place 0 (grammar.asyncOperand ends second third) := by
  rw [asyncOperand]
  exact .ite inferInstance (.ite inferInstance (.ite inferInstance inferInstance))

instance {first second : Token} {word : Keyword} :
    Spends place 0 (grammar.wordOperand first second word) := by
  unfold wordOperand
  split
  all_goals
    first
    | infer_instance
    | exact .fail
    | exact spends_wordExpression (by simp)
    | exact .ite inferInstance (.ite inferInstance .fail)

instance {ends : List TokenKind} {lineEnds : Bool} {first second : Token} :
    Spends place 0 (grammar.otherOperand ends lineEnds first second) := by
  rw [otherOperand]
  split <;> first | infer_instance | exact .fail

instance {ends : List TokenKind} {lineEnds : Bool} :
    Spends place 0 (grammar.operand ends lineEnds) := by
  rw [operand_eq]
  refine .rewinding (fun _ _ => by simp) fun tokens => ?_
  obtain ⟨first, second, third⟩ := tokens
  dsimp only
  refine .mono ?_ (Nat.zero_le _)
  repeat' split
  all_goals infer_instance

/-! ### Operator expressions -/

instance : Spends place 0 grammar.argument := by
  rw [argument]
  exact .node (.skip fun _ => .read fun _ => .pure (by simp))

instance : Spends place 0 grammar.arguments := by
  rw [arguments]
  exact .gather fun found => .skip fun _ => .ite (.pure (by simp))
    (.read fun _ => .skip fun _ => .ite (.pure (by simp)) (.pure (by simp)))

variable {left : Node} {optional lineEnds : Bool} {ends : List TokenKind}

omit hdisciplined in
theorem spends_callOn :
    Spends place (tally place left) (grammar.callOn left optional) := by
  rw [callOn]
  exact .read fun _ => .skip fun _ => .pure (by simp; omega)

omit hdisciplined in
theorem spends_computedMemberOf :
    Spends place (tally place left) (grammar.computedMemberOf left optional) := by
  rw [computedMemberOf]
  exact .read fun _ => .skip fun _ => .pure (by simp; omega)

omit hdisciplined hgrammar in
theorem spends_memberOf :
    Spends place (tally place left) (memberOf left optional) := by
  rw [memberOf]
  exact .skip fun _ => .ite (.pure (by simp)) .fail

omit hdisciplined in
theorem spends_conditionalOn :
    Spends place (tally place left) (grammar.conditionalOn left ends lineEnds) := by
  rw [conditionalOn]
  exact .read fun _ => .skip fun _ => .read fun _ => .pure (by simp; omega)

omit hdisciplined in
theorem spends_binaryOn {operator : Operator} :
    Spends place (tally place left)
      (grammar.binaryOn left operator ends lineEnds) := by
  rw [binaryOn]
  dsimp only
  split
  · split
    · rename_i target htarget
      have hle : tally place target ≤ tally place left :=
        tally_toAssignmentTarget_le htarget
      rw [pure_bind]
      exact .mono (.read fun _ => .pure (by simp; omega)) hle
    · exact .fail
  · rw [pure_bind]
    exact .read fun _ => .pure (by simp; omega)

omit hdisciplined in
theorem spends_operationOn {operator : Operator} :
    Spends place (tally place left)
      (grammar.operationOn left operator ends lineEnds) := by
  unfold operationOn
  split
  · exact grammar.spends_callOn
  · exact grammar.spends_callOn
  · exact grammar.spends_computedMemberOf
  · exact grammar.spends_computedMemberOf
  · exact spends_memberOf
  · exact spends_memberOf
  · exact grammar.spends_conditionalOn
  · exact grammar.spends_binaryOn

omit hdisciplined in
theorem spends_taggedTemplate :
    Spends place (tally place left) (grammar.taggedTemplate left) := by
  rw [taggedTemplate]
  refine .read fun found => .pure ?_
  obtain ⟨span, texts, values⟩ := found
  simp
  omega

omit hdisciplined in
theorem spends_extendExpression {least : Nat} :
    Spends place (tally place left)
      (grammar.extendExpression least ends lineEnds left) := by
  rw [extendExpression_eq]
  refine .rewinding (fun _ _ => by simp) fun token => .mono ?_ (Nat.le_add_left _ _)
  rw [extendAt]
  refine .ite (.pure (by simp)) ?_
  split
  · exact .ite (.pure (by simp)) (.pure (by simp))
  · refine .ite (.passing grammar.spends_taggedTemplate
      fun _ => Nat.le_refl _) ?_
    split
    · exact .ite (.pure (by simp)) .fail
    · exact .ite (.pure (by simp)) (.passing grammar.spends_operationOn
        fun _ => Nat.le_refl _)

theorem spends_expressionRule (least : Nat) (ends : List TokenKind)
    (lineEnds : Bool) :
    Spends place 0 (grammar.expressionRule least ends lineEnds) := by
  rw [expressionRule]
  exact .read fun first => .mono (.iterate (fun _ => grammar.spends_extendExpression) first) (Nat.le_refl _)

/-! ### Declarations -/

instance : Spends place 0 (grammar.declarator ends lineEnds) := by
  rw [declarator]
  exact .read fun _ => .read fun _ => .pure (by simp; omega)

instance : Spends place 0 grammar.variableDeclaration := by
  rw [variableDeclaration]
  refine .node (.skip fun kind => .bind (.iterateNil fun found => .read fun _ =>
    .skip fun _ => .ite (.pure (by simp)) (.skip fun _ => .pure (by simp)))
    fun found => .pure (by simp))

instance : Spends place 0 grammar.headerVariables := by
  rw [headerVariables]
  refine .node (.skip fun kind => .bind (.iterateNil fun found => .read fun _ =>
    .skip fun _ => .ite (.pure (by simp)) (.pure (by simp)))
    fun found => .pure (by simp))

instance : Spends place 0 grammar.functionDeclaration := by
  rw [functionDeclaration]
  exact .node (.skip fun _ => .skip fun _ => .skip fun _ => .read fun _ =>
    .read fun _ => .pure (by simp; omega))

instance : Spends place 0 grammar.classDeclaration := by
  rw [classDeclaration]
  exact .node (.skip fun _ => .read fun _ => .read fun _ => .read fun _ =>
    .pure (by simp; omega))

/-! ### Loops -/

instance : Spends place 0 grammar.forBody := by
  rw [forBody]
  exact .node (.skip fun _ => .ite (.read fun _ => .pure (by simp))
    (.read fun _ => .pure (by simp)))

instance : Spends place 0 grammar.forTarget := by
  rw [forTarget]
  refine .skipPair fun first second => .ite
    (.skip fun _ => .read fun _ => .pure (by simp)) (.read fun target => ?_)
  split
  · rename_i pattern hpattern
    exact .pure (by simpa using tally_toPattern_le hpattern)
  · exact .fail

instance : Spends place 0 grammar.forRest := by
  rw [forRest]
  exact .read fun _ => .skip fun _ => .read fun _ => .pure (by simp; omega)

instance : Spends place 0 grammar.keysLoop := by
  rw [keysLoop]
  exact .node (.skip fun _ => .skip fun _ => .read fun _ => .skip fun _ =>
    .readPair fun _ _ => .pure (by simp; omega))

instance : Spends place 0 grammar.valuesLoop := by
  rw [valuesLoop]
  exact .node (.skip fun _ => .skip fun _ => .skip fun _ => .read fun _ =>
    .skip fun _ => .readPair fun _ _ => .pure (by simp; omega))

instance : Spends place 0 grammar.forStart := by
  rw [forStart]
  exact .skipPair fun first second => .ite (.pure (by simp))
    (.ite (.read fun _ => .pure (by simp)) (.read fun _ => .pure (by simp)))

instance {close : Punctuator} : Spends place 0 (grammar.forPart close) := by
  rw [forPart]
  exact .skip fun _ => .ite (.pure (by simp))
    (.read fun _ => .skip fun _ => .pure (by simp))

instance : Spends place 0 grammar.countingLoop := by
  rw [countingLoop]
  exact .node (.skip fun _ => .skip fun _ => .read fun _ => .skip fun _ =>
    .read fun _ => .read fun _ => .read fun _ => .pure (by simp; omega))

instance : Spends place 0 grammar.forStatement := by
  rw [forStatement_eq]
  refine .rewinding (fun _ _ => by simp) fun kind => .mono ?_ (Nat.zero_le _)
  cases kind with
  | counting => exact inferInstanceAs (Spends place 0 grammar.countingLoop)
  | keys => exact inferInstanceAs (Spends place 0 grammar.keysLoop)
  | values => exact inferInstanceAs (Spends place 0 grammar.valuesLoop)

/-! ### Exports -/

instance : Spends place 0 grammar.defaultExport := by
  rw [defaultExport]
  refine .skipPair fun first second => .ite (.skip fun _ => .ite ?_ inferInstance)
    (.ite (.ite ?_ inferInstance) (.read fun _ => .skip fun _ => .pure (by simp)))
  · exact .read fun _ => .pure (by simp)
  · exact .read fun _ => .pure (by simp)

instance : Spends place 0 grammar.exportStatement := by
  rw [exportStatement]
  refine .node (.skip fun word => .skipPair fun first second => ?_)
  dsimp only
  split
  all_goals
    first
    | exact .skip fun _ => inferInstance
    | exact .read fun _ => .pure (by simp)
    | exact .ite (.read fun _ => .pure (by simp)) .fail

/-! ### Statements -/

instance : Spends place 0 grammar.blockStatement := by
  rw [blockStatement]
  exact .node (.read fun _ => .pure (by simp))

instance : Spends place 0 grammar.lastExpression := by
  rw [lastExpression]
  exact .read fun _ => .skip fun _ => .pure (Nat.le_refl _)

instance : Spends place 0 grammar.expressionStatement := by
  rw [expressionStatement]
  exact .node (.read fun _ => .pure (by simp))

instance : Spends place 0 grammar.labelledStatement := by
  rw [labelledStatement]
  exact .node (.skip fun _ => .skip fun _ => .read fun _ => .pure (by simp))

instance : Spends place 0 grammar.parenthesized := by
  rw [parenthesized]
  exact .skip fun _ => .read fun _ => .skip fun _ => .pure (Nat.le_refl _)

instance : Spends place 0 grammar.ifStatement := by
  rw [ifStatement]
  exact .node (.skip fun _ => .read fun _ => .read fun _ => .read fun _ =>
    .pure (by simp; omega))

instance : Spends place 0 grammar.returnStatement := by
  rw [returnStatement]
  exact .node (.skip fun _ => .skip fun _ => .ite (.pure (by simp))
    (.skip fun _ => .ite (.pure (by simp)) (.read fun _ => .pure (by simp))))

instance : Spends place 0 grammar.throwStatement := by
  rw [throwStatement]
  exact .node (.skip fun _ => .skip fun _ => .ite .fail
    (.read fun _ => .pure (by simp)))

instance : Spends place 0 grammar.catchClause := by
  rw [catchClause]
  have hcaught : Spends place 0 (do
      let pattern ← grammar.pattern
      let _ ← requireMark .parenthesisClose
      return pattern) := .read fun _ => .skip fun _ => .pure (Nat.le_refl _)
  exact .node (.skip fun _ => .read fun _ => .read fun _ => .pure (by simp; omega))

instance : Spends place 0 grammar.tryStatement := by
  rw [tryStatement]
  refine .node (.skip fun word => .read fun body => .skip fun _ =>
    .ite (.read fun handler => ?_) ?_)
  all_goals
    rw [pure_bind]
    exact .read fun _ => .ite .fail (.pure (by simp; omega))

instance : Spends place 0 grammar.whileStatement := by
  rw [whileStatement]
  exact .node (.skip fun _ => .read fun _ => .read fun _ => .pure (by simp; omega))

instance : Spends place 0 grammar.withStatement := by
  rw [withStatement]
  exact .node (.skip fun _ => .read fun _ => .read fun _ => .pure (by simp; omega))

instance : Spends place 0 grammar.doWhileStatement := by
  rw [doWhileStatement]
  exact .node (.skip fun _ => .read fun _ => .skip fun _ => .read fun _ =>
    .skip fun _ => .pure (by simp))

instance : Spends place 0 grammar.switchCase := by
  rw [switchCase]
  exact .node (.read fun _ => .ite
    (.skip fun _ => .skip fun _ => .read fun _ => .pure (by simp; omega))
    (.skip fun _ => .read fun _ => .pure (by simp; omega)))

instance : Spends place 0 grammar.switchStatement := by
  rw [switchStatement]
  have hcase : Spends place 0 (do
      if ← acceptMark .braceClose then return none
      else return some (← grammar.switchCase)) :=
    .skip fun _ => .ite (.pure (by simp)) (.read fun _ => .pure (by simp))
  exact .node (.skip fun _ => .read fun _ => .skip fun _ => .read fun _ =>
    .pure (by simp; omega))

instance {first second : Token} :
    Spends place 0 (grammar.otherStatement first second) := by
  rw [otherStatement]
  exact .ite inferInstance (.ite inferInstance inferInstance)

instance {first second : Token} {word : Keyword} :
    Spends place 0 (grammar.wordStatement first second word) := by
  unfold wordStatement
  split
  all_goals
    first
    | infer_instance
    | exact .ite inferInstance inferInstance

theorem spends_statementRule : Spends place 0 grammar.statementRule := by
  rw [statementRule]
  refine .skipPair fun first second => ?_
  dsimp only
  split <;> infer_instance

/-! ### The whole grammar -/

instance : grammar.deepen.SpendsNames place where
  expressionFrom := grammar.spends_expressionRule
  pattern := grammar.spends_patternRule
  statement := grammar.spends_statementRule

omit hdisciplined hgrammar in
instance spendsNames_ofDepth (rules : NameRules) (depth : Nat) :
    (ofDepth rules depth).SpendsNames place := by
  induction depth with
  | zero =>
      exact ⟨fun _ _ _ => Spends.exhausted, Spends.exhausted, Spends.exhausted⟩
  | succ depth ih => exact inferInstanceAs ((deepen _).SpendsNames place)

omit hdisciplined hgrammar in
instance {rules : NameRules} {source : String} :
    (forSource rules source).SpendsNames place :=
  spendsNames_ofDepth rules _

end Grammar

end Bundler
