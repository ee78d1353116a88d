import Bundler.Proofs.Parser.Rules
import Bundler.Proofs.Parser.Tokens

/-!
# What takes up text

A parser goes on in its text if one of its steps does, since no step gives back
what the steps before it have consumed.  A single token takes up text unless it
is the end of the source or fits nothing, and no rule accepts one of these.
Every node of a tree comes from such a parser, so no node is empty, and nothing
is read twice from the same place.
-/

set_option synthInstance.maxSize 1000

namespace Bundler

/-- Tokens of this kind take up text. -/
def TokenKind.IsSolid (kind : TokenKind) : Prop :=
  kind ≠ .endOfInput ∧ kind ≠ .invalid

theorem NameRules.isSolid_of_allows {rules : NameRules} {kind : TokenKind}
    (h : rules.allows kind = true) : kind.IsSolid :=
  ⟨by rintro rfl; simp [allows] at h, by rintro rfl; simp [allows] at h⟩

theorem TokenKind.isSolid_of_isWord {kind : TokenKind}
    (h : kind.isWord = true) : kind.IsSolid :=
  ⟨by rintro rfl; simp [isWord] at h, by rintro rfl; simp [isWord] at h⟩

theorem TokenKind.isSolid_of_unaryOperator? {kind : TokenKind}
    {operator : Operator} (h : kind.unaryOperator? = some operator) :
    kind.IsSolid :=
  ⟨by rintro rfl; simp [unaryOperator?] at h,
    by rintro rfl; simp [unaryOperator?] at h⟩

namespace Parser

open TokenStream

variable {α β : Type} {parser : Parser α} {next : α → Parser β}
  {looks : Bool} {text : List Char} {stream after : TokenStream}

/-- What has been consumed stays consumed. -/
theorem Disciplined.consumed_le (h : Disciplined looks parser)
    (stream : TokenStream) :
    stream.consumed ≤ (leaves parser stream).consumed := by
  refine h.relates (fun stream after => stream.consumed ≤ after.consumed)
    (fun _ => Nat.le_refl _) Nat.le_trans (fun mode keep stream => ?_)
    (fun _ => Nat.le_refl _) stream
  rw [TokenStream.forward]
  dsimp only
  split
  · exact Nat.le_succ_of_le
      (Nat.le_of_eq (TokenStream.consumed_prepare mode stream).symm)
  · exact Nat.le_of_eq (TokenStream.consumed_prepare mode stream).symm

theorem Disciplined.consumed_le_of_ok (h : Disciplined looks parser)
    {value : α} (hrun : parser stream = .ok value after) :
    stream.consumed ≤ after.consumed := by
  have hle := h.consumed_le stream
  rwa [leaves_of_ok hrun] at hle

/-- Reading goes on in the text, and not back. -/
theorem Disciplined.lastEnd_le (h : Disciplined looks parser)
    (hstream : stream.Reads text) {value : α}
    (hrun : parser stream = .ok value after) :
    stream.lastEnd ≤ after.lastEnd :=
  hstream.lastEnd_le (h.reads hstream hrun) (h.leads hstream.lexes hrun).2

/-- Going back to where a stream has come from ends where it ended there. -/
theorem lastEnd_restore (hleads : Leads 0 stream after) :
    (after.restore stream.checkpoint).lastEnd = stream.lastEnd :=
  stopAt_congr fun index hindex =>
    (hleads.read_eq index (Nat.zero_le index) hindex).symm

theorem Disciplined.reads_restore (h : Disciplined looks parser)
    (hstream : stream.Reads text) {value : α}
    (hrun : parser stream = .ok value after) :
    (after.restore stream.checkpoint).Reads text := by
  have hafter := h.reads hstream hrun
  exact ⟨(hstream.lexes.restore hafter.lexes
    (h.leads hstream.lexes hrun).2).1, hafter.origin_eq, hafter.size_eq⟩

/-- A stream has gone on to another one by text and not by empty tokens alone. -/
structure GoesOn (stream after : TokenStream) : Prop where
  consumed_lt : stream.consumed < after.consumed
  lastEnd_lt : ∀ {text}, stream.Reads text → stream.lastEnd < after.lastEnd

/-- Parsers that take up text if they succeed. -/
class Advances {α : Type} (parser : Parser α) : Prop where
  goesOn : ∀ {stream value after}, parser stream = .ok value after →
    GoesOn stream after

theorem Advances.lt (h : Advances parser) {value : α}
    (hrun : parser stream = .ok value after) :
    stream.consumed < after.consumed := (h.goesOn hrun).consumed_lt

theorem Advances.fills (h : Advances parser) (hstream : stream.Reads text)
    {value : α} (hrun : parser stream = .ok value after) :
    stream.lastEnd < after.lastEnd := (h.goesOn hrun).lastEnd_lt hstream

section Composition

theorem Disciplined.goesOn_later (h : Disciplined looks parser) {value : α}
    {between : TokenStream} (hrun : parser stream = .ok value between)
    (hlater : GoesOn between after) : GoesOn stream after :=
  ⟨Nat.lt_of_le_of_lt (h.consumed_le_of_ok hrun) hlater.consumed_lt,
    fun hstream => Nat.lt_of_le_of_lt (h.lastEnd_le hstream hrun)
      (hlater.lastEnd_lt (h.reads hstream hrun))⟩

theorem GoesOn.further {between : TokenStream} (h : GoesOn stream between)
    (hreads : ∀ {text}, stream.Reads text → between.Reads text)
    (hparser : Disciplined looks parser) {value : α}
    (hrun : parser between = .ok value after) : GoesOn stream after :=
  ⟨Nat.lt_of_lt_of_le h.consumed_lt (hparser.consumed_le_of_ok hrun),
    fun hstream => Nat.lt_of_lt_of_le (h.lastEnd_lt hstream)
      (hparser.lastEnd_le (hreads hstream) hrun)⟩

theorem Advances.later (hparser : Disciplined false parser)
    (hnext : ∀ value, Advances (next value)) : Advances (parser >>= next) := by
  constructor
  intro stream result after hrun
  obtain ⟨value, between, hfirst, hsecond⟩ := Outcome.bind_eq_ok_iff.mp hrun
  exact hparser.goesOn_later hfirst ((hnext value).goesOn hsecond)

instance [hparser : Disciplined false parser]
    [hnext : ∀ value, Advances (next value)] :
    Advances (parser >>= next) := .later hparser hnext

theorem Advances.first [hdisciplined : Disciplined false parser]
    (hparser : Advances parser)
    (hnext : ∀ value, Disciplined false (next value)) :
    Advances (parser >>= next) := by
  constructor
  intro stream result after hrun
  obtain ⟨value, between, hfirst, hsecond⟩ := Outcome.bind_eq_ok_iff.mp hrun
  exact (hparser.goesOn hfirst).further
    (fun hstream => hdisciplined.reads hstream hfirst) (hnext value) hsecond

instance [hdisciplined : Disciplined false parser]
    [hparser : Advances parser]
    [hnext : ∀ value, Disciplined false (next value)] :
    Advances (parser >>= next) := .first hparser hnext

/-- Parsers that never succeed. -/
def Refuses (parser : Parser α) : Prop :=
  ∀ stream value after, parser stream ≠ .ok value after

theorem Refuses.advances (h : Refuses parser) : Advances parser :=
  ⟨fun hrun => absurd hrun (h _ _ _)⟩

theorem refuses_fail (error : SyntaxError) :
    Refuses (fail error : Parser α) := fun _ _ _ => Outcome.throw_ne_ok

theorem refuses_fail_bind (error : SyntaxError) :
    Refuses (fail error >>= next) := refuses_fail error

instance {error : SyntaxError} : Advances (fail error : Parser α) :=
  (refuses_fail error).advances

instance {error : SyntaxError} : Advances (fail error >>= next) :=
  (refuses_fail_bind error).advances

instance : Advances (exhausted : Parser α) :=
  Refuses.advances fun _ _ _ => Outcome.throw_ne_ok

instance {condition : Prop} [Decidable condition] {other : Parser α}
    [h : Advances parser] [hother : Advances other] :
    Advances (if condition then parser else other) := by
  split
  · exact h
  · exact hother

/-- Parsers that take up text if they yield a value that asks for more. -/
class GoesOnIf {α : Type} (goes : α → Bool) (parser : Parser α) : Prop where
  goesOn : ∀ {stream value after}, parser stream = .ok value after →
    goes value = true → GoesOn stream after

theorem Advances.goesOnIf {goes : α → Bool} (h : Advances parser) :
    GoesOnIf goes parser := ⟨fun hrun _ => h.goesOn hrun⟩

instance {goes : α → Bool} [h : Advances parser] : GoesOnIf goes parser :=
  h.goesOnIf

theorem Advances.of_goesOnIf (h : GoesOnIf (fun _ => true) parser) :
    Advances parser := ⟨fun hrun => h.goesOn hrun rfl⟩

/-- What is read after going back has to take up text, and so has what is not
gone back from, unless it is refused. -/
theorem GoesOnIf.rewinding {back : α → Bool} {more : β → Bool}
    (hback : ∀ value, back value = true → GoesOnIf more (next value))
    (hparser : ∀ {stream value after}, back value = false →
      parser stream = .ok value after →
      GoesOnIf more (next value) ∨ GoesOn stream after)
    (hnext : ∀ value, Disciplined false (next value))
    (hdisciplined : Disciplined false parser) :
    GoesOnIf more (rewinding parser back next) := by
  constructor
  intro stream result after hrun hmore
  cases hfirst : parser stream with
  | error failure between =>
      rw [rewinding_of_error hfirst] at hrun
      cases hrun
  | ok value between =>
      rw [rewinding_of_ok hfirst] at hrun
      cases hgoes : back value with
      | true =>
          rw [hgoes, if_pos rfl] at hrun
          have hnext := (hback value hgoes).goesOn hrun hmore
          refine ⟨hnext.consumed_lt, fun hstream => ?_⟩
          rw [← lastEnd_restore (hdisciplined.leads hstream.lexes hfirst).2]
          exact hnext.lastEnd_lt (hdisciplined.reads_restore hstream hfirst)
      | false =>
          rw [hgoes, if_neg Bool.false_ne_true] at hrun
          rcases hparser hgoes hfirst with hgoesOn | hgone
          · exact hdisciplined.goesOn_later hfirst (hgoesOn.goesOn hrun hmore)
          · exact hgone.further
              (fun hstream => hdisciplined.reads hstream hfirst)
              (hnext value) hrun

theorem Advances.rewinding {back : α → Bool}
    (hback : ∀ value, back value = true → Advances (next value))
    (hparser : ∀ {stream value after}, back value = false →
      parser stream = .ok value after →
      Advances (next value) ∨ GoesOn stream after)
    (hnext : ∀ value, Disciplined false (next value))
    (hdisciplined : Disciplined false parser) :
    Advances (rewinding parser back next) :=
  .of_goesOnIf (.rewinding (fun value hgoes => (hback value hgoes).goesOnIf)
    (fun hgoes hrun => (hparser hgoes hrun).imp_left Advances.goesOnIf) hnext
    hdisciplined)

theorem Advances.withSpan (h : Advances parser) :
    Advances (withSpan parser) := by
  constructor
  intro stream result after hrun
  cases hparser : parser stream with
  | error failure between =>
      rw [withSpan_of_error hparser] at hrun
      cases hrun
  | ok value between =>
      rw [withSpan_of_ok hparser] at hrun
      cases hrun
      exact h.goesOn hparser

instance [h : Advances parser] : Advances (withSpan parser) := h.withSpan

theorem Advances.node {shape : Parser (Shape Node)} (h : Advances shape) :
    Advances (node shape) := by
  constructor
  intro stream found after hrun
  obtain ⟨⟨span, value⟩, between, hspan, hpure⟩ :=
    Outcome.bind_eq_ok_iff.mp hrun
  obtain ⟨_, rfl⟩ := Outcome.pure_eq_ok_iff.mp hpure
  exact h.withSpan.goesOn hspan

instance {shape : Parser (Shape Node)} [h : Advances shape] :
    Advances (node shape) := h.node

end Composition

/-- What is handed over as a success is one. -/
theorem eq_ok_of_attempt {value : α}
    (hrun : attempt parser stream = .ok (.ok value) after) :
    parser stream = .ok value after := by
  rw [attempt] at hrun
  cases hparser : parser stream with
  | ok found between =>
      rw [hparser] at hrun
      cases hrun
      rfl
  | error failure between =>
      rw [hparser] at hrun
      cases failure <;> cases hrun

/-! ### Tokens and literals -/

theorem consumed_lt_of_consumeIn {mode : LexMode} {token : Token}
    (hrun : consumeIn mode stream = .ok token after) :
    stream.consumed < after.consumed := by
  rw [consumeIn, forward_eq] at hrun
  cases hrun
  exact Nat.lt_succ_of_le
    (Nat.le_of_eq (TokenStream.consumed_prepare mode stream).symm)

/-- A token that takes up text is consumed. -/
theorem goesOn_of_consumeIn {mode : LexMode} {token : Token}
    (hrun : consumeIn mode stream = .ok token after)
    (hsolid : token.kind.IsSolid) : GoesOn stream after := by
  refine ⟨consumed_lt_of_consumeIn hrun, fun hstream => ?_⟩
  have hafter := (inferInstance : Disciplined false (consumeIn mode)).reads
    hstream hrun
  have hleads := ((inferInstance : Disciplined false (consumeIn mode)).leads
    hstream.lexes hrun).2
  have htoken : Consumes stream.consumed after token := by
    rw [consumeIn, forward_eq] at hrun
    cases hrun
    exact hstream.lexes.consumes_advance mode
  calc stream.lastEnd
      ≤ token.span.start := hstream.lastEnd_le_start hafter hleads htoken
    _ < token.span.stop := hafter.start_lt_stop htoken hsolid.1 hsolid.2
    _ ≤ after.lastEnd := hafter.stop_le_lastEnd htoken

/-- A token may be of any kind as long as one that takes up no text is refused
afterwards. -/
theorem Advances.consumeIn {mode : LexMode} {next : Token → Parser β}
    (hnext : ∀ token, Disciplined false (next token))
    (hrefuses : ∀ token, ¬ token.kind.IsSolid → Refuses (next token)) :
    Advances (consumeIn mode >>= next) := by
  constructor
  intro stream result after hrun
  obtain ⟨token, between, hfirst, hsecond⟩ := Outcome.bind_eq_ok_iff.mp hrun
  by_cases hsolid : token.kind.IsSolid
  · exact (goesOn_of_consumeIn hfirst hsolid).further
      (fun hstream => (inferInstance : Disciplined false
        (Parser.consumeIn mode)).reads hstream hfirst) (hnext token) hsecond
  · exact absurd hsecond (hrefuses token hsolid _ _ _)

theorem advances_requireIn {mode : LexMode} {kind : TokenKind}
    (hsolid : kind.IsSolid) : Advances (requireIn mode kind) := by
  rw [requireIn]
  refine .consumeIn (fun token => inferInstance) fun token htoken => ?_
  have hkind : token.kind ≠ kind := by
    rintro rfl
    exact htoken hsolid
  rw [if_neg hkind]
  exact refuses_fail _

instance {mark : Punctuator} : Advances (requireMark mark) := by
  rw [requireMark, require]
  exact advances_requireIn ⟨nofun, nofun⟩

instance {word : Keyword} : Advances (requireWord word) := by
  rw [requireWord, require]
  exact advances_requireIn ⟨nofun, nofun⟩

/-- What is done with a token that has been looked at may consume it first. -/
theorem Advances.peek {next : Token → Parser β}
    (h : ∀ token, Advances (next token) ∨ token.kind.IsSolid ∧
      ∃ rest : Token → Parser β, next token = consume >>= rest ∧
        ∀ found, Disciplined false (rest found)) :
    Advances (Parser.peek >>= next) := by
  constructor
  intro stream result after hrun
  have hpeek : Parser.peek stream = .ok (stream.prepare .standard).upcoming
      (stream.prepare .standard) := rfl
  rw [Outcome.bind_of_ok hpeek] at hrun
  have hprepared : ∀ {text}, stream.Reads text →
      (stream.prepare .standard).Reads text :=
    fun hstream =>
      (inferInstance : Disciplined false Parser.peek).reads hstream hpeek
  have hdisciplined : Disciplined false Parser.peek := inferInstance
  rcases h (stream.prepare .standard).upcoming with
    hadvances | ⟨hsolid, rest, hrest, hdiscipline⟩
  · exact hdisciplined.goesOn_later hpeek (hadvances.goesOn hrun)
  · rw [hrest] at hrun
    obtain ⟨token, between, hfirst, hsecond⟩ :=
      Outcome.bind_eq_ok_iff.mp hrun
    have hconsumed := consumed_lt_of_consumeIn hfirst
    rw [consumed_prepare] at hconsumed
    refine ⟨?_, fun hstream => ?_⟩
    · exact Nat.lt_of_lt_of_le hconsumed
        ((hdiscipline token).consumed_le_of_ok hsecond)
    · -- Looking at a token does not change which one is consumed next.
      have htoken : token = (stream.prepare .standard).upcoming := by
        rw [consume, Parser.consumeIn, forward_eq] at hfirst
        cases hfirst
        rw [TokenStream.forward]
        dsimp only
        rw [hstream.lexes.prepare_prepare]
      rw [← htoken] at hsolid
      exact (hdisciplined.goesOn_later hpeek ((goesOn_of_consumeIn hfirst
        hsolid).further (fun hreads => (inferInstance : Disciplined false
          consume).reads hreads hfirst) (hdiscipline token) hsecond)).lastEnd_lt
        hstream

instance : Advances stringValue := by
  rw [stringValue]
  refine .consumeIn (fun token => ?_) fun token htoken => ?_
  · dsimp only
    repeat' split
    all_goals infer_instance
  · dsimp only
    split
    · rename_i hkind
      exact absurd ⟨by simp [hkind], by simp [hkind]⟩ htoken
    · split
      · exact refuses_fail_bind _
      · exact refuses_fail_bind _
    · exact refuses_fail_bind _

instance : Advances numberValue := by
  rw [numberValue, require]
  refine .first (advances_requireIn ⟨nofun, nofun⟩) fun token => ?_
  split <;> infer_instance

instance : Advances bigintDigits := by
  rw [bigintDigits, require]
  exact .first (advances_requireIn ⟨nofun, nofun⟩) inferInstance

instance : Advances varKind := by
  rw [varKind]
  refine .consumeIn (fun token => ?_) fun token htoken => ?_
  · split <;> infer_instance
  · split
    · rename_i hkind
      exact absurd ⟨by simp [hkind], by simp [hkind]⟩ htoken
    · rename_i hkind
      exact absurd ⟨by simp [hkind], by simp [hkind]⟩ htoken
    · rename_i hkind
      exact absurd ⟨by simp [hkind], by simp [hkind]⟩ htoken
    · exact refuses_fail _

instance : Advances clauseName := by
  rw [clauseName]
  refine .peek fun token => ?_
  split
  · exact .inl inferInstance
  · split
    · rename_i hword
      exact .inr ⟨TokenKind.isSolid_of_isWord hword, _, rfl, inferInstance⟩
    · exact .inl inferInstance

instance : Advances exportItem := by
  rw [exportItem]
  infer_instance

instance : Advances stringLiteral := by
  rw [stringLiteral]
  infer_instance

instance : Advances numberLiteral := by
  rw [numberLiteral]
  infer_instance

instance : Advances bigintLiteral := by
  rw [bigintLiteral]
  infer_instance

instance : Advances booleanLiteral := by
  rw [booleanLiteral]
  refine .node (.consumeIn (fun token => ?_) fun token htoken => ?_)
  · split <;> infer_instance
  · split
    · rename_i hkind
      exact absurd ⟨by simp [hkind], by simp [hkind]⟩ htoken
    · rename_i hkind
      exact absurd ⟨by simp [hkind], by simp [hkind]⟩ htoken
    · exact refuses_fail _

instance : Advances nullLiteral := by
  rw [nullLiteral]
  infer_instance

instance : Advances regexLiteral := by
  rw [regexLiteral]
  exact .node (.first (advances_requireIn ⟨nofun, nofun⟩) inferInstance)

end Parser

namespace Grammar

open Bundler.Parser

section WithoutParts

variable (grammar : Grammar)

instance : Advances grammar.bindingWord := by
  rw [bindingWord]
  refine .consumeIn (fun token => inferInstance) fun token htoken => ?_
  rw [if_neg fun hallows => htoken (NameRules.isSolid_of_allows hallows)]
  exact refuses_fail _

/-- A literal key takes up text, as a name or a literal. -/
instance : Advances (do
    let token ← peek
    return Shape.literalKey (← literalKeyText token) token.kind :
      Parser (Shape Node)) := by
  refine .peek fun token => ?_
  rw [literalKeyText]
  split
  · exact .inl inferInstance
  · exact .inl inferInstance
  · exact .inl inferInstance
  case h_4 | h_5 | h_6 =>
    rename_i hkind
    exact .inr ⟨⟨by simp [hkind], by simp [hkind]⟩,
      fun found => pure (.literalKey found.text token.kind), by simp,
      inferInstance⟩
  · exact .inl inferInstance

instance : Advances grammar.namePattern := by
  rw [namePattern]
  infer_instance

instance : Advances grammar.identifier := by
  rw [identifier]
  infer_instance

instance {word : Keyword} {name what : String} {shape : Shape Node} :
    Advances (metaProperty word name what shape) := by
  rw [metaProperty]
  infer_instance

instance : Advances importMeta := by
  rw [importMeta]
  infer_instance

instance : Advances newTarget := by
  rw [newTarget]
  infer_instance

instance {word : Keyword} {shape : Shape Node} :
    Advances (wordExpression word shape) := by
  rw [wordExpression]
  infer_instance

instance : Advances grammar.importItem := by
  rw [importItem]
  refine .node (.later inferInstance fun token => .first inferInstance
    fun imported => .bind inferInstance fun asName => ?_)
  cases asName <;> infer_instance

instance : Advances grammar.importStatement := by
  rw [importStatement]
  infer_instance

end WithoutParts

/-- The parsers of a grammar for expressions, patterns and statements consume a
token. -/
class IsAdvancing (grammar : Grammar) : Prop where
  expressionFrom : ∀ least ends lineEnds,
    Advances (grammar.expressionFrom least ends lineEnds)
  pattern : Advances grammar.pattern
  statement : Advances grammar.statement

variable (grammar : Grammar) [hdisciplined : grammar.IsDisciplined]
  [hgrammar : grammar.IsAdvancing]

instance {least : Nat} {ends : List TokenKind} {lineEnds : Bool} :
    Advances (grammar.expressionFrom least ends lineEnds) :=
  hgrammar.expressionFrom least ends lineEnds

instance : Advances grammar.pattern := hgrammar.pattern

instance : Advances grammar.statement := hgrammar.statement

instance {ends : List TokenKind} : Advances (grammar.expression ends) := by
  rw [expression]
  infer_instance

instance {mark : Punctuator} : Advances (grammar.expressionUntil mark) := by
  rw [expressionUntil]
  infer_instance

instance {mark : Punctuator} : Advances (grammar.expressionInList mark) := by
  rw [expressionInList]
  infer_instance

instance {ends : List TokenKind} :
    Advances (grammar.expressionOrLine ends) := by
  rw [expressionOrLine]
  infer_instance

instance : Advances grammar.lastExpression := by
  rw [lastExpression]
  infer_instance

instance : Advances grammar.bracedStatements := by
  rw [bracedStatements]
  infer_instance

/-! ### Patterns and members -/

instance {isTagged : Bool} : Advances (grammar.templateParts isTagged) := by
  rw [templateParts]
  refine .consumeIn (fun token => ?_) fun token htoken => ?_
  · split <;> infer_instance
  · split
    · rename_i hkind
      exact absurd ⟨by simp [hkind], by simp [hkind]⟩ htoken
    · rename_i hkind
      exact absurd ⟨by simp [hkind], by simp [hkind]⟩ htoken
    · exact refuses_fail _
    · exact refuses_fail _

instance : Advances grammar.propertyKey := by
  rw [propertyKey]
  infer_instance

instance : Advances grammar.patternProperty := by
  rw [patternProperty]
  infer_instance

instance : Advances grammar.objectPattern := by
  rw [objectPattern]
  infer_instance

instance : Advances grammar.arrayPattern := by
  rw [arrayPattern]
  infer_instance

omit hgrammar in
theorem advances_patternRule : Advances grammar.patternRule := by
  rw [patternRule]
  refine .later inferInstance fun token => ?_
  repeat' split
  all_goals infer_instance

instance : Advances grammar.parameter := by
  rw [parameter]
  infer_instance

instance : Advances grammar.parameters := by
  rw [parameters]
  infer_instance

instance {isAsync isGenerator : Bool} :
    Advances (grammar.functionTail isAsync isGenerator) := by
  rw [functionTail]
  infer_instance

instance {kind : MemberKind} {isAsync isGenerator : Bool} :
    Advances (grammar.methodMember kind isAsync isGenerator) := by
  rw [methodMember]
  infer_instance

instance {valueMark endMark : Punctuator} {lineEnds : Bool} :
    Advances (grammar.keyedMember valueMark endMark lineEnds) := by
  rw [keyedMember]
  infer_instance

instance {valueMark endMark : Punctuator} {lineEnds : Bool} :
    Advances (grammar.member valueMark endMark lineEnds) := by
  rw [member]
  refine .later inferInstance fun (first, second) => ?_
  dsimp only
  split <;> infer_instance

instance : Advances grammar.classMember := by
  rw [classMember]
  infer_instance

instance : Advances grammar.objectMember := by
  rw [objectMember]
  refine .node (.later inferInstance fun isSpread => ?_)
  split
  · infer_instance
  · refine .first inferInstance fun (key, kind, value) => ?_
    dsimp only
    repeat' split
    all_goals infer_instance

instance : Advances grammar.objectLiteral := by
  rw [objectLiteral]
  infer_instance

/-! ### Operands -/

instance : Advances grammar.arrowHead := by
  rw [arrowHead]
  infer_instance

instance {ends : List TokenKind} : Advances (grammar.arrowFunction ends) := by
  rw [arrowFunction]
  infer_instance

instance {lineEnds : Bool} : Advances (grammar.grouping lineEnds) := by
  rw [grouping]
  infer_instance

instance : Advances grammar.functionExpression := by
  rw [functionExpression]
  infer_instance

instance : Advances grammar.classExpression := by
  rw [classExpression]
  infer_instance

instance : Advances grammar.importCall := by
  rw [importCall]
  infer_instance

instance {ends : List TokenKind} {lineEnds : Bool} :
    Advances (grammar.unaryExpression ends lineEnds) := by
  rw [unaryExpression]
  refine .node (.consumeIn (fun token => ?_) fun token htoken => ?_)
  · split
    · infer_instance
    · dsimp only
      infer_instance
  · split
    · exact refuses_fail _
    · rename_i hoperator
      exact absurd (TokenKind.isSolid_of_unaryOperator? hoperator) htoken

instance : Advances grammar.templateLiteral := by
  rw [templateLiteral]
  infer_instance

instance : Advances grammar.arrayLiteral := by
  rw [arrayLiteral]
  infer_instance

instance {ends : List TokenKind} {other : Parser Node}
    [Disciplined false other] [Advances other] :
    Advances (grammar.arrowFunctionOr ends other) := by
  rw [arrowFunctionOr_eq]
  refine .rewinding (fun outcome hback => ?_) (fun {stream outcome after}
    hback hrun => ?_) (fun outcome => ?_) inferInstance
  · cases outcome with
    | ok arrow => exact absurd hback Bool.false_ne_true
    | error error => infer_instance
  · cases outcome with
    | ok arrow =>
        exact .inr ((inferInstance : Advances (grammar.arrowFunction ends)).goesOn
          (eq_ok_of_attempt hrun))
    | error error => exact .inl inferInstance
  · cases outcome <;> infer_instance

instance {ends : List TokenKind} {second third : Token} :
    Advances (grammar.asyncOperand ends second third) := by
  rw [asyncOperand]
  infer_instance

instance {first second : Token} {word : Keyword} :
    Advances (grammar.wordOperand first second word) := by
  unfold wordOperand
  split <;> infer_instance

instance {ends : List TokenKind} {lineEnds : Bool} {first second : Token} :
    Advances (grammar.otherOperand ends lineEnds first second) := by
  rw [otherOperand]
  split <;> infer_instance

instance {ends : List TokenKind} {lineEnds : Bool} :
    Advances (grammar.operand ends lineEnds) := by
  rw [operand_eq]
  exact .rewinding (fun (first, second, third) _ => inferInstance) nofun
    (fun (first, second, third) => inferInstance) inferInstance

instance : Advances grammar.argument := by
  rw [argument]
  infer_instance

instance {tag : Node} : Advances (grammar.taggedTemplate tag) := by
  rw [taggedTemplate]
  infer_instance

omit hgrammar in
theorem advances_expressionRule (least : Nat) (ends : List TokenKind)
    (lineEnds : Bool) :
    Advances (grammar.expressionRule least ends lineEnds) := by
  rw [expressionRule]
  infer_instance

/-! ### Declarations and loops -/

instance {ends : List TokenKind} {lineEnds : Bool} :
    Advances (grammar.declarator ends lineEnds) := by
  rw [declarator]
  infer_instance

instance : Advances grammar.variableDeclaration := by
  rw [variableDeclaration]
  infer_instance

instance : Advances grammar.headerVariables := by
  rw [headerVariables]
  infer_instance

instance : Advances grammar.functionDeclaration := by
  rw [functionDeclaration]
  infer_instance

instance : Advances grammar.classDeclaration := by
  rw [classDeclaration]
  infer_instance

instance : Advances grammar.forBody := by
  rw [forBody]
  infer_instance

instance : Advances grammar.keysLoop := by
  rw [keysLoop]
  infer_instance

instance : Advances grammar.valuesLoop := by
  rw [valuesLoop]
  infer_instance

instance : Advances grammar.countingLoop := by
  rw [countingLoop]
  infer_instance

instance : Advances grammar.forStatement := by
  rw [forStatement_eq]
  refine .rewinding (fun kind _ => ?_) nofun (fun kind => inferInstance)
    inferInstance
  cases kind with
  | counting => exact inferInstanceAs (Advances grammar.countingLoop)
  | keys => exact inferInstanceAs (Advances grammar.keysLoop)
  | values => exact inferInstanceAs (Advances grammar.valuesLoop)

/-! ### Statements -/

instance : Advances grammar.exportStatement := by
  rw [exportStatement]
  refine .node (.first inferInstance fun word =>
    .bind inferInstance fun (first, second) => ?_)
  dsimp only
  split <;> infer_instance

instance : Advances grammar.blockStatement := by
  rw [blockStatement]
  infer_instance

instance : Advances grammar.breakStatement := by
  rw [breakStatement]
  infer_instance

instance : Advances grammar.continueStatement := by
  rw [continueStatement]
  infer_instance

instance : Advances debuggerStatement := by
  rw [debuggerStatement]
  infer_instance

instance : Advances emptyStatement := by
  rw [emptyStatement]
  infer_instance

instance : Advances grammar.expressionStatement := by
  rw [expressionStatement]
  infer_instance

instance : Advances grammar.labelledStatement := by
  rw [labelledStatement]
  infer_instance

instance : Advances grammar.ifStatement := by
  rw [ifStatement]
  infer_instance

instance : Advances grammar.returnStatement := by
  rw [returnStatement]
  infer_instance

instance : Advances grammar.throwStatement := by
  rw [throwStatement]
  infer_instance

instance : Advances grammar.catchClause := by
  rw [catchClause]
  infer_instance

instance : Advances grammar.tryStatement := by
  rw [tryStatement]
  infer_instance

instance : Advances grammar.whileStatement := by
  rw [whileStatement]
  infer_instance

instance : Advances grammar.withStatement := by
  rw [withStatement]
  infer_instance

instance : Advances grammar.doWhileStatement := by
  rw [doWhileStatement]
  infer_instance

instance : Advances grammar.switchCase := by
  rw [switchCase]
  infer_instance

instance : Advances grammar.switchStatement := by
  rw [switchStatement]
  infer_instance

instance {first second : Token} :
    Advances (grammar.otherStatement first second) := by
  rw [otherStatement]
  infer_instance

instance {first second : Token} {word : Keyword} :
    Advances (grammar.wordStatement first second word) := by
  unfold wordStatement
  split <;> infer_instance

theorem advances_statementRule : Advances grammar.statementRule := by
  rw [statementRule]
  refine .later inferInstance fun (first, second) => ?_
  dsimp only
  split <;> infer_instance

/-! ### The whole grammar -/

instance : grammar.deepen.IsAdvancing where
  expressionFrom := grammar.advances_expressionRule
  pattern := grammar.advances_patternRule
  statement := grammar.advances_statementRule

omit hdisciplined hgrammar in
instance {rules : NameRules} {depth : Nat} :
    (ofDepth rules depth).IsAdvancing := by
  induction depth with
  | zero =>
      exact ⟨fun _ _ _ => inferInstanceAs (Advances exhausted),
        inferInstanceAs (Advances exhausted),
        inferInstanceAs (Advances exhausted)⟩
  | succ depth ih => exact inferInstanceAs (deepen _).IsAdvancing

omit hdisciplined hgrammar in
instance {rules : NameRules} {source : String} :
    (forSource rules source).IsAdvancing :=
  inferInstanceAs (ofDepth rules _).IsAdvancing

end Grammar

end Bundler
