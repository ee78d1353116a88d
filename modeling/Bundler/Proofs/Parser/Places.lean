import Bundler.Proofs.Lexer.Escapes
import Bundler.Proofs.Parser.Names
import Bundler.Proofs.Parser.Sound
import Bundler.Proofs.Parser.TargetPlaces

/-!
# Rules of expressions and patterns place what they yield

Most rules only put together what their parts yield.  Those that take the range
of a token make sure that the token is consumed.
-/

set_option synthInstance.maxSize 4000

namespace Bundler

open Bundler.Parser TokenStream

variable {passage : Passage} {stream after : TokenStream}

namespace Parser

/-! ### Literals and clauses -/

/-- A consumed token is what lexing finds, behind what had been consumed. -/
theorem consumes_of_consume {base : Nat} {token : Token}
    (hstream : stream.Lexes base)
    (hrun : consume stream = .ok token after) :
    Consumes stream.consumed after token := by
  obtain ⟨rfl, rfl⟩ := consume_eq_ok_iff.mp hrun
  exact hstream.consumes_advance .standard

/-- A string that is consumed starts with its quote. -/
theorem exists_quote_of_consume {base : Nat} {token : Token}
    (hstream : stream.Lexes base) (hrun : consume stream = .ok token after)
    (hkind : token.kind = .string) :
    ∃ quote body, token.text.toList = quote :: body ∧
      quote.utf8Size = 1 := by
  obtain ⟨rfl, rfl⟩ := consume_eq_ok_iff.mp hrun
  rw [hstream.upcoming_prepare] at hkind ⊢
  exact exists_quote_of_string hkind

instance : Sound passage stringValue := by
  constructor
  intro stream henters
  rw [stringValue]
  refine Passage.leaves_bind henters inferInstance (fun token => ?_)
    ((inferInstance : Sound passage consume).sound henters)
    fun token between hrun _ hbetween _ htoken => Sound.run ?_ hbetween
  · dsimp only
    repeat' split
    all_goals infer_instance
  · dsimp only
    split
    · rename_i hkind
      obtain ⟨quote, body, htext, hquote⟩ :=
        exists_quote_of_consume henters.reads.lexes hrun hkind
      split
      · infer_instance
      · rename_i offset hfault
        obtain ⟨behind, hbehind⟩ := List.dropLast_prefix body
        have hbody : token.text.toList =
            [quote] ++ (body.dropLast ++ behind) := by
          rw [hbehind, htext]
          rfl
        rw [htext] at hfault
        have herror : Placed passage.bounds
            (⟨.invalidEscape, ⟨token.span.start + 1 + offset,
              token.span.start + 1 + offset + 1⟩, some .string⟩ :
              SyntaxError) :=
          ⟨htoken.placed.fault hbody hfault
            (by simp [Text.byteLength, hquote])⟩
        infer_instance
    · infer_instance
    · infer_instance

instance : Sound passage numberValue := by
  rw [numberValue]
  refine .bind inferInstance inferInstance (fun token => ?_) fun token _ => ?_
  all_goals split <;> infer_instance

instance : Sound passage bigintDigits := by
  rw [bigintDigits]
  infer_instance

instance : Sound passage stringLiteral :=
  .node rfl inferInstance inferInstance inferInstance

instance : Sound passage numberLiteral :=
  .node rfl inferInstance inferInstance inferInstance

instance : Sound passage bigintLiteral :=
  .node rfl inferInstance inferInstance inferInstance

instance : Sound passage booleanLiteral := by
  refine .node rfl inferInstance inferInstance fun passage =>
    .bind inferInstance inferInstance (fun token => ?_) fun token _ => ?_
  all_goals split <;> infer_instance

instance : Sound passage nullLiteral :=
  .node rfl inferInstance inferInstance inferInstance

instance : Sound passage regexLiteral :=
  .node rfl inferInstance inferInstance inferInstance

/-- The body of a chunk stands behind what is cut off in front of it. -/
theorem exists_templateBody (isTail : Bool) (text : List Char) :
    ∃ before behind,
      text = before ++ ((templateBody isTail text).2 ++ behind) ∧
      Text.byteLength before = (templateBody isTail text).1 := by
  rw [templateBody]
  obtain ⟨behind, hbehind⟩ :=
    List.take_prefix (text.length - if isTail then 1 else 2) text
  split
  · rename_i rest hrest
    rw [hrest] at hbehind
    exact ⟨['\x60'], behind, hbehind.symm, rfl⟩
  · exact ⟨[], behind, hbehind.symm, rfl⟩

instance {isTagged isTail : Bool} {token : Token}
    [htoken : Placed passage.bounds token] :
    Sound passage (templateText isTagged isTail token) := by
  obtain ⟨before, behind, hbody, hbefore⟩ :=
    exists_templateBody isTail token.text.toList
  rw [templateText]
  generalize templateBody isTail token.text.toList = found at hbody hbefore
  obtain ⟨offset, body⟩ := found
  dsimp only
  split
  · infer_instance
  · rename_i fault hfault
    have hspan : Placed passage.bounds
        ((⟨token.span.start + offset + fault,
          token.span.start + offset + fault + 1⟩ : Span).error
          .invalidEscape) :=
      ⟨htoken.placed.fault hbody hfault (by rw [hbefore])⟩
    infer_instance

instance : Sound passage statementEnd := by
  rw [statementEnd]
  infer_instance

instance : Sound passage varKind := by
  rw [varKind]
  refine .bind inferInstance inferInstance (fun token => ?_) fun token _ => ?_
  all_goals split <;> infer_instance

instance : Sound passage declaratorsEnd := by
  rw [declaratorsEnd]
  infer_instance

instance : Sound passage clauseName := by
  rw [clauseName]
  infer_instance

instance : Sound passage exportItem :=
  .node rfl inferInstance inferInstance inferInstance

instance : Sound passage exportItems := by
  rw [exportItems]
  refine .bind inferInstance inferInstance
    (fun items => .bind inferInstance fun source => ?_) fun items hitems =>
      .bind inferInstance inferInstance (fun source => ?_)
        fun source _ => ?_
  · dsimp only
    repeat' split
    all_goals infer_instance
  · dsimp only
    repeat' split
    all_goals infer_instance
  · dsimp only
    split
    · split
      · rename_i item hitem
        have hspan : item.span.IsIn passage.text :=
          (hitems.placed item (List.mem_of_find?_eq_some hitem)).isIn
        have herror : Placed passage.bounds
            (⟨.expected "identifier", item.span, some .string⟩ :
              SyntaxError) := ⟨hspan⟩
        infer_instance
      · infer_instance
    · infer_instance

instance : Sound passage exportAll := by
  rw [exportAll]
  infer_instance

end Parser

namespace Grammar

open Bundler.Parser

section WithoutParts

variable (grammar : Grammar)

/-! ### Rules without parts of their own -/

instance : Sound passage grammar.bindingWord := by
  rw [bindingWord]
  infer_instance

instance {token : Token} [Placed passage.bounds token] :
    Sound passage (literalKeyText token) := by
  rw [literalKeyText]
  split <;> infer_instance

instance : Sound passage grammar.identifier :=
  .node rfl inferInstance inferInstance inferInstance

instance : Sound passage grammar.namePattern :=
  .node rfl inferInstance inferInstance inferInstance

instance : Sound passage grammar.declaredName? := by
  constructor
  intro stream henters
  simp only [declaredName?, consumeWhen, bind_assoc, pure_bind]
  refine Passage.leaves_bind henters inferInstance (fun _ => inferInstance)
    (leaves_forward henters _ nofun)
    fun token between hrun _ hbetween hlast _ => Sound.run ?_ hbetween
  cases hrun
  by_cases hallows :
      grammar.rules.allows (stream.prepare .standard).upcoming.kind = true
  · rw [if_pos hallows] at hlast
    have hname : Placed passage.bounds
        (Node.mk (stream.prepare .standard).upcoming.span
          (.declaredName (stream.prepare .standard).upcoming.text)) :=
      .leaf (Passage.covers_token henters
        (henters.reads.lexes.consumes_advance .standard) hlast) rfl
    rw [if_pos hallows, Option.map_some]
    infer_instance
  · rw [if_neg hallows, Option.map_none]
    infer_instance

instance : Sound passage grammar.declaredName := by
  rw [declaredName]
  refine .bind inferInstance inferInstance
    (fun token => .bind inferInstance fun name => ?_) fun token _ =>
      .bind inferInstance inferInstance (fun name => ?_)
        fun name hname => ?_
  · cases name <;> infer_instance
  · cases name <;> infer_instance
  · cases name with
    | none => infer_instance
    | some name =>
        have hname := hname.of_some
        infer_instance

instance : Sound passage grammar.importItem := by
  refine .node rfl inferInstance inferInstance fun passage => ?_
  constructor
  intro stream henters
  refine Passage.leaves_bind henters inferInstance
    (fun token => .bind inferInstance fun imported =>
      .bind inferInstance fun asName => ?_)
    ((inferInstance : Sound passage peek).run henters)
    fun token between hpeek _ hbetween _ htoken => ?_
  · cases asName <;> infer_instance
  refine Passage.leaves_bind hbetween inferInstance
    (fun imported => .bind inferInstance fun asName => ?_)
    ((inferInstance : Sound passage clauseName).run hbetween)
    fun imported later hclause _ hlater hlast _ => Sound.run ?_ hlater
  · cases asName <;> infer_instance
  refine .bind inferInstance inferInstance (fun asName => ?_)
    fun asName hasName => ?_
  · cases asName <;> infer_instance
  · cases asName with
    | some asName =>
        have hasName := hasName.of_some
        infer_instance
    | none =>
        dsimp only
        split
        · rename_i hallowed
          have hconsume := consume_of_clauseName henters.reads.lexes hpeek
            hclause (TokenKind.isWord_of_mayName
              (TokenKind.mayName_of_allows hallowed))
          have hname : Placed passage.bounds
              (Node.mk token.span (.identPattern imported.text)) :=
            .leaf (Passage.covers_token hbetween
              (consumes_of_consume hbetween.reads.lexes hconsume.1) hlast) rfl
          infer_instance
        · infer_instance

instance {word : Keyword} {name what : String} {shape : Shape Node}
    [h : ∀ bounds, Placed bounds shape] :
    Sound passage (metaProperty word name what shape) :=
  .node rfl inferInstance inferInstance inferInstance

instance : Sound passage importMeta := by
  rw [importMeta]
  infer_instance

instance : Sound passage newTarget := by
  rw [newTarget]
  infer_instance

instance {word : Keyword} {shape : Shape Node}
    [∀ bounds, Placed bounds shape] :
    Sound passage (wordExpression word shape) :=
  .node rfl inferInstance inferInstance inferInstance

instance : Sound passage forKindBehindStart := by
  rw [forKindBehindStart]
  refine .bind inferInstance inferInstance (fun kind => ?_) fun kind _ => ?_
  all_goals split <;> infer_instance

instance : Sound passage grammar.importNames := by
  rw [importNames]
  refine .bind inferInstance inferInstance (fun token => ?_) fun token _ => ?_
  all_goals split <;> infer_instance

instance : Sound passage grammar.importClause := by
  rw [importClause]
  infer_instance

instance : Sound passage grammar.importStatement :=
  .node rfl inferInstance inferInstance inferInstance

instance : Sound passage grammar.nextFunctionIsNamed := by
  have hpeek : Sound passage
      (peekAhead [.standard, .standard, .standard, .standard]) :=
    .peekAhead (by simp)
  rw [nextFunctionIsNamed]
  infer_instance

instance {value : Parser Node} [Disciplined false value]
    [Sound passage value] : Sound passage (exportDefaultOf value) := by
  rw [exportDefaultOf]
  infer_instance

instance : Sound passage grammar.jumpLabel := by
  rw [jumpLabel]
  infer_instance

instance : Sound passage grammar.breakStatement :=
  .node rfl inferInstance inferInstance inferInstance

instance : Sound passage grammar.continueStatement :=
  .node rfl inferInstance inferInstance inferInstance

instance : Sound passage debuggerStatement :=
  .node rfl inferInstance inferInstance inferInstance

instance : Sound passage emptyStatement :=
  .node rfl inferInstance inferInstance inferInstance

end WithoutParts

/-- The parsers of a grammar for expressions, patterns and statements place what
they yield. -/
class IsSound (passage : Passage) (grammar : Grammar) : Prop where
  expressionFrom : ∀ least ends lineEnds,
    Sound passage (grammar.expressionFrom least ends lineEnds)
  pattern : Sound passage grammar.pattern
  statement : Sound passage grammar.statement

variable (grammar : Grammar) [hdisciplined : grammar.IsDisciplined]
  [hadvancing : grammar.IsAdvancing]
  [hgrammar : ∀ passage, grammar.IsSound passage]

instance {least : Nat} {ends : List TokenKind} {lineEnds : Bool} :
    Sound passage (grammar.expressionFrom least ends lineEnds) :=
  (hgrammar passage).expressionFrom least ends lineEnds

instance : Sound passage grammar.pattern := (hgrammar passage).pattern

instance : Sound passage grammar.statement := (hgrammar passage).statement

instance {ends : List TokenKind} : Sound passage (grammar.expression ends) := by
  rw [expression]
  infer_instance

instance {mark : Punctuator} :
    Sound passage (grammar.expressionUntil mark) := by
  rw [expressionUntil]
  infer_instance

instance {mark : Punctuator} :
    Sound passage (grammar.expressionInList mark) := by
  rw [expressionInList]
  infer_instance

instance {ends : List TokenKind} :
    Sound passage (grammar.expressionOrLine ends) := by
  rw [expressionOrLine]
  infer_instance

instance : Sound passage grammar.bracedStatements := by
  rw [bracedStatements]
  infer_instance

/-! ### Literals with parts -/

omit hadvancing in
/-- Behind a part of a template, the template goes on inside of itself. -/
theorem leaves_templateRest {isTagged : Bool} (henters : passage.Enters stream)
    (hpart : stream.HasPart) :
    passage.Leaves (fun rest _ => Placed passage.bounds rest)
      (grammar.templateRest isTagged stream) := by
  rw [templateRest]
  refine Passage.leaves_bind henters (.iterate ?hstep) inferInstance
    (leaves_iterate (fun found stream =>
      Placed passage.bounds found ∧ stream.HasPart) ?hstep
      (fun {found stream} henters hstate => ?_) henters
      ⟨inferInstance, hpart⟩)
    fun rest after _ _ hafter _ hrest =>
      Passage.leaves_pure hafter fun _ => inferInstance
  case hstep =>
    exact fun found => .bind inferInstance fun value =>
      .bind inferInstance fun close => .bind inferInstance fun token => by
        split <;> infer_instance
  obtain ⟨hfound, hpart⟩ := hstate
  refine Passage.leaves_bind henters inferInstance
    (fun value => .bind inferInstance fun close =>
      .bind inferInstance fun token => ?_)
    (Sound.run inferInstance henters)
    fun value between _ hvalueGone hbetween _ hvalue => ?_
  · split <;> infer_instance
  refine Passage.leaves_bind hbetween inferInstance
    (fun close => .bind inferInstance fun token => ?_)
    (Sound.run inferInstance hbetween)
    fun close later _ hcloseGone hlater _ _ => ?_
  · split <;> infer_instance
  have hpart := (hpart.leads hvalueGone).leads hcloseGone
  refine Passage.leaves_bind hlater inferInstance (fun token => ?_)
    (leaves_forward hlater _ fun _ => hpart)
    fun token behind _ htokenGone hbehind _ htoken => ?_
  · split <;> infer_instance
  refine (Sound.runs ?_ ?_ hbehind).mono fun outcome after _ _ hruns => ?_
  · split <;> infer_instance
  · split <;> infer_instance
  · obtain ⟨houtcome, hgone⟩ := hruns
    cases outcome with
    | inl state =>
        exact ⟨⟨houtcome.placed⟩, (hpart.leads htokenGone).leads hgone⟩
    | inr result => exact ⟨houtcome.placed⟩

instance {isTagged : Bool} :
    Sound passage (grammar.templateParts isTagged) := by
  constructor
  intro stream henters
  rw [templateParts]
  refine Passage.leaves_bind henters inferInstance (fun token => ?_)
    ((inferInstance : Sound passage consume).run henters)
    fun token between hrun _ hbetween _ htoken => ?_
  · split <;> infer_instance
  · by_cases hkind : token.kind = .templatePart
    · have hpart : between.HasPart := by
        have htoken := consumes_of_consume henters.reads.lexes hrun
        exact ⟨token, htoken.mono (Nat.zero_le _), hkind⟩
      rw [hkind]
      refine Passage.leaves_bind hbetween inferInstance inferInstance
        (Sound.run inferInstance hbetween)
        fun text later _ hleads hlater _ _ => ?_
      refine Passage.leaves_bind hlater inferInstance inferInstance
        (grammar.leaves_templateRest hlater (hpart.leads hleads))
        fun rest after _ _ hafter _ hrest =>
          Passage.leaves_pure hafter fun _ => inferInstance
    · refine Sound.run ?_ hbetween
      split
      · exact absurd ‹_› hkind
      all_goals infer_instance

instance : Sound passage grammar.templateLiteral :=
  .node rfl inferInstance inferInstance inferInstance

instance : Sound passage grammar.arrayLiteral := by
  refine .node rfl inferInstance inferInstance fun passage =>
    .bind inferInstance inferInstance
      (fun start => .bind (.iterate fun found => ?_)
        fun elements => inferInstance)
      fun start _ => .bind (.iterate fun found => ?_)
        (.iterate (fun found => ?_) (fun found _ => ?_) inferInstance)
        inferInstance fun elements _ => inferInstance
  all_goals infer_instance

/-! ### Keys and patterns -/

instance : Sound passage grammar.propertyKey := by
  rw [propertyKey]
  infer_instance

instance {key : PropertyKey Node} [hkey : Placed passage.bounds key] :
    Sound passage (grammar.propertyTarget key) := by
  unfold propertyTarget
  refine .bind inferInstance inferInstance (fun isNamed => ?_)
    fun isNamed _ => ?_
  · repeat' split
    all_goals infer_instance
  · split
    · infer_instance
    · split
      · rename_i span text kind
        have hname : Placed passage.bounds (Node.mk span _) := ⟨hkey.placed⟩
        obtain ⟨hspan, _⟩ := Node.placed_shape hname
        have hcovers : Placed passage.bounds span := ⟨hspan⟩
        have hname : Placed passage.bounds
            (Node.mk span (.identPattern text)) := .leaf hspan rfl
        infer_instance
      · infer_instance

instance : Sound passage grammar.patternProperty :=
  .node rfl inferInstance inferInstance inferInstance

instance : Sound passage grammar.objectPattern :=
  .node rfl inferInstance inferInstance inferInstance

instance : Sound passage grammar.arrayPattern := by
  refine .node rfl inferInstance inferInstance fun passage =>
    .bind inferInstance inferInstance
      (fun start => .bind (.iterate fun found => ?_)
        fun found => inferInstance)
      fun start _ => .bind (.iterate fun found => ?_)
        (.iterate (fun found => ?_) (fun found _ => ?_) inferInstance)
        inferInstance fun elements _ => inferInstance
  all_goals infer_instance

theorem sound_patternRule : Sound passage grammar.patternRule := by
  rw [patternRule]
  refine .bind inferInstance inferInstance (fun token => ?_) fun token _ => ?_
  all_goals
    repeat' split
    all_goals infer_instance

/-! ### Functions, classes and members -/

instance : Sound passage grammar.parameter :=
  .node rfl inferInstance inferInstance inferInstance

instance : Sound passage grammar.parameters := by
  rw [parameters]
  infer_instance

instance {isAsync isGenerator : Bool} :
    Sound passage (grammar.functionTail isAsync isGenerator) :=
  .node rfl inferInstance inferInstance inferInstance

instance {kind : MemberKind} {isAsync isGenerator : Bool} :
    Sound passage (grammar.methodMember kind isAsync isGenerator) := by
  rw [methodMember]
  infer_instance

instance {valueMark endMark : Punctuator} {lineEnds : Bool} :
    Sound passage (grammar.keyedMember valueMark endMark lineEnds) := by
  rw [keyedMember]
  infer_instance

instance {valueMark endMark : Punctuator} {lineEnds : Bool} :
    Sound passage (grammar.member valueMark endMark lineEnds) := by
  rw [member]
  refine .bind inferInstance inferInstance (fun (first, second) => ?_)
    fun (first, second) _ => ?_
  all_goals
    dsimp only
    split <;> infer_instance

instance : Sound passage grammar.classMember :=
  .node rfl inferInstance inferInstance inferInstance

instance : Sound passage grammar.classBody := by
  rw [classBody]
  infer_instance

instance : Sound passage grammar.heritage? := by
  rw [heritage?]
  infer_instance

instance {span : Span} {text : String} {kind : TokenKind} {key : Node}
    [hspan : Placed passage.bounds span] [hkey : Placed passage.bounds key] :
    Sound passage (grammar.shorthandMember span text kind key) := by
  rw [shorthandMember]
  split
  · infer_instance
  · have hname : Placed passage.bounds (Node.mk span (.ident text)) :=
      .leaf hspan.placed rfl
    refine .bind inferInstance inferInstance (fun initial => ?_)
      fun initial hinitial => ?_
    · cases initial <;> infer_instance
    · cases initial with
      | none => infer_instance
      | some initial =>
          have hinitial := hinitial.of_some
          have hassignment : Placed passage.bounds
              (Node.mk (span.join initial.span) (.binary .assignment
                (.mk span (.identPattern text)) initial)) := by
            have hpattern : Placed passage.bounds
                (Node.mk span (.identPattern text)) := .leaf hspan.placed rfl
            have hleft := hpattern.within
              (Span.contains_join_left span initial.span)
            have hright := hinitial.within
              (Span.contains_join_right span initial.span)
            exact Node.placed_mk (hspan.placed.join hinitial.covers) _
          infer_instance

instance : Sound passage grammar.objectMember := by
  refine .node rfl inferInstance inferInstance fun passage =>
    .bind inferInstance inferInstance (fun isSpread => ?_)
      fun isSpread _ => ?_
  · split
    · infer_instance
    · refine .bind inferInstance fun found => ?_
      repeat' split
      all_goals infer_instance
  split
  · infer_instance
  · refine .bind inferInstance inferInstance (fun found => ?_)
      fun (key, kind, value) hfound => ?_
    · repeat' split
      all_goals infer_instance
    · have hkey : Placed passage.bounds key := ⟨hfound.placed.1⟩
      have hvalue : Placed passage.bounds value := ⟨hfound.placed.2.2⟩
      dsimp only
      split
      · rename_i name
        have hname : Placed passage.bounds name := ⟨hkey.placed⟩
        split
        · rename_i span text kind
          have hspan : Placed passage.bounds span :=
            ⟨(Node.placed_shape hname).1⟩
          infer_instance
        · rename_i span _ _
          have hspan : Placed passage.bounds span :=
            ⟨(Node.placed_shape hname).1⟩
          infer_instance
      · rename_i value
        have hvalue : Placed passage.bounds value := ⟨hkey.placed⟩
        infer_instance
      · infer_instance

instance : Sound passage grammar.objectLiteral :=
  .node rfl inferInstance inferInstance inferInstance

/-! ### Operands -/

instance : Sound passage grammar.arrowHead := by
  rw [arrowHead]
  refine .bind inferInstance inferInstance (fun (first, second) => ?_)
    fun (first, second) hpair => ?_
  · dsimp only
    infer_instance
  dsimp only
  split
  · constructor
    intro stream henters
    refine Passage.leaves_bind henters inferInstance inferInstance
      ((inferInstance : Sound passage consume).run henters)
      fun name between hrun _ hbetween hlast _ => Sound.run ?_ hbetween
    have hcovers := Passage.covers_token henters
      (consumes_of_consume henters.reads.lexes hrun) hlast
    have hpattern : Placed passage.bounds
        (Node.mk name.span (.identPattern name.text)) := .leaf hcovers rfl
    have hinner := hpattern.within (Span.contains_refl name.span)
    have hparameter : Placed passage.bounds (Node.mk name.span
        (.parameter false (.mk name.span (.identPattern name.text)) none)) :=
      Node.placed_mk hcovers _
    infer_instance
  · infer_instance

instance {ends : List TokenKind} : Sound passage (grammar.arrowBody ends) := by
  rw [arrowBody]
  infer_instance

instance {ends : List TokenKind} :
    Sound passage (grammar.arrowFunction ends) := by
  rw [arrowFunction]
  infer_instance

instance {ends : List TokenKind} {other : Parser Node}
    [Disciplined false other] [Sound passage other] :
    Sound passage (grammar.arrowFunctionOr ends other) := by
  rw [arrowFunctionOr_eq]
  refine .rewinding inferInstance inferInstance (fun outcome => ?_)
    fun outcome span hplaced hback => ?_
  · cases outcome <;> infer_instance
  · cases outcome with
    | ok arrow =>
        have harrow : Placed passage.bounds arrow := ⟨(hback rfl).placed⟩
        infer_instance
    | error error =>
        have herror : Placed passage.bounds error := ⟨hplaced.placed⟩
        infer_instance

instance {lineEnds : Bool} : Sound passage (grammar.grouping lineEnds) := by
  rw [grouping]
  infer_instance

instance : Sound passage grammar.functionExpression :=
  .node rfl inferInstance inferInstance inferInstance

instance : Sound passage grammar.classExpression :=
  .node rfl inferInstance inferInstance inferInstance

instance : Sound passage grammar.importCall :=
  .node rfl inferInstance inferInstance inferInstance

omit hadvancing in
/-- What is not there stands behind the operator, which is consumed. -/
theorem leaves_unaryOperand {operator : Operator} {ends : List TokenKind}
    {lineEnds : Bool} (henters : passage.Enters stream)
    (hfirst : passage.first < stream.consumed) :
    passage.Leaves (fun shape _ => Placed passage.bounds shape) ((do
      let next ← peekIn .slashIsRegex
      if operator = .yield && endsYield ends next then
        let stop := (← get).lastEnd
        return .unary operator (.mk (.point stop) (.ident "undefined"))
      else
        let operand ←
          grammar.expressionFrom operator.rightPrecedence ends lineEnds
        return .unary operator operand : Parser (Shape Node)) stream) := by
  refine Passage.leaves_bind henters inferInstance (fun next => inferInstance)
    (Sound.run inferInstance henters)
    fun next between _ hgone hbetween hlast _ => ?_
  split
  · have hnowhere : Placed passage.bounds
        (Node.mk (.point between.lastEnd) (.ident "undefined")) :=
      .leaf (Passage.covers_lastEnd hbetween.reads
        (Nat.lt_of_lt_of_le hfirst hgone.consumed_le) hlast) rfl
    have hshape : Placed passage.bounds (Shape.unary operator
        (Node.mk (.point between.lastEnd) (.ident "undefined"))) :=
      inferInstance
    exact Passage.leaves_pure hbetween fun _ => hshape
  · exact Sound.run inferInstance hbetween

instance {ends : List TokenKind} {lineEnds : Bool} :
    Sound passage (grammar.unaryExpression ends lineEnds) := by
  refine .node rfl inferInstance inferInstance fun passage => ?_
  constructor
  intro stream henters
  refine Passage.leaves_bind henters inferInstance (fun token => ?_)
    (Sound.run inferInstance henters)
    fun token between hrun _ hbetween _ htoken => ?_
  · split
    · infer_instance
    · dsimp only
      infer_instance
  have hfirst : passage.first < between.consumed :=
    Nat.lt_of_le_of_lt henters.first_le (consumed_lt_of_consumeIn hrun)
  cases token.kind.unaryOperator? with
  | none => exact Sound.run inferInstance hbetween
  | some first =>
      dsimp only
      split
      · refine Passage.leaves_bind hbetween inferInstance
          (fun delegates => inferInstance) (Sound.run inferInstance hbetween)
          fun delegates later _ hgone hlater _ _ => ?_
        exact grammar.leaves_unaryOperand hlater
          (Nat.lt_of_lt_of_le hfirst hgone.consumed_le)
      · exact grammar.leaves_unaryOperand hbetween hfirst

instance {ends : List TokenKind} {second third : Token} :
    Sound passage (grammar.asyncOperand ends second third) := by
  rw [asyncOperand]
  infer_instance

instance {first second : Token} {word : Keyword}
    [Placed passage.bounds first] :
    Sound passage (grammar.wordOperand first second word) := by
  unfold wordOperand
  split <;> infer_instance

instance {ends : List TokenKind} {lineEnds : Bool} {first second : Token}
    [Placed passage.bounds first] :
    Sound passage (grammar.otherOperand ends lineEnds first second) := by
  rw [otherOperand]
  split <;> infer_instance

instance {ends : List TokenKind} {lineEnds : Bool} :
    Sound passage (grammar.operand ends lineEnds) := by
  rw [operand_eq]
  refine .rewinding inferInstance inferInstance
    (fun (first, second, third) => inferInstance)
    fun (first, second, third) span hplaced _ => ?_
  have hfirst : Placed passage.bounds first := ⟨hplaced.placed.1⟩
  infer_instance

/-! ### Arguments -/

instance : Sound passage grammar.argument :=
  .node rfl inferInstance inferInstance inferInstance

instance : Sound passage grammar.arguments := by
  rw [arguments]
  infer_instance

end Grammar

end Bundler
