import Bundler.Proofs.Parser.Sequence
import Bundler.Proofs.Parser.Targets
import Bundler.Proofs.Parser.Yields

/-!
# All rules of the grammar yield names where they may stand

Names are read by a few rules, for each of which it is shown that the name is
the text of a word and has its range.  All others only pass on what their parts
yield.  A statement is read on its own, so its names stand in its range, and those
of an exported declaration in the range of the declaration.
-/

set_option synthInstance.maxSize 4000

namespace Bundler

open Bundler.Parser TokenStream

variable {naming : Naming} {stream after : TokenStream}

/-! ### Words -/

/-- A word may stand where it is found, if it is consumed in the end. -/
theorem Naming.allows_upcoming (hstream : stream.Lexes naming.first)
    (mode : LexMode)
    (hlast : Leads naming.first (stream.prepare mode).advance naming.last)
    (hword : (stream.prepare mode).upcoming.kind.mayName = true) :
    naming.Allows (stream.prepare mode).upcoming.span
      (stream.prepare mode).upcoming.text := by
  have hconsumed : stream.consumed < (stream.prepare mode).advance.consumed :=
    Nat.lt_succ_of_le (Nat.le_of_eq (consumed_prepare mode stream).symm)
  have hnext := (hlast.read_eq stream.consumed hstream.base_le
    hconsumed).symm.trans (hstream.getElem?_prepare_consumed mode)
  rw [hstream.upcoming_prepare mode] at hword ⊢
  exact naming.word _ _ hstream.base_le
    (Nat.lt_of_lt_of_le hconsumed hlast.consumed_le) hnext hword

theorem Parser.node_eq_ok_iff {shape : Parser (Shape Node)} {result : Node} :
    node shape stream = .ok result after ↔
      ∃ found, shape stream = .ok found after ∧
        .mk (after.spanSince stream.checkpoint) found = result := by
  rw [node, withSpan]
  simp only [bind_assoc, pure_bind, Outcome.bind_eq_ok_iff,
    Outcome.pure_eq_ok_iff]
  constructor
  · rintro ⟨_, _, hcheckpoint, found, _, hfound, _, _, hget, rfl, rfl⟩
    cases hcheckpoint
    obtain ⟨rfl, rfl⟩ := Outcome.get_eq_ok_iff.mp hget
    exact ⟨found, hfound, rfl⟩
  · rintro ⟨found, hfound, rfl⟩
    exact ⟨_, stream, rfl, found, after, hfound, after, after, rfl, rfl, rfl⟩

namespace Parser

theorem consume_eq_ok_iff {token : Token} :
    consume stream = .ok token after ↔
      (stream.prepare .standard).upcoming = token ∧
        (stream.prepare .standard).advance = after := by
  change EStateM.Result.ok _ _ = .ok token after ↔ _
  rw [EStateM.Result.ok.injEq]
  rfl

theorem peek_eq_ok_iff {token : Token} :
    peek stream = .ok token after ↔
      (stream.prepare .standard).upcoming = token ∧
        stream.prepare .standard = after := by
  change EStateM.Result.ok _ _ = .ok token after ↔ _
  rw [EStateM.Result.ok.injEq]
  rfl

/-- The first of two tokens that have been looked at is the next one. -/
theorem eq_of_peekTwo {base : Nat} {first second token : Token}
    {between : TokenStream} (hstream : stream.Lexes base)
    (hpeek : peekTwo stream = .ok (first, second) between)
    (hrun : consume between = .ok token after) : token = first := by
  have hbetween : between.Lexes base :=
    ((inferInstance : Disciplined true peekTwo).leads hstream hpeek).1
  have hfirst := hstream.advance_prepare .standard
  obtain ⟨rfl, rfl⟩ := consume_eq_ok_iff.mp hrun
  rw [hbetween.upcoming_prepare]
  cases hpeek
  rw [hstream.upcoming_prepare]
  -- Both tokens are kept in the buffer, in front of them nothing has changed.
  congr 2
  apply cursorAt_congr
  · exact (origin_prepare _ _).trans (origin_prepare _ _)
  · intro index hindex
    have hlater : index < (stream.prepare .standard).advance.consumed :=
      Nat.lt_succ_of_lt (by rwa [consumed_prepare])
    exact (hfirst.getElem?_prepare .standard hlater).trans
      (hstream.getElem?_prepare .standard hindex)

/-- A single word is the name of a node that has its range. -/
theorem yields_node_of_word {word : Parser Token} [Disciplined true word]
    {shapeOf : String → Shape Node}
    (hword : ∀ {stream token after}, word stream = .ok token after →
      consume stream = .ok token after ∧ token.kind.mayName = true)
    (hname : ∀ name, (shapeOf name).name? = some name)
    (hparts : ∀ name, (shapeOf name).parts = []) :
    Yields naming (node do return shapeOf (← word).text) := by
  constructor
  intro stream result after hstream hrun
  have hnode : Disciplined true (node do return shapeOf (← word).text) :=
    inferInstance
  refine ⟨(hnode.leads hstream hrun).1, fun hlast => ?_⟩
  obtain ⟨shape, hshape, rfl⟩ := node_eq_ok_iff.mp hrun
  obtain ⟨token, between, htoken, hshape⟩ := Outcome.bind_eq_ok_iff.mp hshape
  obtain ⟨rfl, rfl⟩ := Outcome.pure_eq_ok_iff.mp hshape
  obtain ⟨hconsume, hkind⟩ := hword htoken
  obtain ⟨rfl, rfl⟩ := consume_eq_ok_iff.mp hconsume
  refine .of_name ?_ (hname _) (hparts _)
  rw [hstream.spanSince_advance]
  exact naming.allows_upcoming hstream .standard hlast hkind

end Parser

namespace Parser

/-! ### Literals and clauses -/

instance : Yields naming stringLiteral := by
  rw [stringLiteral]
  infer_instance

instance : Yields naming numberLiteral := by
  rw [numberLiteral]
  infer_instance

instance : Yields naming bigintLiteral := by
  rw [bigintLiteral]
  infer_instance

instance : Yields naming booleanLiteral := by
  rw [booleanLiteral]
  refine .node (.bind inferInstance (fun token => ?_) fun token _ => ?_)
  all_goals split <;> infer_instance

instance : Yields naming nullLiteral := by
  rw [nullLiteral]
  infer_instance

instance : Yields naming regexLiteral := by
  rw [regexLiteral]
  infer_instance

instance : Yields naming exportItem := by
  rw [exportItem]
  infer_instance

instance : Yields naming exportItems := by
  rw [exportItems]
  refine .bind inferInstance
    (fun items => .bind inferInstance fun source => ?_) fun items _ =>
      .bind inferInstance (fun source => ?_) fun source _ => ?_
  all_goals
    dsimp only
    repeat' split
    all_goals infer_instance

instance : Yields naming exportAll := by
  rw [exportAll]
  infer_instance

end Parser

namespace Grammar

open Bundler.Parser

section WithoutParts

variable (grammar : Grammar)

theorem bindingWord_of_ok {token : Token}
    (hrun : grammar.bindingWord stream = .ok token after) :
    consume stream = .ok token after ∧ token.kind.mayName = true := by
  rw [bindingWord] at hrun
  obtain ⟨found, between, hconsume, hrun⟩ := Outcome.bind_eq_ok_iff.mp hrun
  split at hrun
  · rename_i hallows
    obtain ⟨rfl, rfl⟩ := Outcome.pure_eq_ok_iff.mp hrun
    exact ⟨hconsume, TokenKind.mayName_of_allows hallows⟩
  · exact absurd hrun Outcome.throw_ne_ok

instance : Yields naming grammar.identifier :=
  yields_node_of_word grammar.bindingWord_of_ok (fun _ => rfl) fun _ => rfl

instance : Yields naming grammar.namePattern :=
  yields_node_of_word grammar.bindingWord_of_ok (fun _ => rfl) fun _ => rfl

instance : Yields naming grammar.declaredName? := by
  constructor
  intro stream result after hstream hrun
  have hdisciplined : Disciplined true grammar.declaredName? := inferInstance
  refine ⟨(hdisciplined.leads hstream hrun).1, fun hlast => ?_⟩
  simp only [declaredName?, consumeWhen, bind_assoc, pure_bind] at hrun
  obtain ⟨token, between, hforward, hrun⟩ := Outcome.bind_eq_ok_iff.mp hrun
  obtain ⟨rfl, rfl⟩ := Outcome.pure_eq_ok_iff.mp hrun
  cases hforward
  by_cases hallows :
      grammar.rules.allows (stream.prepare .standard).upcoming.kind = true
  · simp only [hallows, if_true] at hlast
    have hfits := naming.allows_upcoming hstream .standard hlast
      (TokenKind.mayName_of_allows hallows)
    have hname : Fit naming (Node.mk (stream.prepare .standard).upcoming.span
        (.declaredName (stream.prepare .standard).upcoming.text)) :=
      .of_name hfits rfl rfl
    simp only [hallows, if_true, Option.map_some]
    infer_instance
  · simp only [hallows, Bool.false_eq_true, if_false, Option.map_none]
    infer_instance

instance : Yields naming grammar.declaredName := by
  rw [declaredName]
  refine .bind inferInstance
    (fun token => .bind inferInstance fun name => ?_) fun token _ =>
      .bind inferInstance (fun name => ?_) fun name hname => ?_
  · cases name <;> infer_instance
  · cases name <;> infer_instance
  · cases name with
    | none => infer_instance
    | some name =>
        have hname : Fit naming name := ⟨hname.fits name rfl⟩
        infer_instance

/-- A key that is a word is read like any other word. -/
theorem literalKeyText_of_isWord {token : Token} (h : token.kind.isWord = true) :
    literalKeyText token = (do return (← consume).text) := by
  cases hkind : token.kind <;> simp_all [literalKeyText, TokenKind.isWord]

/-- A key that is a word may also name a variable where it stands. -/
theorem yields_literalKey :
    Yields naming (node do
      let token ← peek
      return .literalKey (← literalKeyText token) token.kind) := by
  constructor
  intro stream result after hstream hrun
  have hdisciplined : Disciplined true (node do
      let token ← peek
      return .literalKey (← literalKeyText token) token.kind) := inferInstance
  refine ⟨(hdisciplined.leads hstream hrun).1, fun hlast => ?_⟩
  obtain ⟨shape, hshape, rfl⟩ := node_eq_ok_iff.mp hrun
  obtain ⟨token, between, hpeek, hshape⟩ := Outcome.bind_eq_ok_iff.mp hshape
  obtain ⟨text, between, htext, hshape⟩ := Outcome.bind_eq_ok_iff.mp hshape
  obtain ⟨rfl, rfl⟩ := Outcome.pure_eq_ok_iff.mp hshape
  obtain ⟨htoken, rfl⟩ := peek_eq_ok_iff.mp hpeek
  by_cases hword : token.kind.mayName = true
  · rw [literalKeyText_of_isWord (TokenKind.isWord_of_mayName hword)] at htext
    obtain ⟨found, between, hfound, htext⟩ := Outcome.bind_eq_ok_iff.mp htext
    obtain ⟨rfl, rfl⟩ := Outcome.pure_eq_ok_iff.mp htext
    obtain ⟨hsame, rfl⟩ := consume_eq_ok_iff.mp hfound
    rw [hstream.prepare_prepare] at hsame hlast ⊢
    obtain rfl := htoken.symm.trans hsame
    refine .of_name ?_ (if_pos hword) rfl
    rw [hstream.spanSince_advance, htoken]
    have hallows := naming.allows_upcoming hstream .standard hlast
      (by rw [htoken]; exact hword)
    rwa [htoken] at hallows
  · have hshape : Fit naming (Shape.literalKey text token.kind : Shape Node) :=
      .of_parts (if_neg hword) rfl fitsParts_nil
    infer_instance

/-- A name in an import clause is the token in front of which it is read, if
that is a word. -/
theorem consume_of_clauseName {base : Nat} {token : Token}
    {imported : ClauseName} {between : TokenStream}
    (hstream : stream.Lexes base) (hpeek : peek stream = .ok token between)
    (hclause : clauseName between = .ok imported after)
    (hword : token.kind.isWord = true) :
    consume between = .ok token after ∧ imported = .ident token.text := by
  obtain ⟨rfl, rfl⟩ := peek_eq_ok_iff.mp hpeek
  rw [clauseName] at hclause
  obtain ⟨found, between, hfound, hclause⟩ := Outcome.bind_eq_ok_iff.mp hclause
  obtain ⟨rfl, rfl⟩ := peek_eq_ok_iff.mp hfound
  rw [hstream.prepare_prepare] at hclause
  have hstring : ¬ (stream.prepare .standard).upcoming.kind = .string := by
    intro hkind
    rw [hkind] at hword
    cases hword
  rw [if_neg hstring, if_pos hword] at hclause
  obtain ⟨_, _, hconsume, hclause⟩ := Outcome.bind_eq_ok_iff.mp hclause
  obtain ⟨rfl, rfl⟩ := Outcome.pure_eq_ok_iff.mp hclause
  obtain ⟨_, rfl⟩ := consume_eq_ok_iff.mp hconsume
  refine ⟨consume_eq_ok_iff.mpr ⟨?_, rfl⟩, rfl⟩
  rw [hstream.prepare_prepare]

/-- A word that is looked at in front of a name in an import clause may stand
where it is, with the name as its text. -/
theorem yields_clauseName {α : Type} [HasNames α]
    {next : Token → ClauseName → Parser α}
    (hrest : ∀ token imported, Disciplined false (next token imported))
    (hnext : ∀ token imported, (token.kind.mayName = true →
      naming.Allows token.span imported.text) →
      Yields naming (next token imported)) :
    Yields naming (do
      let token ← peek
      let imported ← clauseName
      next token imported) := by
  constructor
  intro stream result after hstream hrun
  obtain ⟨token, between, hpeek, hbehind⟩ := Outcome.bind_eq_ok_iff.mp hrun
  obtain ⟨imported, later, hclause, hnextRun⟩ :=
    Outcome.bind_eq_ok_iff.mp hbehind
  have hbetween : between.Lexes naming.first :=
    ((inferInstance : Disciplined true peek).leads hstream hpeek).1
  have hlater : later.Lexes naming.first :=
    ((inferInstance : Disciplined true clauseName).leads hbetween hclause).1
  obtain ⟨hafter, hleads⟩ := (hrest token imported).leads hlater hnextRun
  refine ⟨hafter, fun hlast => ?_⟩
  refine ((hnext token imported fun hword => ?_).yields hlater hnextRun).2 hlast
  obtain ⟨hconsume, rfl⟩ := consume_of_clauseName hstream hpeek hclause
    (TokenKind.isWord_of_mayName hword)
  obtain ⟨rfl, rfl⟩ := consume_eq_ok_iff.mp hconsume
  exact naming.allows_upcoming hbetween .standard (hleads.trans hlast) hword

instance : Yields naming grammar.importItem := by
  rw [importItem]
  refine .node (yields_clauseName
    (fun token imported => .bind inferInstance fun asName => ?_)
    fun token imported hallows => .bind inferInstance (fun asName => ?_)
      fun asName hasName => ?_)
  · cases asName <;> infer_instance
  · cases asName <;> infer_instance
  · cases asName with
    | some asName =>
        have hasName : Fit naming asName := ⟨hasName.fits asName rfl⟩
        infer_instance
    | none =>
        dsimp only
        split
        · rename_i hallowed
          have hname : Fit naming
              (Node.mk token.span (.identPattern imported.text)) :=
            .of_name (hallows (TokenKind.mayName_of_allows hallowed)) rfl rfl
          infer_instance
        · infer_instance

/-! ### Rules without parts of their own -/

instance {word : Keyword} {name what : String} {shape : Shape Node}
    [Fit naming shape] :
    Yields naming (metaProperty word name what shape) := by
  rw [metaProperty]
  infer_instance

instance : Yields naming importMeta := by
  rw [importMeta]
  infer_instance

instance : Yields naming newTarget := by
  rw [newTarget]
  infer_instance

instance {word : Keyword} {shape : Shape Node} [Fit naming shape] :
    Yields naming (wordExpression word shape) := by
  rw [wordExpression]
  infer_instance

instance {left right : Span} {shape : Shape Node} [Fit naming shape] :
    Fit naming (spanning left right shape) := by
  rw [spanning]
  infer_instance

instance {object : Node} {optional : Bool} [Fit naming object] :
    Yields naming (memberOf object optional) := by
  rw [memberOf]
  infer_instance

instance : Yields naming grammar.importNames := by
  rw [importNames]
  refine .bind inferInstance (fun token => ?_) fun token _ => ?_
  all_goals split <;> infer_instance

instance : Yields naming grammar.importClause := by
  rw [importClause]
  infer_instance

instance : Yields naming grammar.importStatement := by
  rw [importStatement]
  infer_instance

instance {value : Parser Node} [Disciplined false value]
    [Yields naming value] : Yields naming (exportDefaultOf value) := by
  rw [exportDefaultOf]
  infer_instance

instance : Yields naming grammar.breakStatement := by
  rw [breakStatement]
  infer_instance

instance : Yields naming grammar.continueStatement := by
  rw [continueStatement]
  infer_instance

instance : Yields naming debuggerStatement := by
  rw [debuggerStatement]
  infer_instance

instance : Yields naming emptyStatement := by
  rw [emptyStatement]
  infer_instance

end WithoutParts

/-- The parsers of a grammar for expressions, patterns and statements yield
names where they may stand. -/
class YieldsNames (naming : Naming) (grammar : Grammar) : Prop where
  expressionFrom : ∀ least ends lineEnds,
    Yields naming (grammar.expressionFrom least ends lineEnds)
  pattern : Yields naming grammar.pattern
  statement : Yields naming grammar.statement

variable (grammar : Grammar) [hdisciplined : grammar.IsDisciplined]
  [hgrammar : ∀ naming, grammar.YieldsNames naming]

instance {least : Nat} {ends : List TokenKind} {lineEnds : Bool} :
    Yields naming (grammar.expressionFrom least ends lineEnds) :=
  (hgrammar naming).expressionFrom least ends lineEnds

instance : Yields naming grammar.pattern := (hgrammar naming).pattern

instance : Yields naming grammar.statement := (hgrammar naming).statement

instance {ends : List TokenKind} : Yields naming (grammar.expression ends) := by
  rw [expression]
  infer_instance

instance {mark : Punctuator} :
    Yields naming (grammar.expressionUntil mark) := by
  rw [expressionUntil]
  infer_instance

instance {mark : Punctuator} :
    Yields naming (grammar.expressionInList mark) := by
  rw [expressionInList]
  infer_instance

instance {ends : List TokenKind} :
    Yields naming (grammar.expressionOrLine ends) := by
  rw [expressionOrLine]
  infer_instance

instance : Yields naming grammar.bracedStatements := by
  rw [bracedStatements]
  infer_instance

/-! ### Literals with parts -/

instance {isTagged : Bool} : Yields naming (grammar.templateRest isTagged) := by
  rw [templateRest]
  refine .bind (.iterate
    (fun found => .bind inferInstance fun value => .bind inferInstance
      fun close => .bind inferInstance fun token => ?_)
    (fun found _ => .bind inferInstance
      (fun value => .bind inferInstance fun close => .bind inferInstance
        fun token => ?_)
      fun value _ => .bind inferInstance
        (fun close => .bind inferInstance fun token => ?_)
        fun close _ => .bind inferInstance (fun token => ?_) fun token _ => ?_)
    inferInstance) inferInstance fun rest _ => inferInstance
  all_goals split <;> infer_instance

instance {isTagged : Bool} :
    Yields naming (grammar.templateParts isTagged) := by
  rw [templateParts]
  refine .bind inferInstance (fun token => ?_) fun token _ => ?_
  all_goals split <;> infer_instance

instance : Yields naming grammar.templateLiteral := by
  rw [templateLiteral]
  infer_instance

instance : Yields naming grammar.arrayLiteral := by
  rw [arrayLiteral]
  refine .node (.bind inferInstance
    (fun start => .bind (.iterate fun found => ?_) fun elements => inferInstance)
    fun start _ => .bind
      (.iterate (fun found => ?_) (fun found _ => ?_) inferInstance)
      inferInstance fun elements _ => inferInstance)
  all_goals infer_instance

/-! ### Keys and patterns -/

instance : Yields naming grammar.propertyKey := by
  have hkey : Yields naming (node do
      let token ← peek
      return .literalKey (← literalKeyText token) token.kind) :=
    yields_literalKey
  rw [propertyKey]
  infer_instance

omit hdisciplined hgrammar in
/-- The name of a literal key may stand there as the name of a variable. -/
theorem allows_of_fit_key {span : Span} {text : String} {kind : TokenKind}
    (hkey : Fit naming (Node.mk span (.literalKey text kind)))
    {rules : NameRules} (hallowed : rules.allows kind = true) :
    naming.Allows span text :=
  hkey.fits.name (if_pos (TokenKind.mayName_of_allows hallowed))

instance {key : PropertyKey Node} [hkey : Fit naming key] :
    Yields naming (grammar.propertyTarget key) := by
  unfold propertyTarget
  refine .bind inferInstance (fun isNamed => ?_) fun isNamed _ => ?_
  · repeat' split
    all_goals infer_instance
  · split
    · infer_instance
    · split
      · rename_i span text kind
        split
        · rename_i hallowed
          have hname : Fit naming (Node.mk span (.identPattern text)) :=
            .of_name (allows_of_fit_key ⟨hkey.fits⟩ hallowed) rfl rfl
          infer_instance
        · infer_instance
      · infer_instance

instance : Yields naming grammar.patternProperty := by
  rw [patternProperty]
  infer_instance

instance : Yields naming grammar.objectPattern := by
  rw [objectPattern]
  infer_instance

instance : Yields naming grammar.arrayPattern := by
  rw [arrayPattern]
  refine .node (.bind inferInstance
    (fun start => .bind (.iterate fun found => ?_) fun found => inferInstance)
    fun start _ => .bind
      (.iterate (fun found => ?_) (fun found _ => ?_) inferInstance)
      inferInstance fun elements _ => inferInstance)
  all_goals infer_instance

theorem yields_patternRule : Yields naming grammar.patternRule := by
  rw [patternRule]
  refine .bind inferInstance (fun token => ?_) fun token _ => ?_
  all_goals
    repeat' split
    all_goals infer_instance

/-! ### Functions, classes and members -/

instance : Yields naming grammar.parameter := by
  rw [parameter]
  infer_instance

instance : Yields naming grammar.parameters := by
  rw [parameters]
  infer_instance

instance {isAsync isGenerator : Bool} :
    Yields naming (grammar.functionTail isAsync isGenerator) := by
  rw [functionTail]
  infer_instance

instance {kind : MemberKind} {isAsync isGenerator : Bool} :
    Yields naming (grammar.methodMember kind isAsync isGenerator) := by
  rw [methodMember]
  infer_instance

instance {valueMark endMark : Punctuator} {lineEnds : Bool} :
    Yields naming (grammar.keyedMember valueMark endMark lineEnds) := by
  rw [keyedMember]
  infer_instance

instance {valueMark endMark : Punctuator} {lineEnds : Bool} :
    Yields naming (grammar.member valueMark endMark lineEnds) := by
  rw [member]
  refine .bind inferInstance (fun (first, second) => ?_)
    fun (first, second) _ => ?_
  all_goals
    dsimp only
    split <;> infer_instance

instance : Yields naming grammar.classMember := by
  rw [classMember]
  infer_instance

instance : Yields naming grammar.classBody := by
  rw [classBody]
  infer_instance

instance : Yields naming grammar.heritage? := by
  rw [heritage?]
  infer_instance

instance {span : Span} {text : String} {kind : TokenKind}
    [hkey : Fit naming (Node.mk span (.literalKey text kind))] :
    Yields naming (grammar.shorthandMember span text kind
      (.mk span (.literalKey text kind))) := by
  rw [shorthandMember]
  split
  · infer_instance
  · rename_i hallowed
    have hallows : naming.Allows span text :=
      allows_of_fit_key hkey (by simpa using hallowed)
    have hname : Fit naming (Node.mk span (.ident text)) :=
      .of_name hallows rfl rfl
    have hpattern : Fit naming (Node.mk span (.identPattern text)) :=
      .of_name hallows rfl rfl
    refine .bind inferInstance (fun initial => ?_) fun initial hinitial => ?_
    · cases initial <;> infer_instance
    · cases initial with
      | none => infer_instance
      | some initial =>
          have hinitial : Fit naming initial := ⟨hinitial.fits initial rfl⟩
          infer_instance

instance : Yields naming grammar.objectMember := by
  rw [objectMember]
  refine .node (.bind inferInstance (fun isSpread => ?_) fun isSpread _ => ?_)
  · split
    · infer_instance
    · refine .bind inferInstance fun found => ?_
      repeat' split
      all_goals infer_instance
  split
  · infer_instance
  · refine .bind inferInstance (fun found => ?_)
      fun (key, kind, value) hfound => ?_
    · repeat' split
      all_goals infer_instance
    · have hkey : Fit naming key := ⟨hfound.fits.1⟩
      have hvalue : Fit naming value := ⟨hfound.fits.2.2⟩
      dsimp only
      split
      · rename_i name
        have hname : Fit naming name := ⟨hkey.fits⟩
        split <;> infer_instance
      · infer_instance
      · infer_instance

instance : Yields naming grammar.objectLiteral := by
  rw [objectLiteral]
  infer_instance

/-! ### Operands -/

instance : Yields naming grammar.arrowHead := by
  constructor
  intro stream result after hstream hrun
  have hdisciplined : Disciplined true grammar.arrowHead := inferInstance
  refine ⟨(hdisciplined.leads hstream hrun).1, fun hlast => ?_⟩
  rw [arrowHead] at hrun
  obtain ⟨⟨first, second⟩, between, hpeek, hrun⟩ :=
    Outcome.bind_eq_ok_iff.mp hrun
  have hbetween : between.Lexes naming.first :=
    ((inferInstance : Disciplined true peekTwo).leads hstream hpeek).1
  dsimp only at hrun
  split at hrun
  · rename_i hsingle
    obtain ⟨hallowed, _⟩ := Bool.and_eq_true_iff.mp hsingle
    obtain ⟨name, _, hname, hrun⟩ := Outcome.bind_eq_ok_iff.mp hrun
    obtain ⟨arrow, _, harrow, hrun⟩ := Outcome.bind_eq_ok_iff.mp hrun
    obtain ⟨rfl, rfl⟩ := Outcome.pure_eq_ok_iff.mp hrun
    obtain rfl := eq_of_peekTwo hstream hpeek hname
    obtain ⟨rfl, rfl⟩ := consume_eq_ok_iff.mp hname
    have hmark : Disciplined true (requireMark .equalsChevronRight) :=
      inferInstance
    have hleads := (hmark.leads (hbetween.advance_prepare .standard) harrow).2
    have hpattern : Fit naming (Node.mk
        (between.prepare .standard).upcoming.span
        (.identPattern (between.prepare .standard).upcoming.text)) :=
      .of_name (naming.allows_upcoming hbetween .standard
        (hleads.trans hlast) (TokenKind.mayName_of_allows hallowed)) rfl rfl
    infer_instance
  · exact ((inferInstance : Yields naming (do
      let parameters ← grammar.parameters
      let arrow ← requireMark .equalsChevronRight
      return (parameters, arrow))).yields hbetween hrun).2 hlast

instance {ends : List TokenKind} : Yields naming (grammar.arrowBody ends) := by
  rw [arrowBody]
  infer_instance

instance {ends : List TokenKind} :
    Yields naming (grammar.arrowFunction ends) := by
  rw [arrowFunction]
  infer_instance

instance {ends : List TokenKind} {other : Parser Node}
    [Disciplined false other] [Yields naming other] :
    Yields naming (grammar.arrowFunctionOr ends other) := by
  rw [arrowFunctionOr_eq]
  refine .rewinding inferInstance inferInstance (fun outcome hback => ?_)
    (fun outcome => ?_) fun outcome houtcome => ?_
  · cases outcome with
    | ok arrow => exact absurd hback Bool.false_ne_true
    | error error => exact ⟨nofun⟩
  · cases outcome <;> infer_instance
  · cases outcome with
    | ok arrow =>
        have harrow : Fit naming arrow := ⟨houtcome.fits arrow rfl⟩
        infer_instance
    | error error => infer_instance

instance {lineEnds : Bool} : Yields naming (grammar.grouping lineEnds) := by
  rw [grouping]
  infer_instance

instance : Yields naming grammar.functionExpression := by
  rw [functionExpression]
  infer_instance

instance : Yields naming grammar.classExpression := by
  rw [classExpression]
  infer_instance

instance : Yields naming grammar.importCall := by
  rw [importCall]
  infer_instance

instance {ends : List TokenKind} {lineEnds : Bool} :
    Yields naming (grammar.unaryExpression ends lineEnds) := by
  have himplicit : ∀ stop,
      Fit naming (Node.mk (.point stop) (.ident "undefined")) := fun stop =>
    .of_name (naming.implicit stop) rfl rfl
  rw [unaryExpression]
  refine .node (.bind inferInstance (fun token => ?_) fun token _ => ?_)
  all_goals split <;> infer_instance

instance {ends : List TokenKind} {second third : Token} :
    Yields naming (grammar.asyncOperand ends second third) := by
  rw [asyncOperand]
  infer_instance

instance {first second : Token} {word : Keyword} :
    Yields naming (grammar.wordOperand first second word) := by
  unfold wordOperand
  split <;> infer_instance

instance {ends : List TokenKind} {lineEnds : Bool} {first second : Token} :
    Yields naming (grammar.otherOperand ends lineEnds first second) := by
  rw [otherOperand]
  split <;> infer_instance

instance {ends : List TokenKind} {lineEnds : Bool} :
    Yields naming (grammar.operand ends lineEnds) := by
  rw [operand_eq]
  exact .rewinding inferInstance inferInstance (fun _ _ => inferInstance)
    (fun (first, second, third) => inferInstance)
    fun (first, second, third) _ => inferInstance

/-! ### Operator expressions -/

instance : Yields naming grammar.argument := by
  rw [argument]
  infer_instance

instance : Yields naming grammar.arguments := by
  rw [arguments]
  infer_instance

instance {callee : Node} {optional : Bool} [Fit naming callee] :
    Yields naming (grammar.callOn callee optional) := by
  rw [callOn]
  infer_instance

instance {object : Node} {optional : Bool} [Fit naming object] :
    Yields naming (grammar.computedMemberOf object optional) := by
  rw [computedMemberOf]
  infer_instance

instance {test : Node} {ends : List TokenKind} {lineEnds : Bool}
    [Fit naming test] :
    Yields naming (grammar.conditionalOn test ends lineEnds) := by
  rw [conditionalOn]
  infer_instance

instance {left : Node} {operator : Operator} {ends : List TokenKind}
    {lineEnds : Bool} [hleft : Fit naming left] :
    Yields naming (grammar.binaryOn left operator ends lineEnds) := by
  rw [binaryOn]
  dsimp only
  split
  · split
    · rename_i target htarget
      have htarget : Fit naming target :=
        Node.fit_toAssignmentTarget hleft htarget
      infer_instance
    · infer_instance
  · infer_instance

instance {left : Node} {operator : Operator} {ends : List TokenKind}
    {lineEnds : Bool} [Fit naming left] :
    Yields naming (grammar.operationOn left operator ends lineEnds) := by
  unfold operationOn
  split <;> infer_instance

instance {tag : Node} [Fit naming tag] :
    Yields naming (grammar.taggedTemplate tag) := by
  rw [taggedTemplate]
  infer_instance

instance {least : Nat} {ends : List TokenKind} {lineEnds : Bool} {left : Node}
    [Fit naming left] :
    Yields naming (grammar.extendExpression least ends lineEnds left) := by
  rw [extendExpression_eq]
  refine .rewinding inferInstance inferInstance (fun _ _ => inferInstance)
    inferInstance fun token _ => ?_
  rw [extendAt]
  repeat' split
  all_goals infer_instance

theorem yields_expressionRule (least : Nat) (ends : List TokenKind)
    (lineEnds : Bool) :
    Yields naming (grammar.expressionRule least ends lineEnds) := by
  rw [expressionRule]
  infer_instance

/-! ### Declarations -/

instance {ends : List TokenKind} {lineEnds : Bool} :
    Yields naming (grammar.declarator ends lineEnds) := by
  rw [declarator]
  infer_instance

instance : Yields naming grammar.variableDeclaration := by
  rw [variableDeclaration]
  infer_instance

instance : Yields naming grammar.headerVariables := by
  rw [headerVariables]
  infer_instance

instance : Yields naming grammar.functionDeclaration := by
  rw [functionDeclaration]
  infer_instance

instance : Yields naming grammar.classDeclaration := by
  rw [classDeclaration]
  infer_instance

/-! ### Loops -/

instance : Yields naming grammar.forBody := by
  rw [forBody]
  infer_instance

instance : Yields naming grammar.forTarget := by
  rw [forTarget]
  refine .bind inferInstance (fun (first, second) => ?_)
    fun (first, second) _ => ?_
  · dsimp only
    split
    · infer_instance
    · refine .bind inferInstance fun target => ?_
      split <;> infer_instance
  · dsimp only
    split
    · infer_instance
    · refine .bind inferInstance (fun target => ?_) fun target htarget => ?_
      · split <;> infer_instance
      · split
        · rename_i pattern hpattern
          have hpattern : Fit naming pattern :=
            Node.fit_toPattern htarget hpattern
          infer_instance
        · infer_instance

instance : Yields naming grammar.forRest := by
  rw [forRest]
  infer_instance

instance : Yields naming grammar.keysLoop := by
  rw [keysLoop]
  infer_instance

instance : Yields naming grammar.valuesLoop := by
  rw [valuesLoop]
  infer_instance

instance : Yields naming grammar.forStart := by
  rw [forStart]
  infer_instance

instance {close : Punctuator} : Yields naming (grammar.forPart close) := by
  rw [forPart]
  infer_instance

instance : Yields naming grammar.countingLoop := by
  rw [countingLoop]
  infer_instance

instance : Yields naming grammar.forStatement := by
  rw [forStatement_eq]
  refine .rewinding inferInstance inferInstance (fun _ _ => inferInstance)
    (fun kind => inferInstance) fun kind _ => ?_
  cases kind with
  | counting => exact inferInstanceAs (Yields naming grammar.countingLoop)
  | keys => exact inferInstanceAs (Yields naming grammar.keysLoop)
  | values => exact inferInstanceAs (Yields naming grammar.valuesLoop)

/-! ### Exports -/

omit hdisciplined hgrammar in
/-- The names of an exported declaration stand in its range, since the declaration
is read on its own. -/
theorem yields_exportDeclaration {declaration : Parser Node} {isDefault : Bool}
    (hspanning : Spanning declaration)
    (hyields : ∀ naming, Yields naming declaration) :
    Yields naming (do
      return Shape.exportDeclaration isDefault (← declaration)) := by
  constructor
  intro stream result after hstream hrun
  obtain ⟨node, between, hnode, hrun⟩ := Outcome.bind_eq_ok_iff.mp hrun
  obtain ⟨rfl, rfl⟩ := Outcome.pure_eq_ok_iff.mp hrun
  obtain ⟨hafter, hfits⟩ := (hyields naming).yields hstream hnode
  refine ⟨hafter, fun hlast => ?_⟩
  have hstart := hstream.rebase
  obtain ⟨hlexes, hown⟩ :=
    (hyields (.ofConsumed stream.consumed between)).yields hstart hnode
  have hfit := hfits hlast
  refine .exportDeclaration ((hown (.refl between)).fits.names.mono ?_)
  intro span name hallows htext
  obtain ⟨token, htoken, _, rfl, _⟩ := Naming.exists_token_of_allows hallows htext
  rw [hspanning _ _ _ hnode]
  exact (hlexes.spanSince_encloses htoken).1

instance {isDefault : Bool} : Yields naming (do
    return Shape.exportDeclaration isDefault (← grammar.functionDeclaration)) :=
  yields_exportDeclaration (spanning_node _) inferInstance

instance {isDefault : Bool} : Yields naming (do
    return Shape.exportDeclaration isDefault (← grammar.classDeclaration)) :=
  yields_exportDeclaration (spanning_node _) inferInstance

instance {isDefault : Bool} : Yields naming (do
    return Shape.exportDeclaration isDefault (← grammar.variableDeclaration)) :=
  yields_exportDeclaration (spanning_node _) inferInstance

instance : Yields naming grammar.defaultExport := by
  rw [defaultExport]
  infer_instance

instance : Yields naming grammar.exportStatement := by
  rw [exportStatement]
  refine .node (.bind inferInstance
    (fun word => .bind inferInstance fun (first, second) => ?_) fun word _ =>
      .bind inferInstance (fun (first, second) => ?_)
        fun (first, second) _ => ?_)
  all_goals
    dsimp only
    split <;> infer_instance

/-! ### Statements -/

instance : Yields naming grammar.blockStatement := by
  rw [blockStatement]
  infer_instance

instance : Yields naming grammar.lastExpression := by
  rw [lastExpression]
  infer_instance

instance : Yields naming grammar.expressionStatement := by
  rw [expressionStatement]
  infer_instance

instance : Yields naming grammar.labelledStatement := by
  rw [labelledStatement]
  infer_instance

instance : Yields naming grammar.parenthesized := by
  rw [parenthesized]
  infer_instance

instance : Yields naming grammar.ifStatement := by
  rw [ifStatement]
  infer_instance

instance : Yields naming grammar.returnStatement := by
  rw [returnStatement]
  infer_instance

instance : Yields naming grammar.throwStatement := by
  rw [throwStatement]
  infer_instance

instance : Yields naming grammar.catchClause := by
  rw [catchClause]
  infer_instance

instance : Yields naming grammar.tryStatement := by
  rw [tryStatement]
  infer_instance

instance : Yields naming grammar.whileStatement := by
  rw [whileStatement]
  infer_instance

instance : Yields naming grammar.withStatement := by
  rw [withStatement]
  infer_instance

instance : Yields naming grammar.doWhileStatement := by
  rw [doWhileStatement]
  infer_instance

instance : Yields naming grammar.switchCase := by
  rw [switchCase]
  infer_instance

instance : Yields naming grammar.switchStatement := by
  rw [switchStatement]
  infer_instance

instance {first second : Token} :
    Yields naming (grammar.otherStatement first second) := by
  rw [otherStatement]
  infer_instance

instance {first second : Token} {word : Keyword} :
    Yields naming (grammar.wordStatement first second word) := by
  unfold wordStatement
  split <;> infer_instance

theorem yields_statementRule : Yields naming grammar.statementRule := by
  rw [statementRule]
  refine .bind inferInstance (fun (first, second) => ?_)
    fun (first, second) _ => ?_
  all_goals
    dsimp only
    split <;> infer_instance

/-! ### The whole grammar -/

instance : grammar.deepen.YieldsNames naming where
  expressionFrom := grammar.yields_expressionRule
  pattern := grammar.yields_patternRule
  statement := grammar.yields_statementRule

omit hdisciplined hgrammar in
theorem yieldsNames_ofDepth (rules : NameRules) (depth : Nat)
    (naming : Naming) : (ofDepth rules depth).YieldsNames naming := by
  induction depth generalizing naming with
  | zero =>
      exact ⟨fun _ _ _ => inferInstanceAs (Yields naming exhausted),
        inferInstanceAs (Yields naming exhausted),
        inferInstanceAs (Yields naming exhausted)⟩
  | succ depth ih => exact inferInstanceAs ((deepen _).YieldsNames naming)

omit hdisciplined hgrammar in
instance {rules : NameRules} {source : String} {naming : Naming} :
    (forSource rules source).YieldsNames naming :=
  yieldsNames_ofDepth rules _ naming

omit hdisciplined hgrammar in
/-- The names in a statement are words that are consumed when it is read. -/
theorem fits_of_statement {rules : NameRules} {source : String} {base : Nat}
    {statement : Node} (hstream : stream.Lexes base)
    (hrun : (forSource rules source).statement stream = .ok statement after) :
    after.Lexes base ∧ (Naming.ofConsumed base after).Fits statement := by
  have hyields : Yields (.ofConsumed base after)
      (forSource rules source).statement := inferInstance
  obtain ⟨hafter, hfit⟩ := hyields.yields hstream hrun
  exact ⟨hafter, (hfit (.refl after)).fits⟩

end Grammar

/-- A statement of a program spans the tokens of its source that are consumed when it
is read, and its names are words among them. -/
theorem Program.exists_reads_of_parse {source : String} {program : Program}
    (hparse : parse source = .ok program) {statement : Node}
    (hstatement : statement ∈ program.statements) :
    ∃ first last, TokenStream.Reads source.toList last ∧
      TokenStream.Lexes first last ∧
      (Naming.ofConsumed first last).Fits statement ∧
      statement.span = last.spanSince ⟨first⟩ := by
  obtain ⟨start, last, hstart, hrun⟩ :=
    exists_run_of_parse hparse statement hstatement
  have hdisciplined : Disciplined false
      (Grammar.forSource .module source).statement := inferInstance
  obtain ⟨hlast, hfits⟩ := Grammar.fits_of_statement hstart.lexes.rebase hrun
  exact ⟨start.consumed, last, hdisciplined.reads hstart hrun, hlast, hfits,
    Grammar.spanning_statement .module _ _ _ _ hrun⟩

theorem Program.exists_tokens_of_parse {source : String} {program : Program}
    (hparse : parse source = .ok program) {statement : Node}
    (hstatement : statement ∈ program.statements) :
    ∃ first last, TokenStream.Lexes first last ∧
      (Naming.ofConsumed first last).Fits statement ∧
      statement.span = last.spanSince ⟨first⟩ := by
  obtain ⟨first, last, _, htokens⟩ := exists_reads_of_parse hparse hstatement
  exact ⟨first, last, htokens⟩

/-- All names in the statements of a program are words of its source. -/
theorem Program.fits_of_parse {source : String} {program : Program}
    (hparse : parse source = .ok program) :
    ∃ last, last.Lexes 0 ∧
      ∀ statement ∈ program.statements,
        (Naming.ofConsumed 0 last).Fits statement := by
  obtain ⟨last, hrun⟩ := parse_eq_ok_iff.mp ⟨program, hparse, rfl⟩
  have hyields : Yields (.ofConsumed 0 last)
      (Grammar.forSource .module source).statements := by
    rw [Grammar.statements]
    infer_instance
  obtain ⟨hlast, hfit⟩ :=
    hyields.yields (reads_ofSource source.toList).lexes hrun
  exact ⟨last, hlast, (hfit (.refl last)).fits⟩

end Bundler
