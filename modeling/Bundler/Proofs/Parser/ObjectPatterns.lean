import Bundler.Proofs.Parser.PatternLiterals

/-!
# Object patterns are object literals

Keys are read alike in patterns and in literals, and what may follow the key of
a pattern property makes neither a method nor an accessor of it.  A target
behind a colon is the value of a member; a shorthand is a shorthand, or with a
default a member that only a pattern can have.
-/

set_option synthInstance.maxSize 1000

namespace Bundler

open TokenStream

namespace Parser

variable {α β : Type} {parser : Parser α} {next : α → Parser β}

/-! ### First tokens of keys and members -/

instance {other : Parser α} [h : Opens other] :
    Opens (if false = true then parser else other) := h

/-- What consumes nothing leaves the first token to what follows. -/
theorem Opens.of_stays [hparser : Disciplined false parser]
    (hstays : ∀ {stream value after}, parser stream = .ok value after →
      after.consumed = stream.consumed) [hnext : ∀ value, Opens (next value)] :
    Opens (parser >>= next) := by
  constructor
  intro text stream result after hstream hrun
  obtain ⟨value, between, hfirst, hrest⟩ := Outcome.bind_eq_ok_iff.mp hrun
  have hbetween := hparser.reads hstream hfirst
  exact ((hnext value).opening hbetween hrest).later hstream hbetween
    (hparser.leads hstream.lexes hfirst).2 (hstays hfirst)

instance {next : Token → Parser α} [∀ token, Opens (next token)] :
    Opens (peek >>= next) := by
  refine .of_stays fun {stream _ _} hrun => ?_
  rw [peek, peekIn, forward_eq] at hrun
  cases hrun
  exact consumed_prepare .standard stream

theorem Opens.peekTwo_bind {next : Token × Token → Parser α}
    (hnext : ∀ tokens, Opens (next tokens)) : Opens (peekTwo >>= next) := by
  refine .of_stays fun {stream _ _} hrun => ?_
  rw [peekTwo_eq] at hrun
  cases hfirst : (do return (← consume, ← consume) :
      Parser (Token × Token)) stream with
  | ok tokens between =>
      rw [rewinding_of_ok hfirst, if_pos rfl] at hrun
      cases hrun
      rfl
  | error failure between =>
      rw [rewinding_of_error hfirst] at hrun
      cases hrun

instance [hparser : Opens parser] : Opens (withSpan parser) := by
  constructor
  intro text stream result after hstream hrun
  cases hfirst : parser stream with
  | ok value between =>
      rw [withSpan_of_ok hfirst] at hrun
      cases hrun
      exact hparser.opening hstream hfirst
  | error failure between =>
      rw [withSpan_of_error hfirst] at hrun
      cases hrun

instance {shape : Parser (Shape Node)} [Opens shape]
    [Disciplined true shape] : Opens (node shape) := by
  have : Disciplined false (withSpan shape) := .withSpan ‹_›
  rw [node]
  infer_instance

instance : Opens stringValue := by
  rw [stringValue]
  refine .bind inferInstance inferInstance fun token => ?_
  dsimp only
  repeat' split
  all_goals infer_instance

instance : Opens numberValue := by
  rw [numberValue]
  refine .bind inferInstance inferInstance fun token => ?_
  split <;> infer_instance

instance : Opens bigintDigits := by
  rw [bigintDigits]
  infer_instance

end Parser

namespace Grammar

open Bundler.Parser

section Opening

variable {grammar : Grammar}

instance (token : Token) : Opens (literalKeyText token) := by
  rw [literalKeyText]
  split <;> infer_instance

variable [grammar.IsDisciplined]

instance : Opens grammar.propertyKey := by
  rw [propertyKey]
  infer_instance

instance opensProperty : Opens (do
    let key ← grammar.propertyKey
    let (target, shorthand) ← grammar.propertyTarget key
    let initial ←
      afterMark .equals (grammar.expressionInList .braceClose)
    return .patternProperty key target shorthand initial :
      Parser (Shape Node)) := by
  infer_instance

instance {valueMark endMark : Punctuator} {lineEnds : Bool} :
    Opens (grammar.keyedMember valueMark endMark lineEnds) := by
  rw [keyedMember]
  infer_instance

instance {valueMark endMark : Punctuator} {lineEnds : Bool} :
    Opens (grammar.member valueMark endMark lineEnds) := by
  rw [member]
  refine .peekTwo_bind fun (first, second) => ?_
  dsimp only
  split <;> infer_instance

end Opening

/-! ### Steps of object patterns and literals -/

section Steps

variable (grammar : Grammar)

/-- What a key with what follows it is as a member of an object literal. -/
def memberShape (found : PropertyKey Node × MemberKind × Option Node) :
    Parser (Shape Node) :=
  match found with
  | (key, kind, value) =>
    match key, kind, value with
    | .literal name, .field, none =>
        match name with
        | .mk span (.literalKey text kind) =>
            grammar.shorthandMember span text kind name
        | .mk span _ => fail (span.error (.expected "identifier"))
    | .computed value, .field, none =>
        fail (value.span.error (.expected "object literal value"))
    | key, kind, value => return .property key kind value

theorem objectMember_eq :
    grammar.objectMember = (node do
      if ← acceptMark .dotDotDot then
        return .spreadProperty (← grammar.expressionInList .braceClose)
      grammar.memberShape (← grammar.member .colon .comma false)) := rfl

/-- One step along the properties of an object pattern. -/
def objectPatternStep (found : List Node) :
    Parser (List Node ⊕ (List Node × Option Node)) := do
  if (← peekKind) = .punctuator .braceClose then return .inr (found, none)
  if ← acceptMark .dotDotDot then
    let rest ← grammar.namePattern
    return .inr (found, some rest)
  let property ← grammar.patternProperty
  if ← acceptMark .comma then return .inl (property :: found)
  return .inr (property :: found, none)

/-- One step along the members of an object literal. -/
def objectLiteralStep (found : List Node) :
    Parser (List Node ⊕ List Node) := do
  if (← peekKind) = .punctuator .braceClose then return .inr found
  let member ← grammar.objectMember
  if ← acceptMark .comma then return .inl (member :: found)
  return .inr (member :: found)

theorem objectPattern_eq :
    grammar.objectPattern = node do
      let _ ← requireMark .braceOpen
      let (properties, rest) ← iterate grammar.objectPatternStep []
      let _ ← requireMark .braceClose
      return .objectPattern properties.reverse rest := rfl

theorem objectLiteral_eq :
    grammar.objectLiteral = node do
      let _ ← requireMark .braceOpen
      let members ← iterate grammar.objectLiteralStep []
      let _ ← requireMark .braceClose
      return .object members.reverse := rfl

/-- What a shorthand in an object literal is, by its default. -/
def shorthandShape (span : Span) (text : String) (kind : TokenKind) :
    Option Node → Shape Node
  | none => .shorthandProperty (.mk span (.ident text))
  | some initial =>
      .property (.literal (.mk span (.literalKey text kind))) .field
        (some (.mk (span.join initial.span)
          (.binary .assignment (.mk span (.identPattern text)) initial)))

end Steps

section StepRuns

variable {grammar : Grammar} [grammar.IsDisciplined] [grammar.IsAdvancing]
  {text : List Char} {start stop : Nat}

instance (found : PropertyKey Node × MemberKind × Option Node) :
    Disciplined false (grammar.memberShape found) := by
  unfold memberShape
  repeat' split
  all_goals infer_instance

instance (found : List Node) :
    Disciplined false (grammar.objectPatternStep found) := by
  rw [objectPatternStep]
  infer_instance

instance (found : List Node) :
    GoesOnIf Sum.isLeft (grammar.objectPatternStep found) := by
  rw [objectPatternStep]
  infer_instance

instance (found : List Node) :
    Disciplined false (grammar.objectLiteralStep found) := by
  rw [objectLiteralStep]
  infer_instance

instance (found : List Node) :
    GoesOnIf Sum.isLeft (grammar.objectLiteralStep found) := by
  rw [objectLiteralStep]
  infer_instance

omit [grammar.IsDisciplined] [grammar.IsAdvancing] in
/-- Behind a token whose text is all that is looked at. -/
theorem stop_of_runs_consume_bind {α : Type} {next : Token → Parser α}
    {value : α} (hnext : ∀ token, (∃ found, next token = pure found) ∨
      ∃ error, next token = fail error)
    (hrun : Runs text (consume >>= next) start value stop) :
    stop = (tokenAt text .standard start).span.stop := by
  have hdisciplined : ∀ token, Disciplined false (next token) := by
    intro token
    obtain ⟨found, h⟩ | ⟨error, h⟩ := hnext token
    · rw [h]
      infer_instance
    · rw [h]
      infer_instance
  obtain ⟨token, between, hconsume, hrun⟩ :=
    (Disciplined.runs_bind inferInstance hdisciplined).mp hrun
  obtain ⟨_, rfl, rfl⟩ := runs_consume.mp hconsume
  obtain ⟨found, h⟩ | ⟨error, h⟩ := hnext (tokenAt text .standard start)
  · rw [h] at hrun
    exact (runs_pure.mp hrun).2.2
  · rw [h] at hrun
    exact absurd hrun not_runs_fail

omit [grammar.IsDisciplined] [grammar.IsAdvancing] in
/-- The text of a key is that of a single token, which is no mark. -/
theorem runs_literalKeyText {name : String} {token : Token}
    (htoken : token = tokenAt text .standard start)
    (hrun : Runs text (literalKeyText token) start name stop) :
    stop = token.span.stop ∧ ∀ mark, token.kind ≠ .punctuator mark := by
  have hword : Runs text (do return (← consume).text) start name stop →
      stop = token.span.stop := fun hrun =>
    htoken ▸ stop_of_runs_consume_bind (fun _ => .inl ⟨_, rfl⟩) hrun
  rw [literalKeyText] at hrun
  subst htoken
  split at hrun
  case h_1 hkind =>
    refine ⟨stop_of_runs_consume_bind (fun token => ?_) hrun, ?_⟩
    · dsimp only
      repeat' split
      all_goals first | exact .inl ⟨_, rfl⟩ | exact .inr ⟨_, rfl⟩
    · rw [hkind]
      exact nofun
  case h_2 hkind =>
    obtain ⟨_, _, hvalue, hpure⟩ := runs_bind.mp hrun
    obtain ⟨_, _, rfl⟩ := runs_pure.mp hpure
    rw [numberValue] at hvalue
    obtain ⟨_, _, hrequire, hrest⟩ := (Disciplined.runs_bind inferInstance
      fun token => by split <;> infer_instance).mp hvalue
    obtain ⟨_, rfl, _, rfl⟩ := runs_require.mp hrequire
    refine ⟨?_, by rw [hkind]; exact nofun⟩
    split at hrest
    · exact (runs_pure.mp hrest).2.2
    · exact absurd hrest not_runs_fail
  case h_3 hkind =>
    rw [bigintDigits] at hrun
    obtain ⟨_, _, hrequire, hrest⟩ := runs_bind.mp hrun
    obtain ⟨_, rfl, _, rfl⟩ := runs_require.mp hrequire
    refine ⟨?_, by rw [hkind]; exact nofun⟩
    dsimp only at hrest
    split at hrest
    · exact (runs_pure.mp hrest).2.2
    · exact absurd hrest not_runs_fail
  case h_7 => exact absurd hrun not_runs_fail
  all_goals
    refine ⟨hword hrun, ?_⟩
    simp [*]

omit [grammar.IsAdvancing] in
/-- A key is in brackets, or a single token that is no mark. -/
theorem runs_propertyKey {key : PropertyKey Node}
    (hrun : Runs text grammar.propertyKey start key stop) :
    ((tokenAt text .standard start).kind = .punctuator .bracketOpen ∧
      ∃ value, key = .computed value) ∨
    (∀ mark, (tokenAt text .standard start).kind ≠ .punctuator mark) ∧
      stop = (tokenAt text .standard start).span.stop ∧
      ∃ name, key = .literal (.mk (tokenAt text .standard start).span
        (.literalKey name (tokenAt text .standard start).kind)) := by
  rw [propertyKey, runs_acceptMark_bind] at hrun
  obtain ⟨hstart, hrun⟩ := hrun
  split at hrun
  · rename_i hkind
    rw [if_pos rfl] at hrun
    obtain ⟨value, _, _, hrun⟩ := runs_bind.mp hrun
    obtain ⟨_, _, _, hpure⟩ := runs_bind.mp hrun
    obtain ⟨_, rfl, _⟩ := runs_pure.mp hpure
    exact .inl ⟨hkind, value, rfl⟩
  · rw [if_neg Bool.false_ne_true] at hrun
    obtain ⟨name, _, hname, hpure⟩ := runs_bind.mp hrun
    obtain ⟨_, rfl, rfl⟩ := runs_pure.mp hpure
    rw [runs_node] at hname
    obtain ⟨shape, hshape, rfl⟩ := hname
    obtain ⟨token, between, hpeek, hshape⟩ := runs_bind.mp hshape
    obtain ⟨_, rfl, rfl⟩ := runs_peek.mp hpeek
    obtain ⟨name, last, hname, hpure⟩ := runs_bind.mp hshape
    obtain ⟨_, rfl, rfl⟩ := runs_pure.mp hpure
    obtain ⟨rfl, hmark⟩ := runs_literalKeyText rfl hname
    exact .inr ⟨hmark, rfl, name, rfl⟩

omit [grammar.IsAdvancing] in
/-- A key with a value behind a colon, or with none, is a member on its own. -/
theorem runs_member_field {key : PropertyKey Node} {value : Option Node}
    {place : Nat} (hkey : Runs text grammar.propertyKey start key place)
    (hends : endsKey (tokenAt text .standard place) = true)
    (hmethod :
      (tokenAt text .standard place).kind ≠ .punctuator .parenthesisOpen)
    (hvalue : Runs text (afterMark .colon
      (grammar.expressionInList .braceClose)) place value stop) :
    Runs text (grammar.member .colon .comma false) start (key, .field, value)
      stop := by
  have hkeyed : Runs text (grammar.keyedMember .colon .comma false) start
      (key, .field, value) stop := by
    rw [keyedMember]
    refine .bind hkey (.bind
      (runs_peekKind.mpr ⟨hkey.reaches_stop, rfl, rfl⟩) ?_)
    rw [if_neg hmethod]
    exact .bind hvalue (runs_pure.mpr ⟨hvalue.reaches_stop, rfl, rfl⟩)
  have hword : ∀ word,
      (tokenAt text .standard start).kind = .keyword word →
      endsKey (tokenAt text .standard
        (tokenAt text .standard start).span.stop) = true := by
    intro word hkind
    obtain ⟨hbracket, _⟩ | ⟨_, hstop, _⟩ := runs_propertyKey hkey
    · rw [hkind] at hbracket
      cases hbracket
    · rwa [← hstop]
  have hmark :
      (tokenAt text .standard start).kind ≠ .punctuator .asterisk := by
    obtain ⟨hbracket, _⟩ | ⟨hmark, _⟩ := runs_propertyKey hkey
    · rw [hbracket]
      exact nofun
    · exact hmark .asterisk
  rw [member]
  refine (Disciplined.runs_bind inferInstance fun (first, second) => by
    dsimp only; split <;> infer_instance).mpr
      ⟨_, _, runs_peekTwo.mpr ⟨hkey.reaches_start, rfl, rfl⟩, ?_⟩
  dsimp only
  split
  · rwa [if_pos (hword _ ‹_›)]
  · rwa [if_pos (hword _ ‹_›)]
  · rwa [hword _ ‹_›, Bool.true_or, if_pos rfl]
  · exact absurd ‹_› hmark
  · exact hkeyed

omit [grammar.IsAdvancing] in
theorem runs_shorthandMember {span : Span} {name : String} {kind : TokenKind}
    {initial : Option Node} (hallows : grammar.rules.allows kind = true)
    (hinitial : Runs text (afterMark .equals
      (grammar.expressionInList .braceClose)) start initial stop) :
    Runs text (grammar.shorthandMember span name kind
        (.mk span (.literalKey name kind))) start
      (shorthandShape span name kind initial) stop := by
  rw [shorthandMember, hallows]
  refine (Disciplined.runs_bind inferInstance fun initial => by
    cases initial <;> infer_instance).mpr ⟨initial, stop, hinitial, ?_⟩
  cases initial with
  | none => exact runs_pure.mpr ⟨hinitial.reaches_stop, rfl, rfl⟩
  | some initial => exact runs_pure.mpr ⟨hinitial.reaches_stop, rfl, rfl⟩

omit [grammar.IsAdvancing] in
/-- A spread member of an object literal. -/
theorem runs_objectMember_spread {value : Node} (hstart : Reaches text start)
    (hdots : (tokenAt text .standard start).kind = .punctuator .dotDotDot)
    (hvalue : Runs text (grammar.expressionInList .braceClose)
      (tokenAt text .standard start).span.stop value stop) :
    Runs text grammar.objectMember start
      (.mk ⟨(tokenAt text .standard start).span.start, stop⟩
        (.spreadProperty value)) stop := by
  rw [objectMember_eq, runs_node]
  refine ⟨_, runs_acceptMark_bind.mpr ⟨hstart, ?_⟩, rfl⟩
  rw [if_pos hdots, if_pos rfl]
  exact .bind hvalue (runs_pure.mpr ⟨hvalue.reaches_stop, rfl, rfl⟩)

omit [grammar.IsAdvancing] in
/-- A member of an object literal that is no spread. -/
theorem runs_objectMember {found : PropertyKey Node × MemberKind × Option Node}
    {place : Nat} {shape : Shape Node}
    (hdots : (tokenAt text .standard start).kind ≠ .punctuator .dotDotDot)
    (hmember : Runs text (grammar.member .colon .comma false) start found place)
    (hshape : Runs text (grammar.memberShape found) place shape stop) :
    Runs text grammar.objectMember start
      (.mk ⟨(tokenAt text .standard start).span.start, stop⟩ shape) stop := by
  rw [objectMember_eq, runs_node]
  refine ⟨shape, runs_acceptMark_bind.mpr ⟨hmember.reaches_start, ?_⟩, rfl⟩
  rw [if_neg hdots, if_neg Bool.false_ne_true]
  exact .bind hmember hshape

omit [grammar.IsAdvancing] in
/-- The target of a property is behind a colon, or it is its key. -/
theorem runs_propertyTarget {key : PropertyKey Node} {target : Node}
    {isShorthand : Bool} (hrun : Runs text (grammar.propertyTarget key) start
      (target, isShorthand) stop) :
    ((tokenAt text .standard start).kind = .punctuator .colon ∧
      isShorthand = false ∧ Runs text grammar.pattern
        (tokenAt text .standard start).span.stop target stop) ∨
    ((tokenAt text .standard start).kind ≠ .punctuator .colon ∧
      isShorthand = true ∧ stop = start ∧ ∃ span name kind,
        key = .literal (.mk span (.literalKey name kind)) ∧
        target = .mk span (.identPattern name) ∧
        grammar.rules.allows kind = true) := by
  unfold propertyTarget at hrun
  obtain ⟨accepted, between, haccept, hrest⟩ :=
    (Disciplined.runs_bind inferInstance fun accepted => by
      repeat' split
      all_goals infer_instance).mp hrun
  obtain ⟨_, haccept⟩ := runs_accept.mp haccept
  split at haccept
  · rename_i hcolon
    obtain ⟨rfl, rfl⟩ := haccept
    rw [if_pos rfl] at hrest
    obtain ⟨_, _, hpattern, hpure⟩ := runs_bind.mp hrest
    obtain ⟨_, h, rfl⟩ := runs_pure.mp hpure
    cases h
    exact .inl ⟨hcolon, rfl, hpattern⟩
  · rename_i hcolon
    obtain ⟨rfl, rfl⟩ := haccept
    rw [if_neg Bool.false_ne_true] at hrest
    split at hrest
    · split at hrest
      · obtain ⟨_, h, rfl⟩ := runs_pure.mp hrest
        cases h
        exact .inr ⟨hcolon, rfl, rfl, _, _, _, rfl, rfl, ‹_›⟩
      · exact absurd hrest not_runs_fail
    · obtain ⟨_, _, _, hfail⟩ := runs_bind.mp hrest
      exact absurd hfail not_runs_fail

omit [grammar.IsAdvancing] in
/-- A pattern is a name, or is in braces or brackets. -/
theorem runs_patternRule {pattern : Node}
    (hrun : Runs text grammar.patternRule start pattern stop) :
    Runs text grammar.objectPattern start pattern stop ∨
    Runs text grammar.arrayPattern start pattern stop ∨
    Runs text grammar.namePattern start pattern stop := by
  rw [patternRule] at hrun
  obtain ⟨token, between, hpeek, hrun⟩ := (Disciplined.runs_bind
    inferInstance fun token => by split <;> infer_instance).mp hrun
  obtain ⟨hstart, rfl, rfl⟩ := runs_peek.mp hpeek
  split at hrun
  · exact .inl hrun
  · exact .inr (.inl hrun)
  · split at hrun
    · exact .inr (.inr hrun)
    · exact absurd hrun not_runs_fail

omit [grammar.IsAdvancing] in
theorem le_start_of_runs_patternRule {pattern : Node}
    (hrun : Runs text grammar.patternRule start pattern stop) :
    start ≤ pattern.span.start := by
  have hle := le_start_tokenAt text .standard start
  obtain hrun | hrun | hrun := runs_patternRule hrun
  · rw [objectPattern_eq, runs_node] at hrun
    obtain ⟨_, _, rfl⟩ := hrun
    exact hle
  · rw [arrayPattern_eq, runs_node] at hrun
    obtain ⟨_, _, rfl⟩ := hrun
    exact hle
  · obtain ⟨_, _, rfl, _⟩ := (grammar.runs_namePattern).mp hrun
    exact hle

omit [grammar.IsAdvancing] in
/-- An object pattern ends, or has its rest or a property next. -/
theorem runs_objectPatternStep {found : List Node}
    {outcome : List Node ⊕ (List Node × Option Node)}
    (hrun : Runs text (grammar.objectPatternStep found) start outcome stop) :
    ((tokenAt text .standard start).kind = .punctuator .braceClose ∧
      outcome = .inr (found, none) ∧ stop = start) ∨
    ((tokenAt text .standard start).kind = .punctuator .dotDotDot ∧
      ∃ rest, Runs text grammar.namePattern
          (tokenAt text .standard start).span.stop rest stop ∧
        outcome = .inr (found, some rest)) ∨
    ((tokenAt text .standard start).kind ≠ .punctuator .braceClose ∧
      ∃ property last, Runs text grammar.patternProperty start property last ∧
        ((tokenAt text .standard last).kind = .punctuator .comma ∧
            outcome = .inl (property :: found) ∧
            stop = (tokenAt text .standard last).span.stop ∨
          (tokenAt text .standard last).kind ≠ .punctuator .comma ∧
            outcome = .inr (property :: found, none) ∧ stop = last)) := by
  rw [objectPatternStep, runs_bind] at hrun
  obtain ⟨kind, between, hpeek, hrun⟩ := hrun
  obtain ⟨hstart, rfl, rfl⟩ := runs_peekKind.mp hpeek
  split at hrun
  · rename_i hclose
    obtain ⟨_, rfl, rfl⟩ := runs_pure.mp hrun
    exact .inl ⟨hclose, rfl, rfl⟩
  · rename_i hclose
    obtain ⟨_, hrun⟩ := runs_acceptMark_bind.mp hrun
    split at hrun
    · rename_i hrest
      rw [if_pos rfl] at hrun
      obtain ⟨rest, last, hname, hpure⟩ := runs_bind.mp hrun
      obtain ⟨_, rfl, rfl⟩ := runs_pure.mp hpure
      exact .inr (.inl ⟨hrest, rest, hname, rfl⟩)
    · rw [if_neg Bool.false_ne_true] at hrun
      obtain ⟨property, last, hproperty, hrun⟩ := runs_bind.mp hrun
      refine .inr (.inr ⟨hclose, property, last, hproperty, ?_⟩)
      obtain ⟨_, hrun⟩ := runs_acceptMark_bind.mp hrun
      split at hrun
      · rename_i hmore
        rw [if_pos rfl] at hrun
        obtain ⟨_, rfl, rfl⟩ := runs_pure.mp hrun
        exact .inl ⟨hmore, rfl, rfl⟩
      · rename_i hmore
        rw [if_neg Bool.false_ne_true] at hrun
        obtain ⟨_, rfl, rfl⟩ := runs_pure.mp hrun
        exact .inr ⟨hmore, rfl, rfl⟩

omit [grammar.IsAdvancing] in
theorem runs_objectLiteralStep_close {found : List Node}
    (hstart : Reaches text start)
    (hkind : (tokenAt text .standard start).kind = .punctuator .braceClose) :
    Runs text (grammar.objectLiteralStep found) start (.inr found) start := by
  rw [objectLiteralStep]
  refine .bind (runs_peekKind.mpr ⟨hstart, rfl, rfl⟩) ?_
  rw [if_pos hkind]
  exact runs_pure.mpr ⟨hstart, rfl, rfl⟩

omit [grammar.IsAdvancing] in
/-- A member of an object literal is followed by a comma or is the last. -/
theorem runs_objectLiteralStep_member {found : List Node} {member : Node}
    {last : Nat} {outcome : List Node ⊕ List Node}
    (hclose : (tokenAt text .standard start).kind ≠ .punctuator .braceClose)
    (hmember : Runs text grammar.objectMember start member last)
    (houtcome : (tokenAt text .standard last).kind = .punctuator .comma ∧
        outcome = .inl (member :: found) ∧
        stop = (tokenAt text .standard last).span.stop ∨
      (tokenAt text .standard last).kind ≠ .punctuator .comma ∧
        outcome = .inr (member :: found) ∧ stop = last) :
    Runs text (grammar.objectLiteralStep found) start outcome stop := by
  have hlast := hmember.reaches_stop
  rw [objectLiteralStep]
  refine .bind (runs_peekKind.mpr ⟨hmember.reaches_start, rfl, rfl⟩) ?_
  rw [if_neg hclose]
  refine .bind hmember (runs_acceptMark_bind.mpr ⟨hlast, ?_⟩)
  obtain ⟨hcomma, rfl, rfl⟩ | ⟨hcomma, rfl, rfl⟩ := houtcome
  · rw [if_pos hcomma, if_pos rfl]
    exact runs_pure.mpr ⟨reaches_next hlast _, rfl, rfl⟩
  · rw [if_neg hcomma, if_neg Bool.false_ne_true]
    exact runs_pure.mpr ⟨hlast, rfl, rfl⟩

end StepRuns

section Members

variable {rules : NameRules} {source : String} {start stop : Nat}

/-- A node of a member stands for a property of a pattern. -/
def StandsFor (member property : Node) : Prop :=
  ∃ property', property'.SameProperty property ∧
    ∀ {others properties rest},
      Node.membersToPattern others = .ok (properties, rest) →
      Node.membersToPattern (member :: others) =
        .ok (property' :: properties, rest)

/-- What follows a key and its target is no method. -/
theorem endsKey_of_runs_afterMark {initial : Option Node} {place : Nat}
    (hinitial : Runs source.toList (afterMark .equals
      ((forSource rules source).expressionInList .braceClose)) place initial
      stop)
    (hends : [.punctuator .comma, .punctuator .braceClose].contains
      (tokenAt source.toList .standard stop).kind = true) :
    endsKey (tokenAt source.toList .standard place) = true ∧
      (tokenAt source.toList .standard place).kind ≠
        .punctuator .parenthesisOpen := by
  obtain ⟨_, hinitial⟩ := runs_afterMark.mp hinitial
  rw [endsKey]
  split at hinitial
  · rename_i hequals
    rw [hequals]
    exact ⟨rfl, nofun⟩
  · obtain ⟨_, rfl⟩ := hinitial
    simp only [List.contains_iff_mem, List.mem_cons, List.not_mem_nil,
      or_false] at hends
    rcases hends with hends | hends
    · rw [hends]
      exact ⟨rfl, nofun⟩
    · rw [hends]
      exact ⟨rfl, nofun⟩

/-- A key with its target behind a colon is a member with a value. -/
theorem exists_member_value {key : PropertyKey Node} {target : Node}
    {initial : Option Node} {place between : Nat}
    (htargets : ∀ place, start < place → ReadsTargets rules source place)
    (hkey : Runs source.toList (forSource rules source).propertyKey start key
      place)
    (hcolon : (tokenAt source.toList .standard place).kind =
      .punctuator .colon)
    (htarget : Runs source.toList (forSource rules source).pattern
      (tokenAt source.toList .standard place).span.stop target between)
    (hinitial : Runs source.toList (afterMark .equals
      ((forSource rules source).expressionInList .braceClose)) between initial
      stop)
    (hends : [.punctuator .comma, .punctuator .braceClose].contains
      (tokenAt source.toList .standard stop).kind = true) :
    ∃ member, Runs source.toList (forSource rules source).objectMember start
      member stop ∧ StandsFor member
        (.mk ⟨(tokenAt source.toList .standard start).span.start, stop⟩
          (.patternProperty key target false initial)) := by
  have hlt : place < (tokenAt source.toList .standard place).span.stop := by
    apply lt_stop_tokenAt hkey.reaches_stop
    rw [hcolon]
    exact ⟨nofun, nofun⟩
  have hle : start ≤ place := hkey.le
  obtain ⟨value, target', hvalue, hpattern, hsame⟩ := exists_value
    (by decide) (htargets _ (Nat.lt_of_le_of_lt hle hlt) htarget
      (endsTarget_of_runs_afterMark hinitial
        (TokenKind.endsTarget_of_contains hends rfl))) hinitial hends
  have hafter : Runs source.toList (afterMark .colon
      ((forSource rules source).expressionInList .braceClose)) place
      (some value) stop := by
    rw [runs_afterMark, if_pos hcolon]
    exact ⟨hkey.reaches_stop, value, rfl, hvalue⟩
  have hmember : Runs source.toList
      ((forSource rules source).member .colon .comma false) start
      (key, .field, some value) stop := by
    refine runs_member_field hkey ?_ ?_ hafter
    · rw [endsKey, hcolon]
    · rw [hcolon]
      exact nofun
  have hdots : (tokenAt source.toList .standard start).kind ≠
      .punctuator .dotDotDot := by
    obtain ⟨hbracket, _⟩ | ⟨hmark, _⟩ := runs_propertyKey hkey
    · rw [hbracket]
      exact nofun
    · exact hmark .dotDotDot
  have hshape : Runs source.toList ((forSource rules source).memberShape
      (key, .field, some value)) stop (.property key .field (some value))
      stop := by
    have hpure : (forSource rules source).memberShape
        (key, .field, some value) =
          pure (.property key .field (some value)) := by
      cases key <;> rfl
    rw [hpure]
    exact runs_pure.mpr ⟨hvalue.reaches_stop, rfl, rfl⟩
  refine ⟨_, runs_objectMember hdots hmember hshape,
    .mk ⟨(tokenAt source.toList .standard start).span.start, stop⟩
      (.patternProperty key target' false initial), .keyed hsame,
      fun {others properties rest} hothers => ?_⟩
  have hshorthand : Node.isShorthand key target' = false := by
    obtain ⟨_, _, rfl⟩ | ⟨_, hstop, name, rfl⟩ := runs_propertyKey hkey
    · rfl
    · have hstart := le_start_of_runs_patternRule (runs_pattern.mp htarget)
      have hname := start_le_stop_tokenAt source.toList .standard start
      rw [Node.isShorthand, decide_eq_false_iff_not, hsame.span_eq]
      intro (h : (tokenAt source.toList .standard start).span = target.span)
      rw [← h] at hstart
      omega
  rw [Node.membersToPattern, hpattern, hothers]
  simp only [bind, Except.bind, pure, Except.pure, hshorthand]

/-- A name of its own is a member without a value, or with a default a member
that is kept for patterns. -/
theorem exists_member_shorthand {span : Span} {text : String} {kind : TokenKind}
    {initial : Option Node} {place : Nat}
    (hkey : Runs source.toList (forSource rules source).propertyKey start
      (.literal (.mk span (.literalKey text kind))) place)
    (hcolon : (tokenAt source.toList .standard place).kind ≠
      .punctuator .colon)
    (hallows : (forSource rules source).rules.allows kind = true)
    (hinitial : Runs source.toList (afterMark .equals
      ((forSource rules source).expressionInList .braceClose)) place initial
      stop)
    (hends : [.punctuator .comma, .punctuator .braceClose].contains
      (tokenAt source.toList .standard stop).kind = true) :
    ∃ member, Runs source.toList (forSource rules source).objectMember start
      member stop ∧ StandsFor member
        (.mk ⟨(tokenAt source.toList .standard start).span.start, stop⟩
          (.patternProperty (.literal (.mk span (.literalKey text kind)))
            (.mk span (.identPattern text)) true initial)) := by
  obtain ⟨hkeyEnds, hmethod⟩ := endsKey_of_runs_afterMark hinitial hends
  have hafter : Runs source.toList (afterMark .colon
      ((forSource rules source).expressionInList .braceClose)) place none
      place := by
    rw [runs_afterMark, if_neg hcolon]
    exact ⟨hkey.reaches_stop, rfl, rfl⟩
  have hmember := runs_member_field hkey hkeyEnds hmethod hafter
  have hdots : (tokenAt source.toList .standard start).kind ≠
      .punctuator .dotDotDot := by
    obtain ⟨_, _, h⟩ | ⟨hmark, _⟩ := runs_propertyKey hkey
    · cases h
    · exact hmark .dotDotDot
  have hshape : Runs source.toList ((forSource rules source).memberShape
      (.literal (.mk span (.literalKey text kind)), .field, none)) place
      (shorthandShape span text kind initial) stop :=
    runs_shorthandMember hallows hinitial
  have hsame (kind' : TokenKind) : Node.SameProperty
      (.mk ⟨(tokenAt source.toList .standard start).span.start, stop⟩
        (.patternProperty (.literal (.mk span (.literalKey text kind')))
          (.mk span (.identPattern text)) true initial))
      (.mk ⟨(tokenAt source.toList .standard start).span.start, stop⟩
        (.patternProperty (.literal (.mk span (.literalKey text kind)))
          (.mk span (.identPattern text)) true initial)) := .shorthand
  refine ⟨_, runs_objectMember hdots hmember hshape, ?_⟩
  cases initial with
  | none =>
      refine ⟨_, hsame .identifier, fun hothers => ?_⟩
      rw [shorthandShape, Node.membersToPattern, hothers]
      rfl
  | some initial =>
      refine ⟨_, hsame kind, fun hothers => ?_⟩
      have hvalue := (Node.SamePattern.name span text).toPattern_eq
      rw [shorthandShape, Node.membersToPattern, Node.toDefaultedPattern,
        if_pos rfl, hvalue, hothers]
      simp [bind, Except.bind, pure, Except.pure, Node.isShorthand, Node.span]

/-- A property of a pattern is a member of a literal. -/
theorem exists_member {property : Node}
    (htargets : ∀ place, start < place → ReadsTargets rules source place)
    (hrun : Runs source.toList (forSource rules source).patternProperty start
      property stop)
    (hends : [.punctuator .comma, .punctuator .braceClose].contains
      (tokenAt source.toList .standard stop).kind = true) :
    ∃ member, Runs source.toList (forSource rules source).objectMember start
      member stop ∧ StandsFor member property := by
  rw [patternProperty, runs_node] at hrun
  obtain ⟨_, hshape, rfl⟩ := hrun
  obtain ⟨key, place, hkey, hshape⟩ := runs_bind.mp hshape
  obtain ⟨⟨target, isShorthand⟩, between, htarget, hshape⟩ :=
    runs_bind.mp hshape
  obtain ⟨initial, _, hinitial, hpure⟩ := runs_bind.mp hshape
  obtain ⟨_, rfl, rfl⟩ := runs_pure.mp hpure
  obtain ⟨hcolon, rfl, hpattern⟩ | ⟨hcolon, rfl, rfl, span, name, kind, rfl,
    rfl, hallows⟩ := runs_propertyTarget htarget
  · exact exists_member_value htargets hkey hcolon hpattern hinitial hends
  · exact exists_member_shorthand hkey hcolon hallows hinitial hends

/-- The properties of an object pattern are read as the members of a
literal. -/
def ReadsAsMembers (rules : NameRules) (source : String) (start stop : Nat)
    (properties : List Node) (rest : Option Node) : Prop :=
  ∃ members properties',
    (∀ others, Repeats source.toList
      (forSource rules source).objectLiteralStep others start
        (members.reverse ++ others) stop) ∧
    Node.membersToPattern members = .ok (properties', rest) ∧
    List.Forall₂ Node.SameProperty properties' properties

theorem readsAsMembers_nil (hstart : Reaches source.toList start)
    (hkind : (tokenAt source.toList .standard start).kind =
      .punctuator .braceClose) :
    ReadsAsMembers rules source start start [] none := by
  refine ⟨[], [], fun others => .done (runs_objectLiteralStep_close hstart
    hkind), ?_, .nil⟩
  rw [Node.membersToPattern]

theorem readsAsMembers_rest {rest : Node}
    (hkind : (tokenAt source.toList .standard start).kind =
      .punctuator .dotDotDot)
    (hclose : (tokenAt source.toList .standard stop).kind =
      .punctuator .braceClose) (hstart : Reaches source.toList start)
    (hrest : Runs source.toList (forSource rules source).namePattern
      (tokenAt source.toList .standard start).span.stop rest stop) :
    ReadsAsMembers rules source start stop [] (some rest) := by
  obtain ⟨hnext, hallows, rfl, rfl⟩ :=
    ((forSource rules source).runs_namePattern).mp hrest
  have hoperand : Runs source.toList ((forSource rules source).operand
      [.punctuator .comma, .punctuator .braceClose] false) _ _ _ :=
    runs_operand_name hnext hallows (by rw [hclose]; rfl)
  have hvalue : Runs source.toList
      ((forSource rules source).expressionInList .braceClose) _ _ _ :=
    runs_expression_iff.mpr ⟨_, _, hoperand, .done
      (runs_extendExpression_of_ends hrest.reaches_stop (by
        rw [hclose]; decide))⟩
  have hmember := runs_objectMember_spread hstart hkind hvalue
  refine ⟨[_], [], fun others => .done (runs_objectLiteralStep_member
    (by rw [hkind]; exact nofun) hmember
    (.inr ⟨by rw [hclose]; exact nofun, rfl, rfl⟩)), ?_, .nil⟩
  rw [Node.membersToPattern, (Node.means_ident _ _).toPattern_eq]
  rfl

theorem ReadsAsMembers.property {property member : Node} {between last : Nat}
    {properties : List Node} {rest : Option Node}
    (hclose : (tokenAt source.toList .standard start).kind ≠
      .punctuator .braceClose)
    (hmember : Runs source.toList (forSource rules source).objectMember start
      member last) (hstands : StandsFor member property)
    (hcomma : (tokenAt source.toList .standard last).kind = .punctuator .comma)
    (hbetween : between = (tokenAt source.toList .standard last).span.stop)
    (h : ReadsAsMembers rules source between stop properties rest) :
    ReadsAsMembers rules source start stop (property :: properties) rest := by
  obtain ⟨property', hsame, hproperty⟩ := hstands
  obtain ⟨members, properties', hrepeats, hmembers, hothers⟩ := h
  refine ⟨member :: members, property' :: properties', fun others => ?_,
    hproperty hmembers, .cons hsame hothers⟩
  rw [List.reverse_cons, List.append_assoc]
  exact .more (runs_objectLiteralStep_member hclose hmember
    (.inl ⟨hcomma, rfl, hbetween⟩)) (hrepeats (member :: others))

/-- The properties of a pattern are those of a literal, whichever comes
last. -/
theorem exists_members {first : Nat}
    (htargets : ∀ place, first ≤ place → ReadsTargets rules source place)
    {found : List Node} {result : List Node × Option Node}
    (hrepeats : Repeats source.toList (forSource rules source).objectPatternStep
      found start result stop) (hfirst : first ≤ start)
    (hclose : (tokenAt source.toList .standard stop).kind =
      .punctuator .braceClose) :
    ∃ properties, result.1 = properties.reverse ++ found ∧
      ReadsAsMembers rules source start stop properties result.2 := by
  induction hrepeats with
  | @done found start result stop hdone =>
      have hstart := hdone.reaches_start
      obtain ⟨hkind, h, rfl⟩ | ⟨hkind, rest, hrest, h⟩ |
        ⟨hbrace, property, last, hproperty, ⟨_, h, _⟩ | ⟨hcomma, h, rfl⟩⟩ :=
        runs_objectPatternStep hdone
      · cases h
        exact ⟨[], rfl, readsAsMembers_nil hstart hkind⟩
      · cases h
        exact ⟨[], rfl, readsAsMembers_rest hkind hclose hstart hrest⟩
      · cases h
      · cases h
        obtain ⟨member, hmember, property', hsame, hpattern⟩ := exists_member
          (fun place h => htargets place (Nat.le_trans hfirst (Nat.le_of_lt h)))
          hproperty (by rw [hclose]; decide)
        exact ⟨[property], rfl, [member], [property'], fun others => .done
          (runs_objectLiteralStep_member hbrace hmember
            (.inr ⟨hcomma, rfl, rfl⟩)), hpattern (by rw [Node.membersToPattern]),
          .cons hsame .nil⟩
  | @more found later start between result stop hmore hrest ih =>
      have hnext : start ≤ between := hmore.le
      obtain ⟨properties, hproperties, h⟩ :=
        ih (Nat.le_trans hfirst hnext) hclose
      obtain ⟨_, h', _⟩ | ⟨_, _, _, h'⟩ |
        ⟨hbrace, property, last, hproperty, ⟨hcomma, h', hbetween⟩ |
          ⟨_, h', _⟩⟩ := runs_objectPatternStep hmore
      · cases h'
      · cases h'
      · cases h'
        obtain ⟨member, hmember, hstands⟩ := exists_member
          (fun place h => htargets place (Nat.le_trans hfirst (Nat.le_of_lt h)))
          hproperty (by rw [hcomma]; decide)
        exact ⟨property :: properties, by simpa using hproperties,
          h.property hbrace hmember hstands hcomma hbetween⟩
      · cases h'

/-- An object pattern is read as an object literal. -/
theorem readsAsTarget_object {pattern : Node}
    (htargets : ∀ place, start < place → ReadsTargets rules source place)
    (hrun : Runs source.toList (forSource rules source).objectPattern start
      pattern stop) : ReadsAsTarget rules source start stop pattern := by
  rw [objectPattern_eq, runs_node] at hrun
  obtain ⟨shape, hshape, rfl⟩ := hrun
  obtain ⟨_, first, hopen, hshape⟩ := runs_bind.mp hshape
  obtain ⟨hstart, rfl, hkind, rfl⟩ := runs_requireMark.mp hopen
  obtain ⟨⟨properties, rest⟩, last, hrepeats, hshape⟩ := runs_bind.mp hshape
  rw [runs_iterate] at hrepeats
  obtain ⟨_, _, hclose, hpure⟩ := runs_bind.mp hshape
  obtain ⟨_, rfl, rfl⟩ := runs_pure.mp hpure
  obtain ⟨_, rfl, hbrace, rfl⟩ := runs_requireMark.mp hclose
  have hlt : start < (tokenAt source.toList .standard start).span.stop :=
    hopen.lt
  obtain ⟨found, hfound, members, properties', hmembers, hpattern, hsame⟩ :=
    exists_members (fun place h => htargets place
      (Nat.lt_of_lt_of_le hlt h)) hrepeats (Nat.le_refl _) hbrace
  obtain rfl : properties = found.reverse := hfound.trans (List.append_nil _)
  intro ends lineEnds
  refine ⟨_, _, runs_operand_literal hkind (.inr rfl) ?_,
    Node.means_object hpattern, .object (by rwa [List.reverse_reverse])⟩
  rw [if_neg (by decide), objectLiteral_eq, runs_node]
  refine ⟨_, .bind hopen (.bind (runs_iterate.mpr (hmembers []))
    (.bind hclose (runs_pure.mpr ⟨hclose.reaches_stop, ?_, rfl⟩))), rfl⟩
  simp

end Members

section Patterns

variable {rules : NameRules} {source : String} {start stop : Nat}

theorem le_of_reaches (h : Reaches source.toList start) :
    start ≤ source.utf8ByteSize := by
  obtain ⟨stream, hstream, rfl⟩ := h
  have hle := lastEnd_le_size hstream
  rwa [hstream.size_eq, ← Text.utf8ByteSize_eq] at hle

/-- What is read as a pattern is read as a target, by what is nested in it. -/
theorem readsTargets (rules : NameRules) (source : String) (start : Nat) :
    ReadsTargets rules source start := by
  induction hroom : source.utf8ByteSize + 1 - start using
    Nat.strong_induction_on generalizing start with
  | h room ih =>
    subst hroom
    intro pattern stop hrun hends
    have hstart := le_of_reaches hrun.reaches_start
    have htargets : ∀ place, start < place →
        ReadsTargets rules source place :=
      fun place hlt => ih _ (by omega) place rfl
    obtain hrun | hrun | hrun := runs_patternRule (runs_pattern.mp hrun)
    · exact readsAsTarget_object htargets hrun
    · exact readsAsTarget_array htargets hrun
    · obtain ⟨hreaches, hallows, rfl, rfl⟩ :=
        ((forSource rules source).runs_namePattern).mp hrun
      intro ends lineEnds
      exact ⟨_, _, runs_operand_name hreaches hallows hends,
        Node.means_ident _ _, .name _ _⟩

/-- If a whole source is a pattern, then it is an expression as well, and this
means the same pattern as a target of an assignment. -/
theorem exists_expression_of_pattern {pattern : Node} {after : TokenStream}
    (h : wholly (forSource rules source).pattern (ofSource source.toList) =
      .ok pattern after) :
    ∃ node target last,
      wholly ((forSource rules source).expression [.endOfInput])
        (ofSource source.toList) = .ok node last ∧
      node.toPattern = .ok target ∧ target.SamePattern pattern := by
  obtain ⟨place, hpattern, hkind⟩ := exists_wholly_iff.mp ⟨after, h⟩
  obtain ⟨node, target, hnode, hmeans, hsame⟩ := readsTargets rules source 0
    hpattern (by rw [hkind]; rfl) [.endOfInput] false
  have hexpression : Runs source.toList
      ((forSource rules source).expression [.endOfInput]) 0 node place := by
    rw [expression, runs_expression_iff]
    refine ⟨node, place, hnode, .done
      (runs_extendExpression_of_ends hpattern.reaches_stop ?_)⟩
    rw [hkind]
    rfl
  obtain ⟨last, hrun⟩ := exists_wholly_iff.mpr ⟨place, hexpression, hkind⟩
  exact ⟨node, target, last, hrun, hmeans.toPattern_eq, hsame⟩

/-- A pattern with a hole, a rest, a shorthand with a default and a key. -/
theorem exists_expression_of_pattern_nested :
    ∃ pattern after,
      wholly (forSource .module "[, \x7ba = 1, get: b\x7d, ...c]").pattern
        (ofSource "[, \x7ba = 1, get: b\x7d, ...c]".toList) =
          .ok pattern after ∧
      ∃ node target last,
        wholly ((forSource .module "[, \x7ba = 1, get: b\x7d, ...c]").expression
          [.endOfInput]) (ofSource "[, \x7ba = 1, get: b\x7d, ...c]".toList) =
            .ok node last ∧
        node.toPattern = .ok target ∧ target.SamePattern pattern := by
  have hfacts : (((wholly (forSource .module
      "[, \x7ba = 1, get: b\x7d, ...c]").pattern).run
        "[, \x7ba = 1, get: b\x7d, ...c]").toOption.any fun _ => true) =
          true := by decide +kernel
  obtain ⟨⟨pattern, after⟩, hrun, _⟩ := Except.exists_of_any_toOption hfacts
  have hrun := Program.run_eq_ok_iff.mp hrun
  exact ⟨pattern, after, hrun, exists_expression_of_pattern hrun⟩

end Patterns

end Grammar

end Bundler
