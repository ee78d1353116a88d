import Bundler.Proofs.Parser.Arrows
import Bundler.Proofs.Parser.ExpressionEnds

/-!
# What `new` applies to

Member accesses and calls bind more tightly than `new`, so `new` takes all of
them that stand behind its name, also those behind an argument list: what is
constructed is the value that the last of them yields.  Only parentheses end what
`new` applies to.  An expression that starts with `new` is therefore never the
target of an assignment.
-/

set_option synthInstance.maxSize 1000

namespace Bundler

open TokenStream

/-- Whether an expression is a name. -/
def Node.isName (node : Node) : Bool :=
  match node.shape with
  | .ident _ => true
  | _ => false

/-- A member access or a call without what it is applied to; the last token says
where it ends. -/
inductive Link
  | member (isOptional : Bool) (property : Token)
  | computedMember (isOptional : Bool) (key : Node) (close : Token)
  | call (isOptional : Bool) (arguments : List Node) (close : Token)

namespace Link

def operator : Link → Operator
  | .member false _ => .memberAccess
  | .member true _ => .optionalChainingMemberAccess
  | .computedMember false _ _ => .computedMemberAccess
  | .computedMember true _ _ => .optionalChainingComputedMemberAccess
  | .call false _ _ => .call
  | .call true _ _ => .optionalChainingCall

/-- An expression with a link behind it. -/
def on (owner : Node) : Link → Node
  | .member isOptional property =>
      Grammar.spanning owner.span property.span
        (.member isOptional owner property.text)
  | .computedMember isOptional key close =>
      Grammar.spanning owner.span close.span
        (.computedMember isOptional owner key)
  | .call isOptional arguments close =>
      Grammar.spanning owner.span close.span (.call isOptional owner arguments)

/-- Whether an expression that ends in a link may be assigned to. -/
def isTarget : Link → Bool
  | .member isOptional _ | .computedMember isOptional _ _ => !isOptional
  | .call _ _ _ => false

theorem precedence_operator (link : Link) : link.operator.precedence = 18 := by
  rcases link with isOptional | isOptional | isOptional <;>
    cases isOptional <;> rfl

theorem shape_foldl_ne {links : List Link} (hlinks : links ≠ [])
    (owner : Node) (operator : Operator) (operand : Node) :
    (links.foldl on owner).shape ≠ .unary operator operand := by
  rw [← List.dropLast_append_getLast hlinks, List.foldl_append]
  cases links.getLast hlinks <;> exact nofun

/-- What ends in an access that is no optional one may be assigned to. -/
theorem toAssignmentTarget_foldl {front : List Link} {link : Link}
    (hlink : link.isTarget = true) (owner : Node) (operator : Operator) :
    ((front ++ [link]).foldl on owner).toAssignmentTarget operator =
      .ok ((front ++ [link]).foldl on owner) := by
  rw [List.foldl_append]
  rcases link with ⟨isOptional, _⟩ | ⟨isOptional, _, _⟩ | ⟨isOptional, _, _⟩
  · cases isOptional
    · rfl
    · cases hlink
  · cases isOptional
    · rfl
    · cases hlink
  · cases hlink

end Link

namespace Grammar

open Bundler.Parser

/-- From a place on a link is read. -/
inductive ReadsLink (grammar : Grammar) (text : List Char) :
    (start : Nat) → (link : Link) → (stop : Nat) → Prop
  | member {start : Nat} {isOptional : Bool} {property : Token} :
      (tokenAt text .standard start).kind.infixOperator? =
        some (Link.member isOptional property).operator →
      property = tokenAt text .standard
        (tokenAt text .standard start).span.stop →
      (property.kind.isWord || property.kind = .privateName) = true →
      ReadsLink grammar text start (.member isOptional property)
        property.span.stop
  | computedMember {start place : Nat} {isOptional : Bool} {key : Node}
      {close : Token} :
      (tokenAt text .standard start).kind.infixOperator? =
        some (Link.computedMember isOptional key close).operator →
      Runs text (grammar.expressionUntil .bracketClose)
        (tokenAt text .standard start).span.stop key place →
      close = tokenAt text .standard place →
      close.kind = .punctuator .bracketClose →
      ReadsLink grammar text start (.computedMember isOptional key close)
        close.span.stop
  | call {start place : Nat} {isOptional : Bool} {arguments : List Node}
      {close : Token} :
      (tokenAt text .standard start).kind.infixOperator? =
        some (Link.call isOptional arguments close).operator →
      Runs text grammar.arguments (tokenAt text .standard start).span.stop
        arguments place →
      close = tokenAt text .standard place →
      close.kind = .punctuator .parenthesisClose →
      ReadsLink grammar text start (.call isOptional arguments close)
        close.span.stop

/-- From a place on links are read one after the other. -/
inductive ReadsLinks (grammar : Grammar) (text : List Char) :
    (start : Nat) → (links : List Link) → (stop : Nat) → Prop
  | nil (place : Nat) : ReadsLinks grammar text place [] place
  | cons {start between stop : Nat} {link : Link} {links : List Link} :
      grammar.ReadsLink text start link between →
      ReadsLinks grammar text between links stop →
      ReadsLinks grammar text start (link :: links) stop

/-- No link starts with a token of one of the kinds that end an expression. -/
def LeavesLinks (ends : List TokenKind) : Prop :=
  ∀ kind ∈ ends, ∀ operator, kind.infixOperator? = some operator →
    operator.precedence < 18

section Links

variable {grammar : Grammar} [grammar.IsDisciplined] {text : List Char}
  {start stop least : Nat} {link : Link} {links : List Link} {owner : Node}
  {ends : List TokenKind} {lineEnds : Bool}

omit [grammar.IsDisciplined] in
theorem ReadsLink.operator_eq (h : grammar.ReadsLink text start link stop) :
    (tokenAt text .standard start).kind.infixOperator? =
      some link.operator := by
  cases h <;> assumption

omit [grammar.IsDisciplined] in
theorem operationOn_link :
    grammar.operationOn owner link.operator ends lineEnds =
      match link with
      | .member isOptional _ => memberOf owner isOptional
      | .computedMember isOptional _ _ =>
          grammar.computedMemberOf owner isOptional
      | .call isOptional _ _ => grammar.callOn owner isOptional := by
  rcases link with ⟨isOptional, _⟩ | ⟨isOptional, _, _⟩ | ⟨isOptional, _, _⟩ <;>
    cases isOptional <;> rfl

theorem ReadsLink.runs_operationOn (h : grammar.ReadsLink text start link stop)
    (hstart : Reaches text start) :
    Runs text (grammar.operationOn owner link.operator ends lineEnds)
      (tokenAt text .standard start).span.stop (link.on owner) stop := by
  have hnext := reaches_next hstart .standard
  rw [operationOn_link]
  cases h with
  | member _ hproperty hword =>
      subst hproperty
      refine .bind (runs_consume.mpr ⟨hnext, rfl, rfl⟩) ?_
      rw [if_pos hword]
      exact runs_pure.mpr ⟨reaches_next hnext .standard, rfl, rfl⟩
  | computedMember _ hkey hclose hkind =>
      have hmark := runs_requireMark.mpr
        ⟨hkey.reaches_stop, hclose, hkind, rfl⟩
      exact .bind hkey (.bind hmark
        (runs_pure.mpr ⟨hmark.reaches_stop, rfl, rfl⟩))
  | call _ harguments hclose hkind =>
      have hmark := runs_requireMark.mpr
        ⟨harguments.reaches_stop, hclose, hkind, rfl⟩
      exact .bind harguments (.bind hmark
        (runs_pure.mpr ⟨hmark.reaches_stop, rfl, rfl⟩))

/-- A link extends an expression. -/
theorem ReadsLink.runs (h : grammar.ReadsLink text start link stop)
    (owner : Node) (lineEnds : Bool) (hleaves : LeavesLinks ends)
    (hle : least ≤ 18) (hstart : Reaches text start) :
    Runs text (grammar.extendExpression least ends lineEnds owner) start
      (.inl (link.on owner)) stop := by
  have hends : (tokenAt text .standard start).kind ∉ ends := fun hmem =>
    absurd link.precedence_operator
      (Nat.ne_of_lt (hleaves _ hmem _ h.operator_eq))
  exact runs_extendExpression_of_operator h.operator_eq hends
    (link.precedence_operator ▸ hle) hstart (h.runs_operationOn hstart)

theorem ReadsLinks.steps (h : grammar.ReadsLinks text start links stop)
    (hleaves : LeavesLinks ends) (hle : least ≤ 18)
    (hstart : Reaches text start) :
    Steps text (grammar.extendExpression least ends lineEnds) owner start
      (links.foldl Link.on owner) stop := by
  induction h generalizing owner with
  | nil place => exact .here owner
  | cons hlink _ ih =>
      have hrun := hlink.runs owner lineEnds hleaves hle hstart
      exact .more hrun (ih hrun.reaches_stop)

end Links

/-! ### Operands that start with `new` -/

/-- From a place on `new` is read with an operand behind it, and links behind
that. -/
structure ReadsNew (grammar : Grammar) (text : List Char)
    (ends : List TokenKind) (lineEnds : Bool) (start : Nat) (name : Node)
    (links : List Link) (stop : Nat) : Prop where
  reaches : Reaches text start
  kind_eq : (tokenAt text .standard start).kind = .keyword .newWord
  reads : ∃ between,
    Runs text (grammar.operand ends lineEnds)
      (tokenAt text .standard start).span.stop name between ∧
    grammar.ReadsLinks text between links stop

section Operands

variable {grammar : Grammar} [grammar.IsDisciplined] {text : List Char}
  {start stop : Nat} {node operand : Node} {ends : List TokenKind}
  {lineEnds : Bool}

omit [grammar.IsDisciplined] in
theorem runs_acceptMark_absent {mark : Punctuator}
    (hstart : Reaches text start)
    (hkind : (tokenAt text .standard start).kind ≠ .punctuator mark) :
    Runs text (acceptMark mark) start false start :=
  runs_accept.mpr ⟨hstart, by rw [if_neg hkind]; exact ⟨rfl, rfl⟩⟩

/-- No operand starts with a dot. -/
theorem ne_dot_of_operand
    (hrun : Runs text (grammar.operand ends lineEnds) start node stop) :
    (tokenAt text .standard start).kind ≠ .punctuator .dot := by
  intro hdot
  have hfirst : tokenAt text .slashIsRegex start =
      tokenAt text .standard start := by
    apply tokenAt_slashIsRegex <;> rw [hdot] <;> exact nofun
  rw [runs_operand rfl rfl rfl, hfirst] at hrun
  simp [startsUnary, TokenKind.unaryOperator?, Punctuator.unaryOperator?, hdot,
    NameRules.allows, otherOperand] at hrun

/-- What stands behind `new` is its operand. -/
theorem exists_runs_operand_new
    (hnew : (tokenAt text .standard start).kind = .keyword .newWord)
    (hdot : (tokenAt text .standard
      (tokenAt text .standard start).span.stop).kind ≠ .punctuator .dot)
    (hstart : Reaches text start)
    (hoperand : Runs text (grammar.expressionFrom
      Operator.new.rightPrecedence ends lineEnds)
      (tokenAt text .standard start).span.stop operand stop) :
    ∃ span, Runs text (grammar.operand ends lineEnds) start
      (.mk span (.unary .new operand)) stop := by
  have hfirst : tokenAt text .slashIsRegex start =
      tokenAt text .standard start := by
    apply tokenAt_slashIsRegex <;> rw [hnew] <;> exact nofun
  have hunary : (tokenAt text .standard start).kind.unaryOperator? =
      some .new := by
    rw [hnew]
    rfl
  have hstarts : grammar.startsUnary (tokenAt text .standard start)
      (tokenAt text .standard (tokenAt text .standard start).span.stop) =
      true := by
    rw [startsUnary, hunary]
    exact decide_eq_true hdot
  obtain ⟨span, hnode⟩ : ∃ span, Runs text
      (grammar.unaryExpression ends lineEnds) start
      (.mk span (.unary .new operand)) stop := by
    rw [unaryExpression]
    apply Runs.exists_node
    have hconsume : Runs text (consumeIn .slashIsRegex) start
        (tokenAt text .standard start)
        (tokenAt text .standard start).span.stop :=
      runs_consumeIn.mpr ⟨hstart, hfirst.symm, rfl⟩
    refine (Disciplined.runs_bind inferInstance fun token => by
      split
      · infer_instance
      · dsimp only
        infer_instance).mpr ⟨_, _, hconsume, ?_⟩
    dsimp only
    rw [hunary]
    simp only [pure_bind, decide_false, Bool.false_and, Bool.false_eq_true,
      if_false, reduceCtorEq]
    exact .bind (runs_peekIn.mpr ⟨hoperand.reaches_start, rfl, rfl⟩)
      (.bind hoperand (runs_pure.mpr ⟨hoperand.reaches_stop, rfl, rfl⟩))
  refine ⟨span, (runs_operand hfirst.symm rfl rfl).mpr ⟨hstart, ?_⟩⟩
  rw [if_pos hstarts]
  exact hnode

end Operands

section Sources

variable {rules : NameRules} {source : String} {start stop least : Nat}
  {name operand : Node} {links : List Link} {ends : List TokenKind}
  {lineEnds : Bool}

/-- Links behind an operand are part of an expression whose operators have to
bind as tightly as `new`. -/
theorem ReadsLinks.runs_expression {between : Nat}
    (h : (forSource rules source).ReadsLinks source.toList between links stop)
    (hoperand : Runs source.toList
      ((forSource rules source).operand ends lineEnds) start name between)
    (hleaves : LeavesLinks ends) (hle : least ≤ 18)
    (hends :
      EndsAt least ends lineEnds (tokenAt source.toList .standard stop)) :
    Runs source.toList
      ((forSource rules source).expressionFrom least ends lineEnds) start
      (links.foldl Link.on name) stop := by
  have hsteps : Steps source.toList
      ((forSource rules source).extendExpression least ends lineEnds) name
      between (links.foldl Link.on name) stop :=
    h.steps hleaves hle hoperand.reaches_stop
  exact runs_expression_iff.mpr ⟨name, between, hoperand, hsteps.repeats
    (.done (hends.runs (hsteps.reaches hoperand.reaches_stop)))⟩

/-- All links behind the name are part of what `new` applies to. -/
theorem ReadsNew.exists_runs_operand
    (h : (forSource rules source).ReadsNew source.toList ends lineEnds start
      name links stop)
    (hleaves : LeavesLinks ends)
    (hends : EndsAt 17 ends lineEnds (tokenAt source.toList .standard stop)) :
    ∃ span, Runs source.toList ((forSource rules source).operand ends lineEnds)
      start (.mk span (.unary .new (links.foldl Link.on name))) stop := by
  obtain ⟨between, hname, hlinks⟩ := h.reads
  exact exists_runs_operand_new h.kind_eq (ne_dot_of_operand hname) h.reaches
    (hlinks.runs_expression hname hleaves (by decide) hends)

/-- No pattern starts with `new`. -/
theorem fails_pattern_of_new
    (hnew : (tokenAt source.toList .standard start).kind = .keyword .newWord)
    (hstart : Reaches source.toList start) :
    Fails source.toList (forSource rules source).pattern start
      ((tokenAt source.toList .standard start).error (.expected "pattern")) := by
  have hrule : Fails source.toList (forSource rules source).patternRule start
      ((tokenAt source.toList .standard start).error
        (.expected "pattern")) := by
    have hword : (forSource rules source).rules.allows (.keyword .newWord) =
        false := rfl
    rw [patternRule]
    refine @Runs.fails _ _ _ _ _ _ _ _ ?_ _ (runs_peek.mpr ⟨hstart, rfl, rfl⟩)
      ?_
    · simp only [hnew, hword, Bool.false_eq_true, if_false]
      infer_instance
    · simp only [hnew, hword, Bool.false_eq_true, if_false]
      exact fails_fail.mpr ⟨hstart, rfl⟩
  rwa [fails_of_settles settling_deepen.pattern]

/-- Parameters do not start with `new`. -/
theorem fails_parameters_of_new
    (hopen : (tokenAt source.toList .standard start).kind =
      .punctuator .parenthesisOpen)
    (hnew : (tokenAt source.toList .standard
      (tokenAt source.toList .standard start).span.stop).kind =
        .keyword .newWord)
    (hstart : Reaches source.toList start) :
    Fails source.toList (forSource rules source).parameters start
      ((tokenAt source.toList .standard (tokenAt source.toList .standard
        start).span.stop).error (.expected "pattern")) := by
  have hnext := reaches_next hstart .standard
  have hmark : ∀ mark, (tokenAt source.toList .standard
      (tokenAt source.toList .standard start).span.stop).kind ≠
        .punctuator mark := by
    intro mark
    rw [hnew]
    exact nofun
  have hparameter : Fails source.toList (forSource rules source).parameter
      (tokenAt source.toList .standard start).span.stop
      ((tokenAt source.toList .standard (tokenAt source.toList .standard
        start).span.stop).error (.expected "pattern")) := by
    rw [parameter]
    exact .node ((runs_acceptMark_absent hnext (hmark _)).fails
      (fails_pattern_of_new hnew hnext).first)
  rw [parameters]
  refine (runs_requireMark.mpr ⟨hstart, rfl, hopen, rfl⟩).fails ?_
  rw [commaList]
  refine .first ((Steps.here []).fails_iterate ?_)
  exact (runs_acceptMark_absent hnext (hmark _)).fails hparameter.first

theorem fails_arrowFunction_of_new
    (hopen : (tokenAt source.toList .standard start).kind =
      .punctuator .parenthesisOpen)
    (hnew : (tokenAt source.toList .standard
      (tokenAt source.toList .standard start).span.stop).kind =
        .keyword .newWord)
    (hstart : Reaches source.toList start) :
    Fails source.toList ((forSource rules source).arrowFunction ends) start
      ((tokenAt source.toList .standard (tokenAt source.toList .standard
        start).span.stop).error (.expected "pattern")) := by
  have hparameters : Fails source.toList (forSource rules source).parameters
      start _ := fails_parameters_of_new hopen hnew hstart
  have htokens := runs_peekTwo.mpr ⟨hstart, rfl, rfl⟩
  have hhead : Fails source.toList (forSource rules source).arrowHead start
      ((tokenAt source.toList .standard (tokenAt source.toList .standard
        start).span.stop).error (.expected "pattern")) := by
    rw [arrowHead]
    refine htokens.fails ?_
    dsimp only
    rw [if_neg (by simp [hnew])]
    exact hparameters.first
  have hopening : Fails source.toList (forSource rules source).arrowOpening
      start ((tokenAt source.toList .standard (tokenAt source.toList .standard
        start).span.stop).error (.expected "pattern")) := by
    rw [arrowOpening]
    refine htokens.fails ?_
    dsimp only
    rw [if_neg (by simp [hnew])]
    have hasync : Runs source.toList (acceptWord .asyncWord) start false
        start := runs_accept.mpr ⟨hstart, by simp [hopen]⟩
    exact hasync.fails hhead.first
  rw [arrowFunction_eq, arrowShape]
  exact (Fails.node hopening.first).first

/-- From a place on `new` with links stands in parentheses, and other links stand
behind them. -/
structure ReadsGroupedNew (grammar : Grammar) (text : List Char)
    (lineEnds : Bool) (start : Nat) (name : Node)
    (inner outer : List Link) (stop : Nat) : Prop where
  reaches : Reaches text start
  kind_eq : (tokenAt text .standard start).kind = .punctuator .parenthesisOpen
  reads : ∃ place,
    grammar.ReadsNew text [.punctuator .parenthesisClose] lineEnds
      (tokenAt text .standard start).span.stop name inner place ∧
    (tokenAt text .standard place).kind = .punctuator .parenthesisClose ∧
    grammar.ReadsLinks text (tokenAt text .standard place).span.stop outer stop

/-- In parentheses `new` applies to what is in them. -/
theorem ReadsGroupedNew.exists_runs_operand {inner outer : List Link}
    (h : (forSource rules source).ReadsGroupedNew source.toList lineEnds start
      name inner outer stop) :
    ∃ span place,
      Runs source.toList ((forSource rules source).operand ends lineEnds) start
        (.mk span (.unary .new (inner.foldl Link.on name))) place ∧
      (forSource rules source).ReadsLinks source.toList place outer stop := by
  obtain ⟨place, hnew, hclose, houter⟩ := h.reads
  have hleaves : LeavesLinks [.punctuator .parenthesisClose] := by
    intro kind hkind operator hoperator
    rw [List.mem_singleton.mp hkind] at hoperator
    cases hoperator
  have hends : ∀ least, EndsAt least [.punctuator .parenthesisClose] lineEnds
      (tokenAt source.toList .standard place) := fun least =>
    .kind (by rw [hclose]; rfl)
  obtain ⟨span, hoperand⟩ := hnew.exists_runs_operand hleaves (hends 17)
  have hgrouping : Runs source.toList
      ((forSource rules source).grouping lineEnds) start
      (.mk span (.unary .new (inner.foldl Link.on name)))
      (tokenAt source.toList .standard place).span.stop := by
    have hopen := runs_requireMark.mpr ⟨h.reaches, rfl, h.kind_eq, rfl⟩
    have hmark := runs_requireMark.mpr
      ⟨hoperand.reaches_stop, rfl, hclose, rfl⟩
    rw [grouping]
    exact .bind hopen (.bind (runs_expression_of_operand hoperand (hends 1))
      (.bind hmark (runs_pure.mpr ⟨hmark.reaches_stop, rfl, rfl⟩)))
  have harrow : Fails source.toList
      ((forSource rules source).arrowFunction ends) start _ :=
    fails_arrowFunction_of_new h.kind_eq hnew.kind_eq h.reaches
  have hstarts : (forSource rules source).StartsArrow source.toList lineEnds
      start (some ((forSource rules source).grouping lineEnds)) :=
    .parameters rfl h.kind_eq
  refine ⟨span, _, hstarts.runs_operand.mpr ?_, houter⟩
  exact (harrow.runs_arrowFunctionOr nofun).mpr hgrouping

/-! ### What is assigned to -/

/-- To an expression that starts with `new` no value is assigned. -/
theorem fails_assignment_of_new {operator : Operator} {span : Span}
    {operand : Node}
    (hrun : Runs source.toList ((forSource rules source).operand ends lineEnds)
      start (.mk span (.unary .new operand)) stop)
    (hoperator : (tokenAt source.toList .standard stop).kind.infixOperator? =
      some operator)
    (hassignment : operator.isAssignment = true)
    (hends : (tokenAt source.toList .standard stop).kind ∉ ends)
    (hle : least ≤ 2) :
    Fails source.toList
      ((forSource rules source).expressionFrom least ends lineEnds) start
      (span.error .invalidAssignmentTarget) := by
  have hrefused : (forSource rules source).operationOn
      (.mk span (.unary .new operand)) operator ends lineEnds =
        fail (span.error .invalidAssignmentTarget) :=
    operationOn_of_noTarget hassignment rfl
  have hnext := reaches_next hrun.reaches_stop .standard
  refine fails_expression_of_extend hrun
    (fails_extendExpression_of_operator hoperator hends ?_ hrun.reaches_stop
      (hrefused ▸ fails_fail.mpr ⟨hnext, rfl⟩))
  rwa [Operator.precedence_of_isAssignment hassignment]

/-- To an access behind parentheses a value is assigned. -/
theorem ReadsLinks.runs_assignment {between place : Nat} {operator : Operator}
    {front : List Link} {last : Link} {value : Node}
    (h : (forSource rules source).ReadsLinks source.toList between
      (front ++ [last]) stop)
    (hoperand : Runs source.toList
      ((forSource rules source).operand ends lineEnds) start name between)
    (hleaves : LeavesLinks ends) (hle : least ≤ 2)
    (hlast : last.isTarget = true)
    (hoperator : (tokenAt source.toList .standard stop).kind.infixOperator? =
      some operator)
    (hassignment : operator.isAssignment = true)
    (hnot : (tokenAt source.toList .standard stop).kind ∉ ends)
    (hvalue : Runs source.toList ((forSource rules source).expressionFrom
      operator.rightPrecedence ends lineEnds)
      (tokenAt source.toList .standard stop).span.stop value place)
    (hends :
      EndsAt least ends lineEnds (tokenAt source.toList .standard place)) :
    Runs source.toList
      ((forSource rules source).expressionFrom least ends lineEnds) start
      (spanning ((front ++ [last]).foldl Link.on name).span value.span
        (.binary operator ((front ++ [last]).foldl Link.on name) value))
      place := by
  have hlinks : Steps source.toList
      ((forSource rules source).extendExpression least ends lineEnds) name
      between ((front ++ [last]).foldl Link.on name) stop :=
    h.steps hleaves (Nat.le_trans hle (by decide)) hoperand.reaches_stop
  have hassign : Runs source.toList ((forSource rules source).operationOn
      ((front ++ [last]).foldl Link.on name) operator ends lineEnds)
      (tokenAt source.toList .standard stop).span.stop
      (spanning ((front ++ [last]).foldl Link.on name).span value.span
        (.binary operator ((front ++ [last]).foldl Link.on name) value))
      place := by
    rw [operationOn_of_target hassignment
      (Link.toAssignmentTarget_foldl hlast name operator)]
    exact .bind hvalue (runs_pure.mpr ⟨hvalue.reaches_stop, rfl, rfl⟩)
  have hextend := runs_extendExpression_of_operator hoperator hnot
    (Operator.precedence_of_isAssignment hassignment ▸ hle)
    (hlinks.reaches hoperand.reaches_stop) hassign
  exact runs_expression_iff.mpr ⟨name, between, hoperand, hlinks.repeats
    (.more hextend (.done (hends.runs hassign.reaches_stop)))⟩

/-- What `new` applies to goes on over all accesses and calls behind its name, also
over those behind an argument list, and no value is assigned to the outcome, be its
last link an access.  In parentheses `new` applies to what is in them: the links
behind them go on from the constructed value, so that the tree is another one, and
to an access that ends them a value is assigned. -/
theorem new_takes_links (hleaves : LeavesLinks ends) :
    (∀ start name links stop,
      (forSource rules source).ReadsNew source.toList ends lineEnds start name
        links stop →
      EndsAt 17 ends lineEnds (tokenAt source.toList .standard stop) →
      ∃ span,
        (∀ least, EndsAt least ends lineEnds
            (tokenAt source.toList .standard stop) →
          ∀ found place,
            Runs source.toList
                ((forSource rules source).expressionFrom least ends lineEnds)
                start found place ↔
              found = .mk span (.unary .new (links.foldl Link.on name)) ∧
                place = stop) ∧
        ∀ operator : Operator,
          (tokenAt source.toList .standard stop).kind.infixOperator? =
            some operator →
          operator.isAssignment = true →
          (tokenAt source.toList .standard stop).kind ∉ ends →
          ∀ least ≤ 2,
            Fails source.toList
              ((forSource rules source).expressionFrom least ends lineEnds)
              start (span.error .invalidAssignmentTarget)) ∧
    ∀ start name inner outer stop,
      (forSource rules source).ReadsGroupedNew source.toList lineEnds start name
        inner outer stop →
      ∃ span,
        (∀ least ≤ 18, EndsAt least ends lineEnds
            (tokenAt source.toList .standard stop) →
          ∀ found place,
            Runs source.toList
                ((forSource rules source).expressionFrom least ends lineEnds)
                start found place ↔
              found = outer.foldl Link.on
                  (.mk span (.unary .new (inner.foldl Link.on name))) ∧
                place = stop) ∧
        (outer ≠ [] → ∀ operator operand,
          (outer.foldl Link.on
            (.mk span (.unary .new (inner.foldl Link.on name)))).shape ≠
              .unary operator operand) ∧
        ∀ front last, outer = front ++ [last] → last.isTarget = true →
          ∀ (operator : Operator) (value : Node) (place : Nat),
            (tokenAt source.toList .standard stop).kind.infixOperator? =
              some operator →
            operator.isAssignment = true →
            (tokenAt source.toList .standard stop).kind ∉ ends →
            Runs source.toList ((forSource rules source).expressionFrom
                operator.rightPrecedence ends lineEnds)
              (tokenAt source.toList .standard stop).span.stop value place →
            ∀ least ≤ 2,
              EndsAt least ends lineEnds
                (tokenAt source.toList .standard place) →
              ∃ target : Node,
                target = outer.foldl Link.on
                  (.mk span (.unary .new (inner.foldl Link.on name))) ∧
                Runs source.toList
                  ((forSource rules source).expressionFrom least ends lineEnds)
                  start (spanning target.span value.span
                    (.binary operator target value)) place := by
  have hexpression : ∀ least, Disciplined false
      ((forSource rules source).expressionFrom least ends lineEnds) :=
    fun least => inferInstance
  constructor
  · intro start name links stop h hends
    obtain ⟨span, hrun⟩ := h.exists_runs_operand hleaves hends
    refine ⟨span, fun least hleast found place => ?_, ?_⟩
    · exact (hexpression least).runs_iff (runs_expression_of_operand hrun hleast)
    · intro operator hoperator hassignment hnot least hle
      exact fails_assignment_of_new hrun hoperator hassignment hnot hle
  · intro start name inner outer stop h
    obtain ⟨span, between, hrun, houter⟩ := h.exists_runs_operand
    refine ⟨span, fun least hle hends found place => ?_, fun hsome operator
      operand => Link.shape_foldl_ne hsome _ operator operand, ?_⟩
    · exact (hexpression least).runs_iff
        (houter.runs_expression hrun hleaves hle hends)
    · rintro front last rfl hlast operator value place hoperator hassignment
        hnot hvalue least hle hends
      exact ⟨_, rfl, houter.runs_assignment hrun hleaves hle hlast hoperator
        hassignment hnot hvalue hends⟩

end Sources

/-- No link stands where a statement ends. -/
theorem leavesLinks_semicolon : LeavesLinks [.punctuator .semicolon] := by
  intro kind hkind operator hoperator
  rw [List.mem_singleton.mp hkind] at hoperator
  cases hoperator

/-! ### Reading token by token -/

section Tokens

variable {grammar : Grammar} {text : List Char} {start between place stop : Nat}
  {first last : Token} {name : Node} {arguments : List Node}
  {inner outer links : List Link} {ends : List TokenKind} {lineEnds : Bool}

theorem ReadsLink.member_of_runs (hdot : Runs text consume start first between)
    (hkind : first.kind = .punctuator .dot)
    (hproperty : Runs text consume between last stop)
    (hword : last.kind.isWord = true) :
    grammar.ReadsLink text start (.member false last) stop := by
  obtain ⟨_, rfl, rfl⟩ := runs_consume.mp hdot
  obtain ⟨_, rfl, rfl⟩ := runs_consume.mp hproperty
  refine .member ?_ rfl (by rw [hword, Bool.true_or])
  rw [hkind]
  rfl

theorem ReadsLink.call_of_runs (hopen : Runs text consume start first between)
    (hkind : first.kind = .punctuator .parenthesisOpen)
    (harguments : Runs text grammar.arguments between arguments place)
    (hclose : Runs text consume place last stop)
    (hlast : last.kind = .punctuator .parenthesisClose) :
    grammar.ReadsLink text start (.call false arguments last) stop := by
  obtain ⟨_, rfl, rfl⟩ := runs_consume.mp hopen
  obtain ⟨_, rfl, rfl⟩ := runs_consume.mp hclose
  refine .call ?_ harguments rfl hlast
  rw [hkind]
  rfl

theorem ReadsNew.of_runs (hnew : Runs text consume start first between)
    (hkind : first.kind = .keyword .newWord)
    (hname : Runs text (grammar.operand ends lineEnds) between name place)
    (hlinks : grammar.ReadsLinks text place links stop) :
    grammar.ReadsNew text ends lineEnds start name links stop := by
  obtain ⟨hstart, rfl, rfl⟩ := runs_consume.mp hnew
  exact ⟨hstart, hkind, place, hname, hlinks⟩

theorem ReadsGroupedNew.of_runs {middle : Nat}
    (hopen : Runs text consume start first between)
    (hkind : first.kind = .punctuator .parenthesisOpen)
    (hnew : grammar.ReadsNew text [.punctuator .parenthesisClose] lineEnds
      between name inner middle)
    (hclose : Runs text consume middle last place)
    (hlast : last.kind = .punctuator .parenthesisClose)
    (houter : grammar.ReadsLinks text place outer stop) :
    grammar.ReadsGroupedNew text lineEnds start name inner outer stop := by
  obtain ⟨hstart, rfl, rfl⟩ := runs_consume.mp hopen
  obtain ⟨_, rfl, rfl⟩ := runs_consume.mp hclose
  exact ⟨hstart, hkind, middle, hnew, hlast, houter⟩

end Tokens

/-- A member of what is constructed in parentheses is assigned one without
parentheses. -/
theorem exists_members_of_new :
    ∃ (name later : Node) (close property equals close' property' last : Token)
      (between start stop final : Nat),
      (forSource .module "(new a()).b = new a().b").ReadsGroupedNew
        "(new a()).b = new a().b".toList true 0 name [.call false [] close]
        [.member false property] between ∧
      Runs "(new a()).b = new a().b".toList consume between equals start ∧
      equals.kind = .punctuator .equals ∧
      (forSource .module "(new a()).b = new a().b").ReadsNew
        "(new a()).b = new a().b".toList [.punctuator .semicolon] true start
        later [.call false [] close', .member false property'] stop ∧
      later.isName = true ∧
      Runs "(new a()).b = new a().b".toList consume stop last final ∧
      last.kind = .endOfInput := by
  have hfacts : Outcome.passes (do
        let first ← consume
        let word ← consume
        let name ← (forSource .module "(new a()).b = new a().b").operand
          [.punctuator .parenthesisClose] true
        let bracket ← consume
        let arguments ← (forSource .module "(new a()).b = new a().b").arguments
        let close ← consume
        let group ← consume
        let dot ← consume
        let property ← consume
        let equals ← consume
        let word' ← consume
        let later ← (forSource .module "(new a()).b = new a().b").operand
          [.punctuator .semicolon] true
        let bracket' ← consume
        let arguments' ← (forSource .module "(new a()).b = new a().b").arguments
        let close' ← consume
        let dot' ← consume
        let property' ← consume
        let last ← consume
        return ([first, word, bracket, close, group, dot, property, equals,
          word', bracket', close', dot', property', last], later,
          arguments ++ arguments') : Parser _)
      (ofSource "(new a()).b = new a().b".toList) (fun found _ =>
        found.2.1.isName = true ∧ found.2.2.isEmpty = true ∧
        found.1.map Token.kind = [.punctuator .parenthesisOpen,
          .keyword .newWord, .punctuator .parenthesisOpen,
          .punctuator .parenthesisClose, .punctuator .parenthesisClose,
          .punctuator .dot, .identifier, .punctuator .equals,
          .keyword .newWord, .punctuator .parenthesisOpen,
          .punctuator .parenthesisClose, .punctuator .dot, .identifier,
          .endOfInput]) = true := by decide +kernel
  obtain ⟨found, after, hrun, htest⟩ := Outcome.exists_of_passes hfacts
  have hruns := (inferInstance : Disciplined false _).runs
    (Program.reads_ofSource _) hrun
  simp only [runs_bind, runs_pure] at hruns
  obtain ⟨first, _, hfirst, word, _, hword, name, _, hname, bracket, _,
    hbracket, arguments, _, harguments, close, _, hclose, group, _, hgroup, dot, _,
    hdot, property, _, hproperty, equals, _, hequals, word', _, hword', later, _,
    hlater, bracket', _, hbracket', arguments', _, harguments', close', _,
    hclose', dot', _, hdot', property', _, hproperty', last, _, hlast, _, rfl,
    -⟩ := hruns
  obtain ⟨hname', hnone, hkinds⟩ := of_decide_eq_true htest
  obtain ⟨rfl, rfl⟩ := List.append_eq_nil_iff.mp (List.isEmpty_iff.mp hnone)
  simp only [List.map_cons, List.map_nil, List.cons.injEq, and_true] at hkinds
  obtain ⟨hopen, hnew, hcall, hcalled, hgrouped, haccess, hword₁, hassign,
    hnew', hcall', hcalled', haccess', hword₂, hfinal⟩ := hkinds
  have hidentifier : TokenKind.identifier.isWord = true := rfl
  exact ⟨name, later, close, property, equals, close', property', last, _, _,
    _, _, .of_runs hfirst hopen
      (.of_runs hword hnew hname (.cons
        (.call_of_runs hbracket hcall harguments hclose hcalled) (.nil _)))
      hgroup hgrouped (.cons
        (.member_of_runs hdot haccess hproperty (hword₁ ▸ hidentifier))
        (.nil _)),
    hequals, hassign,
    .of_runs hword' hnew' hlater (.cons
      (.call_of_runs hbracket' hcall' harguments' hclose' hcalled') (.cons
        (.member_of_runs hdot' haccess' hproperty' (hword₂ ▸ hidentifier))
        (.nil _))), hname', hlast, hfinal⟩

/-- The constructed value's member is assigned what `new` makes of a member. -/
theorem new_takes_links_members :
    ∃ (target value name later : Node) (close property close' property' : Token)
      (span span' : Span) (stop : Nat),
      target = (Link.member false property).on
        (.mk span (.unary .new ((Link.call false [] close).on name))) ∧
      value = .mk span' (.unary .new ((Link.member false property').on
        ((Link.call false [] close').on later))) ∧
      Runs "(new a()).b = new a().b".toList
        ((forSource .module "(new a()).b = new a().b").expressionFrom 1
          [.punctuator .semicolon] true) 0
        (spanning target.span value.span (.binary .assignment target value))
        stop := by
  obtain ⟨name, later, close, property, equals, close', property', last, between,
    start, stop, final, hgrouped, hequals, hassign, hnew, _, hlast, hfinal⟩ :=
      exists_members_of_new
  obtain ⟨_, rfl, rfl⟩ := runs_consume.mp hequals
  obtain ⟨_, rfl, rfl⟩ := runs_consume.mp hlast
  have hends : ∀ least, EndsAt least [.punctuator .semicolon] true
      (tokenAt "(new a()).b = new a().b".toList .standard stop) :=
    fun least => .endOfInput hfinal
  obtain ⟨span', hvalue, _⟩ :=
    (new_takes_links leavesLinks_semicolon).1 _ _ _ _ hnew (hends 17)
  obtain ⟨span, _, _, hassignment⟩ :=
    (new_takes_links leavesLinks_semicolon).2 _ _ _ _ _ hgrouped
  obtain ⟨_, rfl, hrun⟩ := hassignment [] (.member false property) rfl rfl
    .assignment _ stop (by rw [hassign]; rfl) rfl (by rw [hassign]; decide)
    ((hvalue 2 (hends 2) _ _).mpr ⟨rfl, rfl⟩) 1 (by decide) (hends 1)
  exact ⟨_, _, name, later, close, property, close', property', span, span',
    stop, rfl, rfl, hrun⟩

/-- The operand of `new` does not end with its argument list where links stand
behind it. -/
theorem not_new_ends_at_arguments :
    ¬ ∀ (rules : NameRules) (source : String) (start stop : Nat)
      (ends : List TokenKind) (lineEnds : Bool) (name : Node)
      (accesses outer : List Link) (arguments : List Node) (close : Token),
      LeavesLinks ends →
      name.isName = true →
      (∀ access ∈ accesses, ∃ property, access = .member false property) →
      outer ≠ [] →
      (forSource rules source).ReadsNew source.toList ends lineEnds start name
        (accesses ++ .call false arguments close :: outer) stop →
      EndsAt 1 ends lineEnds (tokenAt source.toList .standard stop) →
      ∃ span, Runs source.toList
        ((forSource rules source).expressionFrom 1 ends lineEnds) start
        (outer.foldl Link.on (.mk span (.unary .new
          ((Link.call false arguments close).on
            (accesses.foldl Link.on name))))) stop := by
  intro hall
  obtain ⟨_, name, _, _, _, close, property, last, _, start, stop, _, _, _, _,
    hnew, hname, hlast, hfinal⟩ := exists_members_of_new
  obtain ⟨_, rfl, rfl⟩ := runs_consume.mp hlast
  have hends : ∀ least, EndsAt least [.punctuator .semicolon] true
      (tokenAt "(new a()).b = new a().b".toList .standard stop) :=
    fun least => .endOfInput hfinal
  obtain ⟨span, hrun⟩ :=
    hnew.exists_runs_operand leavesLinks_semicolon (hends 17)
  obtain ⟨_, hother⟩ := hall .module "(new a()).b = new a().b" _ stop
    [.punctuator .semicolon] true name [] [.member false property] [] close
    leavesLinks_semicolon hname (by simp) (by simp) hnew (hends 1)
  cases ((inferInstance : Disciplined false _).runs_unique
    (runs_expression_of_operand hrun (hends 1)) hother).1

end Grammar

end Bundler
