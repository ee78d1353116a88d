import Bundler.Analysis.Effect
import Bundler.Proofs.Analysis.Scopes

/-!
# What is evaluated at a definition

To evaluate a construct is to evaluate its parts, except that a function is only
built: its parameters and its body wait for a call.  A construct has no effect if
nothing that is evaluated with it acts, that is, calls something, sets something or
waits.  The parts of a construct are all that it is made of, so nothing is passed
over.
-/

namespace Bundler

section Completeness

variable {α β : Type}

def PropertyKey.map (f : α → β) : PropertyKey α → PropertyKey β
  | .literal name => .literal (f name)
  | .computed value => .computed (f value)

def ArrayElement.map (f : α → β) : ArrayElement α → ArrayElement β
  | .hole => .hole
  | .single value => .single (f value)
  | .spread value => .spread (f value)

def PatternElement.map (f : α → β) : PatternElement α → PatternElement β
  | .hole => .hole
  | .item target initial => .item (f target) (initial.map f)

def Declarator.map (f : α → β) (declarator : Declarator α) : Declarator β :=
  ⟨f declarator.pattern, declarator.initial.map f⟩

def FuncBody.map (f : α → β) : FuncBody α → FuncBody β
  | .block statements => .block (statements.map f)
  | .concise value => .concise (f value)

def ForTarget.map (f : α → β) : ForTarget α → ForTarget β
  | .assign pattern => .assign (f pattern)
  | .declare kind pattern => .declare kind (f pattern)

def ForStart.map (f : α → β) : ForStart α → ForStart β
  | .nothing => .nothing
  | .expression value => .expression (f value)
  | .declare declaration => .declare (f declaration)

def ImportNames.map (f : α → β) : ImportNames α → ImportNames β
  | .all asName => .all (f asName)
  | .items list => .items (list.map f)

namespace Shape

/-- The same construct over other parts. -/
def map (f : α → β) : Shape α → Shape β
  | .arrow fn => .arrow (f fn)
  | .binary operator left right => .binary operator (f left) (f right)
  | .call optional callee arguments =>
      .call optional (f callee) (arguments.map f)
  | .argument spread value => .argument spread (f value)
  | .classExpr name heritage members =>
      .classExpr (name.map f) (heritage.map f) (members.map f)
  | .computedMember optional owner key =>
      .computedMember optional (f owner) (f key)
  | .conditional test consequent alternate =>
      .conditional (f test) (f consequent) (f alternate)
  | .funcExpr name fn => .funcExpr (name.map f) (f fn)
  | .ident name => .ident name
  | .importCall source => .importCall (f source)
  | .importMeta => .importMeta
  | .member optional owner name => .member optional (f owner) name
  | .newTarget => .newTarget
  | .superRef => .superRef
  | .tagged tag texts values => .tagged (f tag) texts (values.map f)
  | .thisRef => .thisRef
  | .unary operator operand => .unary operator (f operand)
  | .update operator operand => .update operator (f operand)
  | .array elements => .array (elements.map (·.map f))
  | .bigint digits => .bigint digits
  | .boolean value => .boolean value
  | .null => .null
  | .number value => .number value
  | .object members => .object (members.map f)
  | .regex text => .regex text
  | .string value => .string value
  | .template texts values => .template texts (values.map f)
  | .arrayPattern elements rest =>
      .arrayPattern (elements.map (·.map f)) (rest.map f)
  | .identPattern name => .identPattern name
  | .objectPattern properties rest =>
      .objectPattern (properties.map f) (rest.map f)
  | .patternProperty key target shorthand initial =>
      .patternProperty (key.map f) (f target) shorthand (initial.map f)
  | .literalKey text kind => .literalKey text kind
  | .property key kind value => .property (key.map f) kind (value.map f)
  | .shorthandProperty id => .shorthandProperty (f id)
  | .spreadProperty value => .spreadProperty (f value)
  | .classMember key isStatic kind value =>
      .classMember (key.map f) isStatic kind (value.map f)
  | .func isArrow isAsync isGenerator parameters body =>
      .func isArrow isAsync isGenerator (parameters.map f) (body.map f)
  | .parameter isRest pattern initial =>
      .parameter isRest (f pattern) (initial.map f)
  | .declaredName name => .declaredName name
  | .block statements => .block (statements.map f)
  | .breakTo label => .breakTo label
  | .continueTo label => .continueTo label
  | .debugger => .debugger
  | .doWhile condition body => .doWhile (f condition) (f body)
  | .empty => .empty
  | .exportDefault value => .exportDefault (f value)
  | .exportAll asName source => .exportAll asName source
  | .exportItems items source => .exportItems (items.map f) source
  | .exportItem exported asName => .exportItem exported asName
  | .exportDeclaration isDefault declaration =>
      .exportDeclaration isDefault (f declaration)
  | .expressionStatement value => .expressionStatement (f value)
  | .forIn target owner body => .forIn (target.map f) (f owner) (f body)
  | .forOf isAwait target iterable body =>
      .forOf isAwait (target.map f) (f iterable) (f body)
  | .forLoop start condition step body =>
      .forLoop (start.map f) (condition.map f) (step.map f) (f body)
  | .forBody statements => .forBody (statements.map f)
  | .ifElse test consequent alternate =>
      .ifElse (f test) (f consequent) (alternate.map f)
  | .importFrom defaultName names source =>
      .importFrom (defaultName.map f) (names.map (·.map f)) source
  | .importItem imported asName => .importItem imported (f asName)
  | .labelled label body => .labelled label (f body)
  | .returnValue value => .returnValue (value.map f)
  | .switch subject cases => .switch (f subject) (cases.map f)
  | .switchCase test statements => .switchCase (test.map f) (statements.map f)
  | .throwValue value => .throwValue (f value)
  | .tryCatch body handler finalizer =>
      .tryCatch (f body) (handler.map f) (finalizer.map f)
  | .catchClause caught statements =>
      .catchClause (caught.map f) (statements.map f)
  | .whileLoop condition body => .whileLoop (f condition) (f body)
  | .withObject owner body => .withObject (f owner) (f body)
  | .classDeclaration name heritage members =>
      .classDeclaration (f name) (heritage.map f) (members.map f)
  | .funcDeclaration name fn => .funcDeclaration (f name) (f fn)
  | .varDeclaration kind declarators =>
      .varDeclaration kind (declarators.map (·.map f))

end Shape

/-! Changes that agree on the parts of a construct change it alike. -/

variable {f g : α → β}

theorem option_map_congr_iff {value : Option α} :
    value.map f = value.map g ↔ ∀ part ∈ value, f part = g part := by
  cases value <;> simp

theorem PropertyKey.map_eq_map_iff {key : PropertyKey α} :
    key.map f = key.map g ↔ f key.part.2 = g key.part.2 := by
  cases key <;> simp [PropertyKey.map, PropertyKey.part]

theorem ArrayElement.map_eq_map_iff {element : ArrayElement α} :
    element.map f = element.map g ↔
      ∀ part ∈ element.parts, f part.2 = g part.2 := by
  cases element <;> simp [ArrayElement.map, ArrayElement.parts]

theorem PatternElement.map_eq_map_iff {element : PatternElement α} :
    element.map f = element.map g ↔
      ∀ part ∈ element.parts, f part.2 = g part.2 := by
  cases element <;>
    simp [PatternElement.map, PatternElement.parts, option_map_congr_iff]

theorem Declarator.map_eq_map_iff {declarator : Declarator α} :
    declarator.map f = declarator.map g ↔
      ∀ part ∈ declarator.parts, f part.2 = g part.2 := by
  simp [Declarator.map, Declarator.parts, option_map_congr_iff]

theorem FuncBody.map_eq_map_iff {body : FuncBody α} :
    body.map f = body.map g ↔ ∀ part ∈ body.parts, f part.2 = g part.2 := by
  cases body <;> simp [FuncBody.map, FuncBody.parts]

theorem ForTarget.map_eq_map_iff {target : ForTarget α} :
    target.map f = target.map g ↔ ∀ part ∈ target.parts, f part.2 = g part.2 := by
  cases target <;> simp [ForTarget.map, ForTarget.parts]

theorem ForStart.map_eq_map_iff {start : ForStart α} :
    start.map f = start.map g ↔ ∀ part ∈ start.parts, f part.2 = g part.2 := by
  cases start <;> simp [ForStart.map, ForStart.parts]

theorem ImportNames.map_eq_map_iff {names : ImportNames α} :
    names.map f = names.map g ↔ ∀ part ∈ names.parts, f part.2 = g part.2 := by
  cases names <;> simp [ImportNames.map, ImportNames.parts]

namespace Shape

/-- The parts of a construct are all that it is made of: changes that agree on them
change it alike. -/
theorem map_eq_map_iff {shape : Shape α} :
    shape.map f = shape.map g ↔
      ∀ part ∈ shape.parts, f part.2 = g part.2 := by
  cases shape
  case importFrom defaultName names source =>
    cases names <;>
      simp [Shape.map, Shape.parts, option_map_congr_iff, or_imp, forall_and,
        ImportNames.map_eq_map_iff]
  case array | varDeclaration =>
    simp only [Shape.map, Shape.parts, array.injEq, varDeclaration.injEq, true_and,
      List.map_inj_left, List.forall_mem_flatMap, ArrayElement.map_eq_map_iff,
      Declarator.map_eq_map_iff]
  case arrayPattern elements rest =>
    have helements : elements.map (·.map f) = elements.map (·.map g) ↔
        ∀ part ∈ elements.flatMap PatternElement.parts, f part.2 = g part.2 := by
      simp only [List.map_inj_left, List.forall_mem_flatMap,
        PatternElement.map_eq_map_iff]
    rw [Shape.map, Shape.map, arrayPattern.injEq, helements, option_map_congr_iff,
      Shape.parts, List.forall_mem_append]
    simp
  all_goals
    simp [Shape.map, Shape.parts, option_map_congr_iff, or_imp, forall_and,
      PropertyKey.map_eq_map_iff, FuncBody.map_eq_map_iff,
      ForTarget.map_eq_map_iff, ForStart.map_eq_map_iff]

end Shape

end Completeness

namespace Operator

/-- Operators that are written between two operands and bind like `=`. -/
def Assigns (operator : Operator) : Prop :=
  operator.precedence = assignment.precedence ∧
    ∃ mark : Punctuator, mark.infixOperator? = some operator

/-- Operators on one operand that create, remove or change something, or hand over
control. -/
def acting : List Operator :=
  [.new, .delete, .prefixIncrement, .prefixDecrement, .postfixIncrement,
    .postfixDecrement, .await, .yield, .yieldDelegated]

theorem isAssignment_iff {operator : Operator} :
    operator.isAssignment = true ↔ operator.Assigns := by
  constructor
  · intro h
    cases operator
    case assignment => exact ⟨rfl, .equals, rfl⟩
    case assignmentAddition => exact ⟨rfl, .plusEquals, rfl⟩
    case assignmentBitwiseAnd => exact ⟨rfl, .ampersandEquals, rfl⟩
    case assignmentBitwiseLeftShift =>
      exact ⟨rfl, .chevronLeftChevronLeftEquals, rfl⟩
    case assignmentBitwiseOr => exact ⟨rfl, .barEquals, rfl⟩
    case assignmentBitwiseRightShift =>
      exact ⟨rfl, .chevronRightChevronRightEquals, rfl⟩
    case assignmentBitwiseUnsignedRightShift =>
      exact ⟨rfl, .chevronRightChevronRightChevronRightEquals, rfl⟩
    case assignmentBitwiseXor => exact ⟨rfl, .caretEquals, rfl⟩
    case assignmentDivision => exact ⟨rfl, .slashEquals, rfl⟩
    case assignmentExponentiation => exact ⟨rfl, .asteriskAsteriskEquals, rfl⟩
    case assignmentLogicalAnd => exact ⟨rfl, .ampersandAmpersandEquals, rfl⟩
    case assignmentLogicalOr => exact ⟨rfl, .barBarEquals, rfl⟩
    case assignmentMultiplication => exact ⟨rfl, .asteriskEquals, rfl⟩
    case assignmentNullishCoalescing =>
      exact ⟨rfl, .questionQuestionEquals, rfl⟩
    case assignmentRemainder => exact ⟨rfl, .percentEquals, rfl⟩
    case assignmentSubtraction => exact ⟨rfl, .hyphenEquals, rfl⟩
    all_goals cases h
  · rintro ⟨hprecedence, mark, hmark⟩
    cases mark <;> cases hmark <;> first | rfl | cases hprecedence

theorem isEffectfulUnary_iff {operator : Operator} :
    operator.isEffectfulUnary = true ↔ operator ∈ acting := by
  cases operator <;> decide

end Operator

namespace Shape

variable {α β : Type}

/-- Constructs that act when they are evaluated. -/
inductive Acts : Shape α → Prop
  | call (optional : Bool) (callee : α) (arguments : List α) :
      Acts (.call optional callee arguments)
  | importCall (source : α) : Acts (.importCall source)
  | tagged (tag : α) (texts : List String) (values : List α) :
      Acts (.tagged tag texts values)
  | assignment {operator : Operator} (left right : α) (h : operator.Assigns) :
      Acts (.binary operator left right)
  | unary {operator : Operator} (operand : α) (h : operator ∈ Operator.acting) :
      Acts (.unary operator operand)
  | update (operator : Operator) (operand : α) : Acts (.update operator operand)

theorem isEffect_iff {shape : Shape α} : shape.isEffect = true ↔ shape.Acts := by
  constructor
  · intro h
    cases shape <;> try cases h
    case binary => exact .assignment _ _ (Operator.isAssignment_iff.mp h)
    case unary => exact .unary _ (Operator.isEffectfulUnary_iff.mp h)
    all_goals constructor
  · intro h
    cases h with
    | assignment _ _ h => exact Operator.isAssignment_iff.mpr h
    | unary _ h => exact Operator.isEffectfulUnary_iff.mpr h
    | _ => rfl

end Shape

namespace Node

/-- The parts of a node that are evaluated with it.  A function keeps its own for
its calls. -/
def evaluatedParts (node : Node) : List (Role × Node) :=
  match node.shape with
  | .func _ _ _ _ _ => []
  | _ => node.parts

theorem evaluatedParts_subset (node : Node) : node.evaluatedParts ⊆ node.parts := by
  unfold evaluatedParts
  split
  · exact List.nil_subset _
  · exact List.Subset.refl _

/-- The nodes that are evaluated with a node, itself first. -/
def evaluated (node : Node) : List Node :=
  node :: node.evaluatedParts.attach.flatMap fun part => part.1.2.evaluated
termination_by sizeOf node
decreasing_by exact sizeOf_lt_of_mem_parts (node.evaluatedParts_subset part.2)

theorem evaluated_eq (node : Node) :
    node.evaluated =
      node :: node.evaluatedParts.flatMap fun part => part.2.evaluated := by
  rw [evaluated, List.flatMap_subtype (g := fun part => part.2.evaluated)
    fun _ _ => rfl, List.unattach_attach]

theorem hasEffect_eq (node : Node) :
    node.hasEffect =
      (node.shape.isEffect || node.evaluatedParts.any fun part =>
        part.2.hasEffect) := by
  rw [hasEffect]
  split
  · rename_i hshape
    simp only [evaluatedParts, hshape, List.any_nil]
    rfl
  · rename_i hshape
    have hparts : node.evaluatedParts = node.parts := by
      unfold evaluatedParts
      split
      · exact absurd ‹_› (hshape _ _ _ _ _)
      · rfl
    rw [hparts, List.any_subtype (g := fun part : Role × Node => part.2.hasEffect)
      fun _ _ => rfl, List.unattach_attach]

/-- A node has an effect exactly if one that is evaluated with it acts. -/
theorem hasEffect_eq_false_iff (node : Node) :
    node.hasEffect = false ↔ ∀ found ∈ node.evaluated, ¬ found.shape.Acts := by
  induction node using parts_induction with
  | hnode node ih =>
    rw [hasEffect_eq, evaluated_eq, Bool.or_eq_false_iff, List.any_eq_false,
      List.forall_mem_cons, List.forall_mem_flatMap, ← Shape.isEffect_iff,
      Bool.not_eq_true]
    refine and_congr_right fun _ => forall₂_congr fun part hpart => ?_
    rw [Bool.not_eq_true, ih part (node.evaluatedParts_subset hpart)]

end Node

end Bundler
