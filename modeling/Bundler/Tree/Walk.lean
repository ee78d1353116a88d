import Bundler.Tree.Basic

/-!
# Walking a tree

The parts of a node, in the order in which the constructs are defined, each
with the role it plays in the whole.  From the parts come the nodes of a tree
in pre-order and the events of a walk: a node is entered before its parts and
left after them.  Analyses are folds over events.
-/

namespace Bundler

variable {α : Type}

/-- How a part stands in the whole. -/
inductive Role
  | expression
  | statement
  /-- A pattern that sets what it names. -/
  | pattern
  /-- A pattern that declares what it names. -/
  | declaration
  | getter
  | setter
  | method
  /-- A part of a kind of its own. -/
  | plain
  deriving DecidableEq

namespace MemberKind

/-- The role of the value of a member. -/
def role : MemberKind → Role
  | .getter => .getter
  | .setter => .setter
  | .method => .method
  | .field => .expression

end MemberKind

namespace PropertyKey

def part : PropertyKey α → Role × α
  | .literal name => (.plain, name)
  | .computed value => (.expression, value)

end PropertyKey

namespace ArrayElement

def parts : ArrayElement α → List (Role × α)
  | .hole => []
  | .single value | .spread value => [(.expression, value)]

end ArrayElement

namespace PatternElement

def parts : PatternElement α → List (Role × α)
  | .hole => []
  | .item target initial =>
      (.pattern, target) :: initial.toList.map (.expression, ·)

end PatternElement

namespace Declarator

def parts (declarator : Declarator α) : List (Role × α) :=
  (.declaration, declarator.pattern) ::
    declarator.initial.toList.map (.expression, ·)

end Declarator

namespace FuncBody

def parts : FuncBody α → List (Role × α)
  | .block statements => statements.map (.statement, ·)
  | .concise value => [(.expression, value)]

end FuncBody

namespace ForTarget

def parts : ForTarget α → List (Role × α)
  | .assign pattern => [(.pattern, pattern)]
  | .declare _ pattern => [(.declaration, pattern)]

end ForTarget

namespace ForStart

def parts : ForStart α → List (Role × α)
  | .nothing => []
  | .expression value => [(.expression, value)]
  | .declare declaration => [(.plain, declaration)]

end ForStart

namespace ImportNames

def parts : ImportNames α → List (Role × α)
  | .all asName => [(.declaration, asName)]
  | .items list => list.map (.plain, ·)

end ImportNames

namespace Shape

/-- The parts of a shape with their roles. -/
def parts : Shape α → List (Role × α)
  | .arrow fn => [(.plain, fn)]
  | .binary _ left right => [(.expression, left), (.expression, right)]
  | .call _ callee arguments =>
      (.expression, callee) :: arguments.map (.plain, ·)
  | .argument _ value => [(.expression, value)]
  | .classExpr name heritage members =>
      name.toList.map (.plain, ·) ++ heritage.toList.map (.expression, ·) ++
        members.map (.plain, ·)
  | .computedMember _ owner key => [(.expression, owner), (.expression, key)]
  | .conditional test consequent alternate =>
      [(.expression, test), (.expression, consequent), (.expression, alternate)]
  | .funcExpr name fn => name.toList.map (.plain, ·) ++ [(.plain, fn)]
  | .importCall source => [(.expression, source)]
  | .member _ owner _ => [(.expression, owner)]
  | .tagged tag _ values => (.expression, tag) :: values.map (.expression, ·)
  | .unary _ operand | .update _ operand => [(.expression, operand)]
  | .array elements => elements.flatMap ArrayElement.parts
  | .object members => members.map (.plain, ·)
  | .template _ values => values.map (.expression, ·)
  | .arrayPattern elements rest =>
      elements.flatMap PatternElement.parts ++ rest.toList.map (.pattern, ·)
  | .objectPattern properties rest =>
      properties.map (.plain, ·) ++ rest.toList.map (.plain, ·)
  | .patternProperty key target _ initial =>
      key.part :: (.pattern, target) :: initial.toList.map (.expression, ·)
  | .property key kind value | .classMember key _ kind value =>
      key.part :: value.toList.map (kind.role, ·)
  | .shorthandProperty id => [(.plain, id)]
  | .spreadProperty value => [(.expression, value)]
  | .func _ _ _ parameters body => parameters.map (.plain, ·) ++ body.parts
  | .parameter _ target initial =>
      (.declaration, target) :: initial.toList.map (.expression, ·)
  | .block statements | .forBody statements =>
      statements.map (.statement, ·)
  | .doWhile condition body => [(.expression, condition), (.statement, body)]
  | .exportDefault value => [(.expression, value)]
  | .exportItems items _ => items.map (.plain, ·)
  | .exportDeclaration _ declaration => [(.plain, declaration)]
  | .expressionStatement value => [(.expression, value)]
  | .forIn target source body | .forOf _ target source body =>
      target.parts ++ [(.expression, source), (.plain, body)]
  | .forLoop start condition step body =>
      start.parts ++ condition.toList.map (.expression, ·) ++
        step.toList.map (.expression, ·) ++ [(.plain, body)]
  | .ifElse test consequent alternate =>
      (.expression, test) :: (.statement, consequent) ::
        alternate.toList.map (.statement, ·)
  | .importFrom defaultName names _ =>
      defaultName.toList.map (.declaration, ·) ++
        (names.map ImportNames.parts).getD []
  | .importItem _ asName => [(.declaration, asName)]
  | .labelled _ body => [(.statement, body)]
  | .returnValue value => value.toList.map (.expression, ·)
  | .switch subject cases => (.expression, subject) :: cases.map (.plain, ·)
  | .switchCase test statements =>
      test.toList.map (.expression, ·) ++ statements.map (.statement, ·)
  | .throwValue value => [(.expression, value)]
  | .tryCatch body handler finalizer =>
      (.plain, body) :: handler.toList.map (.plain, ·) ++
        finalizer.toList.map (.plain, ·)
  | .catchClause caught statements =>
      caught.toList.map (.declaration, ·) ++
        statements.map (.statement, ·)
  | .whileLoop condition body => [(.expression, condition), (.statement, body)]
  | .withObject owner body => [(.expression, owner), (.statement, body)]
  | .classDeclaration name heritage members =>
      (.plain, name) :: heritage.toList.map (.expression, ·) ++
        members.map (.plain, ·)
  | .funcDeclaration name fn => [(.plain, name), (.plain, fn)]
  | .varDeclaration _ declarators => declarators.flatMap Declarator.parts
  | .ident _ | .importMeta | .newTarget | .superRef | .thisRef | .bigint _
  | .boolean _ | .null | .number _ | .regex _ | .string _ | .identPattern _
  | .literalKey _ _ | .declaredName _ | .breakTo _ | .continueTo _ | .debugger
  | .empty | .exportAll _ _ | .exportItem _ _ => []

end Shape

section Size

/-! A part is smaller than the whole, so recursion on parts ends. -/

variable [SizeOf α] {part : Role × α}

theorem sizeOf_lt_of_mem_option {role : Role} {value : Option α}
    (h : part ∈ value.toList.map (role, ·)) : sizeOf part.2 < sizeOf value := by
  cases value with
  | none => simp at h
  | some value => simp at h; subst h; simp

theorem sizeOf_lt_of_mem_list {role : Role} {values : List α}
    (h : part ∈ values.map (role, ·)) : sizeOf part.2 < sizeOf values := by
  simp only [List.mem_map] at h
  obtain ⟨value, hvalue, rfl⟩ := h
  exact List.sizeOf_lt_of_mem hvalue

theorem sizeOf_lt_of_mem_flatMap {β : Type} [SizeOf β]
    {parts : β → List (Role × α)} {values : List β}
    (hparts : ∀ value, part ∈ parts value → sizeOf part.2 < sizeOf value)
    (h : part ∈ values.flatMap parts) : sizeOf part.2 < sizeOf values := by
  simp only [List.mem_flatMap] at h
  obtain ⟨value, hvalue, hpart⟩ := h
  have := hparts value hpart
  have := List.sizeOf_lt_of_mem hvalue
  omega

theorem PropertyKey.sizeOf_part_lt (key : PropertyKey α) :
    sizeOf key.part.2 < sizeOf key := by
  cases key <;> simp [PropertyKey.part]

theorem ArrayElement.sizeOf_lt_of_mem_parts {element : ArrayElement α}
    (h : part ∈ element.parts) : sizeOf part.2 < sizeOf element := by
  cases element <;> simp [ArrayElement.parts] at h <;> subst h <;> simp

theorem PatternElement.sizeOf_lt_of_mem_parts {element : PatternElement α}
    (h : part ∈ element.parts) : sizeOf part.2 < sizeOf element := by
  cases element with
  | hole => simp [PatternElement.parts] at h
  | item target initial =>
      simp only [PatternElement.parts, List.mem_cons] at h
      rcases h with rfl | h
      · simp; omega
      · have := sizeOf_lt_of_mem_option h
        simp; omega

theorem Declarator.sizeOf_lt_of_mem_parts {declarator : Declarator α}
    (h : part ∈ declarator.parts) : sizeOf part.2 < sizeOf declarator := by
  cases declarator with
  | mk pattern initial =>
      simp only [Declarator.parts, List.mem_cons] at h
      rcases h with rfl | h
      · simp; omega
      · have := sizeOf_lt_of_mem_option h
        simp; omega

theorem FuncBody.sizeOf_lt_of_mem_parts {body : FuncBody α}
    (h : part ∈ body.parts) : sizeOf part.2 < sizeOf body := by
  cases body with
  | block statements => have := sizeOf_lt_of_mem_list h; simp; omega
  | concise value => simp [FuncBody.parts] at h; subst h; simp

theorem ForTarget.sizeOf_lt_of_mem_parts {target : ForTarget α}
    (h : part ∈ target.parts) : sizeOf part.2 < sizeOf target := by
  cases target with
  | assign pattern => simp [ForTarget.parts] at h; subst h; simp
  | declare kind pattern =>
      simp only [ForTarget.parts, List.mem_singleton] at h
      subst h
      simp only [ForTarget.declare.sizeOf_spec]
      omega

theorem ForStart.sizeOf_lt_of_mem_parts {start : ForStart α}
    (h : part ∈ start.parts) : sizeOf part.2 < sizeOf start := by
  cases start <;> simp [ForStart.parts] at h <;> subst h <;> simp

theorem ImportNames.sizeOf_lt_of_mem_parts {names : ImportNames α}
    (h : part ∈ names.parts) : sizeOf part.2 < sizeOf names := by
  cases names with
  | all asName => simp [ImportNames.parts] at h; subst h; simp
  | items list => have := sizeOf_lt_of_mem_list h; simp; omega

theorem ImportNames.sizeOf_lt_of_mem_option {names : Option (ImportNames α)}
    (h : part ∈ (names.map ImportNames.parts).getD []) :
    sizeOf part.2 < sizeOf names := by
  cases names with
  | none => simp at h
  | some names =>
      have hpart : part ∈ names.parts := by simpa using h
      have := ImportNames.sizeOf_lt_of_mem_parts hpart
      simp; omega

theorem Shape.sizeOf_lt_of_mem_parts {shape : Shape α}
    (h : part ∈ shape.parts) : sizeOf part.2 < sizeOf shape := by
  cases shape <;>
    simp only [Shape.parts, List.mem_cons, List.mem_append, List.not_mem_nil,
      or_false] at h <;>
    (repeat' rcases h with h | h)
  all_goals first
    | simp; done
    | simp; omega
    | have := sizeOf_lt_of_mem_option h; simp; omega
    | have := sizeOf_lt_of_mem_list h; simp; omega
    | have := FuncBody.sizeOf_lt_of_mem_parts h; simp; omega
    | have := ForTarget.sizeOf_lt_of_mem_parts h; simp; omega
    | have := ForStart.sizeOf_lt_of_mem_parts h; simp; omega
    | have := ImportNames.sizeOf_lt_of_mem_option h; simp; omega
    | have := sizeOf_lt_of_mem_flatMap
        (fun _ => ArrayElement.sizeOf_lt_of_mem_parts) h
      simp; omega
    | have := sizeOf_lt_of_mem_flatMap
        (fun _ => PatternElement.sizeOf_lt_of_mem_parts) h
      simp; omega
    | have := sizeOf_lt_of_mem_flatMap
        (fun _ => Declarator.sizeOf_lt_of_mem_parts) h
      simp; omega
    | rename_i key _ _
      have := PropertyKey.sizeOf_part_lt key
      simp; omega
    | rename_i key _ _ _
      have := PropertyKey.sizeOf_part_lt key
      simp; omega

end Size

/-- A step of a walk through a tree. -/
inductive Event
  | enter (role : Role) (node : Node)
  | leave (role : Role) (node : Node)

namespace Node

/-- The parts of a node with their roles. -/
def parts (node : Node) : List (Role × Node) := node.shape.parts

theorem sizeOf_lt_of_mem_parts {node : Node} {part : Role × Node}
    (h : part ∈ node.parts) : sizeOf part.2 < sizeOf node := by
  cases node with
  | mk span shape =>
      have : sizeOf part.2 < sizeOf shape := Shape.sizeOf_lt_of_mem_parts h
      simp; omega

/-- The walk through a tree whose root plays a role. -/
def events (role : Role) (node : Node) : List Event :=
  .enter role node ::
    (node.parts.attach.flatMap fun part => part.1.2.events part.1.1) ++
    [.leave role node]
termination_by sizeOf node
decreasing_by exact sizeOf_lt_of_mem_parts part.2

end Node

namespace Event

def entered? : Event → Option (Role × Node)
  | .enter role node => some (role, node)
  | .leave _ _ => none

end Event

namespace Node

/-- The nodes of a tree with their roles, each before its parts. -/
def preorder (role : Role) (node : Node) : List (Role × Node) :=
  (node.events role).filterMap Event.entered?

end Node

end Bundler
