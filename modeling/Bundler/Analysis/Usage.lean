import Bundler.Analysis.Declaration

/-!
# Usages

The second walk through a module finds which module-level names a top-level
statement reads and writes, and every place where one stands.  It meets the
constructs that open scopes in the order of the first walk, so it knows the
scope of each by counting them.
-/

namespace Bundler

/-- A place where a name stands that is bound at the module level or not at
all.  A shorthand stands for a property name as well. -/
structure Reference where
  span : Span
  name : String
  isShorthand : Bool
  deriving DecidableEq

/-- What the usages in a statement depend on. -/
structure UsageContext where
  tree : ScopeTree
  imports : List String
  /-- The names that the statement defines. -/
  defines : List String

/-- What is found in a statement.  `scopesSeen` counts the scopes met so far in
the whole module, the top level not included. -/
structure Usage where
  scopesSeen : Nat
  dependsOn : List String
  modifies : List String
  references : List Reference
  /-- The first write to an import. -/
  illegalWrite : Option Occurrence

namespace UsageContext

variable (context : UsageContext) (scope : Nat)

/-- Whether a name is bound in a function or block around a place. -/
def isLocal (name : String) : Bool :=
  (context.tree.findScope? scope name).any (· ≠ ScopeTree.root)

/-- Whether a name is bound at the module level where it stands. -/
def isModuleLevel (name : String) : Bool :=
  context.tree.findScope? scope name = some ScopeTree.root

/-- A name that is read, declared or assigned.  Names that a construct merely
implies have no text and do not count. -/
def read (isShorthand : Bool) (usage : Usage) (found : Occurrence) : Usage :=
  if found.span.isEmpty || context.isLocal scope found.name then usage
  else
    let dependsOn :=
      if context.defines.contains found.name then usage.dependsOn
      else pushNew usage.dependsOn found.name
    { usage with
      references := usage.references ++ [⟨found.span, found.name, isShorthand⟩]
      dependsOn := dependsOn }

/-- A name that is written.  Imports are read-only, unless a write is merely
possible. -/
def write (isCertain : Bool) (usage : Usage) (found : Occurrence) : Usage :=
  if context.isLocal scope found.name then usage
  else if isCertain && context.imports.contains found.name then
    { usage with illegalWrite := usage.illegalWrite.or (some found) }
  else { usage with modifies := pushNew usage.modifies found.name }

/-- The name of a declared function or class. -/
def nameDeclared (usage : Usage) (found : Occurrence) : Usage :=
  if context.isModuleLevel scope found.name then
    { usage with
      references := usage.references ++ [⟨found.span, found.name, false⟩] }
  else usage

end UsageContext

namespace Node

/-- The names that a call may write: what is passed to a function can be changed
by it. -/
def passedNames (arguments : List Node) : List Occurrence :=
  arguments.flatMap fun argument =>
    match argument.shape with
    | .argument _ value => value.writtenNames
    | _ => []

/-- The names that a construct itself certainly writes. -/
def certainWrites (node : Node) : List Occurrence :=
  match node.shape with
  | .binary operator target _ =>
      if operator.isAssignment then target.writtenNames else []
  | .unary operator target =>
      if operator = .prefixIncrement ∨ operator = .prefixDecrement then
        target.writtenNames
      else []
  | .update _ target => target.writtenNames
  | .forIn (.assign pattern) _ _ | .forOf _ (.assign pattern) _ _ =>
      pattern.boundNames
  | _ => []

/-- The names that a construct itself possibly writes. -/
def possibleWrites (node : Node) : List Occurrence :=
  match node.shape with
  | .call _ _ arguments => passedNames arguments
  | _ => []

/-- The name that a node is. -/
def readName? (node : Node) : Option Occurrence :=
  match node.shape with
  | .ident name | .identPattern name => some ⟨name, node.span⟩
  | _ => none

/-- The name that a declaration gives to a function or class. -/
def nameOfDeclaration? (node : Node) : Option Occurrence :=
  match node.shape with
  | .funcDeclaration name _ | .classDeclaration name _ _ =>
      name.declaredName?
  | _ => none

/-- Whether a part of a node in some role is a shorthand property. -/
def partIsShorthand (node : Node) (role : Role) : Bool :=
  match node.shape with
  | .shorthandProperty _ => true
  | .patternProperty _ _ true _ => role = .pattern
  | _ => false

end Node

namespace Usage

variable (context : UsageContext)

/-- Meets the scope that a construct opens, if it opens one. -/
def enter (usage : Usage) (scope : Nat) (new : Option NewScope) :
    Nat × Usage :=
  if new.isSome then
    let inner := usage.scopesSeen + 1
    (inner, { usage with scopesSeen := inner })
  else (scope, usage)

/-- Walks through a node within a scope. -/
def visit (isShorthand : Bool) (scope : Nat) (node : Node) (usage : Usage) :
    Usage :=
  let (inner, usage) := usage.enter scope (node.newScope? none)
  let usage := node.certainWrites.foldl (context.write inner true) usage
  let usage := node.possibleWrites.foldl (context.write inner false) usage
  let usage :=
    node.nameOfDeclaration?.toList.foldl (context.nameDeclared inner) usage
  let usage :=
    node.readName?.toList.foldl (context.read inner isShorthand) usage
  node.parts.attach.foldl
    (fun usage part =>
      visit (node.partIsShorthand part.1.1) inner part.1.2 usage) usage
termination_by sizeOf node
decreasing_by exact Node.sizeOf_lt_of_mem_parts part.2

/-- Walks through a top-level statement, before which some scopes were met. -/
def visitStatement (scopesSeen : Nat) (statement : Node) : Usage :=
  visit context false ScopeTree.root statement ⟨scopesSeen, [], [], [], none⟩

/-- The references in the order of the source. -/
def sortedReferences (usage : Usage) : List Reference :=
  usage.references.mergeSort fun left right =>
    left.span.start ≤ right.span.start

end Usage

end Bundler
