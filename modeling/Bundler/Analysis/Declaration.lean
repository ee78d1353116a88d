import Bundler.Analysis.Occurrence
import Bundler.Analysis.ScopeTree

/-!
# Declarations

The first walk through a module creates its scopes, in the order in which the
constructs that open them stand in the source, and binds every declared name in
the scope it belongs to.  Along the way it collects the names that each
top-level statement declares for the whole module.
-/

namespace Bundler

/-- What a construct binds when it opens a scope. -/
structure NewScope where
  parameters : List String
  isBlock : Bool

namespace Node

/-- The names that the pattern of a parameter binds. -/
def parameterNames (node : Node) : List String :=
  match node.shape with
  | .parameter _ pattern _ => pattern.boundNames.map (·.name)
  | _ => []

/-- The text of the name of a function or class. -/
def declaredText? (node : Node) : Option String :=
  node.declaredName?.map (·.name)

/-- The scope that a construct opens for its parts.  `ownName` is the name that
a function expression has within itself. -/
def newScope? (ownName : Option String) (node : Node) : Option NewScope :=
  match node.shape with
  | .block _ | .forIn _ _ _ | .forOf _ _ _ _ | .forLoop _ _ _ _
  | .switch _ _ => some ⟨[], true⟩
  | .catchClause caught _ =>
      let names := caught.toList.flatMap fun pattern =>
        pattern.boundNames.map (·.name)
      some ⟨names, true⟩
  | .classExpr (some name) _ _ => some ⟨name.declaredText?.toList, true⟩
  | .func _ _ _ parameters _ =>
      some ⟨parameters.flatMap parameterNames ++ ownName.toList, false⟩
  | _ => none

/-- The names that a construct itself declares, and whether they are block
scoped. -/
def declarations (node : Node) : List (String × Bool) :=
  match node.shape with
  | .funcDeclaration name _ | .classDeclaration name _ _ =>
      name.declaredText?.toList.map (·, false)
  | .forIn (.declare kind pattern) _ _
  | .forOf _ (.declare kind pattern) _ _ =>
      pattern.boundNames.map (·.name, kind.isBlockScoped)
  | .varDeclaration kind declarators =>
      (declaredNames declarators).map (·.name, kind.isBlockScoped)
  | _ => []

/-- The name that a function expression gives to its function. -/
def ownName? (node : Node) : Option String :=
  match node.shape with
  | .funcExpr name _ => name.bind declaredText?
  | _ => none

end Node

/-- The scopes created so far, and the module-level names that the statement at
hand declares. -/
structure Declarations where
  tree : ScopeTree
  defines : List String

namespace Declarations

/-- Opens a scope for the parts of a construct, unless it opens none. -/
def enter (state : Declarations) (scope : Nat) (new : Option NewScope) :
    Nat × Declarations :=
  match new with
  | none => (scope, state)
  | some new =>
      let (inner, tree) := state.tree.create scope new.parameters new.isBlock
      (inner, { state with tree := tree })

/-- Declares a name in a scope. -/
def declare (scope : Nat) (state : Declarations)
    (declared : String × Bool) : Declarations :=
  let (home, tree) := state.tree.declare scope declared.1 declared.2
  let defines :=
    if home = ScopeTree.root then pushNew state.defines declared.1
    else state.defines
  ⟨tree, defines⟩

/-- Walks through a node within a scope. -/
def visit (ownName : Option String) (scope : Nat) (node : Node)
    (state : Declarations) : Declarations :=
  let (inner, state) := state.enter scope (node.newScope? ownName)
  let state := node.declarations.foldl (declare inner) state
  node.parts.attach.foldl
    (fun state part => visit node.ownName? inner part.1.2 state) state
termination_by sizeOf node
decreasing_by exact Node.sizeOf_lt_of_mem_parts part.2

/-- Walks through a top-level statement. -/
def visitStatement (tree : ScopeTree) (statement : Node) : Declarations :=
  visit none ScopeTree.root statement ⟨tree, []⟩

end Declarations

end Bundler
