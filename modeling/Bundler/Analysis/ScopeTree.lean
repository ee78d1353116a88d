import Bundler.NameMap

/-!
# Scope trees

All scopes of one module, numbered in the order of their creation.  The first
one is the module's top level, and every other one lies within a scope that was
created before it, which is what searches go by.
-/

namespace Bundler

/-- A region of a program in which names are bound.  A block does not hold
names that are declared for the whole function around it. -/
structure Scope where
  parent : Option Nat
  names : List String
  isBlock : Bool
  depth : Nat

structure ScopeTree where
  scopes : Array Scope

namespace ScopeTree

/-- The number of the top level. -/
def root : Nat := 0

/-- The tree of a module without functions and blocks. -/
def initial : ScopeTree := ⟨#[⟨none, [], false, 0⟩]⟩

def size (tree : ScopeTree) : Nat := tree.scopes.size

def get? (tree : ScopeTree) (id : Nat) : Option Scope := tree.scopes[id]?

def depth (tree : ScopeTree) (id : Nat) : Nat :=
  ((tree.get? id).map (·.depth)).getD 0

/-- Whether a scope itself binds a name. -/
def contains (tree : ScopeTree) (id : Nat) (name : String) : Bool :=
  (tree.get? id).any (·.names.contains name)

/-- A new scope within another one, in which parameters are bound, and its
number. -/
def create (tree : ScopeTree) (parent : Nat) (parameters : List String)
    (isBlock : Bool) : Nat × ScopeTree :=
  let names := parameters.foldl pushNew []
  let scope := ⟨some parent, names, isBlock, tree.depth parent + 1⟩
  (tree.size, ⟨tree.scopes.push scope⟩)

/-- The nearest scope from one on outwards that is no block. -/
def functionScope (tree : ScopeTree) (id : Nat) : Nat :=
  match tree.get? id with
  | none => id
  | some scope =>
      if scope.isBlock then
        match scope.parent with
        | none => id
        | some parent => if parent < id then tree.functionScope parent else id
      else id
termination_by id

/-- Binds a name in a scope. -/
def bind (tree : ScopeTree) (id : Nat) (name : String) : ScopeTree :=
  ⟨tree.scopes.modify id fun scope =>
    { scope with names := pushNew scope.names name }⟩

/-- Declares a name, and gives the number of the scope it is bound in: the
given one, or the function around it if the name is not block scoped. -/
def declare (tree : ScopeTree) (id : Nat) (name : String)
    (isBlockScoped : Bool) : Nat × ScopeTree :=
  let home := if isBlockScoped then id else tree.functionScope id
  (home, tree.bind home name)

/-- The nearest scope from one on outwards that binds a name. -/
def findScope? (tree : ScopeTree) (id : Nat) (name : String) : Option Nat :=
  match tree.get? id with
  | none => none
  | some scope =>
      if scope.names.contains name then some id
      else
        match scope.parent with
        | none => none
        | some parent =>
            if parent < id then tree.findScope? parent name else none
termination_by id

/-- The names bound at the top level. -/
def rootNames (tree : ScopeTree) : List String :=
  ((tree.get? root).map (·.names)).getD []

/-- The names bound in functions and blocks, once for each scope. -/
def nestedNames (tree : ScopeTree) : List String :=
  (tree.scopes.toList.drop 1).flatMap (·.names)

end ScopeTree

end Bundler
