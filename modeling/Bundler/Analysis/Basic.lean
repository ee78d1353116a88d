import Bundler.Analysis.Effect
import Bundler.Analysis.Interface
import Bundler.Analysis.Layout
import Bundler.Analysis.Usage
import Bundler.Error

/-!
# Analysis of a module

Everything that is known of a module from its source alone, before its imports
are resolved: its interface, its scopes, and for every top-level statement what
it defines, reads and writes.
-/

namespace Bundler

/-- A top-level statement. -/
structure Statement where
  span : Span
  kind : StatementKind
  /-- The module-level names it declares. -/
  defines : List String
  /-- The names it writes. -/
  modifies : List String
  /-- The names it reads and does not declare itself. -/
  dependsOn : List String
  /-- All places where it names something outside its own scopes. -/
  references : List Reference
  layout : Layout
  isRemovable : Bool
  deriving DecidableEq

structure Analysis where
  tree : ScopeTree
  interface : Interface
  statements : List Statement
  /-- The first statement that defines a name. -/
  definitions : NameMap Nat
  /-- The statements that write a name. -/
  modifications : NameMap (List Nat)

namespace Analysis

/-- The first walk through all statements: the scopes, and the names that each
statement defines.  Imports hold no scopes, and their names are not
definitions. -/
def declareAll (statements : List (Node × StatementKind)) :
    ScopeTree × List (List String) :=
  let (tree, defines) := statements.foldl
    (fun (tree, defines) (statement, kind) =>
      if kind.isImport then (tree, [] :: defines)
      else
        let found := Declarations.visitStatement tree statement
        let own :=
          if kind.isDefaultValue then pushNew found.defines defaultSlot
          else found.defines
        (found.tree, own :: defines))
    (ScopeTree.initial, [])
  (tree, defines.reverse)

/-- What an import leaves to be found in the second walk. -/
def noUsage (scopesSeen : Nat) : Usage := ⟨scopesSeen, [], [], [], none⟩

/-- The second walk through all statements with the names that they define.  It
ends at the first statement that certainly writes an import. -/
def useAll (tree : ScopeTree) (imports : List String)
    (statements : List ((Node × StatementKind) × List String)) :
    Except Occurrence (List Usage) := do
  let (_, usages) ← statements.foldlM
    (fun (seen, usages) ((statement, kind), defines) =>
      if kind.isImport then .ok (seen, noUsage seen :: usages)
      else
        let found :=
          Usage.visitStatement ⟨tree, imports, defines⟩ seen statement
        match found.illegalWrite with
        | some written => .error written
        | none => .ok (found.scopesSeen, found :: usages))
    (0, [])
  return usages.reverse

/-- Whether something stands behind an export. -/
def isDefined (tree : ScopeTree) (interface : Interface)
    (defines : List (List String)) (exported : Export) : Bool :=
  if exported.localName = defaultSlot then
    defines.any (·.contains defaultSlot)
  else
    interface.imports.contains exported.localName ||
      tree.contains ScopeTree.root exported.localName

/-- The first export behind which there is nothing. -/
def undefinedExport? (tree : ScopeTree) (interface : Interface)
    (defines : List (List String)) : Option Export :=
  (interface.exports.entries.map (·.2)).find?
    (!isDefined tree interface defines ·)

/-- The first statement for each name, of statements that come with names. -/
def firstByName (statements : List (Nat × List String)) : NameMap Nat :=
  statements.foldl
    (fun map (id, names) =>
      names.foldl (fun map name => map.insertNew name id) map)
    .empty

/-- All statements for each name, of statements that come with names. -/
def allByName (statements : List (Nat × List String)) :
    NameMap (List Nat) :=
  statements.foldl
    (fun map (id, names) =>
      names.foldl
        (fun map name => map.insert name ((map.get? name).getD [] ++ [id])) map)
    .empty

/-- Puts together what is known of one statement. -/
def statementOf (node : Node) (kind : StatementKind) (defines : List String)
    (usage : Usage) (layout : Layout) : Statement :=
  { span := node.span
    kind := kind
    defines := defines
    modifies := usage.modifies
    dependsOn := usage.dependsOn
    references := usage.sortedReferences
    layout := layout
    isRemovable := node.isRemovable }

/-- Analyses the module at a path from its source and its syntax tree. -/
def ofProgram (path : Path) (source : String) (program : Program) :
    Except BundleError Analysis := do
  let text := source.toList
  let nodes := program.statements
  let place (span : Span) := Position.ofOffset text span.start
  let (kinds, interface) ←
    (Interface.ofStatements text nodes).mapError fun repeated =>
      .duplicateImport path repeated.name (place repeated.span)
  let statements := nodes.zip kinds
  let (tree, defines) := declareAll statements
  if let some missing := undefinedExport? tree interface defines then
    throw (.unresolvedExport path missing.localName (place missing.span))
  let usages ←
    (useAll tree interface.imports.keys (statements.zip defines)).mapError
      fun written =>
        .illegalReassignment path written.name (place written.span)
  let layouts :=
    Layout.ofStatements text (nodes.map (·.span)) program.comments
  let statements := (statements.zip (defines.zip (usages.zip layouts))).map
    fun ((node, kind), defines, usage, layout) =>
      statementOf node kind defines usage layout
  let numbered := (List.range statements.length).zip statements
  return {
    tree := tree
    interface := interface
    statements := statements
    definitions := firstByName (numbered.map fun (id, s) => (id, s.defines))
    modifications := allByName (numbered.map fun (id, s) => (id, s.modifies)) }

end Analysis

end Bundler
