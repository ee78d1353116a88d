import Bundler.Analysis.Occurrence
import Bundler.NameMap
import Bundler.Source.CharClass
import Bundler.Source.Text

/-!
# Module interfaces

What a module imports and exports, read off its top-level statements.

Two pseudo names stand for values that have no name in the source: `default`
for the value of a default export, and `*` for the object that holds all
exports of a module.  What a module exports from another module without binding
it is an import as well, under a key that no source can contain.
-/

namespace Bundler

/-- The pseudo name of the value of a default export. -/
def defaultSlot : String := "default"

/-- The pseudo name of the object that holds all exports of a module. -/
def namespaceSlot : String := "*"

/-- What of another module an import refers to. -/
inductive ImportedName
  | defaultExport
  | allExports
  | named (name : String)
  deriving DecidableEq

namespace ImportedName

def ofExportName (name : String) : ImportedName :=
  if name = defaultSlot then .defaultExport else .named name

/-- The name to look for among the exports of the other module, unless all of
them are meant. -/
def exportName? : ImportedName → Option String
  | .defaultExport => some defaultSlot
  | .allExports => none
  | .named name => some name

end ImportedName

structure Import where
  source : String
  name : ImportedName
  span : Span
  deriving DecidableEq

/-- An export; `localName` is a top-level name, a key of an import or the
default slot. -/
structure Export where
  localName : String
  span : Span
  deriving DecidableEq

/-- What a top-level statement is to the interface of its module. -/
inductive StatementKind
  | plain
  /-- An exported declaration; what is kept of it starts at the declaration. -/
  | exportedDeclaration (start : Nat)
  /-- A default export of a value, whose text starts at the given offset. -/
  | defaultValue (start : Nat)
  /-- An import; a bare one binds nothing. -/
  | importing (source : String) (isBare : Bool)
  | exportList
  deriving DecidableEq

namespace StatementKind

/-- Whether statements of this kind leave nothing in a bundle. -/
def isModuleSyntax : StatementKind → Bool
  | .importing _ _ | .exportList => true
  | _ => false

def isImport : StatementKind → Bool
  | .importing _ _ => true
  | _ => false

def isDefaultValue : StatementKind → Bool
  | .defaultValue _ => true
  | _ => false

end StatementKind

structure Interface where
  imports : NameMap Import
  /-- The exports by their exported names, in the order of the source. -/
  exports : NameMap Export
  /-- The sources whose exports are all exported. -/
  starSources : List String
  /-- All sources, in the order of their first appearance. -/
  sources : List String

namespace Interface

def empty : Interface := ⟨.empty, .empty, [], []⟩

variable (interface : Interface)

def addSource (source : String) : Interface :=
  { interface with sources := pushNew interface.sources source }

def addStar (source : String) : Interface :=
  { interface with starSources := pushNew interface.starSources source }

def addExport (exported localName : String) (span : Span) : Interface :=
  { interface with
    exports := interface.exports.insert exported ⟨localName, span⟩ }

/-- Binds a name to an import, or fails with the name if an import binds it
already. -/
def addImport (source : String) (name : ImportedName) (bound : Occurrence) :
    Except Occurrence Interface :=
  if interface.imports.contains bound.name then .error bound
  else
    let imports :=
      interface.imports.insert bound.name ⟨source, name, bound.span⟩
    .ok { interface with imports := imports }

/-- Binds the names of a pattern to an import. -/
def addImports (source : String) (name : ImportedName) (pattern : Node) :
    Except Occurrence Interface :=
  pattern.boundNames.foldlM (·.addImport source name ·) interface

/-- The key of an import that binds no name. -/
def passedOnKey (source : String) (name : ImportedName) : String :=
  source ++ "#" ++ name.exportName?.getD namespaceSlot

/-- Exports what another module exports, without binding it. -/
def passOn (source : String) (name : ImportedName) (exported : String)
    (span : Span) : Interface :=
  let key := passedOnKey source name
  let imports := interface.imports.insert key ⟨source, name, span⟩
  { interface with imports := imports }.addExport exported key span

def addImportItem (source : String) (item : Node) :
    Except Occurrence Interface :=
  match item.shape with
  | .importItem imported asName =>
      interface.addImports source (.ofExportName imported.text) asName
  | _ => .ok interface

/-- Adds an import statement. -/
def addImportStatement (defaultName : Option Node)
    (names : Option (ImportNames Node)) (source : String) :
    Except Occurrence Interface := do
  let interface := interface.addSource source
  let interface ←
    match defaultName with
    | none => pure interface
    | some pattern => interface.addImports source .defaultExport pattern
  match names with
  | none => return interface
  | some (.all asName) => interface.addImports source .allExports asName
  | some (.items items) => items.foldlM (·.addImportItem source ·) interface

/-- Whether an import statement binds nothing. -/
def isBareImport (defaultName : Option Node)
    (names : Option (ImportNames Node)) : Bool :=
  defaultName.isNone &&
    match names with
    | none => true
    | some (.all _) => false
    | some (.items items) => items.isEmpty

/-- Adds an item of an export clause, which names something of the module, or of
another one. -/
def addExportItem (source : Option String) (item : Node) : Interface :=
  match item.shape, source with
  | .exportItem exported asName, none =>
      interface.addExport asName.text exported.text item.span
  | .exportItem exported asName, some source =>
      interface.passOn source (.ofExportName exported.text) asName.text item.span
  | _, _ => interface

def addExportItems (items : List Node) (source : Option String) : Interface :=
  let start :=
    match source with
    | none => interface
    | some source => interface.addSource source
  items.foldl (·.addExportItem source ·) start

def addExportAll (asName : Option ClauseName) (source : String) (span : Span) :
    Interface :=
  let interface := interface.addSource source
  match asName with
  | none => interface.addStar source
  | some asName => interface.passOn source .allExports asName.text span

/-- Adds the names that an exported declaration declares. -/
def addDeclaration (isDefault : Bool) (declaration : Node) : Interface :=
  match declaration.shape with
  | .funcDeclaration name _ | .classDeclaration name _ _ =>
      match name.declaredName? with
      | none => interface
      | some declared =>
          let exported := if isDefault then defaultSlot else declared.name
          interface.addExport exported declared.name declared.span
  | .varDeclaration _ declarators =>
      (Node.declaredNames declarators).foldl
        (fun interface bound =>
          interface.addExport bound.name bound.name bound.span)
        interface
  | _ => interface

/-- Where the text of a default export starts.  Parentheses around the value
are no part of its range, so the text is what comes after the key word. -/
def defaultValueStart (text : List Char) (statement value : Span) : Nat :=
  let header := Text.slice text ⟨statement.start, value.start⟩
  match Text.find? defaultSlot.toList header with
  | none => value.start
  | some offset =>
      let start := statement.start + offset + defaultSlot.utf8ByteSize
      let rest := Text.slice text ⟨start, value.start⟩
      start + Text.byteLength (rest.takeWhile CharClass.isUnicodeSpace)

/-- Adds a top-level statement of a source, and tells of what kind it is.
Fails with the name that is imported twice. -/
def addStatement (text : List Char) (statement : Node) :
    Except Occurrence (StatementKind × Interface) :=
  match statement with
  | .mk _ (.importFrom defaultName names source) => do
      let interface ← interface.addImportStatement defaultName names source
      return (.importing source (isBareImport defaultName names), interface)
  | .mk _ (.exportItems items source) =>
      .ok (.exportList, interface.addExportItems items source)
  | .mk span (.exportAll asName source) =>
      .ok (.exportList, interface.addExportAll asName source span)
  | .mk span (.exportDefault value) =>
      .ok (.defaultValue (defaultValueStart text span value.span),
        interface.addExport defaultSlot defaultSlot span)
  | .mk _ (.exportDeclaration isDefault declaration) =>
      .ok (.exportedDeclaration declaration.span.start,
        interface.addDeclaration isDefault declaration)
  | _ => .ok (.plain, interface)

/-- The interface of a module, and the kinds of its statements. -/
def ofStatements (text : List Char) (statements : List Node) :
    Except Occurrence (List StatementKind × Interface) := do
  let (kinds, interface) ← statements.foldlM
    (fun (kinds, interface) statement => do
      let (kind, interface) ← interface.addStatement text statement
      return (kind :: kinds, interface))
    ([], empty)
  return (kinds.reverse, interface)

end Interface

end Bundler
