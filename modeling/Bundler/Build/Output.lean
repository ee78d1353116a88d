import Bundler.Build.Bundle

/-!
# The text of a bundle

Each kept statement is written as its source has it, but for the names that are
written differently.  After the statements of a module comes the object that
holds its exports, if that is used.
-/

namespace Bundler

/-- A module that the bundle expects in a variable. -/
structure ExternalInfo where
  specifier : String
  name : String
  deriving DecidableEq

structure Output where
  code : String
  externals : List ExternalInfo
  /-- The exports with the expressions that they are written as. -/
  exports : List (String × String)
  deriving DecidableEq

/-- A statement of a bundle with its comments, and the blank lines wanted before
and after it. -/
structure Chunk where
  module : Path
  blankBefore : Nat
  blankAfter : Nat
  /-- The comments in front of the statement, each on lines of its own. -/
  leading : List Char
  statement : List Char
  /-- The comment behind the statement. -/
  trailing : List Char

def Chunk.text (chunk : Chunk) : List Char :=
  chunk.leading ++ chunk.statement ++ chunk.trailing

/-- A reference and what is written in its place. -/
structure Replacement where
  reference : Reference
  written : String

namespace Replacement

/-- A shorthand property keeps its name in front of what is written. -/
def text (replacement : Replacement) : String :=
  if replacement.reference.isShorthand then
    replacement.reference.name ++ ": " ++ replacement.written
  else replacement.written

/-- The text of a source from an offset to another, with replacements that do
not overlap and are in order. -/
def apply (source : List Char) (start stop : Nat) :
    List Replacement → List Char
  | [] => Text.slice source ⟨start, stop⟩
  | replacement :: others =>
      let span := replacement.reference.span
      Text.slice source ⟨start, span.start⟩ ++ replacement.text.toList ++
        apply source span.stop stop others

end Replacement

namespace Bundle

variable (bundle : Bundle)

/-- What a name in a module is written as. -/
def writtenName (module : Module) (name : String) :
    Except BundleError String :=
  if !module.imports.contains name then
    .ok (bundle.names.written module.path name)
  else
    match bundle.bindings.find? (·.1 = (module.path, name)) with
    | some (_, binding) => .ok (bundle.names.expression binding)
    | none =>
        match bundle.loader.resolveName module name with
        | .ok binding => .ok (bundle.names.expression binding)
        | .error (.refused error) => .error error
        | .error (.unloaded path) => .error (.unsettled path)

/-- The references from an offset to another that are written differently.  What
overlaps the one before is passed over. -/
def replacements (module : Module) (start stop : Nat) :
    List Reference → Except BundleError (List Replacement)
  | [] => .ok []
  | reference :: others => do
      let span := reference.span
      if span.start < start || stop < span.stop then
        replacements module start stop others
      else
        let written ← bundle.writtenName module reference.name
        if written = reference.name then
          replacements module start stop others
        else
          let others ← replacements module span.stop stop others
          return ⟨reference, written⟩ :: others

/-- The text of a default export without what white space it ends in, and with a
semicolon. -/
def terminated (text : List Char) : List Char :=
  let text := CharClass.trimEnd text
  if text.getLast? = some ';' then text else text ++ [';']

/-- Where the part of a statement starts that is kept. -/
def keptStart (statement : Statement) : Nat :=
  match statement.kind with
  | .exportedDeclaration start | .defaultValue start => start
  | _ => statement.span.start

/-- The text of a statement in the bundle. -/
def statementText (module : Module) (statement : Statement) :
    Except BundleError (List Char) := do
  let start := keptStart statement
  let stop := statement.span.stop
  let found ←
    bundle.replacements module start stop statement.references
  let text := Replacement.apply module.source.toList start stop found
  if statement.kind.isDefaultValue then
    let name := bundle.names.written module.path defaultSlot
    return terminated (("var " ++ name ++ " = ").toList ++ text)
  else return text

/-- The text of a comment of a module. -/
def commentText (module : Module) (comment : Comment) : List Char :=
  Text.slice module.source.toList comment.span

/-- A statement with its comments. -/
def statementChunk (module : Module) (statement : Statement) :
    Except BundleError Chunk := do
  let text ← bundle.statementText module statement
  let layout := statement.layout
  let (leading, trailing) :=
    if bundle.options.comments then (layout.leading, layout.trailing.toList)
    else ([], [])
  return {
    module := module.path
    blankBefore := layout.blankBefore
    blankAfter := layout.blankAfter
    leading := leading.flatMap fun comment =>
      commentText module comment ++ ['\n']
    statement := text
    trailing := trailing.flatMap fun comment =>
      ' ' :: commentText module comment }

/-- A property that yields an export. -/
def getter (exported : String × Binding) : String :=
  let key :=
    if Identifier.isName exported.1 then exported.1
    else Identifier.quote exported.1
  "  get " ++ key ++ " () \x7b return " ++
    bundle.names.expression exported.2 ++ "; \x7d"

/-- The object that holds the exports of a module. -/
def namespaceChunk (module : Module) (exports : List (String × Binding)) :
    Chunk :=
  let name := bundle.names.written module.path namespaceSlot
  let body :=
    if exports.isEmpty then ""
    else "\n" ++ ",\n".intercalate (exports.map bundle.getter) ++ "\n"
  let text := "var " ++ name ++ " = \x7b" ++ body ++ "\x7d;"
  ⟨module.path, 0, 0, [], text.toList, []⟩

/-- The chunks of a module. -/
def moduleChunks (module : Module) : Except BundleError (List Chunk) := do
  let kept := (keptIn bundle.statements module).filterMap
    (module.statements[·]?)
  let visible := kept.filter (!·.kind.isModuleSyntax)
  let statements ← visible.mapM (bundle.statementChunk module)
  match bundle.namespaces.find? (·.1 = module.path) with
  | none => return statements
  | some (_, exports) =>
      return statements ++ [bundle.namespaceChunk module exports]

/-- The line breaks between two chunks. -/
def lineBreaks (before after : Chunk) : Nat :=
  if bundle.options.margins && before.module = after.module then
    max before.blankAfter after.blankBefore + 1
  else 1

/-- Chunks one after the other. -/
def join : List Chunk → List Char
  | [] => []
  | [last] => last.text
  | before :: after :: others =>
      before.text ++ List.replicate (bundle.lineBreaks before after) '\n' ++
        join (after :: others)

/-- The modules that are not bundled, with their variables. -/
def externalInfos : List ExternalInfo :=
  bundle.externals.map fun specifier =>
    ⟨specifier, bundle.names.writtenExternal specifier⟩

/-- Writes a bundle. -/
def generate : Except BundleError Output := do
  let chunks ← bundle.modules.mapM bundle.moduleChunks
  let code := bundle.join chunks.flatten
  let code := if code.isEmpty then code else code ++ ['\n']
  return {
    code := String.ofList code
    externals := bundle.externalInfos
    exports := bundle.exports.map fun (exported, binding) =>
      (exported, bundle.names.expression binding) }

end Bundle

end Bundler
