import Bundler.Analysis.Basic
import Bundler.Graph.Files
import Bundler.Identifier
import Bundler.Parser.Program

/-!
# Modules

A module is what is known of a file once its imports are resolved.  A module is
identified by its path.
-/

namespace Bundler

/-- What the source of an import leads to. -/
inductive Dependency
  | internal (path : Path)
  /-- A module that is not bundled. -/
  | external (specifier : String)
  deriving DecidableEq

structure Module extends Analysis where
  path : Path
  source : String
  /-- The sources of all imports with what they lead to. -/
  dependencies : List (String × Dependency)

namespace Module

variable (module : Module)

def imports : NameMap Import := module.interface.imports

def exports : NameMap Export := module.interface.exports

/-- The sources whose exports the module exports as well. -/
def starSources : List String := module.interface.starSources

/-- What a source leads to from a module. -/
def resolve (resolver : Resolver) (path : Path) (source : String) :
    Dependency :=
  match resolver.resolve source path with
  | some target => .internal target
  | none => .external source

def dependency? (source : String) : Option Dependency :=
  (module.dependencies.find? (·.1 = source)).map (·.2)

/-- A legal name that resembles the name of the file. -/
def stemName : String := Identifier.ofText module.path.stem

/-- The names that the module's own declarations and imports take. -/
def boundNames : List String := module.tree.rootNames ++ module.imports.keys

def binds (name : String) : Bool := module.boundNames.contains name

/-- Makes a module of the text of a file. -/
def ofSource (resolver : Resolver) (path : Path) (source : String) :
    Except BundleError Module := do
  let program ← (Program.parse source).mapError fun error =>
    let position := Position.ofOffset source.toList error.span.start
    .refused path error position
  let analysis ← Analysis.ofProgram path source program
  let dependencies := analysis.interface.sources.map fun specifier =>
    (specifier, resolve resolver path specifier)
  return {
    toAnalysis := analysis
    path := path
    source := source
    dependencies := dependencies }

end Module

end Bundler
