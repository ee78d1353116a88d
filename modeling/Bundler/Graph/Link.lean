import Bundler.Graph.Loader

/-!
# Linking

Imports are followed through re-exports to the definition behind them.  Linking
only looks at modules that are loaded; it stops where one is missing and says
which, so that it can be loaded and the search repeated.
-/

namespace Bundler

/-- What a name finally refers to. -/
inductive Binding
  /-- A top-level name, or the default slot, of a bundled module. -/
  | definition (module : Path) (name : String)
  /-- The object that holds the exports of a bundled module. -/
  | exportsOf (module : Path)
  | external (specifier : String) (name : ImportedName)
  deriving DecidableEq

/-- Where an import leads. -/
inductive Target
  | internal (module : Module)
  | external (specifier : String)

inductive LinkFailure
  /-- A module has not been loaded yet. -/
  | unloaded (path : Path)
  | refused (error : BundleError)

namespace LinkFailure

/-- Whether a failure says that no export of a name was found. -/
def isMissingExport : LinkFailure → Bool
  | .refused (.missingExport _ _ _) => true
  | _ => false

end LinkFailure

namespace Loader

variable (loader : Loader)

/-- The module at a path, which has to be loaded. -/
def module (path : Path) : Except LinkFailure Module :=
  match loader.find? path with
  | none => .error (.unloaded path)
  | some (.error error) => .error (.refused error)
  | some (.ok module) => .ok module

/-- Where a source leads from a module. -/
def target (module : Module) (source : String) : Except LinkFailure Target :=
  let dependency := (module.dependency? source).getD
    (Module.resolve loader.resolver module.path source)
  match dependency with
  | .internal path => (loader.module path).map .internal
  | .external specifier => .ok (.external specifier)

end Loader

/-- A search through exports, which keeps the pairs of a module and a name that
it has come by. -/
abbrev Search := EStateM LinkFailure (List (Path × String))

namespace Search

variable {α : Type}

def ofExcept : Except LinkFailure α → Search α
  | .ok value => return value
  | .error failure => throw failure

/-- Runs a search whose failure to find an export does not matter. -/
def orMissing (search : Search α) : Search (Option α) := fun visited =>
  match search visited with
  | .ok value visited => .ok (some value) visited
  | .error failure visited =>
      if failure.isMissingExport then .ok none visited
      else .error failure visited

/-- The outcome of a search that starts now. -/
def outcome (search : Search α) : Except LinkFailure α :=
  match search [] with
  | .ok value _ => .ok value
  | .error failure _ => .error failure

end Search

namespace Loader

variable (loader : Loader)

/-- What a name of a module refers to.  `find` looks for the export of another
module on behalf of this one. -/
def followName (find : Module → String → Path → Search Binding)
    (module : Module) (name : String) : Search Binding := do
  match module.imports.get? name with
  | none => return .definition module.path name
  | some imported =>
      match ← Search.ofExcept (loader.target module imported.source) with
      | .external specifier => return .external specifier imported.name
      | .internal dependency =>
          match imported.name.exportName? with
          | none => return .exportsOf dependency.path
          | some exported => find dependency exported module.path

/-- Looks for an export among the star exports of a module, in their order.  Only
if none of the bundled ones has it, it is taken to come from the first module
that is not bundled. -/
def searchStars (find : Module → Search Binding) (module : Module)
    (name : String) (missing : LinkFailure) :
    Option String → List String → Search Binding
  | none, [] => throw missing
  | some specifier, [] => return .external specifier (.named name)
  | fallback, source :: sources => do
      match ← Search.ofExcept (loader.target module source) with
      | .external specifier =>
          searchStars find module name missing
            (fallback.or (some specifier)) sources
      | .internal dependency =>
          match ← Search.orMissing (find dependency) with
          | some binding => return binding
          | none => searchStars find module name missing fallback sources

/-- What a module exports under a name, as asked for by an importer.  The search
makes at most `steps` steps from module to module.  Coming by the same export
again leads nowhere, and star exports do not pass on a default export. -/
def searchExport : Nat → Module → String → Path → Search Binding
  | 0, module, _, _ => throw (.refused (.unsettled module.path))
  | steps + 1, module, name, importer => do
      let missing : LinkFailure :=
        .refused (.missingExport module.path importer name)
      if (← get).contains (module.path, name) then throw missing
      modify ((module.path, name) :: ·)
      match module.exports.get? name with
      | some exported =>
          loader.followName (searchExport steps) module exported.localName
      | none =>
          if name = defaultSlot then throw missing
          else
            let find := fun dependency =>
              searchExport steps dependency name module.path
            loader.searchStars find module name missing none module.starSources

/-- A bound on the steps of a search: it comes by each module once at most for
the name that it started with and for every name that is imported somewhere. -/
def searchBound : Nat :=
  let imports := loader.modules.map (·.imports.entries.length)
  (loader.loaded.length + 1) * (imports.foldr (· + ·) 0 + 2)

/-- What a module exports under a name, as asked for by an importer. -/
def resolveExport (module : Module) (name : String) (importer : Path) :
    Except LinkFailure Binding :=
  (loader.searchExport loader.searchBound module name importer).outcome

/-- What a name of a module refers to. -/
def resolveName (module : Module) (name : String) :
    Except LinkFailure Binding :=
  (loader.followName (loader.searchExport loader.searchBound) module
    name).outcome

/-- The names found so far, and the modules visited for them. -/
structure ExportNames where
  names : List String
  visited : List Path

/-- Adds the names that a module exports: its own ones, then those of its star
exports, which do not pass on a default export. -/
def collectExports : Nat → Bool → Module → ExportNames →
    Except LinkFailure ExportNames
  | 0, _, module, _ => .error (.refused (.unsettled module.path))
  | steps + 1, withDefault, module, found =>
      if found.visited.contains module.path then .ok found
      else
        let own := module.exports.keys.filter fun name =>
          withDefault || name ≠ defaultSlot
        let found : ExportNames :=
          ⟨own.foldl pushNew found.names, module.path :: found.visited⟩
        module.starSources.foldlM
          (fun found source => do
            match ← loader.target module source with
            | .external _ => return found
            | .internal dependency =>
                collectExports steps false dependency found)
          found

/-- Every name that a module exports, except for those behind star exports of
modules that are not bundled, which are unknown. -/
def exportNames (module : Module) : Except LinkFailure (List String) := do
  let found ←
    loader.collectExports (loader.loaded.length + 1) true module ⟨[], []⟩
  return found.names

end Loader

end Bundler
