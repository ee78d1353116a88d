import Bundler.Build.Deconflict
import Bundler.Build.Order
import Bundler.Build.Session

/-!
# Bundles

A bundle is a settled build: the modules in their order, the statements that
are kept, and what every name is written as.  Its text is not written yet.
-/

namespace Bundler

structure BundleOptions where
  /-- The exports of the entry module to keep; all, if not given. -/
  exports : Option (List String)
  /-- Whether the comments of statements are kept. -/
  comments : Bool
  /-- Whether blank lines between statements of a module are kept. -/
  margins : Bool

namespace BundleOptions

def standard : BundleOptions := ⟨none, true, false⟩

end BundleOptions

structure Bundle where
  options : BundleOptions
  loader : Loader
  entry : Path
  /-- The modules in the order in which they are written. -/
  modules : List Module
  /-- The modules that are not bundled. -/
  externals : List String
  /-- The kept statements in the order in which they are written. -/
  statements : List StatementId
  /-- The modules whose exports are used as an object, with the exports. -/
  namespaces : List (Path × List (String × Binding))
  bindings : List ((Path × String) × Binding)
  /-- The kept exports of the entry module. -/
  exports : List (String × Binding)
  names : Names

namespace Bundle

/-- The numbers of the included statements of a module, in source order. -/
def keptIn (included : List StatementId) (module : Module) : List Nat :=
  let own := included.filter (·.1 = module.path)
  (own.map (·.2)).mergeSort

/-- The included statements, module by module and in source order. -/
def inOrder (modules : List Module) (included : List StatementId) :
    List StatementId :=
  modules.flatMap fun module =>
    (keptIn included module).map (module.path, ·)

/-- The statements of modules with the numbers given. -/
def withContents (modules : List Module) (included : List StatementId) :
    List (Module × Statement) :=
  modules.flatMap fun module =>
    (keptIn included module).filterMap fun id =>
      module.statements[id]?.map (module, ·)

/-- Builds the bundle of an entry module whose graph is loaded. -/
def assemble (options : BundleOptions) (entry : Module) (loader : Loader) :
    Shaking Bundle := do
  let walk ← Shaking.ofExcept (ModuleWalk.ofEntry loader entry)
  let exports ← Shaking.shake loader entry options.exports
  let shaker ← get
  let context : NameContext :=
    { modules := walk.modules
      statements := withContents walk.modules shaker.included
      namespaces := shaker.namespaces.map (·.1)
      externals := walk.externals }
  return {
    options := options
    loader := loader
    entry := entry.path
    modules := walk.modules
    externals := walk.externals
    statements := inOrder walk.modules shaker.included
    namespaces := shaker.namespaces
    bindings := shaker.bindings
    exports := exports
    names := shaker.names.deconflict context }

/-- The path of an entry module, which has the extension of a script. -/
def entryPath (entry : Path) : Path :=
  let path := entry.normalize
  if path.isScript then path else path.withScriptExtension

/-- Builds the bundle of the module at a path in a session. -/
def prepare (options : BundleOptions) (entry : Path) : Work Bundle := do
  let module ← Work.loadGraph (entryPath entry)
  Work.shaking (assemble options module)

/-- Builds the bundle of the module at a path. -/
def build (files : Files) (resolver : Resolver) (options : BundleOptions)
    (entry : Path) : Except BundleError Bundle :=
  match prepare options entry (Session.ofFiles files resolver) with
  | .ok bundle _ => .ok bundle
  | .error error _ => .error error

/-- The paths that are read to build the bundle of the module at a path. -/
def reads (files : Files) (resolver : Resolver) (options : BundleOptions)
    (entry : Path) : List Path :=
  match prepare options entry (Session.ofFiles files resolver) with
  | .ok _ session | .error _ session => session.loader.loaded.map (·.1)

end Bundle

end Bundler
