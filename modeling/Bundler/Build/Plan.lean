import Bundler.Build.Output

/-!
# Build plans

What a build decided, without the text: which statements are kept and which
names are written differently.
-/

namespace Bundler

structure PlannedStatement where
  index : Nat
  defines : List String
  dependsOn : List String
  deriving DecidableEq

structure PlannedModule where
  path : Path
  statements : List PlannedStatement
  deriving DecidableEq

structure PlannedRename where
  module : Path
  name : String
  renamed : String
  deriving DecidableEq

structure BundlePlan where
  entry : Path
  /-- In the order in which they are written. -/
  modules : List PlannedModule
  externals : List ExternalInfo
  renames : List PlannedRename
  deriving DecidableEq

namespace Bundle

variable (bundle : Bundle)

def plannedModule (module : Module) : PlannedModule :=
  let statements := (keptIn bundle.statements module).filterMap fun id =>
    module.statements[id]?.map fun statement =>
      ⟨id, statement.defines, statement.dependsOn⟩
  ⟨module.path, statements⟩

def plannedRenames (module : Module) : List PlannedRename :=
  (bundle.names.renames module.path).map fun (name, renamed) =>
    ⟨module.path, name, renamed⟩

def plan : BundlePlan :=
  { entry := bundle.entry
    modules := bundle.modules.map bundle.plannedModule
    externals := bundle.externalInfos
    renames := bundle.modules.flatMap bundle.plannedRenames }

end Bundle

end Bundler
