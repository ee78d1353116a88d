import Bundler.Graph.Link

/-!
# Order of modules

Modules are written in the order in which a walk through the imports leaves
them: each after the modules it imports, unless imports go in a circle.
-/

namespace Bundler

/-- A walk through the imports of modules. -/
structure ModuleWalk where
  entered : List Path
  /-- The modules left so far. -/
  modules : List Module
  /-- The modules met that are not bundled. -/
  externals : List String

namespace ModuleWalk

variable (loader : Loader)

def start : ModuleWalk := ⟨[], [], []⟩

/-- Walks through the imports of a module in their order and leaves it; `steps`
bounds how deep the walk goes. -/
def visit : Nat → Module → ModuleWalk → Except LinkFailure ModuleWalk
  | 0, module, _ => .error (.refused (.unsettled module.path))
  | steps + 1, module, walk => do
      let entered := { walk with entered := module.path :: walk.entered }
      let walk ← module.dependencies.foldlM
        (fun walk (_, dependency) =>
          match dependency with
          | .external specifier =>
              .ok { walk with externals := pushNew walk.externals specifier }
          | .internal path => do
              let dependency ← loader.module path
              if walk.entered.contains dependency.path then return walk
              else visit steps dependency walk)
        entered
      return { walk with modules := walk.modules ++ [module] }

/-- The walk from the entry module. -/
def ofEntry (entry : Module) : Except LinkFailure ModuleWalk :=
  visit loader (loader.loaded.length + 1) entry start

end ModuleWalk

end Bundler
