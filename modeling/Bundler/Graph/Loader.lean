import Bundler.Graph.Module

/-!
# Loading

A loader reads, parses and analyses each module once and keeps the outcome, also
when it is an error.  Paths that make the same steps name the same module, which
is known by the path it was first asked for by.
-/

namespace Bundler

structure Loader where
  files : Files
  resolver : Resolver
  /-- The outcomes for all paths asked for so far, in that order. -/
  loaded : List (Path × Except BundleError Module)
  /-- The modules whose imports have been followed. -/
  followed : List Path

namespace Loader

def ofFiles (files : Files) (resolver : Resolver) : Loader :=
  ⟨files, resolver, [], []⟩

/-- A number that the modules which can be loaded do not exceed.  Each has a
file of its own, or an absolute path that some source spells out, or is one
that the resolver redirects to. -/
def capacity (loader : Loader) : Nat :=
  loader.files.bound + loader.resolver.redirects.length + 2

/-- The outcome for a path, if it was asked for. -/
def find? (loader : Loader) (path : Path) :
    Option (Except BundleError Module) :=
  (loader.loaded.find? (·.1.same path)).map (·.2)

/-- Reads a module. -/
def readModule (loader : Loader) (path : Path) : Except BundleError Module :=
  match loader.files.read path with
  | .error reason => .error (.unreadable path reason)
  | .ok source => Module.ofSource loader.resolver path source

/-- The modules loaded without an error. -/
def modules (loader : Loader) : List Module :=
  loader.loaded.filterMap fun (_, outcome) => outcome.toOption

/-- The path that a specifier leads to; without an importer it is a path. -/
def resolve (loader : Loader) (specifier : String) (importer : Option Path) :
    Option Path :=
  match importer with
  | none => some ⟨specifier⟩
  | some importer => loader.resolver.resolve specifier importer

end Loader

abbrev Loading := EStateM BundleError Loader

namespace Loading

def ofOutcome : Except BundleError Module → Loading Module
  | .ok module => return module
  | .error error => throw error

/-- The module at a path, which is read if it has not been asked for before. -/
def load (path : Path) : Loading Module := do
  let loader ← get
  match loader.find? path with
  | some outcome => ofOutcome outcome
  | none =>
      let outcome := loader.readModule path
      set { loader with loaded := loader.loaded ++ [(path, outcome)] }
      ofOutcome outcome

/-- Loads everything that a module imports, each dependency with its own before
the next, in at most `steps` levels.  Imports are followed once. -/
def follow : Nat → Module → Loading Unit
  | 0, module => throw (.unsettled module.path)
  | steps + 1, module => do
      let loader ← get
      if loader.followed.any (·.same module.path) then return
      set { loader with followed := module.path :: loader.followed }
      module.dependencies.forM fun (_, dependency) => do
        match dependency with
        | .external _ => return
        | .internal path => follow steps (← load path)

/-- The module at a path with everything it imports. -/
def loadGraph (path : Path) : Loading Module := do
  let module ← load path
  follow ((← get).capacity + 1) module
  return module

end Loading

end Bundler
