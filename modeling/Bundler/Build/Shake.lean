import Bundler.Build.Names

/-!
# Shaking

From the statements that must run in any case and from the requested exports,
every statement that is needed is reached: what gives the names that a
statement reads their values, what changes the names that it defines, and all
that is behind the exports of a module whose exports are used as an object.
-/

namespace Bundler

inductive StatementState
  /-- What the statement reads is being included. -/
  | inProgress
  | included
  deriving DecidableEq

/-- A top-level statement of a module, by its number. -/
abbrev StatementId := Path × Nat

structure Shaker where
  /-- The statements met so far. -/
  started : List StatementId
  /-- The statements included so far, in that order. -/
  included : List StatementId
  /-- The modules whose exports are used as an object, with the exports. -/
  namespaces : List (Path × List (String × Binding))
  /-- The modules whose effects are included. -/
  seeded : List Path
  /-- What the imports that were met refer to. -/
  bindings : List ((Path × String) × Binding)
  names : Names

/-- Something that a bundle needs. -/
inductive Need
  | statement (module : Path) (id : Nat)
  /-- The object that holds the exports of a module. -/
  | exportsOf (module : Path)

abbrev Shaking := EStateM LinkFailure Shaker

namespace Shaker

def ofNames (names : Names) : Shaker := ⟨[], [], [], [], [], names⟩

def state? (shaker : Shaker) (statement : StatementId) :
    Option StatementState :=
  if shaker.included.contains statement then some .included
  else if shaker.started.contains statement then some .inProgress
  else none

def binding? (shaker : Shaker) (module : Path) (name : String) :
    Option Binding :=
  (shaker.bindings.find? (·.1 = (module, name))).map (·.2)

/-- Adds an export to those of a module whose exports are used. -/
def addExport (shaker : Shaker) (module : Path) (exported : String)
    (binding : Binding) : Shaker :=
  let namespaces := shaker.namespaces.map fun (path, exports) =>
    if path = module then (path, exports ++ [(exported, binding)])
    else (path, exports)
  { shaker with namespaces := namespaces }

end Shaker

namespace Shaking

variable (loader : Loader)

def ofExcept {α : Type} : Except LinkFailure α → Shaking α
  | .ok value => return value
  | .error failure => throw failure

/-- The slot that an import of everything or of the default export refers to. -/
def slot? : ImportedName → Option String
  | .defaultExport => some defaultSlot
  | .allExports => some namespaceSlot
  | .named _ => none

/-- Suggests the name of an import for the slot it refers to.  A key that is no
name suggests nothing. -/
def suggestName (module : Module) (name : String) : Shaking Unit := do
  match module.imports.get? name with
  | none => return
  | some imported =>
      if name.toList.contains '#' then return
      match slot? imported.name with
      | none => return
      | some slot =>
          match ← ofExcept (loader.target module imported.source) with
          | .internal dependency =>
              modify fun shaker => { shaker with
                names := shaker.names.suggest dependency.path slot name }
          | .external specifier =>
              modify fun shaker => { shaker with
                names := shaker.names.suggestExternal specifier slot name }

/-- What an import of a module refers to, which is looked up once. -/
def importBinding (module : Module) (name : String) : Shaking Binding := do
  match (← get).binding? module.path name with
  | some binding => return binding
  | none =>
      let binding ← ofExcept (loader.resolveName module name)
      suggestName loader module name
      modify fun shaker => { shaker with
        bindings := ((module.path, name), binding) :: shaker.bindings }
      return binding

/-- Includes the statement that defines a name of a module, if there is one. -/
def includeDefinition (meet : Need → Shaking Unit) (module : Module)
    (name : String) : Shaking Unit :=
  match module.definitions.get? name with
  | none => return
  | some id => meet (.statement module.path id)

def includeBinding (meet : Need → Shaking Unit) : Binding → Shaking Unit
  | .definition path name => do
      includeDefinition meet (← ofExcept (loader.module path)) name
  | .exportsOf path => meet (.exportsOf path)
  | .external _ _ => return

/-- Includes what gives a name its value in a module.  Unknown names are
global. -/
def includeName (meet : Need → Shaking Unit) (module : Module)
    (name : String) : Shaking Unit := do
  if module.imports.contains name then
    includeBinding loader meet (← importBinding loader module name)
  else includeDefinition meet module name

/-- Includes a statement after what it reads and before what changes the names
that it defines.  A statement that was met before is left alone, also if it is
still in progress. -/
def includeStatement (meet : Need → Shaking Unit) (path : Path) (id : Nat) :
    Shaking Unit := do
  if (← get).started.contains (path, id) then return
  modify fun shaker => { shaker with
    started := (path, id) :: shaker.started }
  let module ← ofExcept (loader.module path)
  match module.statements[id]? with
  | none => return
  | some statement =>
      statement.dependsOn.forM (includeName loader meet module)
      modify fun shaker => { shaker with
        included := shaker.included ++ [(path, id)] }
      statement.defines.forM fun name =>
        ((module.modifications.get? name).getD []).forM fun id =>
          meet (.statement path id)

/-- Includes everything behind the exports of a module, once. -/
def includeExports (meet : Need → Shaking Unit) (path : Path) :
    Shaking Unit := do
  if (← get).namespaces.any (·.1 = path) then return
  modify fun shaker => { shaker with
    namespaces := shaker.namespaces ++ [(path, [])] }
  let module ← ofExcept (loader.module path)
  let names ← ofExcept (loader.exportNames module)
  names.forM fun name => do
    let binding ← ofExcept (loader.resolveExport module name path)
    includeBinding loader meet binding
    modify (·.addExport path name binding)

/-- Meets a need, through at most `steps` others. -/
def meet : Nat → Need → Shaking Unit
  | 0, .statement path _ | 0, .exportsOf path =>
      throw (.refused (.unsettled path))
  | steps + 1, .statement path id =>
      includeStatement loader (meet steps) path id
  | steps + 1, .exportsOf path => includeExports loader (meet steps) path

/-- A bound on the needs that follow from each other: each statement and each
module comes up once at most. -/
def needBound : Nat :=
  let statements := loader.modules.map (·.statements.length)
  statements.foldr (· + ·) 0 + loader.modules.length + 2

/-- Includes a statement with all it needs. -/
def expand (module : Module) (id : Nat) : Shaking Unit :=
  meet loader (needBound loader) (.statement module.path id)

/-- Includes the statements of a module that must run whether used or not, and
those of the modules that it imports for nothing else. -/
def seedEffects : Nat → Module → Shaking Unit
  | 0, module => throw (.refused (.unsettled module.path))
  | steps + 1, module => do
      if (← get).seeded.contains module.path then return
      modify fun shaker => { shaker with
        seeded := module.path :: shaker.seeded }
      let numbered :=
        (List.range module.statements.length).zip module.statements
      numbered.forM fun (id, statement) =>
        match statement.kind with
        | .importing _ false | .exportList => return
        | .importing source true => do
            match ← ofExcept (loader.target module source) with
            | .internal dependency => seedEffects steps dependency
            | .external _ => return
        | _ =>
            if statement.isRemovable then return
            else expand loader module id

def includeEffects (module : Module) : Shaking Unit :=
  seedEffects loader (loader.loaded.length + 1) module

/-- Includes what is behind an export of the entry module. -/
def includeExport (entry : Module) (name : String) : Shaking Binding := do
  let binding ←
    ofExcept (loader.resolveExport entry name entry.path)
  includeBinding loader (meet loader (needBound loader)) binding
  return binding

/-- Includes everything that the entry module needs and yields its exports: the
requested ones, or all of them. -/
def shake (entry : Module) (requested : Option (List String)) :
    Shaking (List (String × Binding)) := do
  includeEffects loader entry
  let names ←
    match requested with
    | some names => pure names
    | none => ofExcept (loader.exportNames entry)
  names.mapM fun name => do
    return (name, ← includeExport loader entry name)

end Shaking

end Bundler
