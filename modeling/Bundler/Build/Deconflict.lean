import Bundler.Build.Shake

/-!
# Conflicts of names

All modules share one scope in a bundle.  Where several things want the same
name, the last one keeps it and the others get underscores in front, until a
name is found that neither the bundle nor any function or block uses.
-/

namespace Bundler

/-- Something that wants a name in the shared scope. -/
inductive Occupant
  /-- A name or slot of a module. -/
  | binding (module : Path) (name : String)
  | external (specifier : String)
  /-- A name that is read and defined nowhere, which cannot be renamed. -/
  | unknown
  deriving DecidableEq

/-- The names that are wanted, in the order in which they come up first, each
with those that want it. -/
abbrev Occupancy := NameMap (List Occupant)

namespace Occupancy

def occupy (occupancy : Occupancy) (name : String) (occupant : Occupant) :
    Occupancy :=
  occupancy.insert name
    (pushNew ((occupancy.get? name).getD []) occupant)

end Occupancy

/-- What settles the names of a bundle. -/
structure NameContext where
  /-- The modules in the order in which they are written. -/
  modules : List Module
  /-- The included statements in the order in which they are written. -/
  statements : List (Module × Statement)
  /-- The modules whose exports are used as an object. -/
  namespaces : List Path
  externals : List String

/-- Names while they are being settled. -/
structure Settling where
  names : Names
  occupancy : Occupancy

namespace Settling

/-- Names a slot of a module. -/
def nameSlot (module : Module) (slot : String) (settling : Settling) :
    Settling :=
  { settling with names := (settling.names.nameSlot module slot).2 }

/-- Lets a name or slot of a module want what it is written as. -/
def occupyName (module : Module) (name : String) (settling : Settling) :
    Settling :=
  let wanted := settling.names.written module.path name
  let occupancy :=
    settling.occupancy.occupy wanted (.binding module.path name)
  { settling with occupancy := occupancy }

def addDefinition (module : Module) (settling : Settling) (name : String) :
    Settling :=
  let settling :=
    if name = defaultSlot then settling.nameSlot module defaultSlot
    else settling
  settling.occupyName module name

/-- Adds what the included statements of a module define, and the object that
holds its exports if that is used. -/
def addModule (context : NameContext) (settling : Settling)
    (module : Module) : Settling :=
  let own := context.statements.filter (·.1.path = module.path)
  let defined := own.flatMap (·.2.defines)
  let settling := defined.foldl (addDefinition module) settling
  if context.namespaces.contains module.path then
    (settling.nameSlot module namespaceSlot).occupyName module namespaceSlot
  else settling

def addExternal (settling : Settling) (specifier : String) : Settling :=
  let name := settling.names.preferredExternal specifier
  { names := settling.names.renameExternal specifier name
    occupancy := settling.occupancy.occupy name (.external specifier) }

/-- Adds the names that a statement reads and that its module does not know. -/
def addUnknown (settling : Settling) (included : Module × Statement) :
    Settling :=
  let (module, statement) := included
  let unknown := statement.dependsOn.filter fun name =>
    !module.imports.contains name && !module.definitions.contains name
  let occupancy := unknown.foldl (·.occupy · .unknown) settling.occupancy
  { settling with occupancy := occupancy }

/-- All names that are wanted in a bundle. -/
def collect (context : NameContext) (names : Names) : Settling :=
  let settling :=
    context.modules.foldl (addModule context) ⟨names, .empty⟩
  let settling := context.externals.foldl addExternal settling
  context.statements.foldl addUnknown settling

end Settling

/-- Names, and which of them cannot be given any more. -/
structure Renaming where
  names : Names
  taken : List String

namespace Renaming

/-- Gives something another name in place of the one it wants. -/
def rename (wanted : String) (state : Renaming) (occupant : Occupant) :
    Renaming :=
  let replacement :=
    Identifier.freeName state.taken ("_" ++ wanted)
  let names :=
    match occupant with
    | .binding module name => state.names.rename module name replacement
    | .external specifier =>
        state.names.renameExternal specifier replacement
    | .unknown => state.names
  ⟨names, replacement :: state.taken⟩

/-- Renames all that want a name but for the last. -/
def renameOthers (state : Renaming) (wanted : String × List Occupant) :
    Renaming :=
  wanted.2.dropLast.foldl (rename wanted.1) state

end Renaming

namespace Names

/-- Gives every top-level name in a bundle its final form. -/
def deconflict (context : NameContext) (names : Names) : Names :=
  let settling := Settling.collect context names
  let nested := context.modules.flatMap (·.tree.nestedNames)
  let taken := settling.occupancy.keys ++ nested
  let state :=
    settling.occupancy.entries.foldl Renaming.renameOthers
      ⟨settling.names, taken⟩
  state.names

end Names

end Bundler
