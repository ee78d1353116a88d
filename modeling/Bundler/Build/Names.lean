import Bundler.Graph.Link

/-!
# Names in a bundle

What the names of modules are written as in a bundle.  A name is written as it
is unless it was renamed.  The slots of a module and modules that are not
bundled have no names of their own; imports suggest some, of which the first
counts.
-/

namespace Bundler

structure ModuleNames where
  /-- What names and slots are written as, where it differs. -/
  written : NameMap String
  suggested : NameMap String

structure ExternalNames where
  suggested : NameMap String
  /-- The variable that holds the module, once it is settled. -/
  written : Option String

structure Names where
  /-- By the paths of the modules. -/
  modules : NameMap ModuleNames
  /-- By the specifiers of the modules. -/
  externals : NameMap ExternalNames

namespace Names

def initial : Names := ⟨.empty, .empty⟩

variable (names : Names)

def ofModule (module : Path) : ModuleNames :=
  (names.modules.get? module.text).getD ⟨.empty, .empty⟩

def ofExternal (specifier : String) : ExternalNames :=
  (names.externals.get? specifier).getD ⟨.empty, none⟩

def setModule (module : Path) (own : ModuleNames) : Names :=
  { names with modules := names.modules.insert module.text own }

def setExternal (specifier : String) (own : ExternalNames) : Names :=
  { names with externals := names.externals.insert specifier own }

/-- What a name or slot of a module is written as. -/
def written (module : Path) (name : String) : String :=
  ((names.ofModule module).written.get? name).getD name

def suggested? (module : Path) (slot : String) : Option String :=
  (names.ofModule module).suggested.get? slot

/-- Suggests a name for a slot; the first suggestion counts. -/
def suggest (module : Path) (slot candidate : String) : Names :=
  let own := names.ofModule module
  let suggested :=
    own.suggested.insertNew slot (Identifier.ofText candidate)
  names.setModule module { own with suggested := suggested }

def rename (module : Path) (name replacement : String) : Names :=
  let own := names.ofModule module
  let written := own.written.insert name replacement
  names.setModule module { own with written := written }

/-- Names a slot by what was suggested or else by the file, with underscores in
front if the module has that name already. -/
def nameSlot (module : Module) (slot : String) : String × Names :=
  let wanted := (names.suggested? module.path slot).getD module.stemName
  let name := Identifier.freeName module.boundNames wanted
  (name, names.rename module.path slot name)

/-- The names of a module that are written differently, sorted. -/
def renames (module : Path) : List (String × String) :=
  let changed := (names.ofModule module).written.entries.filter
    fun (name, written) => name ≠ written
  changed.mergeSort fun left right => !decide (right.1 < left.1)

def suggestExternal (specifier slot candidate : String) : Names :=
  let own := names.ofExternal specifier
  let suggested :=
    own.suggested.insertNew slot (Identifier.ofText candidate)
  names.setExternal specifier { own with suggested := suggested }

/-- The name that a module which is not bundled should have: one suggested for
the whole module, or else for its default export, or else one that resembles
its specifier. -/
def preferredExternal (specifier : String) : String :=
  let suggested := (names.ofExternal specifier).suggested
  ((suggested.get? namespaceSlot).or (suggested.get? defaultSlot)).getD
    (Identifier.ofText specifier)

/-- The variable that holds a module which is not bundled. -/
def writtenExternal (specifier : String) : String :=
  (names.ofExternal specifier).written.getD (Identifier.ofText specifier)

def renameExternal (specifier name : String) : Names :=
  let own := names.ofExternal specifier
  names.setExternal specifier { own with written := some name }

/-- The expression that a binding is written as. -/
def expression : Binding → String
  | .definition module name => names.written module name
  | .exportsOf module => names.written module namespaceSlot
  | .external specifier (.named name) =>
      Identifier.memberOf (names.writtenExternal specifier) name
  | .external specifier _ => names.writtenExternal specifier

end Names

end Bundler
