import Bundler.NameMap
import Bundler.Path

/-!
# Files and specifiers

Where the text of a module comes from, and which file an import refers to.
-/

namespace Bundler

structure Files where
  /-- The text of the file at a path, or why there is none. -/
  read : Path → Except String String
  /-- A number that the modules which can be loaded from the files do not
  exceed, apart from those that a resolver redirects to. -/
  bound : Nat

namespace Files

/-- The bytes of all texts. -/
def totalSize (texts : List String) : Nat :=
  (texts.map String.utf8ByteSize).foldr (· + ·) 0

/-- Files of which the outcomes of reading them are known.  Any other file
cannot be read, for the reason given. -/
def ofOutcomes (absent : String)
    (outcomes : List (Path × Except String String)) : Files :=
  { read := fun path =>
      match outcomes.find? (·.1 = path) with
      | some (_, outcome) => outcome
      | none => .error absent
    bound := outcomes.length +
      totalSize (outcomes.filterMap (·.2.toOption)) }

/-- Files in memory.  Different paths to the same place name the same file, and
a later file replaces an earlier one. -/
def ofList (files : List (Path × String)) : Files :=
  let stored : NameMap String := files.foldl
    (fun stored (path, text) => stored.insert path.normalize.text text) .empty
  { read := fun path =>
      match stored.get? path.normalize.text with
      | some text => .ok text
      | none => .error "no such file"
    bound := files.length + totalSize (files.map (·.2)) }

end Files

/-- Specifiers that lead to a given path, or, without one, out of the bundle.
All others follow the default rule. -/
structure Resolver where
  redirects : List (String × Option Path)

namespace Resolver

def plain : Resolver := ⟨[]⟩

/-- The default rule.  A specifier that starts with a dot is a path from the
directory of the importer, to which the extension of scripts is added; an
absolute one is a path as it stands; any other leads out of the bundle. -/
def followDefault (specifier : String) (importer : Path) : Option Path :=
  let path : Path := ⟨specifier⟩
  if path.isAbsolute then some path
  else if specifier.toList.head? ≠ some '.' then none
  else
    let steps := importer.directoryParts ++ path.parts
    let target : Path :=
      ⟨PathPart.join (steps.foldl PathPart.walk []).reverse⟩
    if ".js".toList.isSuffixOf specifier.toList then some target
    else some target.withScriptExtension

/-- The path that a specifier in a module leads to, if it stays in the
bundle. -/
def resolve (resolver : Resolver) (specifier : String) (importer : Path) :
    Option Path :=
  match resolver.redirects.find? (·.1 = specifier) with
  | some (_, target) => target
  | none => followDefault specifier importer

end Resolver

end Bundler
