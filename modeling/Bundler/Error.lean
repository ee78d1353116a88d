import Bundler.Parser.Error
import Bundler.Path
import Bundler.Source.Position

/-!
# Build errors

Why a module or a whole graph of modules cannot be bundled.  Every error names
the module it was raised for; errors in a source also name the place.
-/

namespace Bundler

inductive BundleError
  /-- The source is not a module. -/
  | refused (path : Path) (error : SyntaxError) (position : Position)
  /-- Two imports bind the same name. -/
  | duplicateImport (path : Path) (name : String) (position : Position)
  /-- An import, or a member of one, is written. -/
  | illegalReassignment (path : Path) (name : String) (position : Position)
  /-- A name is exported that the module does not have. -/
  | unresolvedExport (path : Path) (name : String) (position : Position)
  /-- The module at `path` was expected to export a name. -/
  | missingExport (path importer : Path) (name : String)
  | unreadable (path : Path) (reason : String)
  /-- A search from a module was cut short.  Bounds are such that this does not
  happen. -/
  | unsettled (path : Path)
  deriving DecidableEq

namespace BundleError

/-- The module an error was raised for. -/
def path : BundleError → Path
  | .refused path _ _ | .duplicateImport path _ _
  | .illegalReassignment path _ _ | .unresolvedExport path _ _
  | .missingExport path _ _ | .unreadable path _ | .unsettled path => path

/-- A text about a place in a module. -/
def located (path : Path) (position : Position) (text : String) : String :=
  path.text ++ ":" ++ position.render ++ ": " ++ text

def message : BundleError → String
  | .refused path error position => located path position error.message
  | .duplicateImport path name position =>
      located path position ("duplicated import '" ++ name ++ "'")
  | .illegalReassignment path name position =>
      located path position
        ("illegal reassignment to import '" ++ name ++ "'")
  | .unresolvedExport path name position =>
      located path position ("export '" ++ name ++ "' is not defined")
  | .missingExport path importer name =>
      "module " ++ path.text ++ " does not export '" ++ name ++
        "' (imported by " ++ importer.text ++ ")"
  | .unreadable path reason => "could not read " ++ path.text ++ ": " ++ reason
  | .unsettled path => "could not settle " ++ path.text

end BundleError

end Bundler
