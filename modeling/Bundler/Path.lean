/-!
# Paths

Slash-separated paths.  A path is kept as it was written, since that is how
diagnostics show it, but it is compared and taken apart by its components:
repeated and trailing slashes do not count, nor does a dot that does not come
first.
-/

namespace Bundler

structure Path where
  text : String
  deriving DecidableEq

/-- A step of a path. -/
inductive PathPart
  | root
  | here
  | up
  | name (text : String)
  deriving DecidableEq

namespace PathPart

def text : PathPart → String
  | .root => "/"
  | .here => "."
  | .up => ".."
  | .name text => text

/-- The step that a piece between slashes stands for; `atStart` tells whether
it starts the path.  Elsewhere a dot stands for nothing. -/
def ofPiece? (atStart : Bool) (piece : List Char) : Option PathPart :=
  match piece with
  | [] => none
  | ['.'] => if atStart then some .here else none
  | ['.', '.'] => some .up
  | piece => some (.name (String.ofList piece))

/-- A path that makes the given steps. -/
def join : List PathPart → String
  | .root :: parts => "/" ++ "/".intercalate (parts.map text)
  | parts => "/".intercalate (parts.map text)

/-- One more step of a walk, given the steps so far, the last one first.  A
step up takes back a step into a name, and the root has nothing above it. -/
def walk (done : List PathPart) (part : PathPart) : List PathPart :=
  match part, done with
  | .here, done => done
  | .up, .name _ :: done => done
  | .up, .root :: done => .root :: done
  | part, done => part :: done

end PathPart

namespace Path

/-- The pieces of a text between slashes, of which there is at least one. -/
def pieces : List Char → List (List Char)
  | [] => [[]]
  | c :: text =>
      if c = '/' then [] :: pieces text
      else
        match pieces text with
        | [] => [[c]]
        | piece :: others => (c :: piece) :: others

def isAbsolute (path : Path) : Bool := path.text.toList.head? = some '/'

/-- The steps that a path makes. -/
def parts (path : Path) : List PathPart :=
  match pieces path.text.toList with
  | [] => []
  | first :: others =>
      let start :=
        if path.isAbsolute then [PathPart.root]
        else (PathPart.ofPiece? true first).toList
      start ++ others.filterMap (PathPart.ofPiece? false)

/-- Whether two paths make the same steps. -/
def same (left right : Path) : Bool := left.parts = right.parts

/-- The path with fewest steps that leads to the same place, if directories are
not looked at. -/
def normalize (path : Path) : Path :=
  ⟨PathPart.join (path.parts.foldl PathPart.walk []).reverse⟩

/-- The path with the extension of a script added to its last name. -/
def withScriptExtension (path : Path) : Path := ⟨path.text ++ ".js"⟩

/-- The steps to the directory that holds what a path leads to. -/
def directoryParts (path : Path) : List PathPart :=
  match path.parts with
  | [.root] => []
  | parts => parts.dropLast

/-- The last name of a path, if it ends in a name. -/
def fileName? (path : Path) : Option String :=
  match path.parts.getLast? with
  | some (.name text) => some text
  | _ => none

/-- A file name cut at its last dot, if it has one that is not its first
character. -/
def splitExtension (name : String) : String × Option String :=
  let reversed := name.toList.reverse
  let extension := reversed.takeWhile (· ≠ '.')
  match reversed.dropWhile (· ≠ '.') with
  | [] | [_] => (name, none)
  | _ :: stem =>
      (String.ofList stem.reverse, some (String.ofList extension.reverse))

/-- The last name of a path without its extension. -/
def stem (path : Path) : String :=
  (path.fileName?.map fun name => (splitExtension name).1).getD ""

/-- Whether a path already names a script. -/
def isScript (path : Path) : Bool :=
  (path.fileName?.bind fun name => (splitExtension name).2) = some "js"

end Path

end Bundler
