import Bundler.Graph.Files

/-!
# File trees

A tree of directories with the files in it, as programs see it that read and
write by paths.  A path is followed step by step, so each of its steps has to
be there, also one that a later step takes back.
-/

namespace Bundler

inductive FileContents
  | text (text : String)
  /-- Bytes that encode no text. -/
  | binary
  deriving DecidableEq

/-- Why a file cannot be read or written. -/
inductive FileFault
  | missing
  | notDirectory
  | isDirectory
  | nameTooLong
  | zeroByte
  | notText
  deriving DecidableEq

namespace FileFault

/-- The words of the operating system, or of the reader of texts. -/
def reason : FileFault → String
  | .missing => "No such file or directory (os error 2)"
  | .notDirectory => "Not a directory (os error 20)"
  | .isDirectory => "Is a directory (os error 21)"
  | .nameTooLong => "File name too long (os error 36)"
  | .zeroByte => "file name contained an unexpected NUL byte"
  | .notText => "stream did not contain valid UTF-8"

end FileFault

structure FileTree where
  /-- The names that lead from the root to the directory that relative paths
  start from. -/
  directory : List String
  /-- The files, each with the names that lead to it from the root.  These
  names, but for the last one, are directories. -/
  files : List (List String × FileContents)

namespace FileTree

/-- What is found in a place. -/
inductive Entry
  | directory
  | file (contents : FileContents)

/-- What is found in the place that names lead to from the root. -/
def entry? (tree : FileTree) (place : List String) : Option Entry :=
  match tree.files.find? (·.1 = place) with
  | some (_, contents) => some (.file contents)
  | none =>
      let holds (names : List String) : Bool := place.isPrefixOf names
      if holds tree.directory || tree.files.any (fun file => holds file.1) then
        some .directory
      else none

/-- Fails in any place but a directory. -/
def enter (tree : FileTree) (place : List String) : Except FileFault Unit :=
  match tree.entry? place with
  | some .directory => .ok ()
  | some (.file _) => .error .notDirectory
  | none => .error .missing

/-- The most bytes that a name may have. -/
def longestName : Nat := 255

/-- The place that a name stands for in a directory, whether or not anything is
there. -/
def child (place : List String) (name : List Char) :
    Except FileFault (List String) :=
  let name := String.ofList name
  if name.utf8ByteSize > longestName then .error .nameTooLong
  else .ok (place ++ [name])

/-- The place that the pieces of a path lead to from another one. -/
def follow (tree : FileTree) (place : List String) :
    List (List Char) → Except FileFault (List String)
  | [] => .ok place
  | piece :: pieces => do
      tree.enter place
      match piece with
      | [] | ['.'] => tree.follow place pieces
      | ['.', '.'] => tree.follow place.dropLast pieces
      | name => do
          let next ← child place name
          if (tree.entry? next).isNone then throw .missing
          tree.follow next pieces

/-- The most bytes that a path may have. -/
def longestPath : Nat := 4095

/-- The place from which a path is followed. -/
def start (tree : FileTree) (path : Path) : Except FileFault (List String) :=
  if path.text.toList.contains '\x00' then .error .zeroByte
  else if path.text = "" then .error .missing
  else if path.text.utf8ByteSize > longestPath then .error .nameTooLong
  else .ok (if path.isAbsolute then [] else tree.directory)

/-- The text of the file at a path. -/
def read (tree : FileTree) (path : Path) : Except FileFault String := do
  let place ← tree.follow (← tree.start path) (Path.pieces path.text.toList)
  match tree.entry? place with
  | some (.file (.text text)) => return text
  | some (.file .binary) => throw .notText
  | some .directory => throw .isDirectory
  | none => throw .missing

/-- Puts a text into a place. -/
def put (tree : FileTree) (place : List String) (text : String) : FileTree :=
  let others := tree.files.filter (·.1 ≠ place)
  { tree with files := others ++ [(place, .text text)] }

/-- Writes a text to the file at a path, which need not be there before but the
directory that holds it. -/
def write (tree : FileTree) (path : Path) (text : String) :
    Except FileFault FileTree := do
  let start ← tree.start path
  let reversed := (Path.pieces path.text.toList).reverse
  match reversed.dropWhile (· = []) with
  | [] => throw .isDirectory
  | last :: before =>
      let place ← tree.follow start before.reverse
      tree.enter place
      if last = ['.'] ∨ last = ['.', '.'] ∨ reversed.head? = some [] then
        throw .isDirectory
      let place ← child place last
      match tree.entry? place with
      | some .directory => throw .isDirectory
      | _ => return tree.put place text

/-- The files of a tree as a source of modules. -/
def toFiles (tree : FileTree) : Files :=
  let text? : FileContents → Option String
    | .text text => some text
    | .binary => none
  { read := fun path => (tree.read path).mapError FileFault.reason
    bound := tree.files.length +
      Files.totalSize (tree.files.filterMap fun file => text? file.2) }

end FileTree

end Bundler
