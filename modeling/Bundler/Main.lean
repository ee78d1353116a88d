import Bundler.CommandLine.Run

/-!
# The command

Reads modules from disk until what they need is known, and then does what has
been decided.
-/

namespace Bundler.CommandLine

/-- The reason that the operating system gives for a failure. -/
def faultText : IO.Error → String
  | .alreadyExists _ code details | .interrupted _ code details
  | .noFileOrDirectory _ code details | .invalidArgument _ code details
  | .permissionDenied _ code details | .resourceExhausted _ code details
  | .inappropriateType _ code details | .noSuchThing _ code details
  | .otherError code details | .resourceBusy code details
  | .resourceVanished code details | .unsupportedOperation code details
  | .hardwareFault code details | .unsatisfiedConstraints code details
  | .illegalOperation code details | .protocolError code details
  | .timeExpired code details =>
      details ++ " (os error " ++ toString code ++ ")"
  | .unexpectedEof => "unexpected end of file"
  | .userError message => message

/-- Reads the file at a path as a text. -/
def readText (path : Path) : IO (Except String String) := do
  if path.text.toList.contains '\x00' then
    return .error FileFault.zeroByte.reason
  try
    let handle ← IO.FS.Handle.mk path.text .read
    match String.fromUTF8? (← handle.readBinToEnd) with
    | some text => return .ok text
    | none => return .error FileFault.notText.reason
  catch error => return .error (faultText error)

/-- Reads files until none is needed that has not been read.  A round reads at
least one file that was not read before. -/
def readNeeded (reads : Files → List Path) : IO Files := do
  let mut outcomes : List (Path × Except String String) := []
  repeat
    let files := Files.ofOutcomes "not read" outcomes
    let unread := (reads files).filter fun path =>
      outcomes.all fun outcome => outcome.1 ≠ path
    if unread.isEmpty then break
    for path in unread do
      outcomes := (path, ← readText path) :: outcomes
  return Files.ofOutcomes "not read" outcomes

def finish (outcome : Outcome) : IO UInt32 := do
  IO.print outcome.stdout
  IO.eprint outcome.stderr
  return outcome.code

end Bundler.CommandLine

open Bundler CommandLine in
def main (arguments : List String) : IO UInt32 := do
  let request := Request.ofArguments arguments
  let directory : Path := ⟨toString (← IO.currentDir)⟩
  let files ←
    match request with
    | .ok (.bundle arguments) =>
        readNeeded fun files => arguments.reads files directory
    | _ => pure (.ofList [])
  match decisionOf files directory request with
  | .finish outcome => finish outcome
  | .store path text =>
      try
        IO.FS.writeFile path.text text
        finish (.success "")
      catch error => finish (.unstored path (faultText error))
