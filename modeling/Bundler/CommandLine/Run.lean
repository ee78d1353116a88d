import Bundler.Build.PlanDocument
import Bundler.CommandLine.Arguments
import Bundler.CommandLine.FileTree

/-!
# Running a command

What a command does is decided before anything is done: it either comes to an
end with something to print, or has a text to store, after which it comes to an
end too.
-/

namespace Bundler.CommandLine

/-- The end of a command. -/
structure Outcome where
  code : UInt32
  stdout : String
  stderr : String
  deriving DecidableEq

namespace Outcome

def success (stdout : String) : Outcome := ⟨0, stdout, ""⟩

def failure (message : String) : Outcome := ⟨1, "", "error: " ++ message ++ "\n"⟩

/-- The end of a command whose result could not be stored. -/
def unstored (path : Path) (reason : String) : Outcome :=
  failure ("failed to write output to " ++ path.text ++ ": " ++ reason)

end Outcome

inductive Decision
  | finish (outcome : Outcome)
  | store (path : Path) (text : String)
  deriving DecidableEq

def versionText : String := "bundle-js 0.1.0\n"

def usageLines : List String :=
  ["Bundles an ES module graph into one script",
   "",
   "Usage: bundle-js [OPTIONS] <ENTRY>",
   "",
   "Arguments:",
   "  <ENTRY>  Entry module; '.js' is appended if missing",
   "",
   "Options:",
   "  -o, --output <OUTPUT>    Output destination; omit for stdout",
   "      --exports <EXPORTS>  Only keep these exports of the entry module",
   "      --no-comments        Drop comments attached to kept statements",
   "      --margins            Keep blank lines between statements",
   "      --plan               Print the build plan as JSON instead of code",
   "      --trace              Log build steps to stderr",
   "  -h, --help               Print help",
   "  -V, --version            Print version"]

def usageText : String := String.join (usageLines.map (· ++ "\n"))

namespace Arguments

variable (arguments : Arguments)

def options : BundleOptions :=
  { exports := arguments.exports
    comments := !arguments.noComments
    margins := arguments.margins }

/-- The path of the entry module from the root, given the directory that
relative paths start from. -/
def entryFrom (directory : Path) : Path :=
  if arguments.entry.isAbsolute then arguments.entry
  else ⟨directory.text ++ "/" ++ arguments.entry.text⟩

/-- The text that is asked for: the code of a bundle, or its plan. -/
def result (files : Files) (directory : Path) : Except BundleError String := do
  let entry := arguments.entryFrom directory
  let bundle ← Bundle.build files .plain arguments.options entry
  if arguments.plan then return bundle.plan.document.render ++ "\n"
  return (← bundle.generate).code

/-- The paths that are read to answer. -/
def reads (files : Files) (directory : Path) : List Path :=
  Bundle.reads files .plain arguments.options (arguments.entryFrom directory)

def decision (files : Files) (directory : Path) : Decision :=
  match arguments.result files directory with
  | .error error => .finish (.failure error.message)
  | .ok text =>
      match arguments.output with
      | some path => .store path text
      | none => .finish (.success text)

end Arguments

/-- The answer to arguments that make no sense. -/
def misuse (error : UsageError) : Outcome :=
  ⟨2, "", "error: " ++ error.message ++ "\n\n" ++
    "For more information, try '--help'.\n"⟩

/-- What a command does, given what its arguments ask for. -/
def decisionOf (files : Files) (directory : Path) :
    Except UsageError Request → Decision
  | .error error => .finish (misuse error)
  | .ok .help => .finish (.success usageText)
  | .ok .version => .finish (.success versionText)
  | .ok (.bundle arguments) => arguments.decision files directory

/-- Runs a command in a file tree.  The result is the end of the command and the
tree that it leaves. -/
def run (tree : FileTree) (arguments : List String) : Outcome × FileTree :=
  let directory : Path := ⟨"/" ++ "/".intercalate tree.directory⟩
  match decisionOf tree.toFiles directory (Request.ofArguments arguments) with
  | .finish outcome => (outcome, tree)
  | .store path text =>
      match tree.write path text with
      | .ok tree => (.success "", tree)
      | .error fault => (.unstored path fault.reason, tree)

end Bundler.CommandLine
