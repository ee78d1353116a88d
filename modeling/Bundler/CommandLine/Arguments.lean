import Bundler.Path

/-!
# Arguments

What the arguments of a command ask for.  They are read from the first to the
last.  A request for help or for the version ends the reading, so that mistakes
after it do not count.
-/

namespace Bundler.CommandLine

inductive Setting
  | help
  | version
  | output
  | exports
  | noComments
  | margins
  | plan
  | trace
  deriving DecidableEq

namespace Setting

def ofLong? : String → Option Setting
  | "help" => some .help
  | "version" => some .version
  | "output" => some .output
  | "exports" => some .exports
  | "no-comments" => some .noComments
  | "margins" => some .margins
  | "plan" => some .plan
  | "trace" => some .trace
  | _ => none

def ofShort? : Char → Option Setting
  | 'h' => some .help
  | 'V' => some .version
  | 'o' => some .output
  | _ => none

def text : Setting → String
  | .help => "--help"
  | .version => "--version"
  | .output => "--output"
  | .exports => "--exports"
  | .noComments => "--no-comments"
  | .margins => "--margins"
  | .plan => "--plan"
  | .trace => "--trace"

end Setting

/-- What a single argument is. -/
inductive Argument
  /-- After a separator all arguments are values. -/
  | separator
  | named (setting : Setting) (attached : Option String)
  | unknown (text : String)
  | plain (text : String)
  deriving DecidableEq

namespace Argument

/-- A setting with a name of several letters.  Its value may follow after an
equals sign. -/
def ofLong (text : List Char) : Argument :=
  let name := text.takeWhile (· ≠ '=')
  let attached :=
    match text.dropWhile (· ≠ '=') with
    | [] => none
    | _ :: value => some (String.ofList value)
  match Setting.ofLong? (String.ofList name) with
  | some setting => .named setting attached
  | none => .unknown ("--" ++ String.ofList name)

/-- The value that follows the letter of a setting, with or without an equals
sign. -/
def attachedToLetter : List Char → Option String
  | [] => none
  | '=' :: value => some (String.ofList value)
  | value => some (String.ofList value)

/-- A setting with a name of one letter.  What follows the letter is its value
if it takes one. -/
def ofShort (letter : Char) (text : List Char) : Argument :=
  match Setting.ofShort? letter with
  | some .output => .named .output (attachedToLetter text)
  | some setting => .named setting none
  | none => .unknown (String.ofList ['-', letter])

def ofText (text : String) : Argument :=
  match text.toList with
  | ['-', '-'] => .separator
  | '-' :: '-' :: rest => ofLong rest
  | '-' :: letter :: rest => ofShort letter rest
  | _ => .plain text

end Argument

inductive UsageError
  | unknownSetting (text : String)
  | missingValue (setting : Setting)
  | unexpectedValue (setting : Setting)
  | repeated (setting : Setting)
  | missingEntry
  | emptyEntry
  | unexpectedArgument (text : String)
  deriving DecidableEq

namespace UsageError

def message : UsageError → String
  | .unknownSetting text => "unexpected argument '" ++ text ++ "'"
  | .missingValue setting => "'" ++ setting.text ++ "' needs a value"
  | .unexpectedValue setting => "'" ++ setting.text ++ "' takes no value"
  | .repeated setting => "'" ++ setting.text ++ "' is given more than once"
  | .missingEntry => "no entry module is given"
  | .emptyEntry => "the path of the entry module is empty"
  | .unexpectedArgument text => "unexpected argument '" ++ text ++ "'"

end UsageError

/-- What to bundle, and how. -/
structure Arguments where
  entry : Path
  /-- Where the result goes; to standard output, if not given. -/
  output : Option Path
  exports : Option (List String)
  noComments : Bool
  margins : Bool
  plan : Bool
  trace : Bool
  deriving DecidableEq

inductive Request
  | help
  | version
  | bundle (arguments : Arguments)
  deriving DecidableEq

/-- What was read of the arguments. -/
structure Draft where
  entry : Option Path
  output : Option Path
  exports : Option (List String)
  flags : List Setting

namespace Draft

def empty : Draft := ⟨none, none, none, []⟩

/-- The one argument that belongs to no setting is the entry module. -/
def addEntry (draft : Draft) (text : String) : Except UsageError Draft :=
  if text = "" then .error .emptyEntry
  else if draft.entry.isSome then .error (.unexpectedArgument text)
  else .ok { draft with entry := some ⟨text⟩ }

def addOutput (draft : Draft) (text : String) : Except UsageError Draft :=
  if text = "" then .error (.missingValue .output)
  else if draft.output.isSome then .error (.repeated .output)
  else .ok { draft with output := some ⟨text⟩ }

/-- The texts between commas, of which there is at least one. -/
def splitCommas : List Char → List (List Char)
  | [] => [[]]
  | c :: text =>
      if c = ',' then [] :: splitCommas text
      else
        match splitCommas text with
        | [] => [[c]]
        | name :: names => (c :: name) :: names

/-- Adds to the names of exports given before. -/
def addExports (draft : Draft) (text : String) : Draft :=
  let names := (splitCommas text.toList).map String.ofList
  { draft with exports := some (draft.exports.getD [] ++ names) }

/-- Sets a setting that takes no value. -/
def addFlag (draft : Draft) (setting : Setting) : Except UsageError Draft :=
  if setting ∈ draft.flags then .error (.repeated setting)
  else .ok { draft with flags := setting :: draft.flags }

def finish (draft : Draft) : Except UsageError Request :=
  match draft.entry with
  | none => .error .missingEntry
  | some entry =>
      .ok (.bundle
        { entry := entry
          output := draft.output
          exports := draft.exports
          noComments := draft.flags.contains .noComments
          margins := draft.flags.contains .margins
          plan := draft.flags.contains .plan
          trace := draft.flags.contains .trace })

end Draft

/-- What reading one argument comes to. -/
inductive Step
  | proceed (draft : Draft)
  /-- The next argument is the value of a setting. -/
  | expect (setting : Setting)
  | answer (request : Request)

namespace Step

/-- Gives a setting its value. -/
def assign (draft : Draft) (setting : Setting) (value : String) :
    Except UsageError Draft :=
  match setting with
  | .output => draft.addOutput value
  | .exports => .ok (draft.addExports value)
  | setting => .error (.unexpectedValue setting)

/-- Reads a setting and what is attached to it. -/
def ofSetting (draft : Draft) (setting : Setting) :
    Option String → Except UsageError Step
  | some value => do return .proceed (← assign draft setting value)
  | none =>
      match setting with
      | .help => .ok (.answer .help)
      | .version => .ok (.answer .version)
      | .output => .ok (.expect .output)
      | .exports => .ok (.expect .exports)
      | flag => do return .proceed (← draft.addFlag flag)

end Step

/-- Reads arguments that come after others.  The value of a setting cannot look
like a setting. -/
def readAll (draft : Draft) : List String → Except UsageError Request
  | [] => draft.finish
  | text :: others =>
      match Argument.ofText text with
      | .separator => do (← others.foldlM Draft.addEntry draft).finish
      | .unknown name => .error (.unknownSetting name)
      | .plain text => do readAll (← draft.addEntry text) others
      | .named setting attached => do
          match ← Step.ofSetting draft setting attached with
          | .proceed draft => readAll draft others
          | .answer request => return request
          | .expect setting =>
              match others with
              | [] => throw (.missingValue setting)
              | value :: others =>
                  match Argument.ofText value with
                  | .plain text =>
                      readAll (← Step.assign draft setting text) others
                  | _ => throw (.missingValue setting)

/-- What a list of arguments asks for. -/
def Request.ofArguments (arguments : List String) :
    Except UsageError Request :=
  readAll .empty arguments

end Bundler.CommandLine
