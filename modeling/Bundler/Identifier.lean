import Bundler.Source.CharClass

/-!
# Identifiers

Which texts can stand for names, how a name is made of any text, and how a
property is written whose name may be any text.
-/

namespace Bundler

namespace Identifier

/-- Words that cannot name a binding of a module. -/
def reservedWords : List String :=
  ["await", "break", "case", "catch", "class", "const", "continue", "debugger",
   "default", "delete", "do", "else", "enum", "export", "extends", "false",
   "finally", "for", "function", "if", "implements", "import", "in",
   "instanceof", "interface", "let", "new", "null", "package", "private",
   "protected", "public", "return", "static", "super", "switch", "this",
   "throw", "true", "try", "typeof", "var", "void", "while", "with", "yield"]

/-- Global names that must keep their meaning. -/
def globalNames : List String :=
  ["arguments", "eval", "Infinity", "NaN", "undefined", "Object", "Array",
   "Function", "String", "Number", "Boolean", "Symbol", "Error", "Math",
   "JSON", "Promise"]

def isReserved (name : String) : Bool :=
  reservedWords.contains name || globalNames.contains name

/-- Whether a text can be written as a bare name, as after a dot. -/
def isName (text : String) : Bool :=
  match text.toList with
  | [] => false
  | first :: rest =>
      CharClass.isNameStart first && rest.all CharClass.isNamePart

/-- Whether a text can name a binding. -/
def isLegal (text : String) : Bool := isName text && !isReserved text

/-- Writes a text in characters of names: a letter after hyphens becomes a
capital one, and any other character that fits no name an underscore.
`afterHyphen` says that the text is preceded by a hyphen. -/
def replaceChars (afterHyphen : Bool) : List Char → List Char
  | [] => if afterHyphen then ['_'] else []
  | c :: text =>
      if c = '-' then replaceChars true text
      else if afterHyphen && CharClass.isAsciiNamePart c && c ≠ '$' then
        c.toUpper :: replaceChars false text
      else
        let shown := if CharClass.isNamePart c then c else '_'
        if afterHyphen then '_' :: shown :: replaceChars false text
        else shown :: replaceChars false text

/-- A legal name that resembles a text. -/
def ofText (text : String) : String :=
  let name := String.ofList (replaceChars false text.toList)
  let startsBadly :=
    match name.toList with
    | [] => true
    | first :: _ => CharClass.isDigit first
  if startsBadly || isReserved name then "_" ++ name else name

/-- The first name that is not taken among a name and what comes of it by putting
underscores in front, one after the other. -/
def freeName (taken : List String) (name : String) : String :=
  if name ∈ taken then freeName (taken.erase name) ("_" ++ name) else name
termination_by taken.length
decreasing_by
  rename_i h
  have := List.length_erase_of_mem h
  have := List.length_pos_of_mem h
  omega

/-- How a character is written inside double quotes. -/
def quoteChar : Char → List Char
  | '"' => ['\\', '"']
  | '\\' => ['\\', '\\']
  | '\n' => ['\\', 'n']
  | '\r' => ['\\', 'r']
  | '\u2028' => ['\\', 'u', '2', '0', '2', '8']
  | '\u2029' => ['\\', 'u', '2', '0', '2', '9']
  | c => [c]

/-- A string literal in double quotes. -/
def quote (text : String) : String :=
  String.ofList ('"' :: text.toList.flatMap quoteChar ++ ['"'])

/-- The expression for a property of an object. -/
def memberOf (object name : String) : String :=
  if isName name then object ++ "." ++ name
  else object ++ "[" ++ quote name ++ "]"

end Identifier

end Bundler
