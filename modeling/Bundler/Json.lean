/-!
# JSON documents

A document and its text, which gives every item and every field a line of its
own.  Fields keep the order in which they are given.
-/

namespace Bundler

inductive Json
  | number (value : Nat)
  | text (value : String)
  | list (items : List Json)
  | object (fields : List (String × Json))

namespace Json

/-- The escape of a control character that has no letter. -/
def controlEscape (c : Char) : List Char :=
  ['\\', 'u', '0', '0', Nat.digitChar (c.toNat / 16), Nat.digitChar (c.toNat % 16)]

/-- How a character is written between quotation marks. -/
def quoteChar : Char → List Char
  | '"' => ['\\', '"']
  | '\\' => ['\\', '\\']
  | '\x08' => ['\\', 'b']
  | '\t' => ['\\', 't']
  | '\n' => ['\\', 'n']
  | '\x0c' => ['\\', 'f']
  | '\r' => ['\\', 'r']
  | c => if c.toNat < 0x20 then controlEscape c else [c]

def quote (text : String) : String :=
  String.ofList ('"' :: text.toList.flatMap quoteChar ++ ['"'])

/-- A new line at a depth, of two spaces each. -/
def newLine (depth : Nat) : String :=
  "\n" ++ String.ofList (List.replicate (2 * depth) ' ')

/-- Entries between brackets, each on a line one deeper than `depth`. -/
def enclose (opening closing : String) (depth : Nat) : List String → String
  | [] => opening ++ closing
  | entries =>
      opening ++ newLine (depth + 1) ++
        ("," ++ newLine (depth + 1)).intercalate entries ++
        newLine depth ++ closing

mutual

/-- The text of a document that starts on a line of the given depth. -/
def renderAt (depth : Nat) : Json → String
  | .number value => toString value
  | .text value => quote value
  | .list items => enclose "[" "]" depth (renderItems (depth + 1) items)
  | .object fields =>
      enclose "\x7b" "\x7d" depth (renderFields (depth + 1) fields)

def renderItems (depth : Nat) : List Json → List String
  | [] => []
  | item :: items => renderAt depth item :: renderItems depth items

def renderFields (depth : Nat) : List (String × Json) → List String
  | [] => []
  | (name, value) :: fields =>
      (quote name ++ ": " ++ renderAt depth value) :: renderFields depth fields

end

def render (document : Json) : String := renderAt 0 document

end Json

end Bundler
