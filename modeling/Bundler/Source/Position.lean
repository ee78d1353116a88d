import Bundler.Source.Text

/-!
# Line and column

Diagnostics name a place by a line and a column, both counted from one; columns
count characters.  An offset inside a character stands for the start of that
character, and an offset past the end for the end.
-/

namespace Bundler

structure Position where
  line : Nat
  column : Nat
  deriving DecidableEq

namespace Position

def first : Position := ⟨1, 1⟩

/-- The position after one more character. -/
def advance (position : Position) (c : Char) : Position :=
  if c = '\n' then ⟨position.line + 1, 1⟩
  else ⟨position.line, position.column + 1⟩

/-- The position at the end of a text. -/
def after (text : List Char) : Position := text.foldl advance first

/-- The position of a byte offset in a text. -/
def ofOffset (text : List Char) (offset : Nat) : Position :=
  after (Text.takeBytes offset text)

def render (position : Position) : String :=
  toString position.line ++ ":" ++ toString position.column

end Position

end Bundler
