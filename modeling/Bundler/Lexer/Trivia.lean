import Bundler.Source.CharClass
import Bundler.Token.Basic

/-!
# White space and comments

What may stand between two tokens.  Skipping it yields the comments in it, with
their byte ranges, and whether it holds a line terminator, one within a
multi-line comment included.  A multi-line comment that is never closed runs to
the end of the source; a line comment ends before its line terminator.
-/

namespace Bundler

/-- The skipped text in front of a token, and what follows it. -/
structure Trivia where
  taken : List Char
  rest : List Char
  lineBreak : Bool
  comments : List Comment

namespace Trivia

def none (rest : List Char) : Trivia := ⟨[], rest, false, []⟩

def cons (c : Char) (trivia : Trivia) : Trivia :=
  { trivia with taken := c :: trivia.taken }

def withLineBreak (found : Bool) (trivia : Trivia) : Trivia :=
  { trivia with lineBreak := found || trivia.lineBreak }

def withComment (comment : Comment) (trivia : Trivia) : Trivia :=
  { trivia with comments := comment :: trivia.comments }

/-- Where in the skipped text the reader is. -/
inductive Place
  | between
  /-- In a line comment that started at an offset. -/
  | line (start : Nat)
  /-- In a multi-line comment that started at an offset. -/
  | block (start : Nat)

/-- Skips from a place in the trivia that begins at byte `offset`. -/
def skip : Place → Nat → List Char → Trivia
  | .between, _, [] => none []
  | .line start, offset, [] => (none []).withComment ⟨⟨start, offset⟩, false⟩
  | .block start, offset, [] => (none []).withComment ⟨⟨start, offset⟩, true⟩
  | .between, offset, '/' :: '/' :: cs =>
      ((skip (.line offset) (offset + 2) cs).cons '/').cons '/'
  | .between, offset, '/' :: '*' :: cs =>
      ((skip (.block offset) (offset + 2) cs).cons '*').cons '/'
  | .between, offset, c :: cs =>
      if CharClass.isLineTerminator c then
        ((skip .between (offset + c.utf8Size) cs).cons c).withLineBreak true
      else if CharClass.isWhitespace c then
        (skip .between (offset + c.utf8Size) cs).cons c
      else none (c :: cs)
  | .line start, offset, c :: cs =>
      if CharClass.isLineTerminator c then
        (((skip .between (offset + c.utf8Size) cs).cons c).withLineBreak
          true).withComment ⟨⟨start, offset⟩, false⟩
      else (skip (.line start) (offset + c.utf8Size) cs).cons c
  | .block start, offset, '*' :: '/' :: cs =>
      (((skip .between (offset + 2) cs).cons '/').cons '*').withComment
        ⟨⟨start, offset + 2⟩, true⟩
  | .block start, offset, c :: cs =>
      ((skip (.block start) (offset + c.utf8Size) cs).cons c).withLineBreak
        (CharClass.isLineTerminator c)

/-- The trivia at the front of a text that begins at byte `offset`. -/
def read (offset : Nat) (text : List Char) : Trivia := skip .between offset text

end Trivia

end Bundler
