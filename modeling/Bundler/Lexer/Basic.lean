import Bundler.Lexer.Numeral
import Bundler.Lexer.Scan
import Bundler.Lexer.Trivia
import Bundler.Source.Text

/-!
# Lexing

`lexToken` reads one token at a cursor.  What a slash means, and where a
template literal goes on, depends on what the parser expects, so the mode is an
argument.  A word is a key word exactly when the ASCII name characters at its
front spell one.
-/

namespace Bundler

inductive LexMode
  | standard
  /-- A slash opens a regular expression. -/
  | slashIsRegex
  /-- The text goes on inside a template literal. -/
  | templateContinue
  deriving DecidableEq

/-- A place in a source: its byte offset and the text from there on. -/
structure Cursor where
  offset : Nat
  rest : List Char

namespace Cursor

def ofText (text : List Char) : Cursor := ⟨0, text⟩

/-- The cursor after some characters have been taken. -/
def advance (cursor : Cursor) (taken rest : List Char) : Cursor :=
  ⟨cursor.offset + Text.byteLength taken, rest⟩

end Cursor

namespace Lexeme

def ofScan (kind : TokenKind) (scan : Scan) : Lexeme :=
  ⟨if scan.complete then kind else .invalid, scan.taken, scan.rest⟩

/-- An identifier, which may start with an escape. -/
def identifier : List Char → Lexeme
  | [] => ⟨.invalid, [], []⟩
  | c :: cs =>
      if c = '\\' then
        ofScan .identifier ((Scan.identifier .opened cs).cons c)
      else if CharClass.isNameStart c then
        ofScan .identifier ((Scan.identifier .outside cs).cons c)
      else ⟨.invalid, [], c :: cs⟩

/-- A key word or an identifier. -/
def word (text : List Char) : Lexeme :=
  let run := text.takeWhile CharClass.isAsciiNamePart
  match Keyword.ofText? (String.ofList run) with
  | some keyword =>
      ⟨.keyword keyword, run, text.dropWhile CharClass.isAsciiNamePart⟩
  | none => identifier text

/-- A private name, after its number sign. -/
def privateName (text : List Char) : Lexeme :=
  let name := identifier text
  let kind := if name.kind = .identifier then .privateName else .invalid
  { name with kind := kind }.after ['#']

def templateChunk (text : List Char) : Lexeme :=
  let (stop, taken, rest) := Scan.templateChunk text
  let kind := match stop with
    | some .substitution => .templatePart
    | some .closing => .templateTail
    | none => .invalid
  ⟨kind, taken, rest⟩

/-- A regular expression, after its opening slash. -/
def regex (text : List Char) : Lexeme :=
  let body := Scan.regexBody false text
  if body.complete then
    ⟨.regex, '/' :: body.taken ++ body.rest.takeWhile CharClass.isNamePart,
      body.rest.dropWhile CharClass.isNamePart⟩
  else ⟨.invalid, '/' :: body.taken, body.rest⟩

/-- Punctuation.  An optional chain is not opened in front of a digit, so that
`a?.5:b` stays a conditional. -/
def punctuation (text : List Char) : Lexeme :=
  let mark : Option Punctuator := match text with
    | '?' :: '.' :: c :: _ =>
        if CharClass.isDigit c then some .question
        else Punctuator.longestAt? text
    | _ => Punctuator.longestAt? text
  match mark with
  | some mark =>
      let size := mark.text.length
      ⟨.punctuator mark, text.take size, text.drop size⟩
  | none => ⟨.invalid, [], text⟩

/-- The item at the front of a text that starts with no trivia. -/
def read (mode : LexMode) : List Char → Lexeme
  | [] => ⟨.endOfInput, [], []⟩
  | c :: cs =>
      if !CharClass.isAscii c || c = '\\' then identifier (c :: cs)
      else if CharClass.isAsciiNameStart c then word (c :: cs)
      else if CharClass.isDigit c then Numeral.lex (c :: cs)
      else if c = '.' && (cs.head?.any CharClass.isDigit) then
        Numeral.lex (c :: cs)
      else if c = '"' || c = '\'' then
        ofScan .string ((Scan.string c cs).cons c)
      else if c = '\x60' then (templateChunk cs).after [c]
      else if c = '#' then privateName cs
      else if c = '/' && mode = .slashIsRegex then regex cs
      else punctuation (c :: cs)

end Lexeme

/-- A token, the place after it, and the comments in front of it. -/
structure Lexed where
  token : Token
  after : Cursor
  comments : List Comment

namespace Lexed

/-- The token that a lexeme found at a cursor makes. -/
def ofLexeme (cursor : Cursor) (lexeme : Lexeme) (lineBreak : Bool)
    (comments : List Comment) : Lexed :=
  let after := cursor.advance lexeme.taken lexeme.rest
  { token := ⟨lexeme.kind, ⟨cursor.offset, after.offset⟩,
      String.ofList lexeme.taken, lineBreak⟩
    after := after
    comments := comments }

end Lexed

/-- Reads the token at a cursor, skipping the trivia in front of it unless the
cursor is inside a template literal. -/
def lexToken (mode : LexMode) (cursor : Cursor) : Lexed :=
  match mode with
  | .templateContinue =>
      Lexed.ofLexeme cursor (Lexeme.templateChunk cursor.rest) false []
  | mode =>
      let trivia := Trivia.read cursor.offset cursor.rest
      Lexed.ofLexeme (cursor.advance trivia.taken trivia.rest)
        (Lexeme.read mode trivia.rest) trivia.lineBreak trivia.comments

/-- The comments among `found` that start after the last one of `seen`, the
newest first, in front of `seen`.  A text that is lexed again adds nothing. -/
def recordComments (seen found : List Comment) : List Comment :=
  found.foldl
    (fun seen comment =>
      match seen with
      | [] => [comment]
      | last :: _ =>
          if last.span.start < comment.span.start then comment :: seen
          else seen)
    seen

end Bundler
