import Bundler.Lexer.Basic

/-!
# Token streams

The parser's view of a source: tokens are lexed on demand, may be looked at
before they are consumed, and may be given back.  What has been lexed is
buffered together with the mode it was lexed in; asking for a buffered token in
another mode discards it and everything behind it and lexes again.  Comments
are collected on the way, each once, however often a text is lexed.
-/

namespace Bundler

/-- A lexed token, the mode it was lexed in and the place after it. -/
structure BufferedToken where
  token : Token
  mode : LexMode
  after : Cursor

structure TokenStream where
  /-- The start of the source. -/
  origin : Cursor
  /-- The length of the source in bytes. -/
  size : Nat
  /-- Where lexing goes on. -/
  cursor : Cursor
  /-- The comments met so far, the last one first. -/
  comments : List Comment
  buffer : Array BufferedToken
  /-- How many of the buffered tokens are consumed. -/
  consumed : Nat

/-- A place to return to: the number of tokens consumed before it. -/
structure Checkpoint where
  consumed : Nat

namespace TokenStream

def ofSource (source : List Char) : TokenStream :=
  { origin := Cursor.ofText source
    size := Text.byteLength source
    cursor := Cursor.ofText source
    comments := []
    buffer := #[]
    consumed := 0 }

/-- The end of the last consumed token. -/
def lastEnd (stream : TokenStream) : Nat :=
  if stream.consumed = 0 then 0
  else (stream.buffer[stream.consumed - 1]?.map (·.token.span.stop)).getD 0

/-- The number of bytes behind the last consumed token. -/
def unread (stream : TokenStream) : Nat := stream.size - stream.lastEnd

def checkpoint (stream : TokenStream) : Checkpoint := ⟨stream.consumed⟩

def restore (checkpoint : Checkpoint) (stream : TokenStream) : TokenStream :=
  { stream with consumed := checkpoint.consumed }

/-- The range from the first to the last token consumed since a checkpoint.  If
there is none, the empty range at the next token. -/
def spanSince (checkpoint : Checkpoint) (stream : TokenStream) : Span :=
  let start := (stream.buffer[checkpoint.consumed]?.map
    (·.token.span.start)).getD stream.cursor.offset
  if stream.consumed ≤ checkpoint.consumed then .point start
  else ⟨start, stream.lastEnd⟩

/-- Forgets the tokens that are buffered but not consumed. -/
def discardAhead (stream : TokenStream) : TokenStream :=
  let buffer := stream.buffer.take stream.consumed
  { stream with
    buffer := buffer
    cursor := (buffer.back?.map (·.after)).getD stream.origin }

/-- Lexes one more token into the buffer. -/
def lexAhead (mode : LexMode) (stream : TokenStream) : TokenStream :=
  let lexed := lexToken mode stream.cursor
  { stream with
    cursor := lexed.after
    comments := recordComments stream.comments lexed.comments
    buffer := stream.buffer.push ⟨lexed.token, mode, lexed.after⟩ }

/-- Makes sure that the next token is buffered in the given mode. -/
def prepare (mode : LexMode) (stream : TokenStream) : TokenStream :=
  match stream.buffer[stream.consumed]? with
  | some next =>
      if next.mode = mode then stream
      else stream.discardAhead.lexAhead mode
  | none => stream.lexAhead mode

/-- The token after the consumed ones, which `prepare` has buffered. -/
def upcoming (stream : TokenStream) : Token :=
  match stream.buffer[stream.consumed]? with
  | some next => next.token
  | none => ⟨.endOfInput, .point stream.size, "", false⟩

def advance (stream : TokenStream) : TokenStream :=
  { stream with consumed := stream.consumed + 1 }

/-- The next token in a mode, consumed if `keep` accepts it. -/
def forward (mode : LexMode) (keep : Token → Bool) (stream : TokenStream) :
    Token × TokenStream :=
  let stream := stream.prepare mode
  let token := stream.upcoming
  (token, if keep token then stream.advance else stream)

end TokenStream

end Bundler
