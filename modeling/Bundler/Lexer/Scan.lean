import Bundler.Source.CharClass

/-!
# Scans

A scan reads one lexical item from the front of a text, one character at a
time.  It says whether the item was complete, what it took and what it left;
an item that breaks off keeps what was read up to and including the place of
failure.  What a scan took and left always make up the text it was given.
-/

namespace Bundler

structure Scan where
  complete : Bool
  taken : List Char
  rest : List Char

namespace Scan

def done (rest : List Char) : Scan := ⟨true, [], rest⟩

def fail (rest : List Char) : Scan := ⟨false, [], rest⟩

/-- Puts one more character in front of what was taken. -/
def cons (c : Char) (scan : Scan) : Scan :=
  { scan with taken := c :: scan.taken }

def text (scan : Scan) : List Char := scan.taken ++ scan.rest

@[simp]
theorem text_mk_nil (complete : Bool) (rest : List Char) :
    (Scan.mk complete [] rest).text = rest := rfl

@[simp]
theorem text_done (rest : List Char) : (done rest).text = rest := rfl

@[simp]
theorem text_fail (rest : List Char) : (fail rest).text = rest := rfl

@[simp]
theorem text_cons (c : Char) (scan : Scan) :
    (scan.cons c).text = c :: scan.text := rfl

/-- How much of a Unicode escape inside an identifier has been read. -/
inductive EscapeProgress
  | outside
  /-- After the backslash. -/
  | opened
  /-- After the letter `u`. -/
  | marked
  /-- Within a fixed-width escape, with this many digits and one to come. -/
  | fixed (more : Nat)
  /-- Within braces, and whether a digit has been read. -/
  | braced (digit : Bool)
  deriving DecidableEq

/-- Reads the part of an identifier from a place within it. -/
def identifier : EscapeProgress → List Char → Scan
  | progress, [] => ⟨progress = .outside, [], []⟩
  | .outside, c :: cs =>
      if CharClass.isNamePart c then (identifier .outside cs).cons c
      else if c = '\\' then (identifier .opened cs).cons c
      else done (c :: cs)
  | .opened, c :: cs =>
      if c = 'u' then (identifier .marked cs).cons c else (fail cs).cons c
  | .marked, c :: cs =>
      if c = '{' then (identifier (.braced false) cs).cons c
      else if CharClass.isHexDigit c then (identifier (.fixed 2) cs).cons c
      else (fail cs).cons c
  | .fixed more, c :: cs =>
      if CharClass.isHexDigit c then
        match more with
        | 0 => (identifier .outside cs).cons c
        | more + 1 => (identifier (.fixed more) cs).cons c
      else (fail cs).cons c
  | .braced digit, c :: cs =>
      if CharClass.isHexDigit c then (identifier (.braced true) cs).cons c
      else if !digit then fail (c :: cs)
      else if c = '}' then (identifier .outside cs).cons c
      else (fail cs).cons c

@[simp]
theorem text_identifier (progress : EscapeProgress) (text : List Char) :
    (identifier progress text).text = text := by
  fun_induction identifier progress text <;> simp_all

/-- Reads a string literal after its opening quote.  A line feed ends it
unfinished, other line terminators do not. -/
def string (quote : Char) : List Char → Scan
  | [] => fail []
  | ['\\'] => (fail []).cons '\\'
  | '\\' :: '\r' :: '\n' :: cs =>
      (((string quote cs).cons '\n').cons '\r').cons '\\'
  | '\\' :: c :: cs => ((string quote cs).cons c).cons '\\'
  | c :: cs =>
      if c = '\n' then (fail cs).cons c
      else if c = quote then (done cs).cons c
      else (string quote cs).cons c

@[simp]
theorem text_string (quote : Char) (text : List Char) :
    (string quote text).text = text := by
  fun_induction string quote text <;> simp_all

/-- Reads a regular expression literal after its opening slash, up to the slash
that closes it.  Within a class in brackets a slash does not close. -/
def regexBody : Bool → List Char → Scan
  | _, [] => fail []
  | _, ['\\'] => (fail []).cons '\\'
  | inClass, '\\' :: c :: cs =>
      if CharClass.isLineTerminator c then (fail (c :: cs)).cons '\\'
      else ((regexBody inClass cs).cons c).cons '\\'
  | inClass, c :: cs =>
      if c = '/' && !inClass then (done cs).cons c
      else if c = '[' then (regexBody true cs).cons c
      else if c = ']' then (regexBody false cs).cons c
      else if CharClass.isLineTerminator c then (fail cs).cons c
      else (regexBody inClass cs).cons c

@[simp]
theorem text_regexBody (inClass : Bool) (text : List Char) :
    (regexBody inClass text).text = text := by
  fun_induction regexBody inClass text <;> simp_all

/-- Where a chunk of a template literal ends. -/
inductive ChunkEnd
  | substitution
  | closing

/-- Reads a chunk of a template literal, up to and including the dollar sign
and brace that open a substitution or the closing backtick.  There is no chunk
end when the text ends first. -/
def templateChunk : List Char → Option ChunkEnd × List Char × List Char
  | [] => (none, [], [])
  | ['\\'] => (none, ['\\'], [])
  | '\\' :: c :: cs =>
      let (stop, taken, rest) := templateChunk cs
      (stop, '\\' :: c :: taken, rest)
  | '$' :: '{' :: cs => (some .substitution, ['$', '{'], cs)
  | c :: cs =>
      if c = '\x60' then (some .closing, [c], cs)
      else
        let (stop, taken, rest) := templateChunk cs
        (stop, c :: taken, rest)

theorem templateChunk_append (text : List Char) :
    (templateChunk text).2.1 ++ (templateChunk text).2.2 = text := by
  fun_induction templateChunk text <;> simp_all

end Scan

end Bundler
