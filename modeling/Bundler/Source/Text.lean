import Bundler.Source.Span

/-!
# Texts measured in bytes

Sources are lists of characters, but positions in them are UTF-8 byte offsets.
The functions here move between the two views.  Cutting a text never splits a
character: a cut that falls inside one moves back to its first byte, so
`takeBytes` and `dropBytes` always put the text together again.
-/

namespace Bundler

namespace Text

/-- The number of bytes that the UTF-8 encoding of a text takes. -/
def byteLength : List Char → Nat
  | [] => 0
  | c :: cs => c.utf8Size + byteLength cs

/-- The whole characters within the first `count` bytes. -/
def takeBytes : Nat → List Char → List Char
  | _, [] => []
  | count, c :: cs =>
      if c.utf8Size ≤ count then c :: takeBytes (count - c.utf8Size) cs else []

/-- What `takeBytes` leaves. -/
def dropBytes : Nat → List Char → List Char
  | _, [] => []
  | count, c :: cs =>
      if c.utf8Size ≤ count then dropBytes (count - c.utf8Size) cs else c :: cs

@[simp]
theorem takeBytes_append_dropBytes (count : Nat) (text : List Char) :
    takeBytes count text ++ dropBytes count text = text := by
  induction text generalizing count with
  | nil => rfl
  | cons c cs ih =>
      simp only [takeBytes, dropBytes]
      split
      · simp [ih]
      · simp

@[simp]
theorem byteLength_append (left right : List Char) :
    byteLength (left ++ right) = byteLength left + byteLength right := by
  induction left with
  | nil => simp [byteLength]
  | cons c cs ih => simp [byteLength, ih, Nat.add_assoc]

/-- The text that a byte range covers. -/
def slice (text : List Char) (span : Span) : List Char :=
  takeBytes (span.stop - span.start) (dropBytes span.start text)

/-- The slice as a string. -/
def cut (text : List Char) (span : Span) : String :=
  String.ofList (slice text span)

def lineFeeds (text : List Char) : Nat := text.count '\n'

/-- Whether the slice holds a line feed. -/
def breaksLine (text : List Char) (span : Span) : Bool :=
  (slice text span).contains '\n'

/-- The byte offset in `text` at which `word` first occurs. -/
def find? (word : List Char) : List Char → Option Nat
  | [] => if word.isEmpty then some 0 else none
  | c :: cs =>
      if word.isPrefixOf (c :: cs) then some 0
      else (find? word cs).map (c.utf8Size + ·)

end Text

end Bundler
