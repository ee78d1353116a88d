/-!
# Byte ranges

Every token, node and diagnostic carries the half-open range of UTF-8 bytes it
covers in its source.  Ranges are plain pairs: nothing stops a range from being
reversed, so length and emptiness are total and saturate.
-/

namespace Bundler

/-- The bytes from `start` up to, but not including, `stop`. -/
structure Span where
  start : Nat
  stop : Nat
  deriving DecidableEq

namespace Span

/-- The empty range at one offset. -/
def point (offset : Nat) : Span := ⟨offset, offset⟩

def length (span : Span) : Nat := span.stop - span.start

def isEmpty (span : Span) : Bool := span.stop ≤ span.start

/-- Whether `inner` lies within `outer`. -/
def contains (outer inner : Span) : Bool :=
  outer.start ≤ inner.start && inner.stop ≤ outer.stop

/-- The least range that covers both. -/
def join (left right : Span) : Span :=
  ⟨min left.start right.start, max left.stop right.stop⟩

def joinOption (span : Span) : Option Span → Span
  | none => span
  | some other => span.join other

end Span

end Bundler
