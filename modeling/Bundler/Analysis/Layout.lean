import Bundler.Source.Text
import Bundler.Token.Basic

/-!
# Layout

How comments and blank lines go with the top-level statements of a module.  A
comment between two statements belongs to the latter, except for one that
starts on the line on which the former ends.
-/

namespace Bundler

/-- The comments of a statement, and the numbers of blank lines before and after
the statement with its comments. -/
structure Layout where
  leading : List Comment
  trailing : Option Comment
  blankBefore : Nat
  blankAfter : Nat
  deriving DecidableEq

/-- What stands between a statement and its predecessor, or the start of the
source: a comment that belongs to the predecessor, the comments of the
statement itself, and a number of blank lines. -/
structure Gap where
  trailing : Option Comment
  leading : List Comment
  blankLines : Nat

namespace Layout

/-- Splits the comments of a gap off from those behind it.  Comments that start
before the gap are part of the preceding statement. -/
def splitComments (gap : Span) (comments : List Comment) :
    List Comment × List Comment :=
  (comments.dropWhile (·.span.start < gap.start)).span
    (·.span.stop ≤ gap.stop)

/-- Splits off the first comment if it starts on the line of an offset. -/
def splitTrailing (text : List Char) (stop : Nat) (comments : List Comment) :
    Option Comment × List Comment :=
  match comments with
  | [] => (none, [])
  | first :: others =>
      if Text.breaksLine text ⟨stop, first.span.start⟩ then (none, comments)
      else (some first, others)

/-- The blank lines in a range. -/
def blankLines (text : List Char) (span : Span) : Nat :=
  Text.lineFeeds (Text.slice text span) - 1

/-- What stands in a gap; only a statement takes a trailing comment. -/
def gap (text : List Char) (isFirst : Bool) (span : Span)
    (comments : List Comment) : Gap :=
  let (trailing, leading) :=
    if isFirst then (none, comments)
    else splitTrailing text span.start comments
  let start := (trailing.map (·.span.stop)).getD span.start
  let stop := (leading.head?.map (·.span.start)).getD span.stop
  ⟨trailing, leading, blankLines text ⟨start, stop⟩⟩

/-- The gaps before statements, given the end of what precedes them, and the
comments behind the last gap. -/
def gaps (text : List Char) (isFirst : Bool) (previous : Nat)
    (statements : List Span) (comments : List Comment) :
    List Gap × List Comment :=
  match statements with
  | [] => ([], comments.dropWhile (·.span.start < previous))
  | statement :: others =>
      let span : Span := ⟨previous, statement.start⟩
      let (inside, behind) := splitComments span comments
      let (found, behind) := gaps text false statement.stop others behind
      (gap text isFirst span inside :: found, behind)

/-- The layouts of statements from the gaps before them.  `last` is the comment
behind the last one. -/
def ofGaps (last : Option Comment) : List Gap → List Layout
  | [] => []
  | [before] => [⟨before.leading, last, before.blankLines, 0⟩]
  | before :: after :: others =>
      ⟨before.leading, after.trailing, before.blankLines, after.blankLines⟩ ::
        ofGaps last (after :: others)

/-- The layouts of the top-level statements of a source. -/
def ofStatements (text : List Char) (statements : List Span)
    (comments : List Comment) : List Layout :=
  let (found, behind) := gaps text true 0 statements comments
  let stop := (statements.getLast?.map (·.stop)).getD 0
  ofGaps (splitTrailing text stop behind).1 found

end Layout

end Bundler
