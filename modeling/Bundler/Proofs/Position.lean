import Bundler.Proofs.Lexer.Gaps
import Bundler.Source.Position
import Mathlib.Data.List.DropRight
import Mathlib.Data.Prod.Lex
import Mathlib.Order.Bounds.Basic

/-!
# Lines and columns

Every character leads to a later position: a line feed to a later line, and any
other one to a later column of the same line.  So where characters begin or end
the positions are in the order of the offsets, and tell these apart.  An offset
within a character is taken back to the start of that, and one past the end of
the text to the end.
-/

namespace Bundler

namespace Text

variable {text : List Char} {before behind : Nat}

theorem byteLength_takeBytes_le (count : Nat) (text : List Char) :
    byteLength (takeBytes count text) ≤ count := by
  induction text generalizing count with
  | nil => exact Nat.zero_le _
  | cons c text ih =>
      rw [takeBytes]
      split
      · have hrest := ih (count - c.utf8Size)
        rw [byteLength]
        omega
      · exact Nat.zero_le _

theorem isBoundary_byteLength_takeBytes (count : Nat) (text : List Char) :
    IsBoundary text (byteLength (takeBytes count text)) :=
  ⟨_, _, (takeBytes_append_dropBytes count text).symm, rfl⟩

theorem IsBoundary.byteLength_takeBytes (hbefore : IsBoundary text before) :
    byteLength (takeBytes before text) = before := by
  obtain ⟨front, back, rfl, rfl⟩ := hbefore
  rw [takeBytes_byteLength_append]

/-- What is taken up to a later place goes on behind an earlier one. -/
theorem IsBoundary.takeBytes_eq (hbefore : IsBoundary text before)
    (hle : before ≤ behind) :
    takeBytes behind text = takeBytes before text ++
      takeBytes (behind - before) (dropBytes before text) := by
  obtain ⟨front, back, rfl, rfl⟩ := hbefore
  rw [takeBytes_append hle, takeBytes_byteLength_append,
    dropBytes_byteLength_append]

/-- As much as fits is taken. -/
theorem isGreatest_takeBytes (text : List Char) (offset : Nat) :
    IsGreatest ({boundary | IsBoundary text boundary} ∩ Set.Iic offset)
      (byteLength (takeBytes offset text)) := by
  refine ⟨⟨isBoundary_byteLength_takeBytes offset text,
    byteLength_takeBytes_le offset text⟩, ?_⟩
  rintro boundary ⟨hboundary, hle⟩
  calc boundary = byteLength (takeBytes boundary text) :=
        hboundary.byteLength_takeBytes.symm
    _ ≤ byteLength (takeBytes boundary text ++
          takeBytes (offset - boundary) (dropBytes boundary text)) := by
        rw [byteLength_append]
        exact Nat.le_add_right _ _
    _ = byteLength (takeBytes offset text) := by
        rw [← hboundary.takeBytes_eq hle]

/-- The characters behind the last line feed. -/
def lastLine (text : List Char) : List Char := text.rtakeWhile (· ≠ '\n')

end Text

namespace Position

open Text

/-- What positions are compared by: the line and then the column. -/
def lineColumn (position : Position) : ℕ ×ₗ ℕ :=
  toLex (position.line, position.column)

/-! ### Characters -/

theorem lineColumn_lt_advance (position : Position) (c : Char) :
    position.lineColumn < (position.advance c).lineColumn := by
  rw [lineColumn, lineColumn, Prod.Lex.toLex_lt_toLex, advance]
  split
  · exact .inl (Nat.lt_succ_self _)
  · exact .inr ⟨rfl, Nat.lt_succ_self _⟩

theorem lineColumn_lt_foldl_advance (position : Position) {more : List Char}
    (hmore : more ≠ []) :
    position.lineColumn < (more.foldl advance position).lineColumn := by
  induction more generalizing position with
  | nil => exact absurd rfl hmore
  | cons c more ih =>
      have hstep := lineColumn_lt_advance position c
      cases more with
      | nil => exact hstep
      | cons d more =>
          exact hstep.trans (ih (position.advance c) (List.cons_ne_nil d more))

theorem after_append (front more : List Char) :
    after (front ++ more) = more.foldl advance (after front) :=
  List.foldl_append

/-- The line counts the line feeds, and the column what stands behind the last one
of them. -/
theorem after_eq (text : List Char) :
    after text = ⟨lineFeeds text + 1, (lastLine text).length + 1⟩ := by
  induction text using List.reverseRecOn with
  | nil => rfl
  | append_singleton text c ih =>
      rw [after_append, List.foldl_cons, List.foldl_nil, ih, advance,
        lineFeeds, lineFeeds, List.count_append, lastLine, lastLine,
        List.rtakeWhile_concat]
      by_cases hfeed : c = '\n'
      · simp [hfeed]
      · simp [hfeed]

/-! ### Offsets -/

theorem strictMonoOn_ofOffset (text : List Char) :
    StrictMonoOn (lineColumn ∘ ofOffset text)
      {offset | IsBoundary text offset} := by
  intro before hbefore behind hbehind hless
  obtain ⟨more, htaken⟩ : ∃ more,
      takeBytes behind text = takeBytes before text ++ more :=
    ⟨_, hbefore.takeBytes_eq (Nat.le_of_lt hless)⟩
  have hmore : more ≠ [] := by
    rintro rfl
    have hbytes := congrArg byteLength htaken
    rw [List.append_nil, hbehind.byteLength_takeBytes,
      hbefore.byteLength_takeBytes] at hbytes
    exact hless.ne' hbytes
  calc (ofOffset text before).lineColumn <
        (more.foldl advance (ofOffset text before)).lineColumn :=
        lineColumn_lt_foldl_advance _ hmore
    _ = (ofOffset text behind).lineColumn := by
        rw [ofOffset, ofOffset, htaken, after_append]

theorem ofOffset_byteLength (front back : List Char) :
    ofOffset (front ++ back) (byteLength front) =
      ⟨lineFeeds front + 1, (lastLine front).length + 1⟩ := by
  rw [ofOffset, takeBytes_byteLength_append, after_eq]

theorem ofOffset_byteLength_takeBytes (text : List Char) (offset : Nat) :
    ofOffset text (byteLength (takeBytes offset text)) = ofOffset text offset := by
  have htaken := takeBytes_byteLength_append (takeBytes offset text)
    (dropBytes offset text)
  rw [takeBytes_append_dropBytes] at htaken
  rw [ofOffset, htaken, ofOffset]

/-- Positions are in the order of the offsets at which a source can be cut between
its characters, and no two of these have the same position.  The line is one more
than the line feeds in front, and the column one more than the characters behind
the last of these.  Any offset has the position of the last place for a cut that is
not behind it. -/
theorem ofOffset_ordered (source : String) :
    let boundaries := {offset | String.Pos.Raw.IsValid source ⟨offset⟩}
    StrictMonoOn (lineColumn ∘ ofOffset source.toList) boundaries ∧
    Set.InjOn (ofOffset source.toList) boundaries ∧
    (∀ front back, source = front ++ back →
      ofOffset source.toList front.utf8ByteSize =
        ⟨lineFeeds front.toList + 1, (lastLine front.toList).length + 1⟩) ∧
    ∀ offset, ∃ boundary, IsGreatest (boundaries ∩ Set.Iic offset) boundary ∧
      ofOffset source.toList offset = ofOffset source.toList boundary := by
  have hordered := strictMonoOn_ofOffset source.toList
  simp only [isBoundary_toList_iff] at hordered
  have hinjective : Set.InjOn (ofOffset source.toList)
      {offset | String.Pos.Raw.IsValid source ⟨offset⟩} :=
    fun _ hbefore _ hbehind hsame =>
      hordered.injOn hbefore hbehind (congrArg lineColumn hsame)
  refine ⟨hordered, hinjective, ?_, fun offset => ?_⟩
  · rintro front back rfl
    rw [String.toList_append, utf8ByteSize_eq, ofOffset_byteLength]
  · refine ⟨_, ?_, (ofOffset_byteLength_takeBytes source.toList offset).symm⟩
    have hgreatest := isGreatest_takeBytes source.toList offset
    simp only [isBoundary_toList_iff] at hgreatest
    exact hgreatest

/-- Two places with a line feed between them, and one within a character of four
bytes that stands behind both. -/
theorem ofOffset_ordered_lines :
    let source := "é\n😀x"
    String.Pos.Raw.IsValid source ⟨2⟩ ∧ String.Pos.Raw.IsValid source ⟨3⟩ ∧
      (ofOffset source.toList 2).lineColumn <
        (ofOffset source.toList 3).lineColumn ∧
      source = "é\n😀" ++ "x" ∧ ofOffset source.toList 7 = ⟨2, 2⟩ ∧
      ¬ String.Pos.Raw.IsValid source ⟨5⟩ ∧
      ofOffset source.toList 5 = ofOffset source.toList 3 := by
  obtain ⟨hordered, -, hcounts, hbetween⟩ := ofOffset_ordered "é\n😀x"
  have hbefore : String.Pos.Raw.IsValid "é\n😀x" ⟨2⟩ := by decide
  have hbehind : String.Pos.Raw.IsValid "é\n😀x" ⟨3⟩ := by decide
  have hlast : ∀ place ≤ 5, String.Pos.Raw.IsValid "é\n😀x" ⟨place⟩ →
      place ≤ 3 := by
    decide
  obtain ⟨boundary, hgreatest, hsame⟩ := hbetween 5
  obtain rfl : boundary = 3 :=
    Nat.le_antisymm (hlast boundary hgreatest.1.2 hgreatest.1.1)
      (hgreatest.2 ⟨hbehind, by decide⟩)
  exact ⟨hbefore, hbehind, hordered hbefore hbehind (by decide), rfl,
    hcounts "é\n😀" "x" rfl, by decide, hsame⟩

end Position

end Bundler
