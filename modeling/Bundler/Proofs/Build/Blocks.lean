import Bundler.Analysis.Layout
import Bundler.Proofs.Build.ReadBack
import Mathlib.Data.List.TakeDrop

/-!
# Sources in blocks

A source may be laid out in blocks: comments on lines of their own, a statement
and a comment on its line, with blank lines between blocks.  From the comments
that stand outside of the statements, the layout of such a source is found to be
that of its blocks, and joining them in that layout gives the source back.
-/

namespace Bundler

/-- A statement with its comments, and the blank lines in front of them. -/
structure Block where
  blankBefore : Nat
  leading : List (List Char)
  statement : List Char
  trailing : Option (List Char)

namespace Block

/-- Comments on lines of their own. -/
def leadingText (comments : List (List Char)) : List Char :=
  comments.flatMap (· ++ ['\n'])

/-- The comment on the line of a statement. -/
def trailingText (comment : Option (List Char)) : List Char :=
  comment.toList.flatMap (' ' :: ·)

def text (block : Block) : List Char :=
  leadingText block.leading ++ block.statement ++ trailingText block.trailing

/-- Blocks one after the other, with the blank lines between them. -/
def source : List Block → List Char
  | [] => []
  | first :: others =>
      first.text ++ '\n' :: others.flatMap fun block =>
        List.replicate block.blankBefore '\n' ++ block.text ++ ['\n']

/-- Where comments on lines of their own stand from an offset on. -/
def leadingSpans (offset : Nat) : List (List Char) → List Span
  | [] => []
  | comment :: others =>
      let stop := offset + Text.byteLength comment
      ⟨offset, stop⟩ :: leadingSpans (stop + 1) others

/-- Where the comment stands behind a statement that ends at an offset. -/
def trailingSpan (offset : Nat) (comment : Option (List Char)) : List Span :=
  comment.toList.map fun comment =>
    ⟨offset + 1, offset + 1 + Text.byteLength comment⟩

/-- What stands in front of the comments of a block, behind the statement of the
one before it. -/
def lineEnds : Option (Option (List Char)) → Block → List Char
  | none, _ => []
  | some trailing, block =>
      trailingText trailing ++ '\n' :: List.replicate block.blankBefore '\n'

/-- The text from the end of a statement on, of which the trailing comment is
given, or from the start of the source. -/
def textFrom (previous : Option (Option (List Char))) :
    List Block → List Char
  | [] => previous.elim [] (trailingText · ++ ['\n'])
  | block :: others =>
      lineEnds previous block ++ leadingText block.leading ++
        block.statement ++ textFrom (some block.trailing) others

/-- Where the comments of a block start. -/
def startOf (previous : Option (Option (List Char))) (offset : Nat)
    (block : Block) : Nat :=
  offset + Text.byteLength (lineEnds previous block)

/-- Where the statement of a block stands. -/
def place (previous : Option (Option (List Char))) (offset : Nat)
    (block : Block) : Span :=
  let start := startOf previous offset block +
    Text.byteLength (leadingText block.leading)
  ⟨start, start + Text.byteLength block.statement⟩

/-- Where the statements of blocks stand from an offset on. -/
def placesFrom (previous : Option (Option (List Char))) (offset : Nat) :
    List Block → List Span
  | [] => []
  | block :: others =>
      let place := block.place previous offset
      place :: placesFrom (some block.trailing) place.stop others

/-- Where the comments in front of a statement stand, that of the previous one
first. -/
def gapSpans (previous : Option (Option (List Char))) (offset : Nat)
    (block : Block) : List Span :=
  previous.elim [] (trailingSpan offset) ++
    leadingSpans (startOf previous offset block) block.leading

/-- Where the comments of blocks stand from an offset on. -/
def commentsFrom (previous : Option (Option (List Char))) (offset : Nat) :
    List Block → List Span
  | [] => previous.elim [] (trailingSpan offset)
  | block :: others =>
      gapSpans previous offset block ++
        commentsFrom (some block.trailing) (block.place previous offset).stop
          others

/-- Where the statements of a source in blocks stand. -/
def places (blocks : List Block) : List Span := placesFrom none 0 blocks

/-- Where its comments stand. -/
def comments (blocks : List Block) : List Span := commentsFrom none 0 blocks

theorem textFrom_some (trailing : Option (List Char)) (blocks : List Block) :
    textFrom (some trailing) blocks =
      trailingText trailing ++ '\n' :: blocks.flatMap fun block =>
        List.replicate block.blankBefore '\n' ++ block.text ++ ['\n'] := by
  induction blocks generalizing trailing with
  | nil => rfl
  | cons block others ih =>
      rw [textFrom, ih, lineEnds, List.flatMap_cons, text]
      simp only [List.append_assoc, List.cons_append, List.nil_append]

theorem source_eq (blocks : List Block) :
    source blocks = textFrom none blocks := by
  cases blocks with
  | nil => rfl
  | cons block others =>
      rw [source, textFrom, textFrom_some, lineEnds, text]
      simp only [List.append_assoc, List.nil_append]

/-! ### Slices -/

theorem map_slice_leadingSpans (front rest : List Char)
    (leading : List (List Char)) :
    (leadingSpans (Text.byteLength front) leading).map
        (Text.slice (front ++ (leadingText leading ++ rest))) = leading := by
  induction leading generalizing front with
  | nil => rfl
  | cons comment others ih =>
      have hothers := ih (front ++ (comment ++ ['\n']))
      have hlength : Text.byteLength (front ++ (comment ++ ['\n'])) =
          Text.byteLength front + Text.byteLength comment + 1 := by
        simp [Text.byteLength, Nat.add_assoc, Char.utf8Size]
      have htext : front ++ (leadingText (comment :: others) ++ rest) =
          front ++ (comment ++ ['\n']) ++ (leadingText others ++ rest) := by
        simp [leadingText]
      rw [leadingSpans, List.map_cons, htext, ← hlength, hothers]
      congr 1
      have hslice := Bundle.slice_append front comment
        ('\n' :: (leadingText others ++ rest))
      simpa using hslice

theorem map_slice_trailingSpan (front rest : List Char)
    (trailing : Option (List Char)) :
    (trailingSpan (Text.byteLength front) trailing).map
        (Text.slice (front ++ (trailingText trailing ++ rest))) =
      trailing.toList := by
  cases trailing with
  | none => rfl
  | some comment =>
      have hslice := Bundle.slice_append (front ++ [' ']) comment rest
      have hlength : Text.byteLength (front ++ [' ']) =
          Text.byteLength front + 1 := by
        simp [Text.byteLength, Char.utf8Size]
      rw [hlength] at hslice
      simpa [trailingSpan, trailingText] using hslice

/-- The comments on lines of their own start where their text does. -/
theorem start_leadingSpans (offset : Nat) (leading : List (List Char)) :
    ((leadingSpans offset leading).head?.map (·.start)).getD
      (offset + Text.byteLength (leadingText leading)) = offset := by
  cases leading <;> rfl

theorem slice_lineFeeds (front rest : List Char) (count : Nat) :
    Text.slice (front ++ ('\n' :: List.replicate count '\n' ++ rest))
        ⟨Text.byteLength front, Text.byteLength front + (count + 1)⟩ =
      '\n' :: List.replicate count '\n' := by
  have hslice := Bundle.slice_append front ('\n' :: List.replicate count '\n')
    rest
  rw [← List.replicate_succ, Bundle.byteLength_replicate_lineFeed] at hslice
  rw [← List.replicate_succ, ← List.append_assoc]
  exact hslice

theorem blankLines_lineFeeds (front rest : List Char) (count : Nat) :
    Layout.blankLines (front ++ ('\n' :: List.replicate count '\n' ++ rest))
      ⟨Text.byteLength front, Text.byteLength front + (count + 1)⟩ = count := by
  rw [Layout.blankLines, slice_lineFeeds, Text.lineFeeds, List.count_cons_self,
    List.count_replicate_self, Nat.add_sub_cancel]

theorem blankLines_empty (text : List Char) (offset : Nat) :
    Layout.blankLines text ⟨offset, offset⟩ = 0 := by
  have hempty : Text.slice text ⟨offset, offset⟩ = [] := by
    rw [Text.slice, Nat.sub_self]
    cases Text.dropBytes offset text with
    | nil => rfl
    | cons c cs =>
        rw [Text.takeBytes, if_neg (Nat.not_le_of_gt c.utf8Size_pos)]
  rw [Layout.blankLines, hempty]
  rfl

/-! ### Gaps -/

/-- What is found in front of a statement is what its block has there. -/
structure Describes (text : List Char) (previous : Option (Option (List Char)))
    (block : Block) (gap : Gap) : Prop where
  leading : gap.leading.map (Text.slice text ·.span) = block.leading
  trailing : gap.trailing.map (Text.slice text ·.span) = previous.join
  blankLines : gap.blankLines =
    if previous.isSome then block.blankBefore else 0

variable {front rest text : List Char} {block : Block}
  {previous : Option (Option (List Char))} {trailing : Option (List Char)}
  {leading : List (List Char)} {inside others : List Comment}

/-- The first comment on a line of its own starts where such comments do. -/
theorem start_of_leadingSpans {offset : Nat}
    (hinside : inside.map (·.span) = leadingSpans offset leading) :
    (inside.head?.map (·.span.start)).getD
      (offset + Text.byteLength (leadingText leading)) = offset := by
  have hhead : inside.head?.map (·.span.start) =
      (leadingSpans offset leading).head?.map (·.start) := by
    rw [← hinside, List.head?_map, Option.map_map]
    rfl
  rw [hhead, start_leadingSpans]

/-- The comment on the line of a statement is split off, and no other. -/
theorem splitTrailing_eq {count : Nat}
    (htext : text = front ++ (trailingText trailing ++
      ('\n' :: List.replicate count '\n' ++ rest)))
    (hinside : inside.map (·.span) =
      trailingSpan (Text.byteLength front) trailing ++
        leadingSpans (Text.byteLength front +
          Text.byteLength (trailingText trailing) + (count + 1)) leading) :
    let split := Layout.splitTrailing text (Text.byteLength front) inside
    split.1.toList.map (·.span) =
        trailingSpan (Text.byteLength front) trailing ∧
      split.2.map (·.span) = leadingSpans (Text.byteLength front +
        Text.byteLength (trailingText trailing) + (count + 1)) leading := by
  cases trailing with
  | none =>
      cases inside with
      | nil => exact ⟨rfl, hinside⟩
      | cons first others =>
          have hstart := start_of_leadingSpans hinside
          have hbreaks : Text.breaksLine text
              ⟨Text.byteLength front, first.span.start⟩ = true := by
            have hslice := slice_lineFeeds front rest count
            simp only [List.head?_cons, Option.map_some, Option.getD_some]
              at hstart
            rw [Text.breaksLine, hstart, htext]
            simp only [trailingText, Option.toList_none, List.flatMap_nil,
              Text.byteLength, Nat.add_zero, List.nil_append, hslice]
            simp
          rw [Layout.splitTrailing, if_pos hbreaks]
          exact ⟨rfl, hinside⟩
  | some comment =>
      obtain ⟨first, others, rfl, hfirst, hothers⟩ :=
        List.map_eq_cons_iff.mp hinside
      have hbreaks : Text.breaksLine text
          ⟨Text.byteLength front, first.span.start⟩ = false := by
        have hslice := Bundle.slice_append front [' '] (comment ++
          ('\n' :: List.replicate count '\n' ++ rest))
        rw [Text.breaksLine, hfirst, htext]
        simp only [trailingText, Option.toList_some, List.flatMap_singleton,
          List.cons_append, List.append_assoc, Text.byteLength,
          Char.utf8Size] at hslice ⊢
        simp_all
      rw [Layout.splitTrailing, hbreaks]
      exact ⟨congrArg (fun span => [span]) hfirst, hothers⟩

/-- What stands behind the comment on the line of a statement, or behind the
statement itself. -/
theorem stop_of_trailingSpan {offset : Nat} {found : Option Comment}
    (hfound : found.toList.map (·.span) = trailingSpan offset trailing) :
    (found.map (·.span.stop)).getD offset =
      offset + Text.byteLength (trailingText trailing) := by
  cases found with
  | none =>
      cases trailing with
      | none => rfl
      | some comment => cases hfound
  | some found =>
      cases trailing with
      | none => cases hfound
      | some comment =>
          have hspan := (List.cons.inj hfound).1
          simp only [Option.map_some, Option.getD_some, hspan, trailingText,
            Option.toList_some, List.flatMap_singleton, Text.byteLength]
          rw [Nat.add_assoc]
          rfl

/-- The comment found on the line of a statement is the one written there. -/
theorem slice_of_trailingSpan {found : Option Comment}
    (htext : text = front ++ (trailingText trailing ++ rest))
    (hfound : found.toList.map (·.span) =
      trailingSpan (Text.byteLength front) trailing) :
    found.map (Text.slice text ·.span) = trailing := by
  have hslices := map_slice_trailingSpan front rest trailing
  rw [← hfound, List.map_map, ← htext] at hslices
  have hlists : (found.map (Text.slice text ·.span)).toList =
      trailing.toList := by
    rw [Option.toList_map]
    exact hslices
  simpa using congrArg List.head? hlists

theorem describes_gap
    (htext : text = front ++ (lineEnds previous block ++
      (leadingText block.leading ++ rest)))
    (hinside : inside.map (·.span) =
      gapSpans previous (Text.byteLength front) block) :
    Describes text previous block
      (Layout.gap text previous.isNone
        ⟨Text.byteLength front,
          (block.place previous (Text.byteLength front)).start⟩ inside) := by
  cases previous with
  | none =>
      have hstart := start_of_leadingSpans hinside
      refine ⟨?_, rfl, ?_⟩
      · have hslices := map_slice_leadingSpans front rest block.leading
        rw [show leadingSpans (Text.byteLength front) block.leading =
          inside.map (·.span) from hinside.symm, List.map_map] at hslices
        rw [htext]
        exact hslices
      · have hblank := blankLines_empty text (Text.byteLength front)
        change Layout.blankLines text ⟨Text.byteLength front,
          (inside.head?.map (·.span.start)).getD
            (block.place none (Text.byteLength front)).start⟩ = 0
        rw [show (block.place none (Text.byteLength front)).start =
          Text.byteLength front +
            Text.byteLength (leadingText block.leading) from rfl]
        exact hstart.symm ▸ hblank
  | some trailing =>
      have hends : lineEnds (some trailing) block ++
          (leadingText block.leading ++ rest) = trailingText trailing ++
            ('\n' :: List.replicate block.blankBefore '\n' ++
              (leadingText block.leading ++ rest)) := by
        rw [lineEnds, List.append_assoc]
      rw [hends] at htext
      have hstartOf : startOf (some trailing) (Text.byteLength front) block =
          Text.byteLength front + Text.byteLength (trailingText trailing) +
            (block.blankBefore + 1) := by
        rw [startOf, lineEnds, Text.byteLength_append, ← List.replicate_succ,
          Bundle.byteLength_replicate_lineFeed, Nat.add_assoc]
      rw [gapSpans, hstartOf] at hinside
      obtain ⟨hfound, hleading⟩ := splitTrailing_eq htext hinside
      have hstop := stop_of_trailingSpan hfound
      have hstart := start_of_leadingSpans hleading
      rw [show (block.place (some trailing) (Text.byteLength front)).start =
        startOf (some trailing) (Text.byteLength front) block +
          Text.byteLength (leadingText block.leading) from rfl, hstartOf]
      rw [Option.isNone_some, Layout.gap, if_neg Bool.false_ne_true]
      generalize Layout.splitTrailing text (Text.byteLength front) inside =
        split at hfound hleading hstop hstart ⊢
      refine ⟨?_, ?_, ?_⟩
      · have hslices := map_slice_leadingSpans
          (front ++ trailingText trailing ++
            '\n' :: List.replicate block.blankBefore '\n') rest block.leading
        rw [Text.byteLength_append, Text.byteLength_append,
          ← List.replicate_succ, Bundle.byteLength_replicate_lineFeed,
          ← hleading, List.map_map, List.replicate_succ] at hslices
        rw [htext]
        simp only [List.append_assoc] at hslices ⊢
        exact hslices
      · exact slice_of_trailingSpan htext hfound
      · have hblank := blankLines_lineFeeds (front ++ trailingText trailing)
          (leadingText block.leading ++ rest) block.blankBefore
        rw [Text.byteLength_append, List.append_assoc, ← htext] at hblank
        dsimp only
        rw [hstop, hstart]
        exact hblank

/-! ### Places -/

section Bounds

variable {offset : Nat} {blocks : List Block} {span : Span}

theorem bounds_leadingSpans (hspan : span ∈ leadingSpans offset leading) :
    offset ≤ span.start ∧
      span.stop ≤ offset + Text.byteLength (leadingText leading) := by
  induction leading generalizing offset with
  | nil => exact absurd hspan List.not_mem_nil
  | cons comment others ih =>
      have hlength : Text.byteLength (leadingText (comment :: others)) =
          Text.byteLength comment + 1 +
            Text.byteLength (leadingText others) := by
        simp [leadingText, Text.byteLength, Char.utf8Size, Nat.add_assoc]
      rcases List.mem_cons.mp hspan with rfl | hothers
      · dsimp only
        omega
      · have hbounds := ih hothers
        omega

theorem bounds_trailingSpan (hspan : span ∈ trailingSpan offset trailing) :
    offset ≤ span.start ∧
      span.stop ≤ offset + Text.byteLength (trailingText trailing) := by
  obtain ⟨comment, hcomment, rfl⟩ := List.mem_map.mp hspan
  obtain rfl := Option.mem_toList.mp hcomment
  simp only [trailingText, Option.toList_some, List.flatMap_singleton,
    Text.byteLength, Char.utf8Size]
  simp
  omega

theorem le_place (previous : Option (Option (List Char))) (offset : Nat)
    (block : Block) :
    offset ≤ (block.place previous offset).start ∧
      (block.place previous offset).start ≤
        (block.place previous offset).stop := by
  simp only [place, startOf]
  omega

/-- The comments in front of a statement stand in front of it. -/
theorem bounds_gapSpans (hspan : span ∈ gapSpans previous offset block) :
    offset ≤ span.start ∧ span.stop ≤ (block.place previous offset).start := by
  rcases List.mem_append.mp hspan with htrailing | hleading
  · cases previous with
    | none => exact absurd htrailing List.not_mem_nil
    | some trailing =>
        have hbounds := bounds_trailingSpan htrailing
        simp only [place, startOf, lineEnds, Text.byteLength_append]
        omega
  · have hbounds := bounds_leadingSpans hleading
    simp only [place, startOf] at hbounds ⊢
    omega

theorem le_start_placesFrom (hspan : span ∈ placesFrom previous offset blocks) :
    offset ≤ span.start := by
  induction blocks generalizing previous offset with
  | nil => exact absurd hspan List.not_mem_nil
  | cons block others ih =>
      have hplace := le_place previous offset block
      rcases List.mem_cons.mp hspan with rfl | hothers
      · exact hplace.1
      · have hlater := ih hothers
        omega

theorem le_start_commentsFrom
    (hspan : span ∈ commentsFrom previous offset blocks) :
    offset ≤ span.start := by
  induction blocks generalizing previous offset with
  | nil =>
      cases previous with
      | none => exact absurd hspan List.not_mem_nil
      | some trailing => exact (bounds_trailingSpan hspan).1
  | cons block others ih =>
      have hplace := le_place previous offset block
      rcases List.mem_append.mp hspan with hgap | hothers
      · exact (bounds_gapSpans hgap).1
      · have hlater := ih hothers
        omega

end Bounds

/-! ### Comments outside of statements -/

section Sorted

variable {α : Type} {values : List α} {test : α → Bool}

/-- Taking what passes a test is filtering if nothing passes behind what
fails. -/
theorem takeWhile_eq_filter (hordered : values.Pairwise fun first second =>
      test second = true → test first = true) :
    values.takeWhile test = values.filter test ∧
      values.dropWhile test = values.filter (!test ·) := by
  induction values with
  | nil => exact ⟨rfl, rfl⟩
  | cons value values ih =>
      obtain ⟨hfirst, hothers⟩ := List.pairwise_cons.mp hordered
      obtain ⟨htake, hdrop⟩ := ih hothers
      cases htest : test value with
      | true => simp [htest, htake, hdrop]
      | false =>
          have hfail : ∀ other ∈ values, test other = false :=
            fun other hother => Bool.eq_false_iff.mpr fun hpass => by
              rw [hfirst other hother hpass] at htest
              cases htest
          have hnone : values.filter test = [] :=
            List.filter_eq_nil_iff.mpr fun other hother => by
              simp [hfail other hother]
          have hall : values.filter (!test ·) = values :=
            List.filter_eq_self.mpr fun other hother => by
              simp [hfail other hother]
          simp [htest, hnone, hall]

end Sorted

/-- A comment starts in no statement at the places given. -/
def standsOutside (places : List Span) (comment : Comment) : Bool :=
  places.all fun place =>
    !(decide (place.start ≤ comment.span.start) &&
      decide (comment.span.start < place.stop))

/-- Listed comments are in order, and each of them has a text. -/
structure InOrder (comments : List Comment) : Prop where
  sorted : comments.Pairwise fun first second =>
    first.span.start < second.span.start
  written : ∀ comment ∈ comments, comment.span.start < comment.span.stop

theorem InOrder.filter {comments : List Comment} (h : InOrder comments)
    (test : Comment → Bool) : InOrder (comments.filter test) :=
  ⟨h.sorted.filter test, fun comment hcomment =>
    h.written comment (List.mem_of_mem_filter hcomment)⟩

/-- The comments from an offset on that stand outside of statements are those of
blocks. -/
def Matches (previous : Option (Option (List Char))) (offset : Nat)
    (blocks : List Block) (comments : List Comment) : Prop :=
  (comments.filter fun comment => decide (offset ≤ comment.span.start) &&
      standsOutside (placesFrom previous offset blocks) comment).map (·.span) =
    commentsFrom previous offset blocks

section Cut

variable {comments : List Comment} {offset : Nat} {blocks : List Block}

/-- In front of a statement stand the comments of the gap there, and behind it
those of the other blocks. -/
theorem Matches.cut (h : Matches previous offset (block :: blocks) comments)
    (hordered : InOrder comments) :
    let place := block.place previous offset
    (comments.filter fun comment => decide (offset ≤ comment.span.start) &&
        decide (comment.span.start < place.start)).map (·.span) =
      gapSpans previous offset block ∧
    Matches (some block.trailing) place.stop blocks comments := by
  intro place
  have hplace := le_place previous offset block
  rw [Matches, commentsFrom] at h
  have hgap : ∀ span ∈ gapSpans previous offset block,
      span.start < place.start := by
    intro span hspan
    have hlisted := h ▸ List.mem_append_left _ hspan
    obtain ⟨comment, hcomment, rfl⟩ := List.mem_map.mp hlisted
    exact Nat.lt_of_lt_of_le
      (hordered.written comment (List.mem_of_mem_filter hcomment))
      (bounds_gapSpans hspan).2
  have hrest : ∀ span ∈ commentsFrom (some block.trailing) place.stop blocks,
      place.start ≤ span.start := fun span hspan =>
    Nat.le_trans hplace.2 (le_start_commentsFrom hspan)
  constructor
  · have hgapAll : (gapSpans previous offset block).filter (fun span =>
        decide (span.start < place.start)) =
          gapSpans previous offset block :=
      List.filter_eq_self.mpr fun span hspan => decide_eq_true (hgap span hspan)
    have hrestNone : (commentsFrom (some block.trailing) place.stop
        blocks).filter (fun span => decide (span.start < place.start)) = [] :=
      List.filter_eq_nil_iff.mpr fun span hspan => by simp [hrest span hspan]
    have hbefore := congrArg
      (List.filter fun span => decide (span.start < place.start)) h
    rw [List.filter_append, hgapAll, hrestNone, List.append_nil,
      List.filter_map, List.filter_filter] at hbefore
    rw [← hbefore]
    congr 1
    refine List.filter_congr fun comment _ => Bool.eq_iff_iff.mpr ?_
    simp only [Function.comp_apply, Bool.and_eq_true, decide_eq_true_eq,
      standsOutside, List.all_eq_true, Bool.not_eq_true',
      Bool.and_eq_false_iff, decide_eq_false_iff_not]
    constructor
    · rintro ⟨hoffset, hstart⟩
      refine ⟨hstart, hoffset, fun other hother => .inl ?_⟩
      rcases List.mem_cons.mp hother with rfl | hlater
      · exact Nat.not_le_of_gt hstart
      · have hbehind := le_start_placesFrom hlater
        exact Nat.not_le_of_gt (Nat.lt_of_lt_of_le hstart
          (Nat.le_trans hplace.2 hbehind))
    · exact fun ⟨hstart, hoffset, _⟩ => ⟨hoffset, hstart⟩
  · have hgapNone : (gapSpans previous offset block).filter (fun span =>
        !decide (span.start < place.start)) = [] :=
      List.filter_eq_nil_iff.mpr fun span hspan => by simp [hgap span hspan]
    have hrestAll : (commentsFrom (some block.trailing) place.stop
        blocks).filter (fun span => !decide (span.start < place.start)) =
          commentsFrom (some block.trailing) place.stop blocks :=
      List.filter_eq_self.mpr fun span hspan => by simp [hrest span hspan]
    have hbehind := congrArg
      (List.filter fun span => !decide (span.start < place.start)) h
    rw [List.filter_append, hgapNone, hrestAll, List.nil_append,
      List.filter_map, List.filter_filter] at hbehind
    rw [Matches, ← hbehind]
    congr 1
    refine List.filter_congr fun comment _ => Bool.eq_iff_iff.mpr ?_
    simp only [Function.comp_apply, Bool.and_eq_true, decide_eq_true_eq,
      standsOutside, placesFrom, List.all_cons, Bool.not_eq_true',
      Bool.and_eq_false_iff, decide_eq_false_iff_not]
    refine ⟨fun ⟨hstop, houtside⟩ => ⟨?_, ?_, ?_, houtside⟩,
      fun ⟨hstart, _, hthis, houtside⟩ => ⟨?_, houtside⟩⟩
    · exact Nat.not_lt_of_le (Nat.le_trans hplace.2 hstop)
    · exact Nat.le_trans (Nat.le_trans hplace.1 hplace.2) hstop
    · exact .inr (Nat.not_lt_of_le hstop)
    · exact Nat.le_of_not_lt (hthis.resolve_left
        (not_not_intro (Nat.le_of_not_lt hstart)))

/-- What is passed over in front of an offset is what starts there. -/
theorem InOrder.dropWhile_start (hordered : InOrder comments) (offset : Nat) :
    comments.dropWhile (fun comment => decide (comment.span.start < offset)) =
      comments.filter fun comment => decide (offset ≤ comment.span.start) := by
  rw [(takeWhile_eq_filter (hordered.sorted.imp fun hless hpass => by
    simp only [decide_eq_true_eq] at hpass ⊢
    exact Nat.lt_trans hless hpass)).2]
  refine List.filter_congr fun comment _ => ?_
  rw [← decide_not]
  exact decide_eq_decide.mpr Nat.not_lt

/-- Comments that start in front of the offset do not count for what stands
behind it. -/
theorem Matches.filter {test : Comment → Bool}
    (h : Matches previous offset blocks comments)
    (htest : ∀ comment ∈ comments, offset ≤ comment.span.start →
      test comment = true) :
    Matches previous offset blocks (comments.filter test) := by
  rw [Matches, List.filter_filter, ← h]
  congr 1
  refine List.filter_congr fun comment hcomment => ?_
  cases hoffset : decide (offset ≤ comment.span.start) with
  | false => rfl
  | true => rw [htest comment hcomment (of_decide_eq_true hoffset),
      Bool.and_true]

/-- In front of a statement the comments of the gap there are split off. -/
theorem splitComments_eq
    (h : Matches previous offset (block :: blocks) comments)
    (hordered : InOrder comments) :
    let place := block.place previous offset
    let split := Layout.splitComments ⟨offset, place.start⟩ comments
    split.1.map (·.span) = gapSpans previous offset block ∧
      Matches (some block.trailing) place.stop blocks split.2 ∧
      InOrder split.2 := by
  intro place split
  obtain ⟨hgap, hbehind⟩ := h.cut hordered
  have hplace : offset ≤ place.start ∧ place.start ≤ place.stop :=
    le_place previous offset block
  -- A comment in front of the statement ends there, since it is one of the gap.
  have htests : ∀ comment ∈ comments.filter
      (fun comment => decide (offset ≤ comment.span.start)),
      decide (comment.span.stop ≤ place.start) =
        decide (comment.span.start < place.start) := by
    intro comment hcomment
    obtain ⟨hlisted, hoffset⟩ := List.mem_filter.mp hcomment
    refine decide_eq_decide.mpr ⟨fun hstop =>
      Nat.lt_of_lt_of_le (hordered.written comment hlisted) hstop,
      fun hstart => ?_⟩
    have hspan : comment.span ∈ gapSpans previous offset block := by
      rw [← hgap]
      refine List.mem_map_of_mem (List.mem_filter.mpr ⟨hlisted, ?_⟩)
      rw [hoffset, decide_eq_true hstart, Bool.and_self]
    exact (bounds_gapSpans hspan).2
  have hsorted : (comments.filter fun comment =>
      decide (offset ≤ comment.span.start)).Pairwise fun first second =>
        decide (second.span.stop ≤ place.start) = true →
          decide (first.span.stop ≤ place.start) = true :=
    (hordered.filter _).sorted.imp_of_mem fun hfirst hsecond hless => by
      rw [htests _ hfirst, htests _ hsecond]
      simp only [decide_eq_true_eq]
      exact Nat.lt_trans hless
  have hsplit : split = _ := List.span_eq_takeWhile_dropWhile _ _
  rw [hordered.dropWhile_start, (takeWhile_eq_filter hsorted).1,
    (takeWhile_eq_filter hsorted).2, List.filter_congr htests] at hsplit
  rw [hsplit]
  refine ⟨?_, ?_, (hordered.filter _).filter _⟩
  · rw [List.filter_filter, ← hgap]
    congr 1
    exact List.filter_congr fun comment _ => Bool.and_comm _ _
  · dsimp only
    rw [List.filter_filter]
    refine hbehind.filter fun comment hlisted hstop => ?_
    have hstart : offset ≤ comment.span.start :=
      Nat.le_trans (Nat.le_trans hplace.1 hplace.2) hstop
    rw [htests comment (List.mem_filter.mpr ⟨hlisted, decide_eq_true hstart⟩),
      decide_eq_true hstart, Bool.and_true, Bool.not_eq_true',
      decide_eq_false_iff_not]
    exact Nat.not_lt_of_le (Nat.le_trans hplace.2 hstop)

end Cut

/-! ### Layouts -/

/-- What is found in front of each statement is what its block has there. -/
inductive DescribesAll (text : List Char) :
    Option (Option (List Char)) → List Block → List Gap → Prop
  | nil {previous : Option (Option (List Char))} :
      DescribesAll text previous [] []
  | cons {previous : Option (Option (List Char))} {block : Block}
      {blocks : List Block} {gap : Gap} {gaps : List Gap}
      (first : Describes text previous block gap)
      (others : DescribesAll text (some block.trailing) blocks gaps) :
      DescribesAll text previous (block :: blocks) (gap :: gaps)

/-- The comment behind the last statement. -/
def lastTrailing (previous : Option (Option (List Char))) :
    List Block → Option (List Char)
  | [] => previous.join
  | block :: others => lastTrailing (some block.trailing) others

/-- Behind the last statement only the comment on its line is left. -/
theorem splitTrailing_last {comments : List Comment}
    (htext : text = front ++ textFrom previous [])
    (h : Matches previous (Text.byteLength front) [] comments)
    (hordered : InOrder comments) :
    (Layout.splitTrailing text (Text.byteLength front)
        (comments.dropWhile fun comment =>
          decide (comment.span.start < Text.byteLength front))).1.map
      (Text.slice text ·.span) = previous.join := by
  have hleft : (comments.dropWhile fun comment => decide
      (comment.span.start < Text.byteLength front)).map (·.span) =
        commentsFrom previous (Text.byteLength front) [] := by
    rw [hordered.dropWhile_start, ← h]
    simp [standsOutside, placesFrom]
  generalize comments.dropWhile (fun comment => decide
    (comment.span.start < Text.byteLength front)) = left at hleft ⊢
  cases previous with
  | none =>
      obtain rfl := List.map_eq_nil_iff.mp hleft
      rfl
  | some trailing =>
      have hone : text = front ++ (trailingText trailing ++
          ('\n' :: List.replicate 0 '\n' ++ [])) := by
        rw [htext]
        rfl
      have hsplit := splitTrailing_eq hone
        (show left.map (·.span) = _ ++ leadingSpans _ [] by
          rw [hleft, leadingSpans, List.append_nil]
          rfl)
      exact slice_of_trailingSpan hone hsplit.1

/-- The gaps found in a source from the end of a statement on are those of the
blocks there. -/
theorem describesAll_gaps {blocks : List Block} {comments : List Comment}
    (htext : text = front ++ textFrom previous blocks)
    (h : Matches previous (Text.byteLength front) blocks comments)
    (hordered : InOrder comments) :
    let places := placesFrom previous (Text.byteLength front) blocks
    let stop := (places.getLast?.map (·.stop)).getD (Text.byteLength front)
    let found := Layout.gaps text previous.isNone (Text.byteLength front)
      places comments
    DescribesAll text previous blocks found.1 ∧
      (Layout.splitTrailing text stop found.2).1.map (Text.slice text ·.span) =
        lastTrailing previous blocks := by
  induction blocks generalizing front previous comments with
  | nil => exact ⟨.nil, splitTrailing_last htext h hordered⟩
  | cons block others ih =>
      obtain ⟨hinside, hbehind, hlater⟩ := splitComments_eq h hordered
      have hhere : text = front ++ (lineEnds previous block ++
          (leadingText block.leading ++ (block.statement ++
            textFrom (some block.trailing) others))) := by
        rw [htext, textFrom]
        simp only [List.append_assoc]
      have hgap := describes_gap hhere hinside
      have hstop : (block.place previous (Text.byteLength front)).stop =
          Text.byteLength (front ++ (lineEnds previous block ++
            (leadingText block.leading ++ block.statement))) := by
        simp only [place, startOf, Text.byteLength_append, Nat.add_assoc]
      rw [hstop] at hbehind
      have hthere : text = front ++ (lineEnds previous block ++
          (leadingText block.leading ++ block.statement)) ++
            textFrom (some block.trailing) others := by
        rw [hhere]
        simp only [List.append_assoc]
      obtain ⟨hothers, hlast⟩ := ih hthere hbehind hlater
      rw [← hstop] at hothers hlast
      refine ⟨.cons hgap hothers, ?_⟩
      rw [lastTrailing, ← hlast, placesFrom, List.getLast?_cons]
      rw [Option.map_some, Option.getD_some,
        Option.getD_map (·.stop) (block.place previous _)]
      rfl

/-- A layout is that of a block in front of others.  The blank lines in front of
the first block, which has no previous statement, are not found. -/
structure HasLayout (text : List Char) (block : Block) (others : List Block)
    (layout : Layout) : Prop where
  leading : layout.leading.map (Text.slice text ·.span) = block.leading
  trailing : layout.trailing.map (Text.slice text ·.span) = block.trailing
  blankBefore : layout.blankBefore ≤ block.blankBefore
  blankAfter : layout.blankAfter =
    (others.head?.map (·.blankBefore)).getD 0

/-- Layouts are those of blocks, one for each. -/
inductive HaveLayouts (text : List Char) : List Block → List Layout → Prop
  | nil : HaveLayouts text [] []
  | cons {block : Block} {others : List Block} {layout : Layout}
      {layouts : List Layout} (first : HasLayout text block others layout)
      (rest : HaveLayouts text others layouts) :
      HaveLayouts text (block :: others) (layout :: layouts)

theorem haveLayouts_ofGaps {blocks : List Block} {gaps : List Gap}
    {last : Option Comment} (h : DescribesAll text previous blocks gaps)
    (hlast : last.map (Text.slice text ·.span) =
      lastTrailing previous blocks) :
    HaveLayouts text blocks (Layout.ofGaps last gaps) := by
  have hblank : ∀ {previous block gap}, Describes text previous block gap →
      gap.blankLines ≤ block.blankBefore := by
    intro previous block gap hgap
    rw [hgap.blankLines]
    split
    · exact Nat.le_refl _
    · exact Nat.zero_le _
  induction h with
  | nil => exact .nil
  | cons first others ih =>
      cases others with
      | nil => exact .cons ⟨first.leading, hlast, hblank first, rfl⟩ .nil
      | cons second others =>
          refine .cons ⟨first.leading, second.trailing, hblank first, ?_⟩
            (ih hlast)
          exact second.blankLines

/-- The layouts found in a source in blocks are those of the blocks. -/
theorem haveLayouts_ofStatements {blocks : List Block}
    {comments : List Comment} (h : Matches none 0 blocks comments)
    (hordered : InOrder comments) :
    HaveLayouts (source blocks) blocks
      (Layout.ofStatements (source blocks) (places blocks) comments) := by
  have htext : source blocks = [] ++ textFrom none blocks := source_eq blocks
  obtain ⟨hgaps, hlast⟩ := describesAll_gaps htext h hordered
  exact haveLayouts_ofGaps hgaps hlast

/-! ### Joining -/

/-- The statements stand at their places. -/
theorem map_slice_placesFrom {blocks : List Block}
    (htext : text = front ++ textFrom previous blocks) :
    (placesFrom previous (Text.byteLength front) blocks).map
      (Text.slice text) = blocks.map (·.statement) := by
  induction blocks generalizing front previous with
  | nil => rfl
  | cons block others ih =>
      have hthere : text = front ++ (lineEnds previous block ++
          leadingText block.leading) ++ block.statement ++
            textFrom (some block.trailing) others := by
        rw [htext, textFrom]
        simp only [List.append_assoc]
      have hstart : (block.place previous (Text.byteLength front)).start =
          Text.byteLength (front ++ (lineEnds previous block ++
            leadingText block.leading)) := by
        simp only [place, startOf, Text.byteLength_append, Nat.add_assoc]
      have hstop : (block.place previous (Text.byteLength front)).stop =
          Text.byteLength (front ++ (lineEnds previous block ++
            leadingText block.leading)) + Text.byteLength block.statement := by
        rw [← hstart]
        rfl
      have hothers := ih hthere
      rw [Text.byteLength_append, ← hstop] at hothers
      rw [placesFrom, List.map_cons, List.map_cons, hothers]
      have hslice := Bundle.slice_append (front ++ (lineEnds previous block ++
        leadingText block.leading)) block.statement
          (textFrom (some block.trailing) others)
      rw [← hthere, ← hstart] at hslice
      rw [← hstart] at hstop
      rw [← hstop] at hslice
      rw [← hslice]

theorem map_slice_places (blocks : List Block) :
    (places blocks).map (Text.slice (source blocks)) =
      blocks.map (·.statement) := by
  have htext : source blocks = [] ++ textFrom none blocks := source_eq blocks
  exact map_slice_placesFrom htext

end Block

/-- The chunk of a statement that is written with the comments of its layout. -/
def Layout.chunk (path : Path) (text statement : List Char)
    (layout : Layout) : Chunk where
  module := path
  blankBefore := layout.blankBefore
  blankAfter := layout.blankAfter
  leading := layout.leading.flatMap (Text.slice text ·.span ++ ['\n'])
  statement := statement
  trailing := layout.trailing.toList.flatMap
    fun comment => ' ' :: Text.slice text comment.span

namespace Block

variable {text : List Char} {block : Block} {others blocks : List Block}

theorem HasLayout.text_chunk {layout : Layout} (path : Path)
    (h : HasLayout text block others layout) :
    (layout.chunk path text block.statement).text = block.text := by
  rw [Chunk.text, Block.text, ← h.leading, ← h.trailing]
  simp only [Layout.chunk, leadingText, trailingText, List.flatMap_map,
    Option.toList_map]

/-- Blocks joined in their layout give back their source. -/
theorem join_haveLayouts {bundle : Bundle} {layouts : List Layout}
    (path : Path) (hmargins : bundle.options.margins = true)
    (h : HaveLayouts text blocks layouts) :
    let code := bundle.join (List.zipWith (Layout.chunk path text)
      (blocks.map (·.statement)) layouts)
    source blocks = if blocks.isEmpty then code else code ++ ['\n'] := by
  induction h with
  | nil => rfl
  | @cons block others layout layouts first rest ih =>
      cases rest with
      | nil =>
          have htext := first.text_chunk path
          simp [Bundle.join, source, htext]
      | @cons after others second layouts hsecond rest =>
          have htext := first.text_chunk path
          have hbreaks : bundle.lineBreaks
              (layout.chunk path text block.statement)
              (second.chunk path text after.statement) =
                after.blankBefore + 1 := by
            have hafter : layout.blankAfter = after.blankBefore :=
              first.blankAfter
            have hbefore := hsecond.blankBefore
            rw [Bundle.lineBreaks, hmargins]
            simp only [Layout.chunk, Bool.true_and, decide_true, if_true]
            omega
          have hsource : source (block :: after :: others) = block.text ++
              (List.replicate (after.blankBefore + 1) '\n' ++
                source (after :: others)) := by
            rw [source, source, List.replicate_succ, List.flatMap_cons]
            simp only [List.append_assoc, List.cons_append, List.nil_append]
          rw [hsource, ih]
          simp only [List.map_cons, List.zipWith_cons_cons, List.isEmpty_cons,
            Bool.false_eq_true, if_false, Bundle.join, htext, hbreaks,
            List.append_assoc]

end Block

end Bundler
