import Bundler.Proofs.Lexer.Comments

/-!
# Tokens in turn

A source is read token by token, each in a mode of the reader's choice, up to
the end of the input or to a token that takes nothing.  The tokens and the gaps
in front of them are the text that is read, cut on character boundaries; a gap
is white space, line terminators and comments, and a token knows whether the
gap in front of it holds a line terminator.
-/

namespace Bundler

namespace Scan

theorem taken_templateChunk_ne_nil {text : List Char}
    (h : (templateChunk text).1.isSome = true) :
    (templateChunk text).2.1 ≠ [] := by
  unfold templateChunk at h ⊢
  split
  · cases h
  · exact List.cons_ne_nil _ _
  · exact List.cons_ne_nil _ _
  · exact List.cons_ne_nil _ _
  · dsimp only
    split
    · exact List.cons_ne_nil _ _
    · exact List.cons_ne_nil _ _

end Scan

namespace Numeral

/-- A numeral that starts with a digit, or with a point that a digit follows,
takes something. -/
theorem taken_lex_ne_nil {c : Char} {cs : List Char}
    (hstart : CharClass.isDigit c = true ∨ c = '.') :
    (lex (c :: cs)).taken ≠ [] := by
  have hdecimal : (decimal (c :: cs)).taken ≠ [] := by
    rcases hstart with hdigit | rfl
    · have haccepts : isDigitOrSeparator c = true := by
        rw [isDigitOrSeparator, hdigit, Bool.true_or]
      rw [decimal, digits]
      dsimp only [Lexeme.after]
      rw [List.takeWhile_cons_of_pos haccepts]
      exact List.cons_ne_nil _ _
    · have hpoint : ¬ isDigitOrSeparator '.' = true := by decide
      rw [decimal, digits]
      dsimp only [Lexeme.after]
      rw [List.takeWhile_cons_of_neg hpoint, List.dropWhile_cons_of_neg hpoint]
      exact List.cons_ne_nil _ _
  unfold lex
  split
  · rename_i hsplit
    rw [hsplit] at hdecimal
    repeat' split
    · exact List.cons_ne_nil _ _
    · exact List.cons_ne_nil _ _
    · exact List.cons_ne_nil _ _
    · exact hdecimal
  · exact hdecimal

end Numeral

namespace Lexeme

/-- A lexeme that takes nothing is no token but the end of the input or an
invalid one. -/
def TakesOrFails (lexeme : Lexeme) : Prop :=
  lexeme.taken = [] → lexeme.kind = .endOfInput ∨ lexeme.kind = .invalid

theorem takesOrFails_of_taken {lexeme : Lexeme} (h : lexeme.taken ≠ []) :
    lexeme.TakesOrFails := fun hnil => absurd hnil h

theorem takesOrFails_identifier (text : List Char) :
    (identifier text).TakesOrFails := by
  cases text with
  | nil => exact fun _ => .inr rfl
  | cons c cs =>
      rw [identifier]
      repeat' split
      · exact takesOrFails_of_taken (List.cons_ne_nil _ _)
      · exact takesOrFails_of_taken (List.cons_ne_nil _ _)
      · exact fun _ => .inr rfl

theorem takesOrFails_word {c : Char} {cs : List Char}
    (hstart : CharClass.isAsciiNameStart c = true) :
    (word (c :: cs)).TakesOrFails := by
  have hpart : CharClass.isAsciiNamePart c = true := by
    rw [CharClass.isAsciiNamePart, hstart, Bool.true_or]
  rw [word]
  split
  · apply takesOrFails_of_taken
    rw [List.takeWhile_cons_of_pos hpart]
    exact List.cons_ne_nil _ _
  · exact takesOrFails_identifier _

theorem takesOrFails_regex (text : List Char) : (regex text).TakesOrFails := by
  rw [regex]
  split
  · exact takesOrFails_of_taken (List.cons_ne_nil _ _)
  · exact takesOrFails_of_taken (List.cons_ne_nil _ _)

theorem takesOrFails_punctuation (c : Char) (cs : List Char) :
    (punctuation (c :: cs)).TakesOrFails := by
  unfold punctuation
  dsimp only
  split
  · rename_i mark _
    obtain ⟨size, hsize⟩ :=
      Nat.exists_eq_succ_of_ne_zero mark.length_text_ne_zero
    apply takesOrFails_of_taken
    rw [hsize]
    exact List.cons_ne_nil _ _
  · exact fun _ => .inr rfl

theorem takesOrFails_templateChunk (text : List Char) :
    (templateChunk text).TakesOrFails := by
  intro hnil
  cases hstop : (Scan.templateChunk text).1 with
  | none =>
      right
      rw [templateChunk]
      dsimp only
      rw [hstop]
  | some stop =>
      refine absurd hnil (Scan.taken_templateChunk_ne_nil ?_)
      rw [hstop, Option.isSome_some]

theorem takesOrFails_read (mode : LexMode) (text : List Char) :
    (read mode text).TakesOrFails := by
  cases text with
  | nil => exact fun _ => .inl rfl
  | cons c cs =>
      rw [read]
      split
      · exact takesOrFails_identifier _
      split
      · exact takesOrFails_word ‹_›
      split
      · exact takesOrFails_of_taken (Numeral.taken_lex_ne_nil (.inl ‹_›))
      split
      · rename_i hpoint
        rw [Bool.and_eq_true, decide_eq_true_eq] at hpoint
        exact takesOrFails_of_taken (Numeral.taken_lex_ne_nil (.inr hpoint.1))
      split
      · exact takesOrFails_of_taken (List.cons_ne_nil _ _)
      split
      · exact takesOrFails_of_taken (List.cons_ne_nil _ _)
      split
      · exact takesOrFails_of_taken (List.cons_ne_nil _ _)
      split
      · exact takesOrFails_regex cs
      · exact takesOrFails_punctuation c cs

end Lexeme

namespace Trivia

/-- A gap has a line break exactly if it holds a line terminator, be it within
a comment. -/
theorem lineBreak_skip (place : Place) (offset : Nat) (text : List Char) :
    (skip place offset text).lineBreak =
      (skip place offset text).taken.any CharClass.isLineTerminator := by
  have hslash : CharClass.isLineTerminator '/' = false := by decide
  have hstar : CharClass.isLineTerminator '*' = false := by decide
  fun_induction skip place offset text <;>
    simp_all [none, cons, withComment, withLineBreak]

end Trivia

namespace Token

/-- Nothing is read behind the end of the input, nor behind a token that takes
nothing. -/
def endsReading (token : Token) : Bool :=
  token.kind = .endOfInput || token.span.isEmpty

end Token

/-- What stands behind a token that takes something is shorter than the text in
front of it. -/
theorem length_rest_lexToken_lt {mode : LexMode} {cursor : Cursor}
    (h : (lexToken mode cursor).token.endsReading = false) :
    (lexToken mode cursor).after.rest.length < cursor.rest.length := by
  have htakes : ∀ {start : Cursor} {lexeme : Lexeme} {lineBreak : Bool}
      {comments : List Comment}, lexeme.text.length ≤ cursor.rest.length →
      (Lexed.ofLexeme start lexeme lineBreak comments).token.endsReading =
        false → lexeme.rest.length < cursor.rest.length := by
    intro start lexeme lineBreak comments hlength hends
    cases htaken : lexeme.taken with
    | nil =>
        simp [Token.endsReading, Span.isEmpty, Lexed.ofLexeme, Cursor.advance,
          htaken, Text.byteLength] at hends
    | cons c cs =>
        rw [Lexeme.text, htaken, List.length_append, List.length_cons]
          at hlength
        omega
  revert h
  refine lexToken_elim (motive := fun lexed =>
    lexed.token.endsReading = false →
      lexed.after.rest.length < cursor.rest.length) (fun _ => ?_) fun _ => ?_
  · have hsplit := congrArg List.length
      (Trivia.read_append cursor.offset cursor.rest)
    rw [List.length_append] at hsplit
    refine htakes ?_
    rw [Lexeme.text_read]
    omega
  · exact htakes (Nat.le_of_eq (by rw [Lexeme.text_templateChunk]))

/-- The tokens read from a cursor on, with the modes they are read in.  Each is
read in the next of some modes; when these are used up, the mode of the token
before it goes on. -/
def lexAll (mode : LexMode) (modes : List LexMode) (cursor : Cursor) :
    List (LexMode × Lexed) :=
  let mode := modes.head?.getD mode
  let lexed := lexToken mode cursor
  if _h : lexed.token.endsReading = true then [(mode, lexed)]
  else (mode, lexed) :: lexAll mode modes.tail lexed.after
termination_by cursor.rest.length
decreasing_by
  exact length_rest_lexToken_lt (Bool.eq_false_iff.mpr _h)

/-- The comments that are recorded while tokens are read, the newest first. -/
def recordedComments (seen : List Comment) (found : List (LexMode × Lexed)) :
    List Comment :=
  found.foldl (fun seen step => recordComments seen step.2.comments) seen

/-- A token that is read in a mode behind an offset of a source.  It is a piece
of the source, and only trivia stand between the offset and it; within a
template there are none. -/
structure Lexed.IsBehind (source : List Char) (offset : Nat) (mode : LexMode)
    (lexed : Lexed) : Prop where
  isIn : lexed.token.IsIn source
  gap : IsGap source offset lexed.token.span.start lexed.comments
  afterLineBreak : lexed.token.afterLineBreak = true ↔
    ∃ c ∈ Text.slice source ⟨offset, lexed.token.span.start⟩,
      CharClass.isLineTerminator c = true
  start_eq : mode = .templateContinue → lexed.token.span.start = offset
  isEmpty : lexed.token.span.isEmpty = true →
    lexed.token.kind = .endOfInput ∨ lexed.token.kind = .invalid

/-- What is read at a cursor in a source stands behind the cursor. -/
theorem Cursor.IsIn.isBehind {cursor : Cursor} {source : List Char}
    (h : cursor.IsIn source) (mode : LexMode) :
    (Bundler.lexToken mode cursor).IsBehind source cursor.offset mode := by
  have hempty : ∀ {start : Cursor} {lexeme : Lexeme} {lineBreak : Bool}
      {comments : List Comment}, lexeme.TakesOrFails →
      (Lexed.ofLexeme start lexeme lineBreak comments).token.span.isEmpty =
        true → lexeme.kind = .endOfInput ∨ lexeme.kind = .invalid := by
    intro start lexeme lineBreak comments htakes hempty
    apply htakes
    cases htaken : lexeme.taken with
    | nil => rfl
    | cons c cs =>
        have hpos := c.utf8Size_pos
        simp only [Span.isEmpty, Lexed.ofLexeme, Cursor.advance, htaken,
          Text.byteLength, decide_eq_true_eq] at hempty
        omega
  refine ⟨h.token mode, h.gap mode, ?_, ?_, ?_⟩
  · obtain ⟨front, htext, hoffset⟩ := h
    refine lexToken_elim (motive := fun lexed =>
      lexed.token.afterLineBreak = true ↔
        ∃ c ∈ Text.slice source ⟨cursor.offset, lexed.token.span.start⟩,
          CharClass.isLineTerminator c = true) (fun _ => ?_) fun _ => ?_
    · have hbreak := Trivia.lineBreak_skip .between cursor.offset cursor.rest
      have hsplit := Trivia.skip_append .between cursor.offset cursor.rest
      rw [Trivia.read]
      generalize Trivia.skip .between cursor.offset cursor.rest = trivia
        at hbreak hsplit
      have hskipped : Text.slice source ⟨cursor.offset,
          cursor.offset + Text.byteLength trivia.taken⟩ = trivia.taken := by
        rw [Text.slice, htext, hoffset, Text.dropBytes_byteLength_append,
          Nat.add_sub_cancel_left, ← hsplit, Text.takeBytes_byteLength_append]
      simp only [Lexed.ofLexeme, Cursor.advance]
      rw [hskipped, hbreak, List.any_eq_true]
    · have hnothing :
          Text.slice source ⟨cursor.offset, cursor.offset⟩ = [] := by
        rw [Text.slice, htext, hoffset, Text.dropBytes_byteLength_append,
          Nat.sub_self]
        exact Text.takeBytes_byteLength_append [] cursor.rest
      simp [Lexed.ofLexeme, hnothing]
  · rintro rfl
    rfl
  · refine lexToken_elim (motive := fun lexed =>
      lexed.token.span.isEmpty = true → lexed.token.kind = .endOfInput ∨
        lexed.token.kind = .invalid) (fun _ => ?_) fun _ => ?_
    · exact hempty (Lexeme.takesOrFails_read mode _)
    · exact hempty (Lexeme.takesOrFails_templateChunk _)

namespace Reading

variable {source : List Char} {cursor : Cursor}

/-- Where each token is looked for: at the end of the token before it. -/
def starts (offset : Nat) (found : List (LexMode × Lexed)) : List Nat :=
  offset :: found.map (·.2.token.span.stop)

/-- What one token keeps is kept by all: an induction over what is read. -/
theorem lexAll_induction {motive : Cursor → List (LexMode × Lexed) → Prop}
    (hlast : ∀ mode cursor, cursor.IsIn source →
      (lexToken mode cursor).token.endsReading = true →
      motive cursor [(mode, lexToken mode cursor)])
    (hmore : ∀ mode cursor found, cursor.IsIn source →
      (lexToken mode cursor).token.endsReading = false →
      motive (lexToken mode cursor).after found →
      motive cursor ((mode, lexToken mode cursor) :: found))
    (mode : LexMode) (modes : List LexMode) (hcursor : cursor.IsIn source) :
    motive cursor (lexAll mode modes cursor) := by
  fun_induction lexAll mode modes cursor with
  | case1 mode modes cursor _ _ hends => exact hlast _ _ hcursor hends
  | case2 mode modes cursor current _ hends ih =>
      exact hmore _ _ _ hcursor (Bool.eq_false_iff.mpr hends)
        (ih (hcursor.lexToken current))

/-- Reading comes to an end, with the last token and not earlier: at the end of
the source, or where no token is found. -/
theorem exists_last (mode : LexMode) (modes : List LexMode)
    (hcursor : cursor.IsIn source) :
    ∃ before last, lexAll mode modes cursor = before ++ [last] ∧
      (last.2.token.kind = .endOfInput ∧
          last.2.token.span = .point (Text.byteLength source) ∨
        last.2.token.kind = .invalid ∧ last.2.token.span.isEmpty = true) ∧
      ∀ step ∈ before, step.2.token.endsReading = false := by
  refine lexAll_induction (motive := fun _ found => ∃ before last,
    found = before ++ [last] ∧
      (last.2.token.kind = .endOfInput ∧
          last.2.token.span = .point (Text.byteLength source) ∨
        last.2.token.kind = .invalid ∧ last.2.token.span.isEmpty = true) ∧
      ∀ step ∈ before, step.2.token.endsReading = false) ?_ ?_ mode modes
    hcursor
  · intro mode cursor hcursor hends
    refine ⟨[], _, rfl, ?_, nofun⟩
    by_cases hkind : (lexToken mode cursor).token.kind = .endOfInput
    · exact .inl ⟨hkind, hcursor.span_endOfInput hkind⟩
    · rw [Token.endsReading, Bool.or_eq_true, decide_eq_true_eq] at hends
      have hempty := hends.resolve_left hkind
      exact .inr ⟨((hcursor.isBehind mode).isEmpty hempty).resolve_left hkind,
        hempty⟩
  · rintro mode cursor _ _ hends ⟨before, last, rfl, hlast, hbefore⟩
    exact ⟨_ :: before, last, rfl, hlast,
      List.forall_mem_cons.mpr ⟨hends, hbefore⟩⟩

/-- Each token stands behind the one before it. -/
theorem isBehind_of_mem_zip (mode : LexMode) (modes : List LexMode)
    (hcursor : cursor.IsIn source) :
    ∀ entry ∈ (starts cursor.offset (lexAll mode modes cursor)).zip
        (lexAll mode modes cursor),
      entry.2.2.IsBehind source entry.1 entry.2.1 := by
  refine lexAll_induction (motive := fun cursor found =>
    ∀ entry ∈ (starts cursor.offset found).zip found,
      entry.2.2.IsBehind source entry.1 entry.2.1) ?_ ?_ mode modes hcursor
  · intro mode cursor hcursor _
    exact List.forall_mem_singleton.mpr (hcursor.isBehind mode)
  · intro mode cursor found hcursor _ ih
    rw [starts, List.map_cons, List.zip_cons_cons, stop_lexToken]
    exact List.forall_mem_cons.mpr ⟨hcursor.isBehind mode, ih⟩

theorem offset_le_start (mode : LexMode) (modes : List LexMode)
    (hcursor : cursor.IsIn source) :
    ∀ step ∈ lexAll mode modes cursor,
      cursor.offset ≤ step.2.token.span.start := by
  refine lexAll_induction (motive := fun cursor found => ∀ step ∈ found,
    cursor.offset ≤ step.2.token.span.start) ?_ ?_ mode modes hcursor
  · intro mode cursor _ _
    exact List.forall_mem_singleton.mpr (offset_le_lexToken mode cursor).1
  · intro mode cursor found _ _ ih
    obtain ⟨hstart, hstop⟩ := offset_le_lexToken mode cursor
    rw [stop_lexToken] at hstop
    refine List.forall_mem_cons.mpr ⟨hstart, fun step hstep => ?_⟩
    exact Nat.le_trans hstart (Nat.le_trans hstop (ih step hstep))

/-- No token starts in front of the end of an earlier one. -/
theorem pairwise_lexAll (mode : LexMode) (modes : List LexMode)
    (hcursor : cursor.IsIn source) :
    (lexAll mode modes cursor).Pairwise fun first second =>
      first.2.token.span.stop ≤ second.2.token.span.start := by
  fun_induction lexAll mode modes cursor with
  | case1 => exact List.pairwise_singleton _ _
  | case2 mode modes cursor current _ _ ih =>
      refine List.Pairwise.cons (fun step hstep => ?_)
        (ih (hcursor.lexToken current))
      rw [stop_lexToken]
      exact offset_le_start _ _ (hcursor.lexToken current) step hstep

/-- All comments of the gaps are recorded, in their order. -/
theorem recordedComments_lexAll (mode : LexMode) (modes : List LexMode)
    (hcursor : cursor.IsIn source)
    {seen : List Comment}
    (hseen : ∀ comment ∈ seen, comment.span.start < cursor.offset) :
    recordedComments seen (lexAll mode modes cursor) =
      ((lexAll mode modes cursor).flatMap (·.2.comments)).reverse ++ seen := by
  have hrecorded : ∀ {mode : LexMode} {cursor : Cursor} {seen : List Comment},
      cursor.IsIn source →
      (∀ comment ∈ seen, comment.span.start < cursor.offset) →
      recordComments seen (lexToken mode cursor).comments =
        (lexToken mode cursor).comments.reverse ++ seen := by
    intro mode cursor seen hcursor hseen
    refine recordComments_of_lt (hcursor.gap mode).pairwise
      fun comment hcomment => endsBefore_of_forall fun other hother => ?_
    exact Nat.lt_of_lt_of_le (hseen other hother)
      ((hcursor.gap mode).start_of_mem hcomment).1
  revert seen
  refine lexAll_induction (motive := fun cursor found =>
    ∀ {seen : List Comment},
      (∀ comment ∈ seen, comment.span.start < cursor.offset) →
      recordedComments seen found =
        (found.flatMap (·.2.comments)).reverse ++ seen) ?_ ?_ mode modes hcursor
  · intro mode cursor hcursor _ seen hseen
    rw [recordedComments, List.foldl_cons, List.foldl_nil,
      hrecorded hcursor hseen, List.flatMap_singleton]
  · intro mode cursor found hcursor _ ih seen hseen
    have hbehind : ∀ comment ∈ (lexToken mode cursor).comments.reverse ++ seen,
        comment.span.start < (lexToken mode cursor).after.offset := by
      have hstop := (offset_le_lexToken mode cursor).2
      rw [stop_lexToken] at hstop
      refine List.forall_mem_append.mpr ⟨fun comment hcomment => ?_,
        fun comment hcomment => ?_⟩
      · exact Nat.lt_of_lt_of_le ((hcursor.gap mode).start_of_mem
          (List.mem_reverse.mp hcomment)).2 hstop
      · exact Nat.lt_of_lt_of_le (hseen comment hcomment)
          (Nat.le_trans (offset_le_lexToken mode cursor).1 hstop)
    have hrest := ih hbehind
    rw [recordedComments] at hrest
    rw [recordedComments, List.foldl_cons, hrecorded hcursor hseen, hrest,
      List.flatMap_cons, List.reverse_append, List.append_assoc]

end Reading

open Reading in
/-- However its tokens are read, a source is its tokens and the gaps in front of
them, up to the end or to a token that takes nothing.  Tokens do not overlap
and lie on character boundaries, each knows whether the gap in front of it holds
a line terminator, and the comments that are recorded are those of the gaps. -/
theorem lexAll_partitions (source : List Char) (modes : List LexMode) :
    let found := lexAll .standard modes (.ofText source)
    (∃ before last, found = before ++ [last] ∧
      (last.2.token.kind = .endOfInput ∧
          last.2.token.span = .point (Text.byteLength source) ∨
        last.2.token.kind = .invalid ∧ last.2.token.span.isEmpty = true) ∧
      ∀ step ∈ before, step.2.token.kind ≠ .endOfInput ∧
        step.2.token.span.isEmpty = false) ∧
    (∀ entry ∈ (starts 0 found).zip found,
      entry.2.2.IsBehind source entry.1 entry.2.1) ∧
    (found.Pairwise fun first second =>
      first.2.token.span.stop ≤ second.2.token.span.start) ∧
    (recordedComments [] found).reverse = found.flatMap (·.2.comments) := by
  have hcursor := Cursor.isIn_ofText source
  refine ⟨?_, isBehind_of_mem_zip _ _ hcursor, pairwise_lexAll _ _ hcursor, ?_⟩
  · obtain ⟨before, last, hfound, hlast, hbefore⟩ :=
      exists_last .standard modes hcursor
    refine ⟨before, last, hfound, hlast, fun step hstep => ?_⟩
    have hgoesOn := hbefore step hstep
    rw [Token.endsReading, Bool.or_eq_false_iff, decide_eq_false_iff_not]
      at hgoesOn
    exact hgoesOn
  · rw [recordedComments_lexAll _ _ hcursor
      fun _ hmem => absurd hmem List.not_mem_nil, List.append_nil,
      List.reverse_reverse]

end Bundler
