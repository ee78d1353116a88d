import Bundler.Proofs.Lexer.Comments
import Mathlib.Data.List.Infix

/-!
# Margins

What is made of white space, line terminators and comments is passed over in
front of a token: exactly that much is skipped, and then what is skipped where
it ends.  So a token is found behind it as if nothing stood there, but for a
line break in it.  A margin is passed over in front of whatever stands behind
it, so it can be put between any two texts.
-/

namespace Bundler

namespace Text

theorem eq_nil_of_byteLength {text : List Char}
    (h : byteLength text = 0) : text = [] := by
  cases text with
  | nil => rfl
  | cons c text =>
      rw [byteLength] at h
      exact absurd c.utf8Size_pos (by omega)

/-- A word reaches no further into a text than to a character that it does not hold. -/
theorem prefix_of_append {word left right : List Char}
    (hright : ∀ c ∈ right.head?, c ∉ word) (h : word <+: left ++ right) :
    word <+: left := by
  rcases List.prefix_or_prefix_of_prefix h (List.prefix_append left right)
    with hwithin | ⟨others, rfl⟩
  · exact hwithin
  · cases others with
    | nil => simp
    | cons c others =>
        obtain ⟨rest, rfl⟩ := (List.prefix_append_right_inj left).mp h
        exact absurd (List.mem_append_right left List.mem_cons_self) (hright c rfl)

/-- A word occurs on one side of a character that it does not hold. -/
theorem infix_of_append_cons {word left right : List Char} {c : Char} (hc : c ∉ word)
    (h : word <:+: left ++ c :: right) : word <:+: left ∨ word <:+: right := by
  have hright : ∀ d ∈ (c :: right).head?, d ∉ word := by
    rintro d ⟨⟩
    exact hc
  induction left with
  | nil =>
      rw [List.nil_append, List.infix_cons_iff] at h
      exact h.imp_left fun h => (prefix_of_append hright h : word <+: []).isInfix
  | cons d left ih =>
      rw [List.cons_append, List.infix_cons_iff] at h
      rcases h with h | h
      · exact .inl (prefix_of_append hright h : word <+: d :: left).isInfix
      · exact (ih h).imp_left List.infix_cons

end Text

namespace Trivia

/-- Trivia with a gap in front of it. -/
def behind (trivia : Trivia) (gap : List Char) (comments : List Comment) :
    Trivia :=
  { taken := gap ++ trivia.taken
    rest := trivia.rest
    lineBreak := gap.any CharClass.isLineTerminator || trivia.lineBreak
    comments := comments ++ trivia.comments }

theorem behind_behind (trivia : Trivia) (gap others : List Char)
    (comments more : List Comment) :
    (trivia.behind others more).behind gap comments =
      trivia.behind (gap ++ others) (comments ++ more) := by
  simp [behind, Bool.or_assoc]

theorem skip_space {c : Char} (hspace : CharClass.isWhitespace c = true ∨
      CharClass.isLineTerminator c = true) (offset : Nat) (text : List Char) :
    skip .between offset (c :: text) =
      (skip .between (offset + c.utf8Size) text).behind [c] [] := by
  have hslash : c ≠ '/' := by
    rintro rfl
    revert hspace
    decide
  rw [skip]
  · by_cases hline : CharClass.isLineTerminator c = true
    · simp [hline, behind, cons, withLineBreak]
    · simp [hline, hspace.resolve_right hline, behind, cons]
  · rintro _ rfl _
    exact hslash rfl
  · rintro _ rfl _
    exact hslash rfl

theorem skip_slashes (offset : Nat) (text : List Char) :
    skip .between offset ('/' :: '/' :: text) =
      (skip (.line offset) (offset + 2) text).behind ['/', '/'] [] := by
  have hskip : skip .between offset ('/' :: '/' :: text) =
      ((skip (.line offset) (offset + 2) text).cons '/').cons '/' := rfl
  rw [hskip]
  simp [behind, cons, CharClass.isLineTerminator]

theorem skip_slashStar (offset : Nat) (text : List Char) :
    skip .between offset ('/' :: '*' :: text) =
      (skip (.block offset) (offset + 2) text).behind ['/', '*'] [] := by
  have hskip : skip .between offset ('/' :: '*' :: text) =
      ((skip (.block offset) (offset + 2) text).cons '*').cons '/' := rfl
  rw [hskip]
  simp [behind, cons, CharClass.isLineTerminator]

/-- A line comment ends in front of a line terminator or at the end. -/
theorem skip_line {body rest : List Char} (start : Nat)
    (hbody : ∀ c ∈ body, CharClass.isLineTerminator c = false)
    (hends : ∀ c ∈ rest.head?, CharClass.isLineTerminator c = true)
    (offset : Nat) :
    skip (.line start) offset (body ++ rest) =
      (skip .between (offset + Text.byteLength body) rest).behind body
        [⟨⟨start, offset + Text.byteLength body⟩, false⟩] := by
  have hskip : ∀ offset c cs, skip (.line start) offset (c :: cs) =
      if CharClass.isLineTerminator c then
        (((skip .between (offset + c.utf8Size) cs).cons c).withLineBreak
          true).withComment ⟨⟨start, offset⟩, false⟩
      else (skip (.line start) (offset + c.utf8Size) cs).cons c :=
    fun _ _ _ => rfl
  induction body generalizing offset with
  | nil =>
      cases rest with
      | nil => rfl
      | cons c rest =>
          have hline := hends c rfl
          rw [List.nil_append, skip_space (.inr hline), hskip, if_pos hline]
          simp [hline, behind, cons, withLineBreak, withComment,
            Text.byteLength]
  | cons c body ih =>
      obtain ⟨hline, hbody⟩ := List.forall_mem_cons.mp hbody
      rw [List.cons_append, hskip, hline, if_neg Bool.false_ne_true, ih hbody]
      simp [behind, cons, hline, Text.byteLength, Nat.add_assoc]

/-- A character that does not close a multi-line comment is passed over. -/
theorem skip_block_cons (start offset : Nat) {c : Char} {text : List Char}
    (hopen : ¬ ['*', '/'] <+: c :: text) :
    skip (.block start) offset (c :: text) =
      (skip (.block start) (offset + c.utf8Size) text).behind [c] [] := by
  rw [skip]
  · simp [behind, cons, withLineBreak]
  · rintro others rfl rfl
    exact hopen ⟨others, rfl⟩

/-- A multi-line comment ends with the first asterisk and slash. -/
theorem skip_block {body : List Char} (start : Nat)
    (hbody : ¬ ['*', '/'] <:+: body) (offset : Nat) (rest : List Char) :
    skip (.block start) offset (body ++ '*' :: '/' :: rest) =
      (skip .between (offset + Text.byteLength body + 2) rest).behind
        (body ++ ['*', '/'])
        [⟨⟨start, offset + Text.byteLength body + 2⟩, true⟩] := by
  induction body generalizing offset with
  | nil =>
      have hskip : skip (.block start) offset ('*' :: '/' :: rest) =
          (((skip .between (offset + 2) rest).cons '/').cons '*').withComment
            ⟨⟨start, offset + 2⟩, true⟩ := rfl
      rw [List.nil_append, hskip]
      simp [behind, cons, withComment, Text.byteLength,
        CharClass.isLineTerminator]
  | cons c body ih =>
      rw [List.infix_cons_iff, not_or] at hbody
      obtain ⟨hfirst, hbody⟩ := hbody
      have hopen : ¬ ['*', '/'] <+: c :: (body ++ '*' :: '/' :: rest) := by
        rintro ⟨others, hothers⟩
        cases body with
        | nil => cases hothers
        | cons d body =>
            cases hothers
            exact hfirst ⟨body, rfl⟩
      rw [List.cons_append, skip_block_cons start offset hopen, ih hbody,
        behind_behind, Text.byteLength, ← Nat.add_assoc]
      rfl

theorem skip_unclosed {body : List Char} (start : Nat)
    (hbody : ¬ ['*', '/'] <:+: body) (offset : Nat) :
    skip (.block start) offset body =
      (none []).behind body
        [⟨⟨start, offset + Text.byteLength body⟩, true⟩] := by
  induction body generalizing offset with
  | nil => rfl
  | cons c body ih =>
      rw [List.infix_cons_iff, not_or] at hbody
      rw [skip_block_cons start offset hbody.1, ih hbody.2, behind_behind,
        Text.byteLength, ← Nat.add_assoc]
      rfl

end Trivia

/-- A comment that is never closed. -/
def IsUnclosed (comment : List Char) : Prop :=
  ∃ body, comment = '/' :: '*' :: body ∧ ¬ ['*', '/'] <:+: body

instance (comment : List Char) : Decidable (IsUnclosed comment) :=
  decidable_of_iff (comment.take 2 = ['/', '*'] ∧
    ¬ ['*', '/'] <:+: comment.drop 2) (by
      constructor
      · rintro ⟨hopening, hbody⟩
        refine ⟨comment.drop 2, ?_, hbody⟩
        rw [← List.take_append_drop 2 comment, hopening]
        simp
      · rintro ⟨body, rfl, hbody⟩
        exact ⟨rfl, hbody⟩)

namespace Spacing

variable {behind gap : List Char} {offset : Nat} {comments : List Comment}

/-- A gap is skipped, and then what is skipped behind it. -/
theorem skip_append (h : Spacing behind offset gap comments) :
    Trivia.skip .between offset (gap ++ behind) =
      (Trivia.skip .between (offset + Text.byteLength gap) behind).behind gap
        comments := by
  induction h with
  | nil => simp [Trivia.behind, Text.byteLength]
  | @space offset c gap comments hspace _ ih =>
      rw [List.cons_append, Trivia.skip_space hspace, ih, Trivia.behind_behind,
        Text.byteLength, Nat.add_assoc]
      rfl
  | @line offset stop body gap comments hbody hends hstop _ ih =>
      have hlength : stop + Text.byteLength gap =
          offset + Text.byteLength ('/' :: '/' :: (body ++ gap)) := by
        simp only [hstop, Text.byteLength, Text.byteLength_append,
          Text.utf8Size_slash]
        omega
      have hline := Trivia.skip_line offset hbody hends (offset + 2)
      rw [← hstop, ih, Trivia.behind_behind] at hline
      rw [← hlength, List.cons_append, List.cons_append, List.append_assoc,
        Trivia.skip_slashes, hline, Trivia.behind_behind]
      rfl
  | @block offset stop body gap comments hbody hstop _ ih =>
      have hlength : stop + Text.byteLength gap = offset +
          Text.byteLength ('/' :: '*' :: (body ++ '*' :: '/' :: gap)) := by
        simp only [hstop, Text.byteLength, Text.byteLength_append,
          Text.utf8Size_slash, Text.utf8Size_star]
        omega
      have hbytes : offset + 2 + Text.byteLength body + 2 = stop := by omega
      have hblock := Trivia.skip_block offset hbody (offset + 2)
        (gap ++ behind)
      rw [hbytes, ih, Trivia.behind_behind] at hblock
      have htext : '/' :: '*' :: (body ++ '*' :: '/' :: gap) ++ behind =
          '/' :: '*' :: (body ++ '*' :: '/' :: (gap ++ behind)) := by simp
      rw [← hlength, htext, Trivia.skip_slashStar, hblock,
        Trivia.behind_behind]
      simp
  | @unclosed offset stop body hbody hbehind hstop =>
      have hunclosed := Trivia.skip_unclosed offset hbody (offset + 2)
      rw [← hstop] at hunclosed
      rw [hbehind, List.append_nil, Trivia.skip_slashStar, hunclosed,
        Trivia.behind_behind]
      rfl

/-- A token is found behind a gap as if nothing stood in front of it, but for
the line breaks and the comments of the gap. -/
theorem lexToken (h : Spacing behind offset gap comments) {mode : LexMode}
    (hmode : mode ≠ .templateContinue) :
    let there := Bundler.lexToken mode ⟨offset + Text.byteLength gap, behind⟩
    Bundler.lexToken mode ⟨offset, gap ++ behind⟩ =
      { there with
        token := { there.token with
          afterLineBreak := gap.any CharClass.isLineTerminator ||
            there.token.afterLineBreak }
        comments := comments ++ there.comments } := by
  have hadvance : ∀ taken rest, (Cursor.mk offset (gap ++ behind)).advance
      (gap ++ taken) rest =
        (Cursor.mk (offset + Text.byteLength gap) behind).advance taken
          rest := by
    intro taken rest
    rw [Cursor.advance, Cursor.advance, Text.byteLength_append, Nat.add_assoc]
  dsimp only
  rw [lexToken_eq hmode, lexToken_eq hmode]
  dsimp only [Trivia.read]
  rw [h.skip_append, Trivia.behind]
  dsimp only
  rw [hadvance]
  rfl

/-- A text that is one comment starts with its opening and ends with it. -/
theorem comment_cases {comment : Comment}
    (h : Spacing behind offset gap [comment])
    (hspan : comment.span = ⟨offset, offset + Text.byteLength gap⟩) :
    (∃ body, gap = '/' :: '/' :: body ∧
        ∀ c ∈ body, CharClass.isLineTerminator c = false) ∨
      (∃ body, gap = '/' :: '*' :: (body ++ ['*', '/']) ∧
        ¬ ['*', '/'] <:+: body) ∨
      (IsUnclosed gap ∧ behind = []) := by
  generalize hcomments : [comment] = comments at h
  cases h with
  | nil => cases hcomments
  | @space _ c gap _ hspace hgap =>
      obtain ⟨hstart, -⟩ := hgap.start_of_mem comment
        (hcomments ▸ List.mem_singleton_self comment)
      have hsize := c.utf8Size_pos
      rw [hspan] at hstart
      dsimp only at hstart
      omega
  | @line _ stop body gap others hbody hends hstop hgap =>
      obtain ⟨rfl, -⟩ := List.cons.inj hcomments
      have hbytes := congrArg Span.stop hspan
      simp only [hstop, Text.byteLength, Text.byteLength_append,
        Text.utf8Size_slash] at hbytes
      obtain rfl := Text.eq_nil_of_byteLength
        (by omega : Text.byteLength gap = 0)
      exact .inl ⟨body, by rw [List.append_nil], hbody⟩
  | @block _ stop body gap others hbody hstop hgap =>
      obtain ⟨rfl, -⟩ := List.cons.inj hcomments
      have hbytes := congrArg Span.stop hspan
      simp only [hstop, Text.byteLength, Text.byteLength_append,
        Text.utf8Size_slash, Text.utf8Size_star] at hbytes
      obtain rfl := Text.eq_nil_of_byteLength
        (by omega : Text.byteLength gap = 0)
      exact .inr (.inl ⟨body, rfl, hbody⟩)
  | @unclosed _ stop body hbody hbehind hstop =>
      exact .inr (.inr ⟨⟨body, rfl, hbody⟩, hbehind⟩)

end Spacing

/-- If only a gap is left of a text, the end of the input is found. -/
theorem Cursor.IsIn.kind_of_gap {text : List Char} {cursor : Cursor}
    (h : cursor.IsIn text)
    {comments : List Comment}
    (hgap : IsGap text cursor.offset (Text.byteLength text) comments) :
    (Bundler.lexToken .standard cursor).token.kind = .endOfInput := by
  obtain ⟨front, htext, hoffset⟩ := h
  obtain ⟨before, gap, behind, hsplit, hstart, hstop, hspacing⟩ := hgap
  have hrest : cursor.rest = gap ++ behind := by
    rw [← Text.dropBytes_byteLength_append front cursor.rest, ← htext,
      ← hoffset, hstart, hsplit, Text.dropBytes_byteLength_append]
  have hbehind : behind = [] := by
    apply Text.eq_nil_of_byteLength
    rw [hsplit, Text.byteLength_append, Text.byteLength_append] at hstop
    omega
  have hskip := hspacing.skip_append
  rw [← hrest, hbehind] at hskip
  rw [lexToken_eq (by simp)]
  dsimp only [Trivia.read]
  rw [hskip]
  rfl

/-- In front of a token, outside of templates, the text is passed over: the same
token is found as if nothing stood there, but for the line breaks in the
text. -/
def IsPassedOver (gap : List Char) : Prop :=
  ∀ mode, mode ≠ .templateContinue → ∀ offset behind,
    let here := lexToken mode ⟨offset, gap ++ behind⟩
    let there := lexToken mode ⟨offset + Text.byteLength gap, behind⟩
    here.after = there.after ∧
      here.token = { there.token with
        afterLineBreak := gap.any CharClass.isLineTerminator ||
          there.token.afterLineBreak }

/-- White space, line terminators and comments, wherever it stands. -/
def IsMargin (gap : List Char) : Prop :=
  ∀ offset behind, ∃ comments, Spacing behind offset gap comments

namespace IsMargin

variable {gap others : List Char}

theorem nil : IsMargin [] := fun _ _ => ⟨[], .nil⟩

theorem space {c : Char} (hspace : CharClass.isWhitespace c = true ∨
      CharClass.isLineTerminator c = true) (h : IsMargin gap) :
    IsMargin (c :: gap) := by
  intro offset behind
  obtain ⟨comments, hgap⟩ := h (offset + c.utf8Size) behind
  exact ⟨comments, .space hspace hgap⟩

theorem line {body : List Char} {c : Char}
    (hbody : ∀ c ∈ body, CharClass.isLineTerminator c = false)
    (hline : CharClass.isLineTerminator c = true) (h : IsMargin (c :: gap)) :
    IsMargin ('/' :: '/' :: (body ++ c :: gap)) := by
  intro offset behind
  obtain ⟨comments, hgap⟩ := h (offset + 2 + Text.byteLength body) behind
  refine ⟨_, .line hbody ?_ rfl hgap⟩
  rintro _ ⟨⟩
  exact hline

theorem block {body : List Char} (hbody : ¬ ['*', '/'] <:+: body)
    (h : IsMargin gap) :
    IsMargin ('/' :: '*' :: (body ++ '*' :: '/' :: gap)) := by
  intro offset behind
  obtain ⟨comments, hgap⟩ := h (offset + 4 + Text.byteLength body) behind
  exact ⟨_, .block hbody rfl hgap⟩

/-- A margin is passed over in front of every token. -/
theorem isPassedOver (h : IsMargin gap) : IsPassedOver gap := by
  intro mode hmode offset behind
  obtain ⟨comments, hgap⟩ := h offset behind
  rw [hgap.lexToken hmode]
  exact ⟨rfl, rfl⟩

end IsMargin

end Bundler
