import Bundler.Proofs.Lexer.Partition
import Bundler.Proofs.Lexer.Words

/-!
# Places in a text

Offsets at which a text can be cut, and what is at them: a token is a piece of
its text, and the piece between the place where it is looked for and the token
is nothing but white space, line terminators and comments.
-/

namespace Bundler

namespace Text

/-- An offset at which no character of a text is split. -/
def IsBoundary (text : List Char) (offset : Nat) : Prop :=
  ∃ front back, text = front ++ back ∧ offset = byteLength front

theorem IsBoundary.le {text : List Char} {offset : Nat}
    (h : IsBoundary text offset) : offset ≤ byteLength text := by
  obtain ⟨front, back, rfl, rfl⟩ := h
  rw [byteLength_append]
  exact Nat.le_add_right _ _

theorem utf8ByteSize_eq (source : String) :
    source.utf8ByteSize = byteLength source.toList := by
  have hlist : ∀ cs, (String.ofList cs).utf8ByteSize = byteLength cs := by
    intro cs
    induction cs with
    | nil => rfl
    | cons c cs ih =>
        rw [byteLength, ← ih]
        simp [String.ofList_cons]
  rw [← hlist, String.ofList_toList]

/-- These are the offsets at which the encoding of a string can be cut into two that
are valid. -/
theorem isBoundary_toList_iff {source : String} {offset : Nat} :
    IsBoundary source.toList offset ↔
      String.Pos.Raw.IsValid source ⟨offset⟩ := by
  rw [String.Pos.Raw.isValid_iff_exists_append]
  constructor
  · rintro ⟨front, back, hsource, rfl⟩
    refine ⟨.ofList front, .ofList back, ?_, ?_⟩
    · rw [← String.ofList_append, ← hsource, String.ofList_toList]
    · rw [String.Pos.Raw.ext_iff, String.byteIdx_rawEndPos, utf8ByteSize_eq,
        String.toList_ofList]
  · rintro ⟨front, back, rfl, hoffset⟩
    refine ⟨front.toList, back.toList, String.toList_append, ?_⟩
    rw [← utf8ByteSize_eq, ← String.byteIdx_rawEndPos, ← hoffset]

end Text

namespace Span

/-- A range on character boundaries of a text, which is not reversed. -/
def IsIn (text : List Char) (span : Span) : Prop :=
  Text.IsBoundary text span.start ∧ Text.IsBoundary text span.stop ∧
    span.start ≤ span.stop

theorem isIn_point {text : List Char} {offset : Nat}
    (h : Text.IsBoundary text offset) : (point offset).IsIn text :=
  ⟨h, h, Nat.le_refl offset⟩

theorem contains_iff {outer inner : Span} :
    outer.contains inner = true ↔
      outer.start ≤ inner.start ∧ inner.stop ≤ outer.stop := by
  rw [contains, Bool.and_eq_true, decide_eq_true_eq, decide_eq_true_eq]

theorem contains_refl (span : Span) : span.contains span = true :=
  contains_iff.mpr ⟨Nat.le_refl _, Nat.le_refl _⟩

theorem contains_trans {outer middle inner : Span}
    (houter : outer.contains middle = true)
    (hinner : middle.contains inner = true) :
    outer.contains inner = true := by
  rw [contains_iff] at houter hinner ⊢
  exact ⟨Nat.le_trans houter.1 hinner.1, Nat.le_trans hinner.2 houter.2⟩

theorem contains_join_left (left right : Span) :
    (left.join right).contains left = true :=
  contains_iff.mpr ⟨Nat.min_le_left _ _, Nat.le_max_left _ _⟩

theorem contains_join_right (left right : Span) :
    (left.join right).contains right = true :=
  contains_iff.mpr ⟨Nat.min_le_right _ _, Nat.le_max_right _ _⟩

theorem contains_join {outer left right : Span}
    (hleft : outer.contains left = true)
    (hright : outer.contains right = true) :
    outer.contains (left.join right) = true := by
  rw [contains_iff] at hleft hright ⊢
  exact ⟨Nat.le_min.mpr ⟨hleft.1, hright.1⟩,
    Nat.max_le.mpr ⟨hleft.2, hright.2⟩⟩

theorem IsIn.join {text : List Char} {left right : Span}
    (hleft : left.IsIn text) (hright : right.IsIn text) :
    (left.join right).IsIn text := by
  refine ⟨?_, ?_, ?_⟩
  · rw [Span.join]
    dsimp only
    rcases Nat.le_total left.start right.start with hle | hle
    · rw [Nat.min_eq_left hle]
      exact hleft.1
    · rw [Nat.min_eq_right hle]
      exact hright.1
  · rw [Span.join]
    dsimp only
    rcases Nat.le_total left.stop right.stop with hle | hle
    · rw [Nat.max_eq_right hle]
      exact hright.2.1
    · rw [Nat.max_eq_left hle]
      exact hleft.2.1
  · exact Nat.le_trans (Nat.min_le_left _ _)
      (Nat.le_trans hleft.2.2 (Nat.le_max_left _ _))

end Span

/-- A token is the piece of a text that it spans. -/
def Token.IsIn (text : List Char) (token : Token) : Prop :=
  ∃ front back, text = front ++ (token.text.toList ++ back) ∧
    token.span.start = Text.byteLength front ∧
    token.span.stop =
      Text.byteLength front + Text.byteLength token.text.toList

theorem Token.IsIn.span {text : List Char} {token : Token}
    (h : token.IsIn text) : token.span.IsIn text := by
  obtain ⟨front, back, htext, hstart, hstop⟩ := h
  refine ⟨⟨front, _, htext, hstart⟩, ⟨front ++ token.text.toList, back, ?_, ?_⟩,
    ?_⟩
  · rw [htext, List.append_assoc]
  · rw [hstop, Text.byteLength_append]
  · rw [hstart, hstop]
    exact Nat.le_add_right _ _

/-- What is found at a cursor in a text is a piece of the text. -/
theorem Cursor.IsIn.token {cursor : Cursor} {text : List Char}
    (h : cursor.IsIn text) (mode : LexMode) :
    (Bundler.lexToken mode cursor).token.IsIn text := by
  have hpiece : ∀ {cursor : Cursor} {lexeme : Lexeme} {lineBreak : Bool}
      {comments : List Comment}, cursor.IsIn text →
      lexeme.text = cursor.rest →
      (Lexed.ofLexeme cursor lexeme lineBreak comments).token.IsIn text := by
    rintro cursor lexeme lineBreak comments ⟨front, htext, hoffset⟩ hlexeme
    refine ⟨front, lexeme.rest, ?_, hoffset, ?_⟩
    · rw [Lexed.ofLexeme, String.toList_ofList, htext, ← hlexeme]
      rfl
    · rw [Lexed.ofLexeme, String.toList_ofList, ← hoffset]
      rfl
  refine lexToken_elim (motive := fun lexed => lexed.token.IsIn text)
    (fun _ => ?_) fun _ => ?_
  · exact hpiece (h.advance (Trivia.read_append _ _))
      (Lexeme.text_read mode _)
  · exact hpiece h (Lexeme.text_templateChunk _)

/-! ### Gaps -/

/-- A piece of text that begins at an offset, with some text behind it, is white
space, line terminators and comments, which are listed. -/
inductive Spacing (behind : List Char) :
    Nat → List Char → List Comment → Prop
  | nil {offset : Nat} : Spacing behind offset [] []
  | space {offset : Nat} {c : Char} {gap : List Char} {comments : List Comment}
      (hspace : CharClass.isWhitespace c = true ∨
        CharClass.isLineTerminator c = true)
      (hgap : Spacing behind (offset + c.utf8Size) gap comments) :
      Spacing behind offset (c :: gap) comments
  /-- A line comment ends in front of a line terminator or at the end of the
  text. -/
  | line {offset stop : Nat} {body gap : List Char} {comments : List Comment}
      (hbody : ∀ c ∈ body, CharClass.isLineTerminator c = false)
      (hends : ∀ c ∈ (gap ++ behind).head?,
        CharClass.isLineTerminator c = true)
      (hstop : stop = offset + 2 + Text.byteLength body)
      (hgap : Spacing behind stop gap comments) :
      Spacing behind offset ('/' :: '/' :: (body ++ gap))
        (⟨⟨offset, stop⟩, false⟩ :: comments)
  | block {offset stop : Nat} {body gap : List Char} {comments : List Comment}
      (hbody : ¬ ['*', '/'] <:+: body)
      (hstop : stop = offset + 4 + Text.byteLength body)
      (hgap : Spacing behind stop gap comments) :
      Spacing behind offset ('/' :: '*' :: (body ++ '*' :: '/' :: gap))
        (⟨⟨offset, stop⟩, true⟩ :: comments)
  /-- A comment that is never closed runs to the end of the text. -/
  | unclosed {offset stop : Nat} {body : List Char}
      (hbody : ¬ ['*', '/'] <:+: body) (hbehind : behind = [])
      (hstop : stop = offset + 2 + Text.byteLength body) :
      Spacing behind offset ('/' :: '*' :: body) [⟨⟨offset, stop⟩, true⟩]

namespace Trivia

/-- What has been skipped from a place in the trivia on. -/
def IsSkipped (trivia : Trivia) (offset : Nat) : Place → Prop
  | .between => Spacing trivia.rest offset trivia.taken trivia.comments
  | .line start => ∃ body gap comments, trivia.taken = body ++ gap ∧
      (∀ c ∈ body, CharClass.isLineTerminator c = false) ∧
      (∀ c ∈ (gap ++ trivia.rest).head?,
        CharClass.isLineTerminator c = true) ∧
      trivia.comments =
        ⟨⟨start, offset + Text.byteLength body⟩, false⟩ :: comments ∧
      Spacing trivia.rest (offset + Text.byteLength body) gap comments
  | .block start =>
      (∃ body gap comments, trivia.taken = body ++ '*' :: '/' :: gap ∧
        (¬ ['*', '/'] <:+: body) ∧
        trivia.comments =
          ⟨⟨start, offset + Text.byteLength body + 2⟩, true⟩ :: comments ∧
        Spacing trivia.rest (offset + Text.byteLength body + 2) gap comments) ∨
      ((¬ ['*', '/'] <:+: trivia.taken) ∧ trivia.rest = [] ∧
        trivia.comments =
          [⟨⟨start, offset + Text.byteLength trivia.taken⟩, true⟩])

theorem not_closed_nil : ¬ ['*', '/'] <:+: ([] : List Char) := by simp

/-- One more character closes a comment only together with the next one. -/
theorem not_closed_cons {c : Char} {body : List Char}
    (hopen : ∀ rest, c = '*' → body = '/' :: rest → False)
    (hbody : ¬ ['*', '/'] <:+: body) : ¬ ['*', '/'] <:+: (c :: body) := by
  rw [List.infix_cons_iff]
  rintro (hfront | hinner)
  · obtain ⟨rest, hrest⟩ := hfront
    cases hrest
    exact hopen rest rfl rfl
  · exact hbody hinner

theorem isSkipped_skip (place : Place) (offset : Nat) (text : List Char) :
    (skip place offset text).IsSkipped offset place := by
  fun_induction skip place offset text with
  | case1 => exact .nil
  | case2 start offset =>
      exact ⟨[], [], [], rfl, by simp, by simp [none, withComment], rfl, .nil⟩
  | case3 start offset => exact .inr ⟨not_closed_nil, rfl, rfl⟩
  | case4 offset cs ih =>
      obtain ⟨body, gap, comments, htaken, hbody, hends, hcomments, hgap⟩ := ih
      have hline := Spacing.line hbody hends rfl hgap
      rwa [← htaken, ← hcomments] at hline
  | case5 offset cs ih =>
      rcases ih with ⟨body, gap, comments, htaken, hbody, hcomments, hgap⟩ |
        ⟨hbody, hrest, hcomments⟩
      · have hblock : Spacing _ offset _ _ := .block hbody (by omega) hgap
        rwa [← htaken, ← hcomments] at hblock
      · have hunclosed : Spacing _ offset _ _ := .unclosed hbody hrest rfl
        rwa [← hcomments] at hunclosed
  | case6 offset c cs _ _ hline ih => exact .space (.inr hline) ih
  | case7 offset c cs _ _ _ hspace ih => exact .space (.inl hspace) ih
  | case8 => exact .nil
  | case9 start offset c cs hline ih =>
      refine ⟨[], _, _, rfl, by simp, ?_, rfl, .space (.inr hline) ih⟩
      rintro _ ⟨⟩
      exact hline
  | case10 start offset c cs hline ih =>
      obtain ⟨body, gap, comments, htaken, hbody, hends, hcomments, hgap⟩ := ih
      refine ⟨c :: body, gap, comments, congrArg (c :: ·) htaken,
        List.forall_mem_cons.mpr ⟨Bool.eq_false_iff.mpr hline, hbody⟩, hends,
        ?_, ?_⟩
      · rw [Text.byteLength, ← Nat.add_assoc]
        exact hcomments
      · rw [Text.byteLength, ← Nat.add_assoc]
        exact hgap
  | case11 start offset cs ih =>
      exact .inl ⟨[], _, _, rfl, not_closed_nil, rfl, ih⟩
  | case12 start offset c cs hopen ih =>
      have hsplit := skip_append (.block start) (offset + c.utf8Size) cs
      generalize skip (.block start) (offset + c.utf8Size) cs = trivia
        at ih hsplit
      rcases ih with ⟨body, gap, comments, htaken, hbody, hcomments, hgap⟩ |
        ⟨hbody, hrest, hcomments⟩
      · refine .inl ⟨c :: body, gap, comments, congrArg (c :: ·) htaken,
          not_closed_cons (fun rest hc hcs => ?_) hbody, ?_, ?_⟩
        · rw [← hsplit, htaken, hcs] at hopen
          exact hopen _ hc rfl
        · rw [Text.byteLength, ← Nat.add_assoc]
          exact hcomments
        · rw [Text.byteLength, ← Nat.add_assoc]
          exact hgap
      · refine .inr ⟨not_closed_cons (fun rest hc hcs => ?_) hbody, hrest, ?_⟩
        · rw [← hsplit, hcs] at hopen
          exact hopen _ hc rfl
        · rw [withLineBreak, cons, Text.byteLength, ← Nat.add_assoc]
          exact hcomments

/-- What is skipped in front of a token is a gap. -/
theorem gap_read (offset : Nat) (text : List Char) :
    Spacing (read offset text).rest offset (read offset text).taken
      (read offset text).comments :=
  isSkipped_skip .between offset text

end Trivia

/-- Between two offsets of a text there is nothing but white space, line
terminators and comments, which are listed. -/
def IsGap (text : List Char) (start stop : Nat) (comments : List Comment) :
    Prop :=
  ∃ front gap behind, text = front ++ (gap ++ behind) ∧
    start = Text.byteLength front ∧ stop = start + Text.byteLength gap ∧
    Spacing behind start gap comments

/-- A token is found behind a gap. -/
theorem Cursor.IsIn.gap {cursor : Cursor} {text : List Char}
    (h : cursor.IsIn text) (mode : LexMode) :
    IsGap text cursor.offset (Bundler.lexToken mode cursor).token.span.start
      (Bundler.lexToken mode cursor).comments := by
  obtain ⟨front, htext, hoffset⟩ := h
  refine lexToken_elim (motive := fun lexed =>
    IsGap text cursor.offset lexed.token.span.start lexed.comments)
    (fun _ => ?_) fun _ => ?_
  · refine ⟨front, _, _, ?_, hoffset, rfl, Trivia.gap_read _ _⟩
    rw [Trivia.read_append, htext]
  · exact ⟨front, [], cursor.rest, htext, hoffset, rfl, .nil⟩

/-! ### Ends and strings -/

namespace Lexeme

theorem kind_identifier (text : List Char) :
    (identifier text).kind = .identifier ∨
      (identifier text).kind = .invalid := by
  have hscan : ∀ scan, (ofScan .identifier scan).kind = .identifier ∨
      (ofScan .identifier scan).kind = .invalid := by
    intro scan
    rw [ofScan]
    dsimp only
    split
    · exact .inl rfl
    · exact .inr rfl
  cases text with
  | nil => exact .inr rfl
  | cons c cs =>
      rw [identifier]
      repeat' split
      · exact hscan _
      · exact hscan _
      · exact .inr rfl

theorem kind_word (text : List Char) :
    (word text).kind.isKeyword = true ∨
      (word text).kind = .identifier ∨ (word text).kind = .invalid := by
  rw [word]
  split
  · exact .inl rfl
  · exact .inr (kind_identifier text)

/-- The end of the input is found where nothing is left. -/
theorem eq_nil_of_endOfInput {mode : LexMode} {text : List Char}
    (hkind : (read mode text).kind = .endOfInput) : text = [] := by
  cases text with
  | nil => rfl
  | cons c cs =>
      exfalso
      rcases read_cases mode c cs with hread | ⟨-, hread⟩ | hother
      · rw [hread] at hkind
        have hkinds := kind_identifier (c :: cs)
        rw [hkind] at hkinds
        simp at hkinds
      · rw [hread] at hkind
        have hkinds := kind_word (c :: cs)
        rw [hkind] at hkinds
        simp [TokenKind.isKeyword] at hkinds
      · exact hother.ne_endOfInput hkind

/-- A string starts with its quote. -/
theorem exists_quote_of_string {mode : LexMode} {text : List Char}
    (hkind : (read mode text).kind = .string) :
    ∃ quote ∈ (read mode text).taken.head?, quote = '"' ∨ quote = '\'' := by
  cases text with
  | nil => cases hkind
  | cons c cs =>
      rcases read_cases mode c cs with hread | ⟨-, hread⟩ | hother
      · rw [hread] at hkind
        have hkinds := kind_identifier (c :: cs)
        rw [hkind] at hkinds
        simp at hkinds
      · rw [hread] at hkind
        have hkinds := kind_word (c :: cs)
        rw [hkind] at hkinds
        simp [TokenKind.isKeyword] at hkinds
      · exact hother.quoted hkind

end Lexeme

/-- The end of the input is found at the end of the text only. -/
theorem Cursor.IsIn.span_endOfInput {cursor : Cursor} {text : List Char}
    (h : cursor.IsIn text) {mode : LexMode}
    (hkind : (Bundler.lexToken mode cursor).token.kind = .endOfInput) :
    (Bundler.lexToken mode cursor).token.span =
      .point (Text.byteLength text) := by
  revert hkind
  refine lexToken_elim (motive := fun lexed =>
    lexed.token.kind = .endOfInput →
      lexed.token.span = .point (Text.byteLength text))
    (fun _ hkind => ?_) fun _ hkind => ?_
  · obtain ⟨front, htext, hoffset⟩ :=
      h.advance (Trivia.read_append cursor.offset cursor.rest)
    have hrest := Lexeme.eq_nil_of_endOfInput hkind
    rw [hrest] at htext hoffset ⊢
    rw [htext, Cursor.advance, List.append_nil, ← hoffset]
    rfl
  · exact absurd hkind (Lexeme.isOther_templateChunk cursor.rest).ne_endOfInput

/-- A string token starts with a character of one byte. -/
theorem exists_quote_of_string {mode : LexMode} {cursor : Cursor}
    (hkind : (lexToken mode cursor).token.kind = .string) :
    ∃ quote body, (lexToken mode cursor).token.text.toList = quote :: body ∧
      quote.utf8Size = 1 := by
  revert hkind
  refine lexToken_elim (motive := fun lexed => lexed.token.kind = .string →
    ∃ quote body, lexed.token.text.toList = quote :: body ∧
      quote.utf8Size = 1) (fun _ hkind => ?_) fun _ hkind => ?_
  · obtain ⟨quote, hhead, hquote⟩ := Lexeme.exists_quote_of_string hkind
    obtain ⟨body, hbody⟩ := List.head?_eq_some_iff.mp hhead
    refine ⟨quote, body, ?_, ?_⟩
    · rw [Lexed.ofLexeme, String.toList_ofList, hbody]
    · rcases hquote with rfl | rfl <;> decide
  · change (Lexeme.templateChunk cursor.rest).kind = .string at hkind
    rw [Lexeme.templateChunk] at hkind
    dsimp only at hkind
    split at hkind <;> cases hkind

end Bundler
