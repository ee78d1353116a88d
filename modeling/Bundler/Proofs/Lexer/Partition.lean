import Bundler.Lexer.Basic

/-!
# Lexing loses nothing

What a reader takes from a text and what it leaves make up the text.  A cursor
that is somewhere in a source is therefore still in it after a token, at the
offset where the token ends.
-/

namespace Bundler

namespace Text

theorem takeBytes_zero (text : List Char) : takeBytes 0 text = [] := by
  cases text with
  | nil => rfl
  | cons c cs => exact if_neg (Nat.not_le_of_gt c.utf8Size_pos)

/-- What goes beyond a text is taken from what stands behind it. -/
theorem takeBytes_append {count : Nat} {left right : List Char}
    (h : byteLength left ≤ count) :
    takeBytes count (left ++ right) =
      left ++ takeBytes (count - byteLength left) right := by
  induction left generalizing count with
  | nil => rfl
  | cons c left ih =>
      rw [byteLength] at h
      rw [List.cons_append, takeBytes, if_pos (by omega), ih (by omega), byteLength,
        Nat.sub_sub, List.cons_append]

theorem takeBytes_byteLength_append (front rest : List Char) :
    takeBytes (byteLength front) (front ++ rest) = front := by
  rw [takeBytes_append (Nat.le_refl _), Nat.sub_self, takeBytes_zero,
    List.append_nil]

theorem dropBytes_byteLength_append (front rest : List Char) :
    dropBytes (byteLength front) (front ++ rest) = rest := by
  have hsplit := takeBytes_append_dropBytes (byteLength front) (front ++ rest)
  rw [takeBytes_byteLength_append] at hsplit
  exact List.append_cancel_left hsplit

end Text

namespace Numeral

theorem digits_append (text : List Char) :
    (digits text).1 ++ (digits text).2 = text :=
  List.takeWhile_append_dropWhile

theorem text_close (text : List Char) : (close text).text = text := by
  cases text with
  | nil => rfl
  | cons c cs =>
      rw [close]
      split <;> rfl

theorem text_exponentDigits (text : List Char) :
    (exponentDigits text).text = text := by
  have hsplit := digits_append text
  rw [exponentDigits]
  dsimp only
  split
  · rename_i hempty
    rw [List.isEmpty_iff.mp hempty] at hsplit
    exact hsplit
  · rw [Lexeme.text_after, text_close]
    exact hsplit

theorem text_exponent (text : List Char) : (exponent text).text = text := by
  cases text with
  | nil => rfl
  | cons c cs =>
      rw [exponent]
      split
      · rw [Lexeme.text_after, text_exponentDigits, List.singleton_append]
      · exact text_exponentDigits (c :: cs)

theorem text_afterFraction (text : List Char) :
    (afterFraction text).text = text := by
  cases text with
  | nil => rfl
  | cons c cs =>
      rw [afterFraction]
      split
      · rw [Lexeme.text_after, text_exponent, List.singleton_append]
      · exact text_close (c :: cs)

theorem text_afterInteger (fractionAllowed : Bool) (text : List Char) :
    (afterInteger fractionAllowed text).text = text := by
  cases text with
  | nil => rfl
  | cons c cs =>
      rw [afterInteger]
      split
      · rfl
      · split
        · rw [Lexeme.text_after, text_afterFraction, List.cons_append,
            digits_append]
        · exact text_afterFraction (c :: cs)

theorem text_decimal (text : List Char) : (decimal text).text = text := by
  rw [decimal, Lexeme.text_after, text_afterInteger, digits_append]

theorem text_radix (isDigit : Char → Bool) (text : List Char) :
    (radix isDigit text).text = text := by
  have hsplit := List.takeWhile_append_dropWhile
    (p := fun c => c == '_' || isDigit c) (l := text)
  rw [radix]
  split
  · rename_i hempty
    rw [List.isEmpty_iff.mp hempty] at hsplit
    exact hsplit
  · split
    · rename_i rest hrest
      rw [hrest] at hsplit
      simpa [Lexeme.text] using hsplit
    · exact hsplit

@[simp]
theorem text_lex (text : List Char) : (lex text).text = text := by
  unfold lex
  split
  · repeat' split
    · simp [text_radix]
    · simp [text_radix]
    · simp [text_radix]
    · exact text_decimal _
  · exact text_decimal _

end Numeral

namespace Lexeme

@[simp]
theorem text_ofScan (kind : TokenKind) (scan : Scan) :
    (ofScan kind scan).text = scan.text := rfl

@[simp]
theorem text_identifier (text : List Char) : (identifier text).text = text := by
  cases text with
  | nil => rfl
  | cons c cs =>
      rw [identifier]
      split
      · rw [text_ofScan, Scan.text_cons, Scan.text_identifier]
      · split
        · rw [text_ofScan, Scan.text_cons, Scan.text_identifier]
        · rfl

@[simp]
theorem text_word (text : List Char) : (word text).text = text := by
  rw [word]
  split
  · exact List.takeWhile_append_dropWhile
  · exact text_identifier text

@[simp]
theorem text_privateName (text : List Char) :
    (privateName text).text = '#' :: text := by
  have htext := text_identifier text
  rw [privateName, text_after]
  exact congrArg (['#'] ++ ·) htext

@[simp]
theorem text_templateChunk (text : List Char) :
    (templateChunk text).text = text := Scan.templateChunk_append text

@[simp]
theorem text_regex (text : List Char) : (regex text).text = '/' :: text := by
  have htext := Scan.text_regexBody false text
  rw [Scan.text] at htext
  rw [regex]
  split
  · simp only [Lexeme.text, List.cons_append, List.append_assoc,
      List.takeWhile_append_dropWhile, htext]
  · simp only [Lexeme.text, List.cons_append, htext]

@[simp]
theorem text_punctuation (text : List Char) :
    (punctuation text).text = text := by
  unfold punctuation
  dsimp only
  split
  · exact List.take_append_drop _ text
  · rfl

@[simp]
theorem text_read (mode : LexMode) (text : List Char) :
    (read mode text).text = text := by
  cases text with
  | nil => rfl
  | cons c cs =>
      rw [read]
      repeat' split
      all_goals simp_all

end Lexeme

namespace Trivia

theorem skip_append (place : Place) (offset : Nat) (text : List Char) :
    (skip place offset text).taken ++ (skip place offset text).rest =
      text := by
  fun_induction skip place offset text <;>
    simp_all [none, cons, withComment, withLineBreak]

theorem read_append (offset : Nat) (text : List Char) :
    (read offset text).taken ++ (read offset text).rest = text :=
  skip_append .between offset text

end Trivia

namespace Cursor

variable {cursor : Cursor} {text : List Char}

/-- The cursor is at its offset in a text. -/
def IsIn (cursor : Cursor) (text : List Char) : Prop :=
  ∃ front, text = front ++ cursor.rest ∧
    cursor.offset = Text.byteLength front

theorem isIn_ofText (text : List Char) : (ofText text).IsIn text :=
  ⟨[], rfl, rfl⟩

theorem IsIn.advance (h : cursor.IsIn text) {taken rest : List Char}
    (hsplit : taken ++ rest = cursor.rest) :
    (cursor.advance taken rest).IsIn text := by
  obtain ⟨front, htext, hoffset⟩ := h
  refine ⟨front ++ taken, ?_, ?_⟩
  · rw [htext, ← hsplit, List.append_assoc]
    rfl
  · rw [Text.byteLength_append, ← hoffset]
    rfl

/-- In a text there is one cursor for each offset. -/
theorem IsIn.eq_dropBytes (h : cursor.IsIn text) :
    cursor = ⟨cursor.offset, Text.dropBytes cursor.offset text⟩ := by
  obtain ⟨front, htext, hoffset⟩ := h
  have hrest : Text.dropBytes cursor.offset text = cursor.rest := by
    rw [hoffset, htext, Text.dropBytes_byteLength_append]
  rw [hrest]

end Cursor

/-- Outside of templates a token is read behind what is skipped. -/
theorem lexToken_eq {mode : LexMode} (hmode : mode ≠ .templateContinue)
    (cursor : Cursor) :
    lexToken mode cursor =
      let trivia := Trivia.read cursor.offset cursor.rest
      .ofLexeme (cursor.advance trivia.taken trivia.rest)
        (Lexeme.read mode trivia.rest) trivia.lineBreak trivia.comments := by
  cases mode with
  | templateContinue => exact absurd rfl hmode
  | standard => rfl
  | slashIsRegex => rfl

/-- What holds of the items that may be found at a cursor holds of the token that
is found. -/
theorem lexToken_elim {mode : LexMode} {cursor : Cursor}
    {motive : Lexed → Prop}
    (hread : mode ≠ .templateContinue →
      let trivia := Trivia.read cursor.offset cursor.rest
      motive (.ofLexeme (cursor.advance trivia.taken trivia.rest)
        (Lexeme.read mode trivia.rest) trivia.lineBreak trivia.comments))
    (hchunk : mode = .templateContinue →
      motive (.ofLexeme cursor (Lexeme.templateChunk cursor.rest) false [])) :
    motive (lexToken mode cursor) := by
  by_cases hmode : mode = .templateContinue
  · rw [hmode]
    exact hchunk hmode
  · rw [lexToken_eq hmode]
    exact hread hmode

theorem stop_lexToken (mode : LexMode) (cursor : Cursor) :
    (lexToken mode cursor).token.span.stop =
      (lexToken mode cursor).after.offset := by
  cases mode <;> rfl

/-- A token stands behind the place where it is looked for. -/
theorem offset_le_lexToken (mode : LexMode) (cursor : Cursor) :
    cursor.offset ≤ (lexToken mode cursor).token.span.start ∧
      (lexToken mode cursor).token.span.start ≤
        (lexToken mode cursor).token.span.stop := by
  cases mode with
  | templateContinue => exact ⟨Nat.le_refl _, Nat.le_add_right _ _⟩
  | standard => exact ⟨Nat.le_add_right _ _, Nat.le_add_right _ _⟩
  | slashIsRegex => exact ⟨Nat.le_add_right _ _, Nat.le_add_right _ _⟩

/-- Behind a token of a text there is still that text. -/
theorem Cursor.IsIn.lexToken {cursor : Cursor} {text : List Char}
    (h : cursor.IsIn text) (mode : LexMode) :
    (lexToken mode cursor).after.IsIn text := by
  refine lexToken_elim (motive := fun lexed => lexed.after.IsIn text)
    (fun _ => ?_) fun _ => ?_
  · exact (h.advance (Trivia.read_append cursor.offset cursor.rest)).advance
      (Lexeme.text_read mode _)
  · exact h.advance (Lexeme.text_templateChunk cursor.rest)

end Bundler
