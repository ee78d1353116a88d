import Bundler.Proofs.Lexer.Partition

/-!
# Words

An identifier or key word starts with a character that a name may hold, or with
the backslash of an escape; no number, string or mark is a word.  Whatever else
it holds is a character of names or of escapes.
-/

namespace Bundler

/-- Characters that a word may start with. -/
def CharClass.opensWord (c : Char) : Bool := isNamePart c || c = '\\'

theorem CharClass.opensWord_of_isNameStart {c : Char}
    (h : isNameStart c = true) : opensWord c = true := by
  rw [isNameStart, Bool.or_eq_true] at h
  cases h with
  | inl hascii => simp [opensWord, isNamePart, isAsciiNamePart, hascii]
  | inr hforeign => simp [opensWord, isNamePart, hforeign]

/-- Characters that a word may hold, those of escapes among them. -/
def CharClass.isWordPart (c : Char) : Bool := opensWord c || c = '{' || c = '}'

theorem CharClass.isWordPart_of_isNamePart {c : Char}
    (h : isNamePart c = true) : isWordPart c = true := by
  rw [isWordPart, opensWord, h]
  rfl

theorem CharClass.isWordPart_of_isAsciiNamePart {c : Char}
    (h : isAsciiNamePart c = true) : isWordPart c = true := by
  apply isWordPart_of_isNamePart
  rw [isNamePart, h, Bool.true_or]

theorem CharClass.isWordPart_of_isHexDigit {c : Char}
    (h : isHexDigit c = true) : isWordPart c = true := by
  apply isWordPart_of_isAsciiNamePart
  simp only [isHexDigit, isAsciiNamePart, isAsciiNameStart, isAsciiLetter,
    Bool.or_eq_true, Bool.and_eq_true, decide_eq_true_eq] at h ⊢
  obtain (hdigit | ⟨hlow, hhigh⟩) | ⟨hlow, hhigh⟩ := h
  · exact .inr hdigit
  · exact .inl (.inl (.inl (.inl
      ⟨hlow, Nat.le_trans hhigh (by decide : 'f'.toNat ≤ 'z'.toNat)⟩)))
  · exact .inl (.inl (.inl (.inr
      ⟨hlow, Nat.le_trans hhigh (by decide : 'F'.toNat ≤ 'Z'.toNat)⟩)))

/-- An identifier that is complete holds characters of words only. -/
theorem Scan.isWordPart_identifier (progress : EscapeProgress)
    (text : List Char)
    (hcomplete : (identifier progress text).complete = true) :
    ∀ c ∈ (identifier progress text).taken, CharClass.isWordPart c = true := by
  fun_induction identifier progress text with
  | case1 => exact fun _ hmem => absurd hmem List.not_mem_nil
  | case2 c cs hpart ih =>
      exact List.forall_mem_cons.mpr
        ⟨CharClass.isWordPart_of_isNamePart hpart, ih hcomplete⟩
  | case4 => exact fun _ hmem => absurd hmem List.not_mem_nil
  | case8 c cs _ hdigit ih | case10 c cs hdigit ih
  | case11 c cs hdigit more ih | case13 digit c cs hdigit ih =>
      exact List.forall_mem_cons.mpr
        ⟨CharClass.isWordPart_of_isHexDigit hdigit, ih hcomplete⟩
  | case3 cs _ ih | case5 cs ih | case7 cs ih | case15 digit cs _ _ ih =>
      exact List.forall_mem_cons.mpr ⟨by decide, ih hcomplete⟩
  | case6 | case9 | case12 | case14 | case16 => cases hcomplete

namespace Lexeme

/-- If a lexeme is a word, it starts as one. -/
def StartsAsWord (lexeme : Lexeme) : Prop :=
  lexeme.kind.isWord = true →
    ∃ c ∈ lexeme.taken.head?, CharClass.opensWord c = true

theorem startsAsWord_of_kind {lexeme : Lexeme}
    (h : lexeme.kind.isWord = false) : lexeme.StartsAsWord := by
  intro hword
  rw [h] at hword
  cases hword

@[simp]
theorem kind_after (taken : List Char) (lexeme : Lexeme) :
    (lexeme.after taken).kind = lexeme.kind := rfl

end Lexeme

namespace Numeral

open Lexeme

/-- The kinds of token that a numeral may make. -/
def Makes (kind : TokenKind) : Prop :=
  kind = .number ∨ kind = .bigint ∨ kind = .invalid

theorem makes_close (text : List Char) : Makes (close text).kind := by
  unfold close
  repeat' split
  all_goals simp [Makes]

theorem makes_exponentDigits (text : List Char) :
    Makes (exponentDigits text).kind := by
  rw [exponentDigits]
  dsimp only
  split
  · simp [Makes]
  · exact makes_close _

theorem makes_exponent (text : List Char) : Makes (exponent text).kind := by
  unfold exponent
  repeat' split
  · simp [Makes]
  · exact makes_exponentDigits _
  · exact makes_exponentDigits _

theorem makes_afterFraction (text : List Char) :
    Makes (afterFraction text).kind := by
  unfold afterFraction
  repeat' split
  · exact makes_close _
  · exact makes_exponent _
  · exact makes_close _

theorem makes_afterInteger (fractionAllowed : Bool) (text : List Char) :
    Makes (afterInteger fractionAllowed text).kind := by
  unfold afterInteger
  repeat' split
  · exact makes_close _
  · simp [Makes]
  · exact makes_afterFraction _
  · exact makes_afterFraction _

theorem makes_radix (isDigit : Char → Bool) (text : List Char) :
    Makes (radix isDigit text).kind := by
  rw [radix]
  repeat' split
  all_goals simp [Makes]

theorem makes_decimal (text : List Char) : Makes (decimal text).kind :=
  makes_afterInteger _ _

theorem makes_lex (text : List Char) : Makes (lex text).kind := by
  unfold lex
  repeat' split
  · exact makes_radix _ _
  · exact makes_radix _ _
  · exact makes_radix _ _
  · exact makes_decimal _
  · exact makes_decimal _

end Numeral

namespace Lexeme

/-- A lexeme that is no word is not the end of the input, and starts with a
quote if it is a string. -/
structure IsOther (lexeme : Lexeme) : Prop where
  isWord : lexeme.kind.isWord = false
  ne_endOfInput : lexeme.kind ≠ .endOfInput
  quoted : lexeme.kind = .string →
    ∃ quote ∈ lexeme.taken.head?, quote = '"' ∨ quote = '\''

theorem isOther_of_kind {lexeme : Lexeme} (hword : lexeme.kind.isWord = false)
    (hend : lexeme.kind ≠ .endOfInput) (hstring : lexeme.kind ≠ .string) :
    lexeme.IsOther :=
  ⟨hword, hend, fun hkind => absurd hkind hstring⟩

theorem isOther_numeral (text : List Char) : (Numeral.lex text).IsOther := by
  rcases Numeral.makes_lex text with hkind | hkind | hkind <;>
    exact isOther_of_kind (by rw [hkind]; rfl) (by simp [hkind])
      (by simp [hkind])

theorem isOther_string {quote : Char} (hquote : quote = '"' ∨ quote = '\'')
    (text : List Char) :
    (ofScan .string ((Scan.string quote text).cons quote)).IsOther := by
  refine ⟨?_, ?_, fun _ => ⟨quote, rfl, hquote⟩⟩
  all_goals
    rw [ofScan]
    dsimp only
    split
  all_goals simp [TokenKind.isWord]

theorem isOther_templateChunk (text : List Char) :
    (templateChunk text).IsOther := by
  rw [templateChunk]
  dsimp only
  split <;> exact isOther_of_kind rfl (by simp) (by simp)

theorem IsOther.after {lexeme : Lexeme} (h : lexeme.IsOther)
    (hstring : lexeme.kind ≠ .string) (taken : List Char) :
    (lexeme.after taken).IsOther :=
  isOther_of_kind h.isWord h.ne_endOfInput hstring

theorem isOther_privateName (text : List Char) :
    (privateName text).IsOther := by
  rw [privateName]
  refine IsOther.after ?_ ?_ _
  · split <;> exact isOther_of_kind rfl (by simp) (by simp)
  · split <;> simp

theorem isOther_regex (text : List Char) : (regex text).IsOther := by
  rw [regex]
  split <;> exact isOther_of_kind rfl (by simp) (by simp)

theorem isOther_punctuation (text : List Char) :
    (punctuation text).IsOther := by
  unfold punctuation
  dsimp only
  split <;> exact isOther_of_kind rfl (by simp) (by simp)

theorem startsAsWord_identifier (text : List Char) :
    (identifier text).StartsAsWord := by
  cases text with
  | nil => exact startsAsWord_of_kind rfl
  | cons c cs =>
      rw [identifier]
      split
      · rename_i hescape
        exact fun _ => ⟨c, rfl, by simp [CharClass.opensWord, hescape]⟩
      · split
        · rename_i hstart
          exact fun _ => ⟨c, rfl, CharClass.opensWord_of_isNameStart hstart⟩
        · exact startsAsWord_of_kind rfl

theorem startsAsWord_word {c : Char} {cs : List Char}
    (hstart : CharClass.isAsciiNameStart c = true) :
    (word (c :: cs)).StartsAsWord := by
  have hpart : CharClass.isAsciiNamePart c = true := by
    rw [CharClass.isAsciiNamePart, hstart, Bool.true_or]
  rw [word]
  split
  · rw [List.takeWhile_cons_of_pos hpart]
    refine fun _ => ⟨c, rfl, CharClass.opensWord_of_isNameStart ?_⟩
    rw [CharClass.isNameStart, hstart, Bool.true_or]
  · exact startsAsWord_identifier _

/-- Whatever is read is an identifier, a word that starts in ASCII, or no word
at all. -/
theorem read_cases (mode : LexMode) (c : Char) (cs : List Char) :
    read mode (c :: cs) = identifier (c :: cs) ∨
      (CharClass.isAsciiNameStart c = true ∧
        read mode (c :: cs) = word (c :: cs)) ∨
      (read mode (c :: cs)).IsOther := by
  rw [read]
  split
  · exact .inl rfl
  split
  · exact .inr (.inl ⟨‹_›, rfl⟩)
  all_goals refine .inr (.inr ?_)
  split
  · exact isOther_numeral _
  split
  · exact isOther_numeral _
  split
  · rename_i hquote
    rw [Bool.or_eq_true, decide_eq_true_eq, decide_eq_true_eq] at hquote
    exact isOther_string hquote cs
  split
  · refine (isOther_templateChunk cs).after ?_ _
    rw [templateChunk]
    dsimp only
    split <;> simp
  split
  · exact isOther_privateName _
  split
  · exact isOther_regex _
  · exact isOther_punctuation _

theorem startsAsWord_read (mode : LexMode) (text : List Char) :
    (read mode text).StartsAsWord := by
  cases text with
  | nil => exact startsAsWord_of_kind rfl
  | cons c cs =>
      rcases read_cases mode c cs with hread | ⟨hstart, hread⟩ | hother
      · rw [hread]
        exact startsAsWord_identifier _
      · rw [hread]
        exact startsAsWord_word hstart
      · exact startsAsWord_of_kind hother.isWord

theorem isWordPart_identifier (text : List Char)
    (hword : (identifier text).kind.isWord = true) :
    ∀ c ∈ (identifier text).taken, CharClass.isWordPart c = true := by
  have hscan : ∀ (c : Char) (progress : Scan.EscapeProgress) (cs : List Char),
      CharClass.isWordPart c = true →
      (ofScan .identifier ((Scan.identifier progress cs).cons c)).kind.isWord =
        true →
      ∀ other ∈ c :: (Scan.identifier progress cs).taken,
        CharClass.isWordPart other = true := by
    intro c progress cs hc hword
    refine List.forall_mem_cons.mpr ⟨hc, Scan.isWordPart_identifier _ _ ?_⟩
    rw [ofScan, Scan.cons] at hword
    cases hcomplete : (Scan.identifier progress cs).complete with
    | true => rfl
    | false => simp [hcomplete, TokenKind.isWord] at hword
  cases text with
  | nil => cases hword
  | cons c cs =>
      rw [identifier] at hword ⊢
      split at hword
      · rename_i hescape
        rw [if_pos hescape]
        exact hscan c _ cs (by rw [hescape]; decide) hword
      · rename_i hescape
        rw [if_neg hescape]
        split at hword
        · rename_i hstart
          rw [if_pos hstart]
          refine hscan c _ cs ?_ hword
          rw [CharClass.isWordPart, CharClass.opensWord_of_isNameStart hstart]
          rfl
        · cases hword

theorem isWordPart_word (text : List Char)
    (hword : (word text).kind.isWord = true) :
    ∀ c ∈ (word text).taken, CharClass.isWordPart c = true := by
  rw [word] at hword ⊢
  split at hword
  · exact fun c hc => CharClass.isWordPart_of_isAsciiNamePart
      (List.all_eq_true.mp List.all_takeWhile c hc)
  · exact isWordPart_identifier text hword

/-- A word holds characters of words only. -/
theorem isWordPart_read (mode : LexMode) (text : List Char)
    (hword : (read mode text).kind.isWord = true) :
    ∀ c ∈ (read mode text).taken, CharClass.isWordPart c = true := by
  cases text with
  | nil => cases hword
  | cons c cs =>
      rcases read_cases mode c cs with hread | ⟨_, hread⟩ | hother
      · rw [hread] at hword ⊢
        exact isWordPart_identifier _ hword
      · rw [hread] at hword ⊢
        exact isWordPart_word _ hword
      · rw [hother.isWord] at hword
        cases hword

end Lexeme

/-- A token that is a word is read where the trivia ends. -/
theorem exists_read_of_isWord {mode : LexMode} {cursor : Cursor}
    (hword : (lexToken mode cursor).token.kind.isWord = true) :
    ∃ text,
      (lexToken mode cursor).token.kind = (Lexeme.read mode text).kind ∧
      (lexToken mode cursor).token.text.toList =
        (Lexeme.read mode text).taken := by
  have htext : ∀ {lexeme : Lexeme} {start : Cursor} {lineBreak : Bool}
      {comments : List Comment}, (Lexed.ofLexeme start lexeme lineBreak
        comments).token.text.toList = lexeme.taken :=
    String.toList_ofList
  cases mode with
  | templateContinue =>
      have hother := (Lexeme.isOther_templateChunk cursor.rest).isWord
      exact absurd hword (by rw [lexToken, Lexed.ofLexeme, hother]; decide)
  | standard => exact ⟨_, rfl, htext⟩
  | slashIsRegex => exact ⟨_, rfl, htext⟩

/-- A token that is a word starts as one. -/
theorem exists_head_of_isWord {mode : LexMode} {cursor : Cursor}
    (hword : (lexToken mode cursor).token.kind.isWord = true) :
    ∃ c ∈ (lexToken mode cursor).token.text.toList.head?,
      CharClass.opensWord c = true := by
  obtain ⟨text, hkind, htext⟩ := exists_read_of_isWord hword
  rw [htext]
  exact Lexeme.startsAsWord_read mode text (hkind ▸ hword)

/-- A token that is a word holds characters of words only. -/
theorem isWordPart_of_isWord {mode : LexMode} {cursor : Cursor}
    (hword : (lexToken mode cursor).token.kind.isWord = true) :
    ∀ c ∈ (lexToken mode cursor).token.text.toList,
      CharClass.isWordPart c = true := by
  obtain ⟨text, hkind, htext⟩ := exists_read_of_isWord hword
  rw [htext]
  exact Lexeme.isWordPart_read mode text (hkind ▸ hword)

end Bundler
