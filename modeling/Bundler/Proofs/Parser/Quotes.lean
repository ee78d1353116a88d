import Bundler.Parser.Literal
import Bundler.Proofs.Lexer.LongestMatch
import Bundler.Proofs.Lexer.Sequence
import Bundler.Proofs.Lexer.Spellings
import Bundler.Proofs.Parser.Names

/-!
# Quoted texts

Names that are no words are written as strings in double quotes.  How each
character is quoted is a spelling of it, and none of these ends a string.  So a
quoted text is one token, wherever it stands, and the value of that is the text.
-/

namespace Bundler

namespace Identifier

open Escape

/-- A character is quoted by one of its spellings. -/
theorem spells_quoteChar (c : Char) : Spells false c (quoteChar c) := by
  have hline : IsHex ['2', '0', '2', '8'] 0x2028 :=
    ⟨[2, 0, 2, 8], by decide, rfl⟩
  have hparagraph : IsHex ['2', '0', '2', '9'] 0x2029 :=
    ⟨[2, 0, 2, 9], by decide, rfl⟩
  rw [quoteChar.eq_def]
  split
  · exact .itself rfl rfl (by decide)
  · exact .itself rfl rfl (by decide)
  · exact .letter (by decide)
  · exact .letter (by decide)
  · exact .point (.fixed rfl hline)
  · exact .point (.fixed rfl hparagraph)
  · rename_i hbackslash hfeed hreturn _ _
    refine .plain ?_
    rintro (h | ⟨_, h | h⟩)
    · exact hbackslash h
    · exact hfeed h
    · exact hreturn h

theorem writes_quote (text : List Char) :
    Writes false text (text.flatMap quoteChar) := by
  induction text with
  | nil => exact .nil
  | cons c cs ih => exact .char (spells_quoteChar c) ih

variable {rest taken behind : List Char}

/-- A string goes on behind a quoted character. -/
theorem string_quoteChar (c : Char)
    (hrest : Scan.string '"' rest = ⟨true, taken, behind⟩) :
    Scan.string '"' (quoteChar c ++ rest) =
      ⟨true, quoteChar c ++ taken, behind⟩ := by
  rw [quoteChar.eq_def]
  split
  case h_7 =>
    rename_i hquote hbackslash hline _ _ _
    rw [List.singleton_append, Scan.string, if_neg hline, if_neg hquote, hrest]
    · rfl
    · exact fun hc _ => hbackslash hc
    · exact fun _ hc _ => hbackslash hc
    · exact fun _ _ hc _ => hbackslash hc
  all_goals simp [Scan.string, hrest, Scan.cons]

theorem string_quote (text rest : List Char) :
    Scan.string '"' (text.flatMap quoteChar ++ '"' :: rest) =
      ⟨true, text.flatMap quoteChar ++ ['"'], rest⟩ := by
  induction text with
  | nil => simp [Scan.string, Scan.done, Scan.cons]
  | cons c cs ih =>
      rw [List.flatMap_cons, List.append_assoc, List.append_assoc]
      exact string_quoteChar c ih

theorem toList_quote (text : String) :
    (quote text).toList = '"' :: (text.toList.flatMap quoteChar ++ ['"']) := by
  rw [quote, String.toList_ofList]
  rfl

/-- A quoted text is a string token, whatever stands behind it. -/
theorem lexToken_quote {mode : LexMode} (hmode : mode ≠ .templateContinue)
    (offset : Nat) (text : String) (rest : List Char) :
    lexToken mode ⟨offset, (quote text).toList ++ rest⟩ =
      let stop := offset + Text.byteLength (quote text).toList
      ⟨⟨.string, ⟨offset, stop⟩, quote text, false⟩, ⟨stop, rest⟩, []⟩ := by
  have hstring := string_quote text.toList rest
  have hread : Lexeme.read mode ((quote text).toList ++ rest) =
      ⟨.string, (quote text).toList, rest⟩ := by
    rw [toList_quote]
    simp only [List.cons_append, List.append_assoc, List.nil_append]
    simp [Lexeme.read, CharClass.isAscii, CharClass.isAsciiNameStart,
      CharClass.isAsciiLetter, CharClass.isDigit, hstring, Lexeme.ofScan,
      Scan.cons]
  have htrivia : Trivia.read offset ((quote text).toList ++ rest) =
      .none ((quote text).toList ++ rest) := by
    rw [toList_quote]
    exact Trivia.read_of_opens offset _ (by decide)
  rw [lexToken_eq hmode, htrivia]
  simp only [Trivia.none, Cursor.advance, Text.byteLength, hread,
    Lexed.ofLexeme, String.ofList_toList, Nat.add_zero]

theorem decode_quote (text : String) :
    decode false ((quote text).toList.drop 1).dropLast = .ok text.toList := by
  rw [toList_quote, List.drop_one, List.tail_cons, List.dropLast_concat]
  exact decode_of_writes (writes_quote text.toList)

end Identifier

section Reading

variable {mode : LexMode} {cursor : Cursor}

theorem lexAll_of_endsReading
    (hends : (lexToken mode cursor).token.endsReading = true) :
    lexAll mode [] cursor = [(mode, lexToken mode cursor)] := by
  rw [lexAll]
  exact dif_pos hends

theorem lexAll_of_not_endsReading
    (hgoes : (lexToken mode cursor).token.endsReading = false) :
    lexAll mode [] cursor =
      (mode, lexToken mode cursor) ::
        lexAll mode [] (lexToken mode cursor).after := by
  rw [lexAll]
  exact dif_neg (Bool.eq_false_iff.mp hgoes)

end Reading

theorem lexToken_nil (offset : Nat) :
    lexToken .standard ⟨offset, []⟩ =
      ⟨⟨.endOfInput, .point offset, "", false⟩, ⟨offset, []⟩, []⟩ := rfl

namespace Identifier

/-- The value of a string token that is a quoted text is that text. -/
theorem stringValue_quote {stream : TokenStream} {text : String}
    (hkind : (stream.prepare .standard).upcoming.kind = .string)
    (htext : (stream.prepare .standard).upcoming.text = quote text) :
    Parser.stringValue stream =
      .ok text (stream.prepare .standard).advance := by
  have hconsume : Parser.consume stream =
      .ok (stream.prepare .standard).upcoming
        (stream.prepare .standard).advance :=
    Parser.consume_eq_ok_iff.mpr ⟨rfl, rfl⟩
  refine Outcome.bind_eq_ok_iff.mpr ⟨_, _, hconsume, ?_⟩
  simp only [hkind, htext, decode_quote, String.ofList_toList]
  rfl

/-- A quoted text is read back: it is a single string token, and the value of
this is the text. -/
theorem quote_readsBack (text : String) :
    let source := (quote text).toList
    let stop := Text.byteLength source
    (lexAll .standard [] (.ofText source)).map (·.2) =
        [⟨⟨.string, ⟨0, stop⟩, quote text, false⟩, ⟨stop, []⟩, []⟩,
          ⟨⟨.endOfInput, .point stop, "", false⟩, ⟨stop, []⟩, []⟩] ∧
      ∃ after, Parser.stringValue (.ofSource source) = .ok text after ∧
        after.unread = 0 := by
  have hmode : LexMode.standard ≠ .templateContinue := by decide
  have hlexed := lexToken_quote hmode 0 text []
  have hsome : 0 < Text.byteLength (quote text).toList := by
    rw [toList_quote, Text.byteLength]
    exact Nat.add_pos_left (Char.utf8Size_pos _) _
  rw [List.append_nil, Nat.zero_add] at hlexed
  generalize (quote text).toList = source at hlexed hsome
  have hgoes : (lexToken .standard ⟨0, source⟩).token.endsReading = false := by
    simpa [hlexed, Token.endsReading, Span.isEmpty] using hsome.ne'
  constructor
  · rw [Cursor.ofText, lexAll_of_not_endsReading hgoes, hlexed,
      lexAll_of_endsReading rfl, lexToken_nil]
    rfl
  · have hnext : ((TokenStream.ofSource source).prepare .standard).upcoming =
        (lexToken .standard ⟨0, source⟩).token := rfl
    refine ⟨_, stringValue_quote ?_ ?_, ?_⟩
    · rw [hnext, hlexed]
    · rw [hnext, hlexed]
    · change Text.byteLength source -
        (lexToken .standard ⟨0, source⟩).token.span.stop = 0
      rw [hlexed]
      exact Nat.sub_self _

end Identifier

end Bundler
