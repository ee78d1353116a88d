import Bundler.Proofs.Lexer.LongestMatch
import Bundler.Proofs.Lexer.Margins

/-!
# Words with spaces between them

Names, key words and punctuators, written on one line with spaces between them,
are read as just these tokens: a space ends each of them, and none holds a
space.
-/

namespace Bundler

/-- Identifiers in ASCII that are no key words. -/
structure PlainName where
  first : Char
  others : List Char
  first_isNameStart : CharClass.isAsciiNameStart first = true
  others_areNameParts : others.all CharClass.isAsciiNamePart = true
  isNoKeyword : Keyword.ofText? (String.ofList (first :: others)) = none

namespace PlainName

def text (name : PlainName) : List Char := name.first :: name.others

end PlainName

/-- Words that expressions are made of.  There is no arrow among them. -/
inductive Word
  | name (name : PlainName)
  | keyword (word : Keyword)
  | mark (mark : Punctuator)
      (isNoArrow : mark ≠ .equalsChevronRight := by decide)

namespace Word

def text : Word → List Char
  | .name plain => plain.text
  | .keyword known => known.text.toList
  | .mark punctuator _ => punctuator.text.toList

def kind : Word → TokenKind
  | .name _ => .identifier
  | .keyword known => .keyword known
  | .mark punctuator _ => .punctuator punctuator

/-- Words one after the other with single spaces between them. -/
def spaced : List Word → List Char
  | [] => []
  | [word] => word.text
  | word :: words => word.text ++ ' ' :: spaced words

/-- What follows a word: nothing, or a space. -/
def IsApart (rest : List Char) : Prop := ∀ c ∈ rest.head?, c = ' '

end Word

/-! ### Reading a word -/

/-- What holds no space stands in front of one. -/
theorem Word.IsApart.prefix_of_append {rest : List Char}
    (hrest : Word.IsApart rest) {front text : List Char}
    (hfront : ∀ c ∈ front, c ≠ ' ') (h : front <+: text ++ rest) :
    front <+: text := by
  refine Text.prefix_of_append (fun c hc hmem => ?_) h
  exact hfront c hmem (hrest c hc)

namespace Punctuator

theorem mem_all (mark : Punctuator) : mark ∈ all := by
  cases mark <;> decide

/-- How punctuators are written: each is found as the longest one in its own text,
which holds neither a space nor a digit and opens nothing else that a token, a gap
or a comment may be. -/
theorem spellings (mark : Punctuator) :
    longestAt? mark.text.toList = some mark ∧
      (∀ c ∈ mark.text.toList, c ≠ ' ' ∧ CharClass.isDigit c = false) ∧
      (∃ c cs, mark.text.toList = c :: cs ∧
        CharClass.isAscii c = true ∧ CharClass.isAsciiNameStart c = false ∧
        c ∉ ['\\', '"', '\'', '\x60', '#'] ∧
        CharClass.isLineTerminator c = false ∧ CharClass.isWhitespace c = false) ∧
      ¬ ['/', '/'] <+: mark.text.toList ∧
      ¬ ['/', '*'] <+: mark.text.toList := by
  have hall : ∀ mark ∈ all,
      longestAt? mark.text.toList = some mark ∧
        (mark.text.toList.all fun c => decide
          (c ≠ ' ' ∧ CharClass.isDigit c = false)) = true ∧
        (mark.text.toList.head?.any fun c => decide
          (CharClass.isAscii c = true ∧ CharClass.isAsciiNameStart c = false ∧
            c ∉ ['\\', '"', '\'', '\x60', '#'] ∧
            CharClass.isLineTerminator c = false ∧
            CharClass.isWhitespace c = false)) = true ∧
        ¬ ['/', '/'] <+: mark.text.toList ∧
        ¬ ['/', '*'] <+: mark.text.toList := by
    decide +kernel
  obtain ⟨hlongest, hchars, hfirst, hcomments⟩ := hall mark mark.mem_all
  refine ⟨hlongest, fun c hc => of_decide_eq_true (List.all_eq_true.mp hchars c hc),
    ?_, hcomments⟩
  cases htext : mark.text.toList with
  | nil => rw [htext] at hfirst; cases hfirst
  | cons c cs =>
      rw [htext] at hfirst
      exact ⟨c, cs, rfl, of_decide_eq_true hfirst⟩

theorem longestAt?_text (mark : Punctuator) :
    longestAt? mark.text.toList = some mark :=
  mark.spellings.1

theorem ne_space_of_mem_text (mark : Punctuator) :
    ∀ c ∈ mark.text.toList, c ≠ ' ' :=
  fun c hc => (mark.spellings.2.1 c hc).1

/-- No punctuator goes on with a space. -/
theorem longestAt?_append (mark : Punctuator) {rest : List Char}
    (hrest : Word.IsApart rest) :
    longestAt? (mark.text.toList ++ rest) = some mark := by
  have hprefix : ∀ other : Punctuator,
      other.text.toList.isPrefixOf (mark.text.toList ++ rest) =
        other.text.toList.isPrefixOf mark.text.toList := by
    intro other
    have hother := other.ne_space_of_mem_text
    rw [Bool.eq_iff_iff, List.isPrefixOf_iff_prefix, List.isPrefixOf_iff_prefix]
    exact ⟨hrest.prefix_of_append hother,
      fun h => h.trans (List.prefix_append _ _)⟩
  rw [longestAt?, funext hprefix, ← longestAt?, mark.longestAt?_text]

theorem not_isDigit_of_mem_text (mark : Punctuator) :
    ∀ c ∈ mark.text.toList, CharClass.isDigit c = false :=
  fun c hc => (mark.spellings.2.1 c hc).2

/-- There is no digit in a punctuator nor right behind it. -/
theorem not_isDigit_behind (mark : Punctuator) {front others rest : List Char}
    {c : Char} (hrest : Word.IsApart rest) (hfront : ∀ d ∈ front, d ≠ ' ')
    (htext : mark.text.toList ++ rest = front ++ c :: others) :
    CharClass.isDigit c = false := by
  obtain ⟨more, hmore⟩ :=
    hrest.prefix_of_append hfront ⟨c :: others, htext.symm⟩
  rw [← hmore, List.append_assoc, List.append_cancel_left_eq] at htext
  cases more with
  | nil =>
      rw [hrest c (by rw [← List.nil_append rest, htext]; rfl)]
      decide
  | cons d ds =>
      cases htext
      exact mark.not_isDigit_of_mem_text c (hmore ▸ List.mem_append_right _
        List.mem_cons_self)

/-- A punctuator opens nothing else that a token may be. -/
theorem first_of_text (mark : Punctuator) {c : Char} {cs : List Char}
    (htext : mark.text.toList = c :: cs) :
    CharClass.isAscii c = true ∧ CharClass.isAsciiNameStart c = false ∧
      c ∉ ['\\', '"', '\'', '\x60', '#'] := by
  obtain ⟨_, _, ⟨d, ds, htext', hascii, hname, hothers, _⟩, _⟩ := mark.spellings
  obtain ⟨rfl, rfl⟩ := List.cons.inj (htext.symm.trans htext')
  exact ⟨hascii, hname, hothers⟩

theorem text_ne_nil (mark : Punctuator) : mark.text.toList ≠ [] := by
  obtain ⟨_, _, ⟨c, cs, htext, _⟩, _⟩ := mark.spellings
  rw [htext]
  exact List.cons_ne_nil c cs

end Punctuator

namespace PlainName

theorem areNameParts (name : PlainName) :
    ∀ c ∈ name.text, CharClass.isAsciiNamePart c = true := by
  intro c hc
  rcases List.mem_cons.mp hc with rfl | hc
  · rw [CharClass.isAsciiNamePart, name.first_isNameStart, Bool.true_or]
  · exact List.all_eq_true.mp name.others_areNameParts c hc

theorem read_text (name : PlainName) {mode : LexMode} {rest : List Char}
    (hends : Name.Ends rest) :
    Lexeme.read mode (name.text ++ rest) =
      ⟨.identifier, name.text, rest⟩ := by
  have hparts := name.areNameParts
  have hname : Name.IsIdentifier name.text := by
    refine .char ?_ (Name.continues_of_forall fun c hc => ?_)
    · rw [CharClass.isNameStart, name.first_isNameStart, Bool.true_or]
    · rw [CharClass.isNamePart, hparts c (List.mem_cons_of_mem _ hc),
        Bool.true_or]
  rw [Lexeme.read_identifier mode hname hends]
  · rw [Name.kind, text, name.isNoKeyword]
  · rintro keyword more ⟨hsplit, hmore, hhead⟩
    obtain ⟨c, cs, rfl⟩ := List.exists_cons_of_ne_nil hmore
    have hpart := hparts c (hsplit ▸ List.mem_append_right _ List.mem_cons_self)
    rw [hhead c rfl] at hpart
    cases hpart

end PlainName

namespace Lexeme

theorem punctuation_mark (mark : Punctuator) {rest : List Char}
    (hrest : Word.IsApart rest) :
    punctuation (mark.text.toList ++ rest) =
      ⟨.punctuator mark, mark.text.toList, rest⟩ := by
  have hlongest := mark.longestAt?_append hrest
  have htake : (mark.text.toList ++ rest).take mark.text.length =
      mark.text.toList := by
    rw [← String.length_toList, List.take_left]
  have hdrop : (mark.text.toList ++ rest).drop mark.text.length = rest := by
    rw [← String.length_toList, List.drop_left]
  unfold punctuation
  split
  · rename_i c others htext
    have hfront : ∀ d ∈ ['?', '.'], d ≠ ' ' := by simp
    have hdigit : CharClass.isDigit c = false :=
      mark.not_isDigit_behind hrest hfront htext
    simp only [hdigit, Bool.false_eq_true, if_false, hlongest, htake, hdrop]
  · simp only [hlongest, htake, hdrop]

/-- A word that a space or nothing follows is read to its end. -/
theorem read_word (word : Word) {rest : List Char} (hrest : Word.IsApart rest) :
    read .standard (word.text ++ rest) = ⟨word.kind, word.text, rest⟩ := by
  have hends : Name.Ends rest := by
    intro c hc
    rw [hrest c hc]
    decide
  cases word with
  | name plain =>
      rw [Word.text, plain.read_text hends]
      rfl
  | keyword known =>
      exact read_keyword .standard known (Name.not_isAsciiNamePart_of_ends hends)
  | mark punctuator _ =>
      change read .standard (punctuator.text.toList ++ rest) =
        ⟨.punctuator punctuator, punctuator.text.toList, rest⟩
      rw [← punctuation_mark punctuator hrest]
      cases htext : punctuator.text.toList with
      | nil => exact absurd htext punctuator.text_ne_nil
      | cons c cs =>
          obtain ⟨hascii, hname, hothers⟩ := punctuator.first_of_text htext
          have hdigit : CharClass.isDigit c = false :=
            punctuator.not_isDigit_of_mem_text c (htext ▸ List.mem_cons_self)
          have hnumber : (c = '.' && (cs ++ rest).head?.any CharClass.isDigit) =
              false := by
            by_cases hdot : c = '.'
            · subst hdot
              cases hothers' : cs ++ rest with
              | nil => rfl
              | cons d ds =>
                  have hfront : ∀ e ∈ ['.'], e ≠ ' ' := by simp
                  have hnext := punctuator.not_isDigit_behind hrest hfront (by
                    rw [htext, List.cons_append, hothers', List.cons_append,
                      List.nil_append])
                  simp [hnext]
            · simp [hdot]
          simp only [List.mem_cons, List.not_mem_nil, or_false, not_or]
            at hothers
          simp [-List.head?_append, read, hascii, hname, hothers, hdigit,
            hnumber]

end Lexeme

/-! ### Reading words behind spaces -/

namespace Word

/-- A word opens neither a gap nor a comment. -/
theorem opens (word : Word) :
    ∃ c cs, word.text = c :: cs ∧ CharClass.isLineTerminator c = false ∧
      CharClass.isWhitespace c = false ∧
      ¬ ['/', '/'] <+: word.text ∧ ¬ ['/', '*'] <+: word.text := by
  have hname : ∀ {c : Char} {cs : List Char},
      CharClass.isAsciiNameStart c = true → ∃ d ds, c :: cs = d :: ds ∧
        CharClass.isLineTerminator d = false ∧
        CharClass.isWhitespace d = false ∧ ¬ ['/', '/'] <+: c :: cs ∧
        ¬ ['/', '*'] <+: c :: cs := by
    intro c cs hc
    have hstart : CharClass.isNameStart c = true := by
      rw [CharClass.isNameStart, hc, Bool.true_or]
    obtain ⟨hline, hspace, hslash⟩ := CharClass.not_trivia_of_isNameStart hstart
    refine ⟨c, cs, rfl, hline, hspace, ?_, ?_⟩
    · exact fun h => hslash (List.cons_prefix_cons.mp h).1.symm
    · exact fun h => hslash (List.cons_prefix_cons.mp h).1.symm
  cases word with
  | name plain => exact hname plain.first_isNameStart
  | keyword known =>
      obtain ⟨c, cs, htext, hstart, _⟩ := known.exists_text_eq
      rw [text, htext]
      exact hname hstart
  | mark punctuator _ =>
      obtain ⟨_, _, ⟨c, cs, htext, _, _, _, hline, hspace⟩, hslashes, hslashStar⟩ :=
        punctuator.spellings
      exact ⟨c, cs, htext, hline, hspace, hslashes, hslashStar⟩

theorem trivia_read (word : Word) (offset : Nat) {rest : List Char}
    (hrest : IsApart rest) :
    Trivia.read offset (word.text ++ rest) = .none (word.text ++ rest) := by
  obtain ⟨c, cs, htext, hline, hspace, hslashes, hslashStar⟩ := word.opens
  have hfront : ∀ d, d ≠ ' ' → ['/', d] <+: word.text ++ rest →
      ['/', d] <+: word.text := by
    intro d hd
    refine hrest.prefix_of_append fun e he => ?_
    rcases List.mem_cons.mp he with rfl | he
    · decide
    · rwa [List.mem_singleton.mp he]
  rw [htext, List.cons_append] at *
  rw [Trivia.read, Trivia.skip]
  · simp [hline, hspace]
  · rintro others rfl hothers
    exact hslashes (hfront '/' (by decide) ⟨others, by rw [hothers]; rfl⟩)
  · rintro others rfl hothers
    exact hslashStar (hfront '*' (by decide) ⟨others, by rw [hothers]; rfl⟩)

theorem isApart_spaced (word : Word) (words : List Word) :
    ∃ rest, spaced (word :: words) = word.text ++ rest ∧ IsApart rest ∧
      ∃ gap, rest = gap ++ spaced words ∧ ∀ c ∈ gap, c = ' ' := by
  cases words with
  | nil => exact ⟨[], by simp [spaced], nofun, [], rfl, nofun⟩
  | cons next words =>
      refine ⟨' ' :: spaced (next :: words), rfl, ?_, [' '], rfl, ?_⟩
      · rintro c ⟨⟩
        rfl
      · simp

end Word

theorem spacing_of_spaces {behind gap : List Char}
    (hgap : ∀ c ∈ gap, c = ' ') (offset : Nat) :
    Spacing behind offset gap [] := by
  induction gap generalizing offset with
  | nil => exact .nil
  | cons c gap ih =>
      refine .space (.inl ?_)
        (ih (fun d hd => hgap d (List.mem_cons_of_mem _ hd)) _)
      rw [hgap c List.mem_cons_self]
      decide

/-- Behind spaces a word is found that a space or nothing follows. -/
theorem lexToken_word {gap : List Char} (hgap : ∀ c ∈ gap, c = ' ')
    (offset : Nat) (word : Word) {rest : List Char}
    (hrest : Word.IsApart rest) :
    lexToken .standard ⟨offset, gap ++ (word.text ++ rest)⟩ =
      .ofLexeme ⟨offset + Text.byteLength gap, word.text ++ rest⟩
        ⟨word.kind, word.text, rest⟩ false [] := by
  have hmode : LexMode.standard ≠ .templateContinue := by decide
  have hbreak : gap.any CharClass.isLineTerminator = false := by
    rw [List.any_eq_false]
    intro c hc
    rw [hgap c hc]
    decide
  have hword : lexToken .standard
      ⟨offset + Text.byteLength gap, word.text ++ rest⟩ =
        .ofLexeme ⟨offset + Text.byteLength gap, word.text ++ rest⟩
          ⟨word.kind, word.text, rest⟩ false [] := by
    rw [lexToken_eq hmode, word.trivia_read _ hrest]
    dsimp only [Trivia.none]
    rw [Lexeme.read_word word hrest]
    rfl
  rw [(spacing_of_spaces hgap offset).lexToken hmode]
  dsimp only
  rw [hword, hbreak]
  rfl

/-- Behind spaces at the end of a text nothing is found. -/
theorem lexToken_spaces {gap : List Char} (hgap : ∀ c ∈ gap, c = ' ')
    (offset : Nat) :
    (lexToken .standard ⟨offset, gap⟩).token.kind = .endOfInput := by
  have hspacing : Spacing [] offset gap [] := spacing_of_spaces hgap offset
  have hmode : LexMode.standard ≠ .templateContinue := by decide
  have hlex := hspacing.lexToken hmode
  rw [List.append_nil] at hlex
  rw [hlex]
  rfl

/-! ### Arrows -/

namespace Lexeme

theorem prefix_of_punctuation {text : List Char} {mark : Punctuator}
    (h : (punctuation text).kind = .punctuator mark) :
    mark.text.toList <+: text := by
  have hlongest : ∀ {found : Punctuator},
      Punctuator.longestAt? text = some found → found.text.toList <+: text := by
    intro found hfound
    have hprefix := List.find?_some hfound
    exact List.isPrefixOf_iff_prefix.mp hprefix
  unfold punctuation at h
  split at h
  · rename_i c others
    split at h
    · cases h
      exact ⟨'.' :: c :: others, rfl⟩
    · cases hfound : Punctuator.longestAt? ('?' :: '.' :: c :: others) with
      | none =>
          rw [hfound] at h
          cases h
      | some found =>
          rw [hfound] at h
          cases h
          exact hlongest hfound
  · cases hfound : Punctuator.longestAt? text with
    | none =>
        rw [hfound] at h
        cases h
    | some found =>
        rw [hfound] at h
        cases h
        exact hlongest hfound

/-- What is read as a punctuator is spelled like it. -/
theorem prefix_of_read {mode : LexMode} {text : List Char} {mark : Punctuator}
    (h : (read mode text).kind = .punctuator mark) :
    mark.text.toList <+: text := by
  have hidentifier : ∀ cs, (identifier cs).kind ≠ .punctuator mark := by
    intro cs hkind
    rcases kind_identifier cs with h | h <;> cases h.symm.trans hkind
  have hnumeral : ∀ cs, (Numeral.lex cs).kind ≠ .punctuator mark := by
    intro cs hkind
    rcases Numeral.makes_lex cs with h | h | h <;> cases h.symm.trans hkind
  cases text with
  | nil => cases h
  | cons c cs =>
      rw [read] at h
      split at h
      · exact absurd h (hidentifier _)
      split at h
      · rw [word] at h
        split at h
        · cases h
        · exact absurd h (hidentifier _)
      split at h
      · exact absurd h (hnumeral _)
      split at h
      · exact absurd h (hnumeral _)
      split at h
      · rw [ofScan] at h
        dsimp only at h
        split at h <;> cases h
      split at h
      · rw [templateChunk, after] at h
        dsimp only at h
        split at h <;> cases h
      split at h
      · rw [privateName, after] at h
        dsimp only at h
        split at h <;> cases h
      split at h
      · rw [regex] at h
        split at h <;> cases h
      · exact prefix_of_punctuation h

end Lexeme

/-- Where an arrow is found, there is one in the text. -/
theorem infix_of_lexToken {mode : LexMode} {cursor : Cursor} {mark : Punctuator}
    (h : (lexToken mode cursor).token.kind = .punctuator mark) :
    mark.text.toList <:+: cursor.rest := by
  revert h
  refine lexToken_elim (motive := fun lexed =>
    lexed.token.kind = .punctuator mark → mark.text.toList <:+: cursor.rest)
    (fun _ hkind => ?_) fun _ hkind => ?_
  · have hread := (Lexeme.prefix_of_read hkind).isInfix
    refine hread.trans ⟨(Trivia.read cursor.offset cursor.rest).taken, [], ?_⟩
    rw [List.append_nil, Trivia.read_append]
  · have hchunk : (Lexeme.templateChunk cursor.rest).kind =
        .punctuator mark := hkind
    rw [Lexeme.templateChunk] at hchunk
    dsimp only at hchunk
    split at hchunk <;> cases hchunk

namespace Word

theorem not_arrow_infix_text (word : Word) :
    ¬ ['=', '>'] <:+: word.text := by
  have hname : ∀ {text : List Char},
      (∀ c ∈ text, CharClass.isAsciiNamePart c = true) →
      ¬ ['=', '>'] <:+: text := by
    intro text htext h
    have hequals := htext '=' (h.subset List.mem_cons_self)
    revert hequals
    decide
  cases word with
  | name plain => exact hname plain.areNameParts
  | keyword known =>
      obtain ⟨c, cs, htext, _, hparts⟩ := known.exists_text_eq
      rw [text, htext]
      exact hname hparts
  | mark punctuator hmark =>
      have hall : ∀ mark ∈ Punctuator.all, mark ≠ .equalsChevronRight →
          ¬ ['=', '>'] <:+: mark.text.toList := by
        decide +kernel
      exact hall punctuator punctuator.mem_all hmark

/-- There is no arrow in words that spaces part. -/
theorem not_arrow_infix_spaced (words : List Word) :
    ¬ ['=', '>'] <:+: spaced words := by
  induction words with
  | nil => simp [spaced]
  | cons word words ih =>
      cases words with
      | nil => exact word.not_arrow_infix_text
      | cons next words =>
          intro h
          rcases Text.infix_of_append_cons (by simp) h with h | h
          · exact word.not_arrow_infix_text h
          · exact ih h

end Word

end Bundler
