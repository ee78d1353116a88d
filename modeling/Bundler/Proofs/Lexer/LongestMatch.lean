import Bundler.Identifier
import Bundler.Proofs.Lexer.Words

/-!
# Names and the longest match

An identifier is read to its end, with one exception.  Whether a word is a key
word is decided by the ASCII characters at its front alone, so that a name in
which a character outside ASCII or an escape follows the letters of a key word
is cut after them.
-/

namespace Bundler

namespace CharClass

theorem toNat_of_isAsciiNameStart {c : Char}
    (h : isAsciiNameStart c = true) :
    c = '$' ∨ 65 ≤ c.toNat ∧ c.toNat ≤ 122 := by
  simp only [isAsciiNameStart, isAsciiLetter, Bool.or_eq_true,
    Bool.and_eq_true, decide_eq_true_eq, beq_iff_eq] at h
  rcases h with ((⟨hlow, hhigh⟩ | ⟨hlow, hhigh⟩) | rfl) | rfl
  · exact .inr ⟨Nat.le_trans (by decide) (Char.le_def.mp hlow),
      Char.le_def.mp hhigh⟩
  · exact .inr ⟨Char.le_def.mp hlow,
      Nat.le_trans (Char.le_def.mp hhigh) (by decide)⟩
  · exact .inl rfl
  · exact .inr (by decide)

theorem isAscii_of_isAsciiNameStart {c : Char}
    (h : isAsciiNameStart c = true) : isAscii c = true := by
  rcases toNat_of_isAsciiNameStart h with rfl | ⟨_, hhigh⟩
  · decide
  · exact decide_eq_true (Nat.lt_of_le_of_lt hhigh (by decide))

theorem isAscii_of_isAsciiNamePart {c : Char}
    (h : isAsciiNamePart c = true) : isAscii c = true := by
  rw [isAsciiNamePart, Bool.or_eq_true] at h
  cases h with
  | inl hstart => exact isAscii_of_isAsciiNameStart hstart
  | inr hdigit =>
      rw [isDigit, Bool.and_eq_true, decide_eq_true_eq,
        decide_eq_true_eq] at hdigit
      exact decide_eq_true
        (Nat.lt_of_le_of_lt (Char.le_def.mp hdigit.2) (by decide))

/-- No white space, line terminator or comment starts with a digit or letter. -/
theorem not_trivia_of_toNat {c : Char} (hlow : 48 ≤ c.toNat)
    (hhigh : c.toNat ≤ 122) :
    isLineTerminator c = false ∧ isWhitespace c = false ∧ c ≠ '/' := by
  refine ⟨?_, ?_, ?_⟩
  · simp only [isLineTerminator, Bool.or_eq_false_iff, beq_eq_false_iff_ne]
    refine ⟨⟨⟨?_, ?_⟩, ?_⟩, ?_⟩ <;> rintro rfl <;>
      revert hlow hhigh <;> decide
  · simp only [isWhitespace, Bool.or_eq_false_iff, Bool.and_eq_false_imp,
      beq_eq_false_iff_ne, decide_eq_true_eq, decide_eq_false_iff_not]
    omega
  · rintro rfl
    exact absurd hlow (by decide)

/-- No white space, line terminator or comment starts as a name does. -/
theorem not_trivia_of_isNameStart {c : Char} (h : isNameStart c = true) :
    isLineTerminator c = false ∧ isWhitespace c = false ∧ c ≠ '/' := by
  rw [isNameStart, Bool.or_eq_true] at h
  cases h with
  | inr hforeign =>
      simp only [isForeignNameChar, Bool.and_eq_true,
        Bool.not_eq_true'] at hforeign
      obtain ⟨⟨hascii, hspace⟩, hline⟩ := hforeign
      refine ⟨hline, hspace, ?_⟩
      rintro rfl
      exact absurd hascii (by decide)
  | inl hascii =>
      rcases toNat_of_isAsciiNameStart hascii with rfl | ⟨hlow, hhigh⟩
      · decide
      · exact not_trivia_of_toNat (Nat.le_trans (by decide) hlow) hhigh

theorem isAsciiNameStart_of_isNameStart {c : Char} (h : isNameStart c = true)
    (hascii : isAscii c = true) : isAsciiNameStart c = true := by
  rw [isNameStart, Bool.or_eq_true] at h
  refine h.resolve_right fun hforeign => ?_
  rw [isForeignNameChar, hascii] at hforeign
  cases hforeign

theorem ne_backslash_of_isNamePart {c : Char} (h : isNamePart c = true) :
    c ≠ '\\' := by
  rintro rfl
  exact absurd h (by decide)

theorem isNamePart_of_isNameStart {c : Char} (h : isNameStart c = true) :
    isNamePart c = true := by
  rw [isNameStart, Bool.or_eq_true] at h
  rw [isNamePart, isAsciiNamePart, Bool.or_eq_true, Bool.or_eq_true]
  exact h.imp_left .inl

end CharClass

namespace Keyword

theorem text_of_ofText? {word : String} {keyword : Keyword}
    (h : ofText? word = some keyword) : keyword.text = word := by
  have hfound := List.find?_some h
  exact beq_iff_eq.mp hfound

theorem ofText?_text (keyword : Keyword) :
    ofText? keyword.text = some keyword := by
  cases keyword <;> decide

/-- The first letter of a key word. -/
theorem exists_text_eq (keyword : Keyword) :
    ∃ c cs, keyword.text.toList = c :: cs ∧
      CharClass.isAsciiNameStart c = true ∧
      ∀ d ∈ c :: cs, CharClass.isAsciiNamePart d = true := by
  have hletters : ∀ keyword : Keyword,
      (keyword.text.toList.head?.any CharClass.isAsciiNameStart &&
        keyword.text.toList.all CharClass.isAsciiNamePart) = true := by
    intro keyword
    cases keyword <;> decide
  have hkeyword := hletters keyword
  rw [Bool.and_eq_true, List.all_eq_true] at hkeyword
  cases htext : keyword.text.toList with
  | nil =>
      rw [htext] at hkeyword
      cases hkeyword.1
  | cons c cs =>
      rw [htext] at hkeyword
      exact ⟨c, cs, rfl, hkeyword.1, hkeyword.2⟩

end Keyword

namespace Name

/-- A Unicode escape as identifiers may hold it, after its backslash. -/
inductive IsEscape : List Char → Prop
  | fixed {a b c d : Char} (ha : CharClass.isHexDigit a = true)
      (hb : CharClass.isHexDigit b = true) (hc : CharClass.isHexDigit c = true)
      (hd : CharClass.isHexDigit d = true) : IsEscape ['u', a, b, c, d]
  | braced {digits : List Char} (hsome : digits ≠ [])
      (hdigits : ∀ c ∈ digits, CharClass.isHexDigit c = true) :
      IsEscape ('u' :: '{' :: digits ++ ['}'])

/-- What an identifier may go on with: characters of names, and escapes. -/
inductive Continues : List Char → Prop
  | nil : Continues []
  | char {c : Char} {more : List Char} (hpart : CharClass.isNamePart c = true)
      (hmore : Continues more) : Continues (c :: more)
  | escape {escape more : List Char} (hescape : IsEscape escape)
      (hmore : Continues more) : Continues ('\\' :: (escape ++ more))

/-- Identifiers as they may be written. -/
inductive IsIdentifier : List Char → Prop
  | char {c : Char} {more : List Char}
      (hstart : CharClass.isNameStart c = true) (hmore : Continues more) :
      IsIdentifier (c :: more)
  | escape {escape more : List Char} (hescape : IsEscape escape)
      (hmore : Continues more) : IsIdentifier ('\\' :: (escape ++ more))

theorem continues_of_forall {more : List Char}
    (h : ∀ c ∈ more, CharClass.isNamePart c = true) : Continues more := by
  induction more with
  | nil => exact .nil
  | cons c cs ih =>
      exact .char (h c (List.mem_cons_self ..))
        (ih fun d hd => h d (List.mem_cons_of_mem c hd))

/-- A name that needs no escapes is an identifier. -/
theorem isIdentifier_of_isName {name : String}
    (h : Identifier.isName name = true) : IsIdentifier name.toList := by
  rw [Identifier.isName] at h
  cases hname : name.toList with
  | nil =>
      rw [hname] at h
      cases h
  | cons c cs =>
      rw [hname] at h
      simp only [Bool.and_eq_true, List.all_eq_true] at h
      exact .char h.1 (continues_of_forall h.2)

/-- A text that does not go on as an identifier would. -/
def Ends (rest : List Char) : Prop :=
  ∀ c ∈ rest.head?, CharClass.isNamePart c = false ∧ c ≠ '\\'

/-- The kind of token that a whole identifier is. -/
def kind (name : List Char) : TokenKind :=
  match Keyword.ofText? (String.ofList name) with
  | some keyword => .keyword keyword
  | none => .identifier

/-- The name consists of a key word and something more, which does not start
with an ASCII character of names. -/
def IsSplit (name : List Char) (keyword : Keyword) (more : List Char) : Prop :=
  name = keyword.text.toList ++ more ∧ more ≠ [] ∧
    ∀ c ∈ more.head?, CharClass.isAsciiNamePart c = false

/-- A longer identifier goes on with the front of the text. -/
def GoesOn (text : List Char) : Prop :=
  ∃ more rest, text = more ++ rest ∧ more ≠ [] ∧ Continues more

/-- The text starts with a character of names outside ASCII or an escape. -/
def OpensBeyondAscii (text : List Char) : Prop :=
  (∃ c ∈ text.head?, CharClass.isForeignNameChar c = true) ∨
    ∃ escape rest, text = '\\' :: (escape ++ rest) ∧ IsEscape escape

theorem goesOn_iff {text : List Char}
    (hascii : ∀ c ∈ text.head?, CharClass.isAsciiNamePart c = false) :
    GoesOn text ↔ OpensBeyondAscii text := by
  constructor
  · rintro ⟨more, rest, rfl, hsome, hcontinues⟩
    cases hcontinues with
    | nil => exact absurd rfl hsome
    | @char c more hpart _ =>
        rw [CharClass.isNamePart, hascii c rfl, Bool.false_or] at hpart
        exact .inl ⟨c, rfl, hpart⟩
    | @escape escape more hescape _ =>
        exact .inr ⟨escape, more ++ rest, by simp, hescape⟩
  · rintro (⟨c, hc, hforeign⟩ | ⟨escape, rest, rfl, hescape⟩)
    · obtain ⟨rest, hmore⟩ := List.head?_eq_some_iff.mp hc
      refine ⟨[c], rest, hmore, List.cons_ne_nil c [], .char ?_ .nil⟩
      rw [CharClass.isNamePart, hforeign, Bool.or_true]
    · exact ⟨'\\' :: (escape ++ []), rest, by simp, List.cons_ne_nil _ _,
        .escape hescape .nil⟩

theorem not_isAsciiNamePart_of_ends {rest : List Char} (h : Ends rest) :
    ∀ c ∈ rest.head?, CharClass.isAsciiNamePart c = false := by
  intro c hc
  have hpart := (h c hc).1
  rw [CharClass.isNamePart, Bool.or_eq_false_iff] at hpart
  exact hpart.1

end Name

namespace Scan

open Name

variable {escape more rest text : List Char}

theorem identifier_digits {digits : List Char}
    (hdigits : ∀ c ∈ digits, CharClass.isHexDigit c = true) (digit : Bool)
    (hsome : digit = true ∨ digits ≠ [])
    (h : identifier .outside text = ⟨true, more, rest⟩) :
    identifier (.braced digit) (digits ++ '}' :: text) =
      ⟨true, digits ++ '}' :: more, rest⟩ := by
  induction digits generalizing digit with
  | nil =>
      have hdigit := hsome.resolve_right fun hempty => hempty rfl
      have hbrace : CharClass.isHexDigit '}' = false := by decide
      simp [identifier, hbrace, hdigit, h, cons]
  | cons c cs ih =>
      have hmore := ih (fun d hd => hdigits d (List.mem_cons_of_mem c hd)) true
        (.inl rfl)
      simp [identifier, hdigits c (List.mem_cons_self ..), hmore, cons]

/-- An escape is read to its end. -/
theorem identifier_escape (hescape : IsEscape escape)
    (h : identifier .outside text = ⟨true, more, rest⟩) :
    identifier .opened (escape ++ text) = ⟨true, escape ++ more, rest⟩ := by
  cases hescape with
  | fixed ha hb hc hd =>
      rename_i a b c d
      have hopen : a ≠ '{' := by
        rintro rfl
        exact absurd ha (by decide)
      simp [identifier, ha, hb, hc, hd, hopen, h, cons]
  | braced hsome hdigits =>
      have hbraced := identifier_digits hdigits false (.inr hsome) h
      simp [identifier, hbraced, cons]

/-- What continues an identifier is read to its end. -/
theorem identifier_continues (hmore : Continues more) (hends : Ends rest) :
    identifier .outside (more ++ rest) = ⟨true, more, rest⟩ := by
  induction hmore with
  | nil =>
      cases rest with
      | nil => rfl
      | cons c cs =>
          obtain ⟨hpart, hescape⟩ := hends c rfl
          simp [identifier, hpart, hescape, done]
  | char hpart _ ih => simp [identifier, hpart, ih, cons]
  | escape hescape _ ih =>
      have hread := identifier_escape hescape ih
      have hbackslash : CharClass.isNamePart '\\' = false := by decide
      simp [identifier, hbackslash, hread, cons]

end Scan

namespace Lexeme

open Name

/-- The characters of a class at the front of a text, up to one that is not of it. -/
theorem takeWhile_run {accepts : Char → Bool} {run rest : List Char}
    (hrun : ∀ c ∈ run, accepts c = true)
    (hrest : ∀ c ∈ rest.head?, accepts c = false) :
    (run ++ rest).takeWhile accepts = run ∧
      (run ++ rest).dropWhile accepts = rest := by
  rw [List.takeWhile_append_of_pos hrun, List.dropWhile_append_of_pos hrun]
  cases rest with
  | nil => exact ⟨List.append_nil run, rfl⟩
  | cons c cs =>
      have hstop : ¬ accepts c = true := by
        rw [hrest c rfl]
        exact Bool.false_ne_true
      rw [List.takeWhile_cons_of_neg hstop, List.dropWhile_cons_of_neg hstop]
      exact ⟨List.append_nil run, rfl⟩

theorem head?_dropWhile (accepts : Char → Bool) (text : List Char) :
    ∀ c ∈ (text.dropWhile accepts).head?, accepts c = false := by
  intro c hc
  have hstop := List.head?_dropWhile_not accepts text
  rw [hc] at hstop
  exact hstop

variable {name rest : List Char}

theorem identifier_append (hname : IsIdentifier name) (hends : Ends rest) :
    identifier (name ++ rest) = ⟨.identifier, name, rest⟩ := by
  cases hname with
  | char hstart hmore =>
      have hpart := CharClass.isNamePart_of_isNameStart hstart
      have hscan := Scan.identifier_continues hmore hends
      simp [identifier, CharClass.ne_backslash_of_isNamePart hpart, hstart,
        hscan, ofScan, Scan.cons]
  | escape hescape hmore =>
      have hscan := Scan.identifier_escape hescape
        (Scan.identifier_continues hmore hends)
      simp [identifier, hscan, ofScan, Scan.cons]

/-- A name is read as a word, also where it starts outside ASCII. -/
theorem read_of_isNameStart (mode : LexMode) {c : Char} (cs : List Char)
    (hstart : CharClass.isNameStart c = true) :
    read mode (c :: cs) = word (c :: cs) := by
  have hpart := CharClass.isNamePart_of_isNameStart hstart
  have hbackslash := CharClass.ne_backslash_of_isNamePart hpart
  by_cases hascii : CharClass.isAscii c = true
  · have hasciiStart :=
      CharClass.isAsciiNameStart_of_isNameStart hstart hascii
    simp [read, hascii, hbackslash, hasciiStart]
  · have hnone : CharClass.isAsciiNamePart c = false := by
      rw [Bool.eq_false_iff]
      intro hname
      exact hascii (CharClass.isAscii_of_isAsciiNamePart hname)
    have hrun : (c :: cs).takeWhile CharClass.isAsciiNamePart = [] := by
      rw [List.takeWhile_cons, hnone]
      rfl
    have hempty : Keyword.ofText? (String.ofList []) = none := by decide
    simp [read, hascii, word, hrun, hempty]

/-- A key word is found by the ASCII characters at the front, whatever other
character comes then. -/
theorem read_keyword (mode : LexMode) (keyword : Keyword)
    (hends : ∀ c ∈ rest.head?, CharClass.isAsciiNamePart c = false) :
    read mode (keyword.text.toList ++ rest) =
      ⟨.keyword keyword, keyword.text.toList, rest⟩ := by
  obtain ⟨c, cs, htext, hstart, hparts⟩ := keyword.exists_text_eq
  obtain ⟨hrun, hrest⟩ := takeWhile_run hparts hends
  have hkeyword : Keyword.ofText? (String.ofList (c :: cs)) = some keyword := by
    rw [← htext, String.ofList_toList, Keyword.ofText?_text]
  have hstarts : CharClass.isNameStart c = true := by
    rw [CharClass.isNameStart, hstart, Bool.true_or]
  rw [htext, List.cons_append, read_of_isNameStart mode _ hstarts, word,
    ← List.cons_append, hrun, hrest]
  simp only [hkeyword]

/-- A name that does not split is a key word itself if the ASCII characters at
its front are one. -/
theorem ofText?_run (hends : Ends rest)
    (hwhole : ∀ keyword more, ¬ IsSplit name keyword more) {keyword : Keyword}
    (hkeyword : Keyword.ofText? (String.ofList
      ((name ++ rest).takeWhile CharClass.isAsciiNamePart)) = some keyword) :
    Keyword.ofText? (String.ofList name) = some keyword := by
  have hsplit : name = name.takeWhile CharClass.isAsciiNamePart ++
      name.dropWhile CharClass.isAsciiNamePart :=
    List.takeWhile_append_dropWhile.symm
  have hparts : ∀ c ∈ name.takeWhile CharClass.isAsciiNamePart,
      CharClass.isAsciiNamePart c = true :=
    List.all_eq_true.mp List.all_takeWhile
  have hmore := head?_dropWhile CharClass.isAsciiNamePart name
  generalize name.takeWhile CharClass.isAsciiNamePart = run at hsplit hparts
  generalize name.dropWhile CharClass.isAsciiNamePart = more at hsplit hmore
  have hboth : ∀ c ∈ (more ++ rest).head?,
      CharClass.isAsciiNamePart c = false := by
    cases more with
    | nil => exact not_isAsciiNamePart_of_ends hends
    | cons c cs => exact hmore
  rw [hsplit, List.append_assoc, (takeWhile_run hparts hboth).1] at hkeyword
  have hrun : run = keyword.text.toList := by
    rw [Keyword.text_of_ofText? hkeyword, String.toList_ofList]
  have hempty : more = [] := by
    refine Decidable.byContradiction fun hsome => ?_
    exact hwhole keyword more ⟨by rw [← hrun, ← hsplit], hsome, hmore⟩
  rw [hsplit, hempty, List.append_nil, hkeyword]

/-- A name that is not a key word with something behind it is read to its
end. -/
theorem read_identifier (mode : LexMode) (hname : IsIdentifier name)
    (hends : Ends rest)
    (hwhole : ∀ keyword more, ¬ IsSplit name keyword more) :
    read mode (name ++ rest) = ⟨Name.kind name, name, rest⟩ := by
  cases hkeyword : Keyword.ofText? (String.ofList name) with
  | some keyword =>
      have htext : keyword.text.toList = name := by
        rw [Keyword.text_of_ofText? hkeyword, String.toList_ofList]
      rw [Name.kind, hkeyword, ← htext]
      exact read_keyword mode keyword (not_isAsciiNamePart_of_ends hends)
  | none =>
      have hidentifier :
          read mode (name ++ rest) = identifier (name ++ rest) := by
        cases hname with
        | escape hescape hmore => simp [read]
        | char hstart hmore =>
            rw [List.cons_append, read_of_isNameStart mode _ hstart,
              ← List.cons_append, word]
            split
            · rename_i keyword hrun
              rw [ofText?_run hends hwhole hrun] at hkeyword
              cases hkeyword
            · rfl
      rw [hidentifier, Name.kind, hkeyword]
      exact identifier_append hname hends

/-- Behind a key word comes no ASCII character of names. -/
theorem rest_of_keyword {mode : LexMode} {text : List Char} {keyword : Keyword}
    (hkind : (read mode text).kind = .keyword keyword) :
    (read mode text).taken = keyword.text.toList ∧
      ∀ c ∈ (read mode text).rest.head?,
        CharClass.isAsciiNamePart c = false := by
  have hidentifier : ∀ text, (identifier text).kind ≠ .keyword keyword := by
    intro text
    cases text with
    | nil => exact TokenKind.noConfusion
    | cons c cs =>
        rw [identifier]
        repeat' split
        · rw [ofScan]
          dsimp only
          split <;> exact TokenKind.noConfusion
        · rw [ofScan]
          dsimp only
          split <;> exact TokenKind.noConfusion
        · exact TokenKind.noConfusion
  cases text with
  | nil => cases hkind
  | cons c cs =>
      rcases read_cases mode c cs with hread | ⟨-, hread⟩ | hother
      · rw [hread] at hkind
        exact absurd hkind (hidentifier _)
      · rw [hread] at hkind ⊢
        rw [word] at hkind ⊢
        split at hkind
        · rename_i found hfound
          cases hkind
          refine ⟨?_, head?_dropWhile _ (c :: cs)⟩
          rw [Keyword.text_of_ofText? hfound, String.toList_ofList]
        · exact absurd hkind (hidentifier _)
      · have hword := hother.isWord
        rw [hkind] at hword
        cases hword

/-- The scan of an identifier takes all ASCII characters of names at the front of
a text. -/
theorem run_prefix_identifier (text : List Char) :
    text.takeWhile CharClass.isAsciiNamePart <+:
      (Scan.identifier .outside text).taken := by
  induction text with
  | nil => exact List.prefix_rfl
  | cons c cs ih =>
      rw [List.takeWhile_cons]
      split
      · rename_i hpart
        have hname : CharClass.isNamePart c = true := by
          rw [CharClass.isNamePart, hpart, Bool.true_or]
        rw [Scan.identifier, if_pos hname]
        exact List.cons_prefix_cons.mpr ⟨rfl, ih⟩
      · exact List.nil_prefix

/-- A word that is no key word is not spelled like one. -/
theorem ofText?_word {c : Char} {cs : List Char}
    (hstart : CharClass.isAsciiNameStart c = true)
    (hkind : (word (c :: cs)).kind = .identifier) :
    Keyword.ofText? (String.ofList (word (c :: cs)).taken) = none := by
  have hname : CharClass.isNameStart c = true := by
    rw [CharClass.isNameStart, hstart, Bool.true_or]
  have hpart : CharClass.isAsciiNamePart c = true := by
    rw [CharClass.isAsciiNamePart, hstart, Bool.true_or]
  have hbackslash := CharClass.ne_backslash_of_isNamePart
    (CharClass.isNamePart_of_isNameStart hname)
  rw [word] at hkind ⊢
  split at hkind
  · cases hkind
  · rename_i hrun
    have htaken : (identifier (c :: cs)).taken =
        c :: (Scan.identifier .outside cs).taken := by
      rw [identifier, if_neg hbackslash, if_pos hname]
      rfl
    have hrunPrefix : (c :: cs).takeWhile CharClass.isAsciiNamePart <+:
        (identifier (c :: cs)).taken := by
      rw [htaken, List.takeWhile_cons_of_pos hpart]
      exact List.cons_prefix_cons.mpr ⟨rfl, run_prefix_identifier cs⟩
    have htext : (identifier (c :: cs)).taken <+: c :: cs := by
      have hscan : (Scan.identifier .outside cs).taken ++
          (Scan.identifier .outside cs).rest = cs :=
        Scan.text_identifier .outside cs
      rw [htaken]
      exact List.cons_prefix_cons.mpr ⟨rfl, _, hscan⟩
    refine Option.eq_none_iff_forall_ne_some.mpr fun keyword hkeyword => ?_
    -- A key word has ASCII characters only, so it would be the whole run.
    obtain ⟨_, _, hletters, _, hparts⟩ := keyword.exists_text_eq
    have hspelled := Keyword.text_of_ofText? hkeyword
    rw [← String.toList_inj, String.toList_ofList] at hspelled
    rw [← hletters, hspelled] at hparts
    obtain ⟨rest, hrest⟩ := htext
    have hwithin : (identifier (c :: cs)).taken <+:
        (c :: cs).takeWhile CharClass.isAsciiNamePart := by
      have hsplit :=
        congrArg (List.takeWhile CharClass.isAsciiNamePart) hrest
      rw [List.takeWhile_append_of_pos hparts] at hsplit
      exact ⟨_, hsplit⟩
    rw [hwithin.eq_of_length_le hrunPrefix.length_le, hrun] at hkeyword
    cases hkeyword

/-- An identifier is not spelled like a key word. -/
theorem ofText?_of_identifier {mode : LexMode} {text : List Char}
    (hkind : (read mode text).kind = .identifier) :
    Keyword.ofText? (String.ofList (read mode text).taken) = none := by
  cases text with
  | nil => cases hkind
  | cons c cs =>
      have hstart : CharClass.isAsciiNameStart c = true →
          Keyword.ofText? (String.ofList (read mode (c :: cs)).taken) =
            none := by
        intro hstart
        have hname : CharClass.isNameStart c = true := by
          rw [CharClass.isNameStart, hstart, Bool.true_or]
        rw [read_of_isNameStart mode cs hname] at hkind ⊢
        exact ofText?_word hstart hkind
      rcases read_cases mode c cs with hread | ⟨hascii, _⟩ | hother
      · refine Option.eq_none_iff_forall_ne_some.mpr fun keyword hkeyword => ?_
        obtain ⟨d, ds, hletters, hfirst, _⟩ := keyword.exists_text_eq
        have hspelled := Keyword.text_of_ofText? hkeyword
        rw [← String.toList_inj, String.toList_ofList, hletters] at hspelled
        have hhead : c = d := by
          rw [hread] at hkind hspelled
          rw [identifier] at hkind hspelled
          repeat' split at hkind
          all_goals simp_all [ofScan, Scan.cons]
        rw [hstart (hhead ▸ hfirst)] at hkeyword
        cases hkeyword
      · exact hstart hascii
      · have hword := hother.isWord
        rw [hkind] at hword
        cases hword

end Lexeme

open Name

theorem Trivia.read_of_opens (offset : Nat) {c : Char} (cs : List Char)
    (hopens : CharClass.isLineTerminator c = false ∧
      CharClass.isWhitespace c = false ∧ c ≠ '/') :
    read offset (c :: cs) = none (c :: cs) := by
  obtain ⟨hline, hspace, hslash⟩ := hopens
  rw [read, skip]
  · simp [hline, hspace]
  · exact fun _ hc => absurd hc hslash
  · exact fun _ hc => absurd hc hslash

/-- In front of an identifier there is nothing to skip. -/
theorem lexToken_of_isIdentifier {mode : LexMode}
    (hmode : mode ≠ .templateContinue) (offset : Nat) {name : List Char}
    (rest : List Char) (hname : IsIdentifier name) :
    lexToken mode ⟨offset, name ++ rest⟩ =
      .ofLexeme ⟨offset, name ++ rest⟩ (Lexeme.read mode (name ++ rest))
        false [] := by
  have htrivia : Trivia.read offset (name ++ rest) = .none (name ++ rest) := by
    cases hname with
    | char hstart _ =>
        exact Trivia.read_of_opens offset _
          (CharClass.not_trivia_of_isNameStart hstart)
    | escape _ _ => exact Trivia.read_of_opens offset _ (by decide)
  rw [lexToken_eq hmode, htrivia]
  rfl

/-- A key word token is its key word, and no ASCII character of names comes
right behind it. -/
theorem lexToken_keyword {mode : LexMode} {cursor : Cursor}
    {keyword : Keyword}
    (hkind : (lexToken mode cursor).token.kind = .keyword keyword) :
    (lexToken mode cursor).token.text = keyword.text ∧
      ∀ c ∈ (lexToken mode cursor).after.rest.head?,
        CharClass.isAsciiNamePart c = false := by
  revert hkind
  refine lexToken_elim (motive := fun lexed =>
    lexed.token.kind = .keyword keyword → lexed.token.text = keyword.text ∧
      ∀ c ∈ lexed.after.rest.head?, CharClass.isAsciiNamePart c = false)
    (fun _ hkind => ?_) fun _ hkind => ?_
  · obtain ⟨htaken, hrest⟩ := Lexeme.rest_of_keyword hkind
    exact ⟨by rw [Lexed.ofLexeme, htaken, String.ofList_toList], hrest⟩
  · have hchunk : (Lexeme.templateChunk cursor.rest).kind =
        .keyword keyword := hkind
    have hword := (Lexeme.isOther_templateChunk cursor.rest).isWord
    rw [hchunk] at hword
    cases hword

/-- An identifier token is not spelled like a key word. -/
theorem ofText?_of_isIdentifier {mode : LexMode} {cursor : Cursor}
    (hkind : (lexToken mode cursor).token.kind = .identifier) :
    Keyword.ofText? (lexToken mode cursor).token.text = none := by
  have hword : (lexToken mode cursor).token.kind.isWord = true := by
    rw [hkind]
    rfl
  obtain ⟨text, hread, htext⟩ := exists_read_of_isWord hword
  rw [← String.ofList_toList (s := (lexToken mode cursor).token.text), htext]
  exact Lexeme.ofText?_of_identifier (hread ▸ hkind)

/-- An identifier in front of what ends it is read as one token that spans just
the identifier and is the key word it spells, if it spells one, unless it is a
key word with something behind it that starts outside ASCII or with an escape.
Then the token is that key word.  No other key word is the front of a longer
identifier. -/
theorem lexToken_identifier_iff {mode : LexMode}
    (hmode : mode ≠ .templateContinue) (offset : Nat) {name rest : List Char}
    (hname : IsIdentifier name) (hends : Ends rest) :
    (lexToken mode ⟨offset, name ++ rest⟩ =
        .ofLexeme ⟨offset, name ++ rest⟩ ⟨Name.kind name, name, rest⟩ false [] ↔
      ∀ keyword more, ¬ IsSplit name keyword more) ∧
    (∀ keyword more, IsSplit name keyword more →
      lexToken mode ⟨offset, name ++ rest⟩ =
        .ofLexeme ⟨offset, name ++ rest⟩
          ⟨.keyword keyword, keyword.text.toList, more ++ rest⟩ false []) ∧
    ∀ mode cursor keyword,
      (lexToken mode cursor).token.kind = .keyword keyword →
      (lexToken mode cursor).token.text = keyword.text ∧
        (GoesOn (lexToken mode cursor).after.rest ↔
          OpensBeyondAscii (lexToken mode cursor).after.rest) := by
  have hread := lexToken_of_isIdentifier hmode offset rest hname
  have hsplits : ∀ keyword more, IsSplit name keyword more →
      lexToken mode ⟨offset, name ++ rest⟩ =
        .ofLexeme ⟨offset, name ++ rest⟩
          ⟨.keyword keyword, keyword.text.toList, more ++ rest⟩ false [] := by
    rintro keyword more ⟨rfl, hsome, hmore⟩
    rw [hread, List.append_assoc, Lexeme.read_keyword]
    obtain ⟨c, cs, rfl⟩ := List.exists_cons_of_ne_nil hsome
    exact hmore
  refine ⟨⟨?_, ?_⟩, hsplits, ?_⟩
  · intro hwhole keyword more hsplit
    have hrest := congrArg (·.after.rest)
      (hwhole.symm.trans (hsplits keyword more hsplit))
    exact hsplit.2.1 (List.self_eq_append_left.mp hrest)
  · intro hwhole
    rw [hread, Lexeme.read_identifier mode hname hends hwhole]
  · intro mode cursor keyword hkind
    obtain ⟨htext, hascii⟩ := lexToken_keyword hkind
    exact ⟨htext, goesOn_iff hascii⟩

/-- A name with a character outside ASCII, in front of a space. -/
theorem lexToken_identifier_iff_foreign :
    IsIdentifier "naïf".toList ∧ Ends " = 1".toList ∧
      lexToken .standard ⟨0, "naïf".toList ++ " = 1".toList⟩ =
        .ofLexeme ⟨0, "naïf".toList ++ " = 1".toList⟩
          ⟨.identifier, "naïf".toList, " = 1".toList⟩ false [] := by
  have hname : IsIdentifier "naïf".toList :=
    isIdentifier_of_isName (by decide)
  have hends : Ends " = 1".toList := by
    rintro c ⟨⟩
    decide
  have hwhole : ∀ keyword more, ¬ IsSplit "naïf".toList keyword more := by
    rintro keyword more ⟨hsplit, -⟩
    have hfront : keyword.text.toList.isPrefixOf "naïf".toList = false := by
      cases keyword <;> decide
    rw [List.isPrefixOf_iff_prefix.mpr ⟨more, hsplit.symm⟩] at hfront
    cases hfront
  exact ⟨hname, hends,
    (lexToken_identifier_iff LexMode.noConfusion 0 hname hends).1.mpr hwhole⟩

/-- A name that is cut after the letters of a key word. -/
theorem lexToken_cuts_name :
    Identifier.isName "iné" = true ∧ Ends [] ∧
      (lexToken .standard ⟨0, "iné".toList⟩).token =
        ⟨.keyword .inWord, ⟨0, 2⟩, "in", false⟩ ∧
      lexToken .standard ⟨0, "iné".toList⟩ ≠
        .ofLexeme ⟨0, "iné".toList⟩
          ⟨Name.kind "iné".toList, "iné".toList, []⟩ false [] := by
  have htoken : (lexToken .standard ⟨0, "iné".toList⟩).token =
      ⟨.keyword .inWord, ⟨0, 2⟩, "in", false⟩ := by
    decide
  have hends : Ends [] := by
    rintro c ⟨⟩
  refine ⟨by decide, hends, htoken, ?_⟩
  intro hwhole
  rw [hwhole] at htoken
  exact absurd (congrArg (·.kind) htoken) (by decide)

end Bundler
