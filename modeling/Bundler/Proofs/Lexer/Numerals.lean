import Bundler.Proofs.Lexer.Gaps
import Bundler.Proofs.Lexer.LongestMatch

/-!
# What follows a numeral

A decimal numeral ends with a look at what follows: where an identifier starts
there, it is invalid.  No such look is taken behind the letter of a BigInt and
behind the digits of a radix, so that any text may follow there which does not
continue the numeral.
-/

namespace Bundler

namespace CharClass

variable {c : Char}

theorem toNat_of_isDigit (hdigit : isDigit c = true) :
    48 ≤ c.toNat ∧ c.toNat ≤ 57 := by
  rw [isDigit, Bool.and_eq_true, decide_eq_true_eq, decide_eq_true_eq] at hdigit
  exact ⟨Char.le_def.mp hdigit.1, Char.le_def.mp hdigit.2⟩

/-- A digit opens nothing but a numeral. -/
theorem opens_of_isDigit (hdigit : isDigit c = true) :
    isAscii c = true ∧ isAsciiNameStart c = false ∧ c ≠ '\\' := by
  obtain ⟨hlow, hhigh⟩ := toNat_of_isDigit hdigit
  refine ⟨decide_eq_true (Nat.lt_of_le_of_lt hhigh (by decide)), ?_, ?_⟩
  · rw [Bool.eq_false_iff]
    intro hstart
    rcases toNat_of_isAsciiNameStart hstart with rfl | ⟨hletter, -⟩
    · exact absurd hlow (by decide)
    · omega
  · rintro rfl
    exact absurd hhigh (by decide)

end CharClass

namespace Numeral

/-- The letters that name a radix behind a zero, with its digits. -/
def radixMarks : List (Char × (Char → Bool)) :=
  [('b', CharClass.isBinaryDigit), ('B', CharClass.isBinaryDigit),
    ('x', CharClass.isHexDigit), ('X', CharClass.isHexDigit),
    ('o', CharClass.isOctalDigit), ('O', CharClass.isOctalDigit)]

/-- A numeral starts with a digit, or with a point and a digit. -/
def Opens (text : List Char) : Prop :=
  (∃ first more, text = first :: more ∧ CharClass.isDigit first = true) ∨
    ∃ first more, text = '.' :: first :: more ∧ CharClass.isDigit first = true

/-- What comes next starts an identifier or is a digit. -/
def isGlued (rest : List Char) : Bool :=
  rest.head?.any fun c => CharClass.isNameStart c || CharClass.isDigit c

/-- A numeral that is taken as it is whatever follows, with a text that does not
continue it. -/
inductive IsUnchecked : TokenKind → List Char → List Char → Prop
  /-- Digits of a radix. -/
  | radix {mark : Char} {isDigit : Char → Bool} {digits rest : List Char}
      (hmark : (mark, isDigit) ∈ radixMarks) (hsome : digits ≠ [])
      (hdigits : ∀ c ∈ digits, (c == '_' || isDigit c) = true)
      (hends : ∀ c ∈ rest.head?, (c == '_' || isDigit c) = false)
      (hletter : ∀ c ∈ rest.head?, c ≠ 'n') :
      IsUnchecked .number ('0' :: mark :: digits) rest
  | radixBigint {mark : Char} {isDigit : Char → Bool} {digits rest : List Char}
      (hmark : (mark, isDigit) ∈ radixMarks) (hsome : digits ≠ [])
      (hdigits : ∀ c ∈ digits, (c == '_' || isDigit c) = true) :
      IsUnchecked .bigint ('0' :: mark :: (digits ++ ['n'])) rest
  | bigint {first : Char} {digits rest : List Char}
      (hfirst : CharClass.isDigit first = true)
      (hdigits : ∀ c ∈ digits, isDigitOrSeparator c = true) :
      IsUnchecked .bigint (first :: (digits ++ ['n'])) rest

inductive IsFraction : List Char → Prop
  | nil : IsFraction []
  | point {digits : List Char}
      (hdigits : ∀ c ∈ digits, isDigitOrSeparator c = true) :
      IsFraction ('.' :: digits)

inductive IsExponent : List Char → Prop
  | nil : IsExponent []
  | letter {letter : Char} {sign digits : List Char}
      (hletter : letter = 'e' ∨ letter = 'E')
      (hsign : sign = [] ∨ sign = ['+'] ∨ sign = ['-'])
      (hsome : digits ≠ [])
      (hdigits : ∀ c ∈ digits, isDigitOrSeparator c = true) :
      IsExponent (letter :: (sign ++ digits))

/-- The characters that continue a decimal numeral. -/
def Extends (integer fraction exponent : List Char) (c : Char) : Prop :=
  isDigitOrSeparator c = true ∨
    exponent = [] ∧ (c = 'e' ∨ c = 'E' ∨
      fraction = [] ∧ (c = 'n' ∨ c = '.' ∧ isLegacyOctal integer = false ∨
        integer = ['0'] ∧ c ∈ radixMarks.map Prod.fst))

/-- The parts of a decimal numeral, of which legacy octal ones have no fraction,
with a text that does not continue it. -/
structure IsDecimal (integer fraction exponent rest : List Char) : Prop where
  opens : (∃ first more, integer = first :: more ∧
      CharClass.isDigit first = true) ∨
    integer = [] ∧ ∃ first more, fraction = '.' :: first :: more ∧
      CharClass.isDigit first = true
  isInteger : ∀ c ∈ integer, isDigitOrSeparator c = true
  isFraction : IsFraction fraction
  legacy : isLegacyOctal integer = true → fraction = []
  isExponent : IsExponent exponent
  ends : ∀ c ∈ rest.head?, ¬ Extends integer fraction exponent c

section Reading

variable {mark : Char} {isDigit : Char → Bool}
  {taken sign fraction exponent rest text : List Char} {allowed : Bool}

/-- What a decimal numeral makes in front of a text. -/
def ending (rest : List Char) : TokenKind :=
  if isGlued rest then .invalid else .number

theorem isDigit_eq_false {c : Char} (hnone : isDigitOrSeparator c = false) :
    CharClass.isDigit c = false := by
  rw [isDigitOrSeparator, Bool.or_eq_false_iff] at hnone
  exact hnone.1

theorem digits_append_rest (htaken : ∀ c ∈ taken, isDigitOrSeparator c = true)
    (hrest : ∀ c ∈ rest.head?, isDigitOrSeparator c = false) :
    digits (taken ++ rest) = (taken, rest) := by
  obtain ⟨hfront, hback⟩ := Lexeme.takeWhile_run htaken hrest
  rw [digits, hfront, hback]

theorem close_eq (hrest : ∀ c ∈ rest.head?, isDigitOrSeparator c = false) :
    close rest = ⟨ending rest, [], rest⟩ := by
  cases rest with
  | nil => rfl
  | cons c cs =>
      have hdigit := isDigit_eq_false (hrest c rfl)
      rw [close, ending, isGlued, List.head?_cons, Option.any_some, hdigit,
        Bool.or_false]
      split <;> rfl

theorem exponentDigits_append (hsome : taken ≠ [])
    (htaken : ∀ c ∈ taken, isDigitOrSeparator c = true)
    (hrest : ∀ c ∈ rest.head?, isDigitOrSeparator c = false) :
    exponentDigits (taken ++ rest) = ⟨ending rest, taken, rest⟩ := by
  rw [exponentDigits, digits_append_rest htaken hrest]
  dsimp only
  rw [if_neg (by simpa using hsome), close_eq hrest, Lexeme.after,
    List.append_nil]

theorem exponent_append (hsign : sign = [] ∨ sign = ['+'] ∨ sign = ['-'])
    (hsome : taken ≠ []) (htaken : ∀ c ∈ taken, isDigitOrSeparator c = true)
    (hrest : ∀ c ∈ rest.head?, isDigitOrSeparator c = false) :
    Numeral.exponent (sign ++ taken ++ rest) =
      ⟨ending rest, sign ++ taken, rest⟩ := by
  have hdigits := exponentDigits_append hsome htaken hrest
  rcases hsign with rfl | rfl | rfl
  · obtain ⟨c, cs, rfl⟩ := List.exists_cons_of_ne_nil hsome
    have hc := htaken c List.mem_cons_self
    have hplus : c ≠ '+' := by
      rintro rfl
      exact absurd hc (by decide)
    have hminus : c ≠ '-' := by
      rintro rfl
      exact absurd hc (by decide)
    rw [List.nil_append, List.cons_append, Numeral.exponent,
      if_neg (by simp [hplus, hminus])]
    exact hdigits
  · rw [List.append_assoc, List.singleton_append, Numeral.exponent,
      if_pos (by decide), hdigits]
    rfl
  · rw [List.append_assoc, List.singleton_append, Numeral.exponent,
      if_pos (by decide), hdigits]
    rfl

theorem afterFraction_append (hexponent : IsExponent exponent)
    (hrest : ∀ c ∈ rest.head?, isDigitOrSeparator c = false)
    (hletter : exponent = [] → ∀ c ∈ rest.head?, c ≠ 'e' ∧ c ≠ 'E') :
    afterFraction (exponent ++ rest) = ⟨ending rest, exponent, rest⟩ := by
  cases hexponent with
  | nil =>
      rw [List.nil_append, ← close_eq hrest]
      cases rest with
      | nil => rfl
      | cons c cs =>
          obtain ⟨hlower, hupper⟩ := hletter rfl c rfl
          rw [afterFraction, if_neg (by simp [hlower, hupper])]
  | letter hopens hsign hsome hdigits =>
      rw [List.cons_append, afterFraction, if_pos (by simpa using hopens),
        exponent_append hsign hsome hdigits hrest]
      rfl

/-- What neither a letter of a BigInt nor a point opens is no more of the integer
part. -/
theorem afterInteger_eq (hhead : ∀ c ∈ text.head?,
    c ≠ 'n' ∧ (c = '.' → allowed = false)) :
    afterInteger allowed text = afterFraction text := by
  cases text with
  | nil => rfl
  | cons c cs =>
      obtain ⟨hletter, hpoint⟩ := hhead c rfl
      rw [afterInteger, if_neg hletter, if_neg]
      rw [Bool.and_eq_true, decide_eq_true_eq]
      rintro ⟨hc, hallowed⟩
      rw [hpoint hc] at hallowed
      cases hallowed

/-- An exponent is opened by a letter. -/
theorem IsExponent.head?_append (hexponent : IsExponent exponent) :
    ∀ c ∈ (exponent ++ rest).head?, c = 'e' ∨ c = 'E' ∨
      exponent = [] ∧ c ∈ rest.head? := by
  intro c hc
  cases hexponent with
  | nil => exact .inr (.inr ⟨rfl, hc⟩)
  | letter hletter =>
      obtain rfl := Option.some.inj hc
      exact hletter.imp_right .inl

theorem afterInteger_append (hfraction : IsFraction fraction)
    (hexponent : IsExponent exponent)
    (hallowed : fraction ≠ [] → allowed = true)
    (hrest : ∀ c ∈ rest.head?, isDigitOrSeparator c = false)
    (hletter : exponent = [] → ∀ c ∈ rest.head?, c ≠ 'e' ∧ c ≠ 'E')
    (hends : fraction = [] → exponent = [] → ∀ c ∈ rest.head?,
      c ≠ 'n' ∧ (c = '.' → allowed = false)) :
    afterInteger allowed (fraction ++ (exponent ++ rest)) =
      ⟨ending rest, fraction ++ exponent, rest⟩ := by
  have hafter := afterFraction_append hexponent hrest hletter
  cases hfraction with
  | nil =>
      rw [List.nil_append, afterInteger_eq, hafter]
      · rfl
      · intro c hc
        rcases hexponent.head?_append c hc with rfl | rfl | ⟨hnone, hc⟩
        · exact ⟨by decide, fun hpoint => absurd hpoint (by decide)⟩
        · exact ⟨by decide, fun hpoint => absurd hpoint (by decide)⟩
        · exact hends rfl hnone c hc
  | @point taken htaken =>
      have hstops : ∀ c ∈ (exponent ++ rest).head?,
          isDigitOrSeparator c = false := by
        intro c hc
        rcases hexponent.head?_append c hc with rfl | rfl | ⟨-, hc⟩
        · decide
        · decide
        · exact hrest c hc
      rw [hallowed (List.cons_ne_nil _ _), List.cons_append, afterInteger,
        if_neg (by decide), if_pos (by decide),
        digits_append_rest htaken hstops]
      dsimp only
      rw [hafter]
      rfl

/-- A numeral without a mark of a radix is read as a decimal one. -/
theorem lex_eq_decimal {first : Char} {more : List Char}
    (hmark : first = '0' → ∀ c ∈ more.head?, c ∉ radixMarks.map Prod.fst) :
    lex (first :: more) = decimal (first :: more) := by
  unfold lex
  split
  · rename_i c cs htext
    obtain ⟨rfl, rfl⟩ := List.cons.inj htext
    have hnone := hmark rfl c rfl
    simp only [radixMarks, List.map_cons, List.map_nil, List.mem_cons,
      List.not_mem_nil, or_false, not_or] at hnone
    obtain ⟨hb, hB, hx, hX, ho, hO⟩ := hnone
    simp only [hb, hB, hx, hX, ho, hO, decide_false, Bool.or_self,
      Bool.false_eq_true, if_false]
  · rfl

theorem lex_marked (hmark : (mark, isDigit) ∈ radixMarks) (text : List Char) :
    lex ('0' :: mark :: text) =
      (Numeral.radix isDigit text).after ['0', mark] := by
  simp only [radixMarks, List.mem_cons, Prod.mk.injEq, List.not_mem_nil,
    or_false] at hmark
  rcases hmark with ⟨rfl, rfl⟩ | ⟨rfl, rfl⟩ | ⟨rfl, rfl⟩ | ⟨rfl, rfl⟩ |
    ⟨rfl, rfl⟩ | ⟨rfl, rfl⟩ <;> rfl

/-- No radix has the letter of a BigInt as a digit. -/
theorem letter_not_digit (hmark : (mark, isDigit) ∈ radixMarks) :
    ('n' == '_' || isDigit 'n') = false := by
  simp only [radixMarks, List.mem_cons, Prod.mk.injEq, List.not_mem_nil,
    or_false] at hmark
  rcases hmark with ⟨-, rfl⟩ | ⟨-, rfl⟩ | ⟨-, rfl⟩ | ⟨-, rfl⟩ | ⟨-, rfl⟩ |
    ⟨-, rfl⟩ <;> rfl

/-- No digit or separator is a mark, nor is what follows the digits of a decimal
numeral. -/
theorem not_mem_marks {c : Char}
    (hc : isDigitOrSeparator c = true ∨ c ∈ ['.', 'e', 'E', 'n']) :
    c ∉ radixMarks.map Prod.fst := by
  intro hmark
  obtain ⟨hnone, hother⟩ : isDigitOrSeparator c = false ∧
      c ∉ ['.', 'e', 'E', 'n'] := by
    simp only [radixMarks, List.map_cons, List.map_nil, List.mem_cons,
      List.not_mem_nil, or_false] at hmark
    rcases hmark with rfl | rfl | rfl | rfl | rfl | rfl <;> decide
  rcases hc with hc | hc
  · exact Bool.false_ne_true (hnone.symm.trans hc)
  · exact hother hc

/-- What is taken as it is, is taken whatever follows. -/
theorem IsUnchecked.lex_append {kind : TokenKind} {numeral : List Char}
    (hunchecked : IsUnchecked kind numeral rest) :
    lex (numeral ++ rest) = ⟨kind, numeral, rest⟩ := by
  cases hunchecked with
  | radix hmark hsome hdigits hends hletter =>
      obtain ⟨hfront, hback⟩ := Lexeme.takeWhile_run hdigits hends
      rw [List.cons_append, List.cons_append, lex_marked hmark, Numeral.radix,
        hfront, hback, if_neg (by simpa using hsome)]
      split
      · exact absurd rfl (hletter _ rfl)
      · rfl
  | @radixBigint mark isDigit taken _ hmark hsome hdigits =>
      have hends : ∀ c ∈ ('n' :: rest).head?, (c == '_' || isDigit c) = false := by
        rintro c ⟨⟩
        exact letter_not_digit hmark
      obtain ⟨hfront, hback⟩ := Lexeme.takeWhile_run hdigits hends
      rw [List.cons_append, List.cons_append, List.append_assoc,
        List.singleton_append, lex_marked hmark, Numeral.radix, hfront, hback,
        if_neg (by simpa using hsome)]
      rfl
  | @bigint first taken _ hfirst hdigits =>
      have hall : ∀ c ∈ first :: taken, isDigitOrSeparator c = true :=
        List.forall_mem_cons.mpr
          ⟨by rw [isDigitOrSeparator, hfirst, Bool.true_or], hdigits⟩
      rw [List.cons_append, List.append_assoc, List.singleton_append,
        lex_eq_decimal, decimal, ← List.cons_append,
        digits_append_rest hall (by rintro c ⟨⟩; decide)]
      · rfl
      · intro _ c hc
        refine not_mem_marks ?_
        cases taken with
        | nil => exact .inr (by rw [← Option.some.inj hc]; decide)
        | cons other taken =>
            refine .inl (hdigits c ?_)
            rw [← Option.some.inj hc]
            exact List.mem_cons_self

/-- What comes behind the integer part of a decimal numeral does not belong to
it. -/
theorem IsDecimal.head?_append {integer : List Char}
    (hdecimal : IsDecimal integer fraction exponent rest) :
    ∀ c ∈ (fraction ++ (exponent ++ rest)).head?,
      c = '.' ∨ c = 'e' ∨ c = 'E' ∨
        fraction = [] ∧ exponent = [] ∧ c ∈ rest.head? := by
  intro c hc
  cases hfraction : fraction with
  | cons point others =>
      have hpoint := hdecimal.isFraction
      rw [hfraction] at hc hpoint
      cases hpoint
      exact .inl (Option.some.inj hc).symm
  | nil =>
      rw [hfraction, List.nil_append] at hc
      rcases hdecimal.isExponent.head?_append c hc with hlower | hupper | hrest
      · exact .inr (.inl hlower)
      · exact .inr (.inr (.inl hupper))
      · exact .inr (.inr (.inr ⟨rfl, hrest⟩))

/-- What follows a decimal numeral neither continues an exponent, nor the integer
part if the numeral consists of that. -/
theorem IsDecimal.head?_rest {integer : List Char}
    (hdecimal : IsDecimal integer fraction exponent rest) :
    (∀ c ∈ rest.head?, isDigitOrSeparator c = false) ∧
      (exponent = [] → ∀ c ∈ rest.head?, c ≠ 'e' ∧ c ≠ 'E') ∧
      (fraction = [] → exponent = [] → ∀ c ∈ rest.head?,
        c ≠ 'n' ∧ (c = '.' → (!isLegacyOctal integer) = false)) := by
  refine ⟨fun c hc => ?_, fun hexponent c hc => ⟨?_, ?_⟩,
    fun hfraction hexponent c hc => ⟨?_, fun hpoint => ?_⟩⟩
  · exact Bool.eq_false_iff.mpr fun hdigit => hdecimal.ends c hc (.inl hdigit)
  · exact fun hlower => hdecimal.ends c hc (.inr ⟨hexponent, .inl hlower⟩)
  · exact fun hupper =>
      hdecimal.ends c hc (.inr ⟨hexponent, .inr (.inl hupper)⟩)
  · exact fun hletter => hdecimal.ends c hc
      (.inr ⟨hexponent, .inr (.inr ⟨hfraction, .inl hletter⟩)⟩)
  · rw [Bool.not_eq_false', ← Bool.not_eq_false]
    exact fun hlegacy => hdecimal.ends c hc
      (.inr ⟨hexponent, .inr (.inr ⟨hfraction, .inr (.inl ⟨hpoint, hlegacy⟩)⟩)⟩)

theorem IsDecimal.decimal_append {integer : List Char}
    (hdecimal : IsDecimal integer fraction exponent rest) :
    decimal (integer ++ (fraction ++ (exponent ++ rest))) =
      ⟨ending rest, integer ++ (fraction ++ exponent), rest⟩ := by
  obtain ⟨hrest, hletter, hinteger⟩ := hdecimal.head?_rest
  have hallowed : fraction ≠ [] → (!isLegacyOctal integer) = true := by
    intro hsome
    rw [Bool.not_eq_true', Bool.eq_false_iff]
    exact fun hlegacy => hsome (hdecimal.legacy hlegacy)
  have hstops : ∀ c ∈ (fraction ++ (exponent ++ rest)).head?,
      isDigitOrSeparator c = false := by
    intro c hc
    rcases hdecimal.head?_append c hc with rfl | rfl | rfl | ⟨-, -, hc⟩
    · decide
    · decide
    · decide
    · exact hrest c hc
  rw [decimal, digits_append_rest hdecimal.isInteger hstops]
  dsimp only
  rw [afterInteger_append hdecimal.isFraction hdecimal.isExponent hallowed hrest
    hletter hinteger]
  rfl

theorem IsDecimal.lex_append {integer : List Char}
    (hdecimal : IsDecimal integer fraction exponent rest) :
    lex (integer ++ (fraction ++ (exponent ++ rest))) =
      ⟨ending rest, integer ++ (fraction ++ exponent), rest⟩ := by
  rw [← hdecimal.decimal_append]
  rcases hdecimal.opens with ⟨first, more, rfl, -⟩ | ⟨rfl, first, more, rfl, -⟩
  · refine lex_eq_decimal ?_
    rintro rfl c hc
    cases more with
    | cons other more =>
        obtain rfl := Option.some.inj hc
        exact not_mem_marks (.inl (hdecimal.isInteger _
          (List.mem_cons_of_mem _ List.mem_cons_self)))
    | nil =>
        rcases hdecimal.head?_append c hc with rfl | rfl | rfl |
          ⟨hfraction, hexponent, hc⟩
        · exact not_mem_marks (.inr (by decide))
        · exact not_mem_marks (.inr (by decide))
        · exact not_mem_marks (.inr (by decide))
        · exact fun hmark => hdecimal.ends c hc (.inr ⟨hexponent,
            .inr (.inr ⟨hfraction, .inr (.inr ⟨rfl, hmark⟩)⟩)⟩)
  · exact lex_eq_decimal fun hzero => absurd hzero (by decide)

/-- A lexeme that is invalid, or a number with nothing glued to it. -/
def IsClosed (lexeme : Lexeme) : Prop :=
  lexeme.kind = .invalid ∨
    lexeme.kind = .number ∧ isGlued lexeme.rest = false

theorem isClosed_close (hrest : ∀ c ∈ rest.head?, isDigitOrSeparator c = false) :
    IsClosed (close rest) := by
  rw [close_eq hrest, IsClosed, ending]
  cases isGlued rest with
  | true => exact .inl rfl
  | false => exact .inr ⟨rfl, rfl⟩

theorem isClosed_exponentDigits (text : List Char) :
    IsClosed (exponentDigits text) := by
  rw [exponentDigits]
  dsimp only
  split
  · exact .inl rfl
  · exact isClosed_close (Lexeme.head?_dropWhile _ text)

theorem isClosed_exponent (text : List Char) :
    IsClosed (Numeral.exponent text) := by
  cases text with
  | nil => exact .inl rfl
  | cons c cs =>
      rw [Numeral.exponent]
      split
      · exact isClosed_exponentDigits cs
      · exact isClosed_exponentDigits (c :: cs)

theorem isClosed_afterFraction
    (htext : ∀ c ∈ text.head?, isDigitOrSeparator c = false) :
    IsClosed (afterFraction text) := by
  cases text with
  | nil => exact isClosed_close htext
  | cons c cs =>
      rw [afterFraction]
      split
      · exact isClosed_exponent cs
      · exact isClosed_close htext

/-- Only the letter of a BigInt ends a decimal numeral unseen. -/
theorem isClosed_afterInteger
    (htext : ∀ c ∈ text.head?, isDigitOrSeparator c = false) :
    IsClosed (afterInteger allowed text) ∨
      afterInteger allowed text = ⟨.bigint, ['n'], text.tail⟩ := by
  cases text with
  | nil => exact .inl (isClosed_close htext)
  | cons c cs =>
      rw [afterInteger]
      split
      · rename_i hletter
        exact .inr (by rw [hletter, List.tail_cons])
      · split
        · exact .inl (isClosed_afterFraction (Lexeme.head?_dropWhile _ cs))
        · exact .inl (isClosed_afterFraction htext)

theorem decimal_cases (hopens : Opens text) :
    IsClosed (decimal text) ∨
      IsUnchecked (decimal text).kind (decimal text).taken
        (decimal text).rest := by
  rw [decimal, digits]
  dsimp only
  rcases hopens with ⟨first, more, rfl, hdigit⟩ | ⟨first, more, rfl, -⟩
  · rcases isClosed_afterInteger (Lexeme.head?_dropWhile isDigitOrSeparator
      (first :: more)) with hclosed | hbigint
    · exact .inl hclosed
    · have haccepts : isDigitOrSeparator first = true := by
        rw [isDigitOrSeparator, hdigit, Bool.true_or]
      rw [hbigint, List.takeWhile_cons_of_pos haccepts]
      exact .inr (.bigint hdigit (List.all_eq_true.mp List.all_takeWhile))
  · have hpoint : ¬ isDigitOrSeparator '.' = true := by decide
    rw [List.takeWhile_cons_of_neg hpoint, List.dropWhile_cons_of_neg hpoint]
    exact .inl (isClosed_afterFraction (Lexeme.head?_dropWhile _ (first :: more)))

theorem radix_cases (hmark : (mark, isDigit) ∈ radixMarks) (text : List Char) :
    (Numeral.radix isDigit text).kind = .invalid ∨
      IsUnchecked (Numeral.radix isDigit text).kind
        ('0' :: mark :: (Numeral.radix isDigit text).taken)
        (Numeral.radix isDigit text).rest := by
  have hdigits : ∀ c ∈ text.takeWhile (fun c => c == '_' || isDigit c),
      (c == '_' || isDigit c) = true :=
    List.all_eq_true.mp List.all_takeWhile
  have hends := Lexeme.head?_dropWhile (fun c => c == '_' || isDigit c) text
  rw [Numeral.radix]
  split
  · exact .inl rfl
  · rename_i hsome
    rw [List.isEmpty_iff] at hsome
    split
    · exact .inr (.radixBigint hmark hsome hdigits)
    · rename_i rest hletter
      refine .inr (.radix hmark hsome hdigits hends ?_)
      rintro c hc rfl
      obtain ⟨more, hmore⟩ := List.head?_eq_some_iff.mp hc
      exact hletter more hmore

/-- A numeral that is found is closed, or taken as it is whatever follows. -/
theorem lex_cases (hopens : Opens text) :
    IsClosed (lex text) ∨
      IsUnchecked (lex text).kind (lex text).taken (lex text).rest := by
  obtain ⟨first, more, rfl⟩ : ∃ first more, text = first :: more := by
    rcases hopens with ⟨first, more, htext, -⟩ | ⟨first, more, htext, -⟩
    · exact ⟨first, more, htext⟩
    · exact ⟨'.', first :: more, htext⟩
  by_cases hmarked : first = '0' ∧ ∃ mark ∈ more.head?,
      mark ∈ radixMarks.map Prod.fst
  · obtain ⟨rfl, mark, hhead, hmark⟩ := hmarked
    obtain ⟨text, rfl⟩ := List.head?_eq_some_iff.mp hhead
    obtain ⟨⟨mark, isDigit⟩, hmem, rfl⟩ := List.mem_map.mp hmark
    rw [lex_marked hmem]
    exact (radix_cases hmem text).imp_left .inl
  · rw [lex_eq_decimal]
    · exact decimal_cases hopens
    · exact fun hzero c hc hmark => hmarked ⟨hzero, c, hc, hmark⟩

end Reading

end Numeral

namespace Lexeme

theorem read_numeral (mode : LexMode) {text : List Char}
    (hopens : Numeral.Opens text) : read mode text = Numeral.lex text := by
  rcases hopens with ⟨first, more, rfl, hdigit⟩ | ⟨first, more, rfl, hdigit⟩
  · obtain ⟨hascii, hstart, hbackslash⟩ := CharClass.opens_of_isDigit hdigit
    rw [read, if_neg (by simp [hascii, hbackslash]), if_neg (by simp [hstart]),
      if_pos hdigit]
  · rw [read, if_neg (by decide), if_neg (by decide), if_neg (by decide),
      if_pos (by simp [hdigit])]

/-- A number or BigInt is read where a numeral starts. -/
theorem opens_of_kind {mode : LexMode} {text : List Char}
    (hkind : (read mode text).kind = .number ∨ (read mode text).kind = .bigint) :
    Numeral.Opens text := by
  cases text with
  | nil => rcases hkind with hkind | hkind <;> cases hkind
  | cons c cs =>
      rw [read] at hkind
      split at hkind
      · rcases kind_identifier (c :: cs) with hother | hother <;>
          simp [hother] at hkind
      split at hkind
      · rcases kind_word (c :: cs) with hword | hother | hother
        · rcases hkind with hkind | hkind <;> rw [hkind] at hword <;> cases hword
        · simp [hother] at hkind
        · simp [hother] at hkind
      split at hkind
      · exact .inl ⟨c, cs, rfl, ‹_›⟩
      split at hkind
      · rename_i hpoint
        rw [Bool.and_eq_true, decide_eq_true_eq, Option.any_eq_true] at hpoint
        obtain ⟨rfl, first, hfirst, hdigit⟩ := hpoint
        obtain ⟨more, rfl⟩ := List.head?_eq_some_iff.mp hfirst
        exact .inr ⟨first, more, rfl, hdigit⟩
      -- Nothing else that is read is a number.
      exfalso
      split at hkind
      · rw [ofScan] at hkind
        dsimp only at hkind
        split at hkind <;> simp at hkind
      split at hkind
      · rw [kind_after, templateChunk] at hkind
        dsimp only at hkind
        split at hkind <;> simp at hkind
      split at hkind
      · rw [privateName, kind_after] at hkind
        dsimp only at hkind
        split at hkind <;> simp at hkind
      split at hkind
      · rw [regex] at hkind
        split at hkind <;> simp at hkind
      · unfold punctuation at hkind
        dsimp only at hkind
        split at hkind <;> simp at hkind

end Lexeme

open Numeral

theorem Trivia.read_numeral (offset : Nat) {text : List Char}
    (hopens : Opens text) :
    Trivia.read offset text = .none text := by
  rcases hopens with ⟨first, more, rfl, hdigit⟩ | ⟨first, more, rfl, -⟩
  · obtain ⟨hlow, hhigh⟩ := CharClass.toNat_of_isDigit hdigit
    exact Trivia.read_of_opens offset _ (CharClass.not_trivia_of_toNat hlow
      (Nat.le_trans hhigh (by decide)))
  · exact Trivia.read_of_opens offset _ (by decide)

theorem lexToken_of_opens {mode : LexMode}
    (hmode : mode ≠ .templateContinue) (offset : Nat) {text : List Char}
    (hopens : Opens text) :
    lexToken mode ⟨offset, text⟩ =
      .ofLexeme ⟨offset, text⟩ (lex text) false [] := by
  rw [lexToken_eq hmode, Trivia.read_numeral offset hopens]
  dsimp only [Trivia.none]
  rw [Lexeme.read_numeral mode hopens]
  rfl

theorem opens_of_isUnchecked {kind : TokenKind}
    {numeral rest : List Char} (hunchecked : IsUnchecked kind numeral rest) :
    Opens (numeral ++ rest) := by
  cases hunchecked with
  | radix => exact .inl ⟨'0', _, rfl, by decide⟩
  | radixBigint => exact .inl ⟨'0', _, rfl, by decide⟩
  | bigint hfirst => exact .inl ⟨_, _, rfl, hfirst⟩

theorem opens_of_isDecimal {integer fraction exponent rest : List Char}
    (hdecimal : IsDecimal integer fraction exponent rest) :
    Opens (integer ++ (fraction ++ (exponent ++ rest))) := by
  rcases hdecimal.opens with ⟨first, more, rfl, hdigit⟩ |
    ⟨rfl, first, more, rfl, hdigit⟩
  · exact .inl ⟨first, _, rfl, hdigit⟩
  · exact .inr ⟨first, _, rfl, hdigit⟩

/-- A number or BigInt to which something is glued is one that ends without a look
at what follows. -/
theorem isUnchecked_of_isGlued {mode : LexMode} {cursor : Cursor}
    (hkind : (lexToken mode cursor).token.kind = .number ∨
      (lexToken mode cursor).token.kind = .bigint)
    (hglued : isGlued (lexToken mode cursor).after.rest = true) :
    IsUnchecked (lexToken mode cursor).token.kind
      (lexToken mode cursor).token.text.toList
      (lexToken mode cursor).after.rest := by
  revert hkind hglued
  refine lexToken_elim (motive := fun lexed =>
    lexed.token.kind = .number ∨ lexed.token.kind = .bigint →
      isGlued lexed.after.rest = true →
      IsUnchecked lexed.token.kind lexed.token.text.toList lexed.after.rest)
    (fun _ hkind hglued => ?_) fun _ hkind => ?_
  · dsimp only [Lexed.ofLexeme, Cursor.advance] at hkind hglued ⊢
    have hopens := Lexeme.opens_of_kind hkind
    rw [Lexeme.read_numeral mode hopens] at hkind hglued ⊢
    rw [String.toList_ofList]
    refine (lex_cases hopens).resolve_left ?_
    rintro (hinvalid | ⟨-, hfree⟩)
    · rcases hkind with hkind | hkind <;> cases hinvalid.symm.trans hkind
    · exact Bool.false_ne_true (hfree.symm.trans hglued)
  · have hchunk : (Lexeme.templateChunk cursor.rest).kind = .number ∨
        (Lexeme.templateChunk cursor.rest).kind = .bigint := hkind
    rw [Lexeme.templateChunk] at hchunk
    dsimp only at hchunk
    split at hchunk <;> simp at hchunk

/-- Outside of templates, a number or BigInt to which something is glued ended
without a look at it, and a numeral of that kind is taken as it is, whatever
follows that does not continue it.  Every decimal numeral is invalid if something is
glued to it. -/
theorem lexToken_numeral {mode : LexMode} (hmode : mode ≠ .templateContinue) :
    (∀ cursor, (lexToken mode cursor).token.kind = .number ∨
        (lexToken mode cursor).token.kind = .bigint →
      isGlued (lexToken mode cursor).after.rest = true →
      IsUnchecked (lexToken mode cursor).token.kind
        (lexToken mode cursor).token.text.toList
        (lexToken mode cursor).after.rest) ∧
    (∀ offset kind numeral rest, IsUnchecked kind numeral rest →
      lexToken mode ⟨offset, numeral ++ rest⟩ =
        .ofLexeme ⟨offset, numeral ++ rest⟩ ⟨kind, numeral, rest⟩ false []) ∧
    ∀ offset integer fraction exponent rest,
      IsDecimal integer fraction exponent rest →
      lexToken mode ⟨offset, integer ++ (fraction ++ (exponent ++ rest))⟩ =
        .ofLexeme ⟨offset, integer ++ (fraction ++ (exponent ++ rest))⟩
          ⟨if isGlued rest then .invalid else .number,
            integer ++ (fraction ++ exponent), rest⟩ false [] := by
  refine ⟨fun _ => isUnchecked_of_isGlued, ?_, ?_⟩
  · intro offset kind numeral rest hunchecked
    rw [lexToken_of_opens hmode offset
      (opens_of_isUnchecked hunchecked), hunchecked.lex_append]
  · intro offset integer fraction exponent rest hdecimal
    rw [lexToken_of_opens hmode offset
      (opens_of_isDecimal hdecimal), hdecimal.lex_append]
    rfl

/-- An identifier behind a decimal numeral, and one behind a BigInt. -/
theorem lexToken_numeral_glued :
    LexMode.standard ≠ .templateContinue ∧
      lexToken .standard ⟨0, "3in".toList⟩ =
        .ofLexeme ⟨0, "3in".toList⟩ ⟨.invalid, ['3'], "in".toList⟩ false [] ∧
      lexToken .standard ⟨0, "3nin".toList⟩ =
        .ofLexeme ⟨0, "3nin".toList⟩ ⟨.bigint, ['3', 'n'], "in".toList⟩
          false [] := by
  have hmode : LexMode.standard ≠ .templateContinue := LexMode.noConfusion
  obtain ⟨-, hunchecked, hdecimal⟩ := lexToken_numeral hmode
  have hthree : IsDecimal ['3'] [] [] "in".toList :=
    { opens := .inl ⟨'3', [], rfl, by decide⟩
      isInteger := List.forall_mem_singleton.mpr (by decide)
      isFraction := .nil
      legacy := fun _ => rfl
      isExponent := .nil
      ends := by
        rintro c ⟨⟩ (hdigit | ⟨-, hletter | hletter | ⟨-, hletter | hpoint | hzero⟩⟩)
        · exact absurd hdigit (by decide)
        · exact absurd hletter (by decide)
        · exact absurd hletter (by decide)
        · exact absurd hletter (by decide)
        · exact absurd hpoint.1 (by decide)
        · exact absurd hzero.1 (by decide) }
  have hbigint : IsUnchecked .bigint ['3', 'n'] "in".toList :=
    @IsUnchecked.bigint '3' [] "in".toList (by decide) (List.forall_mem_nil _)
  exact ⟨hmode, hdecimal 0 _ _ _ _ hthree, hunchecked 0 _ _ _ hbigint⟩

/-- A letter that is no digit of the radix starts an identifier right behind a
number. -/
theorem lexToken_glues_identifier :
    (lexToken .standard ⟨0, "0x1g".toList⟩).token =
        ⟨.number, ⟨0, 3⟩, "0x1", false⟩ ∧
      (lexToken .standard ⟨0, "0x1g".toList⟩).after.rest = ['g'] ∧
      CharClass.isNameStart 'g' = true := by
  decide

end Bundler
