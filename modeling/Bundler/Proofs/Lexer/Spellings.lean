import Bundler.Proofs.Lexer.Escapes
import Mathlib.Data.Nat.Digits.Defs
import Mathlib.Tactic.Ring

/-!
# Spellings of characters

The characters that a string or template literal stands for may be written as
they are, behind a backslash, or by their number, and line continuations may
stand between them.  Each spelling is read alike whatever comes behind it, so a
text of spellings decodes to just the characters that it spells.
-/

namespace Bundler

namespace Escape

/-- Hexadecimal digits, of either case, that write a number. -/
def IsHex (digits : List Char) (value : Nat) : Prop :=
  ∃ places : List Nat,
    List.Forall₂ (fun c place => CharClass.digitValue? 16 c = some place)
      digits places ∧
    value = Nat.ofDigits 16 places.reverse

/-- What writes a number behind the letter `u`: four digits, or any number of
them in braces. -/
inductive IsPoint : List Char → Nat → Prop
  | fixed {digits : List Char} {value : Nat} (hlength : digits.length = 4)
      (hhex : IsHex digits value) : IsPoint digits value
  | braced {digits : List Char} {value : Nat} (hsome : digits ≠ [])
      (hhex : IsHex digits value) : IsPoint ('{' :: digits ++ ['}']) value

/-- A spelling of a character. -/
inductive Spells (lineTerminators : Bool) (c : Char) : List Char → Prop
  /-- The character as it is, if decoding does not stop there. -/
  | plain (hgoes : ¬ StopsAt lineTerminators c) : Spells lineTerminators c [c]
  /-- The letter of a control character. -/
  | letter {letter : Char}
      (hletter : (letter, c) ∈ [('b', '\x08'), ('f', '\x0c'), ('n', '\n'),
        ('r', '\r'), ('t', '\t'), ('v', '\x0b')]) :
      Spells lineTerminators c ['\\', letter]
  | byte {digits : List Char} (hlength : digits.length = 2)
      (hhex : IsHex digits c.toNat) :
      Spells lineTerminators c ('\\' :: 'x' :: digits)
  | point {digits : List Char} (hpoint : IsPoint digits c.toNat) :
      Spells lineTerminators c ('\\' :: 'u' :: digits)
  /-- Two surrogates that stand for the character together. -/
  | pair {high low : Nat} {first second : List Char}
      (hhigh : 0xd800 ≤ high ∧ high < 0xdc00)
      (hlow : 0xdc00 ≤ low ∧ low < 0xe000)
      (hvalue : c.toNat =
        0x10000 + (high - 0xd800) * 0x400 + (low - 0xdc00))
      (hfirst : IsPoint first high) (hsecond : IsPoint second low) :
      Spells lineTerminators c
        ('\\' :: 'u' :: (first ++ '\\' :: 'u' :: second))
  /-- The character behind a backslash, if that means nothing else. -/
  | itself (hline : CharClass.isLineTerminator c = false)
      (hdigit : CharClass.isOctalDigit c = false)
      (hletter : c ∉ ['b', 'f', 'n', 'r', 't', 'v', 'x', 'u']) :
      Spells lineTerminators c ['\\', c]

/-- A line continuation. -/
inductive IsContinuation : List Char → Prop
  | single {c : Char} (hline : CharClass.isLineTerminator c = true) :
      IsContinuation ['\\', c]
  | pair : IsContinuation ['\\', '\r', '\n']

/-- A text that spells characters one after the other, with line continuations
anywhere between the spellings.  A line feed behind a continuation that ends in
a carriage return would belong to it. -/
inductive Writes (lineTerminators : Bool) : List Char → List Char → Prop
  | nil : Writes lineTerminators [] []
  | char {c : Char} {meant spelling text : List Char}
      (hspells : Spells lineTerminators c spelling)
      (hwrites : Writes lineTerminators meant text) :
      Writes lineTerminators (c :: meant) (spelling ++ text)
  | continued {meant continuation text : List Char}
      (hcontinues : IsContinuation continuation)
      (hapart : continuation = ['\\', '\r'] → text.head? ≠ some '\n')
      (hwrites : Writes lineTerminators meant text) :
      Writes lineTerminators meant (continuation ++ text)

section Digits

variable {digits : List Char} {places : List Nat}
  (hplaces : List.Forall₂
    (fun c place => CharClass.digitValue? 16 c = some place) digits places)
include hplaces

theorem hexDigits_places (start : Nat) (rest : List Char) :
    hexDigits digits.length start (digits ++ rest) =
      some (Nat.ofDigits 16 places.reverse + 16 ^ places.length * start,
        rest) := by
  induction hplaces generalizing start with
  | nil => simp [hexDigits]
  | @cons c place digits places hplace _ ih =>
      rw [List.length_cons, List.cons_append, hexDigits, hplace]
      simp only [ih]
      rw [List.reverse_cons, Nat.ofDigits_append, Nat.ofDigits_singleton,
        List.length_reverse, List.length_cons]
      congr 2
      ring

/-- Leading zeros do no harm, since no number on the way is greater than the one
in the end. -/
theorem bracedDigits_places (digit : Bool) (start : Nat)
    (hsome : digit = true ∨ digits ≠ []) (rest : List Char)
    (hbound : Nat.ofDigits 16 places.reverse + 16 ^ places.length * start ≤
      0x10ffff) :
    bracedDigits digit start (digits ++ '}' :: rest) =
      some (Nat.ofDigits 16 places.reverse + 16 ^ places.length * start,
        rest) := by
  induction hplaces generalizing digit start with
  | nil =>
      have hdigit := hsome.resolve_right fun hne => hne rfl
      simp only [List.reverse_nil, Nat.ofDigits_nil, List.length_nil, pow_zero,
        one_mul, zero_add] at hbound ⊢
      simp [bracedDigits, hdigit, hbound]
  | @cons c place digits places hplace _ ih =>
      have hbrace : c ≠ '}' := by
        rintro rfl
        cases hplace
      have hvalue : Nat.ofDigits 16 (place :: places).reverse +
          16 ^ (place :: places).length * start =
          Nat.ofDigits 16 places.reverse +
            16 ^ places.length * (16 * start + place) := by
        rw [List.reverse_cons, Nat.ofDigits_append, Nat.ofDigits_singleton,
          List.length_reverse, List.length_cons]
        ring
      rw [hvalue] at hbound ⊢
      have hstep : 16 * start + place ≤
          16 ^ places.length * (16 * start + place) :=
        Nat.le_mul_of_pos_left _ (by positivity)
      rw [List.cons_append, bracedDigits, if_neg hbrace, hplace]
      simp only
      rw [if_pos (by omega)]
      exact ih true (16 * start + place) (.inl rfl) hbound

end Digits

theorem hexDigits_append {digits : List Char} {value : Nat}
    (hhex : IsHex digits value) (rest : List Char) :
    hexDigits digits.length 0 (digits ++ rest) = some (value, rest) := by
  obtain ⟨places, hplaces, rfl⟩ := hhex
  simpa using hexDigits_places hplaces 0 rest

theorem unicode_append {digits : List Char} {value : Nat}
    (hpoint : IsPoint digits value) (hbound : value ≤ 0x10ffff)
    (rest : List Char) : unicode (digits ++ rest) = some (value, rest) := by
  cases hpoint with
  | fixed hlength hhex =>
      have hread := hexDigits_append hhex rest
      obtain ⟨c, cs, rfl⟩ := List.exists_cons_of_length_eq_add_one hlength
      rw [hlength] at hread
      rw [List.cons_append, unicode]
      · exact hread
      · intro others hcons
        obtain ⟨_, hplaces, _⟩ := hhex
        rw [(List.cons.inj hcons).1] at hplaces
        cases hplaces with
        | cons hplace _ => cases hplace
  | braced hsome hhex =>
      obtain ⟨places, hplaces, rfl⟩ := hhex
      have hread := bracedDigits_places hplaces false 0 (.inr hsome) rest
        (by simpa using hbound)
      simpa [unicode] using hread

section Points

/-- The number of a character is none of a surrogate. -/
theorem toNat_bounds (c : Char) :
    c.toNat < 0xd800 ∨ 0xdfff < c.toNat ∧ c.toNat < 0x110000 :=
  c.valid

theorem scalar_toNat (c : Char) : scalar c.toNat = c := by
  rw [scalar, if_pos (show c.toNat.isValidChar from c.valid), Char.ofNat_toNat]

end Points

/-- A spelling is read to its end and means its character. -/
theorem item_of_spells {lineTerminators : Bool} {c : Char}
    {spelling : List Char} (hspells : Spells lineTerminators c spelling)
    (rest : List Char) :
    item lineTerminators (spelling ++ rest) = .read [c] rest := by
  have hbounds := toNat_bounds c
  cases hspells with
  | plain hgoes =>
      rw [StopsAt, not_or] at hgoes
      rw [List.singleton_append, item, if_neg hgoes.1, if_neg]
      simpa using hgoes.2
  | letter hletter =>
      refine escaped_letter ?_ rest
      simp only [List.mem_cons, Prod.mk.injEq, List.not_mem_nil, or_false]
        at hletter
      rcases hletter with ⟨rfl, rfl⟩ | ⟨rfl, rfl⟩ | ⟨rfl, rfl⟩ | ⟨rfl, rfl⟩ |
        ⟨rfl, rfl⟩ | ⟨rfl, rfl⟩ <;> rfl
  | @byte digits hlength hhex =>
      have hread := hexDigits_append hhex rest
      rw [hlength] at hread
      refine (escaped_byte (digits ++ rest)).trans ?_
      simp only [hread, scalar_toNat]
  | @point digits hpoint =>
      have hread := unicode_append hpoint (by omega) rest
      have hhigh : ¬ isHighSurrogate c.toNat = true := by
        simp only [isHighSurrogate, Bool.and_eq_true, decide_eq_true_eq]
        omega
      refine (escaped_unicode (digits ++ rest)).trans ?_
      simp only [hread, if_neg hhigh, scalar_toNat]
  | @pair high low first second hhigh hlow hvalue hfirst hsecond =>
      have hread := unicode_append hfirst (by omega)
        ('\\' :: 'u' :: (second ++ rest))
      have hlowRead : lowSurrogate? ('\\' :: 'u' :: (second ++ rest)) =
          some (low, rest) := by
        refine Option.filter_eq_some_iff.mpr
          ⟨unicode_append hsecond (by omega) rest, ?_⟩
        simpa [isLowSurrogate] using hlow
      have hishigh : isHighSurrogate high = true := by
        simpa [isHighSurrogate] using hhigh
      have hmeans : ofPair high low = c := by
        rw [ofPair, ← hvalue, scalar_toNat]
      rw [List.cons_append, List.cons_append, List.append_assoc,
        List.cons_append, List.cons_append]
      refine (escaped_unicode _).trans ?_
      simp only [hread, hishigh, hlowRead, hmeans, if_true]
  | itself hline hdigit hletter =>
      refine escaped_other hline ?_ hdigit ?_ ?_ rest
      · rw [letter?.eq_def]
        split <;> simp_all
      · rintro rfl
        simp at hletter
      · rintro rfl
        simp at hletter

/-- A line continuation means nothing. -/
theorem item_of_isContinuation {lineTerminators : Bool}
    {continuation text : List Char} (hcontinues : IsContinuation continuation)
    (hapart : continuation = ['\\', '\r'] → text.head? ≠ some '\n') :
    item lineTerminators (continuation ++ text) = .read [] text := by
  cases hcontinues with
  | single hline =>
      exact escaped_line hline fun hreturn => hapart (by rw [hreturn])
  | pair => rfl

/-- A text of spellings decodes to what it spells. -/
theorem decodeAll_of_writes {lineTerminators : Bool} {meant text : List Char}
    (hwrites : Writes lineTerminators meant text) :
    decodeAll lineTerminators text = .ok meant := by
  induction hwrites with
  | nil => exact decodeAll_of_finished
  | char hspells _ ih => exact decodeAll_of_read (item_of_spells hspells _) ih
  | continued hcontinues hapart _ ih =>
      exact decodeAll_of_read (item_of_isContinuation hcontinues hapart) ih

theorem decode_of_writes {lineTerminators : Bool} {meant text : List Char}
    (hwrites : Writes lineTerminators meant text) :
    decode lineTerminators text = .ok meant := by
  rw [decode, decodeAll_of_writes hwrites]

/-- Decoding undoes every spelling.  Where it fails there is a backslash, or a
line terminator that is not allowed, and what stands in front of that can be
decoded. -/
theorem decode_spellings (lineTerminators : Bool) :
    (∀ meant text, Writes lineTerminators meant text →
      decode lineTerminators text = .ok meant) ∧
    ∀ text offset, decode lineTerminators text = .error offset →
      ∃ front c back, text = front ++ c :: back ∧
        offset = Text.byteLength front ∧ StopsAt lineTerminators c ∧
        ∃ decoded, decode lineTerminators front = .ok decoded :=
  ⟨fun _ _ hwrites => decode_of_writes hwrites,
    fun _ _ hfault => exists_of_decode hfault⟩

/-- A character of each spelling, with line continuations between them, and a
text that breaks off in an escape. -/
theorem decode_spellings_mixed :
    let text := ['a'] ++ (['\\', 'x', '4', '1'] ++ (['\\', '\r'] ++
      (['\\', 't'] ++ (['\\', 'u', '0', '0', 'e', '9'] ++
      (['\\', '\r', '\n'] ++
      ("\\uD83D\\ude00".toList ++ ("\\u\x7b00007D\x7d".toList ++
      (['\\', 'q'] ++ []))))))))
    let broken := ['é', '\\', 'q', '\\', 'x', '4']
    Writes false ['a', 'A', '\t', 'é', '😀', '}', 'q'] text ∧
      decode false text = .ok ['a', 'A', '\t', 'é', '😀', '}', 'q'] ∧
      decode false broken = .error 4 ∧
      ∃ front c back, broken = front ++ c :: back ∧
        4 = Text.byteLength front ∧ StopsAt false c ∧
        ∃ decoded, decode false front = .ok decoded := by
  intro text broken
  have hbyte : Spells false 'A' ['\\', 'x', '4', '1'] :=
    .byte rfl ⟨[4, 1], by decide, rfl⟩
  have hpoint : Spells false 'é' ['\\', 'u', '0', '0', 'e', '9'] :=
    .point (.fixed rfl ⟨[0, 0, 14, 9], by decide, rfl⟩)
  have hhigh : IsPoint ['D', '8', '3', 'D'] 0xd83d :=
    .fixed rfl ⟨[13, 8, 3, 13], by decide, rfl⟩
  have hlow : IsPoint ['d', 'e', '0', '0'] 0xde00 :=
    .fixed rfl ⟨[13, 14, 0, 0], by decide, rfl⟩
  have hpair : Spells false '😀' "\\uD83D\\ude00".toList :=
    .pair (by decide) (by decide) (by decide) hhigh hlow
  have hzeros : IsPoint ('{' :: ['0', '0', '0', '0', '7', 'D'] ++ ['}'])
      '}'.toNat :=
    .braced (by decide) ⟨[0, 0, 0, 0, 7, 13], by decide, rfl⟩
  have hbraced : Spells false '}' "\\u\x7b00007D\x7d".toList :=
    .point hzeros
  have hwrites : Writes false ['a', 'A', '\t', 'é', '😀', '}', 'q'] text :=
    .char (.plain (by decide)) <| .char hbyte <|
      .continued (.single rfl) (by decide) <| .char (.letter (by decide)) <|
      .char hpoint <| .continued .pair (by decide) <| .char hpair <|
      .char hbraced <| .char (.itself rfl rfl (by decide)) .nil
  have hbroken : decode false broken = .error 4 := by decide +kernel
  exact ⟨hwrites, (decode_spellings false).1 _ _ hwrites, hbroken,
    (decode_spellings false).2 _ _ hbroken⟩

end Escape

end Bundler
