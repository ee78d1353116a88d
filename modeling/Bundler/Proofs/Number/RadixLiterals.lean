import Bundler.Number.Literal
import Bundler.Proofs.Number.Rounding
import Mathlib.Data.List.Basic
import Mathlib.Data.List.Induction
import Mathlib.Data.Nat.Digits.Defs

/-!
# Radix literals

The digits of a radix literal are read one after the other, and each time the
number is rounded to 53 binary digits.  Once it does not fit, the next digits are
less than half of its last place and are lost, so that they count as zeros.  The
value is nearest to what is spelled, unless the number had been rounded down from
half-way between two neighbours and a later digit would have carried it up.
-/

namespace Bundler

namespace CharClass

variable {radix digit : Nat} {c : Char}

theorem digitValue?_lt (hdigit : digitValue? radix c = some digit) :
    digit < radix := by
  rw [digitValue?, Option.filter_eq_some_iff] at hdigit
  exact of_decide_eq_true hdigit.2

/-- The letters stand for ten and more. -/
theorem isOctalDigit_of_digitValue? (hdigit : digitValue? 8 c = some digit) :
    isOctalDigit c = true := by
  have hless := digitValue?_lt hdigit
  rw [digitValue?, Option.filter_eq_some_iff] at hdigit
  obtain ⟨hvalue, -⟩ := hdigit
  split at hvalue
  · rename_i hc
    have hvalue := Option.some.inj hvalue
    rw [isDigit, Bool.and_eq_true, decide_eq_true_eq] at hc
    have hzero : '0'.toNat = 48 := rfl
    have htop : c.toNat ≤ 55 := by omega
    rw [isOctalDigit, Bool.and_eq_true, decide_eq_true_eq, decide_eq_true_eq]
    exact ⟨hc.1, Char.le_def.mpr htop⟩
  · split at hvalue
    · have hletter := Option.some.inj hvalue
      omega
    · split at hvalue
      · have hletter := Option.some.inj hvalue
        omega
      · cases hvalue

end CharClass

namespace Binary64

section Digits

variable {radix bits digit : Nat} {digits front back : List Nat}

/-- The number that digits spell, the greatest place first. -/
def spelled (radix : Nat) (digits : List Nat) : Nat :=
  Nat.ofDigits radix digits.reverse

theorem spelled_append (radix : Nat) (front back : List Nat) :
    spelled radix (front ++ back) =
      spelled radix front * radix ^ back.length + spelled radix back := by
  rw [spelled, List.reverse_append, Nat.ofDigits_append, List.length_reverse,
    Nat.add_comm, Nat.mul_comm]
  rfl

theorem spelled_concat (radix : Nat) (digits : List Nat) (digit : Nat) :
    spelled radix (digits ++ [digit]) = spelled radix digits * radix + digit := by
  rw [spelled_append, List.length_singleton, Nat.pow_one]
  exact congrArg _ Nat.ofDigits_singleton

theorem spelled_lt (hradix : 1 < radix) (hdigits : ∀ digit ∈ digits, digit < radix) :
    spelled radix digits < radix ^ digits.length := by
  rw [spelled, ← List.length_reverse]
  exact Nat.ofDigits_lt_base_pow_length hradix fun digit hmem =>
    hdigits digit (List.mem_reverse.mp hmem)

theorem spelled_ne_zero_iff (hradix : radix ≠ 0) :
    spelled radix digits ≠ 0 ↔ ∃ digit ∈ digits, digit ≠ 0 := by
  constructor
  · intro hspelled
    by_contra hzeros
    push Not at hzeros
    refine hspelled ?_
    obtain ⟨count, hcount⟩ : ∃ count, digits.reverse = List.replicate count 0 :=
      ⟨digits.reverse.length, List.eq_replicate_of_mem fun digit hmem =>
        hzeros digit (List.mem_reverse.mp hmem)⟩
    rw [spelled, hcount, Nat.ofDigits_replicate_zero]
  · rintro ⟨digit, hmem, hdigit⟩ hzero
    exact hdigit (Nat.digits_zero_of_eq_zero hradix hzero digit
      (List.mem_reverse.mpr hmem))

/-- The digits in front reach 53 binary digits at most by the last one, and do not
fit any more if something is left. -/
theorem exists_front (hradix : 0 < radix)
    (hdigits : ∀ digit ∈ digits, digit < radix) :
    ∃ front back, digits = front ++ back ∧
      (back ≠ [] → 2 ^ 53 ≤ spelled radix front) ∧
      spelled radix front < 2 ^ 53 * radix := by
  induction digits using List.reverseRecOn with
  | nil =>
      refine ⟨[], [], rfl, fun hback => absurd rfl hback, ?_⟩
      exact Nat.mul_pos (by decide) hradix
  | append_singleton digits digit ih =>
      obtain ⟨hdigits, hlast⟩ := List.forall_mem_append.mp hdigits
      obtain ⟨front, back, rfl, hlow, hhigh⟩ := ih hdigits
      rcases Nat.lt_or_ge (spelled radix front) (2 ^ 53) with hfits | hlarge
      · have hback : back = [] := by
          by_contra hback
          exact Nat.not_lt_of_ge (hlow hback) hfits
        subst hback
        refine ⟨front ++ [digit], [], by simp, fun hback => absurd rfl hback, ?_⟩
        have hdigit := hlast digit (List.mem_singleton_self digit)
        have hnext := Nat.mul_le_mul_right radix hfits
        rw [Nat.succ_mul] at hnext
        rw [spelled_concat]
        omega
      · exact ⟨front, back ++ [digit], (List.append_assoc ..),
          fun _ => hlarge, hhigh⟩

end Digits

section Reading

variable {bits number : Nat} {digits front back : List Nat}

/-- A number that is read, unless it is out of range. -/
def inRange (number : Nat) : Option Nat :=
  if number < leading 972 then some number else none

/-- The value of what is read. -/
def ofRead : Option Nat → Binary64
  | some number => ofNat number
  | none => .infinity false

theorem leading_lt_leading : leading 971 < leading 972 := by decide +kernel

theorem accumulate_some (radix number digit : Nat) :
    accumulate radix (some number) digit =
      inRange (roundNat (number * radix + digit)) := by
  have hlimit : Nat.pow 2 1024 = leading 972 := by decide +kernel
  rw [accumulate, hlimit, Option.map_some, Option.filter_some, inRange]
  simp only [decide_eq_true_eq]

theorem inRange_of_lt (hrange : number < leading 972) :
    inRange number = some number := if_pos hrange

theorem inRange_of_le (hrange : leading 972 ≤ number) :
    inRange number = none := if_neg (Nat.not_lt_of_ge hrange)

theorem ofRead_inRange (number : Nat) : ofRead (inRange number) = ofNat number := by
  rcases Nat.lt_or_ge number (leading 972) with hrange | hrange
  · rw [inRange_of_lt hrange, ofRead]
  · rw [inRange_of_le hrange, ofRead, ofNat_of_le hrange]

theorem foldl_accumulate_none (radix : Nat) (digits : List Nat) :
    digits.foldl (accumulate radix) none = none := by
  induction digits with
  | nil => rfl
  | cons digit digits ih => rwa [List.foldl_cons, accumulate]

/-- As long as a number fits into 53 digits it is read exactly. -/
theorem foldl_accumulate_of_fits {radix : Nat} (hradix : 0 < radix)
    (hfits : spelled radix digits < 2 ^ 53) :
    digits.foldl (accumulate radix) (some 0) = some (spelled radix digits) := by
  induction digits using List.reverseRecOn with
  | nil => rfl
  | append_singleton digits digit ih =>
      rw [spelled_concat] at hfits ⊢
      have hshorter : spelled radix digits ≤ spelled radix digits * radix :=
        Nat.le_mul_of_pos_right _ hradix
      rw [List.foldl_append, ih (by omega), List.foldl_cons, List.foldl_nil,
        accumulate_some, roundNat_of_lt hfits]
      refine inRange_of_lt (Nat.lt_trans hfits ?_)
      decide +kernel

/-- The first number that does not fit is rounded. -/
theorem foldl_accumulate_front {radix : Nat} (hradix : 0 < radix)
    (hrange : 2 ^ 53 * radix ≤ leading 971)
    (hfront : spelled radix front < 2 ^ 53 * radix) :
    front.foldl (accumulate radix) (some 0) =
      some (roundNat (spelled radix front)) := by
  rcases List.eq_nil_or_concat' front with rfl | ⟨front, digit, rfl⟩
  · rw [List.foldl_nil, spelled, List.reverse_nil, Nat.ofDigits_nil,
      roundNat_of_lt (by decide)]
  · rw [spelled_concat] at hfront ⊢
    have hfits : spelled radix front < 2 ^ 53 :=
      Nat.lt_of_mul_lt_mul_right
        (Nat.lt_of_le_of_lt (Nat.le_add_right _ _) hfront)
    rw [List.foldl_append, foldl_accumulate_of_fits hradix hfits,
      List.foldl_cons, List.foldl_nil, accumulate_some]
    refine inRange_of_lt ?_
    calc roundNat (spelled radix front * radix + digit)
        ≤ leading 971 := roundNat_le_leading (Nat.lt_of_lt_of_le hfront hrange)
      _ < leading 972 := leading_lt_leading

/-- Behind a number that does not fit all digits are read as zeros. -/
theorem foldl_accumulate_back (hfull : IsFull number)
    (hrange : number < leading 972) (hback : ∀ digit ∈ back, digit < 2 ^ bits) :
    back.foldl (accumulate (2 ^ bits)) (some number) =
      inRange (number * (2 ^ bits) ^ back.length) := by
  induction back generalizing number with
  | nil => rw [List.length_nil, Nat.pow_zero, Nat.mul_one, inRange_of_lt hrange,
      List.foldl_nil]
  | cons digit back ih =>
      obtain ⟨hdigit, hback⟩ := List.forall_mem_cons.mp hback
      obtain ⟨hlost, hnext⟩ := hfull.roundNat_add hdigit
      rw [List.foldl_cons, accumulate_some, hlost, List.length_cons,
        Nat.pow_succ', ← Nat.mul_assoc]
      rcases Nat.lt_or_ge (number * 2 ^ bits) (leading 972) with hless | hover
      · rw [inRange_of_lt hless]
        exact ih hnext hless hback
      · rw [inRange_of_le hover, foldl_accumulate_none, inRange_of_le]
        exact Nat.le_trans hover
          (Nat.le_mul_of_pos_right _ (Nat.pow_pos (Nat.two_pow_pos bits)))

/-- The value that is read is the one nearest to the digits in front with zeros
behind. -/
theorem ofRead_foldl (hbits : bits ≤ 900)
    (hback : ∀ digit ∈ back, digit < 2 ^ bits)
    (hlow : back ≠ [] → 2 ^ 53 ≤ spelled (2 ^ bits) front)
    (hhigh : spelled (2 ^ bits) front < 2 ^ 53 * 2 ^ bits) :
    ofRead ((front ++ back).foldl (accumulate (2 ^ bits)) (some 0)) =
      ofNat (spelled (2 ^ bits) front * (2 ^ bits) ^ back.length) := by
  have hrange : 2 ^ 53 * 2 ^ bits ≤ leading 971 := by
    rw [← leading_succ]
    exact leading_le_leading (by omega)
  rw [List.foldl_append,
    foldl_accumulate_front (Nat.two_pow_pos bits) hrange hhigh]
  by_cases hnone : back = []
  · rw [hnone, List.foldl_nil, List.length_nil, Nat.pow_zero, Nat.mul_one, ofRead]
    exact ofNat_eq_of_roundNat_eq (roundNat_roundNat _)
  · have hless : roundNat (spelled (2 ^ bits) front) < leading 972 := by
      calc roundNat (spelled (2 ^ bits) front)
          ≤ leading 971 := roundNat_le_leading (Nat.lt_of_lt_of_le hhigh hrange)
        _ < leading 972 := leading_lt_leading
    rw [foldl_accumulate_back (isFull_roundNat (hlow hnone)) hless hback,
      ofRead_inRange, ← Nat.pow_mul]
    refine ofNat_eq_of_roundNat_eq ?_
    rw [roundNat_mul_pow, roundNat_mul_pow, roundNat_roundNat]

/-- The digits in front come to lie half-way between two neighbours, of which the
lower one is even, and a later digit is not zero. -/
def StopsHalfway (radix : Nat) (digits : List Nat) : Prop :=
  ∃ front back s e, digits = front ++ back ∧
    spelled radix front = (2 * s + 1) * 2 ^ e ∧ s % 2 = 0 ∧
    2 ^ 52 ≤ s ∧ s < 2 ^ 53 ∧ 2 ^ (e + 1) ≤ radix ∧ ∃ digit ∈ back, digit ≠ 0

theorem halfway_eq (s e : Nat) :
    (2 * s + 1) * 2 ^ e = s * 2 ^ (e + 1) + 2 ^ e := by
  calc (2 * s + 1) * 2 ^ e
      = s * 2 * 2 ^ e + 2 ^ e := by rw [Nat.succ_mul, Nat.mul_comm 2 s]
    _ = s * (2 ^ e * 2) + 2 ^ e := by rw [Nat.mul_assoc, Nat.mul_comm 2]
    _ = s * 2 ^ (e + 1) + 2 ^ e := by rw [Nat.pow_succ]

theorem spelled_append_two_pow (bits : Nat) (front back : List Nat) :
    spelled (2 ^ bits) (front ++ back) =
      spelled (2 ^ bits) front * 2 ^ (bits * back.length) +
        spelled (2 ^ bits) back := by
  rw [spelled_append, Nat.pow_mul]

theorem spelled_lt_two_pow (hpos : 0 < bits)
    (hback : ∀ digit ∈ back, digit < 2 ^ bits) :
    spelled (2 ^ bits) back < 2 ^ (bits * back.length) := by
  rw [Nat.pow_mul]
  exact spelled_lt (Nat.one_lt_two_pow (Nat.ne_of_gt hpos)) hback

/-- Digits that stop half-way are read as less than what they spell. -/
theorem ofNat_ne_ofRead_of_stopsHalfway (hpos : 0 < bits) (hbits : bits ≤ 900)
    (hdigits : ∀ digit ∈ digits, digit < 2 ^ bits)
    (hhalfway : StopsHalfway (2 ^ bits) digits)
    (hrange : spelled (2 ^ bits) digits < leading 972) :
    ofNat (spelled (2 ^ bits) digits) ≠
      ofRead (digits.foldl (accumulate (2 ^ bits)) (some 0)) := by
  obtain ⟨front, back, s, e, rfl, hfront, heven, hs, hsmall, hplace, hnonzero⟩ :=
    hhalfway
  have hback := (List.forall_mem_append.mp hdigits).2
  have hrest : 2 ^ e < 2 ^ (e + 1) :=
    Nat.pow_lt_pow_right (by decide) (Nat.lt_succ_self e)
  have hhalf := hfront.trans (halfway_eq s e)
  have hlow : 2 ^ 53 ≤ spelled (2 ^ bits) front := by
    have htwo : 2 ^ 1 ≤ 2 ^ (e + 1) :=
      Nat.pow_le_pow_right (by decide) (Nat.le_add_left 1 e)
    have hleast := Nat.mul_le_mul hs htwo
    omega
  have hhigh : spelled (2 ^ bits) front < 2 ^ 53 * 2 ^ bits := by
    have hmost := Nat.mul_le_mul hsmall hplace
    rw [Nat.succ_mul] at hmost
    omega
  rw [spelled_append_two_pow, hhalf] at hrange
  rw [ofRead_foldl hbits hback (fun _ => hlow) hhigh, ← Nat.pow_mul,
    spelled_append_two_pow, hhalf, ne_eq,
    ofNat_add_eq_iff hs hsmall hrest (spelled_lt_two_pow hpos hback)]
  exact fun hsame => hsame hrange ⟨rfl, heven,
    (spelled_ne_zero_iff (Nat.ne_of_gt (Nat.two_pow_pos bits))).mpr hnonzero⟩

/-- Other digits, and those of a number out of range, are read as the value nearest
to what they spell. -/
theorem ofNat_eq_ofRead_of_not_stopsHalfway (hpos : 0 < bits) (hbits : bits ≤ 900)
    (hdigits : ∀ digit ∈ digits, digit < 2 ^ bits)
    (hno : spelled (2 ^ bits) digits < leading 972 →
      ¬ StopsHalfway (2 ^ bits) digits) :
    ofNat (spelled (2 ^ bits) digits) =
      ofRead (digits.foldl (accumulate (2 ^ bits)) (some 0)) := by
  obtain ⟨front, back, rfl, hlow, hhigh⟩ :=
    exists_front (Nat.two_pow_pos bits) hdigits
  have hback := (List.forall_mem_append.mp hdigits).2
  rw [ofRead_foldl hbits hback hlow hhigh, ← Nat.pow_mul, spelled_append_two_pow]
  by_cases hnone : back = []
  · subst hnone
    rfl
  obtain ⟨q, e, rest, hfull, hnormal, hrest, hfront⟩ :=
    exists_normal_of_le (hlow hnone)
  rw [spelled_append_two_pow] at hno
  rw [hfront] at hno hhigh ⊢
  rw [ofNat_add_eq_iff hfull hnormal.small hrest (spelled_lt_two_pow hpos hback)]
  rintro hless ⟨rfl, heven, hbehind⟩
  refine hno hless ⟨front, back, q, e, rfl, hfront.trans (halfway_eq q e).symm,
    heven, hfull, hnormal.small, ?_,
    (spelled_ne_zero_iff (Nat.ne_of_gt (Nat.two_pow_pos bits))).mp hbehind⟩
  have hunit : leading (e + 1) < leading (bits + 1) := by
    rw [leading_succ bits]
    refine Nat.lt_of_le_of_lt ?_ hhigh
    exact Nat.le_add_right_of_le (Nat.mul_le_mul_right _ hfull)
  exact Nat.pow_le_pow_right (by decide)
    (Nat.le_of_lt_succ (lt_of_leading_lt hunit))

/-- The value that is read is nearest to what is spelled just if the number is out
of range or the digits do not stop half-way. -/
theorem isNearest_ofRead_iff (hpos : 0 < bits) (hbits : bits ≤ 900)
    (hdigits : ∀ digit ∈ digits, digit < 2 ^ bits) :
    IsNearest (spelled (2 ^ bits) digits)
        (ofRead (digits.foldl (accumulate (2 ^ bits)) (some 0))) ↔
      (spelled (2 ^ bits) digits < leading 972 →
        ¬ StopsHalfway (2 ^ bits) digits) := by
  rw [isNearest_iff, eq_comm]
  constructor
  · intro hsame hrange hhalfway
    exact ofNat_ne_ofRead_of_stopsHalfway hpos hbits hdigits hhalfway hrange hsame
  · exact ofNat_eq_ofRead_of_not_stopsHalfway hpos hbits hdigits

end Reading

/-- The letters that name a radix behind a zero. -/
def radixMarks : List (Char × Nat) :=
  [('x', 16), ('X', 16), ('b', 2), ('B', 2), ('o', 8), ('O', 8)]

/-- A text that is written in digits of a radix. -/
def IsDigits (radix : Nat) (text : List Char) (digits : List Nat) : Prop :=
  List.Forall₂ (fun c digit => CharClass.digitValue? radix c = some digit)
    text digits

/-- A literal in digits of a radix, greatest place first. -/
inductive SpellsRadix : List Char → Nat → List Nat → Prop
  /-- Behind a letter that names the radix. -/
  | marked {mark : Char} {radix : Nat} {text : List Char} {digits : List Nat}
      (hmark : (mark, radix) ∈ radixMarks) (htext : text ≠ [])
      (hdigits : IsDigits radix text digits) :
      SpellsRadix ('0' :: mark :: text) radix digits
  /-- Legacy octal, behind a zero alone. -/
  | legacy {text : List Char} {digits : List Nat} (htext : text ≠ [])
      (hdigits : IsDigits 8 text digits) :
      SpellsRadix ('0' :: text) 8 digits

theorem leading_eq_two_pow : leading 972 = 2 ^ 1024 := by decide +kernel

section Literals

variable {radix : Nat} {raw text : List Char} {digits : List Nat}

theorem IsDigits.digits_lt (hdigits : IsDigits radix text digits) :
    ∀ digit ∈ digits, digit < radix := by
  induction hdigits with
  | nil => exact fun _ hmem => nomatch hmem
  | cons hdigit _ ih =>
      exact List.forall_mem_cons.mpr ⟨CharClass.digitValue?_lt hdigit, ih⟩

theorem IsDigits.all_isOctalDigit (hdigits : IsDigits 8 text digits) :
    ∀ c ∈ text, CharClass.isOctalDigit c = true := by
  induction hdigits with
  | nil => exact fun _ hmem => nomatch hmem
  | cons hdigit _ ih =>
      exact List.forall_mem_cons.mpr
        ⟨CharClass.isOctalDigit_of_digitValue? hdigit, ih⟩

theorem radixDigits?_of_isDigits (htext : text ≠ [])
    (hdigits : IsDigits radix text digits) :
    radixDigits? radix text =
      some (ofRead (digits.foldl (accumulate radix) (some 0))) := by
  have hread : text.mapM (CharClass.digitValue? radix) = some digits := by
    clear htext
    induction hdigits with
    | nil => rfl
    | cons hdigit _ ih => rw [List.mapM_cons, hdigit, ih]; rfl
  rw [radixDigits?, if_neg (by simpa using htext), hread, Option.map_some]
  rfl

theorem ofLiteral?_of_spellsRadix
    (hspells : SpellsRadix (raw.filter (· != '_')) radix digits) :
    ofLiteral? raw =
      some (ofRead (digits.foldl (accumulate radix) (some 0))) := by
  rw [ofLiteral?]
  generalize raw.filter (· != '_') = text at hspells ⊢
  cases hspells with
  | marked hmark htext hdigits =>
    rw [← radixDigits?_of_isDigits htext hdigits]
    simp only [radixMarks, List.mem_cons, Prod.mk.injEq, List.not_mem_nil,
      or_false] at hmark
    rcases hmark with ⟨rfl, rfl⟩ | ⟨rfl, rfl⟩ | ⟨rfl, rfl⟩ | ⟨rfl, rfl⟩ |
      ⟨rfl, rfl⟩ | ⟨rfl, rfl⟩ <;> rfl
  | legacy htext hdigits =>
    rw [← radixDigits?_of_isDigits htext hdigits]
    cases hdigits with
    | nil => exact absurd rfl htext
    | @cons c _ rest _ hdigit hrest =>
      have hoctal := CharClass.isOctalDigit_of_digitValue? hdigit
      have hnot : ∀ mark, CharClass.isOctalDigit mark = false → ¬ c = mark := by
        rintro mark hmark rfl
        exact Bool.false_ne_true (hmark.symm.trans hoctal)
      have hlegacy : isLegacyOctal ('0' :: c :: rest) = true := by
        rw [isLegacyOctal, List.all_cons, hoctal, Bool.true_and]
        exact List.all_eq_true.mpr (IsDigits.all_isOctalDigit hrest)
      simp only [hnot 'x' (by decide), hnot 'X' (by decide), hnot 'b' (by decide),
        hnot 'B' (by decide), hnot 'o' (by decide), hnot 'O' (by decide),
        decide_false, Bool.or_self, Bool.false_eq_true, if_false, hlegacy,
        if_true]

theorem SpellsRadix.exists_bits (hspells : SpellsRadix text radix digits) :
    ∃ bits, radix = 2 ^ bits ∧ 0 < bits ∧ bits ≤ 4 := by
  cases hspells with
  | legacy => exact ⟨3, rfl, by decide, by decide⟩
  | marked hmark =>
    have hradix : ∀ pair ∈ radixMarks, pair.2 = 16 ∨ pair.2 = 2 ∨ pair.2 = 8 := by
      decide
    rcases hradix _ hmark with rfl | rfl | rfl
    · exact ⟨4, rfl, by decide, by decide⟩
    · exact ⟨1, rfl, by decide, by decide⟩
    · exact ⟨3, rfl, by decide, by decide⟩

theorem SpellsRadix.digits_lt (hspells : SpellsRadix text radix digits) :
    ∀ digit ∈ digits, digit < radix := by
  cases hspells with
  | legacy _ hdigits => exact hdigits.digits_lt
  | marked _ _ hdigits => exact hdigits.digits_lt

/-- Every radix literal has a value, the one nearest to what is left of it when the
digits behind the first number that does not fit are read as zeros.  That is the
one nearest to what is spelled, out of range or where the digits do not stop
half-way. -/
theorem ofLiteral?_spellsRadix
    (hspells : SpellsRadix (raw.filter (· != '_')) radix digits) :
    ∃ value, ofLiteral? raw = some value ∧
      (∃ front back, digits = front ++ back ∧
        (back ≠ [] → 2 ^ 53 ≤ spelled radix front) ∧
        spelled radix front < 2 ^ 53 * radix ∧
        IsNearest (spelled radix front * radix ^ back.length) value) ∧
      (IsNearest (spelled radix digits) value ↔
        (spelled radix digits < 2 ^ 1024 → ¬ StopsHalfway radix digits)) := by
  obtain ⟨bits, rfl, hpos, hbits⟩ := hspells.exists_bits
  have hdigits := hspells.digits_lt
  refine ⟨_, ofLiteral?_of_spellsRadix hspells, ?_, ?_⟩
  · obtain ⟨front, back, rfl, hlow, hhigh⟩ :=
      exists_front (Nat.two_pow_pos bits) hdigits
    refine ⟨front, back, rfl, hlow, hhigh, isNearest_iff.mpr ?_⟩
    exact ofRead_foldl (by omega) (List.forall_mem_append.mp hdigits).2 hlow hhigh
  · rw [← leading_eq_two_pow]
    exact isNearest_ofRead_iff hpos (by omega) hdigits

theorem ofLiteral?_spellsRadix_octal :
    SpellsRadix ("07_55".toList.filter (· != '_')) 8 [7, 5, 5] ∧
      ∃ value, ofLiteral? "07_55".toList = some value ∧
        (∃ front back, [7, 5, 5] = front ++ back ∧
          (back ≠ [] → 2 ^ 53 ≤ spelled 8 front) ∧
          spelled 8 front < 2 ^ 53 * 8 ∧
          IsNearest (spelled 8 front * 8 ^ back.length) value) ∧
        (IsNearest (spelled 8 [7, 5, 5]) value ↔
          (spelled 8 [7, 5, 5] < 2 ^ 1024 → ¬ StopsHalfway 8 [7, 5, 5])) := by
  have hspells : SpellsRadix ("07_55".toList.filter (· != '_')) 8 [7, 5, 5] :=
    .legacy (by decide) (.cons rfl (.cons rfl (.cons rfl .nil)))
  exact ⟨hspells, ofLiteral?_spellsRadix hspells⟩

/-- The eight stands half-way between two neighbours and is rounded down before the
one behind it is read. -/
theorem ofLiteral?_not_isNearest_halfway :
    SpellsRadix ("0x1000000000000081".toList.filter (· != '_')) 16
        (1 :: List.replicate 13 0 ++ [8, 1]) ∧
      spelled 16 (1 :: List.replicate 13 0 ++ [8, 1]) < 2 ^ 1024 ∧
      ∃ value, ofLiteral? "0x1000000000000081".toList = some value ∧
        ¬ IsNearest (spelled 16 (1 :: List.replicate 13 0 ++ [8, 1])) value := by
  refine ⟨.marked (by decide) (by decide) ?_, ?_, ofNat (2 ^ 60), ?_, ?_⟩
  · rw [IsDigits]
    decide
  · decide +kernel
  · decide +kernel
  · rw [isNearest_iff]
    decide +kernel

end Literals

end Binary64

end Bundler
