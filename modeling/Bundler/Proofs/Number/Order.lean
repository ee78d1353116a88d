import Bundler.Number.Binary64
import Bundler.Number.Literal
import Mathlib.Algebra.GroupWithZero.Nat
import Mathlib.Data.Int.Order.Basic

/-!
# Order and equality of numbers

A canonical value has at most 53 binary digits, and all of them unless its
exponent is zero.  The infinities stand for the power of two that would come
after the finite values, so that all values but NaN denote integers, counted in
units of `2 ^ -1074`, and the bits without the sign are a number that grows with
the magnitude.

Equality is an equivalence that tells NaN from all numbers, and equal values are
hashed alike.  The order is that of the numbers denoted, and it agrees with
equality, as long as no NaN takes part.  NaN comes level with every value though
it equals none but itself, so that it can stand between two values that are in
the wrong order.
-/

namespace Bundler

/-! ### Values and their bits -/

namespace Binary64

/-- The least magnitude with all 53 digits in front of a unit. -/
def leading (exponent : Nat) : Nat := 2 ^ 52 * 2 ^ exponent

theorem leading_le_leading {e e' : Nat} (hunit : e ≤ e') :
    leading e ≤ leading e' :=
  Nat.mul_le_mul_left _ (Nat.pow_le_pow_right (by decide) hunit)

theorem lt_of_leading_lt {e e' : Nat} (hless : leading e < leading e') :
    e < e' :=
  Nat.lt_of_not_le fun hunit => Nat.not_lt_of_ge (leading_le_leading hunit) hless

/-- A significand that has one digit more is the least one at the next unit. -/
theorem leading_succ (e : Nat) : leading (e + 1) = 2 ^ 53 * 2 ^ e := by
  rw [leading, ← Nat.pow_add, ← Nat.pow_add, Nat.add_comm e 1, ← Nat.add_assoc]

/-- A significand and an exponent as canonical values have them: 53 binary
digits, or fewer if there is no smaller unit. -/
structure IsNormal (significand exponent : Nat) : Prop where
  small : significand < 2 ^ 53
  full : exponent = 0 ∨ 2 ^ 52 ≤ significand

namespace IsNormal

variable {s e s' e' : Nat}

theorem mul_pow_lt_leading (hnormal : IsNormal s e) (hunit : e < e') :
    s * 2 ^ e < leading e' := by
  calc s * 2 ^ e < 2 ^ 53 * 2 ^ e :=
        Nat.mul_lt_mul_of_pos_right hnormal.small (Nat.two_pow_pos e)
    _ = leading (e + 1) := (leading_succ e).symm
    _ ≤ leading e' := leading_le_leading hunit

/-- A smaller number of bits is that of a smaller magnitude. -/
theorem mul_pow_lt (hnormal : IsNormal s e) (hother : IsNormal s' e')
    (hless : e * 2 ^ 52 + s < e' * 2 ^ 52 + s') :
    s * 2 ^ e < s' * 2 ^ e' := by
  have hsmall := hnormal.small
  have hsmall' := hother.small
  rcases Nat.lt_trichotomy e e' with hexp | rfl | hexp
  · have hfull : 2 ^ 52 ≤ s' := hother.full.resolve_left (by omega)
    exact Nat.lt_of_lt_of_le (hnormal.mul_pow_lt_leading hexp)
      (Nat.mul_le_mul_right _ hfull)
  · have hsignificand : s < s' := by omega
    exact Nat.mul_lt_mul_of_pos_right hsignificand (Nat.two_pow_pos e)
  · have hfull : 2 ^ 52 ≤ s := hnormal.full.resolve_left (by omega)
    omega

/-- The bits determine significand and exponent. -/
theorem eq_of_bits_eq (hnormal : IsNormal s e) (hother : IsNormal s' e')
    (hsame : e * 2 ^ 52 + s = e' * 2 ^ 52 + s') : s = s' ∧ e = e' := by
  have hsmall := hnormal.small
  have hsmall' := hother.small
  have hfull := hnormal.full
  have hfull' := hother.full
  omega

theorem mul_pow_lt_iff (hnormal : IsNormal s e) (hother : IsNormal s' e') :
    s * 2 ^ e < s' * 2 ^ e' ↔ e * 2 ^ 52 + s < e' * 2 ^ 52 + s' := by
  refine ⟨fun hless => ?_, hnormal.mul_pow_lt hother⟩
  rcases Nat.lt_trichotomy (e * 2 ^ 52 + s) (e' * 2 ^ 52 + s')
    with hbits | hbits | hbits
  · exact hbits
  · obtain ⟨rfl, rfl⟩ := hnormal.eq_of_bits_eq hother hbits
    exact absurd hless (Nat.lt_irrefl _)
  · exact absurd hless (Nat.lt_asymm (hother.mul_pow_lt hnormal hbits))

end IsNormal

/-- The significand; that of an infinity is the least one with 53 digits. -/
def significand : Binary64 → Nat
  | .nan => 0
  | .infinity _ => 2 ^ 52
  | .finite _ significand _ => significand

/-- The exponent; that of an infinity is the first one that no finite value
has. -/
def exponent : Binary64 → Nat
  | .nan => 0
  | .infinity _ => 2046
  | .finite _ _ exponent => exponent

/-- The values that the encoding has, each in its one form. -/
def IsCanonical (value : Binary64) : Prop :=
  IsNormal value.significand value.exponent ∧
    (value.isFinite = true → value.exponent < 2046)

/-- The magnitude in units of `2 ^ -1074`. -/
def size (value : Binary64) : Nat := value.significand * 2 ^ value.exponent

/-- The number that a value denotes, in units of `2 ^ -1074`. -/
def number (value : Binary64) : Int :=
  if value.isNegative then -(value.size : Int) else value.size

variable {x y : Binary64}

theorem isCanonical_infinity (negative : Bool) :
    (infinity negative).IsCanonical :=
  ⟨⟨by simp [significand], .inr (Nat.le_refl _)⟩, fun hfinite => by cases hfinite⟩

theorem isCanonical_finite {s e : Nat} (negative : Bool) (hnormal : IsNormal s e)
    (hrange : e < 2046) : (finite negative s e).IsCanonical :=
  ⟨hnormal, fun _ => hrange⟩

theorem size_infinity (negative : Bool) : (infinity negative).size = leading 2046 := by
  rw [size, significand, exponent, leading]

theorem magnitude_eq (hnumber : x ≠ .nan) :
    x.magnitude = x.exponent * 2 ^ 52 + x.significand := by
  cases x with
  | nan => exact absurd rfl hnumber
  | infinity negative => cases negative <;> decide
  | finite negative significand exponent => rfl

theorem size_lt_size_iff (hx : x.IsCanonical) (hy : y.IsCanonical)
    (hnumber : x ≠ .nan) (hother : y ≠ .nan) :
    x.size < y.size ↔ x.magnitude < y.magnitude := by
  rw [magnitude_eq hnumber, magnitude_eq hother]
  exact hx.1.mul_pow_lt_iff hy.1

theorem size_pos_iff (hnumber : x ≠ .nan) (hx : x.IsCanonical) :
    0 < x.size ↔ 0 < x.magnitude := by
  have hzero : (zero false).IsCanonical :=
    isCanonical_finite false ⟨by decide, .inl rfl⟩ (by decide)
  exact size_lt_size_iff hzero hx Binary64.noConfusion hnumber

theorem size_eq_size_iff (hx : x.IsCanonical) (hy : y.IsCanonical)
    (hnumber : x ≠ .nan) (hother : y ≠ .nan) :
    x.size = y.size ↔ x.magnitude = y.magnitude := by
  have hless := size_lt_size_iff hx hy hnumber hother
  have hgreater := size_lt_size_iff hy hx hother hnumber
  omega

theorem number_lt_number_iff (hx : x.IsCanonical) (hy : y.IsCanonical)
    (hnumber : x ≠ .nan) (hother : y ≠ .nan) :
    x.number < y.number ↔ x.orderKey < y.orderKey := by
  have hless := size_lt_size_iff hx hy hnumber hother
  have hgreater := size_lt_size_iff hy hx hother hnumber
  have hzero := size_pos_iff hnumber hx
  have hzero' := size_pos_iff hother hy
  unfold number orderKey
  split <;> split <;> omega

/-- A value that is not negative is determined by its magnitude. -/
theorem eq_of_magnitude_eq (hx : x.IsCanonical) (hy : y.IsCanonical)
    (hnumber : x ≠ .nan) (hother : y ≠ .nan)
    (hsign : x.isNegative = y.isNegative)
    (hsame : x.magnitude = y.magnitude) : x = y := by
  rw [magnitude_eq hnumber, magnitude_eq hother] at hsame
  obtain ⟨hsignificand, hexponent⟩ := hx.1.eq_of_bits_eq hy.1 hsame
  cases x with
  | nan => exact absurd rfl hnumber
  | infinity negative =>
      cases y with
      | nan => exact absurd rfl hother
      | infinity other => exact congrArg infinity hsign
      | finite other significand exponent =>
          exact absurd hexponent.symm (Nat.ne_of_lt (hy.2 rfl))
  | finite negative significand exponent =>
      cases y with
      | nan => exact absurd rfl hother
      | infinity other => exact absurd hexponent (Nat.ne_of_lt (hx.2 rfl))
      | finite other significand' exponent' =>
          obtain rfl : negative = other := hsign
          obtain rfl : significand = significand' := hsignificand
          obtain rfl : exponent = exponent' := hexponent
          rfl

theorem magnitude_le (hx : x.IsCanonical) (hnumber : x ≠ .nan) :
    x.magnitude ≤ 2047 * 2 ^ 52 := by
  cases x with
  | nan => exact absurd rfl hnumber
  | infinity negative => exact Nat.le_refl _
  | finite negative s e =>
      have hsmall : s < 2 ^ 53 := hx.1.small
      have hrange : e < 2046 := hx.2 rfl
      simp only [magnitude, Nat.pow_eq]
      omega

/-- Every number of bits up to that of the infinities belongs to a value. -/
theorem exists_magnitude {bits : Nat} (hbits : bits ≤ 2047 * 2 ^ 52) :
    ∃ x : Binary64, x.IsCanonical ∧ x ≠ .nan ∧ x.isNegative = false ∧
      x.magnitude = bits := by
  by_cases hsmall : bits < 2 ^ 53
  · exact ⟨.finite false bits 0,
      isCanonical_finite false ⟨hsmall, .inl rfl⟩ (by decide),
      Binary64.noConfusion, rfl, by simp [magnitude]⟩
  by_cases hlast : bits = 2047 * 2 ^ 52
  · exact ⟨.infinity false, isCanonical_infinity false, Binary64.noConfusion,
      rfl, hlast.symm⟩
  refine ⟨.finite false (2 ^ 52 + bits % 2 ^ 52) (bits / 2 ^ 52 - 1),
    isCanonical_finite false ⟨?_, .inr (Nat.le_add_right _ _)⟩ ?_,
    Binary64.noConfusion, rfl, ?_⟩
  · omega
  · omega
  · simp only [magnitude, Nat.pow_eq]
    omega

/-- No magnitude is greater than that of the infinities. -/
theorem size_le (hx : x.IsCanonical) : x.size ≤ leading 2046 := by
  cases x with
  | nan =>
      simp only [size, significand, Nat.zero_mul]
      exact Nat.zero_le _
  | infinity negative => exact Nat.le_of_eq (size_infinity negative)
  | finite negative s e =>
      exact Nat.le_of_lt (hx.1.mul_pow_lt_leading (hx.2 rfl))

/-- A magnitude is a multiple of a unit, or less than any that has all 53 digits in
front of that unit. -/
theorem size_cases (hx : x.IsCanonical) (e : Nat) :
    (∃ other, x.size = other * 2 ^ e) ∨
      e ≠ 0 ∧ x.size < leading e := by
  rcases Nat.lt_or_ge x.exponent e with hless | hmore
  · exact .inr ⟨by omega, hx.1.mul_pow_lt_leading hless⟩
  · refine .inl ⟨x.significand * 2 ^ (x.exponent - e), ?_⟩
    rw [Nat.mul_assoc, ← Nat.pow_add, Nat.sub_add_cancel hmore]
    rfl

end Binary64

/-! ### Order and equality -/

namespace Binary64

variable {x y z : Binary64}

theorem sameValue_iff :
    x.sameValue y = true ↔
      x = .nan ∧ y = .nan ∨
        x ≠ .nan ∧ y ≠ .nan ∧ x.orderKey = y.orderKey := by
  cases x <;> cases y <;> simp [sameValue]

theorem equivalence_sameValue :
    Equivalence fun x y : Binary64 => x.sameValue y = true where
  refl x := by
    rw [sameValue_iff]
    by_cases hx : x = .nan
    · exact .inl ⟨hx, hx⟩
    · exact .inr ⟨hx, hx, rfl⟩
  symm hsame := by
    rw [sameValue_iff] at hsame ⊢
    rcases hsame with ⟨hx, hy⟩ | ⟨hx, hy, hkey⟩
    · exact .inl ⟨hy, hx⟩
    · exact .inr ⟨hy, hx, hkey.symm⟩
  trans hfirst hsecond := by
    rw [sameValue_iff] at hfirst hsecond ⊢
    rcases hfirst with ⟨hx, hy⟩ | ⟨hx, hy, hkey⟩
    · rcases hsecond with ⟨_, hz⟩ | ⟨hnot, _⟩
      · exact .inl ⟨hx, hz⟩
      · exact absurd hy hnot
    · rcases hsecond with ⟨hnan, _⟩ | ⟨_, hz, hnext⟩
      · exact absurd hnan hy
      · exact .inr ⟨hx, hz, hkey.trans hnext⟩

/-- The order key holds all of the bits, but for the sign of a zero. -/
theorem bits_eq_of_orderKey_eq (hsame : x.orderKey = y.orderKey)
    (hzero : x.orderKey ≠ 0) : x.bits = y.bits := by
  unfold orderKey at hsame hzero
  unfold bits
  cases hx : x.isNegative <;> cases hy : y.isNegative <;>
    simp only [hx, hy, if_true, if_false, Bool.false_eq_true] at hsame hzero ⊢ <;>
    omega

theorem hashKey_eq (hx : x ≠ .nan) :
    x.hashKey = if x.orderKey = 0 then some 0 else some x.bits := by
  cases x with
  | nan => exact absurd rfl hx
  | infinity | finite => rfl

theorem hashKey_eq_of_sameValue (hsame : x.sameValue y = true) :
    x.hashKey = y.hashKey := by
  rw [sameValue_iff] at hsame
  rcases hsame with ⟨rfl, rfl⟩ | ⟨hx, hy, hkey⟩
  · rfl
  · rw [hashKey_eq hx, hashKey_eq hy, ← hkey]
    split
    · rfl
    · rename_i hzero
      rw [bits_eq_of_orderKey_eq hkey hzero]

theorem order_eq_of_nan (hnan : x = .nan ∨ y = .nan) : x.order y = .eq := by
  rcases hnan with rfl | rfl
  · rfl
  · cases x <;> rfl

theorem order_eq_compare (hx : x ≠ .nan) (hy : y ≠ .nan) :
    x.order y = compare x.orderKey y.orderKey := by
  cases x with
  | nan => exact absurd rfl hx
  | infinity | finite =>
      cases y with
      | nan => exact absurd rfl hy
      | infinity | finite => rfl

theorem isLE_order_iff (hx : x ≠ .nan) (hy : y ≠ .nan) :
    (x.order y).isLE = true ↔ x.orderKey ≤ y.orderKey := by
  rw [order_eq_compare hx hy, Ordering.isLE_iff_ne_gt]
  exact compare_le_iff_le

/-- Canonical values are ordered as the numbers that they denote. -/
theorem order_eq_compare_number (hx : x.IsCanonical) (hy : y.IsCanonical)
    (hnumber : x ≠ .nan) (hother : y ≠ .nan) :
    x.order y = compare x.number y.number := by
  have hless := number_lt_number_iff hx hy hnumber hother
  have hgreater := number_lt_number_iff hy hx hother hnumber
  rw [order_eq_compare hnumber hother]
  rcases Int.lt_trichotomy x.orderKey y.orderKey with hkey | hkey | hkey
  · rw [compare_lt_iff_lt.mpr hkey, compare_lt_iff_lt.mpr (hless.mpr hkey)]
  · have hsame : x.number = y.number := by omega
    rw [hkey, hsame, compare_eq_iff_eq.mpr rfl, compare_eq_iff_eq.mpr rfl]
  · rw [compare_gt_iff_gt.mpr hkey, compare_gt_iff_gt.mpr (hgreater.mpr hkey)]

theorem order_swap (x y : Binary64) : y.order x = (x.order y).swap := by
  by_cases hx : x = .nan
  · rw [order_eq_of_nan (.inl hx), order_eq_of_nan (.inr hx)]
    rfl
  by_cases hy : y = .nan
  · rw [order_eq_of_nan (.inr hy), order_eq_of_nan (.inl hy)]
    rfl
  rw [order_eq_compare hx hy, order_eq_compare hy hx, Std.OrientedOrd.eq_swap]

theorem order_eq_iff :
    x.order y = .eq ↔ x.sameValue y = true ∨ x = .nan ∨ y = .nan := by
  by_cases hnan : x = .nan ∨ y = .nan
  · simp only [order_eq_of_nan hnan, hnan, or_true]
  · have hnumbers := not_or.mp hnan
    simp only [hnan, or_false]
    rw [order_eq_compare hnumbers.1 hnumbers.2, sameValue_iff,
      compare_eq_iff_eq]
    simp [hnumbers.1, hnumbers.2]

/-- Being level agrees with equality just where both values are NaN or none. -/
theorem order_agrees_iff :
    (x.order y = .eq ↔ x.sameValue y = true) ↔ (x = .nan ↔ y = .nan) := by
  rw [order_eq_iff, sameValue_iff]
  by_cases hx : x = .nan <;> by_cases hy : y = .nan <;> simp [hx, hy]

/-- The order of three values is transitive unless NaN stands between two that
are in the wrong order. -/
theorem order_trans_iff :
    ((x.order y).isLE = true → (y.order z).isLE = true →
        (x.order z).isLE = true) ↔
      ¬ (y = .nan ∧ x.order z = .gt) := by
  have hwrong : (x.order z).isLE = true ↔ x.order z ≠ .gt :=
    Ordering.isLE_iff_ne_gt
  by_cases hy : y = .nan
  · have hfirst : (x.order y).isLE = true := by
      rw [order_eq_of_nan (.inr hy)]
      rfl
    have hsecond : (y.order z).isLE = true := by
      rw [order_eq_of_nan (.inl hy)]
      rfl
    subst hy
    simp only [hfirst, hsecond, true_imp_iff, hwrong, ne_eq, true_and]
  · simp only [hy, false_and, not_false_iff, iff_true]
    intro hfirst hsecond
    by_cases hnan : x = .nan ∨ z = .nan
    · rw [order_eq_of_nan hnan]
      rfl
    · obtain ⟨hx, hz⟩ := not_or.mp hnan
      rw [isLE_order_iff hx hy] at hfirst
      rw [isLE_order_iff hy hz] at hsecond
      rw [isLE_order_iff hx hz]
      exact Int.le_trans hfirst hsecond

/-- Equality is an equivalence and equal values are hashed alike.  To compare the
other way round swaps the answer.  Two values are level just if they are equal,
but for NaN and any other value; three values are ordered transitively, unless
the one between is NaN and the others are in the wrong order.  Numbers are
ordered as what they denote. -/
theorem order_laws (x y z : Binary64) :
    x.sameValue x = true ∧
    (x.sameValue y = true → y.sameValue x = true) ∧
    (x.sameValue y = true → y.sameValue z = true → x.sameValue z = true) ∧
    (x.sameValue y = true → x.hashKey = y.hashKey) ∧
    y.order x = (x.order y).swap ∧
    ((x.order y = .eq ↔ x.sameValue y = true) ↔ (x = .nan ↔ y = .nan)) ∧
    (((x.order y).isLE = true → (y.order z).isLE = true →
        (x.order z).isLE = true) ↔
      ¬ (y = .nan ∧ x.order z = .gt)) ∧
    (x.IsCanonical → y.IsCanonical → x ≠ .nan → y ≠ .nan →
      x.order y = compare x.number y.number) :=
  ⟨equivalence_sameValue.refl x, equivalence_sameValue.symm,
    equivalence_sameValue.trans, hashKey_eq_of_sameValue, order_swap x y,
    order_agrees_iff, order_trans_iff, order_eq_compare_number⟩

/-- The zeros are equal and hashed alike, and one is less than infinity. -/
theorem order_laws_zeros :
    (zero true).sameValue (zero false) = true ∧
      (zero true).hashKey = (zero false).hashKey ∧
      ((finite false (2 ^ 52) 1022).order (.infinity false) = .eq ↔
        (finite false (2 ^ 52) 1022).sameValue (.infinity false) = true) ∧
      (finite false (2 ^ 52) 1022).order (.infinity false) =
        compare (finite false (2 ^ 52) 1022).number (infinity false).number := by
  have hzeros : (zero true).sameValue (zero false) = true := by decide
  have hone : (finite false (2 ^ 52) 1022).IsCanonical :=
    ⟨⟨by decide, .inr (Nat.le_refl _)⟩, fun _ => by decide⟩
  have hinfinity : (infinity false).IsCanonical :=
    ⟨⟨by decide, .inr (Nat.le_refl _)⟩, fun hfinite => by cases hfinite⟩
  obtain ⟨-, -, -, hhash, -⟩ := order_laws (zero true) (zero false) .nan
  obtain ⟨-, -, -, -, -, hagrees, -, hnumbers⟩ :=
    order_laws (finite false (2 ^ 52) 1022) (infinity false) .nan
  exact ⟨hzeros, hhash hzeros,
    hagrees.mpr ⟨Binary64.noConfusion, Binary64.noConfusion⟩,
    hnumbers hone hinfinity Binary64.noConfusion Binary64.noConfusion⟩

/-- NaN, which the text of a number can spell, is level with one and is not equal
to it, and stands between one and zero as if they were in order. -/
theorem order_unlawful_nan :
    ofLiteral? "nan".toList = some .nan ∧
      ofLiteral? "1".toList = some (.finite false (2 ^ 52) 1022) ∧
      nan.order (.finite false (2 ^ 52) 1022) = .eq ∧
      nan.sameValue (.finite false (2 ^ 52) 1022) = false ∧
      ((Binary64.finite false (2 ^ 52) 1022).order .nan).isLE = true ∧
      (nan.order (zero false)).isLE = true ∧
      ((Binary64.finite false (2 ^ 52) 1022).order (zero false)).isLE =
        false := by
  decide +kernel

end Binary64

end Bundler
