import Bundler.Proofs.Number.Order

/-!
# Rounding to the nearest value

A natural number is rounded at the place of its 53rd binary digit, a half to the
even neighbour.  Numbers with 53 digits or fewer in front of their zeros are kept,
and zeros behind a number do not change how it is rounded.  The value made from a
number is the one canonical value that is nearest to it.
-/

namespace Bundler

namespace Binary64

section Quotients

variable {quotient rest den : Nat}

theorem roundDiv_mul_add (hrest : rest < den) :
    roundDiv (quotient * den + rest) den =
      if 2 * rest < den then quotient
      else if den < 2 * rest then quotient + 1
      else quotient + quotient % 2 := by
  have hden : 0 < den := Nat.zero_lt_of_lt hrest
  have hquotient : (quotient * den + rest) / den = quotient := by
    rw [Nat.add_comm, Nat.add_mul_div_right _ _ hden, Nat.div_eq_of_lt hrest,
      Nat.zero_add]
  have hremainder : (quotient * den + rest) % den = rest := by
    rw [Nat.add_comm, Nat.add_mul_mod_self_right, Nat.mod_eq_of_lt hrest]
  rw [roundDiv, hquotient, hremainder]

theorem roundDiv_mul (hden : 0 < den) :
    roundDiv (quotient * den) den = quotient := by
  have hexact := @roundDiv_mul_add quotient 0 den hden
  rw [Nat.add_zero] at hexact
  rw [hexact, if_pos (by omega)]

theorem roundDiv_mul_mul {scale : Nat} (hrest : rest < den) (hscale : 0 < scale) :
    roundDiv (quotient * (den * scale) + rest * scale) (den * scale) =
      roundDiv (quotient * den + rest) den := by
  rw [roundDiv_mul_add hrest,
    roundDiv_mul_add (Nat.mul_lt_mul_of_pos_right hrest hscale),
    ← Nat.mul_assoc]
  simp only [Nat.mul_lt_mul_right hscale]

/-- The rounded quotient gives a nearest multiple, which is the even one if there
are two. -/
theorem nearest_roundDiv (hrest : rest < den) (other : Nat) :
    ((quotient * den + rest : Nat) -
        (roundDiv (quotient * den + rest) den * den : Nat) : Int).natAbs ≤
      ((quotient * den + rest : Nat) - (other * den : Nat) : Int).natAbs ∧
    (((quotient * den + rest : Nat) - (other * den : Nat) : Int).natAbs =
        ((quotient * den + rest : Nat) -
          (roundDiv (quotient * den + rest) den * den : Nat) : Int).natAbs →
      other ≠ roundDiv (quotient * den + rest) den →
      roundDiv (quotient * den + rest) den % 2 = 0) := by
  have hup : (quotient + 1) * den = quotient * den + den :=
    Nat.succ_mul quotient den
  have hside : other * den + den ≤ quotient * den ∨ other = quotient ∨
      other = quotient + 1 ∨ quotient * den + 2 * den ≤ other * den := by
    rcases Nat.lt_or_ge other quotient with hless | hmore
    · have hbelow := Nat.mul_le_mul_right den hless
      rw [Nat.succ_mul] at hbelow
      exact .inl hbelow
    · rcases Nat.lt_or_ge (quotient + 1) other with habove | hclose
      · have hfar := Nat.mul_le_mul_right den habove
        rw [Nat.succ_mul, Nat.succ_mul] at hfar
        exact .inr (.inr (.inr (by omega)))
      · omega
  rw [roundDiv_mul_add hrest]
  have heven : (quotient + quotient % 2) * den = quotient * den ∨
      quotient % 2 = 1 ∧ quotient + quotient % 2 = quotient + 1 := by
    rcases Nat.mod_two_eq_zero_or_one quotient with hparity | hparity
    · exact .inl (by rw [hparity, Nat.add_zero])
    · exact .inr ⟨hparity, by rw [hparity]⟩
  split
  · rcases hside with hother | rfl | rfl | hother <;> omega
  · split
    · rcases hside with hother | rfl | rfl | hother <;> omega
    · rcases heven with heven | ⟨hodd, heven⟩
      · rcases hside with hother | rfl | rfl | hother <;> omega
      · rw [heven]
        rcases hside with hother | rfl | rfl | hother <;> omega

end Quotients

section Numbers

variable {q e rest n : Nat}

theorem bitLength_le_iff {size : Nat} : bitLength n ≤ size ↔ n < 2 ^ size := by
  rw [bitLength]
  split
  · rename_i hzero
    exact iff_of_true (Nat.zero_le size) (hzero ▸ Nat.two_pow_pos size)
  · rename_i hzero
    exact Nat.log2_lt hzero

/-- What is left of a number in front of its 53rd digit, and the rest. -/
theorem exists_normal (n : Nat) :
    ∃ q e rest, IsNormal q e ∧ rest < 2 ^ e ∧ n = q * 2 ^ e + rest := by
  have hbits : n < 2 ^ bitLength n := bitLength_le_iff.mp (Nat.le_refl _)
  have hpos : 0 < 2 ^ (bitLength n - 53) := Nat.two_pow_pos _
  refine ⟨n / 2 ^ (bitLength n - 53), bitLength n - 53,
    n % 2 ^ (bitLength n - 53), ⟨?_, ?_⟩, Nat.mod_lt _ hpos,
    (Nat.div_add_mod' n _).symm⟩
  · rw [Nat.div_lt_iff_lt_mul hpos, ← Nat.pow_add]
    exact Nat.lt_of_lt_of_le hbits (Nat.pow_le_pow_right (by decide) (by omega))
  · by_cases hshift : bitLength n - 53 = 0
    · exact .inl hshift
    · refine .inr ((Nat.le_div_iff_mul_le hpos).mpr ?_)
      rw [← Nat.pow_add, ← Nat.not_lt, ← bitLength_le_iff]
      omega

theorem bitLength_sub_eq (hnormal : IsNormal q e) (hrest : rest < 2 ^ e) :
    bitLength (q * 2 ^ e + rest) - 53 = e := by
  have hbelow : q * 2 ^ e + rest < 2 ^ (53 + e) := by
    have hnext : (q + 1) * 2 ^ e ≤ 2 ^ 53 * 2 ^ e :=
      Nat.mul_le_mul_right _ hnormal.small
    rw [Nat.succ_mul, ← Nat.pow_add] at hnext
    omega
  have hlow := bitLength_le_iff.mpr hbelow
  rcases hnormal.full with hzero | hfull
  · omega
  · have habove : 2 ^ (52 + e) ≤ q * 2 ^ e := by
      rw [Nat.pow_add]
      exact Nat.mul_le_mul_right _ hfull
    have hhigh : ¬ bitLength (q * 2 ^ e + rest) ≤ 52 + e := by
      rw [bitLength_le_iff]
      omega
    omega

theorem roundNat_eq (hnormal : IsNormal q e) (hrest : rest < 2 ^ e) :
    roundNat (q * 2 ^ e + rest) =
      roundDiv (q * 2 ^ e + rest) (2 ^ e) * 2 ^ e := by
  rw [roundNat, bitLength_sub_eq hnormal hrest, Nat.pow_eq]

/-- A number of at most 53 digits with zeros behind it is kept. -/
theorem roundNat_mul_pow_of_lt (hsmall : n < 2 ^ 53) (zeros : Nat) :
    roundNat (n * 2 ^ zeros) = n * 2 ^ zeros := by
  have hlength : bitLength (n * 2 ^ zeros) ≤ 53 + zeros := by
    rw [bitLength_le_iff, Nat.pow_add]
    exact Nat.mul_lt_mul_of_pos_right hsmall (Nat.two_pow_pos zeros)
  obtain ⟨fewer, hfewer⟩ :=
    Nat.le.dest (show bitLength (n * 2 ^ zeros) - 53 ≤ zeros by omega)
  rw [roundNat, Nat.pow_eq]
  generalize bitLength (n * 2 ^ zeros) - 53 = shift at hfewer ⊢
  rw [← hfewer, Nat.add_comm shift, Nat.pow_add, ← Nat.mul_assoc,
    roundDiv_mul (Nat.two_pow_pos shift)]

theorem roundNat_of_lt (hsmall : n < 2 ^ 53) : roundNat n = n := by
  have hkept := roundNat_mul_pow_of_lt hsmall 0
  rwa [Nat.pow_zero, Nat.mul_one] at hkept

/-- Zeros behind a number do not change how it is rounded. -/
theorem roundNat_mul_pow (n zeros : Nat) :
    roundNat (n * 2 ^ zeros) = roundNat n * 2 ^ zeros := by
  by_cases hsmall : n < 2 ^ 53
  · rw [roundNat_mul_pow_of_lt hsmall, roundNat_of_lt hsmall]
  obtain ⟨q, e, rest, hnormal, hrest, rfl⟩ := exists_normal n
  have hfull : 2 ^ 52 ≤ q := by
    refine hnormal.full.resolve_left fun hzero => hsmall ?_
    subst hzero
    have hnone : rest = 0 := Nat.lt_one_iff.mp hrest
    rw [hnone, Nat.pow_zero, Nat.mul_one]
    exact hnormal.small
  have hlonger : IsNormal q (e + zeros) := ⟨hnormal.small, .inr hfull⟩
  have hrest' : rest * 2 ^ zeros < 2 ^ (e + zeros) := by
    rw [Nat.pow_add]
    exact Nat.mul_lt_mul_of_pos_right hrest (Nat.two_pow_pos zeros)
  rw [Nat.add_mul, Nat.mul_assoc, ← Nat.pow_add, roundNat_eq hlonger hrest',
    roundNat_eq hnormal hrest, Nat.pow_add,
    roundDiv_mul_mul hrest (Nat.two_pow_pos zeros), Nat.mul_assoc]

theorem roundDiv_le (hnormal : IsNormal q e) (hrest : rest < 2 ^ e) :
    q ≤ roundDiv (q * 2 ^ e + rest) (2 ^ e) ∧
      roundDiv (q * 2 ^ e + rest) (2 ^ e) ≤ 2 ^ 53 := by
  have hsmall := hnormal.small
  rw [roundDiv_mul_add hrest]
  split
  · omega
  · split <;> omega

end Numbers

section Values

/-- How far a value is from a natural number, in units of `2 ^ -1074`. -/
def distance (n : Nat) (x : Binary64) : Nat :=
  ((n * unit : Nat) - x.number).natAbs

/-- A value is nearest to a natural number, and has an even significand if another
one is as near.  Infinity stands for the power of two after the finite values. -/
structure IsNearest (n : Nat) (x : Binary64) : Prop where
  canonical : x.IsCanonical
  isNumber : x ≠ .nan
  notNegative : x.isNegative = false
  nearest : ∀ y : Binary64, y.IsCanonical → y ≠ .nan →
    distance n x ≤ distance n y
  even : ∀ y : Binary64, y.IsCanonical → y ≠ .nan → y ≠ x →
    distance n y = distance n x → x.magnitude % 2 = 0

variable {q e rest n : Nat} {x y : Binary64}

theorem distance_of_notNegative (hsign : x.isNegative = false) :
    distance n x = ((n * unit : Nat) - (x.size : Nat) : Int).natAbs := by
  rw [distance, number, hsign]
  rfl

/-- The value made of a number of units: its size is that number rounded, unless
it is out of range. -/
theorem ofUnits_cases (hnormal : IsNormal q e) (hrest : rest < 2 ^ e) :
    (ofUnits false (q * 2 ^ e + rest) 1).IsCanonical ∧
      ofUnits false (q * 2 ^ e + rest) 1 ≠ .nan ∧
      (ofUnits false (q * 2 ^ e + rest) 1).isNegative = false ∧
      ((ofUnits false (q * 2 ^ e + rest) 1).size =
            roundDiv (q * 2 ^ e + rest) (2 ^ e) * 2 ^ e ∧
          (roundDiv (q * 2 ^ e + rest) (2 ^ e) % 2 = 0 →
            (ofUnits false (q * 2 ^ e + rest) 1).magnitude % 2 = 0) ∨
        ofUnits false (q * 2 ^ e + rest) 1 = .infinity false ∧ 2046 ≤ e) := by
  obtain ⟨hleast, hmost⟩ := roundDiv_le hnormal hrest
  have hfull := hnormal.full
  simp only [ofUnits, Nat.div_one, Nat.one_mul, bitLength_sub_eq hnormal hrest,
    Nat.pow_eq]
  generalize roundDiv (q * 2 ^ e + rest) (2 ^ e) = near at hleast hmost ⊢
  by_cases hcarry : near = 2 ^ 53
  · simp only [hcarry, if_true]
    have hnext := leading_succ e
    by_cases hout : 2046 ≤ e + 1
    · rw [if_pos hout]
      refine ⟨isCanonical_infinity false, Binary64.noConfusion, rfl, ?_⟩
      by_cases hlast : e + 1 = 2046
      · refine .inl ⟨?_, fun _ => by decide⟩
        rw [size_infinity, ← hnext, hlast]
      · exact .inr ⟨rfl, by omega⟩
    · rw [if_neg hout]
      refine ⟨isCanonical_finite false ⟨by decide, .inr (Nat.le_refl _)⟩
        (Nat.lt_of_not_le hout), Binary64.noConfusion, rfl,
        .inl ⟨hnext, fun _ => ?_⟩⟩
      simp only [magnitude, Nat.pow_eq]
      omega
  · simp only [hcarry, if_false]
    by_cases hout : 2046 ≤ e
    · rw [if_pos hout]
      exact ⟨isCanonical_infinity false, Binary64.noConfusion, rfl,
        .inr ⟨rfl, hout⟩⟩
    · rw [if_neg hout]
      have hnear : IsNormal near e :=
        ⟨by omega, hfull.imp_right fun hq => Nat.le_trans hq hleast⟩
      refine ⟨isCanonical_finite false hnear (Nat.lt_of_not_le hout),
        Binary64.noConfusion, rfl, .inl ⟨rfl, fun heven => ?_⟩⟩
      simp only [magnitude, Nat.pow_eq]
      omega

/-- A nearest value among those that are not negative is a nearest one of all. -/
theorem isNearest_of_size (hx : x.IsCanonical) (hnumber : x ≠ .nan)
    (hsign : x.isNegative = false)
    (hnearest : ∀ y : Binary64, y.IsCanonical →
      ((n * unit : Nat) - (x.size : Nat) : Int).natAbs ≤
          ((n * unit : Nat) - (y.size : Nat) : Int).natAbs ∧
        (((n * unit : Nat) - (y.size : Nat) : Int).natAbs =
            ((n * unit : Nat) - (x.size : Nat) : Int).natAbs →
          y.size ≠ x.size → x.magnitude % 2 = 0)) :
    IsNearest n x := by
  have hzero : (zero false).IsCanonical :=
    isCanonical_finite false ⟨by decide, .inl rfl⟩ (by decide)
  have hnone : (zero false).size = 0 := by decide
  obtain ⟨horigin, hback⟩ := hnearest (zero false) hzero
  rw [hnone] at horigin hback
  refine ⟨hx, hnumber, hsign, fun y hy hother => ?_, fun y hy hother hne htie => ?_⟩
  · rw [distance_of_notNegative hsign]
    have hside := (hnearest y hy).1
    unfold distance number
    split <;> omega
  · rw [distance_of_notNegative hsign] at htie
    unfold distance number at htie
    cases hneg : y.isNegative with
    | false =>
        rw [hneg] at htie
        refine (hnearest y hy).2 htie fun hsame => hne ?_
        exact eq_of_magnitude_eq hy hx hother hnumber (hneg.trans hsign.symm)
          ((size_eq_size_iff hy hx hother hnumber).mp hsame)
    | true =>
        -- A negative value is as near as zero only if it is a zero.
        rw [hneg] at htie
        simp only [if_true] at htie
        by_cases hsize : x.size = 0
        · have hbits := (size_eq_size_iff hx hzero hnumber
            Binary64.noConfusion).mp (hsize.trans hnone.symm)
          rw [hbits]
          decide
        · exact hback (by omega) (Ne.symm hsize)

theorem isNearest_ofNat (n : Nat) : IsNearest n (ofNat n) := by
  obtain ⟨q, e, rest, hnormal, hrest, hunits⟩ := exists_normal (n * unit)
  obtain ⟨hx, hnumber, hsign, hsize⟩ := ofUnits_cases hnormal hrest
  rw [← hunits] at hx hnumber hsign hsize
  rw [ofNat, ofRatio]
  generalize ofUnits false (n * unit) 1 = x at hx hnumber hsign hsize ⊢
  refine isNearest_of_size hx hnumber hsign fun y hy => ?_
  rcases hsize with ⟨hsize, heven⟩ | ⟨rfl, hrange⟩
  · rw [hsize]
    rcases size_cases hy e with ⟨other, hother⟩ | ⟨hunit, hless⟩
    · obtain ⟨hnear, htie⟩ := @nearest_roundDiv q _ _ hrest other
      rw [← hunits, ← hother] at hnear htie
      refine ⟨hnear, fun hsame hne => heven (htie hsame fun hmultiple => hne ?_)⟩
      rw [hother, hmultiple]
    · -- The rounded number is no farther than the leading one, and `y` is.
      have hleading : leading e ≤ q * 2 ^ e :=
        Nat.mul_le_mul_right _ (hnormal.full.resolve_left hunit)
      have hnear := (@nearest_roundDiv q _ _ hrest (2 ^ 52)).1
      have hplace : 2 ^ 52 * 2 ^ e = leading e := rfl
      rw [← hunits, hplace] at hnear
      exact ⟨by omega, fun hsame _ => by omega⟩
  · have hleading := leading_le_leading hrange
    have hfull : leading e ≤ q * 2 ^ e :=
      Nat.mul_le_mul_right _ (hnormal.full.resolve_left (by omega))
    have hmost := size_le hy
    rw [size_infinity]
    exact ⟨by omega, fun _ _ => by decide⟩

/-- Of two neighbours one has an odd significand, and what is between two values
is nearer than either to a number that is as far from both. -/
theorem IsNearest.not_magnitude_lt (hx : IsNearest n x) (hy : IsNearest n y) :
    ¬ x.magnitude < y.magnitude := by
  intro hless
  have hne : x ≠ y := fun hsame => Nat.ne_of_lt hless (congrArg magnitude hsame)
  have hsame : distance n x = distance n y :=
    Nat.le_antisymm (hx.nearest y hy.canonical hy.isNumber)
      (hy.nearest x hx.canonical hx.isNumber)
  have hevenX := hx.even y hy.canonical hy.isNumber (Ne.symm hne) hsame.symm
  have hevenY := hy.even x hx.canonical hx.isNumber hne hsame
  have hmost := magnitude_le hy.canonical hy.isNumber
  obtain ⟨z, hz, hnumber, hsign, hmagnitude⟩ :=
    @exists_magnitude (x.magnitude + 1) (by omega)
  have hleft := (size_lt_size_iff hx.canonical hz hx.isNumber hnumber).mpr
    (by omega)
  have hright := (size_lt_size_iff hz hy.canonical hnumber hy.isNumber).mpr
    (by omega)
  have hnearest := hx.nearest z hz hnumber
  rw [distance_of_notNegative hx.notNegative,
    distance_of_notNegative hy.notNegative] at hsame
  rw [distance_of_notNegative hx.notNegative,
    distance_of_notNegative hsign] at hnearest
  omega

/-- A number has one nearest value, which is the one made from it. -/
theorem isNearest_iff : IsNearest n x ↔ x = ofNat n := by
  constructor
  · intro hx
    have hy := isNearest_ofNat n
    exact eq_of_magnitude_eq hx.canonical hy.canonical hx.isNumber hy.isNumber
      (hx.notNegative.trans hy.notNegative.symm)
      (Nat.le_antisymm (Nat.le_of_not_lt (hy.not_magnitude_lt hx))
        (Nat.le_of_not_lt (hx.not_magnitude_lt hy)))
  · rintro rfl
    exact isNearest_ofNat n

theorem exists_unit_eq : ∃ zeros, unit = 2 ^ zeros :=
  ⟨1074, by decide +kernel⟩

/-- Infinity stands for the power of two that comes after the finite values. -/
theorem leading_eq : leading 2046 = leading 972 * unit := by
  decide +kernel

/-- The magnitude of the value made from a number is the number rounded, or that
of infinity if this is out of range. -/
theorem size_ofNat (n : Nat) :
    (ofNat n).size = min (roundNat n) (leading 972) * unit := by
  obtain ⟨q, e, rest, hnormal, hrest, hunits⟩ := exists_normal (n * unit)
  obtain ⟨hx, -, -, hsize⟩ := ofUnits_cases hnormal hrest
  have hround : roundNat n * unit =
      roundDiv (q * 2 ^ e + rest) (2 ^ e) * 2 ^ e := by
    obtain ⟨zeros, hunit⟩ := exists_unit_eq
    rw [← roundNat_eq hnormal hrest, ← hunits, hunit, roundNat_mul_pow]
  rw [← hunits] at hx hsize hround
  rw [← Nat.mul_min_mul_right, ← leading_eq, hround, ofNat, ofRatio]
  rcases hsize with ⟨hsize, -⟩ | ⟨hinfinity, hrange⟩
  · have hmost := size_le hx
    omega
  · have hleading : leading 2046 ≤ roundDiv (n * unit) (2 ^ e) * 2 ^ e := by
      refine Nat.le_trans (leading_le_leading hrange) ?_
      rw [hunits]
      exact Nat.mul_le_mul_right _ (Nat.le_trans
        (hnormal.full.resolve_left (by omega)) (roundDiv_le hnormal hrest).1)
    rw [hinfinity, size_infinity, Nat.min_eq_right hleading]

/-- Numbers make the same value if they are rounded alike or both out of range. -/
theorem ofNat_eq_ofNat_iff {m : Nat} :
    ofNat n = ofNat m ↔
      min (roundNat n) (leading 972) = min (roundNat m) (leading 972) := by
  have hn := isNearest_ofNat n
  have hm := isNearest_ofNat m
  have hunit : unit ≠ 0 := by decide +kernel
  have hsize : ofNat n = ofNat m ↔ (ofNat n).size = (ofNat m).size := by
    refine ⟨congrArg size, fun hsize => ?_⟩
    exact eq_of_magnitude_eq hn.canonical hm.canonical hn.isNumber hm.isNumber
      (hn.notNegative.trans hm.notNegative.symm)
      ((size_eq_size_iff hn.canonical hm.canonical hn.isNumber hm.isNumber).mp
        hsize)
  rw [hsize, size_ofNat, size_ofNat, Nat.mul_left_inj hunit]

/-- Numbers that are rounded alike make the same value. -/
theorem ofNat_eq_of_roundNat_eq {m : Nat} (hround : roundNat n = roundNat m) :
    ofNat n = ofNat m := by
  rw [ofNat_eq_ofNat_iff, hround]

/-- A number that is out of range makes infinity. -/
theorem ofNat_of_le (hrange : leading 972 ≤ n) : ofNat n = .infinity false := by
  have hlimit := Nat.mul_le_mul_right unit hrange
  rw [← leading_eq] at hlimit
  refine (isNearest_iff.mp (isNearest_of_size (isCanonical_infinity false)
    Binary64.noConfusion rfl fun y hy => ?_)).symm
  have hmost := size_le hy
  rw [size_infinity]
  exact ⟨by omega, fun _ _ => by decide⟩

end Values

section Steps

variable {n q e rest bits : Nat}

/-- A number with 53 digits in front of zeros, of which there is one at least. -/
def IsFull (n : Nat) : Prop := ∃ s e, 2 ^ 52 ≤ s ∧ IsNormal s (e + 1) ∧
  n = s * 2 ^ (e + 1)

/-- A number that does not fit into 53 digits, in front of its 53rd digit and
behind. -/
theorem exists_normal_of_le (hlarge : 2 ^ 53 ≤ n) :
    ∃ q e rest, 2 ^ 52 ≤ q ∧ IsNormal q (e + 1) ∧ rest < 2 ^ (e + 1) ∧
      n = q * 2 ^ (e + 1) + rest := by
  obtain ⟨q, e, rest, hnormal, hrest, rfl⟩ := exists_normal n
  cases e with
  | zero =>
      have hsmall := hnormal.small
      rw [Nat.pow_zero] at hrest hlarge
      omega
  | succ e =>
      exact ⟨q, e, rest, hnormal.full.resolve_left (Nat.succ_ne_zero e), hnormal,
        hrest, rfl⟩

theorem isFull_roundNat (hlarge : 2 ^ 53 ≤ n) : IsFull (roundNat n) := by
  obtain ⟨q, e, rest, hfull, hnormal, hrest, rfl⟩ := exists_normal_of_le hlarge
  obtain ⟨hleast, hmost⟩ := roundDiv_le hnormal hrest
  rw [roundNat_eq hnormal hrest]
  generalize roundDiv (q * 2 ^ (e + 1) + rest) (2 ^ (e + 1)) = near at *
  rcases Nat.lt_or_ge near (2 ^ 53) with hsmall | hcarry
  · have hnear := Nat.le_trans hfull hleast
    exact ⟨near, e, hnear, ⟨hsmall, .inr hnear⟩, rfl⟩
  · obtain rfl := Nat.le_antisymm hmost hcarry
    refine ⟨2 ^ 52, e + 1, Nat.le_refl _, ⟨by decide, .inr (Nat.le_refl _)⟩, ?_⟩
    rw [Nat.pow_succ 2 (e + 1)]
    omega

/-- A digit behind a full number is less than half of what its last place is
worth, so that it is lost. -/
theorem IsFull.roundNat_add (hfull : IsFull n) {digit : Nat}
    (hdigit : digit < 2 ^ bits) :
    roundNat (n * 2 ^ bits + digit) = n * 2 ^ bits ∧ IsFull (n * 2 ^ bits) := by
  obtain ⟨s, e, hs, hnormal, rfl⟩ := hfull
  have hlonger : IsNormal s (e + bits + 1) := ⟨hnormal.small, .inr hs⟩
  have hplace : s * 2 ^ (e + 1) * 2 ^ bits = s * 2 ^ (e + bits + 1) := by
    rw [Nat.mul_assoc, ← Nat.pow_add, Nat.add_right_comm]
  have hhalf : 2 * digit < 2 ^ (e + bits + 1) := by
    have hpow : 2 ^ bits ≤ 2 ^ (e + bits) :=
      Nat.pow_le_pow_right (by decide) (Nat.le_add_left bits e)
    rw [Nat.pow_succ]
    omega
  rw [hplace]
  refine ⟨?_, s, e + bits, hs, hlonger, rfl⟩
  rw [roundNat_eq hlonger (by omega), roundDiv_mul_add (by omega), if_pos hhalf]

/-- A number of at most so many digits is rounded to one of no more, or to the next
power of two. -/
theorem roundNat_le_leading (hless : n < leading e) : roundNat n ≤ leading e := by
  rcases Nat.lt_or_ge n (2 ^ 53) with hsmall | hlarge
  · rw [roundNat_of_lt hsmall]
    exact Nat.le_of_lt hless
  · obtain ⟨q, unit, rest, hfull, hnormal, hrest, rfl⟩ :=
      exists_normal_of_le hlarge
    have hunit : unit + 1 < e := by
      refine lt_of_leading_lt (Nat.lt_of_le_of_lt ?_ hless)
      exact Nat.le_add_right_of_le (Nat.mul_le_mul_right _ hfull)
    rw [roundNat_eq hnormal hrest]
    calc roundDiv (q * 2 ^ (unit + 1) + rest) (2 ^ (unit + 1)) * 2 ^ (unit + 1)
        ≤ 2 ^ 53 * 2 ^ (unit + 1) :=
          Nat.mul_le_mul_right _ (roundDiv_le hnormal hrest).2
      _ = leading (unit + 2) := (leading_succ _).symm
      _ ≤ leading e := leading_le_leading hunit

theorem roundNat_roundNat (n : Nat) : roundNat (roundNat n) = roundNat n := by
  rcases Nat.lt_or_ge n (2 ^ 53) with hsmall | hlarge
  · rw [roundNat_of_lt hsmall, roundNat_of_lt hsmall]
  · obtain ⟨s, e, -, hnormal, hround⟩ := isFull_roundNat hlarge
    rw [hround, roundNat_mul_pow_of_lt hnormal.small]

/-- What comes behind a number is lost in rounding just if the number is not half-way
above an even neighbour, or if nothing but zeros comes. -/
theorem roundNat_add_eq_iff (hfull : 2 ^ 52 ≤ q) (hsmall : q < 2 ^ 53)
    (hrest : rest < 2 ^ (e + 1)) {behind : Nat} (hbehind : behind < 2 ^ bits) :
    roundNat ((q * 2 ^ (e + 1) + rest) * 2 ^ bits + behind) =
        roundNat ((q * 2 ^ (e + 1) + rest) * 2 ^ bits) ↔
      ¬ (rest = 2 ^ e ∧ q % 2 = 0 ∧ behind ≠ 0) := by
  have hnormal : IsNormal q (e + 1 + bits) := ⟨hsmall, .inr hfull⟩
  have hplace : 2 ^ (e + 1 + bits) = 2 * (2 ^ e * 2 ^ bits) := by
    rw [Nat.add_right_comm, Nat.pow_succ, Nat.pow_add, Nat.mul_comm]
  have hpos : 0 < 2 ^ (e + 1 + bits) := Nat.two_pow_pos _
  have hbelow : rest * 2 ^ bits + 2 ^ bits ≤ 2 ^ (e + 1 + bits) := by
    rw [Nat.pow_add, ← Nat.succ_mul]
    exact Nat.mul_le_mul_right _ hrest
  rw [Nat.add_mul, Nat.mul_assoc, ← Nat.pow_add, Nat.add_assoc,
    roundNat_eq hnormal (by omega), roundNat_eq hnormal (by omega),
    Nat.mul_left_inj (Nat.ne_of_gt hpos), roundDiv_mul_add (by omega),
    roundDiv_mul_add (by omega)]
  rcases Nat.lt_trichotomy rest (2 ^ e) with hrest | rfl | hrest
  · have hside := Nat.mul_le_mul_right (2 ^ bits) hrest
    rw [Nat.succ_mul] at hside
    rw [if_pos (by omega), if_pos (by omega)]
    exact iff_of_true rfl fun hhalf => Nat.ne_of_lt hrest hhalf.1
  · by_cases hnone : behind = 0
    · rw [hnone, Nat.add_zero]
      exact iff_of_true rfl fun hhalf => hhalf.2.2 rfl
    · rw [if_neg (by omega), if_pos (by omega), if_neg (by omega),
        if_neg (by omega)]
      omega
  · have hside := Nat.mul_le_mul_right (2 ^ bits) hrest
    rw [Nat.succ_mul] at hside
    rw [if_neg (by omega), if_pos (by omega), if_neg (by omega),
      if_pos (by omega)]
    exact iff_of_true rfl fun hhalf => Nat.ne_of_gt hrest hhalf.1

/-- What comes behind a number makes no other value just if it is lost in rounding
or the number is out of range. -/
theorem ofNat_add_eq_iff (hfull : 2 ^ 52 ≤ q) (hsmall : q < 2 ^ 53)
    (hrest : rest < 2 ^ (e + 1)) {behind : Nat} (hbehind : behind < 2 ^ bits) :
    ofNat ((q * 2 ^ (e + 1) + rest) * 2 ^ bits + behind) =
        ofNat ((q * 2 ^ (e + 1) + rest) * 2 ^ bits) ↔
      ((q * 2 ^ (e + 1) + rest) * 2 ^ bits + behind < leading 972 →
        ¬ (rest = 2 ^ e ∧ q % 2 = 0 ∧ behind ≠ 0)) := by
  have hround := roundNat_add_eq_iff hfull hsmall hrest hbehind
  rcases Nat.lt_or_ge ((q * 2 ^ (e + 1) + rest) * 2 ^ bits + behind)
    (leading 972) with hless | hover
  · rw [ofNat_eq_ofNat_iff, Nat.min_eq_left (roundNat_le_leading hless),
      Nat.min_eq_left (roundNat_le_leading
        (Nat.lt_of_le_of_lt (Nat.le_add_right _ _) hless)), hround]
    simp only [hless, true_imp_iff]
  · -- The last place is so great that the digits in front are out of range too.
    have hnext : (q * 2 ^ (e + 1) + rest + 1) * 2 ^ bits ≤
        2 ^ 53 * 2 ^ (e + 1 + bits) := by
      rw [Nat.pow_add 2 (e + 1), ← Nat.mul_assoc]
      refine Nat.mul_le_mul_right _ ?_
      have hdigits := Nat.mul_le_mul_right (2 ^ (e + 1)) hsmall
      rw [Nat.succ_mul] at hdigits
      omega
    have hplace : 972 < e + 1 + bits + 1 := by
      refine lt_of_leading_lt (Nat.lt_of_le_of_lt hover ?_)
      rw [leading_succ]
      refine Nat.lt_of_lt_of_le ?_ hnext
      rw [Nat.succ_mul]
      omega
    have hfront : leading 972 ≤ (q * 2 ^ (e + 1) + rest) * 2 ^ bits :=
      calc leading 972 ≤ leading (e + 1 + bits) :=
            leading_le_leading (Nat.le_of_lt_succ hplace)
        _ ≤ q * 2 ^ (e + 1 + bits) := Nat.mul_le_mul_right _ hfull
        _ = q * 2 ^ (e + 1) * 2 ^ bits := by rw [Nat.pow_add, Nat.mul_assoc]
        _ ≤ (q * 2 ^ (e + 1) + rest) * 2 ^ bits :=
            Nat.mul_le_mul_right _ (Nat.le_add_right _ _)
    rw [ofNat_of_le hover, ofNat_of_le hfront]
    exact iff_of_true rfl fun hless => absurd hless (Nat.not_lt_of_ge hover)

end Steps

end Binary64

end Bundler
