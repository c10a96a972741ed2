import CallScript.Decimal.Binary
import CallScript.Proofs.Decimal.Bits
import CallScript.Proofs.Decimal.Shortest

/-!
# The exact values of doubles

A finite double stands for a rational number (`exactValue?`), namely a canonical mantissa times a
power of two, with a sign (`exactValue?_eq_some_iff`).  `wholeNumber?` gives the integers among
these numbers (`wholeNumber?_eq_some_iff`), and one that fits in a signed word of 64 bits is
converted to that word without a change (`toInt64_toInt`).
-/

namespace CallScript

open Float.Model Float.Model.UnpackedFloat Decimal

/-- The number that a double stands for; `none` for the infinities and NaN. -/
def exactValue? (x : Float) : Option ℚ :=
  match x.toModel.unpack with
  | .finite .positive mantissa exponent _ => some (mantissa * 2 ^ exponent)
  | .finite .negative mantissa exponent _ => some (-(mantissa * 2 ^ exponent))
  | .zero _ => some 0
  | .infinity _ => none
  | .notANumber => none

theorem exactValue?_ofModel (negative : Bool) {m : ℕ} {e : ℤ} (hc : Canonical m e) :
    exactValue? (.ofModel (.pack (.finite (Binary.sign negative) m e hc.pos))) =
      some ((signed negative m : ℚ) * 2 ^ e) := by
  rw [exactValue?, Binary.unpack_pack_finite (Binary.sign negative) hc]
  cases negative <;> simp [Binary.sign, signed]

theorem exactValue?_zero (negative : Bool) :
    exactValue? (.ofModel (.pack (.zero (Binary.sign negative)))) = some 0 := by
  cases negative <;> rfl

/-- The value of a double as its bits say it. -/
theorem exactValue?_of_finite {x : Float} {negative : Bool} {m : ℕ} {e : ℤ}
    (h : Binary.ofFloat x = .finite negative m e) :
    exactValue? x = some ((signed negative m : ℚ) * 2 ^ e) := by
  rcases (Binary.ofBits_eq_finite x.toBits.toNat_lt h).1 with rfl | hc
  · rw [Binary.eq_ofModel_of_zero h, exactValue?_zero]
    cases negative <;> simp [signed]
  · rw [Binary.eq_ofModel_of_finite h hc, exactValue?_ofModel negative hc]

theorem isFinite_of_exactValue? {x : Float} {q : ℚ} (h : exactValue? x = some q) :
    x.isFinite = true := by
  change x.toModel.unpack.isFinite = true
  unfold exactValue? at h
  split at h <;> simp_all [UnpackedFloat.isFinite]

theorem exactValue?_eq_some_iff {x : Float} {q : ℚ} : exactValue? x = some q ↔
    ∃ negative m e, Binary.ofFloat x = .finite negative m e ∧
      (signed negative m : ℚ) * 2 ^ e = q := by
  constructor
  · intro h
    obtain ⟨negative, m, e, hbits⟩ := Binary.isFinite_iff.1 (isFinite_of_exactValue? h)
    rw [exactValue?_of_finite hbits, Option.some_inj] at h
    exact ⟨negative, m, e, hbits, h⟩
  · rintro ⟨negative, m, e, hbits, rfl⟩
    exact exactValue?_of_finite hbits

/-! ## Whole numbers -/

theorem signed_eq_mul (negative : Bool) (n : ℕ) :
    signed negative n = (if negative then -1 else 1) * (n : ℤ) := by
  cases negative <;> simp [signed]

theorem signed_mul (negative : Bool) (m n : ℕ) :
    signed negative (m * n) = signed negative m * n := by
  rw [signed_eq_mul, signed_eq_mul, Nat.cast_mul, mul_assoc]

theorem natAbs_signed (negative : Bool) (n : ℕ) : (signed negative n).natAbs = n := by
  cases negative <;> simp [signed]

/-- The integer that a double is equal to is its value. -/
theorem wholeNumber?_eq_some_iff {x : Float} {n : ℤ} :
    wholeNumber? x = some n ↔ exactValue? x = some (n : ℚ) := by
  unfold wholeNumber?
  split
  · next negative m e hbits =>
    rw [exactValue?_of_finite hbits, Option.some_inj]
    by_cases he : 0 ≤ e
    · obtain ⟨k, rfl⟩ := Int.eq_ofNat_of_zero_le he
      rw [if_pos he, Int.toNat_natCast, Nat.shiftLeft_eq, signed_mul, Option.some_inj, zpow_natCast]
      exact_mod_cast Iff.rfl
    · obtain ⟨k, hk⟩ := Int.eq_ofNat_of_zero_le (a := -e) (by omega)
      obtain rfl : e = -k := by omega
      have hvalue (N : ℤ) : (signed negative m * 2 ^ (-k : ℤ) : ℚ) = N ↔
          signed negative m = N * 2 ^ k := by
        rw [zpow_neg, zpow_natCast, mul_inv_eq_iff_eq_mul₀ (by positivity)]
        exact_mod_cast Iff.rfl
      rw [if_neg he, hvalue, neg_neg, Int.toNat_natCast]
      simp only [Nat.one_shiftLeft]
      by_cases hmod : m % 2 ^ k = 0
      · have hm : m / 2 ^ k * 2 ^ k = m := Nat.div_mul_cancel (Nat.dvd_of_mod_eq_zero hmod)
        have hpos : (2 ^ k : ℤ) ≠ 0 := by positivity
        rw [if_pos hmod, Option.some_inj]
        conv_rhs => rw [← hm, signed_mul, Nat.cast_pow, Nat.cast_ofNat]
        exact (mul_left_inj' hpos).symm
      · rw [if_neg hmod]
        refine iff_of_false nofun ?_
        intro hN
        apply hmod
        have habs := congrArg Int.natAbs hN
        rw [natAbs_signed, Int.natAbs_mul, Int.natAbs_pow] at habs
        exact Nat.mod_eq_zero_of_dvd ⟨_, habs.trans (Nat.mul_comm _ _)⟩
  · next hbits =>
    refine iff_of_false nofun ?_
    intro h
    obtain ⟨negative, m, e, hfinite, -⟩ := exactValue?_eq_some_iff.1 h
    exact hbits negative m e hfinite

/-! ## Signed words -/

/-- An integer loses nothing when its fraction is cut off. -/
theorem roundToInt_eq (s : Sign) {m N : ℕ} {e : ℤ} (h : (m * 2 ^ e : ℚ) = N) :
    roundToInt s m e = s.apply N := by
  have hright : (0 - (e - (e.toNat : ℤ))).toNat = (-e).toNat := by omega
  have hrep : Represents (ExtendedMantissa.mk (m <<< e.toNat) false false >>> (-e).toNat) N := by
    have hexact : Represents (.mk (m <<< e.toNat) false false) (m <<< e.toNat : ℕ) := rfl
    have hshift := hexact.shiftRight (-e).toNat
    rw [Nat.shiftLeft_eq, Nat.cast_mul, Nat.cast_pow, Nat.cast_ofNat, mul_div_assoc, ← zpow_eq_div,
      h] at hshift
    rwa [Nat.shiftLeft_eq]
  obtain ⟨hlow, hhigh⟩ := hrep.bounds
  simp only [roundToInt, decreaseExponent, shiftToExponent, sub_zero, hright]
  congr 2
  exact Nat.le_antisymm (by exact_mod_cast hlow) (Nat.lt_succ_iff.1 (by exact_mod_cast hhigh))

/-- A double that is an integer is converted to it. -/
theorem toInt_eq {x : Float} {n : ℤ} (h : exactValue? x = some (n : ℚ)) (low high : ℤ) :
    x.toModel.unpack.toInt low high = n := by
  unfold exactValue? at h
  split at h
  · next m e hpos hunpack =>
    rw [Option.some_inj] at h
    have hn : 0 ≤ n := by
      have : (0 : ℚ) ≤ n := h ▸ by positivity
      exact_mod_cast this
    obtain ⟨N, rfl⟩ := Int.eq_ofNat_of_zero_le hn
    rw [hunpack, UnpackedFloat.toInt, roundToInt_eq .positive (N := N) (by exact_mod_cast h)]
    rfl
  · next m e hpos hunpack =>
    rw [Option.some_inj, neg_eq_iff_eq_neg] at h
    have hn : 0 ≤ -n := by
      have : (0 : ℚ) ≤ -n := h ▸ by positivity
      exact_mod_cast this
    obtain ⟨N, hN⟩ := Int.eq_ofNat_of_zero_le hn
    obtain rfl : n = -N := by omega
    push_cast at h
    rw [hunpack, UnpackedFloat.toInt, roundToInt_eq .negative (N := N) (by linarith)]
    rfl
  · next hunpack =>
    rw [Option.some_inj] at h
    rw [hunpack]
    exact_mod_cast h
  · cases h
  · cases h

/-- The conversion to a signed word is exact for integers that fit. -/
theorem toInt64_toInt {x : Float} {n : ℤ} (h : exactValue? x = some (n : ℚ)) (hlow : -2 ^ 63 ≤ n)
    (hhigh : n < 2 ^ 63) : x.toModel.toInt64.toInt = n := by
  rw [Float.Model.toInt64, UnpackedFloat.toInt64, toInt_eq h]
  apply Int64.toInt_ofIntClamp
  · rwa [Int64.toInt_minValue]
  · rw [Int64.toInt_maxValue]
    omega

end CallScript
