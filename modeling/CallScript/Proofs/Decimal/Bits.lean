import CallScript.Decimal.Binary
import CallScript.Proofs.Decimal.Rounding
import Mathlib

/-!
# Doubles and their bits

A finite double is its sign, mantissa and exponent: packing what `Binary.ofFloat` reads off its bits
gives the double again (`eq_ofModel_of_finite`), and a minus sign changes the sign alone
(`neg_finite`).  No bits but those made for it stand for what is not a number (`isNaN_pack`).
The lemmas on packed doubles reach a module only through the whole of Mathlib.
-/

namespace CallScript.Binary

open Float.Model Float.Model.UnpackedFloat Decimal

/-- The sign that a bit stands for. -/
def sign (negative : Bool) : Sign :=
  if negative then .negative else .positive

theorem packComponents_toNat (s : Sign) (exponent : BitVec 11) (mantissa : BitVec 52) :
    (packComponents Format.binary64 s exponent mantissa).toNat =
      s.toBitVec.toNat * 2 ^ 63 + exponent.toNat * 2 ^ 52 + mantissa.toNat := by
  unfold packComponents
  rw [BitVec.toNat_append, ← Nat.shiftLeft_add_eq_or_of_lt mantissa.isLt, BitVec.toNat_append,
    ← Nat.shiftLeft_add_eq_or_of_lt exponent.isLt, Nat.shiftLeft_eq, Nat.shiftLeft_eq]
  simp only [Nat.add_mul, Nat.mul_assoc, ← Nat.pow_add]

theorem sign_toNat (n : ℕ) : (sign (n % 2 == 1)).toBitVec.toNat = n % 2 := by
  rcases Nat.mod_two_eq_zero_or_one n with h | h <;> simp [sign, h, Sign.toBitVec]

/-- The eleven bits of exponent: zero for a subnormal double. -/
def exponentField (m : ℕ) (e : ℤ) : ℕ :=
  if 2 ^ 52 ≤ m then (e + 1075).toNat else 0

/-- What is read off the bits of a finite double is zero or canonical, and the bits are made of
it. -/
theorem ofBits_eq_finite {bits : ℕ} {negative : Bool} {m : ℕ} {e : ℤ} (hlt : bits < 2 ^ 64)
    (h : ofBits bits = .finite negative m e) :
    (m = 0 ∨ Canonical m e) ∧
      bits = (sign negative).toBitVec.toNat * 2 ^ 63 + exponentField m e * 2 ^ 52 + m % 2 ^ 52 := by
  simp only [ofBits, Nat.shiftRight_eq_div_pow, Nat.one_shiftLeft] at h
  split at h
  · split at h <;> cases h
  · next hmax =>
    split at h
    · cases h
      rw [sign_toNat, exponentField, if_neg (by omega)]
      refine ⟨?_, by omega⟩
      rcases Nat.eq_zero_or_pos (bits % 2 ^ 52) with hzero | hpos
      · exact .inl hzero
      · exact .inr ⟨hpos, by omega, by omega, by omega, .inl rfl⟩
    · cases h
      rw [sign_toNat, exponentField, if_pos (by omega)]
      exact ⟨.inr ⟨by omega, by omega, by omega, by omega, .inr (by omega)⟩, by omega⟩

theorem exponentField_lt {m : ℕ} {e : ℤ} (hc : Canonical m e) : exponentField m e < 2047 := by
  have hgreatest := hc.greatest
  unfold exponentField
  split <;> omega

/-- The bits of a canonical mantissa and exponent. -/
theorem pack_finite (s : Sign) {m : ℕ} {e : ℤ} (hc : Canonical m e) :
    UnpackedFloat.pack Format.binary64 (.finite s m e hc.pos) =
      packComponents Format.binary64 s (BitVec.ofNat 11 (exponentField m e))
        (BitVec.ofNat 52 m) := by
  have hgreatest := hc.greatest
  have hbias : (e + (Format.binary64.exponentBias : ℤ) + (52 : ℕ)).toNat = (e + 1075).toNat := by
    simp only [Format.exponentBias]
    omega
  rw [UnpackedFloat.pack]
  simp only [hbias, exponentField]
  rw [if_neg (by norm_num; omega)]
  by_cases hlow : 2 ^ 52 ≤ m
  · rw [if_pos hlow, (Nat.log2_eq_iff hc.pos.ne').2 ⟨hlow, hc.lt⟩, if_pos (by decide)]
  · have hlog : m.log2 < 52 := (Nat.log2_lt hc.pos.ne').2 (by omega)
    rw [if_neg hlow, if_neg (by simp only [Format.mantissaBits]; omega)]

/-- The bits of a canonical mantissa and exponent as a number. -/
theorem pack_finite_toNat (s : Sign) {m : ℕ} {e : ℤ} (hc : Canonical m e) :
    (UnpackedFloat.pack Format.binary64 (.finite s m e hc.pos)).toNat =
      s.toBitVec.toNat * 2 ^ 63 + exponentField m e * 2 ^ 52 + m % 2 ^ 52 := by
  have hfield := exponentField_lt hc
  rw [pack_finite s hc, packComponents_toNat, BitVec.toNat_ofNat, BitVec.toNat_ofNat,
    Nat.mod_eq_of_lt (hfield.trans (by decide))]

/-- Unpacking takes a canonical mantissa and exponent back from the bits. -/
theorem unpack_pack_finite (s : Sign) {m : ℕ} {e : ℤ} (hc : Canonical m e) :
    (Float.Model.pack (.finite s m e hc.pos)).unpack = .finite s m e hc.pos := by
  obtain ⟨hpos, hlt, hleast, -, hnormal⟩ := id hc
  have hfield := exponentField_lt hc
  have hbias : (Format.binary64.exponentBias : ℤ) = 1023 := rfl
  simp only [Float.Model.pack, Float.Model.unpack, pack_finite s hc]
  rw [UnpackedFloat.unpack]
  simp only [unpackMantissa_packComponents, unpackExponent_packComponents,
    unpackSign_packComponents, Sign.ofBitVec_toBitVec]
  rw [if_neg (by intro h; have := congrArg BitVec.toNat h; simp at this; omega)]
  unfold exponentField at hfield ⊢
  by_cases hlow : 2 ^ 52 ≤ m
  · -- a normal double: the leading bit of the mantissa is not stored
    simp only [if_pos hlow] at hfield ⊢
    rw [if_neg (by intro h; have := congrArg BitVec.toNat h; simp at this; omega)]
    congr 1
    · rw [BitVec.toNat_append, ← Nat.shiftLeft_add_eq_or_of_lt (BitVec.isLt _)]
      simp only [BitVec.toNat_ofNat, Nat.shiftLeft_eq]
      omega
    · rw [hbias, BitVec.toNat_ofNat]
      omega
  · simp only [if_neg hlow, if_true]
    rw [dif_neg (by intro h; have := congrArg BitVec.toNat h; simp at this; omega)]
    congr 1
    · rw [BitVec.toNat_ofNat]
      omega
    · rw [hbias]
      simp
      omega

/-- A minus sign changes the sign alone. -/
theorem neg_finite {m : ℕ} {e : ℤ} (hc : Canonical m e) :
    -(Float.ofModel (.pack (.finite .positive m e hc.pos))) =
      .ofModel (.pack (.finite .negative m e hc.pos)) :=
  congrArg (fun u => Float.ofModel (.pack (UnpackedFloat.neg u))) (unpack_pack_finite .positive hc)

/-- The absolute value forgets the sign alone. -/
theorem abs_finite (s : Sign) {m : ℕ} {e : ℤ} (hc : Canonical m e) :
    (Float.ofModel (.pack (.finite s m e hc.pos))).abs =
      .ofModel (.pack (.finite .positive m e hc.pos)) :=
  congrArg (fun u => Float.ofModel (.pack (UnpackedFloat.abs u))) (unpack_pack_finite s hc)

theorem isNaN_unpack_packComponents (s : Sign) {exponent : BitVec 11} {mantissa : BitVec 52}
    (h : exponent = -1#11 → mantissa = 0#52) :
    (UnpackedFloat.unpack Format.binary64
      (packComponents Format.binary64 s exponent mantissa)).isNaN = false := by
  rw [UnpackedFloat.unpack]
  simp only [unpackMantissa_packComponents, unpackExponent_packComponents]
  split
  · next hexponent =>
    rw [if_pos (h hexponent)]
    rfl
  · split
    · split <;> rfl
    · rfl

/-- The bits of a number, rounded or not, are those of a number. -/
theorem isNaN_pack {u : UnpackedFloat} (h : u.isNaN = false) :
    (Float.ofModel (.pack u)).isNaN = false := by
  show (UnpackedFloat.unpack Format.binary64 (UnpackedFloat.pack Format.binary64 u)).isNaN = false
  fun_cases UnpackedFloat.pack with
  | case1 => cases h
  | case2 s => exact isNaN_unpack_packComponents s fun _ => rfl
  | case3 s => exact isNaN_unpack_packComponents s fun _ => rfl
  | case4 s => exact isNaN_unpack_packComponents s fun _ => rfl
  | case5 s m e hm bits biased hsmall =>
    -- The greatest exponent is left to the infinities.
    have hfield : BitVec.ofNat 11 biased ≠ -1#11 := by
      intro hgreatest
      have hbiased : biased % 2 ^ 11 = 2047 := congrArg BitVec.toNat hgreatest
      have hbits : Format.binary64.exponentBits = 11 := rfl
      rw [hbits] at hsmall
      omega
    exact isNaN_unpack_packComponents s fun hgreatest => absurd hgreatest hfield
  | case6 s => exact isNaN_unpack_packComponents s fun hzero => absurd hzero (by decide)

/-- A minus sign makes a number of a number. -/
theorem isNaN_neg {x : Float} (h : x.isNaN = false) : (-x).isNaN = false := by
  have hunpack : x.toModel.unpack.isNaN = false := h
  refine isNaN_pack (u := x.toModel.unpack.neg) ?_
  cases hcase : x.toModel.unpack with
  | notANumber =>
    rw [hcase] at hunpack
    exact hunpack
  | _ => rfl

/-- Doubles with the same bits are the same. -/
theorem eq_ofModel_pack {x : Float} {u : UnpackedFloat}
    (h : x.toBits.toNat = (UnpackedFloat.pack Format.binary64 u).toNat) :
    x = .ofModel (.pack u) :=
  Float.toBits_inj.1 (UInt64.toNat_inj.1 h)

/-- A finite double other than zero is its sign, mantissa and exponent. -/
theorem eq_ofModel_of_finite {x : Float} {negative : Bool} {m : ℕ} {e : ℤ}
    (h : ofFloat x = .finite negative m e) (hc : Canonical m e) :
    x = .ofModel (.pack (.finite (sign negative) m e hc.pos)) := by
  apply eq_ofModel_pack
  rw [(ofBits_eq_finite x.toBits.toNat_lt h).2, pack_finite_toNat (sign negative) hc]

/-- A double whose mantissa is zero is a zero. -/
theorem eq_ofModel_of_zero {x : Float} {negative : Bool} {e : ℤ}
    (h : ofFloat x = .finite negative 0 e) : x = .ofModel (.pack (.zero (sign negative))) := by
  apply eq_ofModel_pack
  rw [(ofBits_eq_finite x.toBits.toNat_lt h).2, UnpackedFloat.pack, packedZero,
    packComponents_toNat]
  rfl

theorem unpackExponent_eq_iff (b : BitVec Format.binary64.numBits) :
    unpackExponent b = -1#11 ↔ b.toNat / 2 ^ 52 % 2 ^ 11 = 2047 := by
  rw [← BitVec.toNat_inj]
  simp [unpackExponent, BitVec.extractLsb, Nat.shiftRight_eq_div_pow]

theorem unpack_isFinite_iff (b : BitVec Format.binary64.numBits) :
    (UnpackedFloat.unpack Format.binary64 b).isFinite = true ↔ unpackExponent b ≠ -1#11 := by
  rw [UnpackedFloat.unpack]
  dsimp only
  split
  · split <;> simp_all [UnpackedFloat.isFinite]
  · split
    · split <;> simp_all [UnpackedFloat.isFinite]
    · simp_all [UnpackedFloat.isFinite]

/-- Finite doubles are those whose bits say so. -/
theorem isFinite_iff {x : Float} :
    x.isFinite = true ↔ ∃ negative m e, ofFloat x = .finite negative m e := by
  have hunpack : x.isFinite = true ↔ x.toBits.toNat / 2 ^ 52 % 2 ^ 11 ≠ 2047 :=
    (unpack_isFinite_iff x.toBits.toBitVec).trans
      (not_congr (unpackExponent_eq_iff x.toBits.toBitVec))
  rw [hunpack, ofFloat, ofBits, Nat.shiftRight_eq_div_pow]
  split
  · split <;> simp_all
  · split <;> simp_all

end CallScript.Binary
