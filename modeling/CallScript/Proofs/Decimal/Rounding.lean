import Mathlib.Algebra.Order.Field.Basic
import Mathlib.Algebra.Order.Field.Power
import Mathlib.Tactic.Linarith
import Mathlib.Tactic.Ring

/-!
# Rounding to doubles

A double `mantissa * 2 ^ exponent` is the rounding of an interval of numbers around it
(`RoundsTo`).  Rounding keeps a mantissa together with what is known of the digits after it, as
`Represents` says, and shifts it until it fits.  Every number of the interval is rounded to the
double (`roundWithAccuracy_eq`), so a decimal in it is read as the double (`ofScientific_eq`).
-/

namespace CallScript.Decimal

open Float.Model Float.Model.UnpackedFloat

/-- A mantissa and an exponent as doubles have them. -/
structure Canonical (mantissa : ℕ) (exponent : ℤ) : Prop where
  pos : 0 < mantissa
  lt : mantissa < 2 ^ 53
  least : -1074 ≤ exponent
  greatest : exponent ≤ 971
  normal : exponent = -1074 ∨ 2 ^ 52 ≤ mantissa

/-- How far below a double, in units of its last digit, numbers are rounded to it: half of the way
to its neighbour, which is nearer below a power of two. -/
def gapBelow (mantissa : ℕ) (exponent : ℤ) : ℚ :=
  if mantissa = 2 ^ 52 ∧ exponent ≠ -1074 then 1 / 4 else 1 / 2

/-- A number that is rounded to `mantissa * 2 ^ exponent`: one between the middles of the ways to
its neighbours, or such a middle if the mantissa is even. -/
structure RoundsTo (v : ℚ) (mantissa : ℕ) (exponent : ℤ) : Prop where
  lower : (mantissa - gapBelow mantissa exponent) * 2 ^ exponent ≤ v
  upper : v ≤ (mantissa + 1 / 2) * 2 ^ exponent
  even : v = (mantissa - gapBelow mantissa exponent) * 2 ^ exponent ∨
    v = (mantissa + 1 / 2) * 2 ^ exponent → mantissa % 2 = 0

theorem gapBelow_le (m : ℕ) (e : ℤ) : gapBelow m e ≤ 1 / 2 := by
  unfold gapBelow
  split <;> norm_num

theorem two_zpow_pos (e : ℤ) : (0 : ℚ) < 2 ^ e := zpow_pos (by norm_num) e

theorem two_zpow_mono {a b : ℤ} (h : a ≤ b) : (2 : ℚ) ^ a ≤ 2 ^ b :=
  zpow_le_zpow_right₀ (by norm_num) h

theorem two_zpow_add (a b : ℤ) : (2 : ℚ) ^ (a + b) = 2 ^ a * 2 ^ b :=
  zpow_add₀ (by norm_num) a b

theorem two_zpow_add_one (e : ℤ) : (2 : ℚ) ^ (e + 1) = 2 * 2 ^ e := by
  rw [two_zpow_add, zpow_one, mul_comm]

/-! ## Mantissas with the digits after them -/

/-- Where a number is, in units of the last digit of a mantissa, by the bits kept after it. -/
def Represents (em : ExtendedMantissa) (x : ℚ) : Prop :=
  match em.roundBit, em.stickyBit with
  | false, false => x = em.mantissa
  | false, true => em.mantissa < x ∧ x < em.mantissa + 1 / 2
  | true, false => x = em.mantissa + 1 / 2
  | true, true => em.mantissa + 1 / 2 < x ∧ x < em.mantissa + 1

theorem Represents.bounds {em : ExtendedMantissa} {x : ℚ} (h : Represents em x) :
    em.mantissa ≤ x ∧ x < em.mantissa + 1 := by
  obtain ⟨m, r, s⟩ := em
  cases r <;> cases s <;> simp only [Represents] at h ⊢ <;> constructor <;> linarith

theorem Represents.shiftRightOne {em : ExtendedMantissa} {x : ℚ} (h : Represents em x) :
    Represents em.shiftRightOne (x / 2) := by
  obtain ⟨m, r, s⟩ := em
  have hm : (m : ℚ) = 2 * (m / 2 : ℕ) + (m % 2 : ℕ) := by
    exact_mod_cast (Nat.div_add_mod m 2).symm
  -- The bit that is shifted out becomes the round bit; what was known before is one bit further.
  rcases Nat.mod_two_eq_zero_or_one m with hmod | hmod
  · have hbit : (m % 2 != 0) = false := by simp [hmod]
    rw [hmod, Nat.cast_zero] at hm
    cases r <;> cases s <;>
      simp only [Represents, ExtendedMantissa.shiftRightOne, hbit, Bool.or_self, Bool.or_false,
        Bool.or_true] at h ⊢
    · linarith
    all_goals constructor <;> linarith
  · have hbit : (m % 2 != 0) = true := by simp [hmod]
    rw [hmod, Nat.cast_one] at hm
    cases r <;> cases s <;>
      simp only [Represents, ExtendedMantissa.shiftRightOne, hbit, Bool.or_self, Bool.or_false,
        Bool.or_true] at h ⊢
    · linarith
    all_goals constructor <;> linarith

theorem Represents.shiftRight {em : ExtendedMantissa} {x : ℚ} (h : Represents em x) (n : ℕ) :
    Represents (em >>> n) (x / 2 ^ n) := by
  change Represents (n.repeat ExtendedMantissa.shiftRightOne em) _
  induction n with
  | zero => simpa [Nat.repeat] using h
  | succ n ih =>
    have hstep := ih.shiftRightOne
    rwa [div_div, ← pow_succ] at hstep

/-- The nearest mantissa, the even one of two. -/
theorem Represents.roundedMantissa {em : ExtendedMantissa} {x : ℚ} (h : Represents em x) {r : ℕ}
    (hlow : r - 1 / 2 ≤ x) (hhigh : x ≤ r + 1 / 2)
    (heven : x = r - 1 / 2 ∨ x = r + 1 / 2 → r % 2 = 0) : em.roundedMantissa = r := by
  obtain ⟨m, a, b⟩ := em
  have hle {k l : ℕ} (hkl : (k : ℚ) < l + 1) : k ≤ l := by
    exact Nat.lt_succ_iff.1 (by exact_mod_cast hkl)
  cases a <;> cases b <;> simp only [Represents] at h <;>
    simp only [ExtendedMantissa.roundedMantissa, ExtendedMantissa.accuracy,
      Accuracy.roundToNearestEven]
  · exact Nat.le_antisymm (hle (by linarith)) (hle (by linarith))
  · exact Nat.le_antisymm (hle (by linarith)) (hle (by linarith))
  · have hrm : r ≤ m + 1 := hle (by push_cast; linarith)
    have hmr : m ≤ r := hle (by linarith)
    rcases Nat.lt_or_eq_of_le hrm with hlt | rfl
    · obtain rfl : m = r := by omega
      have := heven (.inr h)
      omega
    · have := heven (.inl (by push_cast; linarith))
      omega
  · exact Nat.le_antisymm (hle (by push_cast; linarith)) (hle (by push_cast; linarith))

/-! ## Shifts -/

theorem targetExponent_binary64 (t : ℤ) :
    Format.binary64.targetExponent t = max (t - 53) (-1074) := rfl

theorem targetExponent_eq (m : ℕ) (e : ℤ) :
    Format.binary64.targetExponent (totalExponent m e) = max (m.log2 + e - 52) (-1074) := by
  rw [targetExponent_binary64, totalExponent]
  omega

/-- A mantissa that fits stays as it is. -/
theorem shiftToTargetExponent_of_lt {m : ℕ} {e : ℤ} (hm : m < 2 ^ 53) (he : -1074 ≤ e) :
    shiftToTargetExponent Format.binary64 m e .exact = (⟨m, false, false⟩, e) := by
  have hlog : m.log2 ≤ 52 := by
    by_cases h : m = 0
    · simp [h]
    · exact Nat.lt_succ_iff.1 ((Nat.log2_lt h).2 hm)
  have hshift : (Format.binary64.targetExponent (totalExponent m e) - e).toNat = 0 := by
    rw [targetExponent_eq]
    omega
  simp [shiftToTargetExponent, shiftToExponent, hshift, HShiftRight.hShiftRight, Nat.repeat,
    ExtendedMantissa.ofMantissaAndAccuracy]

/-- A mantissa that rounding has made too long loses its last digit, which is zero. -/
theorem shiftToTargetExponent_two_pow {e : ℤ} (he : -1074 ≤ e) :
    shiftToTargetExponent Format.binary64 (2 ^ 53) e .exact = (⟨2 ^ 52, false, false⟩, e + 1) := by
  have hshift : (Format.binary64.targetExponent (totalExponent (2 ^ 53) e) - e).toNat = 1 := by
    rw [targetExponent_eq, Nat.log2_two_pow]
    omega
  simp only [shiftToTargetExponent, shiftToExponent, hshift]
  rfl

section Round

variable {M : ℕ} {E : ℤ} {accuracy : Accuracy} {v : ℚ}
  (happrox : Represents (.ofMantissaAndAccuracy M accuracy) (v / 2 ^ E))
  (hE : 2 ^ 52 ≤ M ∨ E = -1074)

theorem mantissa_ofMantissaAndAccuracy (M : ℕ) (accuracy : Accuracy) :
    (ExtendedMantissa.ofMantissaAndAccuracy M accuracy).mantissa = M := by
  rcases accuracy with _ | (_ | _ | _) <;> rfl

include happrox in
/-- The first shift keeps what is known of the number. -/
theorem represents_shiftToTargetExponent {t : ℤ}
    (ht : t = Format.binary64.targetExponent (totalExponent M E)) (hle : E ≤ t) :
    ∃ em, shiftToTargetExponent Format.binary64 M E accuracy = (em, t) ∧
      Represents em (v / 2 ^ t) := by
  refine ⟨ExtendedMantissa.ofMantissaAndAccuracy M accuracy >>> (t - E).toNat, ?_, ?_⟩
  · simp only [shiftToTargetExponent, shiftToExponent, ← ht, Prod.mk.injEq, true_and]
    omega
  · have hshift := happrox.shiftRight (t - E).toNat
    have hpow : (2 : ℚ) ^ t = 2 ^ E * 2 ^ (t - E).toNat := by
      rw [← zpow_natCast, ← two_zpow_add]
      congr 1
      omega
    rwa [div_div, ← hpow] at hshift

include happrox hE in
/-- The exponent after the first shift is that of the binary digits of the number. -/
theorem targetExponent_bounds {t : ℤ}
    (ht : t = Format.binary64.targetExponent (totalExponent M E)) :
    E ≤ t ∧ -1074 ≤ t ∧ v < 2 ^ (t + 53) ∧ (t = -1074 ∨ 2 ^ (t + 52) ≤ v) := by
  rw [targetExponent_eq] at ht
  have hlog : 2 ^ 52 ≤ M → 52 ≤ M.log2 := fun h => (Nat.le_log2 (by omega)).2 h
  obtain ⟨hlow, hhigh⟩ := happrox.bounds
  rw [mantissa_ofMantissaAndAccuracy, le_div_iff₀ (two_zpow_pos E)] at hlow
  rw [mantissa_ofMantissaAndAccuracy, div_lt_iff₀ (two_zpow_pos E)] at hhigh
  refine ⟨by omega, by omega, ?_, ?_⟩
  · have hM : (M : ℚ) + 1 ≤ 2 ^ ((M.log2 : ℤ) + 1) := by
      exact_mod_cast Nat.lt_log2_self (n := M)
    calc v < (M + 1) * 2 ^ E := hhigh
      _ ≤ 2 ^ ((M.log2 : ℤ) + 1) * 2 ^ E := mul_le_mul_of_nonneg_right hM (two_zpow_pos E).le
      _ = 2 ^ ((M.log2 : ℤ) + 1 + E) := (two_zpow_add _ _).symm
      _ ≤ 2 ^ (t + 53) := two_zpow_mono (by omega)
  · by_cases hmin : t = -1074
    · exact .inl hmin
    · have hpos : M ≠ 0 := by
        rintro rfl
        simp at ht hE
        omega
      have hM : (2 : ℚ) ^ (M.log2 : ℤ) ≤ M := by exact_mod_cast Nat.log2_self_le hpos
      right
      calc (2 : ℚ) ^ (t + 52) = 2 ^ ((M.log2 : ℤ) + E) := by
            congr 1
            omega
        _ = 2 ^ (M.log2 : ℤ) * 2 ^ E := two_zpow_add _ _
        _ ≤ M * 2 ^ E := mul_le_mul_of_nonneg_right hM (two_zpow_pos E).le
        _ ≤ v := hlow

/-- A number that rounds to a double has its exponent, or is so little below a power of two that
it has the exponent before. -/
theorem RoundsTo.exponent {m : ℕ} {e t : ℤ} (h : RoundsTo v m e) (hc : Canonical m e)
    (hhigh : v < 2 ^ (t + 53)) (hleast : -1074 ≤ t) (hlow : t = -1074 ∨ 2 ^ (t + 52) ≤ v) :
    t = e ∨ (t = e - 1 ∧ m = 2 ^ 52 ∧ e ≠ -1074) := by
  have hp := two_zpow_pos e
  have hm : (m : ℚ) + 1 ≤ 2 ^ 53 := by exact_mod_cast hc.lt
  have hgap := gapBelow_le m e
  have hbelow := h.lower
  rcases lt_trichotomy t e with hlt | heq | hgt
  · right
    have hnormal : 2 ^ 52 ≤ m := hc.normal.resolve_left (by omega)
    have hv : v < 2 ^ (52 : ℤ) * 2 ^ e := by
      rw [← two_zpow_add]
      exact hhigh.trans_le (two_zpow_mono (by omega))
    have hm52 : m = 2 ^ 52 := by
      by_contra hne
      have hm1 : (2 : ℚ) ^ (52 : ℤ) + 1 ≤ m := by exact_mod_cast (by omega : 2 ^ 52 + 1 ≤ m)
      have : (2 : ℚ) ^ (52 : ℤ) * 2 ^ e ≤ (m - gapBelow m e) * 2 ^ e :=
        mul_le_mul_of_nonneg_right (by linarith) hp.le
      linarith
    refine ⟨?_, hm52, by omega⟩
    by_contra hne
    have hv' : v < 2 ^ (51 : ℤ) * 2 ^ e := by
      rw [← two_zpow_add]
      exact hhigh.trans_le (two_zpow_mono (by omega))
    have : (2 : ℚ) ^ (51 : ℤ) * 2 ^ e ≤ (m - gapBelow m e) * 2 ^ e := by
      refine mul_le_mul_of_nonneg_right ?_ hp.le
      rw [hm52] at hgap ⊢
      norm_num at hgap ⊢
      linarith
    linarith
  · exact .inl heq
  · have hv : 2 ^ (53 : ℤ) * 2 ^ e ≤ v := by
      rw [← two_zpow_add]
      exact (two_zpow_mono (by omega)).trans (hlow.resolve_left (by have := hc.least; omega))
    have hup := h.upper
    have : ((m : ℚ) + 1 / 2) * 2 ^ e < 2 ^ (53 : ℤ) * 2 ^ e :=
      mul_lt_mul_of_pos_right (by norm_num at hm ⊢; linarith) hp
    linarith

include happrox hE in
/-- A number that rounds to a double is rounded to it. -/
theorem roundWithAccuracy_eq {m : ℕ} {e : ℤ} (h : RoundsTo v m e) (hc : Canonical m e)
    (sign : Sign) :
    roundWithAccuracy Format.binary64 sign M E accuracy = .finite sign m e hc.pos := by
  obtain ⟨hle, hleast, hhigh, hlow⟩ := targetExponent_bounds happrox hE rfl
  obtain ⟨em, hshift, hrep⟩ := represents_shiftToTargetExponent happrox rfl hle
  generalize Format.binary64.targetExponent (totalExponent M E) = t at *
  have hp := two_zpow_pos e
  rcases h.exponent hc hhigh hleast hlow with rfl | ⟨rfl, rfl, hne⟩
  · have hround : em.roundedMantissa = m := by
      have hlower := h.lower
      have hgap := gapBelow_le m t
      refine hrep.roundedMantissa ?_ ?_ ?_
      · rw [le_div_iff₀ hp]
        exact (mul_le_mul_of_nonneg_right (by linarith) hp.le).trans hlower
      · rw [div_le_iff₀ hp]
        exact h.upper
      · rw [div_eq_iff hp.ne', div_eq_iff hp.ne']
        rintro (hv | hv)
        · refine h.even (.inl (le_antisymm ?_ hlower))
          rw [hv]
          exact mul_le_mul_of_nonneg_right (by linarith) hp.le
        · exact h.even (.inr hv)
    rw [roundWithAccuracy, hshift]
    dsimp only
    rw [hround, shiftToTargetExponent_of_lt hc.lt hc.least]
    exact dif_neg hc.pos.ne'
  · have hround : em.roundedMantissa = 2 ^ 53 := by
      have hp' := two_zpow_pos (e - 1)
      have hdouble : (2 : ℚ) ^ e = 2 * 2 ^ (e - 1) := by
        rw [← zpow_one_add₀ (by norm_num)]
        congr 1
        omega
      have hlower := h.lower
      rw [gapBelow, if_pos ⟨rfl, hne⟩, hdouble] at hlower
      rw [add_comm, two_zpow_add] at hhigh
      refine hrep.roundedMantissa ?_ ?_ fun _ => by norm_num
      · rw [le_div_iff₀ hp']
        norm_num at hlower ⊢
        linarith
      · rw [div_le_iff₀ hp']
        norm_num at hhigh ⊢
        linarith
    rw [roundWithAccuracy, hshift]
    dsimp only
    rw [hround, shiftToTargetExponent_two_pow (by omega), sub_add_cancel]
    exact dif_neg hc.pos.ne'

end Round

/-! ## Reading decimals -/

/-- A quotient is where its remainder says. -/
theorem represents_div {m n : ℕ} (hn : 0 < n) :
    Represents (.ofMantissaAndAccuracy (m / n) (accuracyOfFraction (m % n) n)) (m / n) := by
  have hpos : (0 : ℚ) < n := by exact_mod_cast hn
  have hlt : ((m % n : ℕ) : ℚ) < n := by exact_mod_cast Nat.mod_lt m hn
  have hdiv : (m : ℚ) / n = (m / n : ℕ) + (m % n : ℕ) / n := by
    rw [div_eq_iff hpos.ne', add_mul, div_mul_cancel₀ _ hpos.ne']
    exact_mod_cast (Nat.div_add_mod' m n).symm
  rw [hdiv]
  unfold accuracyOfFraction
  split
  · next h0 => simp [Represents, ExtendedMantissa.ofMantissaAndAccuracy, h0]
  · next h0 =>
    have h0' : (0 : ℚ) < (m % n : ℕ) := by exact_mod_cast Nat.pos_of_ne_zero h0
    have hfrac : (0 : ℚ) < (m % n : ℕ) / n := div_pos h0' hpos
    cases hcmp : compare (2 * (m % n)) n with
    | lt =>
      have : 2 * ((m % n : ℕ) : ℚ) < n := by exact_mod_cast Nat.compare_eq_lt.1 hcmp
      have hlt : ((m % n : ℕ) : ℚ) / n < 1 / 2 := by rw [div_lt_iff₀ hpos]; linarith
      simp only [Represents, ExtendedMantissa.ofMantissaAndAccuracy]
      constructor <;> linarith
    | eq =>
      have : 2 * ((m % n : ℕ) : ℚ) = n := by exact_mod_cast Nat.compare_eq_eq.1 hcmp
      have heq : ((m % n : ℕ) : ℚ) / n = 1 / 2 := by rw [div_eq_iff hpos.ne']; linarith
      simp only [Represents, ExtendedMantissa.ofMantissaAndAccuracy, heq]
    | gt =>
      have : (n : ℚ) < 2 * ((m % n : ℕ) : ℚ)  := by exact_mod_cast Nat.compare_eq_gt.1 hcmp
      have hgt : 1 / 2 < ((m % n : ℕ) : ℚ) / n := by rw [lt_div_iff₀ hpos]; linarith
      have hone : ((m % n : ℕ) : ℚ) / n < 1 := by rw [div_lt_one hpos]; exact hlt
      simp only [Represents, ExtendedMantissa.ofMantissaAndAccuracy]
      constructor <;> linarith

/-- Numbers that round to doubles are in the range of doubles. -/
theorem RoundsTo.range {v : ℚ} {m : ℕ} {e : ℤ} (h : RoundsTo v m e) (hc : Canonical m e) :
    2 ^ (-1075 : ℤ) ≤ v ∧ v < 2 ^ (1024 : ℤ) := by
  have hp := two_zpow_pos e
  constructor
  · have hm : (1 : ℚ) ≤ m := by exact_mod_cast hc.pos
    have hgap := gapBelow_le m e
    calc (2 : ℚ) ^ (-1 + -1074 : ℤ) = 1 / 2 * 2 ^ (-1074 : ℤ) := by
          rw [two_zpow_add, zpow_neg_one, one_div]
      _ ≤ (m - gapBelow m e) * 2 ^ e :=
        mul_le_mul (by linarith) (two_zpow_mono hc.least) (two_zpow_pos _).le (by linarith)
      _ ≤ v := h.lower
  · have hm : (m : ℚ) + 1 ≤ 2 ^ (53 : ℤ) := by exact_mod_cast hc.lt
    calc v ≤ (m + 1 / 2) * 2 ^ e := h.upper
      _ < 2 ^ (53 : ℤ) * 2 ^ e := mul_lt_mul_of_pos_right (by linarith) hp
      _ = 2 ^ (53 + e) := (two_zpow_add _ _).symm
      _ ≤ 2 ^ (1024 : ℤ) := two_zpow_mono (by have := hc.greatest; omega)

theorem two_zpow_le_ten_zpow {s : ℤ} (hs : 0 ≤ s) : (2 : ℚ) ^ s ≤ 10 ^ s :=
  zpow_le_zpow_left₀ hs (by norm_num) (by norm_num)

theorem ten_zpow_le_two_zpow {s : ℤ} (hs : s ≤ 0) : (10 : ℚ) ^ s ≤ 2 ^ s := by
  have h := two_zpow_le_ten_zpow (s := -s) (by omega)
  rw [zpow_neg, zpow_neg] at h
  exact (inv_le_inv₀ (two_zpow_pos s) (zpow_pos (by norm_num) s)).1 h

/-- Scales far outside the range of doubles do not occur. -/
theorem scale_bounds {D : ℕ} {s : ℤ} (hD : D ≠ 0) (hlow : 2 ^ (-1075 : ℤ) ≤ (D : ℚ) * 10 ^ s)
    (hhigh : (D : ℚ) * 10 ^ s < 2 ^ (1024 : ℤ)) : s ≤ 1024 ∧ -(1076 + D.log2 : ℤ) ≤ s := by
  have hD1 : (1 : ℚ) ≤ D := by exact_mod_cast Nat.pos_of_ne_zero hD
  constructor
  · by_contra hs
    have hten : (2 : ℚ) ^ (1024 : ℤ) ≤ 10 ^ s :=
      (two_zpow_mono (by omega)).trans (two_zpow_le_ten_zpow (by omega))
    have : (10 : ℚ) ^ s ≤ D * 10 ^ s := le_mul_of_one_le_left (by positivity) hD1
    linarith
  · by_contra hs
    have hD2 : (D : ℚ) < 2 ^ ((D.log2 : ℤ) + 1) := by exact_mod_cast Nat.lt_log2_self (n := D)
    have : (D : ℚ) * 10 ^ s < 2 ^ (-1075 : ℤ) :=
      calc (D : ℚ) * 10 ^ s < 2 ^ ((D.log2 : ℤ) + 1) * 10 ^ s :=
            mul_lt_mul_of_pos_right hD2 (by positivity)
        _ ≤ 2 ^ ((D.log2 : ℤ) + 1) * 2 ^ s :=
          mul_le_mul_of_nonneg_left (ten_zpow_le_two_zpow (by omega)) (by positivity)
        _ = 2 ^ ((D.log2 : ℤ) + 1 + s) := (two_zpow_add _ _).symm
        _ ≤ 2 ^ (-1075 : ℤ) := two_zpow_mono (by omega)
    linarith

/-- A quotient of natural numbers is computed to enough binary digits. -/
theorem represents_divCore {D n : ℕ} (hD : D ≠ 0) (hn : 0 < n) :
    Represents (.ofMantissaAndAccuracy (divCore Format.binary64 D 0 n 0).1
        (divCore Format.binary64 D 0 n 0).2.2) (D / n / 2 ^ (divCore Format.binary64 D 0 n 0).2.1) ∧
      (2 ^ 52 ≤ (divCore Format.binary64 D 0 n 0).1 ∨
        (divCore Format.binary64 D 0 n 0).2.1 = -1074) := by
  let E : ℤ := min 0 (max (D.log2 - n.log2 - 53) (-1074))
  have hE : min (0 - 0) (Format.binary64.targetExponent (totalExponent D 0 - totalExponent n 0)) =
      E := by
    rw [targetExponent_binary64, totalExponent, totalExponent]
    omega
  have hcore : divCore Format.binary64 D 0 n 0 = (D * 2 ^ (-E).toNat / n, E,
      accuracyOfFraction (D * 2 ^ (-E).toNat % n) n) := by
    rw [divCore, hE]
    simp [Nat.shiftLeft_eq]
  rw [hcore]
  constructor
  · have hpow : (2 : ℚ) ^ E = ((2 ^ (-E).toNat : ℕ) : ℚ)⁻¹ := by
      rw [Nat.cast_pow, ← zpow_natCast, ← zpow_neg]
      congr 1
      omega
    have hv : (D : ℚ) / n / 2 ^ E = (D * 2 ^ (-E).toNat : ℕ) / n := by
      rw [hpow, div_inv_eq_mul, Nat.cast_mul]
      ring
    rw [hv]
    exact represents_div hn
  · by_cases hmin : E = -1074
    · exact .inr hmin
    left
    have hlogD : 2 ^ D.log2 ≤ D := Nat.log2_self_le hD
    have hlogn : n < 2 ^ (n.log2 + 1) := Nat.lt_log2_self
    rw [Nat.le_div_iff_mul_le hn]
    calc 2 ^ 52 * n ≤ 2 ^ 52 * 2 ^ (n.log2 + 1) := Nat.mul_le_mul_left _ hlogn.le
      _ = 2 ^ (52 + (n.log2 + 1)) := (Nat.pow_add ..).symm
      _ ≤ 2 ^ (D.log2 + (-E).toNat) := Nat.pow_le_pow_right (by norm_num) (by omega)
      _ = 2 ^ D.log2 * 2 ^ (-E).toNat := Nat.pow_add ..
      _ ≤ D * 2 ^ (-E).toNat := Nat.mul_le_mul_right _ hlogD

/-- A decimal that rounds to a double is read as that double. -/
theorem ofScientific_eq {D m : ℕ} {s e : ℤ} (h : RoundsTo (D * 10 ^ s) m e) (hc : Canonical m e) :
    UnpackedFloat.ofScientific Format.binary64 D s = .finite .positive m e hc.pos := by
  obtain ⟨hlow, hhigh⟩ := h.range hc
  have hD : D ≠ 0 := by
    rintro rfl
    have := two_zpow_pos (-1075)
    rw [Nat.cast_zero, zero_mul] at hlow
    linarith
  obtain ⟨hs, hs'⟩ := scale_bounds hD hlow hhigh
  have hbits : (2 ^ Format.binary64.exponentBits : ℤ) = 2048 := by norm_num
  rw [UnpackedFloat.ofScientific, dif_neg hD, hbits, if_neg (by omega), if_neg (by omega)]
  by_cases hs0 : 0 ≤ s
  · rw [if_pos hs0]
    obtain ⟨k, rfl⟩ := Int.eq_ofNat_of_zero_le hs0
    refine roundWithAccuracy_eq (v := D * 10 ^ (k : ℤ)) ?_ (.inl ?_) h hc _
    · change (D * 10 ^ (k : ℤ) : ℚ) / 2 ^ (-53 : ℤ) = ((D <<< 53 * 10 ^ k : ℕ) : ℚ)
      rw [Nat.shiftLeft_eq, zpow_natCast, zpow_neg, div_inv_eq_mul]
      push_cast
      norm_cast
      ring
    · change 2 ^ 52 ≤ D <<< 53 * 10 ^ k
      rw [Nat.shiftLeft_eq]
      calc 2 ^ 52 ≤ 1 * 2 ^ 53 * 1 := by norm_num
        _ ≤ D * 2 ^ 53 * 10 ^ k :=
          Nat.mul_le_mul (Nat.mul_le_mul_right _ (Nat.pos_of_ne_zero hD))
            (Nat.pow_pos (by norm_num))
  · rw [if_neg hs0]
    have hn : 0 < 10 ^ (-s).toNat := Nat.pow_pos (by norm_num)
    obtain ⟨hrep, hE⟩ := represents_divCore hD hn
    have hv : (D : ℚ) * 10 ^ s = D / (10 ^ (-s).toNat : ℕ) := by
      rw [Nat.cast_pow, ← zpow_natCast, div_eq_mul_inv, ← zpow_neg]
      congr 2
      omega
    rw [hv] at h
    exact roundWithAccuracy_eq hrep hE h hc _

end CallScript.Decimal
