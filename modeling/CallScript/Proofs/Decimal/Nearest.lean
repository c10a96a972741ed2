import CallScript.Proofs.Decimal.Arithmetic
import CallScript.Proofs.Decimal.Exact

/-!
# Nearest doubles

`RoundsTo` places a number between the middles of the ways from a double to its neighbours.  No
double stands between the neighbours but the one itself (`OnGrid.succ_le`, `OnGrid.le_pred`), so it
is the nearest one, and the even one where two are as near (`RoundsTo.dist_le`).  Integers are made
their nearest doubles (`isNearest_ofInt`), and up to `2 ^ 53` these are equal to them
(`exactValue?_ofInt`).
-/

namespace CallScript

open Float.Model Float.Model.UnpackedFloat Decimal

/-- The nearest double to a number: no double is nearer, the last bit is zero if another one is as
near, and the sign bit is that of the number. -/
structure IsNearest (z : Float) (q : ℚ) : Prop where
  value : ∃ v, exactValue? z = some v ∧ ∀ w u, exactValue? w = some u →
    |v - q| ≤ |u - q| ∧ (u ≠ v → |u - q| = |v - q| → z.toBits.toNat % 2 = 0)
  sign : 2 ^ 63 ≤ z.toBits.toNat ↔ q < 0

namespace Decimal

/-! ## Neighbours -/

/-- A number that is zero or, without its sign, a canonical mantissa times a power of two. -/
def OnGrid (u : ℚ) : Prop :=
  u = 0 ∨ ∃ m e, Canonical m e ∧ |u| = m * 2 ^ e

theorem OnGrid.neg {u : ℚ} (h : OnGrid u) : OnGrid (-u) := by
  unfold OnGrid at h ⊢
  rwa [neg_eq_zero, abs_neg]

theorem onGrid_of_exactValue? {x : Float} {u : ℚ} (h : exactValue? x = some u) : OnGrid u := by
  obtain ⟨negative, m, e, hbits, rfl⟩ := exactValue?_eq_some_iff.1 h
  rcases (Binary.ofBits_eq_finite x.toBits.toNat_lt hbits).1 with rfl | hc
  · left
    cases negative <;> simp [signed]
  · refine .inr ⟨m, e, hc, ?_⟩
    rw [abs_mul, abs_of_pos (two_zpow_pos e), ← Int.cast_abs, Int.abs_eq_natAbs, natAbs_signed]
    rfl

theorem mul_two_zpow_eq {e e' : ℤ} (h : e ≤ e') (m : ℕ) :
    (m * 2 ^ e' : ℚ) = (m * 2 ^ (e' - e).toNat : ℕ) * 2 ^ e := by
  have hsplit : (2 : ℚ) ^ e' = 2 ^ (e' - e).toNat * 2 ^ e := by
    rw [← zpow_natCast, ← two_zpow_add]
    congr 1
    omega
  rw [hsplit]
  push_cast
  ring

/-- Doubles of lesser exponents are below the first normal double of an exponent. -/
theorem Canonical.le_of_exponent_lt {m : ℕ} {e e' : ℤ} (hc : Canonical m e) (h : e < e') :
    (m * 2 ^ e : ℚ) ≤ (2 ^ 52 - 1 / 2) * 2 ^ e' := by
  have hm : (m : ℚ) + 1 ≤ 2 ^ 53 := by exact_mod_cast hc.lt
  calc (m * 2 ^ e : ℚ) ≤ (2 ^ 53 - 1) * 2 ^ (e' - 1) :=
        mul_le_mul (by linarith) (two_zpow_mono (by omega)) (two_zpow_pos e).le (by norm_num)
    _ = (2 ^ 52 - 1 / 2) * (2 * 2 ^ (e' - 1)) := by ring
    _ = (2 ^ 52 - 1 / 2) * 2 ^ e' := by rw [← two_zpow_add_one, sub_add_cancel]

section Neighbours

variable {m : ℕ} {e : ℤ} (hc : Canonical m e) {u : ℚ} (hu : OnGrid u)

include hc hu

/-- A greater double is greater by a unit of the last digit at least. -/
theorem OnGrid.succ_le (hlt : m * 2 ^ e < u) : (m + 1) * 2 ^ e ≤ u := by
  have hp := two_zpow_pos e
  have hpos : 0 < u := (mul_nonneg m.cast_nonneg hp.le).trans_lt hlt
  obtain ⟨m', e', hc', hvalue⟩ := hu.resolve_left hpos.ne'
  rw [abs_of_pos hpos] at hvalue
  subst hvalue
  by_cases he : e ≤ e'
  · rw [mul_two_zpow_eq he, mul_lt_mul_iff_left₀ hp, Nat.cast_lt] at hlt
    rw [mul_two_zpow_eq he]
    exact mul_le_mul_of_nonneg_right (by exact_mod_cast hlt) hp.le
  · -- Of a lesser exponent, it would be less than every normal double.
    have hnormal : 2 ^ 52 ≤ m := hc.normal.resolve_left (by have := hc'.least; omega)
    have hm : (2 ^ 52 : ℚ) ≤ m := by exact_mod_cast hnormal
    have hle := hc'.le_of_exponent_lt (not_le.1 he)
    have hless : (2 ^ 52 - 1 / 2 : ℚ) * 2 ^ e ≤ m * 2 ^ e :=
      mul_le_mul_of_nonneg_right (by linarith) hp.le
    exact absurd hlt (not_lt.2 (hle.trans hless))

/-- A smaller double is smaller by twice the gap at least. -/
theorem OnGrid.le_pred (hlt : u < m * 2 ^ e) : u ≤ (m - 2 * gapBelow m e) * 2 ^ e := by
  have hp := two_zpow_pos e
  have hgap := gapBelow_le m e
  have hm : (1 : ℚ) ≤ m := by exact_mod_cast hc.pos
  by_cases hpos : 0 < u
  · obtain ⟨m', e', hc', hvalue⟩ := hu.resolve_left hpos.ne'
    rw [abs_of_pos hpos] at hvalue
    subst hvalue
    by_cases he : e ≤ e'
    · rw [mul_two_zpow_eq he, mul_lt_mul_iff_left₀ hp, Nat.cast_lt] at hlt
      rw [mul_two_zpow_eq he]
      have hle : ((m' * 2 ^ (e' - e).toNat : ℕ) : ℚ) + 1 ≤ m := by exact_mod_cast hlt
      exact mul_le_mul_of_nonneg_right (by linarith) hp.le
    · have hleast : e ≠ -1074 := by
        have := hc'.least
        omega
      have hnormal : 2 ^ 52 ≤ m := hc.normal.resolve_left hleast
      have hpred : (2 ^ 52 - 1 / 2 : ℚ) ≤ m - 2 * gapBelow m e := by
        by_cases heq : m = 2 ^ 52
        · rw [gapBelow, if_pos ⟨heq, hleast⟩, heq]
          norm_num
        · have hm' : (2 ^ 52 + 1 : ℚ) ≤ m := by exact_mod_cast (by omega : 2 ^ 52 + 1 ≤ m)
          linarith
      exact (hc'.le_of_exponent_lt (not_le.1 he)).trans (mul_le_mul_of_nonneg_right hpred hp.le)
  · exact (not_lt.1 hpos).trans (mul_nonneg (by linarith) hp.le)

/-- No double is nearer to a number than the one it is rounded to, which is even if another one is
as near. -/
theorem RoundsTo.dist_le {v : ℚ} (h : RoundsTo v m e) :
    |m * 2 ^ e - v| ≤ |u - v| ∧ (u ≠ m * 2 ^ e → |u - v| = |m * 2 ^ e - v| → m % 2 = 0) := by
  have hp := two_zpow_pos e
  have hgap : 0 < gapBelow m e * 2 ^ e := by
    apply mul_pos _ hp
    unfold gapBelow
    split <;> norm_num
  obtain ⟨hlow, hhigh, heven⟩ := h
  rw [sub_mul] at hlow heven
  rw [add_mul] at hhigh heven
  rcases lt_trichotomy u (m * 2 ^ e) with hlt | heq | hgt
  · have hpred := hu.le_pred hc hlt
    rw [sub_mul, mul_assoc] at hpred
    rw [abs_of_nonpos (by linarith : u - v ≤ 0)]
    refine ⟨abs_le.2 ⟨by linarith, by linarith⟩, fun _ htie => heven (.inl ?_)⟩
    rcases abs_cases (m * 2 ^ e - v) with ⟨habs, -⟩ | ⟨habs, -⟩ <;> linarith
  · exact ⟨by rw [heq], fun hne => absurd heq hne⟩
  · have hsucc := hu.succ_le hc hgt
    rw [add_mul] at hsucc
    rw [abs_of_nonneg (by linarith : 0 ≤ u - v)]
    refine ⟨abs_le.2 ⟨by linarith, by linarith⟩, fun _ htie => heven (.inr ?_)⟩
    rcases abs_cases (m * 2 ^ e - v) with ⟨habs, -⟩ | ⟨habs, -⟩ <;> linarith

end Neighbours

end Decimal

/-! ## Doubles of integers -/

section

variable {m : ℕ} {e : ℤ}

/-- A number with a sign is nearest to the double it is rounded to with that sign. -/
theorem isNearest_ofModel (negative : Bool) {v : ℚ} (h : RoundsTo v m e) (hc : Canonical m e) :
    IsNearest (.ofModel (.pack (.finite (Binary.sign negative) m e hc.pos)))
      (if negative then -v else v) := by
  have hpos : 0 < v := (two_zpow_pos _).trans_le (h.range hc).1
  have hfield := Binary.exponentField_lt hc
  have hbits : (Float.ofModel (.pack (.finite (Binary.sign negative) m e hc.pos))).toBits.toNat =
      _ := Binary.pack_finite_toNat (Binary.sign negative) hc
  refine ⟨⟨_, exactValue?_ofModel negative hc, ?_⟩, ?_⟩
  · intro w u hw
    rw [hbits]
    have hgrid := onGrid_of_exactValue? hw
    cases negative with
    | false =>
      have hdist := h.dist_le hc hgrid
      simp only [signed, Bool.false_eq_true, if_false, Int.cast_natCast]
      refine ⟨hdist.1, fun hne htie => ?_⟩
      have hm := hdist.2 hne htie
      omega
    | true =>
      -- The distances are those of the numbers with the other sign.
      have hdist := h.dist_le hc hgrid.neg
      have hflip (a b : ℚ) : |a - b| = |-a - -b| := by
        rw [← abs_neg]
        congr 1
        ring
      have hvalue : ((signed true m : ℤ) : ℚ) * 2 ^ e = -(m * 2 ^ e) := by simp [signed]
      simp only [if_true, hvalue]
      rw [hflip u, hflip (-(m * 2 ^ e)), neg_neg, neg_neg]
      refine ⟨hdist.1, fun hne htie => ?_⟩
      have hm := hdist.2 (by rwa [Ne, neg_eq_iff_eq_neg]) htie
      omega
  · rw [hbits]
    cases negative with
    | false =>
      have hzero : (Binary.sign false).toBitVec.toNat = 0 := rfl
      rw [hzero]
      simp only [Bool.false_eq_true, if_false]
      exact iff_of_false (by omega) (not_lt.2 hpos.le)
    | true =>
      have hone : (Binary.sign true).toBitVec.toNat = 1 := rfl
      rw [hone]
      simp only [if_true]
      exact iff_of_true (by omega) (neg_lt_zero.2 hpos)

/-- An integer is made the double it is rounded to. -/
theorem ofInt_eq {n : ℤ} (h : RoundsTo n.natAbs m e) (hc : Canonical m e) :
    Float.ofInt n = .ofModel (.pack (.finite (Binary.sign (n < 0)) m e hc.pos)) := by
  have hnat (N : ℕ) (hN : RoundsTo N m e) : Float.ofNat N = double hc := by
    apply floatOfScientific_eq _ hc
    simpa using hN
  cases n with
  | ofNat N =>
    have hsign : decide (Int.ofNat N < 0) = false := decide_eq_false (by simp)
    rw [hsign]
    exact hnat N h
  | negSucc N =>
    have hsign : decide (Int.negSucc N < 0) = true := decide_eq_true (Int.negSucc_lt_zero N)
    rw [hsign]
    change -(Float.ofNat (N + 1)) = _
    rw [hnat (N + 1) h]
    exact Binary.neg_finite hc

theorem ofInt_zero : Float.ofInt 0 = .ofModel (.pack (.zero .positive)) := by
  decide +kernel

/-- Integers in the range of doubles are made their nearest doubles. -/
theorem isNearest_ofInt {n : ℤ} (h : |(n : ℚ)| < rangeEnd) : IsNearest (Float.ofInt n) n := by
  by_cases hn : n = 0
  · subst hn
    rw [ofInt_zero, Int.cast_zero]
    refine ⟨⟨0, exactValue?_zero false, fun w u hw => ⟨by simp, fun hne htie => ?_⟩⟩, ?_⟩
    · exact absurd (by simpa using htie) hne
    · exact iff_of_false (by decide +kernel) (lt_irrefl 0)
  · have hcast : |(n : ℚ)| = (n.natAbs : ℚ) := by
      rw [← Int.cast_abs, Int.abs_eq_natAbs]
      rfl
    have hone : (1 : ℚ) ≤ n.natAbs := by exact_mod_cast Int.natAbs_pos.2 hn
    obtain ⟨m, e, hc, -, hround⟩ := exists_roundsTo hone (hcast ▸ h)
    have hnearest := isNearest_ofModel (decide (n < 0)) hround hc
    rw [← ofInt_eq hround hc] at hnearest
    convert hnearest using 1
    by_cases hneg : n < 0
    · rw [if_pos (decide_eq_true hneg), ← hcast, abs_of_neg (by exact_mod_cast hneg), neg_neg]
    · rw [if_neg (by simpa using hneg), ← hcast, abs_of_nonneg (by exact_mod_cast not_lt.1 hneg)]

/-- Naturals up to `2 ^ 53` are doubles. -/
theorem exists_canonical_nat_le {n : ℕ} (hpos : 0 < n) (hle : n ≤ 2 ^ 53) :
    ∃ m e, Canonical m e ∧ (m * 2 ^ e : ℚ) = n := by
  rcases Nat.lt_or_eq_of_le hle with hlt | rfl
  · obtain ⟨m, e, hc, -, hvalue⟩ := exists_canonical_nat hpos hlt
    exact ⟨m, e, hc, hvalue⟩
  · exact ⟨2 ^ 52, 1, ⟨by decide, by decide, by decide, by decide, .inr le_rfl⟩, by norm_num⟩

/-- Integers up to `2 ^ 53` are equal to their doubles. -/
theorem exactValue?_ofInt {n : ℤ} (h : n.natAbs ≤ 2 ^ 53) :
    exactValue? (Float.ofInt n) = some (n : ℚ) := by
  by_cases hn : n = 0
  · subst hn
    rw [ofInt_zero]
    exact exactValue?_zero false
  · obtain ⟨m, e, hc, hvalue⟩ := exists_canonical_nat_le (Int.natAbs_pos.2 hn) h
    have hround := roundsTo_self m e
    rw [hvalue] at hround
    rw [ofInt_eq hround hc, exactValue?_ofModel _ hc, Option.some_inj, signed_eq_mul]
    push_cast
    rw [mul_assoc, hvalue]
    by_cases hneg : n < 0
    · simp [hneg, abs_of_neg]
    · simp [hneg, abs_of_nonneg (not_lt.1 hneg)]

end

end CallScript
