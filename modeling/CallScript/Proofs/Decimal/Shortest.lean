import CallScript.Decimal.Shortest
import CallScript.Proofs.Decimal.Rounding
import Mathlib.Tactic.FieldSimp

/-!
# Shortest decimals read back

The decimal that `shortest` finds for a double is one of the numbers that are rounded to the double
(`shortest_roundsTo`).  The interval of naturals that the search tests is the interval of numbers
that are rounded (`contains_around_iff`), and on the grid of seventeen digits a neighbour of the
double is always in it.
-/

namespace CallScript.Decimal

/-- The number a decimal stands for. -/
def value (d : Decimal) : ℚ :=
  d.digits * 10 ^ d.scale

theorem digits_pos {d : Decimal} {m : ℕ} {e : ℤ} (h : RoundsTo d.value m e) (hc : Canonical m e) :
    0 < d.digits := by
  rw [Nat.pos_iff_ne_zero]
  intro hzero
  have hlow := (h.range hc).1
  rw [value, hzero, Nat.cast_zero, zero_mul] at hlow
  exact absurd (two_zpow_pos (-1075)) (not_lt.2 hlow)

/-- A power with an integer exponent as a fraction of naturals. -/
theorem zpow_eq_div (a : ℚ) (k : ℤ) : a ^ k = a ^ k.toNat / a ^ (-k).toNat := by
  rcases le_total 0 k with hk | hk
  · rw [Int.toNat_of_nonpos (neg_nonpos.2 hk), pow_zero, div_one, ← zpow_natCast,
      Int.toNat_of_nonneg hk]
  · rw [Int.toNat_of_nonpos hk, pow_zero, one_div, ← zpow_natCast, Int.toNat_of_nonneg (by omega),
      zpow_neg, inv_inv]

/-! ## Digits -/

theorem digitCount_pos (n : ℕ) : 0 < digitCount n := Nat.length_toDigits_pos

theorem lt_pow_digitCount (n : ℕ) : n < 10 ^ digitCount n :=
  (Nat.length_toDigits_le_iff (by decide) (digitCount_pos n)).1 le_rfl

theorem pow_digitCount_le {n : ℕ} (hn : 0 < n) : 10 ^ (digitCount n - 1) ≤ n := by
  by_contra hlt
  rcases Nat.eq_zero_or_pos (digitCount n - 1) with hone | hpos
  · rw [hone] at hlt
    omega
  · have hle := (Nat.length_toDigits_le_iff (b := 10) (n := n) (by decide) hpos).2 (by omega)
    have hcount : digitCount n ≤ digitCount n - 1 := hle
    omega

/-- A decimal is between the power of ten of its leading digit and the next one. -/
theorem value_bounds {d : Decimal} (hpos : 0 < d.digits) :
    10 ^ (d.scale + digitCount d.digits - 1) ≤ d.value ∧
      d.value < 10 ^ (d.scale + digitCount d.digits) := by
  have hcount := digitCount_pos d.digits
  have hten (k : ℕ) : (10 : ℚ) ^ (k + d.scale) = 10 ^ k * 10 ^ d.scale := by
    rw [zpow_add₀ (by norm_num), zpow_natCast]
  constructor
  · have hlow : (10 : ℚ) ^ (digitCount d.digits - 1) ≤ d.digits := by
      exact_mod_cast pow_digitCount_le hpos
    rw [show d.scale + (digitCount d.digits : ℤ) - 1 = (digitCount d.digits - 1 : ℕ) + d.scale by
      omega, hten, value]
    gcongr
  · have hhigh : (d.digits : ℚ) < 10 ^ digitCount d.digits := by
      exact_mod_cast lt_pow_digitCount d.digits
    rw [add_comm, hten, value]
    gcongr

/-- No fraction is below the power of ten that its leading exponent names. -/
theorem leadingExponent_le {num den : ℕ} (hnum : 0 < num) (hden : 0 < den) :
    (10 : ℚ) ^ leadingExponent num den ≤ num / den := by
  have hnumQ : (0 : ℚ) < num := by exact_mod_cast hnum
  have hdenQ : (0 : ℚ) < den := by exact_mod_cast hden
  rw [le_div_iff₀ hdenQ]
  unfold leadingExponent
  split
  · next hle =>
    have hquot : 0 < num / den := Nat.div_pos hle hden
    have hcount := digitCount_pos (num / den)
    have hpow : 10 ^ (digitCount (num / den) - 1) * den ≤ num :=
      (Nat.mul_le_mul_right den (pow_digitCount_le hquot)).trans (Nat.div_mul_le_self num den)
    rw [show (digitCount (num / den) : ℤ) - 1 = ((digitCount (num / den) - 1 : ℕ) : ℤ) by omega,
      zpow_natCast]
    exact_mod_cast hpow
  · next hlt =>
    have hcount := digitCount_pos (den / num)
    dsimp only
    split
    · next hle =>
      rw [show 1 - (digitCount (den / num) : ℤ) = -((digitCount (den / num) - 1 : ℕ) : ℤ) by omega,
        zpow_neg, zpow_natCast, inv_mul_le_iff₀ (by positivity), mul_comm]
      exact_mod_cast hle
    · have hpow : den < num * 10 ^ digitCount (den / num) := by
        rw [mul_comm, ← Nat.div_lt_iff_lt_mul hnum]
        exact lt_pow_digitCount _
      rw [zpow_neg, zpow_natCast, inv_mul_le_iff₀ (by positivity), mul_comm]
      exact_mod_cast hpow.le

/-- Every fraction is below the power of ten after the one that its leading exponent names. -/
theorem lt_leadingExponent {num den : ℕ} (hnum : 0 < num) (hden : 0 < den) :
    (num / den : ℚ) < 10 ^ (leadingExponent num den + 1) := by
  have hnumQ : (0 : ℚ) < num := by exact_mod_cast hnum
  have hdenQ : (0 : ℚ) < den := by exact_mod_cast hden
  rw [div_lt_iff₀ hdenQ]
  unfold leadingExponent
  split
  · have hpow : num < 10 ^ digitCount (num / den) * den := by
      rw [← Nat.div_lt_iff_lt_mul hden]
      exact lt_pow_digitCount _
    rw [sub_add_cancel, zpow_natCast]
    exact_mod_cast hpow
  · next hlt =>
    have hcount := digitCount_pos (den / num)
    dsimp only
    split
    · have hpow : num * 10 ^ (digitCount (den / num) - 1) ≤ den := by
        rw [mul_comm, ← Nat.le_div_iff_mul_le hnum]
        exact pow_digitCount_le (Nat.div_pos (by omega) hnum)
      have hpowQ : (num : ℚ) * 10 ^ (digitCount (den / num) - 1) ≤ den := by exact_mod_cast hpow
      rw [show 1 - (digitCount (den / num) : ℤ) + 1 =
        1 + -((digitCount (den / num) - 1 : ℕ) : ℤ) by omega, zpow_add₀ (by norm_num), zpow_one,
        zpow_neg, zpow_natCast, mul_assoc, ← div_eq_inv_mul, mul_div_assoc',
        lt_div_iff₀ (by positivity)]
      linarith
    · next hpow =>
      rw [show -(digitCount (den / num) : ℤ) + 1 = -((digitCount (den / num) - 1 : ℕ) : ℤ) by
        omega, zpow_neg, zpow_natCast, ← div_eq_inv_mul, lt_div_iff₀ (by positivity)]
      exact_mod_cast Nat.lt_of_not_le hpow

/-! ## The interval -/

section

variable {m : ℕ} {e : ℤ}

theorem four_mul_zpow (e : ℤ) : (4 : ℚ) * 2 ^ (e - 2) = 2 ^ e := by
  rw [sub_eq_add_neg, two_zpow_add, mul_left_comm]
  norm_num

/-- The naturals that the search compares are quarters of a double's last binary digit and
decimals, both multiplied by one positive number. -/
theorem exists_common_factor (e k : ℤ) :
    ∃ s : ℚ, 0 < s ∧
      (∀ x : ℕ, ((x * 2 ^ (e - 2).toNat * 10 ^ (-k).toNat : ℕ) : ℚ) = x * 2 ^ (e - 2) * s) ∧
      ∀ x : ℕ, ((x * 10 ^ k.toNat * 2 ^ (2 - e).toNat : ℕ) : ℚ) = x * 10 ^ k * s := by
  refine ⟨2 ^ (2 - e).toNat * 10 ^ (-k).toNat, by positivity, fun x => ?_, fun x => ?_⟩
  · rw [zpow_eq_div 2 (e - 2), neg_sub]
    push_cast
    field_simp
  · rw [zpow_eq_div 10 k]
    push_cast
    field_simp

theorem le_iff_of_common_factor {p q : ℕ} {x y s : ℚ} (hs : 0 < s) (hp : (p : ℚ) = x * s)
    (hq : (q : ℚ) = y * s) : p ≤ q ↔ x ≤ y := by
  have hcast : p ≤ q ↔ (p : ℚ) ≤ q := Nat.cast_le.symm
  rw [hcast, hp, hq, mul_le_mul_iff_left₀ hs]

/-- The quarters below a double that are rounded to it, as the interval counts them. -/
def quartersBelow (m : ℕ) (e : ℤ) : ℕ :=
  if m = 2 ^ 52 && e ≠ -1074 then 1 else 2

theorem around_eq (m : ℕ) (e : ℤ) :
    Interval.around m e =
      { low := (4 * m - quartersBelow m e) * 2 ^ (e - 2).toNat
        mid := 4 * m * 2 ^ (e - 2).toNat
        high := (4 * m + 2) * 2 ^ (e - 2).toNat
        den := 2 ^ (2 - e).toNat
        closed := m % 2 = 0 } := by
  simp only [Interval.around, quartersBelow, Nat.one_shiftLeft]

theorem low_quarters (hpos : 0 < m) :
    ((4 * m - quartersBelow m e : ℕ) : ℚ) * 2 ^ (e - 2) = (m - gapBelow m e) * 2 ^ e := by
  have hle : quartersBelow m e ≤ 4 * m := by
    unfold quartersBelow
    split <;> omega
  have hquarter : (quartersBelow m e : ℚ) = 4 * gapBelow m e := by
    rw [quartersBelow, gapBelow]
    simp only [Bool.and_eq_true, decide_eq_true_eq]
    split <;> norm_num
  rw [Nat.cast_sub hle, hquarter, ← four_mul_zpow e]
  push_cast
  ring

theorem high_quarters (m : ℕ) (e : ℤ) :
    ((4 * m + 2 : ℕ) : ℚ) * 2 ^ (e - 2) = (m + 1 / 2) * 2 ^ e := by
  rw [← four_mul_zpow e]
  push_cast
  ring

theorem contains_iff (interval : Interval) (up down digits : ℕ) :
    interval.contains up down digits = true ↔
      if interval.closed = true then
        interval.low * down ≤ digits * up * interval.den ∧
          digits * up * interval.den ≤ interval.high * down
      else
        interval.low * down < digits * up * interval.den ∧
          digits * up * interval.den < interval.high * down := by
  unfold Interval.contains
  split <;> simp

/-- The numbers an interval contains are those that are rounded to its double. -/
theorem contains_around_iff (hpos : 0 < m) (k : ℤ) (digits : ℕ) :
    (Interval.around m e).contains (10 ^ k.toNat) (10 ^ (-k).toNat) digits = true ↔
      RoundsTo (digits * 10 ^ k) m e := by
  obtain ⟨s, hs, hquarters, hdecimal⟩ := exists_common_factor e k
  have hlow := hquarters (4 * m - quartersBelow m e)
  have hhigh := hquarters (4 * m + 2)
  have hpoint := hdecimal digits
  rw [low_quarters hpos] at hlow
  rw [high_quarters] at hhigh
  simp only [contains_iff, around_eq, decide_eq_true_eq]
  generalize (4 * m - quartersBelow m e) * 2 ^ (e - 2).toNat * 10 ^ (-k).toNat = low at hlow ⊢
  generalize (4 * m + 2) * 2 ^ (e - 2).toNat * 10 ^ (-k).toNat = high at hhigh ⊢
  generalize digits * 10 ^ k.toNat * 2 ^ (2 - e).toNat = point at hpoint ⊢
  have hiff : RoundsTo (digits * 10 ^ k) m e ↔
      low ≤ point ∧ point ≤ high ∧ (point = low ∨ point = high → m % 2 = 0) := by
    rw [le_antisymm_iff (a := point), le_antisymm_iff (a := point),
      le_iff_of_common_factor hs hlow hpoint, le_iff_of_common_factor hs hpoint hhigh,
      le_iff_of_common_factor hs hpoint hlow, le_iff_of_common_factor hs hhigh hpoint,
      ← le_antisymm_iff, ← le_antisymm_iff]
    exact ⟨fun h => ⟨h.lower, h.upper, h.even⟩, fun h => ⟨h.1, h.2.1, h.2.2⟩⟩
  rw [hiff]
  split <;> omega

/-! ## The search -/

/-- What is picked is on the grid and in the interval, and not beyond the upper neighbour. -/
theorem pick?_eq_some {interval : Interval} {tie : Tie} {k : ℤ} {d : Decimal}
    (h : interval.pick? tie k = some d) :
    d.scale = k ∧ interval.contains (10 ^ k.toNat) (10 ^ (-k).toNat) d.digits = true ∧
      d.digits ≤ interval.mid * 10 ^ (-k).toNat / (interval.den * 10 ^ k.toNat) + 1 := by
  simp only [Interval.pick?, Nat.pow_eq] at h
  split at h
  · cases h
  · next hlower _ => cases h; exact ⟨rfl, hlower, Nat.le_succ _⟩
  · next _ hupper => cases h; exact ⟨rfl, hupper, le_rfl⟩
  · next hlower hupper =>
    -- Both neighbours read back, and whichever is taken is one of them.
    split at h
    · cases h; exact ⟨rfl, hlower, Nat.le_succ _⟩
    · split at h
      · cases h; exact ⟨rfl, hupper, le_rfl⟩
      · cases tie with
        | up => cases h; exact ⟨rfl, hupper, le_rfl⟩
        | even =>
          dsimp only at h
          split at h
          · cases h; exact ⟨rfl, hlower, Nat.le_succ _⟩
          · cases h; exact ⟨rfl, hupper, le_rfl⟩

/-- Nothing is picked only if neither neighbour of the middle is in the interval. -/
theorem pick?_eq_none {interval : Interval} {tie : Tie} {k : ℤ}
    (h : interval.pick? tie k = none) :
    let lower := interval.mid * 10 ^ (-k).toNat / (interval.den * 10 ^ k.toNat)
    interval.contains (10 ^ k.toNat) (10 ^ (-k).toNat) lower = false ∧
      interval.contains (10 ^ k.toNat) (10 ^ (-k).toNat) (lower + 1) = false := by
  simp only [Interval.pick?, Nat.pow_eq] at h
  split at h
  · next hlower hupper => exact ⟨hlower, hupper⟩
  · cases h
  · cases h
  · split at h
    · cases h
    · split at h
      · cases h
      · cases tie <;> cases h

/-- The neighbours of a double on a decimal grid. -/
theorem neighbours (m : ℕ) (e k : ℤ) :
    let interval := Interval.around m e
    let lower := interval.mid * 10 ^ (-k).toNat / (interval.den * 10 ^ k.toNat)
    (lower : ℚ) * 10 ^ k ≤ m * 2 ^ e ∧ m * 2 ^ e < ((lower + 1 : ℕ) : ℚ) * 10 ^ k := by
  obtain ⟨s, hs, hquarters, hdecimal⟩ := exists_common_factor e k
  have hmid : ((4 * m * 2 ^ (e - 2).toNat * 10 ^ (-k).toNat : ℕ) : ℚ) = m * 2 ^ e * s := by
    rw [hquarters, ← four_mul_zpow e]
    push_cast
    ring
  have hstep : 0 < 2 ^ (2 - e).toNat * 10 ^ k.toNat := by positivity
  simp only [around_eq]
  generalize hlower : 4 * m * 2 ^ (e - 2).toNat * 10 ^ (-k).toNat /
    (2 ^ (2 - e).toNat * 10 ^ k.toNat) = lower
  have hgrid (x : ℕ) : ((x * (2 ^ (2 - e).toNat * 10 ^ k.toNat) : ℕ) : ℚ) = x * 10 ^ k * s := by
    rw [← hdecimal x, mul_assoc, mul_comm (10 ^ k.toNat)]
  constructor
  · rw [← le_iff_of_common_factor hs (hgrid lower) hmid, ← hlower]
    exact Nat.div_mul_le_self _ _
  · rw [← not_le, ← le_iff_of_common_factor hs (hgrid (lower + 1)) hmid, not_le, ← hlower,
      mul_comm (_ + 1)]
    exact Nat.lt_mul_div_succ _ hstep

/-- With seventeen digits, half of a step of the grid is less than the way to either end. -/
theorem half_step_lt {lead : ℤ} (hlt : m < 2 ^ 53) (hlead : (10 : ℚ) ^ lead ≤ m * 2 ^ e) :
    10 ^ (lead - 16) / 2 < gapBelow m e * (2 : ℚ) ^ e := by
  have hunit := two_zpow_pos e
  have hstep : (10 : ℚ) ^ (lead - 16) = 10 ^ lead / 10 ^ 16 := by
    rw [zpow_sub₀ (by norm_num)]
    norm_num
  have hgap : (m : ℚ) / 10 ^ 16 / 2 < gapBelow m e := by
    unfold gapBelow
    split
    · next hpower =>
      rw [hpower.1]
      norm_num
    · have hltQ : (m : ℚ) < 2 ^ 53 := by exact_mod_cast hlt
      rw [div_div, div_lt_iff₀ (by norm_num)]
      exact hltQ.trans (by norm_num)
  calc (10 : ℚ) ^ (lead - 16) / 2 ≤ m * 2 ^ e / 10 ^ 16 / 2 := by
        rw [hstep]
        gcongr
    _ = m / 10 ^ 16 / 2 * 2 ^ e := by ring
    _ < gapBelow m e * 2 ^ e := by gcongr

/-- Numbers within half of a small step of a double are rounded to it. -/
theorem roundsTo_of_near {v step : ℚ} (hstep : step / 2 < gapBelow m e * 2 ^ e)
    (hlow : m * 2 ^ e - step / 2 ≤ v) (hhigh : v ≤ m * 2 ^ e + step / 2) : RoundsTo v m e := by
  have hunit := two_zpow_pos e
  have hgap : gapBelow m e * 2 ^ e ≤ 1 / 2 * 2 ^ e :=
    mul_le_mul_of_nonneg_right (gapBelow_le m e) hunit.le
  have hlower : (m - gapBelow m e) * 2 ^ e < v := by
    rw [sub_mul]
    linarith
  have hupper : v < (m + 1 / 2) * 2 ^ e := by
    rw [add_mul]
    linarith
  exact ⟨hlower.le, hupper.le, fun h => by rcases h with h | h <;> linarith⟩

/-- Of the two ends of a small step over a double, one is rounded to it. -/
theorem roundsTo_neighbour {v step : ℚ} (hstep : step / 2 < gapBelow m e * 2 ^ e)
    (hlower : v ≤ m * 2 ^ e) (hupper : m * 2 ^ e < v + step) :
    RoundsTo v m e ∨ RoundsTo (v + step) m e := by
  rcases le_total ((m : ℚ) * 2 ^ e) (v + step / 2) with hnear | hnear
  · exact .inl (roundsTo_of_near hstep (by linarith) (by linarith))
  · exact .inr (roundsTo_of_near hstep (by linarith) (by linarith))

/-- On the grid of seventeen digits something is always picked. -/
theorem pick?_ne_none (hc : Canonical m e) (tie : Tie) {lead : ℤ}
    (hlead : (10 : ℚ) ^ lead ≤ m * 2 ^ e) :
    (Interval.around m e).pick? tie (lead - 16) ≠ none := by
  intro hnone
  obtain ⟨hnotLower, hnotUpper⟩ := pick?_eq_none hnone
  obtain ⟨hlower, hupper⟩ := neighbours m e (lead - 16)
  rw [Bool.eq_false_iff, Ne, contains_around_iff hc.pos] at hnotLower hnotUpper
  rw [Nat.cast_add, Nat.cast_one, add_mul, one_mul] at hupper hnotUpper
  rcases roundsTo_neighbour (half_step_lt hc.lt hlead) hlower hupper with h | h
  · exact hnotLower h
  · exact hnotUpper h

theorem value_stripZeros (fuel : ℕ) (d : Decimal) : (stripZeros fuel d).value = d.value := by
  induction fuel generalizing d with
  | zero => rfl
  | succ fuel ih =>
    rw [stripZeros]
    split
    · next hzero =>
      simp only [Bool.and_eq_true, decide_eq_true_eq] at hzero
      have hten : ((d.digits / 10 : ℕ) : ℚ) * 10 = d.digits := by
        exact_mod_cast Nat.div_mul_cancel (Nat.dvd_of_mod_eq_zero hzero.1)
      rw [ih, value, value, zpow_add₀ (by norm_num), zpow_one, ← hten]
      ring
    · rfl

theorem digits_stripZeros_le (fuel : ℕ) (d : Decimal) : (stripZeros fuel d).digits ≤ d.digits := by
  induction fuel generalizing d with
  | zero => exact le_rfl
  | succ fuel ih =>
    rw [stripZeros]
    split
    · exact (ih _).trans (Nat.div_le_self _ _)
    · exact le_rfl

theorem mid_div_den (m : ℕ) (e : ℤ) :
    ((Interval.around m e).mid : ℚ) / (Interval.around m e).den = m * 2 ^ e := by
  simp only [around_eq]
  rw [← four_mul_zpow e, zpow_eq_div 2 (e - 2), neg_sub]
  push_cast
  ring

/-- The shortest decimal is picked from one of seventeen grids below the leading digit. -/
theorem exists_pick?_shortest (hc : Canonical m e) (tie : Tie) :
    ∃ (lead : ℤ) (extra : ℕ) (d : Decimal), extra < 17 ∧ m * 2 ^ e < (10 : ℚ) ^ (lead + 1) ∧
      (Interval.around m e).pick? tie (lead - extra) = some d ∧
      shortest tie m e = stripZeros 17 d := by
  have hpos := hc.pos
  have hnum : 0 < (Interval.around m e).mid := by
    simp only [around_eq]
    positivity
  have hden : 0 < (Interval.around m e).den := by
    simp only [around_eq]
    positivity
  have hlead := leadingExponent_le hnum hden
  have hlead' := lt_leadingExponent hnum hden
  rw [mid_div_den] at hlead hlead'
  cases hfound : (List.range 17).findSome? fun (extra : ℕ) => (Interval.around m e).pick? tie
      (leadingExponent (Interval.around m e).mid (Interval.around m e).den - extra) with
  | none =>
    have hnone := List.findSome?_eq_none_iff.1 hfound 16 (by decide)
    exact absurd hnone (pick?_ne_none hc tie hlead)
  | some d =>
    obtain ⟨extra, hextra, hpick⟩ := List.exists_of_findSome?_eq_some hfound
    refine ⟨_, extra, d, List.mem_range.1 hextra, hlead', hpick, ?_⟩
    simp only [shortest, hfound, Option.getD_some]

/-- The shortest decimal of a double is rounded to the double. -/
theorem shortest_roundsTo (hc : Canonical m e) (tie : Tie) :
    RoundsTo (shortest tie m e).value m e := by
  obtain ⟨lead, extra, d, -, -, hpick, heq⟩ := exists_pick?_shortest hc tie
  obtain ⟨hscale, hcontains, -⟩ := pick?_eq_some hpick
  rw [contains_around_iff hc.pos, ← hscale] at hcontains
  rw [heq, value_stripZeros]
  exact hcontains

/-- The shortest decimal of a double has at most seventeen digits. -/
theorem digits_shortest_le (hc : Canonical m e) (tie : Tie) :
    (shortest tie m e).digits ≤ 10 ^ 17 := by
  obtain ⟨lead, extra, d, hextra, hlead, hpick, heq⟩ := exists_pick?_shortest hc tie
  obtain ⟨-, -, hupper⟩ := pick?_eq_some hpick
  have hlower := (neighbours m e (lead - extra)).1
  rw [heq]
  refine (digits_stripZeros_le 17 d).trans (hupper.trans ?_)
  generalize (Interval.around m e).mid * 10 ^ (-(lead - extra)).toNat /
    ((Interval.around m e).den * 10 ^ (lead - (extra : ℤ)).toNat) = lower at hlower ⊢
  have hsplit : (10 : ℚ) ^ (lead + 1) = 10 ^ (extra + 1) * 10 ^ (lead - extra) := by
    rw [← zpow_natCast, ← zpow_add₀ (by norm_num)]
    congr 1
    push_cast
    ring
  have hlt : (lower : ℚ) < 10 ^ (extra + 1) := by
    have hstep : (0 : ℚ) < 10 ^ (lead - extra) := by positivity
    rw [hsplit] at hlead
    exact lt_of_mul_lt_mul_right (hlower.trans_lt hlead) hstep.le
  have hlt' : lower < 10 ^ (extra + 1) := by exact_mod_cast hlt
  exact Nat.succ_le_of_lt (hlt'.trans_le (Nat.pow_le_pow_right (by norm_num) (by omega)))

end

end CallScript.Decimal
