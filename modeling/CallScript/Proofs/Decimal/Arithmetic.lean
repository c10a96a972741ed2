import CallScript.Proofs.Decimal.Bits
import CallScript.Proofs.Decimal.Shortest

/-!
# Rounded arithmetic

Every number from one up to the end of the range of doubles is rounded to some double
(`exists_roundsTo`), which is greater than it by less than one part in `2 ^ 53` (`RoundsTo.le_mul`).
Products of doubles (`double_mul`) and decimals with a scale (`floatOfScientific_eq`) are rounded
so.
-/

namespace CallScript.Decimal

open Float.Model Float.Model.UnpackedFloat

/-! ## Existence -/

/-- The upper end of the range of doubles: halfway from the greatest one to the next power of
two. -/
def rangeEnd : ℚ := (2 ^ 53 - 1 / 2) * 2 ^ (971 : ℤ)

/-- The nearest natural number, the even one of two. -/
theorem exists_nearest {q : ℚ} (hq : 0 ≤ q) :
    ∃ m : ℕ, m - 1 / 2 ≤ q ∧ q ≤ m + 1 / 2 ∧
      (q = m - 1 / 2 ∨ q = m + 1 / 2 → m % 2 = 0) := by
  have hlow : (⌊q⌋₊ : ℚ) ≤ q := Nat.floor_le hq
  have hhigh : q < ⌊q⌋₊ + 1 := Nat.lt_floor_add_one q
  generalize ⌊q⌋₊ = n at hlow hhigh
  rcases lt_trichotomy q (n + 1 / 2) with h | h | h
  · refine ⟨n, by linarith, h.le, ?_⟩
    rintro (h' | h') <;> linarith
  · rcases Nat.mod_two_eq_zero_or_one n with hn | hn
    · exact ⟨n, by linarith, h.le, fun _ => hn⟩
    · refine ⟨n + 1, ?_, ?_, fun _ => by omega⟩ <;> push_cast <;> linarith
  · refine ⟨n + 1, by push_cast; linarith, by push_cast; linarith, ?_⟩
    rintro (h' | h') <;> push_cast at h' <;> linarith

theorem rangeEnd_lt : rangeEnd < 2 ^ (1024 : ℤ) := by
  have hp := two_zpow_pos 971
  calc rangeEnd < 2 ^ (53 : ℤ) * 2 ^ (971 : ℤ) := mul_lt_mul_of_pos_right (by norm_num) hp
    _ = 2 ^ (1024 : ℤ) := (two_zpow_add 53 971).symm

theorem exists_binade {v : ℚ} (hlow : 1 ≤ v) (hhigh : v < rangeEnd) :
    ∃ e : ℤ, -52 ≤ e ∧ e ≤ 971 ∧ 2 ^ 52 ≤ v / 2 ^ e ∧ v / 2 ^ e < 2 ^ 53 := by
  have hpos : 0 < v := zero_lt_one.trans_le hlow
  obtain ⟨k, hk, hk'⟩ : ∃ k : ℤ, (2 : ℚ) ^ k ≤ v ∧ v < 2 ^ (k + 1) :=
    ⟨Int.log 2 v, by exact_mod_cast Int.zpow_log_le_self (by norm_num) hpos,
      by exact_mod_cast Int.lt_zpow_succ_log_self (by norm_num) v⟩
  have hone : (1 : ℚ) < 2 := by norm_num
  have hk0 : 0 < k + 1 := by
    rw [← zpow_lt_zpow_iff_right₀ hone, zpow_zero]
    exact hlow.trans_lt hk'
  have hk1 : k < 1024 := by
    rw [← zpow_lt_zpow_iff_right₀ hone]
    exact hk.trans_lt (hhigh.trans rangeEnd_lt)
  have hp := two_zpow_pos (k - 52)
  refine ⟨k - 52, by omega, by omega, ?_, ?_⟩
  · have hsplit : (2 : ℚ) ^ k = 2 ^ 52 * 2 ^ (k - 52) := by
      rw [← zpow_natCast, ← two_zpow_add]
      congr 1
      push_cast
      omega
    rw [le_div_iff₀ hp, ← hsplit]
    exact hk
  · have hsplit : (2 : ℚ) ^ (k + 1) = 2 ^ 53 * 2 ^ (k - 52) := by
      rw [← zpow_natCast, ← two_zpow_add]
      congr 1
      push_cast
      omega
    rw [div_lt_iff₀ hp, ← hsplit]
    exact hk'

/-- Every number from one up to the end of the range is rounded to a normal double. -/
theorem exists_roundsTo {v : ℚ} (hlow : 1 ≤ v) (hhigh : v < rangeEnd) :
    ∃ m e, Canonical m e ∧ 2 ^ 52 ≤ m ∧ RoundsTo v m e := by
  obtain ⟨e, he, he', hq, hq'⟩ := exists_binade hlow hhigh
  have hp := two_zpow_pos e
  have hv : v = v / 2 ^ e * 2 ^ e := (div_mul_cancel₀ v hp.ne').symm
  generalize v / 2 ^ e = q at hq hq' hv
  obtain ⟨m, hm, hm', heven⟩ := exists_nearest (q := q) (by linarith)
  have hleast : 2 ^ 52 ≤ m := by
    have : (2 ^ 52 : ℚ) < m + 1 := by linarith
    exact Nat.lt_succ_iff.1 (by exact_mod_cast this)
  have hgreatest : m ≤ 2 ^ 53 := by
    have : (m : ℚ) < 2 ^ 53 + 1 := by linarith
    exact Nat.lt_succ_iff.1 (by exact_mod_cast this)
  rcases Nat.lt_or_eq_of_le hgreatest with hlt | rfl
  · refine ⟨m, e, ⟨by omega, hlt, by omega, he', .inr hleast⟩, hleast, ?_⟩
    have hgap : gapBelow m e = 1 / 2 ∨ (m : ℚ) ≤ q := by
      unfold gapBelow
      split
      · next h =>
        rw [h.1]
        exact .inr (by exact_mod_cast hq)
      · exact .inl rfl
    have hgapPos : 0 < gapBelow m e := by
      unfold gapBelow
      split <;> norm_num
    rw [hv]
    refine ⟨mul_le_mul_of_nonneg_right ?_ hp.le, mul_le_mul_of_nonneg_right hm' hp.le, ?_⟩
    · rcases hgap with hgap | hgap <;> linarith
    · rw [mul_left_inj' hp.ne', mul_left_inj' hp.ne']
      rintro (h | h)
      · rcases hgap with hgap | hgap
        · exact heven (.inl (by rw [h, hgap]))
        · linarith
      · exact heven (.inr h)
  · -- Rounded up to a power of two, the number belongs to the next exponent.
    have hlast : e ≠ 971 := by
      rintro rfl
      have hend : rangeEnd ≤ v := by
        rw [rangeEnd, hv]
        exact mul_le_mul_of_nonneg_right (by push_cast at hm; linarith) hp.le
      exact absurd hhigh (not_lt.2 hend)
    refine ⟨2 ^ 52, e + 1, ⟨by norm_num, by norm_num, by omega, by omega, .inr le_rfl⟩, le_rfl, ?_⟩
    have hgap : gapBelow (2 ^ 52) (e + 1) = 1 / 4 := if_pos ⟨rfl, by omega⟩
    push_cast at hm
    refine ⟨?_, ?_, fun _ => by norm_num⟩
    · rw [hgap, hv, two_zpow_add_one]
      push_cast
      nlinarith
    · rw [hv, two_zpow_add_one]
      push_cast
      nlinarith

/-- A normal double is greater than what is rounded to it by less than one part in `2 ^ 53`. -/
theorem RoundsTo.le_mul {v : ℚ} {m : ℕ} {e : ℤ} (h : RoundsTo v m e) (hm : 2 ^ 52 ≤ m) :
    (m * 2 ^ e : ℚ) * (2 ^ 53 - 1) ≤ v * 2 ^ 53 := by
  have hp := two_zpow_pos e
  have hgap := gapBelow_le m e
  have hmQ : (2 ^ 52 : ℚ) ≤ m := by exact_mod_cast hm
  calc (m * 2 ^ e : ℚ) * (2 ^ 53 - 1) = m * (2 ^ 53 - 1) * 2 ^ e := by ring
    _ ≤ (m - gapBelow m e) * 2 ^ 53 * 2 ^ e :=
      mul_le_mul_of_nonneg_right (by linarith) hp.le
    _ = (m - gapBelow m e) * 2 ^ e * 2 ^ 53 := by ring
    _ ≤ v * 2 ^ 53 := mul_le_mul_of_nonneg_right h.lower (by norm_num)

/-! ## Operations -/

/-- The positive double with a mantissa and an exponent. -/
def double {m : ℕ} {e : ℤ} (hc : Canonical m e) : Float :=
  .ofModel (.pack (.finite .positive m e hc.pos))

theorem isInf_double {m : ℕ} {e : ℤ} (hc : Canonical m e) : (double hc).isInf = false :=
  congrArg UnpackedFloat.isInf (Binary.unpack_pack_finite .positive hc)

/-- A natural number is made the double it is rounded to. -/
theorem ofNat_eq {n m : ℕ} {e : ℤ} (h : RoundsTo n m e) (hc : Canonical m e) :
    UnpackedFloat.ofNat Format.binary64 n = .finite .positive m e hc.pos := by
  have hn : n ≠ 0 := by
    rintro rfl
    have hlow := (h.range hc).1
    rw [Nat.cast_zero] at hlow
    exact absurd (two_zpow_pos (-1075)) (not_lt.2 hlow)
  have hgt : compare (n : ℤ) 0 = .gt := Int.compare_eq_gt.2 (by omega)
  have ht : Format.binary64.targetExponent (totalExponent n 0) = (n.log2 : ℤ) - 52 := by
    rw [targetExponent_eq]
    omega
  rw [UnpackedFloat.ofNat, UnpackedFloat.ofInt, UnpackedFloat.normalize, hgt]
  dsimp only
  rw [Int.toNat_natCast, UnpackedFloat.round, ht, decreaseExponent]
  dsimp only
  generalize hk : (0 - ((n.log2 : ℤ) - 52)).toNat = k
  refine roundWithAccuracy_eq (v := n) ?_ (.inl ?_) h hc _
  · change (n : ℚ) / 2 ^ (0 - k : ℤ) = ((n <<< k : ℕ) : ℚ)
    rw [zero_sub, zpow_neg, div_inv_eq_mul, Nat.shiftLeft_eq, zpow_natCast]
    push_cast
    rfl
  · rw [Nat.shiftLeft_eq]
    calc 2 ^ 52 ≤ 2 ^ (n.log2 + k) := Nat.pow_le_pow_right (by norm_num) (by omega)
      _ = 2 ^ n.log2 * 2 ^ k := Nat.pow_add ..
      _ ≤ n * 2 ^ k := Nat.mul_le_mul_right _ (Nat.log2_self_le hn)

/-- A product of doubles is the double that the product of their values is rounded to. -/
theorem double_mul {m₁ m₂ m : ℕ} {e₁ e₂ e : ℤ} (hc₁ : Canonical m₁ e₁) (hc₂ : Canonical m₂ e₂)
    (hm : 2 ^ 52 ≤ m₁) (h : RoundsTo (m₁ * 2 ^ e₁ * (m₂ * 2 ^ e₂)) m e) (hc : Canonical m e) :
    double hc₁ * double hc₂ = double hc := by
  have hround : roundWithAccuracy Format.binary64 .positive (m₁ * m₂) (e₁ + e₂) .exact =
      .finite .positive m e hc.pos := by
    refine roundWithAccuracy_eq (v := m₁ * 2 ^ e₁ * (m₂ * 2 ^ e₂)) ?_ (.inl ?_) h hc _
    · change (m₁ * 2 ^ e₁ * (m₂ * 2 ^ e₂) : ℚ) / 2 ^ (e₁ + e₂) = ((m₁ * m₂ : ℕ) : ℚ)
      have hp := (two_zpow_pos (e₁ + e₂)).ne'
      rw [div_eq_iff hp, two_zpow_add]
      push_cast
      ring
    · exact hm.trans (Nat.le_mul_of_pos_right _ hc₂.pos)
  have hproduct : UnpackedFloat.mul Format.binary64 (.finite .positive m₁ e₁ hc₁.pos)
      (.finite .positive m₂ e₂ hc₂.pos) = .finite .positive m e hc.pos := hround
  change Float.ofModel (.pack (UnpackedFloat.mul Format.binary64
    (Float.Model.pack (.finite .positive m₁ e₁ hc₁.pos)).unpack
    (Float.Model.pack (.finite .positive m₂ e₂ hc₂.pos)).unpack)) = _
  rw [Binary.unpack_pack_finite .positive hc₁, Binary.unpack_pack_finite .positive hc₂, hproduct]
  rfl

/-- A double is what its value is rounded to. -/
theorem roundsTo_self (m : ℕ) (e : ℤ) : RoundsTo (m * 2 ^ e) m e := by
  have hp := two_zpow_pos e
  have hgap : 0 < gapBelow m e := by
    unfold gapBelow
    split <;> norm_num
  refine ⟨mul_le_mul_of_nonneg_right (by linarith) hp.le,
    mul_le_mul_of_nonneg_right (by linarith) hp.le, ?_⟩
  rw [mul_left_inj' hp.ne', mul_left_inj' hp.ne']
  rintro (h | h) <;> linarith

/-- Naturals of at most 53 binary digits are doubles. -/
theorem exists_canonical_nat {n : ℕ} (hpos : 0 < n) (hlt : n < 2 ^ 53) :
    ∃ m e, Canonical m e ∧ 2 ^ 52 ≤ m ∧ (m * 2 ^ e : ℚ) = n := by
  have hlog : n.log2 ≤ 52 := Nat.lt_succ_iff.1 ((Nat.log2_lt hpos.ne').2 hlt)
  have hlow := Nat.log2_self_le hpos.ne'
  have hhigh := Nat.lt_log2_self (n := n)
  generalize hk : 52 - n.log2 = k
  have hleast : 2 ^ 52 ≤ n * 2 ^ k :=
    calc 2 ^ 52 = 2 ^ n.log2 * 2 ^ k := by rw [← Nat.pow_add]; congr 1; omega
      _ ≤ n * 2 ^ k := Nat.mul_le_mul_right _ hlow
  have hgreatest : n * 2 ^ k < 2 ^ 53 :=
    calc n * 2 ^ k < 2 ^ (n.log2 + 1) * 2 ^ k :=
          Nat.mul_lt_mul_of_pos_right hhigh (Nat.two_pow_pos k)
      _ = 2 ^ 53 := by rw [← Nat.pow_add]; congr 1; omega
  refine ⟨n * 2 ^ k, -k, ⟨by omega, hgreatest, by omega, by omega, .inr hleast⟩, hleast, ?_⟩
  rw [zpow_neg, zpow_natCast]
  push_cast
  exact mul_inv_cancel_right₀ (by positivity) _

/-- Whether a double is a power of ten. -/
def isTenPow (k : ℕ) (x : Float) : Bool :=
  match Binary.ofFloat x with
  | .finite false m e => m * 2 ^ e.toNat == 10 ^ k * 2 ^ (-e).toNat
  | _ => false

theorem isTenPow_table : ∀ k, (hk : k < Float.exactlyRepresentablePowersOfTen.size) →
    isTenPow k Float.exactlyRepresentablePowersOfTen[k] = true := by
  decide +kernel

theorem exists_double_of_isTenPow {k : ℕ} {x : Float} (h : isTenPow k x = true) :
    ∃ m e, ∃ hc : Canonical m e, x = double hc ∧ (m * 2 ^ e : ℚ) = 10 ^ k := by
  unfold isTenPow at h
  split at h
  · next m e hbits =>
    have hvalue := eq_of_beq h
    have hm : m ≠ 0 := by
      rintro rfl
      have : 0 < 10 ^ k * 2 ^ (-e).toNat := by positivity
      omega
    have hc := (Binary.ofBits_eq_finite x.toBits.toNat_lt hbits).1.resolve_left hm
    refine ⟨m, e, hc, Binary.eq_ofModel_of_finite hbits hc, ?_⟩
    rw [zpow_eq_div, mul_div_assoc', div_eq_iff (by positivity)]
    exact_mod_cast hvalue
  · cases h

/-- A decimal is made the double it is rounded to. -/
theorem floatOfScientific_eq {D k m : ℕ} {e : ℤ} (h : RoundsTo (D * 10 ^ k) m e)
    (hc : Canonical m e) : Float.ofScientific D false k = double hc := by
  unfold Float.ofScientific
  split
  · next hsmall =>
    have hD : 0 < D := by
      rw [Nat.pos_iff_ne_zero]
      rintro rfl
      have hlow := (h.range hc).1
      rw [Nat.cast_zero, zero_mul] at hlow
      exact absurd (two_zpow_pos (-1075)) (not_lt.2 hlow)
    have hsize : k < Float.exactlyRepresentablePowersOfTen.size := by
      simp only [Float.exactlyRepresentablePowersOfTen, List.size_toArray, List.length_cons,
        List.length_nil]
      omega
    obtain ⟨m₁, e₁, hc₁, hm₁, hv₁⟩ := exists_canonical_nat hD hsmall.1
    obtain ⟨m₂, e₂, hc₂, hx₂, hv₂⟩ := exists_double_of_isTenPow (isTenPow_table k hsize)
    have hself := roundsTo_self m₁ e₁
    rw [hv₁] at hself
    have hword : D.toUInt64.toNat = D := by
      rw [Nat.toUInt64_eq, UInt64.toNat_ofNat', Nat.mod_eq_of_lt (by omega)]
    have hx₁ : D.toUInt64.toFloat = double hc₁ := by
      change Float.ofModel (.pack (UnpackedFloat.ofNat Format.binary64 D.toUInt64.toNat)) = _
      rw [hword, ofNat_eq hself hc₁]
      rfl
    simp only [Bool.false_eq_true, if_false]
    rw [hx₁, hx₂]
    exact double_mul hc₁ hc₂ hm₁ (by rwa [hv₁, hv₂]) hc
  · have heq := ofScientific_eq (s := k) (by simpa using h) hc
    change Float.ofModel (.pack (UnpackedFloat.ofScientific Format.binary64 D k)) = _
    rw [heq]
    rfl

end CallScript.Decimal
