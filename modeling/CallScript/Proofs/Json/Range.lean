import CallScript.Proofs.Decimal.Arithmetic
import CallScript.Proofs.Json.Literals

/-!
# Written numbers are in the range of the reader

The reader makes doubles of the significand and of a power of ten and multiplies them, so it rounds
three times, and what it gets may be beyond the range of doubles for a literal that is not.  That
happens to no literal that is written for a finite double (`isSome_literalValue_jsonText`): below
`secondEnd` the three roundings together stay in the range (`isInf_mul_powerOfTen`), and the only
double above is the greatest one.
-/

namespace CallScript

open Decimal Pattern

namespace Json

/-! ## Scaling -/

/-- Halfway between the two greatest doubles. -/
@[irreducible] def secondEnd : ℕ := (2 ^ 54 - 3) * 2 ^ 970

theorem secondEnd_eq : (secondEnd : ℚ) = (2 ^ 54 - 3) * 2 ^ (970 : ℤ) := by
  unfold secondEnd
  rw [Nat.cast_mul, Nat.cast_pow, show (970 : ℤ) = (970 : ℕ) from rfl, zpow_natCast]
  congr 1
  norm_num

/-- A number that far below the end of the range stays below it when it is rounded once more. -/
theorem secondEnd_mul_lt : (secondEnd : ℚ) * 2 ^ 53 < rangeEnd * (2 ^ 53 - 1) := by
  have hp := two_zpow_pos 970
  have hsplit : (2 : ℚ) ^ (971 : ℤ) = 2 * 2 ^ (970 : ℤ) := two_zpow_add_one 970
  rw [secondEnd_eq, rangeEnd, hsplit]
  calc (2 ^ 54 - 3) * (2 : ℚ) ^ (970 : ℤ) * 2 ^ 53 =
        (2 ^ 54 - 3) * 2 ^ 53 * 2 ^ (970 : ℤ) := by ring
    _ < (2 ^ 53 - 1 / 2) * 2 * (2 ^ 53 - 1) * 2 ^ (970 : ℤ) :=
      mul_lt_mul_of_pos_right (by norm_num) hp
    _ = (2 ^ 53 - 1 / 2) * (2 * 2 ^ (970 : ℤ)) * (2 ^ 53 - 1) := by ring

theorem secondEnd_lt : (secondEnd : ℚ) < rangeEnd := by
  have hend := secondEnd_mul_lt
  have hnonneg : (0 : ℚ) ≤ secondEnd := Nat.cast_nonneg _
  have hle : (secondEnd : ℚ) * (2 ^ 53 - 1) ≤ secondEnd * 2 ^ 53 :=
    mul_le_mul_of_nonneg_left (by norm_num) hnonneg
  exact lt_of_mul_lt_mul_right (hle.trans_lt hend) (by norm_num)

theorem cast_two_pow_sub_one : ((2 ^ 53 - 1 : ℕ) : ℚ) = 2 ^ 53 - 1 := by norm_num

section

variable {n k m : ℕ} {e : ℤ}

theorem exponent_of_roundsTo (h : RoundsTo n m e) (hc : Canonical m e) (hn : 2 ^ 53 ≤ n) :
    0 < e := by
  by_contra hle
  have hone : (2 : ℚ) ^ e ≤ 1 := zpow_le_one_of_nonpos₀ (by norm_num) (by omega)
  have hm : (m : ℚ) + 1 ≤ 2 ^ 53 := by exact_mod_cast hc.lt
  have hnQ : (2 ^ 53 : ℚ) ≤ n := by exact_mod_cast hn
  have hupper := h.upper
  have hp := two_zpow_pos e
  nlinarith

/-- Naturals between two powers of two are rounded to even ones, so not beyond an even bound. -/
theorem rounded_le_of_le (h : RoundsTo n m e) (hc : Canonical m e) (hm : 2 ^ 52 ≤ m)
    (hlow : 2 ^ 53 ≤ n) (hhigh : n ≤ 17976931348623156) :
    (m * 2 ^ e : ℚ) ≤ 17976931348623156 := by
  have hle := h.le_mul hm
  obtain ⟨i, rfl⟩ := Int.exists_add_of_le (Int.add_one_le_of_lt (exponent_of_roundsTo h hc hlow))
  have hvalue : (m * 2 ^ (0 + 1 + (i : ℤ)) : ℚ) = ((2 * (m * 2 ^ i) : ℕ) : ℚ) := by
    rw [zero_add, two_zpow_add, zpow_one, zpow_natCast]
    push_cast
    ring
  rw [hvalue] at hle ⊢
  have hleN : 2 * (m * 2 ^ i) * (2 ^ 53 - 1) ≤ n * 2 ^ 53 := by
    rw [← cast_two_pow_sub_one] at hle
    exact_mod_cast hle
  have : 2 * (m * 2 ^ i) ≤ 17976931348623156 := by omega
  exact_mod_cast this

/-- Up to the greatest power of ten there is room for one rounding. -/
theorem le_secondEnd_of_le_power {x : ℚ} {v : ℕ} (h : x * (2 ^ 53 - 1) ≤ v * 2 ^ 53) (hv : v ≤ 10 ^ 308) :
    x ≤ secondEnd := by
  have hroom : v * 2 ^ 53 ≤ secondEnd * (2 ^ 53 - 1) :=
    (Nat.mul_le_mul_right _ hv).trans (by decide +kernel)
  have hroomQ : (v : ℚ) * 2 ^ 53 ≤ (secondEnd : ℚ) * (2 ^ 53 - 1) := by
    rw [← cast_two_pow_sub_one]
    exact_mod_cast hroom
  exact le_of_mul_le_mul_right (h.trans hroomQ) (by norm_num)

/-- Beyond the greatest power of ten only one scale is left for a long significand, and only the
significands before the one of the greatest double. -/
theorem scale_of_lt (hlow : 2 ^ 53 ≤ n) (hn : n ≤ 10 ^ 17) (hgreat : 10 ^ 308 < n * 10 ^ k)
    (hle : n * 10 ^ k ≤ secondEnd) : k = 292 ∧ n ≤ 17976931348623156 := by
  have hleast : 292 ≤ k := by
    have hlt : 10 ^ 308 < 10 ^ (17 + k) := by
      rw [Nat.pow_add]
      exact hgreat.trans_le (Nat.mul_le_mul_right _ hn)
    have := (Nat.pow_lt_pow_iff_right (by decide)).1 hlt
    omega
  have hgreatest : k < 293 := by
    by_contra hk
    have hbeyond : secondEnd < 2 ^ 53 * 10 ^ 293 := by decide +kernel
    have hmul : 2 ^ 53 * 10 ^ 293 ≤ n * 10 ^ k :=
      Nat.mul_le_mul hlow (pow_le_pow_right₀ (by decide) (not_lt.1 hk))
    exact absurd (hmul.trans hle) hbeyond.not_ge
  obtain rfl : k = 292 := by omega
  refine ⟨rfl, ?_⟩
  by_contra hlarge
  have hbeyond : secondEnd < 17976931348623157 * 10 ^ 292 := by decide +kernel
  have hmul : 17976931348623157 * 10 ^ 292 ≤ n * 10 ^ 292 :=
    Nat.mul_le_mul_right _ (Nat.lt_of_not_le hlarge)
  exact absurd (hmul.trans hle) hbeyond.not_ge

/-- A significand of at most seventeen digits is rounded so that it stays below halfway between the
two greatest doubles with the exact power of ten. -/
theorem exists_rounded (hpos : 0 < n) (hn : n ≤ 10 ^ 17) (hle : n * 10 ^ k ≤ secondEnd) :
    ∃ m e, Canonical m e ∧ 2 ^ 52 ≤ m ∧ RoundsTo n m e ∧ (m * 2 ^ e : ℚ) * 10 ^ k ≤ secondEnd := by
  -- A significand below `2 ^ 53` is a double.  A greater one is rounded, and there is room for that up
  -- to the greatest power of ten; beyond it, rounding goes no further than an even significand.
  rcases lt_or_ge n (2 ^ 53) with hsmall | hlarge
  · obtain ⟨m, e, hc, hm, hvalue⟩ := exists_canonical_nat hpos hsmall
    refine ⟨m, e, hc, hm, hvalue ▸ roundsTo_self m e, ?_⟩
    rw [hvalue]
    exact_mod_cast hle
  · have hone : (1 : ℚ) ≤ n := by exact_mod_cast hpos
    have hend : (n : ℚ) < rangeEnd := by
      refine lt_of_le_of_lt ?_ secondEnd_lt
      exact_mod_cast (Nat.le_mul_of_pos_right n (Nat.pow_pos (by decide))).trans hle
    obtain ⟨m, e, hc, hm, h⟩ := exists_roundsTo hone hend
    refine ⟨m, e, hc, hm, h, ?_⟩
    rcases le_or_gt (n * 10 ^ k) (10 ^ 308) with hpower | hgreat
    · have hrounded := mul_le_mul_of_nonneg_right (h.le_mul hm) (by positivity : (0 : ℚ) ≤ 10 ^ k)
      refine le_secondEnd_of_le_power ?_ hpower
      rw [mul_right_comm, Nat.cast_mul, mul_right_comm (n : ℚ), Nat.cast_pow]
      exact hrounded
    · obtain ⟨rfl, hhigh⟩ := scale_of_lt hlarge hn hgreat hle
      have hroom : 17976931348623156 * 10 ^ 292 ≤ secondEnd := by decide +kernel
      refine (mul_le_mul_of_nonneg_right (rounded_le_of_le h hc hm hlarge hhigh)
        (by positivity)).trans ?_
      rw [show (17976931348623156 : ℚ) * 10 ^ 292 = ((17976931348623156 * 10 ^ 292 : ℕ) : ℚ) by
        rw [Nat.cast_mul, Nat.cast_pow, Nat.cast_ofNat, Nat.cast_ofNat]]
      exact Nat.cast_le.2 hroom

theorem one_le_of_roundsTo {v : ℚ} (h : RoundsTo v m e) (hc : Canonical m e) (hm : 2 ^ 52 ≤ m)
    (hv : 1 ≤ v) : 1 ≤ (m * 2 ^ e : ℚ) := by
  have hleast : -52 ≤ e := by
    by_contra hlt
    have hsmall : (2 : ℚ) ^ e ≤ 2 ^ (-53 : ℤ) := two_zpow_mono (by omega)
    have hlt : (m : ℚ) + 1 ≤ 2 ^ 53 := by exact_mod_cast hc.lt
    have hvalue : (2 : ℚ) ^ (-53 : ℤ) * 2 ^ 53 = 1 := by norm_num
    have hupper := h.upper
    have hp := two_zpow_pos e
    nlinarith
  calc (1 : ℚ) = 2 ^ 52 * 2 ^ (-52 : ℤ) := by norm_num
    _ ≤ m * 2 ^ e := mul_le_mul (by exact_mod_cast hm) (two_zpow_mono hleast) (by positivity)
      (by positivity)

/-- A significand of at most seventeen digits times a power of ten is in the range of doubles, if it
is so without any rounding and with some room. -/
theorem isInf_mul_powerOfTen (hpos : 0 < n) (hn : n ≤ 10 ^ 17) (hle : n * 10 ^ k ≤ secondEnd) :
    (Float.ofNat n * powerOfTen k).isInf = false := by
  obtain ⟨m₁, e₁, hc₁, hm₁, h₁, hproduct⟩ := exists_rounded hpos hn hle
  have hpower : (1 : ℚ) ≤ 10 ^ k := one_le_pow₀ (by norm_num)
  have hend : (10 ^ k : ℚ) < rangeEnd := by
    refine lt_of_le_of_lt ?_ secondEnd_lt
    exact_mod_cast (Nat.le_mul_of_pos_left (10 ^ k) hpos).trans hle
  obtain ⟨m₂, e₂, hc₂, hm₂, h₂⟩ := exists_roundsTo hpower hend
  have hx : Float.ofNat n = double hc₁ := floatOfScientific_eq (k := 0) (by simpa using h₁) hc₁
  have hy : powerOfTen k = double hc₂ := floatOfScientific_eq (D := 1) (by simpa using h₂) hc₂
  have hleast : (1 : ℚ) ≤ m₁ * 2 ^ e₁ * (m₂ * 2 ^ e₂) :=
    one_le_mul_of_one_le_of_one_le (one_le_of_roundsTo h₁ hc₁ hm₁ (by exact_mod_cast hpos))
      (one_le_of_roundsTo h₂ hc₂ hm₂ hpower)
  have hgreatest : (m₁ * 2 ^ e₁ * (m₂ * 2 ^ e₂) : ℚ) < rangeEnd := by
    have hnonneg : (0 : ℚ) ≤ m₁ * 2 ^ e₁ := by positivity
    generalize (m₁ * 2 ^ e₁ : ℚ) = x at hproduct hnonneg ⊢
    have hroom : x * (m₂ * 2 ^ e₂) * (2 ^ 53 - 1) < rangeEnd * (2 ^ 53 - 1) :=
      calc x * (m₂ * 2 ^ e₂) * (2 ^ 53 - 1) = x * (m₂ * 2 ^ e₂ * (2 ^ 53 - 1)) := mul_assoc ..
        _ ≤ x * (10 ^ k * 2 ^ 53) := mul_le_mul_of_nonneg_left (h₂.le_mul hm₂) hnonneg
        _ = x * 10 ^ k * 2 ^ 53 := (mul_assoc ..).symm
        _ ≤ (secondEnd : ℚ) * 2 ^ 53 := mul_le_mul_of_nonneg_right hproduct (by norm_num)
        _ < rangeEnd * (2 ^ 53 - 1) := secondEnd_mul_lt
    exact lt_of_mul_lt_mul_right hroom (by norm_num)
  obtain ⟨m, e, hc, -, h⟩ := exists_roundsTo hleast hgreatest
  rw [hx, hy, double_mul hc₁ hc₂ hm₁ h hc]
  exact isInf_double hc

end

/-- Scaling down never leaves the range. -/
theorem isSome_scaleByTen_of_neg (fuel : ℕ) (x : Float) {exponent : ℤ} (h : exponent < 0) :
    (scaleByTen fuel x exponent).isSome := by
  induction fuel generalizing x exponent with
  | zero => rfl
  | succ fuel ih =>
    have hneg : ¬0 ≤ exponent := by omega
    rw [scaleByTen, if_neg hneg, if_neg hneg]
    split
    · rfl
    · next hfar =>
      split
      · rfl
      · exact ih _ (by omega)

/-- A decimal with few digits is in the range if it is small, or a significand to be scaled down. -/
theorem isSome_scaleByTen {d : Decimal} (hd : d.digits ≤ 10 ^ 17)
    (h : d.scale < 0 ∨ 0 < d.digits ∧ d.value ≤ secondEnd) :
    (scaleByTen 4 (Float.ofNat d.digits) d.scale).isSome := by
  by_cases hneg : d.scale < 0
  · exact isSome_scaleByTen_of_neg 4 _ hneg
  · obtain ⟨hpos, hvalue⟩ := h.resolve_left hneg
    obtain ⟨k, hk⟩ := Int.eq_ofNat_of_zero_le (not_lt.1 hneg)
    have hle : d.digits * 10 ^ k ≤ secondEnd := by
      rw [value, hk, zpow_natCast] at hvalue
      exact_mod_cast hvalue
    have hscale : k ≤ 308 := by
      by_contra hlarge
      have hbeyond : secondEnd < 10 ^ 309 := by decide +kernel
      have hpow : 10 ^ 309 ≤ 10 ^ k := pow_le_pow_right₀ (by decide) (Nat.lt_of_not_le hlarge)
      exact absurd ((hpow.trans (Nat.le_mul_of_pos_left _ hpos)).trans hle) hbeyond.not_ge
    rw [scaleByTen, hk]
    simp [hscale, isInf_mul_powerOfTen hpos hd hle]

/-! ## Literals of few digits -/

/-- The parts of an unsigned number literal that is not a bare integer and whose digits, without the
point, are those of a number up to `10 ^ 17`. -/
structure Legible (whole : List Char) (fraction : Option (List Char)) (exponent : List Char) :
    Prop where
  whole_mem : whole ∈ jsonWhole
  fraction_mem : ∀ ds ∈ fraction, ds ∈ Pattern.digits
  isExponent : IsExponent exponent
  not_integer : fraction = none → exponent ≠ []
  value_le : digitsValue (whole ++ fraction.getD []) ≤ 10 ^ 17

/-- Digits are absorbed as long as their number is within the limit. -/
theorem absorbDigits_eq {n : ℕ} {ds : List Char}
    (h : n * 10 ^ ds.length + digitsValue ds ≤ significandLimit) :
    absorbDigits n ds = (n * 10 ^ ds.length + digitsValue ds, 0) := by
  induction ds generalizing n with
  | nil => simp [absorbDigits, digitsValue]
  | cons d ds ih =>
    have hvalue : n * 10 ^ (d :: ds).length + digitsValue (d :: ds) =
        (10 * n + digitsValue [d]) * 10 ^ ds.length + digitsValue ds := by
      rw [← List.singleton_append, digitsValue_append, List.singleton_append, List.length_cons]
      ring
    rw [hvalue] at h ⊢
    have hnext : ¬significandLimit < 10 * n + digitsValue [d] := by
      have := Nat.le_mul_of_pos_right (10 * n + digitsValue [d]) (Nat.pow_pos (n := ds.length)
        (by decide : 0 < 10))
      omega
    rw [absorbDigits]
    simp only [hnext, if_false]
    exact ih h

section

variable {whole exponent : List Char} {fraction : Option (List Char)}

theorem Legible.isDigits_whole (h : Legible whole fraction exponent) : IsDigits whole := by
  rcases mem_jsonWhole.1 h.whole_mem with rfl | ⟨_, _, rfl, -, hdigits⟩
  · simp [IsDigits, isDigit]
  · exact hdigits

theorem Legible.isDigits_fraction (h : Legible whole fraction exponent) :
    ∀ ds ∈ fraction, IsDigits ds :=
  fun ds hds => (mem_digits.1 (h.fraction_mem ds hds)).2

theorem Legible.apart_exponent (h : Legible whole fraction exponent) :
    Apart isMantissaChar exponent := by
  have happend := apart_exponent_append h.isExponent (apart_nil isNumeralChar)
  rwa [List.append_nil] at happend

theorem Legible.head (h : Legible whole fraction exponent) :
    ∃ c cs, withPoint whole fraction exponent = c :: cs ∧ isMantissaChar c = true := by
  obtain ⟨c, cs, rfl, hc⟩ := head_jsonWhole h.whole_mem
  exact ⟨c, _, rfl, by simp [isMantissaChar, hc]⟩

/-- A literal of few digits is read as its significand, scaled once. -/
theorem literalValue_withPoint (negative : Bool) (h : Legible whole fraction exponent) :
    let d := numeralDecimal (withPoint whole fraction exponent)
    literalValue (String.ofList ((if negative then ['-'] else []) ++
        withPoint whole fraction exponent)) =
      (scaleByTen 4 (Float.ofNat d.digits) d.scale).map (withSign negative) := by
  have hsign : takeSign ((if negative then ['-'] else []) ++ withPoint whole fraction exponent) =
      (negative, withPoint whole fraction exponent) := by
    obtain ⟨c, cs, hhead, hc⟩ := h.head
    rw [hhead, takeSign_signed negative hc]
  have hlimit : 10 ^ 17 ≤ significandLimit := by decide +kernel
  have hvalue := h.value_le
  rw [digitsValue_append] at hvalue
  have hpow : 0 < 10 ^ (fraction.getD []).length := Nat.pow_pos (by decide)
  have hwhole : absorbDigits 0 whole = (digitsValue whole, 0) := by
    have hle := Nat.le_mul_of_pos_right (digitsValue whole) hpow
    have habsorb : absorbDigits 0 whole = _ := absorbDigits_eq (by omega)
    rwa [zero_mul, zero_add] at habsorb
  have hfraction : absorbDigits (digitsValue whole) (fraction.getD []) =
      (digitsValue (whole ++ fraction.getD []), 0) := by
    rw [digitsValue_append]
    exact absorbDigits_eq (by omega)
  have hdigit : Apart isDigit exponent := apart_isDigit_of_isMantissaChar h.apart_exponent
  rw [numeralDecimal_withPoint h.isDigits_whole h.isDigits_fraction h.isExponent]
  dsimp only
  rw [literalValue, String.toList_ofList, hsign]
  dsimp only
  cases fraction with
  | none =>
    have hne := h.not_integer rfl
    rw [withPoint, takeDigits_append h.isDigits_whole hdigit]
    dsimp only
    rw [hwhole]
    cases h.isExponent with
    | none => exact absurd rfl hne
    | some => simp [absorbDigits]
  | some ds =>
    have htake := takeDigits_append (h.isDigits_fraction ds rfl) hdigit
    rw [Option.getD_some] at hfraction
    rw [withPoint, takeDigits_append h.isDigits_whole (apart_cons (by decide))]
    simp only [hwhole, htake, hfraction, Option.getD_some, Nat.sub_zero, Nat.cast_zero, zero_sub,
      neg_add_eq_sub]

theorem withPoint_mem (negative : Bool) (h : Legible whole fraction exponent) :
    (if negative then ['-'] else []) ++ withPoint whole fraction exponent ∈ jsonNumber := by
  have hsign : (if negative then ['-'] else []) ∈ 1 + oneOf (· = '-') := by
    cases negative
    · exact .inl rfl
    · exact .inr ⟨'-', rfl, rfl⟩
  have hpart : exponent ∈ 1 + Pattern.exponent := by
    cases h.isExponent with
    | none => exact .inl rfl
    | some hc hne hd =>
      have hds := mem_digits.2 ⟨hne, hd⟩
      exact .inr (mem_exponent.2 ⟨'e', [_], _, rfl, .inl rfl, .inr ⟨_, hc, rfl⟩, hds⟩)
  refine Language.append_mem_mul hsign ?_
  refine Language.append_mem_mul h.whole_mem ?_
  cases fraction with
  | none => exact Language.append_mem_mul (a := []) (.inl rfl) hpart
  | some ds =>
    exact Language.append_mem_mul (a := '.' :: ds)
      (.inr (mem_oneOf_mul.2 ⟨_, _, rfl, rfl, h.fraction_mem ds rfl⟩)) hpart

end

/-! ## Written numbers -/

theorem digitsValue_lt {ds : List Char} (h : IsDigits ds) : digitsValue ds < 10 ^ ds.length := by
  induction ds with
  | nil => decide
  | cons d ds ih =>
    have hd := h d List.mem_cons_self
    have hvalue : digitsValue [d] ≤ 9 := by
      simp only [isDigit, Bool.and_eq_true, decide_eq_true_eq, Char.le_def] at hd
      have : d.toNat ≤ '9'.toNat := hd.2
      simp only [digitsValue, List.foldl_cons, List.foldl_nil]
      change 10 * 0 + (d.toNat - 48) ≤ 9
      change d.toNat ≤ 57 at this
      omega
    have hrest := ih fun c hc => h c (List.mem_cons_of_mem _ hc)
    rw [← List.singleton_append, digitsValue_append, List.singleton_append, List.length_cons,
      pow_succ]
    nlinarith

/-- The digits of a positive number do not start with a zero. -/
theorem digitChars_mem {n : ℕ} (hn : 0 < n) : ∃ c ds, digitChars n = c :: ds ∧ c ≠ '0' := by
  obtain ⟨c, ds, heq⟩ := List.exists_cons_of_ne_nil (Nat.toDigits_ne_nil (b := 10) (n := n))
  refine ⟨c, ds, heq, ?_⟩
  rintro rfl
  have hdigits := isDigits_digitChars n
  have hvalue := digitsValue_digitChars n
  have hleast := pow_digitCount_le hn
  rw [digitCount] at hleast
  rw [digitChars, heq] at hdigits hvalue hleast
  have hlt := digitsValue_lt fun c hc => hdigits c (List.mem_cons_of_mem _ hc)
  rw [← List.singleton_append, digitsValue_append, show digitsValue ['0'] = 0 from rfl, zero_mul,
    zero_add] at hvalue
  rw [List.length_cons, Nat.add_sub_cancel] at hleast
  omega

section

variable {c : Char} {ds : List Char}

theorem legible_fraction (hdigits : IsDigits (c :: ds)) (hvalue : digitsValue (c :: ds) ≤ 10 ^ 17)
    (k : ℕ) : Legible ['0'] (some (Layout.zeros k ++ c :: ds)) [] := by
  refine ⟨mem_jsonWhole.2 (.inl rfl), ?_, .none, by simp, ?_⟩
  · rintro _ ⟨⟩
    exact mem_digits.2 ⟨by simp, (isDigits_zeros _).append hdigits⟩
  · rw [Option.getD_some, digitsValue_append, digitsValue_append, digitsValue_zeros,
      show digitsValue ['0'] = 0 from rfl]
    omega

theorem legible_whole (hc : c ≠ '0') (hdigits : IsDigits (c :: ds)) {k : ℕ}
    (hlength : ds.length + k < 16) : Legible (c :: ds ++ Layout.zeros k) (some ['0']) [] := by
  have hzero : IsDigits ['0'] := by simp [IsDigits, isDigit]
  have hwhole := hdigits.append (isDigits_zeros k)
  refine ⟨mem_jsonWhole.2 (.inr ⟨c, _, rfl, hc, hwhole⟩), ?_, .none, by simp, ?_⟩
  · rintro _ ⟨⟩
    exact mem_digits.2 ⟨by simp, hzero⟩
  · refine (digitsValue_lt (hwhole.append hzero)).le.trans ?_
    refine Nat.pow_le_pow_right (by decide) ?_
    simp only [List.length_append, List.length_cons, length_zeros, List.length_nil]
    omega

theorem legible_split (hc : c ≠ '0') (hdigits : IsDigits (c :: ds))
    (hvalue : digitsValue (c :: ds) ≤ 10 ^ 17) {i : ℕ} (hlt : i < ds.length) :
    Legible ((c :: ds).take (i + 1)) (some ((c :: ds).drop (i + 1))) [] := by
  have hwhole : IsDigits ((c :: ds).take (i + 1)) :=
    fun d hd => hdigits d (List.mem_of_mem_take hd)
  refine ⟨mem_jsonWhole.2 (.inr ⟨c, _, rfl, hc, hwhole⟩), ?_, .none, by simp, ?_⟩
  · rintro _ ⟨⟩
    refine mem_digits.2 ⟨?_, fun d hd => hdigits d (List.mem_of_mem_drop hd)⟩
    rw [Ne, List.drop_eq_nil_iff, List.length_cons]
    omega
  · rwa [Option.getD_some, List.take_append_drop]

theorem exists_legible_scientific (hc : c ≠ '0') (hdigits : IsDigits (c :: ds))
    (hvalue : digitsValue (c :: ds) ≤ 10 ^ 17) (layout : Layout) (lead : ℤ) :
    ∃ whole fraction exponent,
      layout.scientific (c :: ds) lead = withPoint whole fraction exponent ∧
        Legible whole fraction exponent := by
  have hpart := isExponent_exponentPart layout lead
  obtain ⟨hfirst, hds⟩ := List.forall_mem_cons.1 hdigits
  have hwhole : [c] ∈ jsonWhole := mem_jsonWhole.2 (.inr ⟨c, [], rfl, hc, by simpa [IsDigits]⟩)
  cases ds with
  | nil =>
    exact ⟨[c], none, _, by simp [withPoint, Layout.scientific, exponentPart], hwhole, by simp, hpart,
      by simp [exponentPart], hvalue⟩
  | cons d ds =>
    refine ⟨[c], some (d :: ds), _, by simp [withPoint, Layout.scientific, exponentPart], hwhole,
      ?_, hpart, by simp, hvalue⟩
    rintro _ ⟨⟩
    exact mem_digits.2 ⟨by simp, hds⟩

end

/-- The text that is written for a decimal of few digits has few digits. -/
theorem exists_legible {d : Decimal} (hpos : 0 < d.digits) (hd : d.digits ≤ 10 ^ 17) :
    let digits := digitChars d.digits
    let lead := d.scale + digits.length - 1
    ∃ whole fraction exponent,
      (if Layout.json.plainFrom ≤ lead && lead < Layout.json.plainBelow then
        Layout.json.plain digits lead else Layout.json.scientific digits lead) =
        withPoint whole fraction exponent ∧ Legible whole fraction exponent := by
  intro digits lead
  obtain ⟨c, ds, heq, hc⟩ := digitChars_mem hpos
  have hdigits : IsDigits digits := isDigits_digitChars d.digits
  have hvalue : digitsValue digits ≤ 10 ^ 17 := (digitsValue_digitChars d.digits).trans_le hd
  have hcons : digits = c :: ds := heq
  clear_value digits lead
  subst hcons
  split
  · next hplain =>
    have hbelow : lead < 16 := of_decide_eq_true (Bool.and_eq_true_iff.1 hplain).2
    rw [Layout.plain]
    split
    · exact ⟨_, _, _, by rw [withPoint]; simp, legible_fraction hdigits hvalue (-lead - 1).toNat⟩
    · dsimp only
      split
      · next hle =>
        rw [List.length_cons] at hle
        refine ⟨_, _, _, ?_, legible_whole hc hdigits
          (k := lead.toNat + 1 - (c :: ds).length) (by rw [List.length_cons]; omega)⟩
        simp [withPoint, Layout.json]
      · next hlt =>
        rw [List.length_cons] at hlt
        exact ⟨_, _, _, by simp [withPoint], legible_split hc hdigits hvalue (i := lead.toNat)
          (by omega)⟩
  · exact exists_legible_scientific hc hdigits hvalue _ _

section

variable {m : ℕ} {e : ℤ}

/-- All doubles but the greatest one are rounded from numbers below halfway to it. -/
theorem le_secondEnd_of_roundsTo {v : ℚ} (h : RoundsTo v m e) (hc : Canonical m e)
    (hne : ¬(m = 2 ^ 53 - 1 ∧ e = 971)) : v ≤ secondEnd := by
  have hlt := hc.lt
  have hp := two_zpow_pos 970
  have hsplit : (2 : ℚ) ^ (971 : ℤ) = 2 * 2 ^ (970 : ℤ) := two_zpow_add_one 970
  refine h.upper.trans ?_
  rw [secondEnd_eq]
  rcases lt_or_eq_of_le hc.greatest with he | rfl
  · have hm : (m : ℚ) + 1 ≤ 2 ^ 53 := by exact_mod_cast hlt
    exact mul_le_mul (by linarith) (two_zpow_mono (by omega)) (two_zpow_pos e).le (by norm_num)
  · have hm : m + 2 ≤ 2 ^ 53 := by omega
    have hmQ : (m : ℚ) + 2 ≤ 2 ^ 53 := by exact_mod_cast hm
    rw [hsplit, ← mul_assoc]
    exact mul_le_mul_of_nonneg_right (by linarith) hp.le

/-- A finite double is written with few digits, and with room below the end of the range unless it
is the greatest one. -/
theorem exists_legible_finite (negative : Bool) (h : m = 0 ∨ Canonical m e) :
    ∃ whole fraction exponent,
      Layout.json.finite negative m e = String.ofList ((if negative then ['-'] else []) ++
        withPoint whole fraction exponent) ∧
      Legible whole fraction exponent ∧
      (¬(m = 2 ^ 53 - 1 ∧ e = 971) →
        let d := numeralDecimal (withPoint whole fraction exponent)
        d.scale < 0 ∨ 0 < d.digits ∧ d.value ≤ secondEnd) := by
  rw [Layout.finite]
  rcases h with rfl | hc
  · have hzero : IsDigits ['0'] := by simp [IsDigits, isDigit]
    refine ⟨['0'], some ['0'], [], rfl, ⟨mem_jsonWhole.2 (.inl rfl), ?_, .none, by simp, by decide⟩,
      fun _ => .inl (by decide)⟩
    rintro _ ⟨⟩
    exact mem_digits.2 ⟨by simp, hzero⟩
  · have hrounds := shortest_roundsTo hc Layout.json.tie
    have hspells := spells_decimal Layout.json rfl (shortest Layout.json.tie m e)
    obtain ⟨whole, fraction, exponent, htext, hlegible⟩ :=
      exists_legible (digits_pos hrounds hc) (digits_shortest_le hc Layout.json.tie)
    have hvalue := hspells.value_eq
    rw [htext] at hvalue
    rw [← hvalue] at hrounds
    refine ⟨whole, fraction, exponent, ?_, hlegible, fun hne => .inr ?_⟩
    · rw [if_neg hc.pos.ne', ← htext]
    · exact ⟨digits_pos hrounds hc, le_secondEnd_of_roundsTo hrounds hc hne⟩

/-- The greatest double is in the range of the reader, too. -/
theorem isSome_literalValue_greatest (negative : Bool) :
    (literalValue (Layout.json.finite negative (2 ^ 53 - 1) 971)).isSome := by
  cases negative <;> decide +kernel

end

/-- What is written for a finite double is a number literal that is in the range of the reader. -/
theorem isSome_literalValue_jsonText {x : Float} (hx : x.isFinite = true) :
    (jsonText x).toList ∈ jsonNumber ∧ (literalValue (jsonText x)).isSome := by
  obtain ⟨negative, m, e, hbits⟩ := Binary.isFinite_iff.1 hx
  have hcanonical := (Binary.ofBits_eq_finite x.toBits.toNat_lt hbits).1
  have htext : jsonText x = Layout.json.finite negative m e := by rw [jsonText, hbits]
  obtain ⟨whole, fraction, exponent, hfinite, hlegible, hrange⟩ :=
    exists_legible_finite negative hcanonical
  rw [htext]
  constructor
  · rw [hfinite, String.toList_ofList]
    exact withPoint_mem negative hlegible
  · by_cases hgreatest : m = 2 ^ 53 - 1 ∧ e = 971
    · rw [hgreatest.1, hgreatest.2]
      exact isSome_literalValue_greatest negative
    · have hdigits : (numeralDecimal (withPoint whole fraction exponent)).digits ≤ 10 ^ 17 := by
        rw [numeralDecimal_withPoint hlegible.isDigits_whole hlegible.isDigits_fraction
          hlegible.isExponent]
        exact hlegible.value_le
      rw [hfinite, literalValue_withPoint negative hlegible, Option.isSome_map]
      exact isSome_scaleByTen hdigits (hrange hgreatest)

end Json

end CallScript
