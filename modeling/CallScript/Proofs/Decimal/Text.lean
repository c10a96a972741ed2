import CallScript.Decimal.Layout
import CallScript.Decimal.Numeral
import CallScript.Proofs.Decimal.Bits
import CallScript.Proofs.Decimal.Shortest

/-!
# Number text reads back

The text of a finite number is read as that number again (`readNumber_numberText`).  It is a sign
and a numeral, and `Spells` says what reading a numeral gives: where it ends and its value.  The two
ways to write digits, around a point and with an exponent part, spell the decimal they are made
from.  Whatever a numeral spells, it is read as a number (`Decimal.isNaN_toFloat`).
-/

namespace CallScript

/-! ## Where a text goes on -/

/-- A text that is empty or starts with a character outside a class. -/
def Apart (p : Char → Bool) (rest : List Char) : Prop :=
  ∀ c, rest.head? = some c → p c = false

theorem apart_nil (p : Char → Bool) : Apart p [] := nofun

theorem apart_cons {p : Char → Bool} {c : Char} {cs : List Char} (h : p c = false) :
    Apart p (c :: cs) := by
  rintro d ⟨⟩
  exact h

theorem Apart.imp {p q : Char → Bool} {rest : List Char} (h : Apart p rest)
    (hq : ∀ c, p c = false → q c = false) : Apart q rest :=
  fun c hc => hq c (h c hc)

/-- Characters of a class are cut off before a text that starts outside it. -/
theorem span_append {p : Char → Bool} {cs rest : List Char} (hcs : ∀ c ∈ cs, p c = true)
    (hrest : Apart p rest) :
    (cs ++ rest).takeWhile p = cs ∧ (cs ++ rest).dropWhile p = rest := by
  have hnone : rest.takeWhile p = [] ∧ rest.dropWhile p = rest := by
    cases rest with
    | nil => simp
    | cons c rest => simp [hrest c rfl]
  rw [List.takeWhile_append_of_pos hcs, List.dropWhile_append_of_pos hcs, hnone.1, hnone.2,
    List.append_nil]
  exact ⟨rfl, rfl⟩

/-- A digit or the point. -/
def isMantissaChar (c : Char) : Bool :=
  isDigit c || c = '.'

/-- A character that may continue a numeral. -/
def isNumeralChar (c : Char) : Bool :=
  isMantissaChar c || c = 'e' || c = 'E'

/-! ## Digits -/

/-- A text of digits. -/
def IsDigits (cs : List Char) : Prop :=
  ∀ c ∈ cs, isDigit c = true

theorem IsDigits.append {cs more : List Char} (h : IsDigits cs) (hm : IsDigits more) :
    IsDigits (cs ++ more) := by
  intro c hc
  rcases List.mem_append.1 hc with hc | hc
  · exact h c hc
  · exact hm c hc

theorem isDigits_digitChars (n : ℕ) : IsDigits (Decimal.digitChars n) := by
  intro c hc
  have hdigit := Nat.isDigit_of_mem_toDigits (b := 10) (by decide) (by decide) hc
  simpa [isDigit, Char.isDigit, Char.le_def] using hdigit

theorem isDigits_zeros (n : ℕ) : IsDigits (Layout.zeros n) := by
  intro c hc
  rw [List.eq_of_mem_replicate hc]
  rfl

theorem takeDigits_append {digits rest : List Char} (hd : IsDigits digits)
    (hr : Apart isDigit rest) : takeDigits (digits ++ rest) = (digits, rest) :=
  Prod.ext (span_append hd hr).1 (span_append hd hr).2

@[simp] theorem length_zeros (n : ℕ) : (Layout.zeros n).length = n := List.length_replicate

theorem digitsValue_append (cs more : List Char) :
    digitsValue (cs ++ more) = digitsValue cs * 10 ^ more.length + digitsValue more := by
  change Nat.ofDigitChars 10 (cs ++ more) 0 = Nat.ofDigitChars 10 cs 0 * 10 ^ more.length +
    Nat.ofDigitChars 10 more 0
  rw [Nat.ofDigitChars_append, Nat.ofDigitChars_eq_ofDigitChars_zero, mul_comm]

theorem digitsValue_digitChars (n : ℕ) : digitsValue (Decimal.digitChars n) = n :=
  Nat.ofDigitChars_ten_toDigits

theorem digitsValue_zeros (n : ℕ) : digitsValue (Layout.zeros n) = 0 := by
  change Nat.ofDigitChars 10 (List.replicate n '0') 0 = 0
  rw [Nat.ofDigitChars_replicate_zero, mul_zero]

/-! ## Numerals -/

/-- Digits with an optional point and digits after it, in front of another text. -/
def withPoint (whole : List Char) (fraction : Option (List Char)) (rest : List Char) : List Char :=
  whole ++ match fraction with
    | none => rest
    | some digits => '.' :: (digits ++ rest)

/-- An exponent part as numbers are written, or none. -/
inductive IsExponent : List Char → Prop where
  | none : IsExponent []
  | some {sign : Char} {digits : List Char} (hsign : sign = '+' ∨ sign = '-') (hne : digits ≠ [])
    (hd : IsDigits digits) : IsExponent ('e' :: sign :: digits)

/-- A text that starts with a digit and is read as one unsigned numeral, of the given value. -/
structure Spells (text : List Char) (value : ℚ) : Prop where
  take : ∀ rest, Apart isNumeralChar rest → takeNumeral? (text ++ rest) = some (text, rest)
  value_eq : (numeralDecimal text).value = value
  head : ∃ c cs, text = c :: cs ∧ isDigit c = true

section

variable {whole exponent : List Char} {fraction : Option (List Char)}

theorem withPoint_append (rest : List Char) :
    withPoint whole fraction exponent ++ rest = withPoint whole fraction (exponent ++ rest) := by
  cases fraction <;> simp [withPoint]

theorem apart_exponent_append (he : IsExponent exponent) {rest : List Char}
    (hr : Apart isNumeralChar rest) : Apart isMantissaChar (exponent ++ rest) := by
  cases he with
  | none => exact hr.imp (by simp +contextual [isNumeralChar])
  | some => exact apart_cons (by decide)

theorem takeExponent_append (he : IsExponent exponent) {rest : List Char}
    (hr : Apart isNumeralChar rest) : takeExponent (exponent ++ rest) = (exponent, rest) := by
  cases he with
  | none =>
    rcases rest with _ | ⟨c, _ | ⟨d, rest⟩⟩
    · rfl
    · rfl
    · have hc := hr c rfl
      simp only [isNumeralChar, Bool.or_eq_false_iff, decide_eq_false_iff_not] at hc
      simp [takeExponent, hc.1.2, hc.2]
  | @some sign digits hsign hne hd =>
    have htake := takeDigits_append hd (hr.imp fun c hc => by
      simp only [isNumeralChar, isMantissaChar, Bool.or_eq_false_iff] at hc
      exact hc.1.1.1)
    obtain ⟨d, ds, rfl⟩ := List.exists_cons_of_ne_nil hne
    simp only [List.cons_append] at htake ⊢
    simp [takeExponent, hsign, htake]

theorem takeMantissa?_withPoint (hne : whole ≠ []) (hw : IsDigits whole)
    (hf : ∀ digits ∈ fraction, IsDigits digits) {rest : List Char}
    (hr : Apart isMantissaChar rest) :
    takeMantissa? (withPoint whole fraction rest) = some (withPoint whole fraction [], rest) := by
  have hdigit : Apart isDigit rest := hr.imp (by simp +contextual [isMantissaChar])
  obtain ⟨d, ds, rfl⟩ := List.exists_cons_of_ne_nil hne
  cases fraction with
  | none =>
    rw [takeMantissa?, withPoint, takeDigits_append hw hdigit]
    cases rest with
    | nil => simp [withPoint]
    | cons c rest =>
      have hc : c ≠ '.' := by
        have := hr c rfl
        simp only [isMantissaChar, Bool.or_eq_false_iff, decide_eq_false_iff_not] at this
        exact this.2
      simp [withPoint, hc]
  | some digits =>
    have hinner := takeDigits_append (hf digits rfl) hdigit
    rw [takeMantissa?, withPoint, takeDigits_append hw (apart_cons (by decide))]
    simp [withPoint, hinner]

theorem numeralDecimal_withPoint (hw : IsDigits whole)
    (hf : ∀ digits ∈ fraction, IsDigits digits) (he : IsExponent exponent) :
    numeralDecimal (withPoint whole fraction exponent) =
      ⟨digitsValue (whole ++ fraction.getD []),
        exponentValue exponent - (fraction.getD []).length⟩ := by
  have hmantissa := apart_exponent_append he (apart_nil isNumeralChar)
  rw [List.append_nil] at hmantissa
  have hdigit : Apart isDigit exponent := hmantissa.imp (by simp +contextual [isMantissaChar])
  cases fraction with
  | none =>
    rw [numeralDecimal, withPoint, takeDigits_append hw hdigit]
    cases he <;> simp
  | some digits =>
    rw [numeralDecimal, withPoint, takeDigits_append hw (apart_cons (by decide))]
    simp [takeDigits_append (hf digits rfl) hdigit]

/-- Digits, a point and an exponent part are one numeral. -/
theorem spells_withPoint {text : List Char} {value : ℚ} (whole : List Char)
    (fraction : Option (List Char)) (exponent : List Char)
    (htext : text = withPoint whole fraction exponent) (hne : whole ≠ []) (hw : IsDigits whole)
    (hf : ∀ digits ∈ fraction, IsDigits digits) (he : IsExponent exponent)
    (hvalue : digitsValue (whole ++ fraction.getD []) *
      (10 : ℚ) ^ (exponentValue exponent - (fraction.getD []).length) = value) :
    Spells text value where
  take rest hr := by
    rw [htext, withPoint_append, takeNumeral?,
      takeMantissa?_withPoint hne hw hf (apart_exponent_append he hr)]
    simp only [Option.bind_eq_bind, Option.bind_some, takeExponent_append he hr]
    rw [withPoint_append]
    rfl
  value_eq := by rw [htext, numeralDecimal_withPoint hw hf he, Decimal.value, hvalue]
  head := by
    obtain ⟨d, ds, rfl⟩ := List.exists_cons_of_ne_nil hne
    exact ⟨d, _, htext, hw d List.mem_cons_self⟩

end

/-! ## Layouts -/

section

variable {digits : List Char}

/-- Digits after a point and zeros. -/
theorem spells_fraction (hd : IsDigits digits) (k : ℕ) :
    Spells (['0', '.'] ++ Layout.zeros k ++ digits)
      (digitsValue digits * 10 ^ (-(k + digits.length) : ℤ)) := by
  refine spells_withPoint ['0'] (some (Layout.zeros k ++ digits)) [] (by simp [withPoint])
    (by simp) (by simp [IsDigits, isDigit]) ?_ .none ?_
  · rintro _ ⟨⟩
    exact (isDigits_zeros k).append hd
  · have hzero : digitsValue ['0'] = 0 := rfl
    rw [Option.getD_some, digitsValue_append, digitsValue_append, hzero, digitsValue_zeros,
      exponentValue]
    simp

/-- Digits and zeros before a point. -/
theorem spells_whole (hd : IsDigits digits) (hne : digits ≠ []) (k : ℕ) :
    Spells (digits ++ Layout.zeros k ++ ['.', '0']) (digitsValue digits * 10 ^ (k : ℤ)) := by
  refine spells_withPoint (digits ++ Layout.zeros k) (some ['0']) [] (by simp [withPoint])
    (by simp [hne]) (hd.append (isDigits_zeros k)) (by simp [IsDigits, isDigit]) .none ?_
  have hzero : digitsValue ['0'] = 0 := rfl
  rw [Option.getD_some, digitsValue_append, digitsValue_append, hzero, digitsValue_zeros,
    exponentValue, length_zeros]
  push_cast
  norm_num
  ring

/-- Digits on both sides of a point. -/
theorem spells_split (hd : IsDigits digits) {i : ℕ} (hpos : 0 < i) (hlt : i < digits.length) :
    Spells (digits.take i ++ '.' :: digits.drop i)
      (digitsValue digits * 10 ^ (i - digits.length : ℤ)) := by
  refine spells_withPoint (digits.take i) (some (digits.drop i)) [] (by simp [withPoint]) ?_
    (fun c hc => hd c (List.mem_of_mem_take hc)) ?_ .none ?_
  · rw [Ne, List.take_eq_nil_iff]
    rintro (rfl | rfl)
    · exact absurd hpos (lt_irrefl 0)
    · exact absurd hlt (Nat.not_lt_zero i)
  · rintro _ ⟨⟩ c hc
    exact hd c (List.mem_of_mem_drop hc)
  · rw [Option.getD_some, List.take_append_drop, List.length_drop, Nat.cast_sub hlt.le,
      exponentValue]
    congr 2
    ring

/-- The exponent part that a layout writes. -/
def exponentPart (layout : Layout) (lead : ℤ) : List Char :=
  'e' :: (if lead < 0 then '-' else '+') ::
    (Layout.zeros (layout.exponentWidth - (Decimal.digitChars lead.natAbs).length) ++
      Decimal.digitChars lead.natAbs)

theorem isExponent_exponentPart (layout : Layout) (lead : ℤ) :
    IsExponent (exponentPart layout lead) := by
  refine .some (by split <;> simp) (by simp [Decimal.digitChars]) ?_
  exact (isDigits_zeros _).append (isDigits_digitChars _)

theorem exponentValue_exponentPart (layout : Layout) (lead : ℤ) :
    exponentValue (exponentPart layout lead) = lead := by
  have hvalue (k n : ℕ) : digitsValue (Layout.zeros k ++ Decimal.digitChars n) = n := by
    rw [digitsValue_append, digitsValue_zeros, digitsValue_digitChars, zero_mul, zero_add]
  rw [exponentPart]
  split
  · simp only [exponentValue, hvalue]
    omega
  · simp only [exponentValue, hvalue]
    omega

/-- A digit, the other digits after a point, and an exponent part. -/
theorem spells_scientific (layout : Layout) (hd : IsDigits digits) (hne : digits ≠ []) (lead : ℤ) :
    Spells (layout.scientific digits lead)
      (digitsValue digits * 10 ^ (lead - digits.length + 1)) := by
  have hpart := isExponent_exponentPart layout lead
  rcases digits with _ | ⟨d, _ | ⟨d', ds⟩⟩
  · exact absurd rfl hne
  · refine spells_withPoint [d] none _ (by simp [withPoint, Layout.scientific, exponentPart])
      (by simp) hd nofun hpart ?_
    simp [exponentValue_exponentPart]
  · refine spells_withPoint [d] (some (d' :: ds)) _
      (by simp [withPoint, Layout.scientific, exponentPart]) (by simp) ?_ ?_ hpart ?_
    · intro c hc
      exact hd c (by simp_all)
    · rintro _ ⟨⟩ c hc
      exact hd c (List.mem_cons_of_mem _ hc)
    · simp only [Option.getD_some, exponentValue_exponentPart, List.singleton_append,
        List.length_cons]
      congr 2
      push_cast
      ring

/-- Digits around a point spell what they are made from. -/
theorem spells_plain (layout : Layout) (hzero : layout.pointZero = true) (hd : IsDigits digits)
    (hne : digits ≠ []) (lead : ℤ) :
    Spells (layout.plain digits lead) (digitsValue digits * 10 ^ (lead - digits.length + 1)) := by
  rw [Layout.plain]
  split
  · next hneg =>
    have hscale : lead - digits.length + 1 = -((-lead - 1).toNat + digits.length : ℤ) := by omega
    rw [hscale]
    exact spells_fraction hd _
  · next hnonneg =>
    dsimp only
    split
    · next hle =>
      have hscale : lead - digits.length + 1 = ((lead.toNat + 1 - digits.length : ℕ) : ℤ) := by
        omega
      rw [hscale]
      exact spells_whole hd hne _
    · next hlt =>
      have hscale : lead - digits.length + 1 = ((lead.toNat + 1 : ℕ) : ℤ) - digits.length := by
        omega
      rw [hscale]
      exact spells_split hd (Nat.succ_pos _) (by omega)

end

/-! ## Numbers -/

section

open Decimal Float.Model

variable {m : ℕ} {e : ℤ}

theorem two_zpow_le_ten_zpow_400 : (2 : ℚ) ^ (1075 : ℤ) ≤ 10 ^ (400 : ℤ) :=
  calc (2 : ℚ) ^ (1075 : ℤ) ≤ 2 ^ (3 * 400 : ℤ) := two_zpow_mono (by norm_num)
    _ = (2 ^ (3 : ℤ)) ^ (400 : ℤ) := zpow_mul 2 3 400
    _ ≤ 10 ^ (400 : ℤ) := zpow_le_zpow_left₀ (by norm_num) (by norm_num) (by norm_num)

/-- A decimal that is rounded to a double is read as that double. -/
theorem Decimal.toFloat_eq {d : Decimal} (h : RoundsTo d.value m e) (hc : Canonical m e) :
    d.toFloat = .ofModel (.pack (.finite .positive m e hc.pos)) := by
  obtain ⟨hlow, hhigh⟩ := h.range hc
  have hpos := digits_pos h hc
  obtain ⟨hunder, hover⟩ := value_bounds hpos
  have hleast : ¬d.scale + (digitCount d.digits : ℤ) - 1 < -400 := by
    intro hlead
    have hsmall : (10 : ℚ) ^ (d.scale + digitCount d.digits) ≤ 10 ^ (-400 : ℤ) :=
      zpow_le_zpow_right₀ (by norm_num) (by omega)
    have hinv : (10 : ℚ) ^ (-400 : ℤ) ≤ 2 ^ (-1075 : ℤ) := by
      rw [zpow_neg, zpow_neg]
      exact inv_anti₀ (two_zpow_pos _) two_zpow_le_ten_zpow_400
    exact absurd (hlow.trans_lt hover) (not_lt.2 (hsmall.trans hinv))
  have hgreatest : ¬400 < d.scale + (digitCount d.digits : ℤ) - 1 := by
    intro hlead
    have hlarge : (10 : ℚ) ^ (400 : ℤ) ≤ 10 ^ (d.scale + digitCount d.digits - 1) :=
      zpow_le_zpow_right₀ (by norm_num) (by omega)
    have hrange : (2 : ℚ) ^ (1024 : ℤ) ≤ 2 ^ (1075 : ℤ) := two_zpow_mono (by norm_num)
    have hbeyond := hrange.trans (two_zpow_le_ten_zpow_400.trans (hlarge.trans hunder))
    exact absurd hhigh (not_lt.2 hbeyond)
  rw [toFloat]
  simp only [hpos.ne', hleast, hgreatest, decide_false, Bool.or_self, Bool.false_eq_true, if_false]
  exact congrArg (fun u => Float.ofModel (.pack u)) (ofScientific_eq h hc)

/-- The text of a decimal spells it. -/
theorem spells_decimal (layout : Layout) (hzero : layout.pointZero = true) (d : Decimal) :
    let digits := digitChars d.digits
    let lead := d.scale + digits.length - 1
    Spells (if layout.plainFrom ≤ lead && lead < layout.plainBelow then layout.plain digits lead
      else layout.scientific digits lead) d.value := by
  intro digits lead
  have hdigits : IsDigits digits := isDigits_digitChars d.digits
  have hne : digits ≠ [] := Nat.toDigits_ne_nil
  have hvalue : (digitsValue digits : ℚ) * 10 ^ (lead - digits.length + 1) = d.value := by
    have hscale : lead - digits.length + 1 = d.scale := by omega
    rw [hscale, digitsValue_digitChars, value]
  rw [← hvalue]
  split
  · exact spells_plain layout hzero hdigits hne lead
  · exact spells_scientific layout hdigits hne lead

/-- A finite number is written as a sign and a numeral, and the numeral is read as the number
without its sign. -/
theorem spells_numberText {x : Float} {negative : Bool}
    (hbits : Binary.ofFloat x = .finite negative m e) :
    ∃ body value, (numberText x).toList = (if negative then ['-'] else []) ++ body ∧
      Spells body value ∧ numeralValue body = x.abs ∧
      withSign negative (numeralValue body) = x := by
  rw [numberText, hbits]
  dsimp only
  rw [Layout.finite, String.toList_ofList]
  rcases (Binary.ofBits_eq_finite x.toBits.toNat_lt hbits).1 with rfl | hc
  · rw [if_pos rfl]
    have hdigits : IsDigits ['0'] := by simp [IsDigits, isDigit]
    refine ⟨_, _, rfl, spells_plain Layout.number rfl hdigits (by simp) 0, ?_⟩
    rw [Binary.eq_ofModel_of_zero hbits]
    cases negative <;> exact ⟨congrArg Float.ofModel (by decide +kernel),
      congrArg Float.ofModel (by decide +kernel)⟩
  · have hspells := spells_decimal Layout.number rfl (shortest Layout.number.tie m e)
    rw [if_neg hc.pos.ne']
    refine ⟨_, _, rfl, hspells, ?_⟩
    have hrounds := shortest_roundsTo hc Layout.number.tie
    rw [← hspells.value_eq] at hrounds
    rw [numeralValue, toFloat_eq hrounds hc, Binary.eq_ofModel_of_finite hbits hc]
    refine ⟨(Binary.abs_finite _ hc).symm, ?_⟩
    cases negative
    · rfl
    · exact Binary.neg_finite hc

theorem exists_spells_numberText {x : Float} (hx : x.isFinite = true) :
    ∃ negative body value, (numberText x).toList = (if negative then ['-'] else []) ++ body ∧
      Spells body value ∧ withSign negative (numeralValue body) = x := by
  obtain ⟨negative, m, e, hbits⟩ := Binary.isFinite_iff.1 hx
  obtain ⟨body, value, htext, hspells, -, hvalue⟩ := spells_numberText hbits
  exact ⟨negative, body, value, htext, hspells, hvalue⟩

theorem takeSign_of_isMantissaChar {c : Char} (h : isMantissaChar c = true) (cs : List Char) :
    takeSign (c :: cs) = (false, c :: cs) := by
  have hplus : c ≠ '+' := by
    rintro rfl
    exact absurd h (by decide)
  have hminus : c ≠ '-' := by
    rintro rfl
    exact absurd h (by decide)
  simp [takeSign, hplus, hminus]

theorem takeSign_signed (negative : Bool) {c : Char} (h : isMantissaChar c = true)
    (cs : List Char) :
    takeSign ((if negative then ['-'] else []) ++ c :: cs) = (negative, c :: cs) := by
  cases negative
  · exact takeSign_of_isMantissaChar h cs
  · rfl

/-- A text that starts with a digit or the point is no word. -/
theorem ofList_toLower_ne {c : Char} (h : isMantissaChar c = true) (cs : List Char) {word : String}
    (hword : Apart isMantissaChar word.toList) :
    String.ofList ((c :: cs).map Char.toLower) ≠ word := by
  rintro rfl
  have hlower : c.toLower = c := by
    simp only [isMantissaChar, isDigit, Bool.or_eq_true, Bool.and_eq_true, decide_eq_true_eq,
      Char.le_def] at h
    rcases h with h | rfl
    · rw [Char.toLower, dif_neg]
      rintro ⟨hge, -⟩
      exact absurd (UInt32.le_trans hge h.2) (by decide)
    · rfl
  have hapart := hword c (by rw [String.toList_ofList, List.map_cons, hlower, List.head?_cons])
  exact absurd h (by simp [hapart])

/-- A numeral after an optional sign is read as its value with that sign. -/
theorem readNumber_of_takeSign {text cs : List Char} {negative : Bool} {c : Char}
    (hsign : takeSign text = (negative, c :: cs)) (hc : isMantissaChar c = true)
    (htake : takeNumeral? (c :: cs) = some (c :: cs, [])) :
    readNumber text = some (withSign negative (numeralValue (c :: cs))) := by
  have hword (word : String) (h : Apart isMantissaChar word.toList) :
      String.ofList ((c :: cs).map Char.toLower) ≠ word := ofList_toLower_ne hc cs h
  rw [readNumber, hsign]
  simp only [hword "inf" (apart_cons (by decide)), hword "infinity" (apart_cons (by decide)),
    hword "nan" (apart_cons (by decide)), htake, decide_false, Bool.or_self, Bool.false_eq_true,
    if_false]

theorem readNumber_signed (negative : Bool) {c : Char} (hc : isMantissaChar c = true)
    {cs : List Char} (htake : takeNumeral? (c :: cs) = some (c :: cs, [])) :
    readNumber ((if negative then ['-'] else []) ++ c :: cs) =
      some (withSign negative (numeralValue (c :: cs))) :=
  readNumber_of_takeSign (takeSign_signed negative hc cs) hc htake

/-- The text of a finite number is read as that number. -/
theorem readNumber_numberText {x : Float} (hx : x.isFinite = true) :
    readNumber (numberText x).toList = some x := by
  obtain ⟨negative, body, value, htext, hspells, hvalue⟩ := exists_spells_numberText hx
  obtain ⟨c, cs, rfl, hdigit⟩ := hspells.head
  have htake := hspells.take [] (apart_nil _)
  rw [List.append_nil] at htake
  have hmantissa : isMantissaChar c = true := by simp [isMantissaChar, hdigit]
  rw [htext, readNumber_signed negative hmantissa htake, hvalue]

/-! ## Numerals are numbers -/

open UnpackedFloat in
theorem isNaN_roundWithAccuracy (s : Sign) (m : ℕ) (e : ℤ) (accuracy : Accuracy) :
    (roundWithAccuracy Format.binary64 s m e accuracy).isNaN = false := by
  rw [roundWithAccuracy]
  dsimp only
  split <;> rfl

theorem isNaN_ofScientific (m : ℕ) (e : ℤ) :
    (UnpackedFloat.ofScientific Format.binary64 m e).isNaN = false := by
  rw [UnpackedFloat.ofScientific]
  repeat' split
  · rfl
  · rfl
  · rfl
  · exact isNaN_roundWithAccuracy _ _ _ _
  · exact isNaN_roundWithAccuracy _ _ _ _

/-- A decimal is read as a number, within the range of doubles or not. -/
theorem Decimal.isNaN_toFloat (d : Decimal) : d.toFloat.isNaN = false := by
  rw [toFloat]
  split
  · decide +kernel
  · split
    · decide +kernel
    · exact Binary.isNaN_pack (isNaN_ofScientific _ _)

theorem isNaN_withSign (negative : Bool) {x : Float} (h : x.isNaN = false) :
    (withSign negative x).isNaN = false := by
  cases negative with
  | false => exact h
  | true => exact Binary.isNaN_neg h

end

end CallScript
