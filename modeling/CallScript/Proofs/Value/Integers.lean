import CallScript.Proofs.Decimal.Nearest
import CallScript.Value.Operators

/-!
# Operators on integers

`integer?` takes the doubles that stand for an integer of magnitude below `2 ^ 63`
(`integer?_eq_some_iff`).  Exclusive or works on these: on words of 64 bits it is the exclusive or
of the two's complements (`xorIntegers_eq`), which stays within `k` bits and a sign if its operands
do (`xor_bounds`).  So its result is the nearest double (`isNearest_xor`), and with 53 bits and a
sign no rounding happens (`IsShortInteger.xor`).
-/

namespace CallScript.Value

/-- A double that stands for an integer of magnitude below `2 ^ 63`. -/
def IsInteger (x : Float) (n : ℤ) : Prop :=
  exactValue? x = some (n : ℚ) ∧ n.natAbs < 2 ^ 63

theorem integer?_eq_some_iff {x : Float} {n : ℤ} : integer? x = some n ↔ IsInteger x n := by
  rw [integer?, Option.filter_eq_some_iff, wholeNumber?_eq_some_iff, decide_eq_true_iff,
    Nat.one_shiftLeft]
  rfl

theorem integer?_eq_none_iff {x : Float} : integer? x = Option.none ↔ ¬∃ n, IsInteger x n := by
  rw [Option.eq_none_iff_forall_ne_some, not_exists]
  exact forall_congr' fun n => not_congr integer?_eq_some_iff

theorem IsInteger.toInt64 {x : Float} {n : ℤ} (h : IsInteger x n) : x.toModel.toInt64.toInt = n :=
  toInt64_toInt h.1 (by have := h.2; omega) (by have := h.2; omega)

/-! ## Two's complements -/

/-- Exclusive or does not depend on whether it is taken before or after cutting to words. -/
theorem ofInt_xor (a b : ℤ) :
    BitVec.ofInt 64 (Int.xor a b) = BitVec.ofInt 64 a ^^^ BitVec.ofInt 64 b := by
  -- A negative number is the complement of a natural one.
  have hnat (n : ℕ) : BitVec.ofInt 64 (Int.ofNat n) = BitVec.ofNat 64 n := BitVec.ofInt_natCast 64 n
  have hneg (n : ℕ) : BitVec.ofInt 64 (Int.negSucc n) = ~~~BitVec.ofNat 64 n :=
    BitVec.ofInt_negSucc_eq_not_ofNat
  cases a with
  | ofNat m =>
    cases b with
    | ofNat n => exact (hnat _).trans (by rw [hnat, hnat, BitVec.ofNat_xor])
    | negSucc n => exact (hneg _).trans (by rw [hnat, hneg, BitVec.ofNat_xor, BitVec.not_xor_right])
  | negSucc m =>
    cases b with
    | ofNat n => exact (hneg _).trans (by rw [hneg, hnat, BitVec.ofNat_xor, BitVec.not_xor_left])
    | negSucc n =>
      refine (hnat _).trans ?_
      rw [hneg, hneg, BitVec.ofNat_xor, ← BitVec.not_xor_left, ← BitVec.not_xor_right,
        BitVec.not_not]

/-- The binary digits of a two's complement, each inverted if the sign is set. -/
def digitsBelowSign : ℤ → ℕ
  | .ofNat m => m
  | .negSucc m => m

theorem digitsBelowSign_lt_iff {k : ℕ} {a : ℤ} :
    digitsBelowSign a < 2 ^ k ↔ -2 ^ k ≤ a ∧ a < 2 ^ k := by
  have hpow : (2 ^ k : ℤ) = ((2 ^ k : ℕ) : ℤ) := by push_cast; rfl
  rw [hpow]
  generalize 2 ^ k = bound
  cases a with
  | ofNat m =>
    rw [digitsBelowSign, Int.ofNat_eq_natCast]
    omega
  | negSucc m =>
    rw [digitsBelowSign]
    omega

theorem digitsBelowSign_xor (a b : ℤ) :
    digitsBelowSign (Int.xor a b) = digitsBelowSign a ^^^ digitsBelowSign b := by
  cases a <;> cases b <;> rfl

/-- Exclusive or needs no more bits than its operands. -/
theorem xor_bounds {k : ℕ} {a b : ℤ} (ha : -2 ^ k ≤ a ∧ a < 2 ^ k) (hb : -2 ^ k ≤ b ∧ b < 2 ^ k) :
    -2 ^ k ≤ Int.xor a b ∧ Int.xor a b < 2 ^ k := by
  rw [← digitsBelowSign_lt_iff] at ha hb ⊢
  rw [digitsBelowSign_xor]
  exact Nat.xor_lt_two_pow ha hb

theorem xor_word_bounds {a b : ℤ} (ha : a.natAbs < 2 ^ 63) (hb : b.natAbs < 2 ^ 63) :
    -2 ^ 63 ≤ Int.xor a b ∧ Int.xor a b < 2 ^ 63 :=
  xor_bounds ⟨by omega, by omega⟩ ⟨by omega, by omega⟩

/-- The exclusive or of words is that of the integers. -/
theorem xorIntegers_eq {a b : ℤ} (ha : a.natAbs < 2 ^ 63) (hb : b.natAbs < 2 ^ 63) :
    xorIntegers a b = Int.xor a b := by
  obtain ⟨hlow, hhigh⟩ := xor_word_bounds ha hb
  have hword : Int64.ofInt a ^^^ Int64.ofInt b = Int64.ofInt (Int.xor a b) := by
    apply Int64.toBitVec_inj.1
    rw [Int64.toBitVec_xor, Int64.toBitVec_ofInt, Int64.toBitVec_ofInt, Int64.toBitVec_ofInt,
      ofInt_xor]
  rw [xorIntegers, hword, Int64.toInt_ofInt_of_le hlow hhigh]

theorem xor_comm (a b : ℤ) : Int.xor a b = Int.xor b a := by
  cases a <;> cases b <;> simp [Int.xor, Nat.xor_comm]

theorem xor_assoc (a b c : ℤ) : Int.xor (Int.xor a b) c = Int.xor a (Int.xor b c) := by
  cases a <;> cases b <;> cases c <;> simp [Int.xor, Nat.xor_assoc]

theorem xor_xor_self (a b : ℤ) : Int.xor (Int.xor a b) b = a := by
  cases a <;> cases b <;> simp [Int.xor]

/-! ## Exclusive or of numbers -/

section

variable {x y : Float} {a b : ℤ}

/-- The exclusive or of two integers is made a double. -/
theorem binary_bitXor_eq (hx : IsInteger x a) (hy : IsInteger y b) :
    binary .bitXor (.number x) (.number y) = .ok (.number (Float.ofInt (Int.xor a b))) := by
  have hvalue : exclusiveOr x y = .ok (Float.ofInt (Int.xor a b)) := by
    rw [exclusiveOr, integer?_eq_some_iff.2 hx, integer?_eq_some_iff.2 hy,
      ← xorIntegers_eq hx.2 hy.2]
  rw [binary, arithmetic, hvalue]
  rfl

/-- Where a number is no integer, there is no exclusive or. -/
theorem binary_bitXor_error (h : ¬((∃ a, IsInteger x a) ∧ ∃ b, IsInteger y b)) :
    binary .bitXor (.number x) (.number y) = .error (.typeMismatch .fractionalBits) := by
  have hvalue : exclusiveOr x y = .error (.typeMismatch .fractionalBits) := by
    unfold exclusiveOr
    split
    · next a b hx hy =>
      exact absurd ⟨⟨a, integer?_eq_some_iff.1 hx⟩, b, integer?_eq_some_iff.1 hy⟩ h
    · rfl
  rw [binary, arithmetic, hvalue]
  rfl

/-- A double that stands for an integer of 53 bits and a sign. -/
def IsShortInteger (x : Float) (n : ℤ) : Prop :=
  exactValue? x = some (n : ℚ) ∧ -2 ^ 53 ≤ n ∧ n ≤ 2 ^ 53 - 1

theorem IsShortInteger.isInteger (h : IsShortInteger x a) : IsInteger x a :=
  ⟨h.1, by have := h.2; omega⟩

/-- Integers of 53 bits and a sign have an exclusive or of as many, which is a double. -/
theorem IsShortInteger.xor (hx : IsShortInteger x a) (hy : IsShortInteger y b) :
    IsShortInteger (Float.ofInt (Int.xor a b)) (Int.xor a b) := by
  have hbounds := xor_bounds (k := 53) (a := a) (b := b) ⟨hx.2.1, by have := hx.2.2; omega⟩
    ⟨hy.2.1, by have := hy.2.2; omega⟩
  exact ⟨exactValue?_ofInt (by omega), hbounds.1, by omega⟩

theorem isNearest_xor (hx : IsInteger x a) (hy : IsInteger y b) :
    IsNearest (Float.ofInt (Int.xor a b)) (Int.xor a b) := by
  have hbounds := xor_word_bounds hx.2 hy.2
  apply isNearest_ofInt
  have habs : |(Int.xor a b : ℚ)| ≤ 2 ^ 63 := by
    rw [abs_le]
    constructor
    · exact_mod_cast hbounds.1
    · exact_mod_cast hbounds.2.le
  have hend : (2 ^ 63 : ℚ) < Decimal.rangeEnd := by
    have hscale : (2 ^ 53 - 1 / 2 : ℚ) * 2 ^ (11 : ℤ) ≤ (2 ^ 53 - 1 / 2) * 2 ^ (971 : ℤ) :=
      mul_le_mul_of_nonneg_left (Decimal.two_zpow_mono (by norm_num)) (by norm_num)
    refine lt_of_lt_of_le ?_ hscale
    norm_num
  exact habs.trans_lt hend

end

/-- Two numbers have an exclusive or exactly if both are integers of magnitude below `2 ^ 63`, and
it is the nearest double to that of the two's complements.  From `-2 ^ 53` to `2 ^ 53 - 1` it is
that integer itself, in the same range again, so it is commutative and associative there, and
undoes itself. -/
theorem binary_bitXor_laws (x y z : Float) :
    ((∃ v, binary .bitXor (.number x) (.number y) = .ok v) ↔
      (∃ a, IsInteger x a) ∧ ∃ b, IsInteger y b) ∧
    (∀ a b, IsInteger x a → IsInteger y b →
      ∃ r, binary .bitXor (.number x) (.number y) = .ok (.number r) ∧
        IsNearest r (Int.xor a b)) ∧
    ∀ a b, IsShortInteger x a → IsShortInteger y b →
      (∃ r, binary .bitXor (.number x) (.number y) = .ok (.number r) ∧
        IsShortInteger r (Int.xor a b)) ∧
      binary .bitXor (.number x) (.number y) = binary .bitXor (.number y) (.number x) ∧
      (∃ r, (binary .bitXor (.number x) (.number y) >>= fun v => binary .bitXor v (.number y)) =
        .ok (.number r) ∧ IsShortInteger r a) ∧
      ∀ c, IsShortInteger z c → ∃ r,
        (binary .bitXor (.number x) (.number y) >>= fun v => binary .bitXor v (.number z)) =
          .ok (.number r) ∧
        (binary .bitXor (.number y) (.number z) >>= fun v => binary .bitXor (.number x) v) =
          .ok (.number r) := by
  refine ⟨⟨fun ⟨v, hv⟩ => ?_, fun ⟨⟨a, hx⟩, b, hy⟩ => ⟨_, binary_bitXor_eq hx hy⟩⟩,
    fun a b hx hy => ⟨_, binary_bitXor_eq hx hy, isNearest_xor hx hy⟩, fun a b hx hy => ?_⟩
  · by_contra h
    rw [binary_bitXor_error h] at hv
    cases hv
  · have hxy := binary_bitXor_eq hx.isInteger hy.isInteger
    have hshort := hx.xor hy
    refine ⟨⟨_, hxy, hshort⟩, ?_, ?_, fun c hz => ⟨Float.ofInt (Int.xor (Int.xor a b) c), ?_, ?_⟩⟩
    · rw [hxy, binary_bitXor_eq hy.isInteger hx.isInteger, xor_comm]
    · refine ⟨Float.ofInt a, ?_, exactValue?_ofInt (by have := hx.2; omega), hx.2⟩
      rw [hxy]
      exact (binary_bitXor_eq hshort.isInteger hy.isInteger).trans (by rw [xor_xor_self])
    · rw [hxy]
      exact binary_bitXor_eq hshort.isInteger hz.isInteger
    · rw [binary_bitXor_eq hy.isInteger hz.isInteger, xor_assoc]
      exact binary_bitXor_eq hx.isInteger (hy.xor hz).isInteger

theorem isShortInteger_of_wholeNumber? {x : Float} {n : ℤ} (h : wholeNumber? x = some n)
    (hlow : -2 ^ 53 ≤ n) (hhigh : n ≤ 2 ^ 53 - 1) : IsShortInteger x n :=
  ⟨wholeNumber?_eq_some_iff.1 h, hlow, hhigh⟩

/-- At the ends of the range, with a negative operand and the other zero. -/
theorem binary_bitXor_laws_at_ends :
    (∃ r, binary .bitXor (.number (-9007199254740992.0)) (.number 9007199254740991.0) =
      .ok (.number r) ∧ IsShortInteger r (-1) ∧ IsNearest r (-1 : ℤ)) ∧
    ∃ r, (binary .bitXor (.number (-9007199254740992.0)) (.number 9007199254740991.0) >>=
        fun v => binary .bitXor v (.number (-0.0))) = .ok (.number r) ∧
      (binary .bitXor (.number 9007199254740991.0) (.number (-0.0)) >>=
        fun v => binary .bitXor (.number (-9007199254740992.0)) v) = .ok (.number r) := by
  have hx : IsShortInteger (-9007199254740992.0) (-2 ^ 53) :=
    isShortInteger_of_wholeNumber? (by decide +kernel) (by decide) (by decide)
  have hy : IsShortInteger 9007199254740991.0 (2 ^ 53 - 1) :=
    isShortInteger_of_wholeNumber? (by decide +kernel) (by decide) (by decide)
  have hz : IsShortInteger (-0.0) 0 :=
    isShortInteger_of_wholeNumber? (by decide +kernel) (by decide) (by decide)
  have hxor : Int.xor (-2 ^ 53) (2 ^ 53 - 1) = -1 := by decide
  obtain ⟨-, hnearest, hshort⟩ := binary_bitXor_laws (-9007199254740992.0) 9007199254740991.0 (-0.0)
  obtain ⟨r, hr, hr'⟩ := hnearest _ _ hx.isInteger hy.isInteger
  obtain ⟨⟨s, hs, hs'⟩, -, -, hassoc⟩ := hshort _ _ hx hy
  obtain rfl : r = s := by
    rw [hr] at hs
    cases hs
    rfl
  rw [hxor] at hr' hs'
  exact ⟨⟨r, hr, hs', hr'⟩, hassoc 0 hz⟩

end CallScript.Value
