import CallScript.Proofs.Value.Equality
import CallScript.Proofs.Value.Integers

/-!
# Repetition and subscripts

A sequence is repeated as often as an integer says, up to `sequenceLimit` (`RepeatsExactly`), and a
subscript counts from the start of a list or a string, or from its end if it is negative
(`SelectsElement`).  Both compute with unbounded integers here; `wordRepetitions` and `wordPlace`
are the same computations with words of 64 bits, in which sums and products wrap.  They have the
same results (`wordRepetitions_eq`, `wordPlace_eq`), since no step leaves the range of words.
-/

namespace CallScript.Value

/-! ## Words -/

/-- The product of two words; `none` if it takes more than 64 bits. -/
def checkedMul (a b : UInt64) : Option UInt64 :=
  if a.toNat * b.toNat < 2 ^ 64 then some (a * b) else Option.none

/-- A number as a count in a word: converted to a signed word first, and zero if it is negative. -/
def wordCount (x : Float) : UInt64 :=
  (max x.toModel.toInt64 0).toUInt64

/-- How often a sequence of the given length is repeated by a number, in words of 64 bits. -/
def wordRepetitions (x : Float) (length : UInt64) : Except RuntimeError UInt64 :=
  if (integer? x).isSome then
    match checkedMul length (wordCount x) with
    | some total =>
      if total ≤ .ofNat sequenceLimit then .ok (wordCount x)
      else .error (.sequenceTooLarge sequenceLimit)
    | Option.none => .error (.sequenceTooLarge sequenceLimit)
  else .error (.typeMismatch .fractionalCount)

/-- The place a number points to in a sequence, in words of 64 bits. -/
def wordPlace (x : Float) (length : UInt64) : Except RuntimeError UInt64 :=
  if (integer? x).isSome then
    let index := x.toModel.toInt64
    let resolved := if index < 0 then index + length.toInt64 else index
    if resolved < 0 || length.toInt64 ≤ resolved then
      .error (.indexOutOfBounds index.toInt length.toNat)
    else .ok resolved.toUInt64
  else .error (.typeMismatch .fractionalIndex)

theorem toUInt64_toNat {w : Int64} (h : 0 ≤ w.toInt) : w.toUInt64.toNat = w.toInt.toNat :=
  Int64.toNat_toUInt64_of_le (Int64.le_iff_toInt_le.2 h)

theorem toInt64_toInt_of_lt {w : UInt64} (h : w.toNat < 2 ^ 63) : w.toInt64.toInt = w.toNat :=
  BitVec.toInt_eq_toNat_of_lt (by change 2 * w.toNat < 2 ^ 64; omega)

theorem checkedMul_eq_some {a b : UInt64} (h : a.toNat * b.toNat < 2 ^ 64) :
    ∃ w, checkedMul a b = some w ∧ w.toNat = a.toNat * b.toNat :=
  ⟨a * b, if_pos h, by rw [UInt64.toNat_mul, Nat.mod_eq_of_lt h]⟩

section Words

variable {x : Float} {n : ℤ} (hx : IsInteger x n)

include hx

/-- A number that is an integer is the count that its word says. -/
theorem toNat_wordCount : (wordCount x).toNat = n.toNat := by
  have hword := hx.toInt64
  have hmax : (max x.toModel.toInt64 0).toInt = max n 0 := by
    change (if x.toModel.toInt64 ≤ 0 then 0 else x.toModel.toInt64).toInt = _
    split
    · next h =>
      rw [Int64.le_iff_toInt_le, hword, Int64.toInt_zero] at h
      rw [Int64.toInt_zero, max_eq_right h]
    · next h =>
      rw [Int64.le_iff_toInt_le, hword, Int64.toInt_zero] at h
      rw [hword, max_eq_left (not_le.1 h).le]
  rw [wordCount, toUInt64_toNat (by omega), hmax]
  omega

theorem repetitions_eq (length : ℕ) : repetitions x length =
    if length * n.toNat ≤ sequenceLimit then .ok n.toNat
    else .error (.sequenceTooLarge sequenceLimit) := by
  rw [repetitions, integer?_eq_some_iff.2 hx]

/-- A negative index is added to a length without overflow. -/
theorem toInt_index_add {length : UInt64} (hlength : length.toNat < 2 ^ 63) (hn : n < 0) :
    (x.toModel.toInt64 + length.toInt64).toInt = n + length.toNat := by
  have hbound := hx.2
  rw [Int64.toInt_add, hx.toInt64, toInt64_toInt_of_lt hlength]
  apply Int.bmod_eq_of_le <;> omega

end Words

/-- Words give the number of repetitions that unbounded integers give. -/
theorem wordRepetitions_eq (x : Float) (length : UInt64) :
    (wordRepetitions x length).map UInt64.toNat = repetitions x length.toNat := by
  cases hinteger : integer? x with
  | none =>
    rw [wordRepetitions, repetitions, hinteger]
    rfl
  | some n =>
    have hx := integer?_eq_some_iff.1 hinteger
    have hcount := toNat_wordCount hx
    have hlimit : sequenceLimit < 2 ^ 64 := by decide
    rw [wordRepetitions, repetitions_eq hx, hinteger, ← hcount]
    simp only [Option.isSome_some, if_true]
    by_cases hfits : length.toNat * (wordCount x).toNat < 2 ^ 64
    · obtain ⟨total, htotal, hvalue⟩ := checkedMul_eq_some hfits
      rw [htotal]
      simp only [UInt64.le_iff_toNat_le, hvalue, UInt64.toNat_ofNat', Nat.mod_eq_of_lt hlimit]
      split <;> rfl
    · -- A product of more than 64 bits is over the limit.
      rw [checkedMul, if_neg hfits, if_neg (by omega)]
      rfl

/-- Words give the place that unbounded integers give. -/
theorem wordPlace_eq (x : Float) {length : UInt64} (hlength : length.toNat < 2 ^ 63) :
    (wordPlace x length).map UInt64.toNat = place x length.toNat := by
  cases hinteger : integer? x with
  | none =>
    rw [wordPlace, place, hinteger]
    rfl
  | some n =>
    have hx := integer?_eq_some_iff.1 hinteger
    rw [wordPlace, place, hinteger]
    simp only [Option.isSome_some, if_true, Int64.lt_iff_toInt_lt, Int64.le_iff_toInt_le,
      Int64.toInt_zero, hx.toInt64, toInt64_toInt_of_lt hlength]
    have hresolved : (if n < 0 then x.toModel.toInt64 + length.toInt64
        else x.toModel.toInt64).toInt = if n < 0 then n + length.toNat else n := by
      split
      · next hn => exact toInt_index_add hx hlength hn
      · exact hx.toInt64
    rw [← hresolved]
    generalize (if n < 0 then x.toModel.toInt64 + length.toInt64 else x.toModel.toInt64) = resolved
    split
    · rfl
    · next hinside =>
      rw [Bool.or_eq_true, decide_eq_true_iff, not_or, not_lt] at hinside
      exact congrArg Except.ok (toUInt64_toNat hinside.1)

/-! ## Repetition -/

theorem join_replicate_succ (s : String) (k : ℕ) :
    String.join (List.replicate (k + 1) s) = String.join (List.replicate k s) ++ s := by
  rw [List.replicate_succ', String.join, String.join, List.foldl_append]
  rfl

theorem repeatString_eq (s : String) (k : ℕ) :
    repeatString s k = String.join (List.replicate k s) := by
  induction k with
  | zero => exact ite_self _
  | succ k ih =>
    rw [join_replicate_succ, ← ih]
    unfold repeatString
    split
    · next hempty => rw [String.isEmpty_iff.1 hempty, String.append_empty]
    · rfl

theorem repeatList_eq (xs : List Value) (k : ℕ) :
    repeatList xs k = (List.replicate k xs).flatten := by
  unfold repeatList
  split
  · next hempty =>
    rw [List.isEmpty_iff] at hempty
    rw [hempty, List.flatten_replicate_nil]
  · rfl

/-- A sequence is repeated by a number: `length` is what counts towards the limit, and `copies`
gives so many copies of the sequence. -/
structure RepeatsExactly (sequence : Value) (length : ℕ) (copies : ℕ → Value) (x : Float) :
    Prop where
  comm : binary .mul (.number x) sequence = binary .mul sequence (.number x)
  typeMismatch_iff : (∃ what, binary .mul sequence (.number x) = .error (.typeMismatch what)) ↔
    ¬∃ n, IsInteger x n
  tooLarge_iff : ∀ n, IsInteger x n →
    (binary .mul sequence (.number x) = .error (.sequenceTooLarge (2 ^ 24)) ↔
      2 ^ 24 < length * (max n 0).toNat)
  value : ∀ n, IsInteger x n → length * (max n 0).toNat ≤ 2 ^ 24 →
    binary .mul sequence (.number x) = .ok (copies (max n 0).toNat)
  /-- The steps in words of 64 bits: both conversions, the checked product and the size of the
  result are those of unbounded integers. -/
  words : length < 2 ^ 64 → ∀ n, IsInteger x n →
    x.toModel.toInt64.toInt = n ∧ (wordCount x).toNat = (max n 0).toNat ∧
    (wordRepetitions x (.ofNat length)).map UInt64.toNat = repetitions x length ∧
    (length * (max n 0).toNat ≤ 2 ^ 24 →
      (UInt64.ofNat length * wordCount x).toNat = length * (max n 0).toNat)

theorem sequenceLimit_eq : sequenceLimit = 2 ^ 24 := by decide

/-- What repetition gives follows from the number of repetitions. -/
theorem repeatsExactly_of_eq {sequence : Value} {length : ℕ} {copies : ℕ → Value} {x : Float}
    (hleft : binary .mul sequence (.number x) = (repetitions x length).map copies)
    (hright : binary .mul (.number x) sequence = (repetitions x length).map copies) :
    RepeatsExactly sequence length copies x := by
  have hmax (n : ℤ) : (max n 0).toNat = n.toNat := by omega
  have heq {n : ℤ} (hx : IsInteger x n) : binary .mul sequence (.number x) =
      if length * (max n 0).toNat ≤ 2 ^ 24 then .ok (copies (max n 0).toNat)
      else .error (.sequenceTooLarge (2 ^ 24)) := by
    rw [hleft, repetitions_eq hx, hmax, sequenceLimit_eq]
    split <;> rfl
  refine ⟨hright.trans hleft.symm, ⟨?_, ?_⟩, ?_, ?_, ?_⟩
  · rintro ⟨what, hwhat⟩ ⟨n, hx⟩
    rw [heq hx] at hwhat
    split at hwhat <;> cases hwhat
  · intro hnone
    rw [hleft, repetitions, integer?_eq_none_iff.2 hnone]
    exact ⟨_, rfl⟩
  · intro n hx
    rw [heq hx]
    split
    · next hle => exact iff_of_false nofun (not_lt.2 hle)
    · next hgt => exact iff_of_true rfl (not_le.1 hgt)
  · intro n hx hle
    rw [heq hx, if_pos hle]
  · intro hlength n hx
    have hword : (UInt64.ofNat length).toNat = length := UInt64.toNat_ofNat_of_lt' hlength
    have hcount := toNat_wordCount hx
    refine ⟨hx.toInt64, hcount.trans (hmax n).symm, ?_, fun hle => ?_⟩
    · rw [wordRepetitions_eq, hword]
    · rw [UInt64.toNat_mul, hword, hcount, hmax]
      rw [hmax] at hle
      exact Nat.mod_eq_of_lt (hle.trans_lt (by decide))

theorem timesString_eq (s : String) (x : Float) : timesString s x =
    (repetitions x s.utf8ByteSize).map fun k => .string (String.join (List.replicate k s)) := by
  unfold timesString
  cases repetitions x s.utf8ByteSize with
  | error e => rfl
  | ok k => exact congrArg (fun t => Except.ok (Value.string t)) (repeatString_eq s k)

theorem timesList_eq (xs : List Value) (x : Float) : timesList xs x =
    (repetitions x xs.length).map fun k => .list (List.replicate k xs).flatten := by
  unfold timesList
  cases repetitions x xs.length with
  | error e => rfl
  | ok k => exact congrArg (fun ys => Except.ok (Value.list ys)) (repeatList_eq xs k)

/-- Strings and lists are repeated exactly, in either order of the operands. -/
theorem binary_mul_repeats :
    (∀ (s : String) (x : Float), RepeatsExactly (.string s) s.utf8ByteSize
      (fun k => .string (String.join (List.replicate k s))) x) ∧
    ∀ (xs : List Value) (x : Float), RepeatsExactly (.list xs) xs.length
      (fun k => .list (List.replicate k xs).flatten) x :=
  ⟨fun s x => repeatsExactly_of_eq (timesString_eq s x) (timesString_eq s x),
    fun xs x => repeatsExactly_of_eq (timesList_eq xs x) (timesList_eq xs x)⟩

/-- At the limit and just over it, for a negative number of copies, and at the end of the
integers. -/
theorem binary_mul_repeats_at_limit :
    binary .mul (.number 8388608.0) (.string "é") =
      .ok (.string (String.join (List.replicate 8388608 "é"))) ∧
    binary .mul (.string "é") (.number 8388609.0) = .error (.sequenceTooLarge (2 ^ 24)) ∧
    binary .mul (.list [.none]) (.number (-3.0)) = .ok (.list []) ∧
    ∃ what, binary .mul (.list []) (.number 9223372036854775808.0) =
      .error (.typeMismatch what) := by
  have hfits : IsInteger 8388608.0 8388608 := integer?_eq_some_iff.1 (by decide +kernel)
  have hover : IsInteger 8388609.0 8388609 := integer?_eq_some_iff.1 (by decide +kernel)
  have hnegative : IsInteger (-3.0) (-3) := integer?_eq_some_iff.1 (by decide +kernel)
  have hlarge : ¬∃ n, IsInteger 9223372036854775808.0 n :=
    integer?_eq_none_iff.1 (by decide +kernel)
  have hbytes : "é".utf8ByteSize = 2 := by decide
  have hstring := binary_mul_repeats.1 "é"
  have hlist := binary_mul_repeats.2
  rw [hbytes] at hstring
  refine ⟨?_, ?_, ?_, (hlist [] _).typeMismatch_iff.2 hlarge⟩
  · rw [(hstring _).comm]
    have hcount : (max 8388608 0 : ℤ).toNat = 8388608 := by decide
    have hvalue := (hstring _).value _ hfits (by decide)
    rwa [hcount] at hvalue
  · exact ((hstring _).tooLarge_iff _ hover).2 (by decide)
  · exact (hlist [.none] _).value _ hnegative (by decide)

/-! ## Subscripts -/

/-- A value with the given elements is subscripted by a number. -/
structure SelectsElement (value : Value) (elements : List Value) (x : Float) : Prop where
  fromStart : ∀ n, IsInteger x n → 0 ≤ n → n < elements.length →
    ∃ e, elements[n.toNat]? = some e ∧ subscript value (.number x) = .ok e
  fromEnd : ∀ n, IsInteger x n → -elements.length ≤ n → n < 0 →
    ∃ e, elements[(elements.length + n).toNat]? = some e ∧ subscript value (.number x) = .ok e
  outside : ∀ n, IsInteger x n → n < -elements.length ∨ elements.length ≤ n →
    subscript value (.number x) = .error (.indexOutOfBounds n elements.length)
  noInteger : (¬∃ n, IsInteger x n) →
    subscript value (.number x) = .error (.typeMismatch .fractionalIndex)
  /-- In a sequence of a length that memory allows, every integer that points to an element is of a
  magnitude below `2 ^ 63`. -/
  isInteger : elements.length < 2 ^ 63 → ∀ n : ℤ, exactValue? x = some (n : ℚ) →
    -elements.length ≤ n → n < elements.length → IsInteger x n
  /-- In words of 64 bits, the sum of a negative index and the length does not overflow, and the
  place is the same. -/
  words : elements.length < 2 ^ 63 →
    (∀ n, IsInteger x n → n < 0 →
      (x.toModel.toInt64 + (UInt64.ofNat elements.length).toInt64).toInt = n + elements.length) ∧
    (wordPlace x (.ofNat elements.length)).map UInt64.toNat = place x elements.length

section Place

variable {x : Float} {n : ℤ} (hx : IsInteger x n) {length : ℕ}

include hx

theorem place_of_nonneg (hlow : 0 ≤ n) (hhigh : n < length) : place x length = .ok n.toNat := by
  simp only [place, integer?_eq_some_iff.2 hx, if_neg (not_lt.2 hlow)]
  exact if_neg (by simpa using ⟨hlow, hhigh⟩)

theorem place_of_neg (hlow : -length ≤ n) (hhigh : n < 0) :
    place x length = .ok (length + n).toNat := by
  simp only [place, integer?_eq_some_iff.2 hx, if_pos hhigh]
  rw [if_neg, Int.add_comm]
  rw [Bool.or_eq_true, decide_eq_true_iff, decide_eq_true_iff]
  omega

theorem place_of_outside (h : n < -length ∨ length ≤ n) :
    place x length = .error (.indexOutOfBounds n length) := by
  simp only [place, integer?_eq_some_iff.2 hx]
  rw [if_pos]
  rw [Bool.or_eq_true, decide_eq_true_iff, decide_eq_true_iff]
  split <;> omega

end Place

/-- What a subscript selects follows from the place it points to. -/
theorem selectsElement_of_eq {value default : Value} {elements : List Value} {x : Float}
    (h : subscript value (.number x) =
      (place x elements.length).map fun i => elements.getD i default) :
    SelectsElement value elements x := by
  -- The default is never selected, since the place is always inside.
  have hinside {i : ℕ} (hplace : place x elements.length = .ok i) (hi : i < elements.length) :
      ∃ e, elements[i]? = some e ∧ subscript value (.number x) = .ok e := by
    refine ⟨elements[i], List.getElem?_eq_getElem hi, ?_⟩
    rw [h, hplace]
    exact congrArg Except.ok (List.getD_eq_getElem elements default hi)
  refine ⟨?_, ?_, ?_, ?_, ?_, ?_⟩
  · intro n hx hlow hhigh
    exact hinside (place_of_nonneg hx hlow hhigh) (by omega)
  · intro n hx hlow hhigh
    exact hinside (place_of_neg hx hlow hhigh) (by omega)
  · intro n hx houtside
    rw [h, place_of_outside hx houtside]
    rfl
  · intro hnone
    rw [h, place, integer?_eq_none_iff.2 hnone]
    rfl
  · intro hlength n hvalue hlow hhigh
    exact ⟨hvalue, by omega⟩
  · intro hlength
    have hword : (UInt64.ofNat elements.length).toNat = elements.length :=
      UInt64.toNat_ofNat_of_lt' (hlength.trans (by decide))
    have hfits : (UInt64.ofNat elements.length).toNat < 2 ^ 63 := hword.symm ▸ hlength
    refine ⟨fun n hx hn => ?_, ?_⟩
    · rw [toInt_index_add hx hfits hn, hword]
    · rw [wordPlace_eq x hfits, hword]

theorem subscript_list_eq (xs : List Value) (x : Float) : subscript (.list xs) (.number x) =
    (place x xs.length).map fun i => xs.getD i .none := by
  rw [subscript]
  cases place x xs.length <;> rfl

/-- The characters of a string, each as a string. -/
def characters (s : String) : List Value :=
  s.toList.map fun c => .string (String.singleton c)

theorem subscript_string_eq (s : String) (x : Float) : subscript (.string s) (.number x) =
    (place x (characters s).length).map fun i => (characters s).getD i (.string "") := by
  have hlength : (characters s).length = s.toList.length := List.length_map ..
  rw [subscript, hlength]
  cases place x s.toList.length with
  | error e => rfl
  | ok i =>
    refine congrArg Except.ok ?_
    dsimp only
    rw [List.getD_eq_getElem?_getD, characters, List.getElem?_map]
    cases s.toList[i]? <;> rfl

/-- A mapping, stored or read, is subscripted by a key. -/
structure SelectsEntry (entries : Bindings) (key : String) : Prop where
  stored_iff : (∃ v, subscript (.map entries) (.string key) = .ok v) ↔ key ∈ Entries.keys entries
  read_iff : (∃ v, subscript (.view entries) (.string key) = .ok v) ↔ key ∈ Entries.keys entries
  mem : ∀ v, subscript (.map entries) (.string key) = .ok v → (key, v) ∈ entries
  absent : key ∉ Entries.keys entries →
    subscript (.map entries) (.string key) = .error (.keyNotFound key)
  read_eq : subscript (.view entries) (.string key) =
    (subscript (.map entries) (.string key)).map (wrap key)

theorem selectsEntry (entries : Bindings) (key : String) : SelectsEntry entries key := by
  have hstored : subscript (.map entries) (.string key) = entry key (Entries.get? key entries) := by
    rw [subscript]
  have hread : subscript (.view entries) (.string key) =
      (entry key (Entries.get? key entries)).map (wrap key) := by
    rw [subscript, Environment.get?, Environment.getRaw?]
    cases Entries.get? key entries <;> rfl
  cases hget : Entries.get? key entries with
  | none =>
    have habsent := Entries.get?_eq_none_iff.1 hget
    rw [hget] at hstored hread
    refine ⟨iff_of_false ?_ habsent, iff_of_false ?_ habsent, ?_, fun _ => hstored, ?_⟩
    · rw [hstored]
      rintro ⟨v, ⟨⟩⟩
    · rw [hread]
      rintro ⟨v, ⟨⟩⟩
    · rw [hstored]
      rintro v ⟨⟩
    · rw [hread, hstored]
  | some value =>
    have hpresent : key ∈ Entries.keys entries := by
      by_contra h
      rw [Entries.get?_eq_none_iff.2 h] at hget
      cases hget
    rw [hget] at hstored hread
    refine ⟨iff_of_true ⟨_, hstored⟩ hpresent, iff_of_true ⟨_, hread⟩ hpresent, ?_,
      fun h => absurd hpresent h, ?_⟩
    · rw [hstored]
      rintro v ⟨⟩
      exact Entries.mem_of_get? hget
    · rw [hread, hstored]

/-- Subscripts select the element that a number points to, of a list or of the characters of a
string, or the value that a mapping has under a key. -/
theorem subscript_selects :
    (∀ (xs : List Value) (x : Float), SelectsElement (.list xs) xs x) ∧
    (∀ (s : String) (x : Float), SelectsElement (.string s) (characters s) x) ∧
    ∀ (entries : Bindings) (key : String), SelectsEntry entries key :=
  ⟨fun xs x => selectsElement_of_eq (subscript_list_eq xs x),
    fun s x => selectsElement_of_eq (subscript_string_eq s x), selectsEntry⟩

/-- The first and the last index from the end of a text with a character of two bytes, the places
next to them, and a fraction. -/
theorem subscript_selects_around_ends :
    subscript (.string "né") (.number (-1.0)) = .ok (.string "é") ∧
    subscript (.string "né") (.number (-2.0)) = .ok (.string "n") ∧
    subscript (.string "né") (.number (-3.0)) = .error (.indexOutOfBounds (-3) 2) ∧
    subscript (.string "né") (.number (-0.0)) = .ok (.string "n") ∧
    subscript (.string "né") (.number 2.0) = .error (.indexOutOfBounds 2 2) ∧
    subscript (.string "né") (.number 0.5) = .error (.typeMismatch .fractionalIndex) ∧
    subscript (.view [("k", .map [])]) (.string "k") = .ok (.view []) := by
  have hlast : IsInteger (-1.0) (-1) := integer?_eq_some_iff.1 (by decide +kernel)
  have hfirst : IsInteger (-2.0) (-2) := integer?_eq_some_iff.1 (by decide +kernel)
  have hbefore : IsInteger (-3.0) (-3) := integer?_eq_some_iff.1 (by decide +kernel)
  have hzero : IsInteger (-0.0) 0 := integer?_eq_some_iff.1 (by decide +kernel)
  have hafter : IsInteger 2.0 2 := integer?_eq_some_iff.1 (by decide +kernel)
  have hhalf : ¬∃ n, IsInteger 0.5 n := integer?_eq_none_iff.1 (by decide +kernel)
  obtain ⟨-, hstring, hmapping⟩ := subscript_selects
  have hcharacters : characters "né" = [.string "n", .string "é"] := by
    have hchars : "né".toList = ['n', 'é'] := by decide
    rw [characters, hchars]
    rfl
  have hselects := hstring "né"
  rw [hcharacters] at hselects
  refine ⟨?_, ?_, (hselects _).outside _ hbefore (by decide), ?_,
    (hselects _).outside _ hafter (by decide), (hselects _).noInteger hhalf,
    (hmapping [("k", .map [])] "k").read_eq⟩
  · obtain ⟨e, ⟨⟩, he⟩ := (hselects _).fromEnd _ hlast (by decide) (by decide)
    exact he
  · obtain ⟨e, ⟨⟩, he⟩ := (hselects _).fromEnd _ hfirst (by decide) (by decide)
    exact he
  · obtain ⟨e, ⟨⟩, he⟩ := (hselects _).fromStart _ hzero (by decide) (by decide)
    exact he

end CallScript.Value
