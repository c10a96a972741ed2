import CallScript.Proofs.Program.Scanning
import CallScript.Proofs.Text.Munch
import Mathlib.Computability.Language

/-!
# Patterns

The texts of words, numerals, string literals and comments, as languages, and what the readers of
the library take of them.  Where a text starts with words or numerals of several lengths a reader
takes the longest (`length_le_of_word`, `Takes.length_le`); a text starts with one string literal or
comment at most (`scanString_of_stringLiteral`, `takeComment?_of_comment`).
-/

namespace CallScript

open scoped Computability

/-! ## Characters -/

theorem head_eq_of_isPrefix {c d : Char} {cs ds : List Char} (h : c :: cs <+: d :: ds) : c = d :=
  (List.cons_prefix_cons.1 h).1

namespace Pattern

/-- One character of a class. -/
def oneOf (p : Char → Prop) : Language Char :=
  {cs | ∃ c, p c ∧ cs = [c]}

section

variable {p : Char → Prop} {l : Language Char} {cs : List Char}

theorem mem_oneOf : cs ∈ oneOf p ↔ ∃ c, p c ∧ cs = [c] := Iff.rfl

theorem mem_oneOf_mul : cs ∈ oneOf p * l ↔ ∃ c ds, cs = c :: ds ∧ p c ∧ ds ∈ l := by
  rw [Language.mem_mul]
  constructor
  · rintro ⟨_, ⟨c, hc, rfl⟩, ds, hds, rfl⟩
    exact ⟨c, ds, rfl, hc, hds⟩
  · rintro ⟨c, ds, rfl, hc, hds⟩
    exact ⟨[c], ⟨c, hc, rfl⟩, ds, hds, rfl⟩

theorem mem_oneOf_kstar : cs ∈ (oneOf p)∗ ↔ ∀ c ∈ cs, p c := by
  rw [Language.mem_kstar]
  constructor
  · rintro ⟨parts, rfl, hparts⟩ c hc
    obtain ⟨part, hpart, hc⟩ := List.mem_flatten.1 hc
    obtain ⟨d, hd, rfl⟩ := hparts part hpart
    rwa [List.mem_singleton.1 hc]
  · intro h
    refine ⟨cs.map ([·]), by rw [← List.flatMap_def, List.flatMap_singleton'], fun part hpart => ?_⟩
    obtain ⟨c, hc, rfl⟩ := List.mem_map.1 hpart
    exact ⟨c, h c hc, rfl⟩

theorem mem_one_add : cs ∈ 1 + l ↔ cs = [] ∨ cs ∈ l := by
  rw [Language.mem_add, Language.mem_one]

end

/-! ## Words -/

/-- A letter or an underscore, and letters, digits and underscores. -/
def word : Language Char :=
  oneOf (isNameStart ·) * (oneOf (isNameChar ·))∗

theorem mem_word {cs : List Char} :
    cs ∈ word ↔ ∃ c ds, cs = c :: ds ∧ isNameStart c = true ∧ ∀ d ∈ ds, isNameChar d = true := by
  simp only [word, mem_oneOf_mul, mem_oneOf_kstar]

theorem takeWhile_mem_word {c : Char} (hc : isNameStart c = true) (cs : List Char) :
    c :: cs.takeWhile isNameChar ∈ word :=
  mem_word.2 ⟨c, _, rfl, hc, fun _ hd => List.mem_takeWhile_imp hd⟩

/-- The characters of a name that a text starts with are the longest word there. -/
theorem length_le_of_word {text cs : List Char} {c : Char} (h : text ∈ word)
    (htext : text <+: c :: cs) : text.length ≤ (c :: cs.takeWhile isNameChar).length := by
  obtain ⟨d, ds, rfl, -, hds⟩ := mem_word.1 h
  obtain ⟨more, hmore⟩ := htext
  rw [List.cons_append] at hmore
  obtain ⟨-, rfl⟩ := List.cons.inj hmore
  rw [List.takeWhile_append_of_pos hds]
  simp

/-! ## Numerals -/

/-- At least one digit. -/
def digits : Language Char :=
  oneOf (isDigit ·) * (oneOf (isDigit ·))∗

/-- Digits with an optional point, and digits on at least one side of it. -/
def mantissa : Language Char :=
  digits * (1 + oneOf (· = '.') * (oneOf (isDigit ·))∗) + oneOf (· = '.') * digits

/-- A plus or a minus sign. -/
def sign : Language Char :=
  oneOf fun c => c = '+' ∨ c = '-'

/-- The mark of an exponent, an optional sign and digits. -/
def exponent : Language Char :=
  oneOf (fun c => c = 'e' ∨ c = 'E') * ((1 + sign) * digits)

/-- An unsigned numeral. -/
def numeral : Language Char :=
  mantissa * (1 + exponent)

theorem mem_digits {cs : List Char} : cs ∈ digits ↔ cs ≠ [] ∧ IsDigits cs := by
  simp only [digits, mem_oneOf_mul, mem_oneOf_kstar]
  constructor
  · rintro ⟨c, ds, rfl, hc, hds⟩
    exact ⟨by simp, List.forall_mem_cons.2 ⟨hc, hds⟩⟩
  · rintro ⟨hne, h⟩
    obtain ⟨c, ds, rfl⟩ := List.exists_cons_of_ne_nil hne
    exact ⟨c, ds, rfl, List.forall_mem_cons.1 h⟩

theorem mem_mantissa {cs : List Char} : cs ∈ mantissa ↔
    (∃ whole ∈ digits, cs = whole ∨ ∃ fraction, IsDigits fraction ∧ cs = whole ++ '.' :: fraction) ∨
      ∃ fraction ∈ digits, cs = '.' :: fraction := by
  simp only [mantissa, Language.mem_add, Language.mem_mul, Language.mem_one, mem_oneOf,
    mem_oneOf_kstar]
  constructor
  · rintro (⟨whole, hwhole, _, rfl | ⟨_, ⟨_, rfl, rfl⟩, fraction, hfraction, rfl⟩, rfl⟩ |
      ⟨_, ⟨_, rfl, rfl⟩, fraction, hfraction, rfl⟩)
    · exact .inl ⟨whole, hwhole, .inl (List.append_nil whole)⟩
    · exact .inl ⟨whole, hwhole, .inr ⟨fraction, hfraction, rfl⟩⟩
    · exact .inr ⟨fraction, hfraction, rfl⟩
  · rintro (⟨whole, hwhole, rfl | ⟨fraction, hfraction, rfl⟩⟩ | ⟨fraction, hfraction, rfl⟩)
    · exact .inl ⟨cs, hwhole, [], .inl rfl, List.append_nil cs⟩
    · exact .inl ⟨whole, hwhole, _, .inr ⟨['.'], ⟨'.', rfl, rfl⟩, fraction, hfraction, rfl⟩, rfl⟩
    · exact .inr ⟨['.'], ⟨'.', rfl, rfl⟩, fraction, hfraction, rfl⟩

theorem mem_exponent {cs : List Char} : cs ∈ exponent ↔
    ∃ mark signs ds, cs = mark :: (signs ++ ds) ∧ (mark = 'e' ∨ mark = 'E') ∧
      (signs = [] ∨ ∃ c, (c = '+' ∨ c = '-') ∧ signs = [c]) ∧ ds ∈ digits := by
  simp only [exponent, Language.mem_mul, mem_one_add, sign, mem_oneOf]
  constructor
  · rintro ⟨_, ⟨mark, hmark, rfl⟩, _, ⟨signs, hsigns, ds, hds, rfl⟩, rfl⟩
    exact ⟨mark, signs, ds, rfl, hmark, hsigns, hds⟩
  · rintro ⟨mark, signs, ds, rfl, hmark, hsigns, hds⟩
    exact ⟨[mark], ⟨mark, hmark, rfl⟩, _, ⟨signs, hsigns, ds, hds, rfl⟩, rfl⟩

theorem isMantissaChar_of_isDigits {cs : List Char} (h : IsDigits cs) :
    ∀ c ∈ cs, isMantissaChar c = true :=
  fun c hc => by simp [isMantissaChar, h c hc]

theorem head_numeral {cs : List Char} (h : cs ∈ numeral) :
    ∃ c ds, cs = c :: ds ∧ isMantissaChar c = true := by
  obtain ⟨front, hfront, back, -, rfl⟩ := Language.mem_mul.1 h
  have hdigits {ds : List Char} (hds : ds ∈ digits) :
      ∃ c cs, ds = c :: cs ∧ isMantissaChar c = true := by
    obtain ⟨hne, hds⟩ := mem_digits.1 hds
    obtain ⟨c, cs, rfl⟩ := List.exists_cons_of_ne_nil hne
    exact ⟨c, cs, rfl, isMantissaChar_of_isDigits hds c List.mem_cons_self⟩
  rcases mem_mantissa.1 hfront with ⟨whole, hwhole, rfl | ⟨fraction, -, rfl⟩⟩ | ⟨fraction, -, rfl⟩
  · obtain ⟨c, cs, rfl, hc⟩ := hdigits hwhole
    exact ⟨c, _, rfl, hc⟩
  · obtain ⟨c, cs, rfl, hc⟩ := hdigits hwhole
    exact ⟨c, _, rfl, hc⟩
  · exact ⟨'.', _, rfl, rfl⟩

end Pattern

open Pattern

theorem isDigits_of_takeDigits {cs ds rest : List Char} (h : takeDigits cs = (ds, rest)) :
    IsDigits ds := by
  cases h
  exact fun _ hd => List.mem_takeWhile_imp hd

theorem takeDigits_extend {ds : List Char} (h : IsDigits ds) (more : List Char) :
    takeDigits (ds ++ more) = (ds ++ more.takeWhile isDigit, more.dropWhile isDigit) :=
  Prod.ext (List.takeWhile_append_of_pos h) (List.dropWhile_append_of_pos h)

theorem mem_mantissa_of_takeMantissa? {cs text rest : List Char}
    (h : takeMantissa? cs = some (text, rest)) : text ∈ mantissa := by
  rw [mem_mantissa]
  unfold takeMantissa? at h
  split at h
  · split at h
    · cases h
    · next hne hfraction =>
      cases h
      exact .inr ⟨_, mem_digits.2 ⟨hne, isDigits_of_takeDigits hfraction⟩, rfl⟩
  · cases h
  · next hne hwhole =>
    cases h
    have hdigits := mem_digits.2 ⟨hne, isDigits_of_takeDigits hwhole⟩
    exact .inl ⟨_, hdigits, .inr ⟨_, isDigits_of_takeDigits rfl, rfl⟩⟩
  · next hne _ hwhole =>
    cases h
    exact .inl ⟨_, mem_digits.2 ⟨hne, isDigits_of_takeDigits hwhole⟩, .inl rfl⟩

theorem mem_exponent_of_takeExponent {cs text rest : List Char}
    (h : takeExponent cs = (text, rest)) : text = [] ∨ text ∈ exponent := by
  unfold takeExponent at h
  split at h
  · split at h
    · next hmark =>
      simp only [Bool.or_eq_true, decide_eq_true_eq] at hmark
      split at h
      · next hsign =>
        simp only [Bool.or_eq_true, decide_eq_true_eq] at hsign
        split at h
        · cases h
          exact .inl rfl
        · next hne hdigits =>
          cases h
          have hds := mem_digits.2 ⟨hne, isDigits_of_takeDigits hdigits⟩
          exact .inr (mem_exponent.2 ⟨_, [_], _, rfl, hmark, .inr ⟨_, hsign, rfl⟩, hds⟩)
      · split at h
        · cases h
          exact .inl rfl
        · next hne hdigits =>
          cases h
          have hds := mem_digits.2 ⟨hne, isDigits_of_takeDigits hdigits⟩
          exact .inr (mem_exponent.2 ⟨_, [], _, rfl, hmark, .inl rfl, hds⟩)
    · cases h
      exact .inl rfl
  · cases h
    exact .inl rfl

/-- Before any text, digits are taken, and the digits and the point that continue them. -/
theorem takeMantissa?_digits {whole : List Char} (h : whole ∈ digits) (more : List Char) :
    ∃ extra rest, takeMantissa? (whole ++ more) = some (whole ++ extra, rest) ∧
      more = extra ++ rest ∧ ∀ c ∈ extra, isMantissaChar c = true := by
  obtain ⟨hne, hdigits⟩ := mem_digits.1 h
  obtain ⟨d, ds, rfl⟩ := List.exists_cons_of_ne_nil hne
  have hchars (cs : List Char) : ∀ c ∈ cs.takeWhile isDigit, isMantissaChar c = true :=
    isMantissaChar_of_isDigits fun _ hd => List.mem_takeWhile_imp hd
  have hsplit := List.takeWhile_append_dropWhile (p := isDigit) (l := more)
  rw [takeMantissa?, takeDigits_extend hdigits]
  cases hrest : more.dropWhile isDigit with
  | nil => exact ⟨_, _, rfl, (hrest ▸ hsplit).symm, hchars more⟩
  | cons c rest =>
    rw [hrest] at hsplit
    by_cases hc : c = '.'
    · subst hc
      refine ⟨more.takeWhile isDigit ++ '.' :: rest.takeWhile isDigit, rest.dropWhile isDigit,
        ?_, ?_, ?_⟩
      · simp [takeDigits]
      · simp [hsplit]
      · exact List.forall_mem_append.2 ⟨hchars more, List.forall_mem_cons.2 ⟨rfl, hchars rest⟩⟩
    · refine ⟨more.takeWhile isDigit, c :: rest, ?_, hsplit.symm, hchars more⟩
      simp [hc]

/-- Before any text, the digits and the point of a mantissa are taken, and what continues them. -/
theorem takeMantissa?_extend {text : List Char} (h : text ∈ mantissa) (more : List Char) :
    ∃ extra rest, takeMantissa? (text ++ more) = some (text ++ extra, rest) ∧
      more = extra ++ rest ∧ ∀ c ∈ extra, isMantissaChar c = true := by
  have hmore : ∀ c ∈ more.takeWhile isDigit, isMantissaChar c = true :=
    isMantissaChar_of_isDigits fun _ hd => List.mem_takeWhile_imp hd
  have hsplit := List.takeWhile_append_dropWhile (p := isDigit) (l := more)
  rcases mem_mantissa.1 h with
    ⟨whole, hwhole, rfl | ⟨fraction, hfraction, rfl⟩⟩ | ⟨fraction, hfraction, rfl⟩
  · exact takeMantissa?_digits hwhole more
  · obtain ⟨hne, hdigits⟩ := mem_digits.1 hwhole
    obtain ⟨d, ds, rfl⟩ := List.exists_cons_of_ne_nil hne
    refine ⟨_, _, ?_, hsplit.symm, hmore⟩
    have hpoint : Apart isDigit ('.' :: (fraction ++ more)) := apart_cons (by decide)
    have htake := takeDigits_append hdigits hpoint
    simp only [List.append_assoc, List.cons_append] at htake ⊢
    simp [takeMantissa?, htake, takeDigits_extend hfraction]
  · obtain ⟨hne, hdigits⟩ := mem_digits.1 hfraction
    obtain ⟨d, ds, rfl⟩ := List.exists_cons_of_ne_nil hne
    refine ⟨_, _, ?_, hsplit.symm, hmore⟩
    have hpoint : takeDigits ('.' :: (d :: ds ++ more)) = ([], '.' :: (d :: ds ++ more)) := rfl
    rw [List.cons_append, takeMantissa?, hpoint]
    simp only [takeDigits_extend hdigits]
    simp

/-- Before any text, an exponent part is taken, and the digits that continue it. -/
theorem takeExponent_extend {text : List Char} (h : text ∈ exponent) (more : List Char) :
    ∃ extra rest, takeExponent (text ++ more) = (text ++ extra, rest) := by
  obtain ⟨mark, signs, ds, rfl, hmark, hsigns, hds⟩ := mem_exponent.1 h
  obtain ⟨hne, hdigits⟩ := mem_digits.1 hds
  have htake := takeDigits_extend hdigits more
  obtain ⟨d, ds, rfl⟩ := List.exists_cons_of_ne_nil hne
  rcases hsigns with rfl | ⟨c, hc, rfl⟩
  · have hd : d ≠ '+' ∧ d ≠ '-' := by
      have hdigit := hdigits d List.mem_cons_self
      constructor
      · rintro rfl
        exact absurd hdigit (by decide)
      · rintro rfl
        exact absurd hdigit (by decide)
    simp only [List.cons_append] at htake
    simp [takeExponent, hmark, hd, htake]
  · simp only [List.cons_append] at htake
    simp [takeExponent, hmark, hc, htake]

theorem not_isNameStart_of_isMantissaChar {c : Char} (h : isMantissaChar c = true) :
    ¬isNameStart c = true := by
  simp only [isMantissaChar, Bool.or_eq_true, decide_eq_true_eq] at h
  rcases h with h | rfl
  · exact Program.not_isNameStart_of_isDigit h
  · decide

/-! ## Readers of the longest text -/

/-- A reader that takes a text of a language off the front of a text, where there is one, and as
long a text as any. -/
structure Takes (l : Language Char) (take : List Char → Option (List Char × List Char)) : Prop where
  split : ∀ {cs lexeme rest}, take cs = some (lexeme, rest) → cs = lexeme ++ rest ∧ lexeme ∈ l
  extend : ∀ {text} (more : List Char), text ∈ l →
    ∃ extra rest, take (text ++ more) = some (text ++ extra, rest)

namespace Takes

variable {l : Language Char} {take : List Char → Option (List Char × List Char)}
  {cs text : List Char}

theorem length_le (h : Takes l take) {lexeme rest : List Char} (hcs : take cs = some (lexeme, rest))
    (htext : text ∈ l) (hstart : text <+: cs) : text.length ≤ lexeme.length := by
  obtain ⟨more, rfl⟩ := hstart
  obtain ⟨extra, rest', htake⟩ := h.extend more htext
  rw [hcs] at htake
  cases htake
  simp

theorem not_mem (h : Takes l take) (hcs : take cs = none) (hstart : text <+: cs) : text ∉ l := by
  intro htext
  obtain ⟨more, rfl⟩ := hstart
  obtain ⟨extra, rest, htake⟩ := h.extend more htext
  rw [hcs] at htake
  cases htake

/-- A text of the language is taken as a whole. -/
theorem whole (h : Takes l take) (htext : text ∈ l) : take text = some (text, []) := by
  obtain ⟨extra, rest, htake⟩ := h.extend [] htext
  rw [List.append_nil] at htake
  have hsplit := (h.split htake).1
  rw [List.append_assoc, List.self_eq_append_right, List.append_eq_nil_iff] at hsplit
  obtain ⟨rfl, rfl⟩ := hsplit
  rw [htake, List.append_nil]

end Takes

theorem takes_numeral : Takes numeral takeNumeral? where
  split {cs lexeme rest} h := by
    refine ⟨(append_of_takeNumeral? h).1.symm, ?_⟩
    simp only [takeNumeral?, Option.bind_eq_bind, Option.bind_eq_some_iff] at h
    obtain ⟨⟨text, between⟩, htext, h⟩ := h
    cases h
    exact Language.mem_mul.2 ⟨text, mem_mantissa_of_takeMantissa? htext, _,
      mem_one_add.2 (mem_exponent_of_takeExponent rfl), rfl⟩
  extend {text} more h := by
    obtain ⟨front, hfront, back, hback, rfl⟩ := Language.mem_mul.1 h
    obtain ⟨extra, rest, htake, hmore, hchars⟩ := takeMantissa?_extend hfront (back ++ more)
    rw [List.append_assoc, takeNumeral?, htake]
    rcases mem_one_add.1 hback with rfl | hback
    · exact ⟨extra ++ (takeExponent rest).1, (takeExponent rest).2, by simp⟩
    · -- The mark of the exponent is no part of a mantissa, so the mantissa ends before it.
      obtain ⟨mark, signs, ds, rfl, hmark, -, -⟩ := mem_exponent.1 hback
      have hextra : extra = [] := by
        cases extra with
        | nil => rfl
        | cons c extra =>
          have hc := hchars c List.mem_cons_self
          obtain ⟨rfl, -⟩ := List.cons.inj hmore
          rcases hmark with rfl | rfl <;> exact absurd hc (by decide)
      subst hextra
      rw [List.nil_append] at hmore
      obtain ⟨extra, rest', hexponent⟩ := takeExponent_extend hback more
      rw [← hmore]
      refine ⟨extra, rest', ?_⟩
      simp only [Option.bind_eq_bind, Option.bind_some, hexponent, List.append_nil,
        List.append_assoc]
      rfl

theorem takes_number : Takes ((1 + sign) * numeral) Program.Token.takeNumber? where
  split {cs lexeme rest} h := by
    refine ⟨(Program.Token.append_of_takeNumber? h).1.symm, ?_⟩
    unfold Program.Token.takeNumber? at h
    split at h
    · obtain ⟨⟨text, _⟩, htext, h⟩ := Option.map_eq_some_iff.1 h
      cases h
      have hnumeral := (takes_numeral.split htext).2
      exact Language.mem_mul.2 ⟨['+'], .inr ⟨'+', .inl rfl, rfl⟩, text, hnumeral, rfl⟩
    · obtain ⟨⟨text, _⟩, htext, h⟩ := Option.map_eq_some_iff.1 h
      cases h
      have hnumeral := (takes_numeral.split htext).2
      exact Language.mem_mul.2 ⟨['-'], .inr ⟨'-', .inr rfl, rfl⟩, text, hnumeral, rfl⟩
    · exact Language.mem_mul.2 ⟨[], .inl rfl, lexeme, (takes_numeral.split h).2, rfl⟩
  extend {text} more h := by
    obtain ⟨signs, hsigns, text, htext, rfl⟩ := Language.mem_mul.1 h
    obtain ⟨extra, rest, htake⟩ := takes_numeral.extend more htext
    rcases mem_one_add.1 hsigns with rfl | ⟨c, rfl | rfl, rfl⟩
    · obtain ⟨c, cs, rfl, hc⟩ := head_numeral htext
      exact ⟨extra, rest, (Program.takeNumber?_of_isMantissaChar hc (cs ++ more)).trans htake⟩
    · exact ⟨extra, rest, by simp [Program.Token.takeNumber?, htake]⟩
    · exact ⟨extra, rest, by simp [Program.Token.takeNumber?, htake]⟩

/-! ## String literals -/

namespace Pattern

/-- What stands between the quotation marks of a string literal: characters of a line, and each
backslash with the character after it. -/
def inside (mark : Char) : Language Char :=
  (oneOf (fun c => c ≠ mark ∧ c ≠ '\\' ∧ c ≠ '\n') + oneOf (· = '\\') * oneOf (· ≠ '\n'))∗

/-- A string literal in quotation marks. -/
def stringLiteral (mark : Char) : Language Char :=
  oneOf (· = mark) * (inside mark * oneOf (· = mark))

theorem mem_stringLiteral {mark : Char} {cs : List Char} :
    cs ∈ stringLiteral mark ↔ ∃ inner ∈ inside mark, cs = mark :: (inner ++ [mark]) := by
  simp only [stringLiteral, Language.mem_mul, mem_oneOf]
  constructor
  · rintro ⟨_, ⟨_, rfl, rfl⟩, _, ⟨inner, hinner, _, ⟨_, rfl, rfl⟩, rfl⟩, rfl⟩
    exact ⟨inner, hinner, rfl⟩
  · rintro ⟨inner, hinner, rfl⟩
    exact ⟨[mark], ⟨mark, rfl, rfl⟩, _, ⟨inner, hinner, [mark], ⟨mark, rfl, rfl⟩, rfl⟩, rfl⟩

theorem nil_mem_inside (mark : Char) : [] ∈ inside mark := Language.nil_mem_kstar _

theorem append_mem_inside {mark : Char} {unit cs : List Char}
    (hunit : unit ∈ oneOf (fun c => c ≠ mark ∧ c ≠ '\\' ∧ c ≠ '\n') +
      oneOf (· = '\\') * oneOf (· ≠ '\n')) (hcs : cs ∈ inside mark) : unit ++ cs ∈ inside mark := by
  obtain ⟨units, rfl, hunits⟩ := Language.mem_kstar.1 hcs
  exact Language.mem_kstar.2 ⟨unit :: units, rfl, List.forall_mem_cons.2 ⟨hunit, hunits⟩⟩

theorem mem_inside_of_forall {mark : Char} {cs : List Char}
    (h : ∀ c ∈ cs, c ≠ mark ∧ c ≠ '\\' ∧ c ≠ '\n') : cs ∈ inside mark := by
  induction cs with
  | nil => exact nil_mem_inside mark
  | cons c cs ih =>
    obtain ⟨hc, hcs⟩ := List.forall_mem_cons.1 h
    exact append_mem_inside (.inl ⟨c, hc, rfl⟩) (ih hcs)

end Pattern

theorem scanString_inside {mark : Char} (hmark : mark ≠ '\\') {inner : List Char}
    (h : inner ∈ inside mark) (more : List Char) :
    scanString mark (inner ++ mark :: more) = .closed (inner ++ [mark]) more := by
  obtain ⟨units, rfl, hunits⟩ := Language.mem_kstar.1 h
  induction units with
  | nil =>
    rw [List.flatten_nil, List.nil_append, scanString_cons hmark, if_pos rfl]
    rfl
  | cons unit units ih =>
    obtain ⟨hunit, hunits⟩ := List.forall_mem_cons.1 hunits
    have hrest := ih hunits (Language.mem_kstar.2 ⟨units, rfl, hunits⟩)
    rw [List.flatten_cons, List.append_assoc]
    rcases hunit with ⟨c, ⟨hc, hslash, hline⟩, rfl⟩ | hunit
    · rw [List.singleton_append, scanString_cons hslash, if_neg hc, if_neg hline, hrest]
      rfl
    · obtain ⟨_, _, rfl, rfl, c, hc, rfl⟩ := mem_oneOf_mul.1 hunit
      simp only [List.cons_append, List.nil_append, scanString, if_neg hc, hrest]
      rfl

theorem mem_inside_of_scanString {mark : Char} {cs body rest : List Char}
    (h : scanString mark cs = .closed body rest) :
    ∃ inner ∈ inside mark, body = inner ++ [mark] := by
  fun_induction scanString mark cs generalizing body rest with
  | case1 => cases h
  | case2 => cases h
  | case3 => cases h
  | case4 c cs hc ih =>
    obtain ⟨tail, htail, rfl⟩ := StringEnd.push_eq_closed h
    obtain ⟨inner, hinner, rfl⟩ := ih htail
    refine ⟨['\\', c] ++ inner, append_mem_inside (.inr ?_) hinner, rfl⟩
    exact mem_oneOf_mul.2 ⟨'\\', [c], rfl, rfl, c, hc, rfl⟩
  | case5 cs hsingle hescape =>
    cases h
    exact ⟨[], nil_mem_inside mark, rfl⟩
  | case6 => cases h
  | case7 c cs hsingle hescape hmark hbreak ih =>
    have hplain : c ≠ '\\' := fun h => by cases cs <;> grind
    obtain ⟨tail, htail, rfl⟩ := StringEnd.push_eq_closed h
    obtain ⟨inner, hinner, rfl⟩ := ih htail
    exact ⟨[c] ++ inner, append_mem_inside (.inl ⟨c, ⟨hmark, hplain, hbreak⟩, rfl⟩) hinner, rfl⟩

/-- Where a text starts with a string literal, the literal is what is scanned. -/
theorem scanString_of_stringLiteral {mark c : Char} (hmark : mark ≠ '\\') {text cs : List Char}
    (h : text ∈ stringLiteral mark) (htext : text <+: c :: cs) :
    c = mark ∧ ∃ body rest, scanString mark cs = .closed body rest ∧ text = mark :: body := by
  obtain ⟨inner, hinner, rfl⟩ := mem_stringLiteral.1 h
  obtain ⟨more, hmore⟩ := htext
  rw [List.cons_append, List.append_assoc] at hmore
  obtain ⟨rfl, rfl⟩ := List.cons.inj hmore
  refine ⟨rfl, inner ++ [mark], more, ?_, rfl⟩
  exact scanString_inside hmark hinner more

/-- A text starts with one string literal at most. -/
theorem stringLiteral_unique {mark : Char} (hmark : mark ≠ '\\') {text other cs : List Char}
    (h : text ∈ stringLiteral mark) (h' : other ∈ stringLiteral mark) (htext : text <+: cs)
    (hother : other <+: cs) : text = other := by
  cases cs with
  | nil =>
    rw [List.prefix_nil.1 htext, List.prefix_nil.1 hother]
  | cons c cs =>
    obtain ⟨-, body, rest, hbody, rfl⟩ := scanString_of_stringLiteral hmark h htext
    obtain ⟨-, body', rest', hbody', rfl⟩ := scanString_of_stringLiteral hmark h' hother
    cases hbody.symm.trans hbody'
    rfl

theorem stringLiteral_of_scanString {mark : Char} {cs body rest : List Char}
    (h : scanString mark cs = .closed body rest) : mark :: body ∈ stringLiteral mark := by
  obtain ⟨inner, hinner, rfl⟩ := mem_inside_of_scanString h
  exact mem_stringLiteral.2 ⟨inner, hinner, rfl⟩

/-! ## Comments -/

namespace Pattern

/-- A comment, from its opening mark to the first closing mark after it. -/
def comment : Language Char :=
  {cs | ∃ body, ¬['*', '/'] <:+: body ∧ cs = '/' :: '*' :: (body ++ ['*', '/'])}

end Pattern

open Program.Token in
theorem takeComment?_append {body : List Char} (h : ¬['*', '/'] <:+: body) (more : List Char) :
    takeComment? (body ++ '*' :: '/' :: more) = some (body ++ ['*', '/'], more) := by
  induction body with
  | nil => rfl
  | cons c body ih =>
    rw [List.infix_cons_iff, not_or] at h
    have hclose : ∀ cs, c = '*' → body ++ '*' :: '/' :: more = '/' :: cs → False := by
      rintro cs rfl hbody
      refine h.1 ?_
      cases body with
      | nil => cases hbody
      | cons d body =>
        obtain ⟨rfl, -⟩ := List.cons.inj hbody
        exact ⟨body, rfl⟩
    rw [List.cons_append, takeComment?, ih h.2]
    · rfl
    · exact hclose

open Program.Token in
theorem exists_of_takeComment? {cs taken rest : List Char}
    (h : takeComment? cs = some (taken, rest)) :
    ∃ body, ¬['*', '/'] <:+: body ∧ taken = body ++ ['*', '/'] := by
  fun_induction takeComment? cs generalizing taken with
  | case1 => cases h
  | case2 =>
    cases h
    exact ⟨[], by simp, rfl⟩
  | case3 c cs hclose ih =>
    obtain ⟨⟨inner, _⟩, hinner, h⟩ := Option.map_eq_some_iff.1 h
    cases h
    obtain ⟨body, hbody, rfl⟩ := ih hinner
    refine ⟨c :: body, ?_, rfl⟩
    rw [List.infix_cons_iff, not_or]
    refine ⟨?_, hbody⟩
    rintro ⟨more, hmore⟩
    obtain ⟨rfl, rfl⟩ := List.cons.inj hmore
    exact hclose _ rfl (append_of_takeComment? hinner).symm

/-- Where a text starts with a comment, the comment is what is taken. -/
theorem takeComment?_of_comment {text cs : List Char} (h : text ∈ comment) (htext : text <+: cs) :
    ∃ ds taken rest, cs = '/' :: '*' :: ds ∧
      Program.Token.takeComment? ds = some (taken, rest) ∧ text = '/' :: '*' :: taken := by
  obtain ⟨body, hbody, rfl⟩ := h
  obtain ⟨more, rfl⟩ := htext
  refine ⟨body ++ '*' :: '/' :: more, body ++ ['*', '/'], more, by simp, ?_, rfl⟩
  exact takeComment?_append hbody more

/-! ## Pieces that consist of patterns -/

theorem prefix_of_scanString_eq_broken {mark : Char} {cs body : List Char}
    (h : scanString mark cs = .broken body) : body <+: cs := by
  fun_induction scanString mark cs generalizing body with
  | case1 | case2 | case3 | case6 =>
    cases h
    exact List.nil_prefix
  | case4 c cs hc ih =>
    cases hcase : scanString mark cs with
    | closed => simp [hcase, StringEnd.push] at h
    | broken inner =>
      rw [hcase] at h
      cases h
      exact List.prefix_append_right_inj ['\\', c] |>.2 (ih hcase)
  | case5 => cases h
  | case7 c cs hsingle hescape hmark hbreak ih =>
    cases hcase : scanString mark cs with
    | closed => simp [hcase, StringEnd.push] at h
    | broken inner =>
      rw [hcase] at h
      cases h
      exact List.prefix_append_right_inj [c] |>.2 (ih hcase)

namespace Lexicon

variable {τ : Type} {L : Lexicon τ} {c : Char} {cs : List Char}

theorem fits_blanks (hblank : ∀ c, isGap c = true → L.Separates [c]) (hc : isGap c = true) :
    L.Fits (c :: cs) (.gap (c :: cs.takeWhile isGap) (cs.dropWhile isGap)) := by
  refine ⟨congrArg _ List.takeWhile_append_dropWhile.symm, by simp,
    (c :: cs.takeWhile isGap).map ([·]), by rw [← List.flatMap_def, List.flatMap_singleton'],
    fun part hpart => ?_⟩
  obtain ⟨d, hd, rfl⟩ := List.mem_map.1 hpart
  rcases List.mem_cons.1 hd with rfl | hd
  · exact hblank d hc
  · exact hblank d (List.mem_takeWhile_imp hd)

/-- The piece at a quotation mark fits if no token but string literals starts with the mark. -/
theorem fits_ofString {make : List Char → τ} (hc : c ≠ '\\')
    (hmake : ∀ text ∈ stringLiteral c, L.Spells (make text) text)
    (honly : ∀ token text, text <+: c :: cs → L.Spells token text → text ∈ stringLiteral c)
    (hgap : ∀ text, text <+: c :: cs → ¬L.Separates text) :
    L.Fits (c :: cs) (.ofString make c cs) := by
  unfold Piece.ofString
  split
  · next body rest hclosed =>
    have hbody := scanString_eq_closed hclosed
    refine ⟨congrArg _ hbody.1.symm, hmake _ (stringLiteral_of_scanString hclosed), ?_⟩
    intro other text htext hspells
    rw [List.cons_append, hbody.1] at htext
    obtain ⟨-, body', rest', hclosed', rfl⟩ :=
      scanString_of_stringLiteral hc (honly other text htext hspells) htext
    cases hclosed.symm.trans hclosed'
    exact Nat.le_refl _
  · next body hbroken =>
    obtain ⟨rest, hrest⟩ := prefix_of_scanString_eq_broken hbroken
    refine ⟨rest, by rw [List.cons_append, hrest], by simp, fun text htext => ?_⟩
    refine ⟨hgap text htext, fun token hspells => ?_⟩
    obtain ⟨-, body', rest', hclosed, -⟩ :=
      scanString_of_stringLiteral hc (honly token text htext hspells) htext
    rw [hbroken] at hclosed
    cases hclosed

theorem fits_stray (h : L.Stuck (c :: cs)) : L.Fits (c :: cs) (.stray c) :=
  ⟨cs, rfl, by simp, h⟩

end Lexicon

end CallScript
