import CallScript.Json.Reader
import CallScript.Proofs.Text.Patterns

/-!
# Literals of JSON

The texts of number and string literals, as languages, and what the reader takes of them: a number
literal before a text that cannot continue it (`takeLiteral?_append`), the inside of a string
literal before its quotation mark (`takeString?_append`).  What is written for a text is a string
literal that stands for the text (`flatMap_stringChar_mem`, `decode?_flatMap_stringChar`).
-/

namespace CallScript

open scoped Computability

namespace Pattern

/-! ## Languages -/

/-- The digits before the point: a lone zero, or digits that do not start with one. -/
def jsonWhole : Language Char :=
  oneOf (· = '0') + oneOf (fun c => isDigit c ∧ c ≠ '0') * (oneOf (isDigit ·))∗

/-- A number: an optional minus sign, digits, and optionally a point with digits and an exponent. -/
def jsonNumber : Language Char :=
  (1 + oneOf (· = '-')) * (jsonWhole * ((1 + oneOf (· = '.') * digits) * (1 + exponent)))

/-- A hexadecimal digit. -/
def hexDigit : Language Char :=
  oneOf fun c => (hexValue? c).isSome

/-- What follows a backslash: a character that is an escape by itself, or the code of a character in
four hexadecimal digits. -/
def jsonEscape : Language Char :=
  oneOf (Json.isShortEscape ·) +
    oneOf (· = 'u') * (hexDigit * (hexDigit * (hexDigit * hexDigit)))

/-- A character that stands for itself, or an escape. -/
def jsonUnit : Language Char :=
  oneOf (fun c => 0x20 ≤ c.toNat ∧ c ≠ '\x22' ∧ c ≠ '\\') + oneOf (· = '\\') * jsonEscape

/-- What stands between the quotation marks of a string. -/
def jsonString : Language Char :=
  jsonUnit∗

theorem mem_jsonWhole {cs : List Char} : cs ∈ jsonWhole ↔
    cs = ['0'] ∨ ∃ c ds, cs = c :: ds ∧ c ≠ '0' ∧ IsDigits cs := by
  simp only [jsonWhole, Language.mem_add, mem_oneOf, mem_oneOf_mul, mem_oneOf_kstar]
  constructor
  · rintro (⟨_, rfl, rfl⟩ | ⟨c, ds, rfl, ⟨hc, hne⟩, hds⟩)
    · exact .inl rfl
    · exact .inr ⟨c, ds, rfl, hne, List.forall_mem_cons.2 ⟨hc, hds⟩⟩
  · rintro (rfl | ⟨c, ds, rfl, hne, hdigits⟩)
    · exact .inl ⟨'0', rfl, rfl⟩
    · obtain ⟨hc, hds⟩ := List.forall_mem_cons.1 hdigits
      exact .inr ⟨c, ds, rfl, ⟨hc, hne⟩, hds⟩

theorem append_mem_jsonString {unit cs : List Char} (hunit : unit ∈ jsonUnit)
    (hcs : cs ∈ jsonString) : unit ++ cs ∈ jsonString := by
  obtain ⟨units, rfl, hunits⟩ := Language.mem_kstar.1 hcs
  exact Language.mem_kstar.2 ⟨unit :: units, rfl, List.forall_mem_cons.2 ⟨hunit, hunits⟩⟩

end Pattern

open Pattern

namespace Json

/-! ## Number literals -/

theorem someDigits?_append {ds rest : List Char} (h : ds ∈ digits) (hrest : Apart isDigit rest) :
    someDigits? (ds ++ rest) = some (ds, rest) := by
  obtain ⟨hne, hds⟩ := mem_digits.1 h
  obtain ⟨d, ds, rfl⟩ := List.exists_cons_of_ne_nil hne
  rw [someDigits?, takeDigits_append hds hrest]

theorem wholeDigits?_append {whole rest : List Char} (h : whole ∈ jsonWhole)
    (hrest : Apart isDigit rest) : wholeDigits? (whole ++ rest) = some (whole, rest) := by
  rcases mem_jsonWhole.1 h with rfl | ⟨c, ds, rfl, hc, hdigits⟩
  · rw [wholeDigits?, takeDigits_append (by simp [IsDigits, isDigit]) hrest]
    rfl
  · rw [wholeDigits?, takeDigits_append hdigits hrest]
    split
    · next heq => simp_all
    · next heq => simp_all
    · next heq => simp_all
    · rfl

theorem apart_isDigit_of_isMantissaChar {rest : List Char} (h : Apart isMantissaChar rest) :
    Apart isDigit rest :=
  h.imp (by simp +contextual [isMantissaChar])

theorem fractionPart?_append {fraction rest : List Char}
    (h : fraction ∈ 1 + oneOf (· = '.') * digits) (hrest : Apart isMantissaChar rest) :
    fractionPart? (fraction ++ rest) = some (fraction, rest) := by
  rcases mem_one_add.1 h with rfl | h
  · rw [List.nil_append]
    unfold fractionPart?
    split
    · exact absurd (hrest '.' rfl) (by decide)
    · rfl
  · obtain ⟨_, ds, rfl, rfl, hds⟩ := mem_oneOf_mul.1 h
    rw [List.cons_append, fractionPart?,
      someDigits?_append hds (apart_isDigit_of_isMantissaChar hrest)]
    rfl

theorem exponentPart?_append {part rest : List Char} (h : part ∈ 1 + exponent)
    (hrest : Apart isNumeralChar rest) : exponentPart? (part ++ rest) = some (part, rest) := by
  have hdigit : Apart isDigit rest :=
    hrest.imp (by simp +contextual [isNumeralChar, isMantissaChar])
  rcases mem_one_add.1 h with rfl | h
  · rw [List.nil_append]
    cases rest with
    | nil => rfl
    | cons c rest =>
      have hc := hrest c rfl
      simp only [isNumeralChar, Bool.or_eq_false_iff, decide_eq_false_iff_not] at hc
      simp [exponentPart?, hc.1.2, hc.2]
  · obtain ⟨mark, signs, ds, rfl, hmark, hsigns, hds⟩ := mem_exponent.1 h
    have htake := someDigits?_append hds hdigit
    rcases hsigns with rfl | ⟨c, rfl | rfl, rfl⟩
    · obtain ⟨hne, hdigits⟩ := mem_digits.1 hds
      obtain ⟨d, ds, rfl⟩ := List.exists_cons_of_ne_nil hne
      have hd := hdigits d List.mem_cons_self
      have hplus : d ≠ '+' := by
        rintro rfl
        exact absurd hd (by decide)
      have hminus : d ≠ '-' := by
        rintro rfl
        exact absurd hd (by decide)
      simp only [List.nil_append, List.cons_append] at htake ⊢
      simp [exponentPart?, hmark, hplus, hminus, htake]
    · simp [exponentPart?, hmark, htake]
    · simp [exponentPart?, hmark, htake]

theorem apart_exponent {part rest : List Char} (h : part ∈ 1 + exponent)
    (hrest : Apart isNumeralChar rest) : Apart isMantissaChar (part ++ rest) := by
  rcases mem_one_add.1 h with rfl | h
  · exact hrest.imp (by simp +contextual [isNumeralChar])
  · obtain ⟨mark, signs, ds, rfl, rfl | rfl, -, -⟩ := mem_exponent.1 h
    · exact apart_cons (by decide)
    · exact apart_cons (by decide)

theorem apart_fraction {fraction rest : List Char} (h : fraction ∈ 1 + oneOf (· = '.') * digits)
    (hrest : Apart isMantissaChar rest) : Apart isDigit (fraction ++ rest) := by
  rcases mem_one_add.1 h with rfl | h
  · exact apart_isDigit_of_isMantissaChar hrest
  · obtain ⟨_, ds, rfl, rfl, -⟩ := mem_oneOf_mul.1 h
    exact apart_cons (by decide)

theorem head_jsonWhole {whole : List Char} (h : whole ∈ jsonWhole) :
    ∃ c cs, whole = c :: cs ∧ isDigit c = true := by
  rcases mem_jsonWhole.1 h with rfl | ⟨c, ds, rfl, -, hdigits⟩
  · exact ⟨'0', [], rfl, rfl⟩
  · exact ⟨c, ds, rfl, hdigits c List.mem_cons_self⟩

/-- A number literal is taken off the front of a text that cannot continue it. -/
theorem takeLiteral?_append {text rest : List Char} (h : text ∈ jsonNumber)
    (hrest : Apart isNumeralChar rest) : takeLiteral? (text ++ rest) = some (text, rest) := by
  obtain ⟨sign, hsign, _, hbody, rfl⟩ := Language.mem_mul.1 h
  obtain ⟨whole, hwhole, _, hmore, rfl⟩ := Language.mem_mul.1 hbody
  obtain ⟨fraction, hfraction, part, hpart, rfl⟩ := Language.mem_mul.1 hmore
  have hafter := apart_exponent hpart hrest
  have hwhole' := wholeDigits?_append hwhole (apart_fraction hfraction hafter)
  have hfraction' := fractionPart?_append hfraction hafter
  have hpart' := exponentPart?_append hpart hrest
  rcases mem_one_add.1 hsign with rfl | ⟨_, rfl, rfl⟩
  · obtain ⟨c, cs, rfl, hc⟩ := head_jsonWhole hwhole
    have hminus : c ≠ '-' := by
      rintro rfl
      exact absurd hc (by decide)
    simp only [List.cons_append, List.append_assoc, List.nil_append] at hwhole' ⊢
    simp [takeLiteral?, hminus, hwhole', hfraction', hpart']
  · simp [takeLiteral?, hwhole', hfraction', hpart']

theorem head_jsonNumber {text : List Char} (h : text ∈ jsonNumber) :
    ∃ c cs, text = c :: cs ∧ (isDigit c || c = '-') = true := by
  obtain ⟨sign, hsign, _, hbody, rfl⟩ := Language.mem_mul.1 h
  obtain ⟨whole, hwhole, more, -, rfl⟩ := Language.mem_mul.1 hbody
  obtain ⟨c, cs, rfl, hc⟩ := head_jsonWhole hwhole
  rcases mem_one_add.1 hsign with rfl | ⟨_, rfl, rfl⟩
  · exact ⟨c, cs ++ more, rfl, by simp [hc]⟩
  · exact ⟨'-', _, rfl, rfl⟩

/-! ## String literals -/

theorem unitValue?_isSome {a b c d : Char} (ha : (hexValue? a).isSome) (hb : (hexValue? b).isSome)
    (hc : (hexValue? c).isSome) (hd : (hexValue? d).isSome) : (unitValue? a b c d).isSome := by
  obtain ⟨a', ha⟩ := Option.isSome_iff_exists.1 ha
  obtain ⟨b', hb⟩ := Option.isSome_iff_exists.1 hb
  obtain ⟨c', hc⟩ := Option.isSome_iff_exists.1 hc
  obtain ⟨d', hd⟩ := Option.isSome_iff_exists.1 hd
  simp [unitValue?, ha, hb, hc, hd]

/-- The inside of a string literal goes up to the quotation mark after it. -/
theorem takeString?_append {literal : List Char} (h : literal ∈ jsonString) (rest : List Char) :
    takeString? (literal ++ '\x22' :: rest) = some (literal, rest) := by
  obtain ⟨units, rfl, hunits⟩ := Language.mem_kstar.1 h
  clear h
  induction units with
  | nil => rfl
  | cons unit units ih =>
    obtain ⟨hunit, hunits⟩ := List.forall_mem_cons.1 hunits
    have hrest := ih hunits
    rw [List.flatten_cons, List.append_assoc]
    rcases hunit with ⟨c, ⟨hcontrol, hquote, hslash⟩, rfl⟩ | hescape
    · rw [List.singleton_append, takeString?]
      · simp [hslash, Nat.not_lt.2 hcontrol, hrest]
      · exact hquote
      · exact fun _ _ _ _ _ heq => absurd heq hslash
      · exact fun _ _ heq => absurd heq hslash
    · obtain ⟨_, body, rfl, rfl, hbody⟩ := mem_oneOf_mul.1 hescape
      rcases hbody with ⟨c, hc, rfl⟩ | hcode
      · rw [List.cons_append, List.singleton_append, takeString?]
        · simp [hc, hrest]
        · rintro _ _ _ _ _ rfl
          exact absurd hc (by decide)
      · obtain ⟨_, _, rfl, rfl, habcd⟩ := mem_oneOf_mul.1 hcode
        obtain ⟨a, _, rfl, ha, hbcd⟩ := mem_oneOf_mul.1 habcd
        obtain ⟨b, _, rfl, hb, hcd⟩ := mem_oneOf_mul.1 hbcd
        obtain ⟨c, _, rfl, hc, d, hd, rfl⟩ := mem_oneOf_mul.1 hcd
        simp [takeString?, unitValue?_isSome ha hb hc hd, hrest]

/-! ## Written strings -/

theorem controlDigits_eq : ∀ n < 0x20,
    controlDigits n = ['0', '0', Nat.digitChar (n / 16), Nat.digitChar (n % 16)] ∧
      unitValue? '0' '0' (Nat.digitChar (n / 16)) (Nat.digitChar (n % 16)) = some n := by
  decide

/-- A character of a text is written as a short escape, as the escape of its code, or as itself. -/
theorem stringChar_cases (c : Char) :
    (∃ d, stringChar c = ['\\', d] ∧ isShortEscape d ∧ shortEscape d = c) ∨
    (∃ a b, stringChar c = ['\\', 'u', '0', '0', a, b] ∧ c.toNat < 0x20 ∧
      unitValue? '0' '0' a b = some c.toNat) ∨
    (stringChar c = [c] ∧ 0x20 ≤ c.toNat ∧ c ≠ '\x22' ∧ c ≠ '\\') := by
  unfold stringChar
  split
  case h_8 hquote hslash _ _ _ _ _ =>
    split
    · next hcontrol =>
      obtain ⟨hdigits, hvalue⟩ := controlDigits_eq _ hcontrol
      exact .inr (.inl ⟨_, _, congrArg _ hdigits, hcontrol, hvalue⟩)
    · next hcontrol => exact .inr (.inr ⟨rfl, Nat.le_of_not_lt hcontrol, hquote, hslash⟩)
  all_goals exact .inl ⟨_, rfl, rfl, rfl⟩

theorem isSome_of_unitValue? {a b c d : Char} {n : Nat} (h : unitValue? a b c d = some n) :
    (hexValue? a).isSome ∧ (hexValue? b).isSome ∧ (hexValue? c).isSome ∧ (hexValue? d).isSome := by
  simp only [unitValue?, Option.bind_eq_bind, Option.bind_eq_some_iff] at h
  obtain ⟨_, ha, _, hb, _, hc, _, hd, -⟩ := h
  simp [ha, hb, hc, hd]

theorem stringChar_mem (c : Char) : stringChar c ∈ jsonUnit := by
  rcases stringChar_cases c with ⟨d, h, hshort, -⟩ | ⟨a, b, h, -, hvalue⟩ | ⟨h, hplain⟩
  · rw [h]
    exact .inr (mem_oneOf_mul.2 ⟨_, _, rfl, rfl, .inl ⟨d, hshort, rfl⟩⟩)
  · obtain ⟨hzero, -, ha, hb⟩ := isSome_of_unitValue? hvalue
    rw [h]
    refine .inr (mem_oneOf_mul.2 ⟨_, _, rfl, rfl, .inr (mem_oneOf_mul.2 ⟨_, _, rfl, rfl, ?_⟩)⟩)
    refine mem_oneOf_mul.2 ⟨_, _, rfl, hzero, mem_oneOf_mul.2 ⟨_, _, rfl, hzero, ?_⟩⟩
    exact mem_oneOf_mul.2 ⟨_, _, rfl, ha, b, hb, rfl⟩
  · rw [h]
    exact .inl ⟨c, hplain, rfl⟩

theorem flatMap_stringChar_mem (cs : List Char) : cs.flatMap stringChar ∈ jsonString := by
  induction cs with
  | nil => exact Language.nil_mem_kstar _
  | cons c cs ih => exact append_mem_jsonString (stringChar_mem c) ih

/-- What is written for a character is read as the character, whatever follows. -/
theorem decodeFrom?_stringChar (c : Char) (cs : List Char) :
    decodeFrom? none (stringChar c ++ cs) = (decodeFrom? none cs).map (c :: ·) := by
  rcases stringChar_cases c with ⟨d, h, hshort, rfl⟩ | ⟨a, b, h, hcontrol, hvalue⟩ |
    ⟨h, -, -, hslash⟩
  · rw [h, List.cons_append, List.singleton_append, decodeFrom?]
    rintro _ _ _ _ _ rfl
    exact absurd hshort (by decide)
  · have hhigh : isHighUnit c.toNat = false := by
      simp [isHighUnit]
      omega
    have hlow : isLowUnit c.toNat = false := by
      simp [isLowUnit]
      omega
    rw [h]
    simp [decodeFrom?, hvalue, hhigh, hlow]
  · rw [h, List.singleton_append, decodeFrom?]
    · exact fun _ _ _ _ _ heq => absurd heq hslash
    · exact fun _ _ heq => absurd heq hslash

/-- The string that is written for a text stands for the text. -/
theorem decode?_flatMap_stringChar (text : String) :
    decode? (String.ofList (text.toList.flatMap stringChar)) = some text := by
  have h : ∀ cs : List Char, decodeFrom? none (cs.flatMap stringChar) = some cs := by
    intro cs
    induction cs with
    | nil => rfl
    | cons c cs ih => rw [List.flatMap_cons, decodeFrom?_stringChar, ih, Option.map_some]
  rw [decode?, String.toList_ofList, h, Option.map_some, String.ofList_toList]

end Json

end CallScript
