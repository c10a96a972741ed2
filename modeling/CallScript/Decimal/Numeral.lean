import CallScript.Decimal.Shortest

/-!
# Reading decimals

An unsigned numeral is digits with an optional point, digits on at least one side of it, and an
optional exponent.  `takeNumeral` splits the longest numeral off the front of a text; `numeralValue`
is the double nearest to a numeral.  `readNumber` reads a whole text as a number, with a sign and
with the words for what is not finite.
-/

namespace CallScript

/-- A decimal digit. -/
def isDigit (c : Char) : Bool :=
  '0' ≤ c && c ≤ '9'

/-- The digits at the front of a text, and the rest. -/
def takeDigits (cs : List Char) : List Char × List Char :=
  (cs.takeWhile isDigit, cs.dropWhile isDigit)

/-- The exponent part at the front of a text, empty unless it has at least one digit. -/
def takeExponent : List Char → List Char × List Char
  | mark :: sign :: cs =>
    if mark = 'e' || mark = 'E' then
      if sign = '+' || sign = '-' then
        match takeDigits cs with
        | ([], _) => ([], mark :: sign :: cs)
        | (digits, rest) => (mark :: sign :: digits, rest)
      else
        match takeDigits (sign :: cs) with
        | ([], _) => ([], mark :: sign :: cs)
        | (digits, rest) => (mark :: digits, rest)
    else ([], mark :: sign :: cs)
  | cs => ([], cs)

/-- The digits and the point at the front of a text; `none` if there is no digit on either side. -/
def takeMantissa? (cs : List Char) : Option (List Char × List Char) :=
  match takeDigits cs with
  | ([], '.' :: rest) =>
    match takeDigits rest with
    | ([], _) => none
    | (fraction, rest) => some ('.' :: fraction, rest)
  | ([], _) => none
  | (whole, '.' :: rest) =>
    let (fraction, rest) := takeDigits rest
    some (whole ++ '.' :: fraction, rest)
  | (whole, rest) => some (whole, rest)

/-- The longest unsigned numeral at the front of a text, and the rest. -/
def takeNumeral? (cs : List Char) : Option (List Char × List Char) := do
  let (mantissa, rest) ← takeMantissa? cs
  let (exponent, rest) := takeExponent rest
  return (mantissa ++ exponent, rest)

/-- The number that a list of decimal digits spells. -/
def digitsValue (cs : List Char) : Nat :=
  cs.foldl (fun n c => 10 * n + (c.toNat - '0'.toNat)) 0

/-- The number that an exponent part spells, zero if it is empty. -/
def exponentValue : List Char → Int
  | _ :: '-' :: digits => -(digitsValue digits : Int)
  | _ :: '+' :: digits => digitsValue digits
  | _ :: digits => digitsValue digits
  | [] => 0

/-- The exact value of an unsigned numeral. -/
def numeralDecimal (cs : List Char) : Decimal :=
  let (whole, rest) := takeDigits cs
  let (fraction, rest) := match rest with
    | '.' :: rest => takeDigits rest
    | rest => ([], rest)
  ⟨digitsValue (whole ++ fraction), exponentValue rest - fraction.length⟩

namespace Decimal

/-- The double nearest to a decimal.  Far outside the range of doubles the answer is known without
computing the power of ten. -/
def toFloat (d : Decimal) : Float :=
  let lead := d.scale + digitCount d.digits - 1
  if d.digits = 0 || lead < -400 then 0.0
  else if 400 < lead then 1.0 / 0.0
  else .ofModel (.ofScientific d.digits d.scale)

end Decimal

/-- The double nearest to an unsigned numeral. -/
def numeralValue (cs : List Char) : Float :=
  (numeralDecimal cs).toFloat

/-- The sign at the front of a text, and the rest. -/
def takeSign : List Char → Bool × List Char
  | '-' :: cs => (true, cs)
  | '+' :: cs => (false, cs)
  | cs => (false, cs)

/-- A number with a sign bit. -/
def withSign (negative : Bool) (x : Float) : Float :=
  if negative then -x else x

/-- Reads a whole text as a number: a numeral or a word for what is not finite, after an optional
sign. -/
def readNumber (cs : List Char) : Option Float :=
  let (negative, rest) := takeSign cs
  let word := String.ofList (rest.map Char.toLower)
  if word = "inf" || word = "infinity" then some (withSign negative (1.0 / 0.0))
  else if word = "nan" then some (0.0 / 0.0)
  else match takeNumeral? rest with
    | some (numeral, []) => some (withSign negative (numeralValue numeral))
    | _ => none

end CallScript
