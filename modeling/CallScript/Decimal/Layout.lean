import CallScript.Decimal.Binary
import CallScript.Decimal.Shortest

/-!
# Number text

A `Layout` holds the decisions a format makes about how a double is written: for which exponents the
digits stand around a plain decimal point, whether whole numbers keep a zero after the point, how
wide an exponent is, which way ties go.  The formats of the library are `numberText` (values and
programs), `plainText` (tokens in diagnostics), `jsonText` and `tomlText`.
-/

namespace CallScript

/-- How a format writes finite doubles. -/
structure Layout where
  /-- The least exponent of the leading digit written without an exponent part. -/
  plainFrom : Int
  /-- The first exponent of the leading digit written with an exponent part again. -/
  plainBelow : Int
  /-- Whether whole numbers written plainly end in a point and a zero. -/
  pointZero : Bool
  /-- The least number of digits in an exponent part. -/
  exponentWidth : Nat
  /-- Which of two equally near shortest decimals is written. -/
  tie : Tie
deriving Repr, DecidableEq

namespace Layout

/-- Zeros. -/
def zeros (n : Nat) : List Char :=
  List.replicate n '0'

/-- Digits around a decimal point, the leading digit having the given exponent. -/
def plain (layout : Layout) (digits : List Char) (lead : Int) : List Char :=
  if lead < 0 then
    ['0', '.'] ++ zeros (-lead - 1).toNat ++ digits
  else
    let count := lead.toNat + 1
    if digits.length ≤ count then
      digits ++ zeros (count - digits.length) ++ (if layout.pointZero then ['.', '0'] else [])
    else
      digits.take count ++ '.' :: digits.drop count

/-- One digit, the other digits after a point, and the exponent with its sign. -/
def scientific (layout : Layout) (digits : List Char) (lead : Int) : List Char :=
  let mantissa := match digits with
    | [] => []
    | [d] => [d]
    | d :: ds => d :: '.' :: ds
  let exponent := Decimal.digitChars lead.natAbs
  mantissa ++ ['e', if lead < 0 then '-' else '+']
    ++ zeros (layout.exponentWidth - exponent.length) ++ exponent

/-- A finite double, given by its sign, mantissa and exponent. -/
def finite (layout : Layout) (negative : Bool) (mantissa : Nat) (exponent : Int) : String :=
  let sign := if negative then ['-'] else []
  let body :=
    if mantissa = 0 then layout.plain ['0'] 0
    else
      let decimal := Decimal.shortest layout.tie mantissa exponent
      let digits := Decimal.digitChars decimal.digits
      let lead := decimal.scale + digits.length - 1
      if layout.plainFrom ≤ lead && lead < layout.plainBelow then layout.plain digits lead
      else layout.scientific digits lead
  String.ofList (sign ++ body)

/-- Values and programs: `5.0`, `0.0001`, `1e+16`, `1.5e-05`. -/
def number : Layout where
  plainFrom := -4
  plainBelow := 16
  pointZero := true
  exponentWidth := 2
  tie := .up

/-- Tokens in diagnostics: no exponent part and no zero after the point. -/
def token : Layout where
  plainFrom := -400
  plainBelow := 400
  pointZero := false
  exponentWidth := 1
  tie := .up

/-- JSON: `100.0`, `0.00001`, `1e-6`, `1e+16`. -/
def json : Layout where
  plainFrom := -5
  plainBelow := 16
  pointZero := true
  exponentWidth := 1
  tie := .even

/-- TOML: no exponent part, whole numbers keep a zero after the point. -/
def toml : Layout where
  plainFrom := -400
  plainBelow := 400
  pointZero := true
  exponentWidth := 1
  tie := .up

end Layout

/-- The text of an infinity. -/
def infinityText (negative : Bool) : String :=
  if negative then "-inf" else "inf"

/-- The text of a number in values and programs. -/
def numberText (x : Float) : String :=
  match Binary.ofFloat x with
  | .nan => "nan"
  | .infinite negative => infinityText negative
  | .finite negative mantissa exponent => Layout.number.finite negative mantissa exponent

/-- The text of a number token in a diagnostic. -/
def plainText (x : Float) : String :=
  match Binary.ofFloat x with
  | .nan => "NaN"
  | .infinite negative => infinityText negative
  | .finite negative mantissa exponent => Layout.token.finite negative mantissa exponent

/-- The text of a number in JSON, which has no word for what is not finite. -/
def jsonText (x : Float) : String :=
  match Binary.ofFloat x with
  | .finite negative mantissa exponent => Layout.json.finite negative mantissa exponent
  | _ => "null"

/-- The text of a number in TOML. -/
def tomlText (x : Float) : String :=
  match Binary.ofFloat x with
  | .nan => "nan"
  | .infinite negative => infinityText negative
  | .finite negative mantissa exponent => Layout.toml.finite negative mantissa exponent

end CallScript
