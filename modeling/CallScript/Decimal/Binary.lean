/-!
# Floating-point numbers as exact values

A finite double is an integer times a power of two.  `Binary.ofFloat` reads sign, integer and
exponent off the 64 bits; everything else in the library that needs the exact value of a double
starts there: whether it is a whole number (`wholeNumber?`), and which integer remains when the
fraction is cut off (`truncated`).
-/

namespace CallScript

/-- What the bits of a double say. -/
inductive Binary where
  /-- Not a number. -/
  | nan
  /-- An infinity. -/
  | infinite (negative : Bool)
  /-- The value `mantissa * 2 ^ exponent`, negated if the sign bit is set. -/
  | finite (negative : Bool) (mantissa : Nat) (exponent : Int)
deriving Repr, DecidableEq

namespace Binary

/-- Decodes the bit pattern of a double: sign, eleven bits of exponent, 52 bits of fraction. -/
def ofBits (bits : Nat) : Binary :=
  let negative := bits >>> 63 % 2 == 1
  let exponent : Nat := bits >>> 52 % 2048
  let fraction : Nat := bits % 1 <<< 52
  if exponent = 2047 then
    if fraction = 0 then .infinite negative else .nan
  else if exponent = 0 then .finite negative fraction (-1074)
  else .finite negative (1 <<< 52 + fraction) ((exponent : Int) - 1075)

/-- The exact value of a double. -/
def ofFloat (x : Float) : Binary :=
  ofBits x.toBits.toNat

end Binary

/-- An integer with a sign in front of it. -/
def signed (negative : Bool) (n : Nat) : Int :=
  if negative then -(n : Int) else n

/-- The integer a double is equal to, if it is one. -/
def wholeNumber? (x : Float) : Option Int :=
  match Binary.ofFloat x with
  | .finite negative mantissa exponent =>
    if 0 ≤ exponent then some (signed negative (mantissa <<< exponent.toNat))
    else
      let unit := 1 <<< (-exponent).toNat
      if mantissa % unit = 0 then some (signed negative (mantissa / unit)) else none
  | _ => none

/-- The integer left when the fraction of a double is cut off; zero for what is not finite. -/
def truncated (x : Float) : Int :=
  match Binary.ofFloat x with
  | .finite negative mantissa exponent =>
    if 0 ≤ exponent then signed negative (mantissa <<< exponent.toNat)
    else signed negative (mantissa >>> (-exponent).toNat)
  | _ => 0

end CallScript
