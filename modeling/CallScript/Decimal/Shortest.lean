/-!
# Shortest decimals

The reals that round to a finite double form an interval around it.  `shortest` looks for the
decimal with the fewest digits in that interval: it tries one digit, then two, and so on, and on
each decimal grid it tests the two neighbours of the value.  Of two neighbours that both read back,
the nearer one is taken; an exact tie goes as the caller says.  All comparisons are between natural
numbers.
-/

namespace CallScript

/-- The positive number `digits * 10 ^ scale`. -/
structure Decimal where
  digits : Nat
  scale : Int
deriving Repr, DecidableEq

/-- Which of two equally near decimals is taken. -/
inductive Tie where
  | up
  | even
deriving Repr, DecidableEq

namespace Decimal

/-- The decimal digits of a natural number. -/
def digitChars (n : Nat) : List Char :=
  Nat.toDigits 10 n

/-- The number of decimal digits of a natural number; zero has one. -/
def digitCount (n : Nat) : Nat :=
  (digitChars n).length

/-- The exponent of the leading decimal digit of the positive fraction `num / den`. -/
def leadingExponent (num den : Nat) : Int :=
  if den ≤ num then (digitCount (num / den) : Int) - 1
  else
    let count := digitCount (den / num)
    if den ≤ num * Nat.pow 10 (count - 1) then 1 - (count : Int) else -(count : Int)

/-- The interval of reals that round to a double, in quarters of its last binary digit: the reals
between `low / den` and `high / den`, around `mid / den`. -/
structure Interval where
  low : Nat
  mid : Nat
  high : Nat
  den : Nat
  closed : Bool
deriving Repr, DecidableEq

/-- The interval of reals that round to `mantissa * 2 ^ exponent`. Below a power of two the
neighbours are twice as dense; an even mantissa attracts the ends as well. -/
def Interval.around (mantissa : Nat) (exponent : Int) : Interval :=
  let num := 1 <<< (exponent - 2).toNat
  let den := 1 <<< (2 - exponent).toNat
  let below := if mantissa = 1 <<< 52 && exponent ≠ -1074 then 1 else 2
  { low := (4 * mantissa - below) * num
    mid := 4 * mantissa * num
    high := (4 * mantissa + 2) * num
    den := den
    closed := mantissa % 2 = 0 }

/-- Whether `digits * up / down` lies in an interval. -/
def Interval.contains (interval : Interval) (up down digits : Nat) : Bool :=
  let point := digits * up * interval.den
  let low := interval.low * down
  let high := interval.high * down
  if interval.closed then low ≤ point && point ≤ high else low < point && point < high

/-- The neighbour of the middle of an interval on the grid of multiples of `10 ^ scale` that reads
back, if there is one. -/
def Interval.pick? (interval : Interval) (tie : Tie) (scale : Int) : Option Decimal :=
  let up := Nat.pow 10 scale.toNat
  let down := Nat.pow 10 (-scale).toNat
  let lower := interval.mid * down / (interval.den * up)
  let upper := lower + 1
  let doubled := 2 * interval.mid * down
  let middle := (lower + upper) * up * interval.den
  match interval.contains up down lower, interval.contains up down upper with
  | false, false => none
  | true, false => some ⟨lower, scale⟩
  | false, true => some ⟨upper, scale⟩
  | true, true =>
    if doubled < middle then some ⟨lower, scale⟩
    else if middle < doubled then some ⟨upper, scale⟩
    else match tie with
      | .up => some ⟨upper, scale⟩
      | .even => some (if lower % 2 = 0 then ⟨lower, scale⟩ else ⟨upper, scale⟩)

/-- Moves trailing zeros of the digits into the scale, at most `fuel` of them. -/
def stripZeros : Nat → Decimal → Decimal
  | 0, d => d
  | fuel + 1, d =>
    if d.digits % 10 = 0 && d.digits ≠ 0 then stripZeros fuel ⟨d.digits / 10, d.scale + 1⟩ else d

/-- The decimal with the fewest digits that reads back as the positive double
`mantissa * 2 ^ exponent`; seventeen digits are always enough. -/
def shortest (tie : Tie) (mantissa : Nat) (exponent : Int) : Decimal :=
  let interval := Interval.around mantissa exponent
  let lead := leadingExponent interval.mid interval.den
  let found := (List.range 17).findSome? fun (extra : Nat) => interval.pick? tie (lead - extra)
  stripZeros 17 (found.getD ⟨0, 0⟩)

end Decimal

end CallScript
