import CallScript.Decimal.Numeral

/-!
# Dates and times

Dates, times of day and offsets from universal time, alone or together.  Fractions of a second are
kept to nine places; further ones are cut off.  How late an hour and how great an offset may be
depends on where a date stands (`Datetime.Limits`).
-/

namespace CallScript

/-- A day of the calendar. -/
structure Date where
  year : Nat
  month : Nat
  day : Nat
deriving Repr, DecidableEq

/-- A time of day. -/
structure Time where
  hour : Nat
  minute : Nat
  second : Nat
  nanosecond : Nat
deriving Repr, DecidableEq

/-- The distance of a local time from universal time. -/
inductive Offset where
  /-- Universal time, written with a letter. -/
  | universal
  | minutes (minutes : Int)
deriving Repr, DecidableEq

/-- A date, a time, or both; then also an offset. -/
structure Datetime where
  date : Option Date
  time : Option Time
  offset : Option Offset
deriving Repr, DecidableEq

/-- How late the hours of a time and how great the parts of an offset may be. -/
structure Datetime.Limits where
  /-- The last hour of a day. -/
  hour : Nat
  offsetHours : Nat
  offsetMinutes : Nat
  /-- The greatest offset in minutes. -/
  offset : Nat

/-- The limits of dates in a document. -/
def Datetime.Limits.strict : Datetime.Limits := ⟨23, 23, 59, 1439⟩

/-- The limits of dates in strings. -/
def Datetime.Limits.loose : Datetime.Limits := ⟨24, 99, 99, 1440⟩

/-! ## Text -/

/-- A number with zeros in front of it up to a width. -/
def padded (width n : Nat) : String :=
  let digits := Decimal.digitChars n
  String.ofList (List.replicate (width - digits.length) '0' ++ digits)

/-- A date as text. -/
def Date.render (date : Date) : String :=
  padded 4 date.year ++ "-" ++ padded 2 date.month ++ "-" ++ padded 2 date.day

/-- The fraction of a second as text, without zeros at its end. -/
def fractionText (nanosecond : Nat) : String :=
  if nanosecond = 0 then ""
  else
    "." ++ String.ofList ((padded 9 nanosecond).toList.reverse.dropWhile (· = '0')).reverse

/-- A time as text. -/
def Time.render (time : Time) : String :=
  padded 2 time.hour ++ ":" ++ padded 2 time.minute ++ ":" ++ padded 2 time.second
    ++ fractionText time.nanosecond

/-- An offset as text. -/
def Offset.render : Offset → String
  | .universal => "Z"
  | .minutes m =>
    (if m < 0 then "-" else "+") ++ padded 2 (m.natAbs / 60) ++ ":" ++ padded 2 (m.natAbs % 60)

/-- A date and time as text. -/
def Datetime.render (datetime : Datetime) : String :=
  let date := (datetime.date.map Date.render).getD ""
  let mark := if datetime.date.isSome && datetime.time.isSome then "T" else ""
  let time := (datetime.time.map Time.render).getD ""
  date ++ mark ++ time ++ (datetime.offset.map Offset.render).getD ""

/-! ## Reading -/

/-- A number of exactly `count` digits. -/
def takeFixed? (count : Nat) (cs : List Char) : Option (Nat × List Char) := do
  let digits := cs.take count
  guard (digits.length = count && digits.all isDigit)
  return (digitsValue digits, cs.drop count)

/-- A number of two digits between bounds. -/
def takeBetween? (low high : Nat) (cs : List Char) : Option (Nat × List Char) := do
  let (n, rest) ← takeFixed? 2 cs
  guard (low ≤ n && n ≤ high)
  return (n, rest)

/-- What follows a given character. -/
def after? (c : Char) : List Char → Option (List Char)
  | d :: cs => if d = c then some cs else none
  | [] => none

/-- Whether a year has a leap day. -/
def isLeapYear (year : Nat) : Bool :=
  year % 4 = 0 && (year % 100 ≠ 0 || year % 400 = 0)

/-- The number of days of a month. -/
def daysInMonth (year month : Nat) : Nat :=
  if month = 2 then if isLeapYear year then 29 else 28
  else if month ∈ [4, 6, 9, 11] then 30
  else 31

/-- The date at the front of a text. -/
def takeDate? (cs : List Char) : Option (Date × List Char) := do
  let (year, cs) ← takeFixed? 4 cs
  let (month, cs) ← takeBetween? 1 12 (← after? '-' cs)
  let (day, cs) ← takeBetween? 1 31 (← after? '-' cs)
  guard (day ≤ daysInMonth year month)
  return (⟨year, month, day⟩, cs)

/-- The fraction of a second at the front of a text, in nanoseconds; zero if there is none. -/
def takeFraction (cs : List Char) : Nat × List Char :=
  match cs with
  | '.' :: rest =>
    match takeDigits rest with
    | ([], _) => (0, cs)
    | (digits, rest) =>
      let kept := digits.take 9
      (digitsValue kept * Nat.pow 10 (9 - kept.length), rest)
  | _ => (0, cs)

/-- The time of day at the front of a text. -/
def takeTime? (limits : Datetime.Limits) (cs : List Char) : Option (Time × List Char) := do
  let (hour, cs) ← takeBetween? 0 limits.hour cs
  let (minute, cs) ← takeBetween? 0 59 (← after? ':' cs)
  let (second, cs) ← takeBetween? 0 60 (← after? ':' cs)
  let (nanosecond, cs) := takeFraction cs
  return (⟨hour, minute, second, nanosecond⟩, cs)

/-- The hours and minutes at the front of a text, in minutes. -/
def takeMinutes? (limits : Datetime.Limits) (cs : List Char) : Option (Nat × List Char) := do
  let (hours, cs) ← takeBetween? 0 limits.offsetHours cs
  let (minutes, cs) ← takeBetween? 0 limits.offsetMinutes (← after? ':' cs)
  guard (60 * hours + minutes ≤ limits.offset)
  return (60 * hours + minutes, cs)

/-- The offset at the front of a text. -/
def takeOffset? (limits : Datetime.Limits) : List Char → Option (Offset × List Char)
  | 'Z' :: cs => some (.universal, cs)
  | 'z' :: cs => some (.universal, cs)
  | '+' :: cs => (takeMinutes? limits cs).map fun (n, rest) => (.minutes n, rest)
  | '-' :: cs => (takeMinutes? limits cs).map fun (n, rest) => (.minutes (-(n : Int)), rest)
  | _ => none

/-- The time of day that follows a date, after a letter or a blank. -/
def takeDayTime? (limits : Datetime.Limits) : List Char → Option (Time × List Char)
  | mark :: cs => if mark = 'T' || mark = 't' || mark = ' ' then takeTime? limits cs else none
  | [] => none

/-- The date, the time or both at the front of a text. -/
def takeDatetime? (limits : Datetime.Limits) (cs : List Char) :
    Option (Datetime × List Char) :=
  match takeDate? cs with
  | some (date, rest) =>
    match takeDayTime? limits rest with
    | some (time, rest) =>
      match takeOffset? limits rest with
      | some (offset, rest) => some (⟨some date, some time, some offset⟩, rest)
      | none => some (⟨some date, some time, none⟩, rest)
    | none => some (⟨some date, none, none⟩, rest)
  | none => (takeTime? limits cs).map fun (time, rest) => (⟨none, some time, none⟩, rest)

/-- The date, the time or both that a whole string is. -/
def Datetime.ofString? (text : String) : Option Datetime :=
  match takeDatetime? .loose text.toList with
  | some (datetime, []) => some datetime
  | _ => none

end CallScript
