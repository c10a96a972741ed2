import CallScript.Entries
import CallScript.Toml.Datetime

/-!
# TOML values

The values of a TOML document.  A document has the entries of a table in the order in which they
are written.  `Toml.settled?` is the data that a value says: the entries of its tables are in the
order of their keys, and a table that starts with the key of dates is a date.
-/

namespace CallScript

/-- A TOML value. -/
inductive Toml where
  | string (text : String)
  | integer (value : Int)
  | float (value : Float)
  | boolean (value : Bool)
  | datetime (value : Datetime)
  | array (items : List Toml)
  | table (entries : List (String × Toml))

namespace Toml

instance : Inhabited Toml := ⟨.table []⟩

/-- Whether a value is a table. -/
def isTable : Toml → Bool
  | .table _ => true
  | _ => false

mutual

/-- Whether two values are equal; floating-point numbers are equal as numbers. -/
def same : Toml → Toml → Bool
  | .string a, .string b => a = b
  | .integer a, .integer b => a = b
  | .float a, .float b => a == b
  | .boolean a, .boolean b => a = b
  | .datetime a, .datetime b => a = b
  | .array as, .array bs => sameItems as bs
  | .table as, .table bs => sameEntries as bs
  | _, _ => false

/-- Whether two lists are equal item by item. -/
def sameItems : List Toml → List Toml → Bool
  | [], [] => true
  | a :: as, b :: bs => same a b && sameItems as bs
  | _, _ => false

/-- Whether two tables have the same keys with equal values. -/
def sameEntries : List (String × Toml) → List (String × Toml) → Bool
  | [], [] => true
  | (key, a) :: as, (key', b) :: bs => key = key' && same a b && sameEntries as bs
  | _, _ => false

end

/-- Entries in the order of their keys. -/
def sorted {α : Type} (entries : List (String × α)) : List (String × α) :=
  entries.mergeSort fun a b => !decide (b.1 < a.1)

/-- The key of dates: a table that starts with it is the date in the string that stands there. -/
def datetimeKey : String := "$__toml_private_datetime"

mutual

/-- The data that a value says, if every table that starts with the key of dates is a date. -/
def settled? : Toml → Option Toml
  | .array items => (settledItems? items).map .array
  | .table ((key, value) :: entries) =>
    if key = datetimeKey then
      match value with
      | .string text => (Datetime.ofString? text).map .datetime
      | _ => none
    else
      match settled? value, settledEntries? entries with
      | some value, some entries => some (.table (sorted ((key, value) :: entries)))
      | _, _ => none
  | value => some value

/-- The data that the items of an array say. -/
def settledItems? : List Toml → Option (List Toml)
  | [] => some []
  | item :: items =>
    match settled? item, settledItems? items with
    | some item, some items => some (item :: items)
    | _, _ => none

/-- The data that entries say, in the same order. -/
def settledEntries? : List (String × Toml) → Option (List (String × Toml))
  | [] => some []
  | (key, value) :: entries =>
    match settled? value, settledEntries? entries with
    | some value, some entries => some ((key, value) :: entries)
    | _, _ => none

end

end Toml

end CallScript
