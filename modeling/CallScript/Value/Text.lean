import CallScript.Text.Quote
import CallScript.Value.Basic

/-!
# The text of values

`Value.display` is what printing a value shows, `Value.repr` what it looks like inside a printed
list or mapping: the two differ for strings, which are quoted inside.
-/

namespace CallScript

/-- The text of a function with a name. -/
def functionChars (name : String) : List Char :=
  "<function ".toList ++ name.toList ++ ['>']

namespace Value

mutual

/-- The text of a value inside a printed list or mapping. -/
def reprChars : Value → List Char
  | .none => "None".toList
  | .number x => (numberText x).toList
  | .string s => quotedChars s.toList
  | .list items => '[' :: itemsChars items ++ [']']
  | .map entries => '\x7b' :: entriesChars entries ++ ['\x7d']
  | .view entries => '\x7b' :: entriesChars entries ++ ['\x7d']
  | .callable _ => "<function>".toList
  | .function name _ => functionChars name

/-- The items of a list with commas between them. -/
def itemsChars : List Value → List Char
  | [] => []
  | item :: items => reprChars item ++ moreItemsChars items

/-- The items of a list after the first one, a comma before each. -/
def moreItemsChars : List Value → List Char
  | [] => []
  | item :: items => [',', ' '] ++ reprChars item ++ moreItemsChars items

/-- The entries of a mapping with commas between them.  A stored callable is named by its key. -/
def entriesChars : Bindings → List Char
  | [] => []
  | (key, .callable _) :: entries =>
    quotedChars key.toList ++ [':', ' '] ++ functionChars key ++ moreEntriesChars entries
  | (key, value) :: entries =>
    quotedChars key.toList ++ [':', ' '] ++ reprChars value ++ moreEntriesChars entries

/-- The entries of a mapping after the first one, a comma before each. -/
def moreEntriesChars : Bindings → List Char
  | [] => []
  | (key, .callable _) :: entries =>
    [',', ' '] ++ quotedChars key.toList ++ [':', ' '] ++ functionChars key
      ++ moreEntriesChars entries
  | (key, value) :: entries =>
    [',', ' '] ++ quotedChars key.toList ++ [':', ' '] ++ reprChars value
      ++ moreEntriesChars entries

end

/-- The text of a value inside a printed list or mapping. -/
def repr (value : Value) : String :=
  String.ofList value.reprChars

/-- The text that printing a value shows. -/
def display : Value → String
  | .string s => s
  | value => value.repr

end Value

end CallScript
