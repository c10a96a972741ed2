import CallScript.Entries
import CallScript.Program.Block

/-!
# Values

What programs compute with.  A mapping and a callable each come in two forms: the form in which an
environment stores them (`map`, `callable`) and the form a read hands out (`view`, `function`, which
carries the name it was read under).

Callables are compared by identity.  A definition carries the stamp of its making and the number of
the environment it was made in; a host function carries a stamp of its own.
-/

namespace CallScript

/-- The functions every session starts with. -/
inductive Builtin where
  /-- Prints its arguments. -/
  | out
  /-- Binds a name to a value. -/
  | set
  /-- Gives its argument, or the list of its arguments. -/
  | ret
  /-- Binds a name to a definition. -/
  | define
  /-- Prints the bound names. -/
  | names
  /-- Prints the environment. -/
  | dump
  /-- Evaluates an expression over the calculator's variables. -/
  | calculate
  /-- Evaluates an expression over the calculator's variables and prints the value. -/
  | calculateOut
  /-- Evaluates an expression over the environment. -/
  | evaluate
deriving Repr, DecidableEq

/-- What a host function is given. -/
inductive HostKind where
  /-- Its arguments as they are written, and the running frame. -/
  | special
  /-- The values of its arguments, and the running frame. -/
  | contextual
  /-- The values of its arguments. -/
  | pure
deriving Repr, DecidableEq

/-- A block bound to the environment it was defined in. -/
structure Definition where
  /-- The identity of the definition. -/
  stamp : Nat
  /-- The number of the environment it runs in. -/
  owner : Nat
  body : Block

/-- Something that can be called. -/
inductive Callable where
  | builtin (builtin : Builtin)
  /-- A function of the host, known by name; the stamp is its identity. -/
  | host (kind : HostKind) (stamp : Nat) (name : String)
  | definition (definition : Definition)

/-- A value. -/
inductive Value where
  | none
  | number (value : Float)
  | string (text : String)
  | list (items : List Value)
  /-- A mapping as stored. -/
  | map (entries : List (String × Value))
  /-- A mapping as read. -/
  | view (entries : List (String × Value))
  /-- A callable as stored. -/
  | callable (callable : Callable)
  /-- A callable as read under a name. -/
  | function (name : String) (callable : Callable)

instance : Inhabited Value := ⟨.none⟩

/-- Names with their values, in the order of first writing. -/
abbrev Bindings := List (String × Value)

namespace Value

/-- The kinds of values that messages distinguish. -/
inductive Kind where
  | none
  | number
  | string
  | list
  | mapping
  | function
deriving Repr, DecidableEq

/-- The word for a kind of value. -/
def Kind.word : Kind → String
  | .none => "none"
  | .number => "number"
  | .string => "string"
  | .list => "list"
  | .mapping => "mapping"
  | .function => "function"

/-- The kind of a value. -/
def kind : Value → Kind
  | .none => .none
  | .number _ => .number
  | .string _ => .string
  | .list _ => .list
  | .map _ => .mapping
  | .view _ => .mapping
  | .callable _ => .function
  | .function _ _ => .function

/-- Whether a value is the one of functions that only have effects. -/
def isNone : Value → Bool
  | .none => true
  | _ => false

/-- The number a value is. -/
def number? : Value → Option Float
  | .number x => some x
  | _ => Option.none

/-- The text a value is. -/
def string? : Value → Option String
  | .string s => some s
  | _ => Option.none

/-- The items of a list. -/
def items? : Value → Option (List Value)
  | .list xs => some xs
  | _ => Option.none

/-- The entries of a mapping, stored or read. -/
def entries? : Value → Option Bindings
  | .map es => some es
  | .view es => some es
  | _ => Option.none

end Value

/-- Whether a call of a callable hands over the running frame. -/
def Callable.wantsFrame : Callable → Bool
  | .host .pure _ _ => false
  | _ => true

end CallScript
