import CallScript.Value.Text

/-!
# Environments

An environment binds names to values.  Values are stored as they are given and wrapped when they are
read: a mapping is handed out as a view, a list keeps only its mappings, and a callable carries the
name it was read under.
-/

namespace CallScript

/-- A mapping as a read hands it out; `none` for other values. -/
def Value.asView? : Value → Option Value
  | .map es => some (.view es)
  | .view es => some (.view es)
  | _ => Option.none

/-- A stored value as a read under `name` hands it out. -/
def Value.wrap (name : String) : Value → Value
  | .map es => .view es
  | .view es => .view es
  | .list xs => .list (xs.filterMap Value.asView?)
  | .callable c => .function name c
  | .function _ c => .function name c
  | v => v

/-- Names bound to values, in the order of first binding. -/
structure Environment where
  bindings : Bindings

namespace Environment

/-- The environment that binds nothing. -/
def empty : Environment := ⟨[]⟩

/-- The stored value of a name. -/
def getRaw? (env : Environment) (name : String) : Option Value :=
  Entries.get? name env.bindings

/-- The value of a name as a read hands it out. -/
def get? (env : Environment) (name : String) : Option Value :=
  (env.getRaw? name).map (Value.wrap name)

/-- Binds a name, keeping its place if it is bound already. -/
def define (env : Environment) (name : String) (value : Value) : Environment :=
  ⟨Entries.insert name value env.bindings⟩

/-- Binds every name of `more`. -/
def extend (env : Environment) (more : Bindings) : Environment :=
  ⟨Entries.extend env.bindings more⟩

/-- Unbinds a name. -/
def remove (env : Environment) (name : String) : Environment :=
  ⟨Entries.erase name env.bindings⟩

/-- The bound names, in the order of first binding. -/
def names (env : Environment) : List String :=
  Entries.keys env.bindings

/-- Whether a name is bound. -/
def contains (env : Environment) (name : String) : Bool :=
  Entries.contains name env.bindings

/-- The number of bound names. -/
def size (env : Environment) : Nat :=
  env.bindings.length

/-- A binding in the text of an environment.  Callables in either form are named by the name they
are bound to. -/
def bindingChars (name : String) : Value → List Char
  | .callable _ => quotedChars name.toList ++ [':', ' '] ++ functionChars name
  | .function _ _ => quotedChars name.toList ++ [':', ' '] ++ functionChars name
  | value => quotedChars name.toList ++ [':', ' '] ++ value.reprChars

/-- The text of an environment. -/
def display (env : Environment) : String :=
  let parts := env.bindings.map fun (name, value) => bindingChars name value
  String.ofList ('\x7b' :: List.intercalate [',', ' '] parts ++ ['\x7d'])

end Environment

end CallScript
