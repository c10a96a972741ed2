import CallScript.Session
import CallScript.Toml.Reader
import CallScript.Toml.Writer

/-!
# Settings

What a settings file decides: how deep blocks may nest, how a dialogue looks, and the bindings a
session starts with.  Files are TOML documents with the tables `engine`, `repl` and `bindings`;
whatever they leave out keeps its default, and whatever else they contain is ignored.
-/

namespace CallScript

/-- What a settings file decides. -/
structure Settings where
  /-- How many blocks may be run inside one another. -/
  maxDepth : Nat
  /-- What a dialogue shows in front of each line. -/
  prompt : String
  /-- Where a dialogue keeps its lines. -/
  historyFile : Option String
  /-- What a session binds at its start, by name. -/
  bindings : List (String × Toml)

/-- Why a file could not be read. -/
inductive FileError where
  | missing
  | directory
  | notDirectory
  | other (words : String)
deriving Repr, DecidableEq

/-- The wording of a file error. -/
def FileError.message : FileError → String
  | .missing => "No such file or directory (os error 2)"
  | .directory => "Is a directory (os error 21)"
  | .notDirectory => "Not a directory (os error 20)"
  | .other words => words

/-- Kinds of TOML values that no binding can have. -/
inductive UnsupportedKind where
  | boolean
  | datetime
deriving Repr, DecidableEq

/-- The word for a kind of value. -/
def UnsupportedKind.word : UnsupportedKind → String
  | .boolean => "boolean"
  | .datetime => "datetime"

/-- Why settings could not be used. -/
inductive SettingsError where
  | unreadable (error : FileError)
  /-- The file is no TOML document, or one that says something else. -/
  | malformed
  /-- A binding has a value that programs do not know. -/
  | unsupported (name : String) (kind : UnsupportedKind)
deriving Repr, DecidableEq

/-- The wording of a settings error. -/
def SettingsError.message : SettingsError → String
  | .unreadable error => "cannot read config: " ++ error.message
  | .malformed => "invalid config: not a settings file"
  | .unsupported name kind =>
    "binding `" ++ name ++ "`: " ++ kind.word ++ " values are not supported"

namespace Settings

/-- The settings without a file. -/
def default : Settings := ⟨defaultMaxDepth, "kotazy> ", none, []⟩

instance : Inhabited Settings := ⟨default⟩

/-- Whether two settings are equal. -/
def same (a b : Settings) : Bool :=
  a.maxDepth = b.maxDepth && a.prompt = b.prompt && a.historyFile = b.historyFile
    && Toml.sameEntries a.bindings b.bindings

/-! ## Reading -/

/-- The depth that a value says; its default if there is none. -/
def depthOf? : Option Toml → Option Nat
  | none => some default.maxDepth
  | some (.integer n) => if 0 ≤ n then some n.toNat else none
  | some _ => none

/-- The text that a value says; nothing in particular if there is none. -/
def textOf? : Option Toml → Option (Option String)
  | none => some none
  | some (.string s) => some (some s)
  | some _ => none

/-- The values of a group of settings, in the order of its names.  A group is a table, an array with
the values in order, or a date, which says nothing. -/
def group? (names : List String) : Option Toml → Option (List (Option Toml))
  | none => some (names.map fun _ => none)
  | some (.table entries) => some (names.map fun name => Entries.get? name entries)
  | some (.array items) => some ((List.range names.length).map fun i => items[i]?)
  | some (.datetime _) => some (names.map fun _ => none)
  | some _ => none

/-- The bindings that a value says, in the order of their names.  A date stands for the table that
would be read as that date. -/
def bindingsOf? : Option Toml → Option (List (String × Toml))
  | none => some []
  | some (.table entries) => (Toml.settledEntries? entries).map Toml.sorted
  | some (.datetime d) => some [(Toml.datetimeKey, .string d.render)]
  | some _ => none

/-- The settings that the entries of a document say. -/
def ofEntries? (entries : List (String × Toml)) : Option Settings := do
  let engine ← group? ["max_depth"] (Entries.get? "engine" entries)
  let repl ← group? ["prompt", "history_file"] (Entries.get? "repl" entries)
  let bindings ← bindingsOf? (Entries.get? "bindings" entries)
  let maxDepth ← depthOf? (engine[0]?.join)
  let prompt ← textOf? (repl[0]?.join)
  let historyFile ← textOf? (repl[1]?.join)
  return ⟨maxDepth, prompt.getD default.prompt, historyFile, bindings⟩

/-- The settings that a text says. -/
def read (source : String) : Except SettingsError Settings :=
  match Toml.read? source >>= ofEntries? with
  | some settings => .ok settings
  | none => .error .malformed

/-- The settings in a file, given what reading it comes to. -/
def ofFile : Except FileError String → Except SettingsError Settings
  | .ok source => read source
  | .error e => .error (.unreadable e)

/-! ## Writing -/

/-- Settings as the text of a file. -/
def render (settings : Settings) : String :=
  let history := match settings.historyFile with
    | some file => [("history_file", Toml.string file)]
    | none => []
  let engine := Toml.topSection "engine" [("max_depth", .integer settings.maxDepth)]
  String.ofList (engine.drop 1
    ++ Toml.topSection "repl" (("prompt", .string settings.prompt) :: history)
    ++ Toml.topSection "bindings" settings.bindings)

/-! ## Bindings -/

mutual

/-- The value that a TOML value stands for in a binding of the given name. -/
def valueOf (name : String) : Toml → Except SettingsError Value
  | .string s => .ok (.string s)
  | .integer n => .ok (.number (Float.ofInt n))
  | .float x => .ok (.number x)
  | .boolean _ => .error (.unsupported name .boolean)
  | .datetime _ => .error (.unsupported name .datetime)
  | .array items => (valuesOf name items).map .list
  | .table entries => (entriesOf entries).map .map

/-- The values that the items of an array stand for. -/
def valuesOf (name : String) : List Toml → Except SettingsError (List Value)
  | [] => .ok []
  | item :: items =>
    match valueOf name item with
    | .error e => .error e
    | .ok value =>
      match valuesOf name items with
      | .error e => .error e
      | .ok values => .ok (value :: values)

/-- The bindings that the entries of a table stand for. -/
def entriesOf : List (String × Toml) → Except SettingsError Bindings
  | [] => .ok []
  | (key, item) :: entries =>
    match valueOf key item with
    | .error e => .error e
    | .ok value =>
      match entriesOf entries with
      | .error e => .error e
      | .ok bindings => .ok ((key, value) :: bindings)

end

/-- The bindings a session starts with. -/
def values (settings : Settings) : Except SettingsError Bindings :=
  entriesOf settings.bindings

/-- A session that follows settings. -/
def session (settings : Settings) (toolkit : Toolkit) (sink : Sink) :
    Except SettingsError Session :=
  match settings.values with
  | .error e => .error e
  | .ok bindings =>
    let session := Session.new toolkit sink settings.maxDepth
    .ok (if bindings.isEmpty then session else session.install bindings)

end Settings

end CallScript
