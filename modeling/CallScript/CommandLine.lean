import CallScript.Dialogue
import CallScript.Engine.Stock
import CallScript.Program.Json
import CallScript.Settings

/-!
# The command line

What the arguments of the program ask for (`Request.ofArguments`), and what it answers
(`Invocation.perform`): texts for standard output and standard error, and an exit code.  Files are
given by a function that reads them.
-/

namespace CallScript

/-- What the program is to do. -/
inductive Action where
  /-- Runs the program in a file. -/
  | run (file : String)
  /-- Runs the program in an argument. -/
  | exec (code : String)
  /-- Evaluates the expression in an argument. -/
  | eval (source : String)
  /-- Shows the tree of the program in a file. -/
  | parse (file : String) (concrete : Bool)
  /-- Shows the tokens of the program in a file. -/
  | tokens (file : String)
  /-- Answers the lines of standard input. -/
  | repl
deriving Repr, DecidableEq

/-- What the program is to do, and with which settings. -/
structure Invocation where
  config : Option String
  action : Action
deriving Repr, DecidableEq

/-- What the arguments of the program ask for. -/
inductive Request where
  | invoke (invocation : Invocation)
  | version
  | help
  /-- The arguments make no sense. -/
  | misuse
deriving Repr, DecidableEq

/-! ## Arguments -/

/-- The name of an action. -/
inductive Verb where
  | run
  | exec
  | eval
  | parse
  | tokens
  | repl
deriving Repr, DecidableEq

/-- The verb an argument is. -/
def Verb.ofArgument? (argument : String) : Option Verb :=
  match argument with
  | "run" => some .run
  | "exec" => some .exec
  | "eval" => some .eval
  | "parse" => some .parse
  | "tokens" => some .tokens
  | "repl" => some .repl
  | _ => none

/-- Whether arguments say what help is about: everything, or one command. -/
def isTopic : List String → Bool
  | [] => true
  | [word] => word = "help" || (Verb.ofArgument? word).isSome
  | _ => false

/-- Whether an argument has the form of an option. -/
def isOption (argument : String) : Bool :=
  match argument.toList with
  | '-' :: _ :: _ => true
  | _ => false

/-- What follows the equals sign of an argument that gives the settings file. -/
def configValue? (argument : String) : Option String :=
  let mark := "--config=".toList
  if mark.isPrefixOf argument.toList then some (String.ofList (argument.toList.drop mark.length))
  else none

/-- The settings file that is now given, if it may be: a name, and the first one at its level. -/
def newConfig? (given : Option String) (file : String) : Option String :=
  if given.isSome || file.isEmpty then none else some file

/-- What the arguments after a verb have given so far. -/
structure Given where
  config : Option String
  concrete : Bool
  /-- The arguments that are no options, the last one first. -/
  words : List String

/-- The action of a verb with what is given for it.  The names of files are not empty. -/
def Verb.action? (verb : Verb) (given : Given) : Option Action :=
  match verb, given.words with
  | .run, [file] => if file.isEmpty then none else some (.run file)
  | .exec, [code] => some (.exec code)
  | .eval, [source] => some (.eval source)
  | .parse, [file] => if file.isEmpty then none else some (.parse file given.concrete)
  | .tokens, [file] => if file.isEmpty then none else some (.tokens file)
  | .repl, [] => some .repl
  | _, _ => none

/-- Whether one more argument can follow those given. -/
def Verb.takesWord (verb : Verb) (given : Given) : Bool :=
  verb ≠ .repl && given.words.isEmpty

/-- What a verb and all that is given for it ask for.  A settings file given after the verb comes
before one given in front of it. -/
def Verb.conclude (verb : Verb) (outer : Option String) (given : Given) : Request :=
  match verb.action? given with
  | some action => .invoke ⟨given.config.or outer, action⟩
  | none => .misuse

/-- What a verb and the arguments after two dashes ask for. -/
def Verb.afterDashes (verb : Verb) (outer : Option String) (given : Given) : List String → Request
  | [] => verb.conclude outer given
  | word :: arguments =>
    if verb.takesWord given then
      verb.afterDashes outer { given with words := word :: given.words } arguments
    else .misuse

/-- What a verb and the arguments after it ask for. -/
def Verb.request (verb : Verb) (outer : Option String) (given : Given) : List String → Request
  | [] => verb.conclude outer given
  | argument :: arguments =>
    if argument = "--" then verb.afterDashes outer given arguments
    else if argument = "--config" then
      match arguments with
      | [] => .misuse
      | file :: arguments =>
        if isOption file then .misuse
        else
          match newConfig? given.config file with
          | some file => verb.request outer { given with config := some file } arguments
          | none => .misuse
    else if argument = "--help" || argument.startsWith "-h" then .help
    else if argument = "--concrete" && verb = .parse && !given.concrete then
      verb.request outer { given with concrete := true } arguments
    else
      match configValue? argument with
      | some file =>
        match newConfig? given.config file with
        | some file => verb.request outer { given with config := some file } arguments
        | none => .misuse
      | none =>
        if !isOption argument && verb.takesWord given then
          verb.request outer { given with words := argument :: given.words } arguments
        else .misuse

/-- What arguments ask for, after the settings file that is already given. -/
def Request.ofArgumentsFrom (given : Option String) : List String → Request
  | [] => .misuse
  | argument :: arguments =>
    if argument = "--config" then
      match arguments with
      | [] => .misuse
      | file :: arguments =>
        if isOption file then .misuse
        else
          match newConfig? given file with
          | some file => ofArgumentsFrom (some file) arguments
          | none => .misuse
    else if argument = "--version" || argument.startsWith "-V" then .version
    else if argument = "--help" || argument.startsWith "-h" then .help
    else if argument = "help" then if isTopic arguments then .help else .misuse
    else
      match configValue? argument with
      | some file =>
        match newConfig? given file with
        | some file => ofArgumentsFrom (some file) arguments
        | none => .misuse
      | none =>
        match Verb.ofArgument? argument with
        | some verb => verb.request given ⟨none, false, []⟩ arguments
        | none => .misuse

/-- What the arguments of the program ask for. -/
def Request.ofArguments (arguments : List String) : Request :=
  ofArgumentsFrom none arguments

/-! ## Answers -/

/-- What the program answers. -/
structure Report where
  exitCode : Nat
  stdout : String
  stderr : String
deriving Repr, DecidableEq

/-- Lines with line breaks after them. -/
def asLines (lines : List String) : String :=
  String.join (lines.map (· ++ "\n"))

/-- What the program prints about itself. -/
def versionText : String := "kotazy 0.1.0\n"

/-- How the program is called. -/
def usageText : String :=
  asLines
    ["Usage: kotazy [--config <FILE>] <COMMAND>",
      "",
      "Commands:",
      "  run <FILE>                  Run a source file",
      "  exec <CODE>                 Run code given on the command line",
      "  eval <EXPR>                 Evaluate a restricted expression",
      "  parse [--concrete] <FILE>   Parse and dump the AST as JSON",
      "  tokens <FILE>               Tokenize and dump tokens",
      "  repl                        Start the interactive REPL"]

namespace Report

/-- The report of a failure in front of any program. -/
def failure (message : String) : Report :=
  ⟨1, "", "Error: " ++ message ++ "\n"⟩

/-- The report of a program or an expression that came to a result.  `shows` says which values are
shown. -/
def ofResult (shows : Value → Bool) (outcome : Except Failure Value × Session) : Report :=
  let printed := asLines outcome.2.world.printed.toList
  match outcome.1 with
  | .ok value => ⟨0, if shows value then printed ++ value.display ++ "\n" else printed, ""⟩
  | .error e => ⟨1, printed, e.display ++ "\n"⟩

end Report

namespace Program.Token

/-- The name of a kind of token in a list of tokens. -/
def label : Token → String
  | .openBrace => "LBrace"
  | .closeBrace => "RBrace"
  | .openParen => "LParen"
  | .closeParen => "RParen"
  | .semicolon => "Semi"
  | .comma => "Comma"
  | .string _ => "StringLit"
  | .number _ => "NumberLit"
  | .name _ => "Ident"

/-- A token in a list of tokens. -/
def describe (token : Token) : String :=
  match token with
  | .string _ => token.label ++ "(" ++ escaped token.text ++ ")"
  | .number _ => token.label ++ "(" ++ escaped token.text ++ ")"
  | .name _ => token.label ++ "(" ++ escaped token.text ++ ")"
  | token => token.label

end Program.Token

/-- The tree of a program as JSON, with or without its layout. -/
def showTree (concrete : Bool) (source : String) : Report :=
  match Program.parse source with
  | .error e => ⟨1, "", e.display ++ "\n"⟩
  | .ok tree =>
    let json := if concrete then tree.toJson else (Block.ofTree tree).toJson
    ⟨0, json.pretty ++ "\n", ""⟩

/-- The tokens of a program, one a line. -/
def showTokens (source : String) : Report :=
  match Program.scan source with
  | .error e => .failure e.display
  | .ok tokens =>
    ⟨0, asLines (tokens.map fun token => token.item.describe ++ " @ " ++ token.span.render), ""⟩

/-! ## Dialogues on standard input -/

/-- What a dialogue shows at its start. -/
def greeting : String :=
  "Kotazy REPL v0.1.0\nType :help for help, :quit to exit.\n\n"

/-- What a dialogue shows at its end. -/
def farewell : String := "Goodbye!\n"

/-- What answering a line comes to. -/
structure Turn where
  session : Session
  stdout : String
  stderr : String
  /-- Whether the dialogue ends. -/
  ends : Bool

/-- Answers a line of standard input. -/
def Session.turn (session : Session) (fuel : Nat) (line : String) : Turn :=
  let (reply, session) := session.answer fuel line
  let (lines, session) := session.takePrinted
  let printed := asLines lines
  match reply with
  | .nothing => ⟨session, printed, "", false⟩
  | .value text => ⟨session, printed ++ text ++ "\n", "", false⟩
  | .text text => ⟨session, printed ++ text ++ "\n", "", false⟩
  | .error text => ⟨session, printed, text ++ "\n", false⟩
  | .clear => ⟨session, printed ++ "\x1b[2J\x1b[1;1H", "", false⟩
  | .quit => ⟨session, printed, "", true⟩

/-- Answers lines until they end or the dialogue does, after what is already written. -/
def Session.converse (session : Session) (fuel : Nat) (stdout stderr : String) :
    List String → Report
  | [] => ⟨0, stdout ++ farewell, stderr⟩
  | line :: lines =>
    let turn := session.turn fuel line
    if turn.ends then ⟨0, stdout ++ turn.stdout ++ farewell, stderr ++ turn.stderr⟩
    else turn.session.converse fuel (stdout ++ turn.stdout) (stderr ++ turn.stderr) lines

/-- The lines of a text; a line break at its end starts no new line. -/
def linesOf (input : String) : List String :=
  let lines := input.splitOn "\n"
  if lines.getLast? = some "" then lines.dropLast else lines

/-! ## Invocations -/

namespace Invocation

/-- The settings of an invocation. -/
def settings (invocation : Invocation) (read : String → Except FileError String) :
    Except SettingsError Settings :=
  match invocation.config with
  | none => .ok .default
  | some file => Settings.ofFile (read file)

/-- Goes on with a session that follows settings. -/
def withSession (settings : Settings) (f : Session → Report) : Report :=
  match settings.session .stock .standard with
  | .ok session => f session
  | .error e => .failure e.message

/-- Goes on with the text of a file. -/
def withFile (read : String → Except FileError String) (file : String) (f : String → Report) :
    Report :=
  match read file with
  | .ok source => f source
  | .error e => .failure e.message

/-- What the program answers to an invocation, given what reading a file comes to and the text on
standard input. -/
def perform (invocation : Invocation) (fuel : Nat) (read : String → Except FileError String)
    (input : String) : Report :=
  match invocation.settings read with
  | .error e => .failure e.message
  | .ok settings =>
    let run (code : String) : Report :=
      withSession settings fun session => .ofResult (!·.isNone) (session.run fuel code)
    match invocation.action with
    | .run file => withFile read file run
    | .exec code => run code
    | .eval source =>
      withSession settings fun session => .ofResult (fun _ => true) (session.evaluate fuel source)
    | .parse file concrete => withFile read file (showTree concrete)
    | .tokens file => withFile read file showTokens
    | .repl =>
      withSession settings fun session => session.converse fuel greeting "" (linesOf input)

end Invocation

/-- What the program answers to a request. -/
def Request.perform (request : Request) (fuel : Nat) (read : String → Except FileError String)
    (input : String) : Report :=
  match request with
  | .invoke invocation => invocation.perform fuel read input
  | .version => ⟨0, versionText, ""⟩
  | .help => ⟨0, usageText, ""⟩
  | .misuse => ⟨2, "", usageText⟩

end CallScript
