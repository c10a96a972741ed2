import CallScript.Session
import CallScript.Text.Blank

/-!
# Dialogues

A dialogue answers lines one after another in one session: a block is run, a line that starts with
an equals sign is evaluated over the environment, and one that starts with a colon is a command.
-/

namespace CallScript

/-- The answer to a line. -/
inductive Reply where
  | nothing
  | value (text : String)
  | text (text : String)
  | error (text : String)
  /-- Asks for an empty screen. -/
  | clear
  /-- Asks for the end of the dialogue. -/
  | quit
deriving Repr, DecidableEq

namespace Reply

/-- The answer to a line that was run or evaluated. -/
def ofResult : Except Failure Value → Reply
  | .ok v => if v.isNone then .nothing else .value v.repr
  | .error failure => .error failure.display

end Reply

/-- What the help command shows. -/
def helpText : String :=
  "\n".intercalate
    ["Kotazy REPL Commands:",
      "  :help, :h, :?   Show this help",
      "  :quit, :q       Exit the REPL",
      "  :env            Show the environment",
      "  :reset          Reset the environment to its defaults",
      "  :clear          Clear the screen",
      "",
      "You can enter:",
      "  - Code blocks: \x7b set(x, 5); out(x) \x7d",
      "  - Expressions over the environment: =x * 2",
      "",
      "Built-in functions:",
      "  out(a, ...)      Print values",
      "  set(name, v)     Bind a name",
      "  ret(a, ...)      Return a value (or a list)",
      "  def(name, \x7b..\x7d)  Define a zero-argument function",
      "  lse() / fle()    List names / dump the environment",
      "  clc(\"e\") / pcl(\"e\") / ecl(\"e\")  Evaluate an expression"]

/-- A command of a dialogue. -/
inductive Command where
  | quit
  | help
  | environment
  | reset
  | clear
deriving Repr, DecidableEq

/-- The command a line is. -/
def Command.ofLine? (line : String) : Option Command :=
  match line with
  | ":quit" => some .quit
  | ":q" => some .quit
  | ":exit" => some .quit
  | ":help" => some .help
  | ":h" => some .help
  | ":?" => some .help
  | ":env" => some .environment
  | ":reset" => some .reset
  | ":clear" => some .clear
  | _ => none

namespace Session

/-- Follows a command. -/
def follow (session : Session) : Command → Reply × Session
  | .quit => (.quit, session)
  | .help => (.text helpText, session)
  | .environment => (.text session.environment.display, session)
  | .reset => (.text "environment reset", session.reset)
  | .clear => (.clear, session)

/-- Answers a line. -/
def answer (session : Session) (fuel : Nat) (line : String) : Reply × Session :=
  match trimmed line.toList with
  | [] => (.nothing, session)
  | ':' :: rest =>
    let word := String.ofList (':' :: rest)
    match Command.ofLine? word with
    | some command => session.follow command
    | none => (.error ("Unknown command: " ++ word ++ "\nType :help for help."), session)
  | '=' :: rest =>
    let (result, session) := session.evaluate fuel (String.ofList rest)
    (.ofResult result, session)
  | '\x7b' :: rest =>
    let (result, session) := session.run fuel (String.ofList ('\x7b' :: rest))
    (.ofResult result, session)
  | _ =>
    (.error "expected a code block `\x7b ... \x7d`, `=expression` or a :command", session)

end Session

end CallScript
