import CallScript.Json.Reader
import CallScript.Program.Block

/-!
# Programs in JSON

Concrete trees and blocks as JSON.  An argument of a block is an object with a `type` and a `val`;
an argument of a concrete tree is an object whose `rule` stands beside its other members.  Blocks
are also read back: `Block.ofJson?` takes `type` and `val` in either order and ignores members it
does not know.
-/

namespace CallScript

/-! ## Concrete trees -/

namespace Program

/-- A span in JSON. -/
def spanJson (span : Span) : Json :=
  .object [("start", .ofNat span.start), ("end", .ofNat span.stop)]

/-- The members of a lexeme. -/
def Lexeme.members (lexeme : Lexeme) : List (String × Json) :=
  [("text", .ofString lexeme.text), ("span", spanJson lexeme.span)]

namespace Tree

mutual

/-- A concrete argument in JSON. -/
def Argument.toJson : Argument → Json
  | .number lexeme => .object (("rule", .string "number") :: lexeme.members)
  | .string lexeme => .object (("rule", .string "string") :: lexeme.members)
  | .name lexeme => .object (("rule", .string "id") :: lexeme.members)
  | .call c => .object (("rule", .string "call") :: c.members)
  | .block b => .object (("rule", .string "codeblock") :: b.members)

/-- Concrete arguments in JSON. -/
def Argument.listToJson : List Argument → List Json
  | [] => []
  | argument :: arguments => argument.toJson :: Argument.listToJson arguments

/-- The members of a concrete call. -/
def Call.members : Call → List (String × Json)
  | ⟨name, arguments, span⟩ =>
    [("name", .object name.members), ("params", .array (Argument.listToJson arguments)),
      ("span", spanJson span)]

/-- Concrete calls in JSON. -/
def Call.listToJson : List Call → List Json
  | [] => []
  | call :: calls => .object call.members :: Call.listToJson calls

/-- The members of a concrete block. -/
def Block.members : Block → List (String × Json)
  | ⟨calls, span⟩ => [("calls", .array (Call.listToJson calls)), ("span", spanJson span)]

end

/-- A concrete tree in JSON. -/
def Block.toJson (block : Block) : Json :=
  .object block.members

end Tree

end Program

/-! ## Blocks -/

/-- An argument of the given kind in JSON. -/
def Argument.tagged (kind : Argument.Kind) (value : Json) : Json :=
  .object [("type", .string kind.word), ("val", value)]

mutual

/-- An argument in JSON. -/
def Argument.toJson : Argument → Json
  | .number value => Argument.tagged .number (.ofFloat value)
  | .string text => Argument.tagged .string (.ofString text)
  | .name name => Argument.tagged .name (.ofString name)
  | .call c => Argument.tagged .call c.toJson
  | .block b => Argument.tagged .block b.toJson

/-- Arguments in JSON. -/
def Argument.listToJson : List Argument → List Json
  | [] => []
  | argument :: arguments => argument.toJson :: Argument.listToJson arguments

/-- A call in JSON. -/
def Call.toJson : Call → Json
  | ⟨name, arguments⟩ =>
    .object [("name", .ofString name), ("params", .array (Argument.listToJson arguments))]

/-- Calls in JSON. -/
def Call.listToJson : List Call → List Json
  | [] => []
  | call :: calls => call.toJson :: Call.listToJson calls

/-- A block in JSON. -/
def Block.toJson : Block → Json
  | ⟨calls⟩ => .object [("calls", .array (Call.listToJson calls))]

end

/-! ## Reading blocks -/

namespace Argument

/-- The kinds of arguments in the order of their positions. -/
def Kind.all : List Kind :=
  [.number, .string, .name, .call, .block]

/-- The kind that a string literal names. -/
def Kind.ofWord? (literal : String) : Option Kind := do
  let word ← Json.decode? literal
  Kind.all.find? fun kind => kind.word = word

/-- Whether a tree says nothing: null, or in a value that had to be held until its tag was known
(`held`) also an empty object. -/
def saysNothing (held : Bool) : Json → Bool
  | .null => true
  | .object [] => held
  | _ => false

/-- The kind that the tag of an object names: a word, or an object that has the word as its only key
and says nothing there. -/
def Kind.ofTag? (depth : Nat) (held : Bool) : Json → Option Kind
  | .string word => Kind.ofWord? word
  | .object [(word, value)] =>
    if 0 < depth && saysNothing held value then Kind.ofWord? word else none
  | _ => none

/-- The kind that the first item of an array names: a word, or in a held value also a position. -/
def Kind.ofItem? (held : Bool) : Json → Option Kind
  | .string word => Kind.ofWord? word
  | .number literal =>
    if held && literal.toList.all isDigit then Kind.all[digitsValue literal.toList]? else none
  | _ => none

/-- The kind and the value of an argument, and whether the value stands before its tag. -/
def parts? (depth : Nat) (held : Bool) : Json → Option (Kind × Json × Bool)
  | .object members => do
    let members ← Json.named? members
    let kind ← Kind.ofTag? depth held (← Json.only? "type" members)
    let value ← Json.only? "val" members
    let first := members.find? fun member => member.1 = "type" || member.1 = "val"
    return (kind, value, first.any fun member => member.1 = "val")
  | .array [tag, value] => do
    let kind ← Kind.ofItem? held tag
    return (kind, value, false)
  | _ => none

end Argument

mutual

/-- The argument a tree stands for.  What is read of the tree may be nested `depth` deep; a value
that stands before its tag is held as a whole and has to fit. -/
def Argument.ofJson? : Nat → Bool → Json → Option Argument
  | 0, _, _ => none
  | depth + 1, held, json => do
    let (kind, value, early) ← Argument.parts? depth held json
    guard (!early || value.fits depth)
    match kind, value with
    | .number, .number literal => return .number (← Json.literalValue literal)
    | .string, .string literal => return .string (← Json.decode? literal)
    | .name, .string literal => return .name (← Json.decode? literal)
    | .call, value => return .call (← Call.ofJson? depth (held || early) value)
    | .block, value => return .block (← Block.ofJsonWithin? depth (held || early) value)
    | _, _ => none

/-- The call a tree stands for, an object and an array around its arguments. -/
def Call.ofJson? : Nat → Bool → Json → Option Call
  | depth + 2, held, json => do
    match ← json.fields? ["name", "params"] with
    | [.string literal, .array items] =>
      let name ← Json.decode? literal
      return ⟨name, ← items.mapM (Argument.ofJson? depth held)⟩
    | _ => none
  | _, _, _ => none

/-- The block a tree stands for, an object and an array around its calls. -/
def Block.ofJsonWithin? : Nat → Bool → Json → Option Block
  | depth + 2, held, json => do
    match ← json.fields? ["calls"] with
    | [.array items] => return ⟨← items.mapM (Call.ofJson? depth held)⟩
    | _ => none
  | _, _, _ => none

end

/-- The block a tree stands for. -/
def Block.ofJson? (json : Json) : Option Block :=
  Block.ofJsonWithin? Json.depthLimit false json

/-- Reads a block from JSON text. -/
def Block.read? (text : String) : Option Block := do
  let json ← Json.read text
  Block.ofJson? json

end CallScript
