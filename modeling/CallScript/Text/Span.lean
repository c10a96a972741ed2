/-!
# Spans

A span is a half-open range of byte offsets into the UTF-8 form of a text.  Scanners work on lists
of characters and count bytes with `byteLength`; `Span.text` cuts a span out of a text again.
-/

namespace CallScript

/-- The number of bytes a list of characters takes in UTF-8. -/
def byteLength (cs : List Char) : Nat :=
  cs.foldr (fun c bytes => c.utf8Size + bytes) 0

@[simp] theorem byteLength_nil : byteLength [] = 0 := rfl

@[simp] theorem byteLength_cons (c : Char) (cs : List Char) :
    byteLength (c :: cs) = c.utf8Size + byteLength cs := rfl

@[simp] theorem byteLength_append (cs ds : List Char) :
    byteLength (cs ++ ds) = byteLength cs + byteLength ds := by
  induction cs with
  | nil => simp
  | cons c cs ih => simp [ih, Nat.add_assoc]

/-- Splits off the first `n` bytes; `none` if `n` falls inside a character or past the end. -/
def splitBytes : Nat → List Char → Option (List Char × List Char)
  | 0, cs => some ([], cs)
  | _ + 1, [] => none
  | n + 1, c :: cs =>
    if c.utf8Size ≤ n + 1 then
      (splitBytes (n + 1 - c.utf8Size) cs).map fun (taken, rest) => (c :: taken, rest)
    else none

/-- A range of byte offsets, the last one excluded. -/
structure Span where
  start : Nat
  stop : Nat
deriving Repr, DecidableEq, Inhabited

namespace Span

/-- The characters a span covers; `none` unless both ends fall between characters of the text. -/
def slice? (span : Span) (cs : List Char) : Option (List Char) := do
  guard (span.start ≤ span.stop)
  let (_, rest) ← splitBytes span.start cs
  let (taken, _) ← splitBytes (span.stop - span.start) rest
  return taken

/-- The part of `source` a span covers, empty if the span does not fit the text. -/
def text (span : Span) (source : String) : String :=
  String.ofList ((span.slice? source.toList).getD [])

/-- The two offsets with two dots between them. -/
def render (span : Span) : String :=
  toString span.start ++ ".." ++ toString span.stop

end Span

/-- Something read from a text, with the span it was read from. -/
structure Placed (α : Type) where
  item : α
  span : Span
deriving Repr, DecidableEq

end CallScript
