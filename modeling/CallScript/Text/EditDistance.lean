/-!
# Edit distance and name suggestions

`editDistance a b` counts the insertions, deletions and substitutions of single characters that turn
`a` into `b`.  It keeps one row of the usual table at a time: entry `j` of the row for a prefix of
`a` is the distance from that prefix to the first `j` characters of `b`.

`nearest?` picks the name a misspelling most likely stands for: the first candidate at the least
distance, provided it is within the threshold.
-/

namespace CallScript

/-- The entries of the next row after its first one, `left` being the entry just written. -/
def nextEntries (c : Char) : List Char → List Nat → Nat → List Nat
  | d :: ds, diagonal :: above :: row, left =>
    let entry := min (min (above + 1) (left + 1)) (diagonal + if c = d then 0 else 1)
    entry :: nextEntries c ds (above :: row) entry
  | _, _, _ => []

/-- The row for a prefix with `c` appended, from the row for the prefix. -/
def nextRow (target : List Char) (row : List Nat) (c : Char) : List Nat :=
  let first := row.headD 0 + 1
  first :: nextEntries c target row first

/-- The least number of single-character edits that turn one list of characters into the other. -/
def editDistance (source target : List Char) : Nat :=
  (source.foldl (nextRow target) (List.range (target.length + 1))).getLastD 0

/-- The first entry with the least distance. -/
def leastDistance : List (Nat × String) → Option (Nat × String)
  | [] => none
  | entry :: entries =>
    match leastDistance entries with
    | none => some entry
    | some best => if best.1 < entry.1 then some best else some entry

/-- The first of the candidates nearest to `name`, if it is at most `threshold` edits away. -/
def nearest? (name : String) (threshold : Nat) (candidates : List String) : Option String :=
  let measured := candidates.map fun candidate =>
    (editDistance name.toList candidate.toList, candidate)
  (leastDistance (measured.filter fun entry => entry.1 ≤ threshold)).map Prod.snd

/-- The parenthesis an error message adds when there is a name to suggest. -/
def suggestionHint : Option String → String
  | some name => " (did you mean `" ++ name ++ "`?)"
  | none => ""

end CallScript
