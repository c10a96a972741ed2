import CallScript.Proofs.Expression.Soundness

/-!
# What it means that a phrase is read

A phrase of the grammar is read by the parser of its level, whatever follows it, as long as that
does not continue the phrase and the fuel is enough for its tokens.  A level that goes to the left
is read in a loop, so `Level.Reads` says of it where the loop stands after the phrase: an operator
that follows is then read by the same loop.

Here are the statement for all kinds of phrases (`Phrase.Reads`) and the phrases that stand in
brackets of their own: literals, names and displays.
-/

namespace CallScript.Expression

open Expression.Parser

namespace Parser

variable {α β : Type} {p : Parser α} {input middle rest : Input} {a : α}

theorem map_of_ok {f : α → β} (h : p input = .ok (a, rest)) :
    map f p input = .ok (f a, rest) :=
  map_eq_ok_iff.2 ⟨a, h, rfl⟩

theorem andThen_of_ok {f : α → Parser β} (h : p input = .ok (a, middle)) :
    andThen p f input = f a middle := by
  simp only [andThen, h]

theorem before_of_ok {closing : Token → Bool} {t : Placed Token}
    (h : p input = .ok (a, t :: rest)) (ht : closing t.item = true) :
    before closing p input = .ok (a, rest) :=
  before_eq_ok_iff.2 ⟨t, h, ht⟩

end Parser

/-! ## Parsers of the levels -/

namespace Level

/-- The parser of binary levels over the level of signs. -/
def binary (n : Nat) : List Level → Parser Expr
  | [] => Expression.factor n
  | level :: tighter => chain n level.operator? (binary n tighter)

/-- The parser of a level at a fuel. -/
def parser (n : Nat) : Level → Parser Expr
  | .input => whole n
  | .test => Expression.test n
  | .orTest => Expression.orTest n
  | .andTest => chain n andTest.operator? (Expression.notTest n)
  | .notTest => Expression.notTest n
  | .comparison => comparisonChain n (binary n [.bitOr, .bitXor, .bitAnd, .shift, .sum, .product])
  | .bitOr => binary n [.bitOr, .bitXor, .bitAnd, .shift, .sum, .product]
  | .bitXor => binary n [.bitXor, .bitAnd, .shift, .sum, .product]
  | .bitAnd => binary n [.bitAnd, .shift, .sum, .product]
  | .shift => binary n [.shift, .sum, .product]
  | .sum => binary n [.sum, .product]
  | .product => binary n [.product]
  | .factor => Expression.factor n
  | .power =>
    andThen (Expression.primary (Expression.test n) (Expression.orTest n) n)
      (powerRest (Expression.factor n))
  | .primary => Expression.primary (Expression.test n) (Expression.orTest n) n
  | .atom => Expression.atom (Expression.test n) (Expression.orTest n) n

/-- The fuel that a level takes beyond four for each token. -/
def reserve : Level → Nat
  | .input | .test => 4
  | .orTest => 3
  | .andTest | .notTest => 2
  | .power | .primary | .atom => 0
  | _ => 1

/-- Whether a level has operators that go to the left. -/
def isChain : Level → Bool
  | .orTest | .andTest | .bitOr | .bitXor | .bitAnd | .shift | .sum | .product => true
  | _ => false

/-- The level of what a loop reads first; a level that is not read in a loop itself. -/
def inner : Level → Level
  | .orTest => .andTest
  | .andTest => .notTest
  | .bitOr => .bitXor
  | .bitXor => .bitAnd
  | .bitAnd => .shift
  | .shift => .sum
  | .sum => .product
  | .product => .factor
  | .primary => .atom
  | level => level

/-- The fuel at which a loop reads. -/
def fuel (n : Nat) : Level → Nat
  | .orTest => n - 1
  | _ => n

/-- What a level still reads after `e`, with `k` rounds left. -/
def loop (n k : Nat) (e : Expr) : Level → Parser Expr
  | .primary => suffixes (Expression.test n) n k e
  | level =>
    if level.isChain then chainFrom (level.inner.parser (level.fuel n)) level.operator? k e
    else succeed e

theorem parser_eq_chain {level : Level} (h : level.isChain = true) {n : Nat} (hn : 0 < n) :
    level.parser n =
      chain (level.fuel n) level.operator? (level.inner.parser (level.fuel n)) := by
  obtain ⟨n, rfl⟩ : ∃ m, n = m + 1 := ⟨n - 1, by omega⟩
  cases level with
  | orTest =>
    show chain n orOperator (chain n andOperator _) = _
    rw [orOperator_eq, andOperator_eq]
    rfl
  | andTest | bitOr | bitXor | bitAnd | shift | sum | product => rfl
  | _ => cases h

theorem loop_eq_chainFrom {level : Level} (h : level.isChain = true) (n k : Nat) (e : Expr) :
    level.loop n k e =
      chainFrom (level.inner.parser (level.fuel n)) level.operator? k e := by
  cases level with
  | orTest | andTest | bitOr | bitXor | bitAnd | shift | sum | product => rfl
  | _ => cases h

theorem isChain_of_operator? {level : Level} {token : Token} {combine : Expr → Expr → Expr}
    (h : level.operator? token = some combine) : level.isChain = true := by
  unfold operator? at h
  split at h <;> first | rfl | cases h

theorem next?_of_isChain {level : Level} (h : level.isChain = true) :
    level.next? = some level.inner := by
  cases level with
  | orTest | andTest | bitOr | bitXor | bitAnd | shift | sum | product => rfl
  | _ => cases h

theorem reserve_inner_le {level : Level} {count n : Nat} (hn : 4 * count + level.reserve ≤ n) :
    4 * count + level.inner.reserve ≤ level.fuel n := by
  cases level <;> simp only [reserve, inner, fuel] at hn ⊢ <;> omega

theorem rank_le_inner (level : Level) : level.rank ≤ level.inner.rank := by
  cases level <;> decide

theorem suffixes_of_stops {rest : Input} (h : Stops .primary rest) (test : Parser Expr)
    (n k : Nat) (e : Expr) : suffixes test n k e rest = .ok (e, rest) := by
  cases k with
  | zero => rfl
  | succ k =>
    unfold suffixes
    split
    · exact absurd (h .primary rfl) (by decide)
    · exact absurd (h .primary rfl) (by decide)
    · exact absurd (h .primary rfl) (by decide)
    · rfl

theorem loop_of_stops {level : Level} {rest : Input} (h : Stops level rest) (n k : Nat) (e : Expr) :
    level.loop n k e rest = .ok (e, rest) := by
  by_cases hchain : level.isChain = true
  · rw [loop_eq_chainFrom hchain]
    cases k with
    | zero => rfl
    | succ k =>
      cases rest with
      | nil => rfl
      | cons token rest =>
        cases hoperator : level.operator? token.item with
        | none => simp only [chainFrom, hoperator]
        | some combine => exact absurd (h level (joins?_of_operator? hoperator)) (Nat.lt_irrefl _)
  · cases level with
    | primary => exact suffixes_of_stops h _ _ _ _
    | _ => first | rfl | exact absurd rfl hchain

/-- A phrase of a level is read, and the loop of the level stands after it. -/
def Reads (level : Level) (e : Expr) (tokens : Input) : Prop :=
  ∀ n rest, 4 * tokens.length + level.reserve ≤ n → Stops level.inner rest →
    ∃ k, level.fuel n ≤ k + tokens.length ∧
      level.parser n (tokens ++ rest) = level.loop n k e rest

theorem Reads.ok {level : Level} {e : Expr} {tokens : Input} (h : level.Reads e tokens) {n : Nat}
    (hn : 4 * tokens.length + level.reserve ≤ n) {rest : Input} (hrest : Stops level rest) :
    level.parser n (tokens ++ rest) = .ok (e, rest) := by
  obtain ⟨k, -, hk⟩ := h n rest hn (hrest.mono level.rank_le_inner)
  rw [hk, loop_of_stops hrest]

theorem Reads.of_inner {level : Level} (hchain : level.isChain = true) {e : Expr} {tokens : Input}
    (h : level.inner.Reads e tokens) (hpos : 0 < tokens.length) : level.Reads e tokens := by
  intro n rest hn hrest
  have hinner := h.ok (reserve_inner_le hn) hrest
  refine ⟨level.fuel n, by omega, ?_⟩
  rw [parser_eq_chain hchain (by omega), loop_eq_chainFrom hchain]
  exact andThen_of_ok hinner

theorem Reads.join {level : Level} {combine : Expr → Expr → Expr} {l r : Expr}
    {left right : Input} {operator : Placed Token}
    (hoperator : level.operator? operator.item = some combine) (hl : level.Reads l left)
    (hr : level.inner.Reads r right) : level.Reads (combine l r) (left ++ operator :: right) := by
  intro n rest hn hrest
  have hchain := isChain_of_operator? hoperator
  have hstop : Stops level.inner (operator :: (right ++ rest)) := by
    refine stops_of_joins? (joins?_of_operator? hoperator) ?_ _
    rw [rank_of_next? (next?_of_isChain hchain)]
    omega
  rw [List.length_append, List.length_cons] at hn
  obtain ⟨k, hk, hparse⟩ := hl n _ (by omega) hstop
  have hright := hr.ok (n := level.fuel n) (reserve_inner_le (by omega)) hrest
  have hfuel := reserve_inner_le hn
  obtain ⟨k, rfl⟩ : ∃ k', k = k' + 1 := ⟨k - 1, by omega⟩
  refine ⟨k, by simp only [List.length_append, List.length_cons]; omega, ?_⟩
  rw [List.append_assoc, List.cons_append, hparse, loop_eq_chainFrom hchain,
    loop_eq_chainFrom hchain]
  simp only [chainFrom, hoperator]
  exact andThen_of_ok hright

theorem reads_of_ok {level : Level} {e : Expr} {tokens : Input} (hinner : level.inner = level)
    (h : ∀ n rest, 4 * tokens.length + level.reserve ≤ n → Stops level rest →
      level.parser n (tokens ++ rest) = .ok (e, rest)) : level.Reads e tokens := by
  intro n rest hn hrest
  rw [hinner] at hrest
  have hfuel : level.fuel n ≤ n := by cases level <;> simp only [fuel] <;> omega
  exact ⟨n, by omega, by rw [h n rest hn hrest, loop_of_stops hrest]⟩

end Level

/-! ## Items with commas between them -/

/-- Items that a relation gives the tokens of, with commas between them. -/
inductive Separated {α : Type} (reads : α → Input → Prop) : List α → Input → Prop where
  | one {a : α} {tokens : Input} (h : reads a tokens) : Separated reads [a] tokens
  | more {a : α} {as : List α} {tokens others : Input} (s : Span) (h : reads a tokens)
    (hs : Separated reads as others) :
    Separated reads (a :: as) (tokens ++ ⟨.comma, s⟩ :: others)

namespace Separated

variable {α : Type} {reads : α → Input → Prop} {as : List α} {tokens : Input}

theorem concat (h : Separated reads as tokens) {a : α} {last : Input} (s : Span)
    (hlast : reads a last) : Separated reads (as ++ [a]) (tokens ++ ⟨.comma, s⟩ :: last) := by
  induction h with
  | one h => exact .more s h (.one hlast)
  | more s' h _ ih => simpa using Separated.more s' h ih

theorem of_map {β : Type} {f : β → α} {bs : List β} (h : Separated reads (bs.map f) tokens) :
    Separated (fun b => reads (f b)) bs tokens := by
  generalize has : bs.map f = as at h
  induction h generalizing bs with
  | one h =>
    obtain ⟨b, rfl, rfl⟩ := List.map_eq_singleton_iff.1 has
    exact .one h
  | more s h _ ih =>
    obtain ⟨b, bs, rfl, rfl, hbs⟩ := List.map_eq_cons_iff.1 has
    exact .more s h (ih hbs)

theorem exists_first (h : Separated reads as tokens) :
    ∃ a first others, tokens = first ++ others ∧ reads a first := by
  cases h with
  | one h => exact ⟨_, tokens, [], by simp, h⟩
  | more s h _ => exact ⟨_, _, _, rfl, h⟩

theorem commaList_eq {item : Parser α} {bound : Nat}
    (hitem : ∀ a used t rest, reads a used → used.length ≤ bound → t.item.joins? = none →
      item (used ++ t :: rest) = .ok (a, t :: rest))
    (h : Separated reads as tokens) {k : Nat} (hk : tokens.length < k)
    (hbound : tokens.length ≤ bound)
    {t : Placed Token} (ht : t.item.joins? = none) (hcomma : t.item ≠ .comma) (rest : Input) :
    commaList item k (tokens ++ t :: rest) = .ok (as, t :: rest) := by
  induction h generalizing k with
  | one h =>
    obtain ⟨k, rfl⟩ : ∃ m, k = m + 1 := ⟨k - 1, by omega⟩
    rw [commaList, andThen_of_ok (hitem _ _ _ _ h hbound ht)]
    split
    · next heq =>
      cases heq
      exact absurd rfl hcomma
    · rfl
  | more s h hs ih =>
    simp only [List.length_append, List.length_cons] at hk hbound
    obtain ⟨k, rfl⟩ : ∃ m, k = m + 1 := ⟨k - 1, by omega⟩
    rw [List.append_assoc, List.cons_append, commaList,
      andThen_of_ok (hitem _ _ ⟨.comma, s⟩ _ h (by omega) rfl)]
    exact map_of_ok (ih (by omega) (by omega))

end Separated

/-! ## Phrases -/

/-- What it means that a phrase is read.  Only single items are asked for here. -/
def Phrase.Read : Phrase → Input → Prop
  | .expression level e, tokens => Opens level tokens ∧ level.Reads e tokens
  | .strings text, tokens =>
    (∃ first s more, tokens = ⟨.string first, s⟩ :: more) ∧
      ∀ rest, Stops .atom rest → moreStrings (tokens ++ rest) = (text, rest)
  | .comparisons cs, tokens =>
    (∀ rest, Stops .bitOr (tokens ++ rest)) ∧
      ∀ n k rest, 4 * tokens.length + 1 ≤ n → tokens.length ≤ k → Stops .comparison rest →
        Expression.comparisons (Level.bitOr.parser n) k (tokens ++ rest) = .ok (cs, rest)
  | .conditions cs, tokens =>
    (∀ s rest, Stops .orTest (tokens ++ ⟨.closeBracket, s⟩ :: rest)) ∧
      ∀ n k s rest, 4 * tokens.length + 3 ≤ n → tokens.length ≤ k →
        Expression.conditions (orTest n) k (tokens ++ ⟨.closeBracket, s⟩ :: rest) =
          .ok (cs, ⟨.closeBracket, s⟩ :: rest)
  | .optional value, tokens =>
    value = none ∧ tokens = [] ∨
      ∃ e, value = some e ∧ Opens .test tokens ∧ Level.test.Reads e tokens
  | .index e, tokens => ∀ n s rest, 4 * tokens.length + 4 ≤ n →
    Expression.index (test n) (tokens ++ ⟨.closeBracket, s⟩ :: rest) = .ok (e, rest)
  | .operand given, tokens =>
    (∃ t more, tokens = t :: more ∧ t.item ≠ .closeParen) ∧
      ∀ n t rest, 4 * tokens.length + 4 ≤ n → t.item.joins? = none →
        Expression.operand (test n) (tokens ++ t :: rest) = .ok (given, t :: rest)
  | .entry k v, tokens => ∃ key value s, tokens = key ++ ⟨.colon, s⟩ :: value ∧
    Opens .test key ∧ Level.test.Reads k key ∧ Level.test.Reads v value
  | .name word, tokens => ∃ s, tokens = [⟨.name word, s⟩]
  | .items _, _ => True

/-- What it means that a phrase is read, lists of items included. -/
def Phrase.Reads : Phrase → Input → Prop
  | .items phrases, tokens => Separated Phrase.Read phrases tokens
  | phrase, tokens => phrase.Read tokens

theorem Phrase.Reads.read {phrase : Phrase} {tokens : Input} (h : phrase.Reads tokens) :
    phrase.Read tokens := by
  cases phrase <;> first | exact h | trivial

/-! ## Literals and names -/

namespace Level

theorem reads_number (x : Float) (s : Span) : atom.Reads (.number x) [⟨.number x, s⟩] :=
  reads_of_ok rfl fun _ _ _ _ => rfl

theorem reads_bool_true (s : Span) : atom.Reads (.bool true) [⟨.true_, s⟩] :=
  reads_of_ok rfl fun _ _ _ _ => rfl

theorem reads_bool_false (s : Span) : atom.Reads (.bool false) [⟨.false_, s⟩] :=
  reads_of_ok rfl fun _ _ _ _ => rfl

theorem reads_none (s : Span) : atom.Reads .none [⟨.none_, s⟩] :=
  reads_of_ok rfl fun _ _ _ _ => rfl

theorem reads_name (x : String) (s : Span) : atom.Reads (.name x) [⟨.name x, s⟩] :=
  reads_of_ok rfl fun _ _ _ _ => rfl

end Level

theorem moreStrings_of_stops {rest : Input} (h : Stops .atom rest) :
    moreStrings rest = ("", rest) := by
  unfold moreStrings
  split
  · exact absurd (h .atom rfl) (by decide)
  · rfl

theorem Phrase.read_lastString (text : String) (s : Span) :
    (Phrase.strings text).Read [⟨.string text, s⟩] := by
  refine ⟨⟨text, s, [], rfl⟩, fun rest hrest => ?_⟩
  simp [moreStrings, moreStrings_of_stops hrest]

theorem Phrase.Read.moreStrings {more : String} {tokens : Input}
    (h : (Phrase.strings more).Read tokens) (text : String) (s : Span) :
    (Phrase.strings (text ++ more)).Read (⟨.string text, s⟩ :: tokens) := by
  refine ⟨⟨text, s, tokens, rfl⟩, fun rest hrest => ?_⟩
  simp [Expression.moreStrings, h.2 rest hrest]

theorem Phrase.Read.string {text : String} {tokens : Input}
    (h : (Phrase.strings text).Read tokens) : Level.atom.Reads (.string text) tokens := by
  refine Level.reads_of_ok rfl fun n rest _ hrest => ?_
  obtain ⟨⟨first, s, more, rfl⟩, hmore⟩ := h
  have hstrings := hmore rest hrest
  simp only [List.cons_append, Expression.moreStrings, Prod.mk.injEq] at hstrings
  obtain ⟨rfl, hrest⟩ := hstrings
  simp only [Level.parser, List.cons_append, atom, hrest]

/-! ## Displays -/

section Displays

variable {test orTest : Parser Expr} {n : Nat} {input : Input}

theorem parenthesized_of_opens (h : Opens .test input) : parenthesized test n input =
    andThen test (parenthesizedRest test n) input := by
  obtain ⟨t, rest, opened, rfl, ho, -⟩ := h
  unfold parenthesized
  split
  · next heq =>
    cases heq
    cases ho
  · rfl

theorem bracketed_of_opens (h : Opens .test input) : bracketed test orTest n input =
    andThen test (bracketedRest test orTest n) input := by
  obtain ⟨t, rest, opened, rfl, ho, -⟩ := h
  unfold bracketed
  split
  · next heq =>
    cases heq
    cases ho
  · rfl

theorem braced_of_opens (h : Opens .test input) : braced test n input =
    andThen test (bracedRest test n) input := by
  obtain ⟨t, rest, opened, rfl, ho, -⟩ := h
  unfold braced
  split
  · next heq =>
    cases heq
    cases ho
  · rfl

theorem parenthesizedRest_of_opens (h : Opens .test input) (first : Expr) (s : Span) :
    parenthesizedRest test n first (⟨.comma, s⟩ :: input) =
      map (fun items => .tuple (first :: items))
        (before isCloseParen (commaList test n)) input := by
  obtain ⟨t, rest, opened, rfl, ho, -⟩ := h
  unfold parenthesizedRest
  split
  · next heq => cases heq
  · next heq =>
    cases heq
    cases ho
  · next heq =>
    cases heq
    rfl
  · next hcomma => exact absurd rfl (hcomma _ _)

end Displays

theorem Level.Reads.before_token {e : Expr} {tokens : Input} (h : Level.test.Reads e tokens)
    {n : Nat} (hn : 4 * tokens.length + 4 ≤ n) {t : Placed Token} (ht : t.item.joins? = none)
    (rest : Input) : Expression.test n (tokens ++ t :: rest) = .ok (e, t :: rest) :=
  h.ok hn (stops_of_joins?_eq_none ht _ _)

/-- Expressions that are read, with commas between them. -/
abbrev ReadTests : List Expr → Input → Prop :=
  Separated fun e => (Phrase.expression .test e).Read

/-- Keys with values that are read, with commas between them. -/
abbrev ReadEntries : List (Expr × Expr) → Input → Prop :=
  Separated fun entry => (Phrase.entry entry.1 entry.2).Read

section Lists

variable {n k : Nat} {tokens : Input} {t : Placed Token}

theorem ReadTests.commaList {es : List Expr} (h : ReadTests es tokens)
    (hn : 4 * tokens.length + 4 ≤ n) (hk : tokens.length < k) (ht : t.item.joins? = none)
    (hcomma : t.item ≠ .comma) (rest : Input) :
    commaList (test n) k (tokens ++ t :: rest) = .ok (es, t :: rest) := by
  refine h.commaList_eq ?_ hk (Nat.le_refl _) ht hcomma rest
  intro e used t rest he hused ht
  exact he.2.before_token (by omega) ht rest

theorem entry_eq {key value : Expr} (h : (Phrase.entry key value).Read tokens)
    (hn : 4 * tokens.length + 4 ≤ n) (ht : t.item.joins? = none) (rest : Input) :
    entry (test n) (tokens ++ t :: rest) = .ok ((key, value), t :: rest) := by
  obtain ⟨keyTokens, valueTokens, s, rfl, -, hkey, hvalue⟩ := h
  simp only [List.length_append, List.length_cons] at hn
  have hbefore : before isColon (test n) (keyTokens ++ ⟨.colon, s⟩ :: (valueTokens ++ t :: rest)) =
      .ok (key, valueTokens ++ t :: rest) :=
    before_of_ok (hkey.before_token (by omega) rfl _) rfl
  rw [List.append_assoc, List.cons_append, entry, andThen_of_ok hbefore]
  exact map_of_ok (hvalue.before_token (by omega) ht rest)

theorem ReadEntries.commaList {entries : List (Expr × Expr)} (h : ReadEntries entries tokens)
    (hn : 4 * tokens.length + 4 ≤ n) (hk : tokens.length < k) (ht : t.item.joins? = none)
    (hcomma : t.item ≠ .comma) (rest : Input) :
    commaList (entry (test n)) k (tokens ++ t :: rest) = .ok (entries, t :: rest) := by
  refine h.commaList_eq ?_ hk (Nat.le_refl _) ht hcomma rest
  intro e used t rest he hused ht
  exact entry_eq he (by omega) ht rest

theorem ReadTests.opens {es : List Expr} (h : ReadTests es tokens) : Opens .test tokens := by
  obtain ⟨e, first, others, rfl, hfirst⟩ := h.exists_first
  exact hfirst.1.append others

end Lists

namespace Level

variable {e : Expr} {es : List Expr} {body more : Input}

theorem reads_emptyTuple (s s' : Span) :
    atom.Reads (.tuple []) [⟨.openParen, s⟩, ⟨.closeParen, s'⟩] :=
  reads_of_ok rfl fun _ _ _ _ => rfl

theorem reads_emptyList (s s' : Span) :
    atom.Reads (.list []) [⟨.openBracket, s⟩, ⟨.closeBracket, s'⟩] :=
  reads_of_ok rfl fun _ _ _ _ => rfl

theorem reads_emptyDict (s s' : Span) :
    atom.Reads (.dict []) [⟨.openBrace, s⟩, ⟨.closeBrace, s'⟩] :=
  reads_of_ok rfl fun _ _ _ _ => rfl

theorem reads_parenthesized (s s' : Span) (h : (Phrase.expression .test e).Read body) :
    atom.Reads e (⟨.openParen, s⟩ :: (body ++ [⟨.closeParen, s'⟩])) := by
  refine reads_of_ok rfl fun n rest hn _ => ?_
  simp only [List.length_cons, List.length_append] at hn
  simp only [List.cons_append, List.append_assoc, List.nil_append]
  show parenthesized _ n _ = _
  rw [parenthesized_of_opens (h.1.append _), andThen_of_ok (h.2.before_token (by omega) rfl _)]
  rfl

theorem reads_singleton (s s' s'' : Span) (h : (Phrase.expression .test e).Read body) :
    atom.Reads (.tuple [e]) (⟨.openParen, s⟩ :: (body ++ [⟨.comma, s'⟩, ⟨.closeParen, s''⟩])) := by
  refine reads_of_ok rfl fun n rest hn _ => ?_
  simp only [List.length_cons, List.length_append] at hn
  simp only [List.cons_append, List.append_assoc, List.nil_append]
  show parenthesized _ n _ = _
  rw [parenthesized_of_opens (h.1.append _), andThen_of_ok (h.2.before_token (by omega) rfl _)]
  rfl

theorem reads_tuple (s s' s'' : Span) (h : (Phrase.expression .test e).Read body)
    (hs : ReadTests es more) : atom.Reads (.tuple (e :: es))
      (⟨.openParen, s⟩ :: (body ++ ⟨.comma, s'⟩ :: (more ++ [⟨.closeParen, s''⟩]))) := by
  refine reads_of_ok rfl fun n rest hn _ => ?_
  simp only [List.length_cons, List.length_append] at hn
  simp only [List.cons_append, List.append_assoc, List.nil_append]
  have hitems := hs.commaList (n := n) (k := n) (t := ⟨.closeParen, s''⟩) (by omega) (by omega) rfl
    (by simp) rest
  show parenthesized _ n _ = _
  rw [parenthesized_of_opens (h.1.append _), andThen_of_ok (h.2.before_token (by omega) rfl _),
    parenthesizedRest_of_opens (hs.opens.append _)]
  exact map_of_ok (before_of_ok hitems rfl)

theorem reads_list (s s' : Span) (hs : ReadTests es body) :
    atom.Reads (.list es) (⟨.openBracket, s⟩ :: (body ++ [⟨.closeBracket, s'⟩])) := by
  refine reads_of_ok rfl fun n rest hn _ => ?_
  simp only [List.length_cons, List.length_append] at hn
  simp only [List.cons_append, List.append_assoc, List.nil_append]
  show bracketed _ _ n _ = _
  cases hs with
  | one h =>
    rw [bracketed_of_opens (h.1.append _), andThen_of_ok (h.2.before_token (by omega) rfl _)]
    rfl
  | more s'' h hs =>
    simp only [List.length_cons, List.length_append] at hn
    have hitems := ReadTests.commaList hs (n := n) (k := n) (t := ⟨.closeBracket, s'⟩) (by omega)
      (by omega) rfl (by simp) rest
    rw [List.append_assoc, bracketed_of_opens (h.1.append _), List.cons_append,
      andThen_of_ok (h.2.before_token (by omega) rfl _)]
    exact map_of_ok (before_of_ok hitems rfl)

theorem reads_set (s s' : Span) (hs : ReadTests es body) :
    atom.Reads (.set es) (⟨.openBrace, s⟩ :: (body ++ [⟨.closeBrace, s'⟩])) := by
  refine reads_of_ok rfl fun n rest hn _ => ?_
  simp only [List.length_cons, List.length_append] at hn
  simp only [List.cons_append, List.append_assoc, List.nil_append]
  show braced _ n _ = _
  cases hs with
  | one h =>
    rw [braced_of_opens (h.1.append _), andThen_of_ok (h.2.before_token (by omega) rfl _)]
    rfl
  | more s'' h hs =>
    simp only [List.length_cons, List.length_append] at hn
    have hitems := ReadTests.commaList hs (n := n) (k := n) (t := ⟨.closeBrace, s'⟩) (by omega)
      (by omega) rfl (by simp) rest
    rw [List.append_assoc, braced_of_opens (h.1.append _), List.cons_append,
      andThen_of_ok (h.2.before_token (by omega) rfl _)]
    exact map_of_ok (before_of_ok hitems rfl)

/-- The first entry of a mapping is read in two steps, up to its colon and from there. -/
theorem braced_of_entry {n : Nat} {entry : Expr × Expr} {tokens : Input}
    (h : (Phrase.entry entry.1 entry.2).Read tokens) (hn : 4 * tokens.length + 4 ≤ n)
    {t : Placed Token} (ht : t.item.joins? = none) (rest : Input) :
    braced (Expression.test n) n (tokens ++ t :: rest) =
      dictRest (Expression.test n) n entry (t :: rest) := by
  obtain ⟨key, value, s, rfl, hopens, hkey, hvalue⟩ := h
  simp only [List.length_append, List.length_cons] at hn
  rw [List.append_assoc, braced_of_opens (hopens.append _), List.cons_append,
    andThen_of_ok (hkey.before_token (by omega) rfl _)]
  exact andThen_of_ok (hvalue.before_token (by omega) ht rest)

theorem reads_dict (s s' : Span) {entries : List (Expr × Expr)} (hs : ReadEntries entries body) :
    atom.Reads (.dict entries) (⟨.openBrace, s⟩ :: (body ++ [⟨.closeBrace, s'⟩])) := by
  refine reads_of_ok rfl fun n rest hn _ => ?_
  simp only [List.length_cons, List.length_append] at hn
  simp only [List.cons_append, List.append_assoc, List.nil_append]
  show braced _ n _ = _
  cases hs with
  | one h =>
    rw [braced_of_entry h (by omega) rfl]
    rfl
  | more s'' h hs =>
    simp only [List.length_cons, List.length_append] at hn
    have hitems := ReadEntries.commaList hs (n := n) (k := n) (t := ⟨.closeBrace, s'⟩) (by omega)
      (by omega) rfl (by simp) rest
    rw [List.append_assoc, List.cons_append, braced_of_entry h (by omega) rfl]
    exact map_of_ok (before_of_ok hitems rfl)

theorem reads_comprehension (target : String) (s₁ s₂ s₃ s₄ s₅ : Span) {i : Expr} {cs : List Expr}
    {element source conditions : Input} (he : (Phrase.expression .test e).Read element)
    (hi : orTest.Reads i source) (hc : (Phrase.conditions cs).Read conditions) :
    atom.Reads (.comprehension e target i cs)
      (⟨.openBracket, s₁⟩ :: (element ++ ⟨.for_, s₂⟩ :: ⟨.name target, s₃⟩ :: ⟨.in_, s₄⟩ ::
        (source ++ (conditions ++ [⟨.closeBracket, s₅⟩])))) := by
  refine reads_of_ok rfl fun n rest hn _ => ?_
  simp only [List.length_cons, List.length_append] at hn
  simp only [List.cons_append, List.append_assoc, List.nil_append]
  have hsource : Expression.orTest n (source ++ (conditions ++ ⟨.closeBracket, s₅⟩ :: rest)) =
      .ok (i, conditions ++ ⟨.closeBracket, s₅⟩ :: rest) :=
    hi.ok (n := n) (by simp only [reserve]; omega) (hc.1 s₅ rest)
  have hconditions := hc.2 n n s₅ rest (by omega) (by omega)
  show bracketed _ _ n _ = _
  rw [bracketed_of_opens (he.1.append _), andThen_of_ok (he.2.before_token (by omega) rfl _)]
  show comprehension _ n e (⟨.name target, s₃⟩ :: ⟨.in_, s₄⟩ :: _) = _
  have hname : before isIn name (⟨.name target, s₃⟩ :: ⟨.in_, s₄⟩ ::
        (source ++ (conditions ++ ⟨.closeBracket, s₅⟩ :: rest))) =
      .ok (target, source ++ (conditions ++ ⟨.closeBracket, s₅⟩ :: rest)) := rfl
  rw [comprehension, andThen_of_ok hname, andThen_of_ok hsource]
  exact map_of_ok (before_of_ok hconditions rfl)

end Level

theorem Phrase.read_noCondition : (Phrase.conditions []).Read [] := by
  refine ⟨fun s rest => stops_of_joins?_eq_none rfl _ _, fun n k s rest _ _ => ?_⟩
  cases k <;> rfl

theorem Phrase.Read.condition {e : Expr} {cs : List Expr} {tokens more : Input} (s : Span)
    (h : Level.orTest.Reads e tokens) (hs : (Phrase.conditions cs).Read more) :
    (Phrase.conditions (e :: cs)).Read (⟨.if_, s⟩ :: (tokens ++ more)) := by
  refine ⟨fun s rest => stops_of_joins? rfl (by decide) _, fun n k s' rest hn hk => ?_⟩
  simp only [List.length_cons, List.length_append] at hn hk
  obtain ⟨k, rfl⟩ : ∃ m, k = m + 1 := ⟨k - 1, by omega⟩
  have hcondition : orTest n (tokens ++ (more ++ ⟨.closeBracket, s'⟩ :: rest)) =
      .ok (e, more ++ ⟨.closeBracket, s'⟩ :: rest) :=
    h.ok (n := n) (by simp only [Level.reserve]; omega) (hs.1 s' rest)
  rw [List.cons_append, List.append_assoc]
  simp only [Expression.conditions, andThen_of_ok hcondition]
  exact map_of_ok (hs.2 n k s' rest (by omega) (by omega))

end CallScript.Expression
