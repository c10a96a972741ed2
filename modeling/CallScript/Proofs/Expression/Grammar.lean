import CallScript.Expression.Parser

/-!
# The grammar of expressions

`Derives` is the grammar with the trees it gives: each constructor is one production, or one shape
of production that several levels share.  Precedence is told by two facts about single tokens.
`Token.opens?` is the tightest level that a token can start, and every phrase starts with a token
that opens its level (`Derives.opens`).  `Token.joins?` is the level at which a token continues what
stands before it; `Stops level rest` says that the tokens after a phrase do not continue it.
-/

namespace CallScript.Expression

/-! ## Levels -/

/-- The nonterminals that stand for expressions, from the loosest to the tightest. -/
inductive Level where
  | input
  | test
  | orTest
  | andTest
  | notTest
  | comparison
  | bitOr
  | bitXor
  | bitAnd
  | shift
  | sum
  | product
  | factor
  | power
  | primary
  | atom
deriving DecidableEq

namespace Level

/-- The place of a level among the levels. -/
def rank : Level → Nat
  | .input => 0
  | .test => 1
  | .orTest => 2
  | .andTest => 3
  | .notTest => 4
  | .comparison => 5
  | .bitOr => 6
  | .bitXor => 7
  | .bitAnd => 8
  | .shift => 9
  | .sum => 10
  | .product => 11
  | .factor => 12
  | .power => 13
  | .primary => 14
  | .atom => 15

/-- The level that binds next tighter: its phrases are phrases of the level. -/
def next? : Level → Option Level
  | .input => some .test
  | .test => some .orTest
  | .orTest => some .andTest
  | .andTest => some .notTest
  | .notTest => some .comparison
  | .comparison => some .bitOr
  | .bitOr => some .bitXor
  | .bitXor => some .bitAnd
  | .bitAnd => some .shift
  | .shift => some .sum
  | .sum => some .product
  | .product => some .factor
  | .factor => some .power
  | .power => some .primary
  | .primary => some .atom
  | .atom => none

/-- The operators that join a phrase of a level and one of the next tighter level to a phrase of the
level: these levels go to the left. -/
def operator? : Level → Token → Option (Expr → Expr → Expr)
  | .orTest, .or_ => some (.boolean .or)
  | .andTest, .and_ => some (.boolean .and)
  | .bitOr, .pipe => some (.binary .bitOr)
  | .bitXor, .caret => some (.binary .bitXor)
  | .bitAnd, .ampersand => some (.binary .bitAnd)
  | .shift, .shiftLeft => some (.binary .shiftLeft)
  | .shift, .shiftRight => some (.binary .shiftRight)
  | .sum, .plus => some (.binary .add)
  | .sum, .minus => some (.binary .sub)
  | .product, .star => some (.binary .mul)
  | .product, .slash => some (.binary .div)
  | .product, .doubleSlash => some (.binary .floorDiv)
  | .product, .percent => some (.binary .mod)
  | .product, .at_ => some (.binary .matMul)
  | _, _ => none

theorem rank_of_next? {level tighter : Level} (h : level.next? = some tighter) :
    tighter.rank = level.rank + 1 := by
  cases level <;> cases h <;> rfl

end Level

theorem orOperator_eq : orOperator = Level.orTest.operator? := by
  funext t
  cases t <;> rfl

theorem andOperator_eq : andOperator = Level.andTest.operator? := by
  funext t
  cases t <;> rfl

theorem bitOrOperator_eq : bitOrOperator = Level.bitOr.operator? := by
  funext t
  cases t <;> rfl

theorem bitXorOperator_eq : bitXorOperator = Level.bitXor.operator? := by
  funext t
  cases t <;> rfl

theorem bitAndOperator_eq : bitAndOperator = Level.bitAnd.operator? := by
  funext t
  cases t <;> rfl

theorem shiftOperator_eq : shiftOperator = Level.shift.operator? := by
  funext t
  cases t <;> rfl

theorem sumOperator_eq : sumOperator = Level.sum.operator? := by
  funext t
  cases t <;> rfl

theorem productOperator_eq : productOperator = Level.product.operator? := by
  funext t
  cases t <;> rfl

/-! ## Derivations -/

/-- The comparisons and the tokens they are written with. -/
inductive Comparison : CompareOp → Input → Prop where
  | equal (s : Span) : Comparison .equal [⟨.equalEqual, s⟩]
  | notEqual (s : Span) : Comparison .notEqual [⟨.notEqual, s⟩]
  | less (s : Span) : Comparison .less [⟨.less, s⟩]
  | lessEqual (s : Span) : Comparison .lessEqual [⟨.lessEqual, s⟩]
  | greater (s : Span) : Comparison .greater [⟨.greater, s⟩]
  | greaterEqual (s : Span) : Comparison .greaterEqual [⟨.greaterEqual, s⟩]
  | isIn (s : Span) : Comparison .isIn [⟨.in_, s⟩]
  | notIn (s s' : Span) : Comparison .notIn [⟨.not_, s⟩, ⟨.in_, s'⟩]
  | is (s : Span) : Comparison .is [⟨.is_, s⟩]
  | isNot (s s' : Span) : Comparison .isNot [⟨.is_, s⟩, ⟨.not_, s'⟩]

/-- What the grammar derives: a nonterminal and the value it stands for. -/
inductive Phrase where
  | expression (level : Level) (value : Expr)
  /-- One or more string literals. -/
  | strings (text : String)
  /-- One or more comparisons, each with its right operand. -/
  | comparisons (rest : List (CompareOp × Expr))
  /-- The conditions of a comprehension. -/
  | conditions (conditions : List Expr)
  /-- A part of a slice, which may be missing. -/
  | optional (value : Option Expr)
  /-- What stands between the brackets of a subscript. -/
  | index (value : Expr)
  | operand (operand : Operand)
  /-- A key and a value. -/
  | entry (key value : Expr)
  | name (name : String)
  /-- One or more phrases with commas between them. -/
  | items (phrases : List Phrase)

namespace Phrase

/-- One or more expressions with commas between them. -/
def tests (values : List Expr) : Phrase :=
  .items (values.map (.expression .test))

/-- One or more operands with commas between them. -/
def operands (operands : List Operand) : Phrase :=
  .items (operands.map .operand)

/-- One or more keys with values, with commas between them. -/
def entries (entries : List (Expr × Expr)) : Phrase :=
  .items (entries.map fun entry => .entry entry.1 entry.2)

/-- One or more names with commas between them. -/
def names (names : List String) : Phrase :=
  .items (names.map .name)

end Phrase

/-- The tokens a phrase consists of, by the productions of the grammar. -/
inductive Derives : Phrase → Input → Prop where
  | unit {level tighter : Level} {e : Expr} {tokens : Input} (hnext : level.next? = some tighter)
    (h : Derives (.expression tighter e) tokens) : Derives (.expression level e) tokens
  | join {level tighter : Level} {combine : Expr → Expr → Expr} {l r : Expr} {left right : Input}
    {operator : Placed Token} (hnext : level.next? = some tighter)
    (hoperator : level.operator? operator.item = some combine)
    (hl : Derives (.expression level l) left) (hr : Derives (.expression tighter r) right) :
    Derives (.expression level (combine l r)) (left ++ operator :: right)
  -- whole expressions, conditional expressions and lambdas
  | assign (target : String) (s s' : Span) {e : Expr} {tokens : Input}
    (h : Derives (.expression .test e) tokens) :
    Derives (.expression .input (.assign target e))
      (⟨.name target, s⟩ :: ⟨.equal, s'⟩ :: tokens)
  | conditional (s s' : Span) {b c e : Expr} {body condition orElse : Input}
    (hb : Derives (.expression .orTest b) body) (hc : Derives (.expression .orTest c) condition)
    (he : Derives (.expression .test e) orElse) :
    Derives (.expression .test (.conditional c b e))
      (body ++ ⟨.if_, s⟩ :: (condition ++ ⟨.else_, s'⟩ :: orElse))
  | emptyLambda (s s' : Span) {e : Expr} {tokens : Input}
    (h : Derives (.expression .test e) tokens) :
    Derives (.expression .test (.lambda [] e)) (⟨.lambda_, s⟩ :: ⟨.colon, s'⟩ :: tokens)
  | lambda (s s' : Span) {names : List String} {e : Expr} {parameters tokens : Input}
    (hn : Derives (.names names) parameters) (h : Derives (.expression .test e) tokens) :
    Derives (.expression .test (.lambda names e))
      (⟨.lambda_, s⟩ :: (parameters ++ ⟨.colon, s'⟩ :: tokens))
  -- negations and comparisons
  | not (s : Span) {e : Expr} {tokens : Input} (h : Derives (.expression .notTest e) tokens) :
    Derives (.expression .notTest (.unary .not e)) (⟨.not_, s⟩ :: tokens)
  | compare {e : Expr} {rest : List (CompareOp × Expr)} {left right : Input}
    (hl : Derives (.expression .bitOr e) left) (hr : Derives (.comparisons rest) right) :
    Derives (.expression .comparison (.compare e rest)) (left ++ right)
  | lastComparison {op : CompareOp} {e : Expr} {sign tokens : Input} (hop : Comparison op sign)
    (h : Derives (.expression .bitOr e) tokens) :
    Derives (.comparisons [(op, e)]) (sign ++ tokens)
  | moreComparisons {op : CompareOp} {e : Expr} {rest : List (CompareOp × Expr)}
    {sign tokens more : Input} (hop : Comparison op sign)
    (h : Derives (.expression .bitOr e) tokens) (hs : Derives (.comparisons rest) more) :
    Derives (.comparisons ((op, e) :: rest)) (sign ++ (tokens ++ more))
  -- signs and powers
  | negative (s : Span) {e : Expr} {tokens : Input} (h : Derives (.expression .factor e) tokens) :
    Derives (.expression .factor (.unary .neg e)) (⟨.minus, s⟩ :: tokens)
  | positive (s : Span) {e : Expr} {tokens : Input} (h : Derives (.expression .factor e) tokens) :
    Derives (.expression .factor (.unary .pos e)) (⟨.plus, s⟩ :: tokens)
  | inverted (s : Span) {e : Expr} {tokens : Input} (h : Derives (.expression .factor e) tokens) :
    Derives (.expression .factor (.unary .invert e)) (⟨.tilde, s⟩ :: tokens)
  | power (s : Span) {b e : Expr} {base exponent : Input}
    (hb : Derives (.expression .primary b) base) (he : Derives (.expression .factor e) exponent) :
    Derives (.expression .power (.binary .pow b e)) (base ++ ⟨.doubleStar, s⟩ :: exponent)
  -- calls, subscripts and attributes
  | emptyCall (s s' : Span) {f : Expr} {tokens : Input}
    (h : Derives (.expression .primary f) tokens) :
    Derives (.expression .primary (.call f [])) (tokens ++ [⟨.openParen, s⟩, ⟨.closeParen, s'⟩])
  | call (s s' : Span) {f : Expr} {given : List Operand} {tokens body : Input}
    (h : Derives (.expression .primary f) tokens) (hg : Derives (.operands given) body) :
    Derives (.expression .primary (.call f given))
      (tokens ++ ⟨.openParen, s⟩ :: (body ++ [⟨.closeParen, s'⟩]))
  | subscript (s s' : Span) {v i : Expr} {tokens body : Input}
    (h : Derives (.expression .primary v) tokens) (hi : Derives (.index i) body) :
    Derives (.expression .primary (.subscript v i))
      (tokens ++ ⟨.openBracket, s⟩ :: (body ++ [⟨.closeBracket, s'⟩]))
  | member (field : String) (s s' : Span) {v : Expr} {tokens : Input}
    (h : Derives (.expression .primary v) tokens) :
    Derives (.expression .primary (.member v field)) (tokens ++ [⟨.dot, s⟩, ⟨.name field, s'⟩])
  | positional {e : Expr} {tokens : Input} (h : Derives (.expression .test e) tokens) :
    Derives (.operand (.positional e)) tokens
  | keyword (word : String) (s s' : Span) {e : Expr} {tokens : Input}
    (h : Derives (.expression .test e) tokens) :
    Derives (.operand (.keyword word e)) (⟨.name word, s⟩ :: ⟨.equal, s'⟩ :: tokens)
  | starred (s : Span) {e : Expr} {tokens : Input} (h : Derives (.expression .test e) tokens) :
    Derives (.operand (.starred e)) (⟨.star, s⟩ :: tokens)
  | doubleStarred (s : Span) {e : Expr} {tokens : Input}
    (h : Derives (.expression .test e) tokens) :
    Derives (.operand (.doubleStarred e)) (⟨.doubleStar, s⟩ :: tokens)
  | plainIndex {e : Expr} {tokens : Input} (h : Derives (.expression .test e) tokens) :
    Derives (.index e) tokens
  | slice (s : Span) {l u : Option Expr} {lower upper : Input} (hl : Derives (.optional l) lower)
    (hu : Derives (.optional u) upper) :
    Derives (.index (.slice l u none)) (lower ++ ⟨.colon, s⟩ :: upper)
  | steppedSlice (s s' : Span) {l u t : Option Expr} {lower upper step : Input}
    (hl : Derives (.optional l) lower) (hu : Derives (.optional u) upper)
    (ht : Derives (.optional t) step) :
    Derives (.index (.slice l u t)) (lower ++ ⟨.colon, s⟩ :: (upper ++ ⟨.colon, s'⟩ :: step))
  | missing : Derives (.optional none) []
  | present {e : Expr} {tokens : Input} (h : Derives (.expression .test e) tokens) :
    Derives (.optional (some e)) tokens
  -- literals and names
  | number (x : Float) (s : Span) : Derives (.expression .atom (.number x)) [⟨.number x, s⟩]
  | string {text : String} {tokens : Input} (h : Derives (.strings text) tokens) :
    Derives (.expression .atom (.string text)) tokens
  | true_ (s : Span) : Derives (.expression .atom (.bool true)) [⟨.true_, s⟩]
  | false_ (s : Span) : Derives (.expression .atom (.bool false)) [⟨.false_, s⟩]
  | none_ (s : Span) : Derives (.expression .atom .none) [⟨.none_, s⟩]
  | variable_ (x : String) (s : Span) : Derives (.expression .atom (.name x)) [⟨.name x, s⟩]
  | lastString (text : String) (s : Span) : Derives (.strings text) [⟨.string text, s⟩]
  | moreStrings (text : String) (s : Span) {more : String} {tokens : Input}
    (h : Derives (.strings more) tokens) :
    Derives (.strings (text ++ more)) (⟨.string text, s⟩ :: tokens)
  -- displays
  | emptyTuple (s s' : Span) :
    Derives (.expression .atom (.tuple [])) [⟨.openParen, s⟩, ⟨.closeParen, s'⟩]
  | parenthesized (s s' : Span) {e : Expr} {body : Input} (h : Derives (.expression .test e) body) :
    Derives (.expression .atom e) (⟨.openParen, s⟩ :: (body ++ [⟨.closeParen, s'⟩]))
  | singleton (s s' s'' : Span) {e : Expr} {body : Input} (h : Derives (.expression .test e) body) :
    Derives (.expression .atom (.tuple [e]))
      (⟨.openParen, s⟩ :: (body ++ [⟨.comma, s'⟩, ⟨.closeParen, s''⟩]))
  | tuple (s s' s'' : Span) {e : Expr} {es : List Expr} {body more : Input}
    (h : Derives (.expression .test e) body) (hs : Derives (.tests es) more) :
    Derives (.expression .atom (.tuple (e :: es)))
      (⟨.openParen, s⟩ :: (body ++ ⟨.comma, s'⟩ :: (more ++ [⟨.closeParen, s''⟩])))
  | emptyList (s s' : Span) :
    Derives (.expression .atom (.list [])) [⟨.openBracket, s⟩, ⟨.closeBracket, s'⟩]
  | list (s s' : Span) {es : List Expr} {body : Input} (hs : Derives (.tests es) body) :
    Derives (.expression .atom (.list es)) (⟨.openBracket, s⟩ :: (body ++ [⟨.closeBracket, s'⟩]))
  | comprehension (target : String) (s₁ s₂ s₃ s₄ s₅ : Span) {e i : Expr} {cs : List Expr}
    {element source conditions : Input} (he : Derives (.expression .test e) element)
    (hi : Derives (.expression .orTest i) source) (hc : Derives (.conditions cs) conditions) :
    Derives (.expression .atom (.comprehension e target i cs))
      (⟨.openBracket, s₁⟩ :: (element ++ ⟨.for_, s₂⟩ :: ⟨.name target, s₃⟩ :: ⟨.in_, s₄⟩ ::
        (source ++ (conditions ++ [⟨.closeBracket, s₅⟩]))))
  | noCondition : Derives (.conditions []) []
  | condition (s : Span) {e : Expr} {cs : List Expr} {tokens more : Input}
    (h : Derives (.expression .orTest e) tokens) (hs : Derives (.conditions cs) more) :
    Derives (.conditions (e :: cs)) (⟨.if_, s⟩ :: (tokens ++ more))
  | emptyDict (s s' : Span) :
    Derives (.expression .atom (.dict [])) [⟨.openBrace, s⟩, ⟨.closeBrace, s'⟩]
  | dict (s s' : Span) {entries : List (Expr × Expr)} {body : Input}
    (hs : Derives (.entries entries) body) :
    Derives (.expression .atom (.dict entries)) (⟨.openBrace, s⟩ :: (body ++ [⟨.closeBrace, s'⟩]))
  | set (s s' : Span) {es : List Expr} {body : Input} (hs : Derives (.tests es) body) :
    Derives (.expression .atom (.set es)) (⟨.openBrace, s⟩ :: (body ++ [⟨.closeBrace, s'⟩]))
  | entry (s : Span) {k v : Expr} {key value : Input} (hk : Derives (.expression .test k) key)
    (hv : Derives (.expression .test v) value) :
    Derives (.entry k v) (key ++ ⟨.colon, s⟩ :: value)
  | name (word : String) (s : Span) : Derives (.name word) [⟨.name word, s⟩]
  -- items with commas between them
  | firstItem {phrase : Phrase} {tokens : Input} (h : Derives phrase tokens) :
    Derives (.items [phrase]) tokens
  | nextItem (s : Span) {phrases : List Phrase} {phrase : Phrase} {before tokens : Input}
    (hs : Derives (.items phrases) before) (h : Derives phrase tokens) :
    Derives (.items (phrases ++ [phrase])) (before ++ ⟨.comma, s⟩ :: tokens)

/-! ## Precedence of tokens -/

/-- The tightest level that a token starts phrases of. -/
def Token.opens? : Token → Option Level
  | .number _ | .string _ | .true_ | .false_ | .none_ | .name _ => some .atom
  | .openParen | .openBracket | .openBrace => some .atom
  | .minus | .plus | .tilde => some .factor
  | .not_ => some .notTest
  | .lambda_ => some .test
  | _ => none

/-- The level at which a token continues what stands before it. -/
def Token.joins? : Token → Option Level
  | .equal => some .input
  | .if_ => some .test
  | .or_ => some .orTest
  | .and_ => some .andTest
  | .equalEqual | .notEqual | .less | .lessEqual | .greater | .greaterEqual => some .comparison
  | .in_ | .not_ | .is_ => some .comparison
  | .pipe => some .bitOr
  | .caret => some .bitXor
  | .ampersand => some .bitAnd
  | .shiftLeft | .shiftRight => some .shift
  | .plus | .minus => some .sum
  | .star | .slash | .doubleSlash | .percent | .at_ => some .product
  | .doubleStar => some .power
  | .openParen | .openBracket | .dot => some .primary
  | .string _ => some .atom
  | _ => none

theorem Level.joins?_of_operator? {level : Level} {token : Token} {combine : Expr → Expr → Expr}
    (h : level.operator? token = some combine) : token.joins? = some level := by
  unfold Level.operator? at h
  split at h <;> first | rfl | cases h

/-- Tokens that do not continue a phrase of a level: the first one is none that joins at that level
or a tighter one. -/
def Stops (level : Level) : Input → Prop
  | [] => True
  | token :: _ => ∀ joined, token.item.joins? = some joined → joined.rank < level.rank

theorem Stops.mono {level tighter : Level} (hle : level.rank ≤ tighter.rank) {rest : Input}
    (h : Stops level rest) : Stops tighter rest := by
  cases rest with
  | nil => trivial
  | cons token rest => exact fun joined hj => Nat.lt_of_lt_of_le (h joined hj) hle

theorem stops_of_joins?_eq_none {token : Placed Token} (h : token.item.joins? = none)
    (level : Level) (rest : Input) : Stops level (token :: rest) := by
  intro joined hj
  rw [h] at hj
  cases hj

theorem stops_of_joins? {token : Placed Token} {level looser : Level}
    (h : token.item.joins? = some looser) (hlt : looser.rank < level.rank) (rest : Input) :
    Stops level (token :: rest) := by
  intro joined hj
  rw [h] at hj
  cases hj
  exact hlt

/-- Tokens whose first one opens a level or a tighter one. -/
def Opens (level : Level) (tokens : Input) : Prop :=
  ∃ token rest opened, tokens = token :: rest ∧ token.item.opens? = some opened ∧
    level.rank ≤ opened.rank

theorem Opens.append {level : Level} {tokens : Input} (h : Opens level tokens) (more : Input) :
    Opens level (tokens ++ more) := by
  obtain ⟨token, rest, opened, rfl, ho, hle⟩ := h
  exact ⟨token, rest ++ more, opened, rfl, ho, hle⟩

theorem Opens.mono {level looser : Level} {tokens : Input} (h : Opens level tokens)
    (hle : looser.rank ≤ level.rank) : Opens looser tokens := by
  obtain ⟨token, rest, opened, rfl, ho, h⟩ := h
  exact ⟨token, rest, opened, rfl, ho, Nat.le_trans hle h⟩

theorem opens_cons {token : Placed Token} {level opened : Level}
    (ho : token.item.opens? = some opened) (hle : level.rank ≤ opened.rank) (rest : Input) :
    Opens level (token :: rest) :=
  ⟨token, rest, opened, rfl, ho, hle⟩

namespace Derives

theorem opens {level : Level} {e : Expr} {tokens : Input}
    (h : Derives (.expression level e) tokens) : Opens level tokens := by
  generalize hp : Phrase.expression level e = phrase at h
  induction h generalizing level e with
  | unit hnext _ ih =>
    cases hp
    exact (ih rfl).mono (by rw [Level.rank_of_next? hnext]; omega)
  | join _ _ _ _ ih _ =>
    cases hp
    exact (ih rfl).append _
  | conditional _ _ _ _ _ ih _ _ =>
    cases hp
    exact ((ih rfl).mono (by decide)).append _
  | compare _ _ ih _ =>
    cases hp
    exact ((ih rfl).mono (by decide)).append _
  | power _ _ _ ih _ =>
    cases hp
    exact ((ih rfl).mono (by decide)).append _
  | emptyCall _ _ _ ih | call _ _ _ _ ih _ | subscript _ _ _ _ ih _ | member _ _ _ _ ih =>
    cases hp
    exact (ih rfl).append _
  | string h =>
    cases hp
    cases h <;> exact opens_cons rfl (Nat.le_refl _) _
  | _ =>
    cases hp <;> exact opens_cons rfl (by decide) _

end Derives

end CallScript.Expression
