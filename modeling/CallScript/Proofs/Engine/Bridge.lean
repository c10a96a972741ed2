import CallScript.Engine.Stock
import CallScript.Proofs.Engine.Result
import CallScript.Proofs.Expression.Completeness
import CallScript.Proofs.Expression.Lexicon
import CallScript.Proofs.Program.Layout
import CallScript.Session

/-!
# Calls through expressions

A call with number literals, such as `f(1, -2.5)`, is both an expression and a call of a program.
The two readings go through scanners, grammars and trees of their own: `readExpression_callText` and
`Program.exists_parse_literals` say what each of them makes of the text.  A callable
that is given numbers as values does what it does with the same numbers as written arguments
(`Engine.callValues_numbers`), so that evaluating the text and making the call come to the same
(`Engine.evaluated_call_eq_direct`).
-/

namespace CallScript

open Pattern

/-! ## Number literals -/

/-- A numeral with an optional minus sign. -/
structure NumberLiteral where
  negative : Bool
  numeral : List Char
  wellFormed : numeral ∈ Pattern.numeral

namespace NumberLiteral

/-- The characters of a literal. -/
def chars (l : NumberLiteral) : List Char :=
  if l.negative then '-' :: l.numeral else l.numeral

/-- The number a literal stands for. -/
def value (l : NumberLiteral) : Float :=
  withSign l.negative (numeralValue l.numeral)

/-- The expression a literal is. -/
def expr (l : NumberLiteral) : Expr :=
  if l.negative then .unary .neg (.number (numeralValue l.numeral))
  else .number (numeralValue l.numeral)

/-- The tokens of the expression a literal is. -/
def tokens (l : NumberLiteral) : List Expression.Token :=
  if l.negative then [.minus, .number (numeralValue l.numeral)]
  else [.number (numeralValue l.numeral)]

theorem chars_mem (l : NumberLiteral) : l.chars ∈ (1 + sign) * Pattern.numeral := by
  unfold chars
  split
  · exact Language.mem_mul.2 ⟨['-'], .inr ⟨'-', .inr rfl, rfl⟩, l.numeral, l.wellFormed, rfl⟩
  · exact Language.mem_mul.2 ⟨[], .inl rfl, l.numeral, l.wellFormed, rfl⟩

end NumberLiteral

/-- A call of a name with number literals. -/
def callText (f : String) (literals : List NumberLiteral) : String :=
  f ++ "(" ++ String.ofList ([',', ' '].intercalate (literals.map NumberLiteral.chars)) ++ ")"

theorem toList_callText (f : String) (literals : List NumberLiteral) :
    (callText f literals).toList =
      f.toList ++ '(' :: ([',', ' '].intercalate (literals.map NumberLiteral.chars) ++ [')']) := by
  simp [callText]

theorem mem_intercalate {α : Type} {separator : List α} {parts : List (List α)} {a : α}
    (h : a ∈ separator.intercalate parts) : a ∈ separator ∨ ∃ part ∈ parts, a ∈ part := by
  induction parts with
  | nil => cases h
  | cons part parts ih =>
    cases parts with
    | nil => exact .inr ⟨part, List.mem_cons_self, by simpa using h⟩
    | cons other parts =>
      simp only [List.intercalate_cons_cons, List.append_assoc, List.mem_append] at h
      rcases h with h | h | h
      · exact .inr ⟨part, List.mem_cons_self, h⟩
      · exact .inl h
      · exact (ih h).imp_right fun ⟨found, hfound, ha⟩ => ⟨found, List.mem_cons_of_mem _ hfound, ha⟩

/-- A call with literals can stand in a string literal as it is. -/
theorem callText_mem_inside {f : String} (hf : f.toList ∈ word) (literals : List NumberLiteral) :
    (callText f literals).toList ∈ inside '\x22' := by
  refine mem_inside_of_forall fun c hc => ?_
  have hkind : Program.isPlainChar c = true ∨ c ∈ ['(', ')', ',', ' '] := by
    simp only [toList_callText, List.mem_append, List.mem_cons] at hc
    rcases hc with hc | rfl | hc | rfl | hc
    · exact .inl (Program.isPlainChar_of_word hf c hc)
    · exact .inr (by decide)
    · rcases mem_intercalate hc with hc | ⟨_, hpart, hc⟩
      · exact .inr (List.mem_of_mem_drop (i := 2) hc)
      · obtain ⟨l, -, rfl⟩ := List.mem_map.1 hpart
        exact .inl (Program.isPlainChar_of_number l.chars_mem c hc)
    · exact .inr (by decide)
    · cases hc
  refine ⟨?_, ?_, ?_⟩ <;> rintro rfl <;> exact absurd hkind (by decide)

/-! ## Scanning -/

/-- Before a text that has no character of the language at its front, a text of the language is
taken as it stands. -/
theorem Takes.apart {l : Language Char} {take : List Char → Option (List Char × List Char)}
    (h : Takes l take) {p : Char → Bool} (hl : ∀ text ∈ l, ∀ c ∈ text, p c = true)
    {text rest : List Char} (htext : text ∈ l) (hrest : Apart p rest) :
    take (text ++ rest) = some (text, rest) := by
  obtain ⟨extra, rest', htake⟩ := h.extend rest htext
  obtain ⟨hsplit, hmem⟩ := h.split htake
  rw [List.append_assoc] at hsplit
  have hsplit := List.append_cancel_left hsplit
  cases extra with
  | nil =>
    rw [htake, hsplit, List.append_nil, List.nil_append]
  | cons c extra =>
    have hc := hl _ hmem c (by simp)
    rw [hrest c (by rw [hsplit]; rfl)] at hc
    cases hc

theorem isPlainChar_of_numeral {text : List Char} (h : text ∈ Pattern.numeral) :
    ∀ c ∈ text, Program.isPlainChar c = true :=
  Program.isPlainChar_of_number (Language.mem_mul.2 ⟨[], .inl rfl, text, h, rfl⟩)

/-- A token that is a piece of a text has the longest text there. -/
theorem Lexicon.Fits.longest {τ : Type} {L : Lexicon τ} {text lexeme rest : List Char} {token : τ}
    {piece : Piece τ} (h : L.Fits text piece) (hpiece : piece = .token token lexeme rest) :
    L.Longest token lexeme rest := by
  subst hpiece
  exact h.2

namespace Lexicon.Consists

variable {τ : Type} {L : Lexicon τ}

/-- Texts with commas and blanks between them are cut where they meet. -/
theorem intercalate {α : Type} {text : α → List Char} {own : α → List τ} {p : Char → Bool}
    {comma : τ} (hown : ∀ a {rest : List Char} {items : List τ}, Apart p rest →
      L.Consists rest items → L.Consists (text a ++ rest) (own a ++ items))
    (hp : p ',' = false) (hcomma : ∀ cs, L.Longest comma [','] cs) (hblank : L.Separates [' '])
    {rest : List Char} {items : List τ} (hrest : Apart p rest) (h : L.Consists rest items)
    (as : List α) : L.Consists ([',', ' '].intercalate (as.map text) ++ rest)
      ([comma].intercalate (as.map own) ++ items) := by
  induction as with
  | nil => exact h
  | cons a as ih =>
    cases as with
    | nil => simpa using hown a hrest h
    | cons b as =>
      have hmore := (ih.gap hblank).token (hcomma _)
      simp only [List.map_cons, List.intercalate_cons_cons, List.append_assoc] at hmore ⊢
      exact hown a (apart_cons hp) hmore

end Lexicon.Consists

namespace Expression

theorem longest_word {text : String} (h : text.toList ∈ word) {rest : List Char}
    (hrest : Apart isNameChar rest) : lexicon.Longest (Token.ofWord text) text.toList rest := by
  obtain ⟨c, cs, htext, hc, hcs⟩ := mem_word.1 h
  obtain ⟨htake, hdrop⟩ := span_append hcs hrest
  have hpiece := piece_nameStart hc (cs ++ rest)
  rw [htake, hdrop, ← htext, String.ofList_toList] at hpiece
  exact (fits_piece c (cs ++ rest)).longest hpiece

theorem longest_name {name : String} (h : name.toList ∈ word)
    (hfree : ∀ token ∈ Token.keywords, token.text ≠ name) {rest : List Char}
    (hrest : Apart isNameChar rest) : lexicon.Longest (.name name) name.toList rest := by
  rw [← ofWord_of_ne hfree]
  exact longest_word h hrest

theorem longest_number {numeral rest : List Char} (h : numeral ∈ Pattern.numeral)
    (hrest : Apart Program.isPlainChar rest) :
    lexicon.Longest (.number (numeralValue numeral)) numeral rest := by
  have htake := takes_numeral.apart (fun _ => isPlainChar_of_numeral) h hrest
  obtain ⟨c, cs, rfl, hc⟩ := head_numeral h
  exact (fits_piece c (cs ++ rest)).longest (piece_numeral hc htake)

theorem separates_blank : lexicon.Separates [' '] := ⟨' ', rfl, rfl⟩

/-- A literal before what cannot continue it. -/
theorem consists_literal (l : NumberLiteral) {rest : List Char} {items : List Token}
    (hrest : Apart Program.isPlainChar rest) (h : lexicon.Consists rest items) :
    lexicon.Consists (l.chars ++ rest) (l.tokens ++ items) := by
  have hnumber := h.token (longest_number l.wellFormed hrest)
  have hminus : lexicon.Longest .minus ['-'] (l.numeral ++ rest) := (fits_piece '-' _).longest rfl
  have hsigned := hnumber.token hminus
  unfold NumberLiteral.chars NumberLiteral.tokens
  split
  · exact hsigned
  · exact hnumber

/-- The tokens of a call with literals. -/
def callTokens (f : String) (literals : List NumberLiteral) : List Token :=
  .name f :: .openParen ::
    ([Token.comma].intercalate (literals.map NumberLiteral.tokens) ++ [.closeParen])

theorem consists_callText {f : String} (hf : f.toList ∈ word)
    (hfree : ∀ token ∈ Token.keywords, token.text ≠ f) (literals : List NumberLiteral) :
    lexicon.Consists (callText f literals).toList (callTokens f literals) := by
  have hclose : lexicon.Consists [')'] [.closeParen] :=
    Lexicon.consists_nil.token ((fits_piece ')' _).longest rfl)
  have hliterals := hclose.intercalate consists_literal (by decide)
    (fun cs => (fits_piece ',' cs).longest rfl) separates_blank
    (apart_cons (by decide)) literals
  rw [toList_callText]
  exact (hliterals.token ((fits_piece '(' _).longest rfl)).token
    (longest_name hf hfree (apart_cons (by decide)))

theorem length_of_scan_callText {f : String} (hf : f.toList ∈ word)
    (hfree : ∀ token ∈ Token.keywords, token.text ≠ f) {literals : List NumberLiteral}
    {tokens : Input} (h : scan (callText f literals) = .ok tokens) :
    tokens.length = (callTokens f literals).length := by
  obtain ⟨found, hcut, hitems⟩ := consists_callText hf hfree literals 0
  have hscan := (Lexicon.scan_eq_ok_iff fits_piece _ _).2 hcut
  cases h.symm.trans hscan
  rw [← hitems, List.length_map]

theorem Level.eq_of_rank_eq {level other : Level} (h : level.rank = other.rank) :
    level = other := by
  cases level <;> cases other <;> first | rfl | cases h

/-- A phrase of a level is one of every looser level. -/
theorem Derives.loosen {level tighter : Level} {e : Expr} {tokens : Input}
    (h : Derives (.expression tighter e) tokens) (hle : level.rank ≤ tighter.rank) :
    Derives (.expression level e) tokens := by
  obtain ⟨n, hn⟩ := Nat.exists_eq_add_of_le hle
  induction n generalizing level with
  | zero => rwa [Level.eq_of_rank_eq hn.symm]
  | succ n ih =>
    cases hnext : level.next? with
    | some between =>
      have hrank := Level.rank_of_next? hnext
      exact .unit hnext (ih (by omega) (by omega))
    | none =>
      have hatom : level = .atom := by cases level <;> first | rfl | cases hnext
      have hlow : tighter.rank ≤ Level.atom.rank := by cases tighter <;> decide
      subst hatom
      omega

theorem derives_literal (l : NumberLiteral) {tokens : Input}
    (h : tokens.map Placed.item = l.tokens) : Derives (.expression .test l.expr) tokens := by
  have hnumber (s : Span) :
      Derives (.expression .factor (.number (numeralValue l.numeral))) [⟨.number _, s⟩] :=
    (Derives.number _ s).loosen (by decide)
  unfold NumberLiteral.tokens at h
  unfold NumberLiteral.expr
  split at h
  · next hneg =>
    obtain ⟨⟨_, s⟩, _, rfl, rfl, hrest⟩ := List.map_eq_cons_iff.1 h
    obtain ⟨⟨_, s'⟩, rfl, rfl⟩ := List.map_eq_singleton_iff.1 hrest
    rw [if_pos hneg]
    exact ((hnumber s').negative s).loosen (by decide)
  · next hneg =>
    obtain ⟨⟨_, s⟩, rfl, rfl⟩ := List.map_eq_singleton_iff.1 h
    rw [if_neg hneg]
    exact (hnumber s).loosen (by decide)

/-- The operands of a call with literals. -/
def operandsOf (literals : List NumberLiteral) : List Operand :=
  literals.map fun l => .positional l.expr

theorem derives_operands {literals : List NumberLiteral} (hne : literals ≠ []) {tokens : Input}
    (h : tokens.map Placed.item = [Token.comma].intercalate (literals.map NumberLiteral.tokens)) :
    Derives (.operands (operandsOf literals)) tokens := by
  induction literals generalizing tokens with
  | nil => exact absurd rfl hne
  | cons l literals ih =>
    cases literals with
    | nil =>
      rw [List.map_singleton, List.intercalate_singleton] at h
      exact .firstItem (.positional (derives_literal l h))
    | cons l' literals =>
      rw [List.map_cons, List.map_cons, List.intercalate_cons_cons] at h
      simp only [List.append_assoc, List.singleton_append] at h
      obtain ⟨own, _, rfl, hown, hrest⟩ := List.map_eq_append_iff.1 h
      obtain ⟨⟨_, s⟩, more, rfl, rfl, hmore⟩ := List.map_eq_cons_iff.1 hrest
      exact .item_cons (.positional (derives_literal l hown)) s (ih (by simp) hmore)

theorem derives_callTokens {f : String} {literals : List NumberLiteral} {tokens : Input}
    (h : tokens.map Placed.item = callTokens f literals) :
    Derives (.expression .input (.call (.name f) (operandsOf literals))) tokens := by
  obtain ⟨⟨_, s₁⟩, _, rfl, rfl, hopen⟩ := List.map_eq_cons_iff.1 h
  obtain ⟨⟨_, s₂⟩, _, rfl, rfl, hinner⟩ := List.map_eq_cons_iff.1 hopen
  obtain ⟨body, _, rfl, hbody, hclose⟩ := List.map_eq_append_iff.1 hinner
  obtain ⟨⟨_, s₃⟩, rfl, rfl⟩ := List.map_eq_singleton_iff.1 hclose
  have hname : Derives (.expression .primary (.name f)) [⟨.name f, s₁⟩] :=
    (Derives.variable_ f s₁).loosen (by decide)
  cases literals with
  | nil =>
    rw [List.map_nil, List.intercalate_nil, List.map_eq_nil_iff] at hbody
    subst hbody
    exact (Derives.emptyCall s₂ s₃ hname).loosen (by decide)
  | cons l literals =>
    exact (Derives.call s₂ s₃ hname (derives_operands (by simp) hbody)).loosen (by decide)

end Expression

theorem Operand.checkAll_operandsOf (literals : List NumberLiteral) :
    Operand.checkAll (Expression.operandsOf literals) = .ok () := by
  induction literals with
  | nil => rfl
  | cons l literals ih =>
    have hl : l.expr.check = .ok () := by
      unfold NumberLiteral.expr
      split <;> rfl
    simp only [Expression.operandsOf, List.map_cons, Operand.checkAll, hl]
    exact ih

/-- As an expression, a call with literals is a call of the name. -/
theorem readExpression_callText {f : String} (hf : f.toList ∈ word)
    (hfree : ∀ token ∈ Expression.Token.keywords, token.text ≠ f) {literals : List NumberLiteral}
    (hlimit : ∀ tokens, Expression.scan (callText f literals) = .ok tokens →
      tokens.length ≤ Expression.tokenLimit) :
    readExpression (callText f literals) =
      .ok (.call (.name f) (Expression.operandsOf literals)) := by
  obtain ⟨tokens, hcut, hitems⟩ := Expression.consists_callText hf hfree literals 0
  have hscan : Expression.scan (callText f literals) = .ok tokens :=
    (Lexicon.scan_eq_ok_iff Expression.fits_piece _ _).2 hcut
  have hfuel : 4 * tokens.length + 4 ≤ Expression.parseFuel tokens.length := by
    unfold Expression.parseFuel
    omega
  have hwhole := (Expression.whole_eq_ok_iff hfuel).2 (Expression.derives_callTokens hitems)
  have hparse : Expression.parse (callText f literals) =
      .ok (.call (.name f) (Expression.operandsOf literals)) := by
    rw [Expression.parse, hscan]
    exact Expression.parseTokens_eq_ok_iff_whole.2 ⟨hlimit tokens hscan, hwhole⟩
  rw [readExpression, hparse]
  simp only [Expr.check, Operand.checkAll_operandsOf]

namespace Program

theorem longest_name {name : String} (h : name.toList ∈ word) {rest : List Char}
    (hrest : Apart isNameChar rest) : lexicon.Longest (.name name) name.toList rest := by
  obtain ⟨c, cs, hname, hc, hcs⟩ := mem_word.1 h
  obtain ⟨htake, hdrop⟩ := span_append hcs hrest
  have hpiece := piece_nameStart hc (cs ++ rest)
  rw [htake, hdrop, ← hname, String.ofList_toList] at hpiece
  exact (fits_piece c (cs ++ rest)).longest hpiece

theorem longest_number {text rest : List Char} (h : text ∈ (1 + sign) * numeral)
    (hrest : Apart isPlainChar rest) :
    lexicon.Longest (.number (String.ofList text)) text rest := by
  have htake := takes_number.apart (fun _ => isPlainChar_of_number) h hrest
  obtain ⟨c, cs, rfl, hc⟩ := head_number h
  refine (fits_piece c (cs ++ rest)).longest ?_
  rw [piece_of_not_mem_specials (not_mem_specials rfl hc), if_neg (not_isGap rfl hc),
    if_neg (not_isNameStart_of_isNumberFront hc), ← List.cons_append, htake]

theorem longest_string {inner : List Char} (h : inner ∈ inside '\x22') (rest : List Char) :
    lexicon.Longest (.string (String.ofList ('\x22' :: (inner ++ ['\x22']))))
      ('\x22' :: (inner ++ ['\x22'])) rest := by
  refine (fits_piece '\x22' (inner ++ '\x22' :: rest)).longest ?_
  simp only [Token.piece, Piece.ofString, scanString_inside (by decide) h rest]

/-- The token of a literal. -/
def literalToken (l : NumberLiteral) : Token :=
  .number (String.ofList l.chars)

theorem consists_literal (l : NumberLiteral) {rest : List Char} {items : List Token}
    (hrest : Apart isPlainChar rest) (h : lexicon.Consists rest items) :
    lexicon.Consists (l.chars ++ rest) ([literalToken l] ++ items) :=
  h.token (longest_number l.chars_mem hrest)

theorem Derives.argument_cons {argument : Tree.Argument} {tokens : List (Placed Token)}
    (h : Derives (.argument argument) tokens) (s : Span) {arguments : List Tree.Argument}
    {more : List (Placed Token)} (hmore : Derives (.arguments arguments) more) :
    Derives (.arguments (argument :: arguments)) (tokens ++ ⟨.comma, s⟩ :: more) := by
  generalize hall : Phrase.arguments arguments = phrase at hmore
  induction hmore generalizing arguments with
  | firstArgument hlast =>
    cases hall
    exact .nextArgument s (.firstArgument h) hlast
  | nextArgument s' _ hlast ih _ =>
    cases hall
    simpa using Derives.nextArgument s' (ih rfl) hlast
  | _ => cases hall

theorem value_literal (l : NumberLiteral) (s : Span) :
    (⟨String.ofList l.chars, s⟩ : Lexeme).value = l.value := by
  have htake := takes_numeral.whole l.wellFormed
  obtain ⟨c, cs, hnumeral, hc⟩ := head_numeral l.wellFormed
  rw [hnumeral] at htake
  have hchars : l.chars = (if l.negative then ['-'] else []) ++ c :: cs := by
    rw [NumberLiteral.chars, hnumeral]
    cases l.negative <;> rfl
  rw [Lexeme.value, String.toList_ofList, hchars, readNumber_signed l.negative hc htake,
    Option.getD_some, NumberLiteral.value, hnumeral]

/-- The arguments of a call with literals. -/
def argumentsOf (literals : List NumberLiteral) : List Argument :=
  literals.map fun l => .number l.value

theorem exists_arguments {literals : List NumberLiteral} (hne : literals ≠ [])
    {tokens : List (Placed Token)} (h : tokens.map Placed.item =
      [Token.comma].intercalate (literals.map fun l => [literalToken l])) :
    ∃ trees, Derives (.arguments trees) tokens ∧ Tree.Argument.listNesting trees = 0 ∧
      Argument.listOfTree trees = argumentsOf literals := by
  induction literals generalizing tokens with
  | nil => exact absurd rfl hne
  | cons l literals ih =>
    have hnumber (s : Span) : Derives (.argument (.number ⟨String.ofList l.chars, s⟩))
        [⟨literalToken l, s⟩] := .number ⟨_, s⟩
    cases literals with
    | nil =>
      rw [List.map_singleton, List.intercalate_singleton] at h
      obtain ⟨⟨_, s⟩, rfl, rfl⟩ := List.map_eq_singleton_iff.1 h
      refine ⟨_, .firstArgument (hnumber s), rfl, ?_⟩
      simp only [Argument.listOfTree, Argument.ofTree, value_literal]
      rfl
    | cons l' literals =>
      rw [List.map_cons, List.map_cons, List.intercalate_cons_cons] at h
      simp only [List.singleton_append] at h
      obtain ⟨⟨_, s⟩, _, rfl, rfl, hrest⟩ := List.map_eq_cons_iff.1 h
      obtain ⟨⟨_, s'⟩, more, rfl, rfl, hmore⟩ := List.map_eq_cons_iff.1 hrest
      obtain ⟨trees, htrees, hnesting, heq⟩ := ih (by simp) hmore
      refine ⟨_, (hnumber s).argument_cons s' htrees, ?_, ?_⟩
      · simp [Tree.Argument.listNesting, Tree.Argument.nesting, hnesting]
      · simp only [Argument.listOfTree, Argument.ofTree, value_literal, heq]
        rfl

theorem consists_closing : lexicon.Consists [')', '\x7d'] [.closeParen, .closeBrace] := by
  have hbrace : lexicon.Consists ['\x7d'] [.closeBrace] :=
    Lexicon.consists_nil.token ((fits_piece '\x7d' _).longest rfl)
  exact hbrace.token ((fits_piece ')' _).longest rfl)

/-- A program that consists of one call. -/
def callProgram (f : String) (arguments : List Char) : String :=
  String.ofList ('\x7b' :: (f.toList ++ '(' :: (arguments ++ [')', '\x7d'])))

theorem callProgram_literals (f : String) (literals : List NumberLiteral) :
    callProgram f ([',', ' '].intercalate (literals.map NumberLiteral.chars)) =
      "\x7b" ++ callText f literals ++ "\x7d" := by
  apply String.toList_injective
  simp [callProgram, toList_callText]

theorem callProgram_string (text : String) :
    callProgram "ecl" ('\x22' :: (text.toList ++ ['\x22'])) =
      "\x7becl(\"" ++ text ++ "\")\x7d" := by
  apply String.toList_injective
  simp [callProgram]

/-- A program that consists of one call is parsed as that call, given what its arguments are. -/
theorem exists_parse_call {f : String} (hf : f.toList ∈ word) {text : List Char}
    {items : List Token} {arguments : List Argument}
    (htext : lexicon.Consists (text ++ [')', '\x7d']) (items ++ [.closeParen, .closeBrace]))
    (hcall : ∀ (s s₁ s₂ : Span) tokens, tokens.map Placed.item = items → ∃ tree,
      Derives (.call tree) (⟨.name f, s⟩ :: ⟨.openParen, s₁⟩ :: (tokens ++ [⟨.closeParen, s₂⟩])) ∧
      tree.nesting = 1 ∧ Call.ofTree tree = ⟨f, arguments⟩) :
    ∃ tree, parse (callProgram f text) = .ok tree ∧ Block.ofTree tree = ⟨[⟨f, arguments⟩]⟩ := by
  have hopen := htext.token ((fits_piece '(' _).longest rfl)
  have hname := hopen.token (longest_name hf (apart_cons (by decide)))
  obtain ⟨tokens, hcut, hitems⟩ := hname.token ((fits_piece '\x7b' _).longest rfl) 0
  have hscan : scan (callProgram f text) = .ok tokens := by
    refine (Lexicon.scan_eq_ok_iff fits_piece _ _).2 ?_
    rw [callProgram, String.toList_ofList]
    exact hcut
  obtain ⟨⟨_, s₁⟩, _, rfl, rfl, hrest⟩ := List.map_eq_cons_iff.1 hitems
  obtain ⟨⟨_, s₂⟩, _, rfl, rfl, hinner⟩ := List.map_eq_cons_iff.1 hrest
  obtain ⟨⟨_, s₃⟩, _, rfl, rfl, hparens⟩ := List.map_eq_cons_iff.1 hinner
  obtain ⟨body, _, rfl, hbody, hclose⟩ := List.map_eq_append_iff.1 hparens
  obtain ⟨⟨_, s₄⟩, _, rfl, rfl, hlast⟩ := List.map_eq_cons_iff.1 hclose
  obtain ⟨⟨_, s₅⟩, rfl, rfl⟩ := List.map_eq_singleton_iff.1 hlast
  obtain ⟨tree, hderives, hnesting, htree⟩ := hcall s₂ s₃ s₄ body hbody
  have hblock := Derives.block s₁ s₅ (.firstCall hderives)
  refine ⟨_, parse_eq_ok_iff.2 ⟨_, hscan, by simpa using hblock, ?_⟩, ?_⟩
  · simp [Tree.Block.nesting, Tree.Call.listNesting, hnesting, nestingLimit]
  · simp [Block.ofTree, Call.listOfTree, htree]

/-- As a program, a call with literals is a call with numbers. -/
theorem exists_parse_literals {f : String} (hf : f.toList ∈ word) (literals : List NumberLiteral) :
    ∃ tree, parse (callProgram f ([',', ' '].intercalate (literals.map NumberLiteral.chars))) =
      .ok tree ∧ Block.ofTree tree = ⟨[⟨f, argumentsOf literals⟩]⟩ := by
  refine exists_parse_call hf (consists_closing.intercalate consists_literal (by decide)
    (fun cs => (fits_piece ',' cs).longest rfl) (.inl ⟨' ', rfl, rfl⟩)
    (apart_cons (by decide)) literals) fun s s₁ s₂ tokens htokens => ?_
  cases literals with
  | nil =>
    rw [List.map_nil, List.intercalate_nil, List.map_eq_nil_iff] at htokens
    subst htokens
    exact ⟨_, .emptyCall ⟨f, s⟩ s₁ s₂, rfl, rfl⟩
  | cons l literals =>
    obtain ⟨trees, htrees, hnesting, heq⟩ := exists_arguments (by simp) htokens
    refine ⟨_, .call ⟨f, s⟩ s₁ s₂ htrees, ?_, ?_⟩
    · rw [Tree.Call.nesting, hnesting]
    · rw [Call.ofTree, heq]

/-- A call with one string literal. -/
theorem exists_parse_string {f : String} (hf : f.toList ∈ word) {inner : List Char}
    (h : inner ∈ inside '\x22') :
    ∃ tree, parse (callProgram f ('\x22' :: (inner ++ ['\x22']))) = .ok tree ∧
      Block.ofTree tree = ⟨[⟨f, [.string (String.ofList inner)]⟩]⟩ := by
  let literal := String.ofList ('\x22' :: (inner ++ ['\x22']))
  have htext : lexicon.Consists ('\x22' :: (inner ++ ['\x22']) ++ [')', '\x7d'])
      ([.string literal] ++ [.closeParen, .closeBrace]) :=
    consists_closing.token (longest_string h _)
  refine exists_parse_call hf htext fun s s₁ s₂ tokens htokens => ?_
  obtain ⟨⟨_, s₃⟩, rfl, rfl⟩ := List.map_eq_singleton_iff.1 htokens
  refine ⟨_, .call ⟨f, s⟩ s₁ s₂ (.firstArgument (.string ⟨literal, s₃⟩)), rfl, ?_⟩
  simp [Call.ofTree, Argument.listOfTree, Argument.ofTree, Lexeme.contents, literal]

end Program

/-! ## Calls with numbers -/

/-- A read hands no callable out without the name it was read under. -/
theorem Environment.get?_ne_callable {env : Environment} {name : String} {v : Value}
    (h : env.get? name = some v) (c : Callable) : v ≠ .callable c := by
  obtain ⟨stored, -, rfl⟩ := Option.map_eq_some_iff.1 h
  cases stored <;> rintro ⟨⟩

namespace Engine

variable (engine : Engine) (recur : Job → World → Outcome Value)

theorem loadFrom_numbers (frame : Frame) (loaded : List Value) (xs : List Float) (world : World) :
    loadFrom recur frame loaded (xs.map .number) world =
      .value (loaded.reverse ++ xs.map .number) world := by
  induction xs generalizing loaded with
  | nil => simp [loadFrom]
  | cons x xs ih => simp [loadFrom, load, ih]

theorem mapM_literalArgument (name : String) (xs : List Float) :
    (xs.map Value.number).mapM (literalArgument name) = .ok (xs.map Argument.number) := by
  induction xs with
  | nil => rfl
  | cons x xs ih =>
    rw [List.map_cons, List.mapM_cons, ih]
    rfl

/-- A callable does the same with numbers as values and as written arguments. -/
theorem callValues_numbers (frame : Frame) (name : String) (callable : Callable) (xs : List Float)
    (world : World) :
    callValues engine recur (some frame) name callable (xs.map .number) world =
      callWritten engine recur frame name callable (xs.map .number) world := by
  have hload : loadAll recur frame (xs.map .number) world = .value (xs.map .number) world :=
    loadFrom_numbers recur frame [] xs world
  cases callable with
  | builtin b => simp only [callValues, callWritten, performLiterals, mapM_literalArgument]
  | host kind display host =>
    cases kind with
    | special => simp only [callValues, callWritten, performLiterals, mapM_literalArgument]
    | contextual => simp only [callValues, callWritten, hload, Outcome.andThen_value]
    | pure => simp only [callValues, callWritten, hload, Outcome.andThen_value]
  | definition d => simp only [callValues, callWritten, List.isEmpty_map, List.length_map]

theorem evaluateAll_operandsOf (scope : Scope) (literals : List NumberLiteral) (world : World) :
    evaluateAll engine recur scope (Expression.operandsOf literals) world =
      .value ((literals.map NumberLiteral.value).map .number) world := by
  induction literals with
  | nil => rfl
  | cons l literals ih =>
    have hl : evaluate engine recur scope l.expr world = .value (.number l.value) world := by
      unfold NumberLiteral.expr NumberLiteral.value
      cases l.negative <;> rfl
    rw [Expression.operandsOf] at ih ⊢
    simp only [List.map_cons, evaluateAll, hl, ih, Outcome.andThen_value]

/-- Evaluating the text of a call with literals comes to the same as the call. -/
theorem evaluate_call_eq_invoke {frame : Frame} {f : String} {v : Value} {world : World}
    (hf : (world.environment frame.home).get? f = some v) (literals : List NumberLiteral) :
    evaluate engine recur (.frame frame) (.call (.name f) (Expression.operandsOf literals)) world =
      invoke engine recur frame ⟨f, Program.argumentsOf literals⟩ world := by
  have harguments : Program.argumentsOf literals =
      (literals.map NumberLiteral.value).map .number := by
    rw [List.map_map]
    rfl
  rw [invoke, Environment.find, hf]
  simp only [evaluate, Scope.lookup, hf, evaluateAll_operandsOf, Outcome.andThen_value]
  cases v with
  | function own c => simp only [Value.function?, Scope.frame?, callValues_numbers, harguments]
  | callable c => exact absurd rfl (Environment.get?_ne_callable hf c)
  | _ => rfl

/-- A call of the bridge with the text of a call comes to the same as that call. -/
theorem invoke_bridge {frame : Frame} {world : World}
    (hecl : (world.environment frame.home).get? "ecl" =
      some (.function "ecl" (.builtin .evaluate)))
    {text : String} {expr : Expr} (hread : readExpression text = .ok expr) :
    invoke engine engine.result frame ⟨"ecl", [.string text]⟩ world =
      evaluate engine engine.result (.frame frame) expr world := by
  have hstep := engine.step_result (.expression (.frame frame) expr) world
  rw [step] at hstep
  rw [invoke, Environment.find, hecl]
  simp only [callWritten, Builtin.procedure, Builtin.withExpression, perform, evaluateText, hread]
  rw [← hstep]
  cases evaluate engine engine.result (.frame frame) expr world <;> rfl

theorem result_single_call (frame : Frame) (call : Call) (world : World) :
    engine.result (.calls frame [call]) world =
      if world.depth < frame.maxDepth then
        (invoke engine engine.result frame call (world.atDepth (world.depth + 1))).afterwards
          fun world => world.atDepth (world.depth - 1)
      else .error (.stackOverflow frame.maxDepth) world := by
  rw [← step_result, step, runCalls]
  simp only [invokeAll]
  split
  · cases invoke engine engine.result frame call (world.atDepth (world.depth + 1)) <;> rfl
  · rfl

/-- Where `ecl` is the bridge and a name is bound, the call of the name with number literals and the
call of `ecl` with its text have the same outcome: the same value or error, and the same world after
it. -/
theorem evaluated_call_eq_direct {frame : Frame} {world : World} {f : String} {v : Value}
    (hecl : (world.environment frame.home).get? "ecl" =
      some (.function "ecl" (.builtin .evaluate)))
    (hf : (world.environment frame.home).get? f = some v) (hname : f.toList ∈ word)
    (hfree : ∀ token ∈ Expression.Token.keywords, token.text ≠ f) {literals : List NumberLiteral}
    (hlimit : ∀ tokens, Expression.scan (callText f literals) = .ok tokens →
      tokens.length ≤ Expression.tokenLimit) :
    ∃ direct evaluated call call',
      Program.parse ("\x7b" ++ callText f literals ++ "\x7d") = .ok direct ∧
      Program.parse ("\x7becl(\"" ++ callText f literals ++ "\")\x7d") = .ok evaluated ∧
      Block.ofTree direct = ⟨[call]⟩ ∧ call = ⟨f, literals.map fun l => .number l.value⟩ ∧
      Block.ofTree evaluated = ⟨[call']⟩ ∧ call' = ⟨"ecl", [.string (callText f literals)]⟩ ∧
      invoke engine engine.result frame call' world =
        invoke engine engine.result frame call world ∧
      engine.result (.calls frame [call']) world = engine.result (.calls frame [call]) world := by
  have hword : "ecl".toList ∈ word :=
    mem_word.2 ⟨'e', ['c', 'l'], rfl, rfl, by simp [isNameChar, isNameStart]⟩
  obtain ⟨direct, hdirect, hcall⟩ := Program.exists_parse_literals hname literals
  obtain ⟨evaluated, hevaluated, hcall'⟩ :=
    Program.exists_parse_string hword (callText_mem_inside hname literals)
  rw [Program.callProgram_literals] at hdirect
  rw [Program.callProgram_string] at hevaluated
  rw [String.ofList_toList] at hcall'
  have hread := readExpression_callText hname hfree hlimit
  -- The depth of nesting is no part of what either call depends on.
  have hinvoke (depth : Nat) :
      invoke engine engine.result frame ⟨"ecl", [.string (callText f literals)]⟩
          (world.atDepth depth) =
        invoke engine engine.result frame ⟨f, Program.argumentsOf literals⟩
          (world.atDepth depth) := by
    have hecl' : ((world.atDepth depth).environment frame.home).get? "ecl" =
      some (.function "ecl" (.builtin .evaluate)) := hecl
    have hf' : ((world.atDepth depth).environment frame.home).get? f = some v := hf
    rw [invoke_bridge engine hecl' hread, evaluate_call_eq_invoke engine engine.result hf' literals]
  refine ⟨direct, evaluated, _, _, hdirect, hevaluated, hcall, rfl, hcall', rfl,
    hinvoke world.depth, ?_⟩
  rw [result_single_call, result_single_call, hinvoke (world.depth + 1)]

theorem threeHalves_mem : ['1', '.', '5'] ∈ numeral := by
  have htake : takeNumeral? ['1', '.', '5'] = some (['1', '.', '5'], []) := rfl
  exact (takes_numeral.split htake).2

theorem two_mem : ['2'] ∈ numeral := by
  have htake : takeNumeral? ['2'] = some (['2'], []) := rfl
  exact (takes_numeral.split htake).2

/-- In a new session, `out(-1.5, 2)` prints its line directly and through `ecl`. -/
theorem evaluated_call_eq_direct_out :
    let session := Session.new .stock .captured 8
    let line := session.world.print .captured "-1.5 2.0"
    let literals : List NumberLiteral := [⟨true, _, threeHalves_mem⟩, ⟨false, _, two_mem⟩]
    let call : Call := ⟨"out", literals.map fun l => .number l.value⟩
    session.engine.result (.calls session.frame [call]) session.world = .value .none line ∧
      session.engine.result (.calls session.frame [⟨"ecl", [.string "out(-1.5, 2)"]⟩])
        session.world = .value .none line := by
  intro session line literals call
  have htext : callText "out" literals = "out(-1.5, 2)" := rfl
  have hname : "out".toList ∈ word :=
    mem_word.2 ⟨'o', ['u', 't'], rfl, rfl, by simp [isNameChar, isNameStart]⟩
  have hfree : ∀ token ∈ Expression.Token.keywords, token.text ≠ "out" := by decide
  have hlimit (tokens : Expression.Input)
      (h : Expression.scan (callText "out" literals) = .ok tokens) :
      tokens.length ≤ Expression.tokenLimit := by
    rw [Expression.length_of_scan_callText hname hfree h]
    decide
  have hline : Builtin.line [.number (withSign true (numeralValue ['1', '.', '5'])),
      .number (withSign false (numeralValue ['2']))] = "-1.5 2.0" := by decide +kernel
  have hdirect : session.engine.result (.calls session.frame [call]) session.world =
      .value .none line := by
    rw [result_single_call]
    simp only [line, ← hline]
    rfl
  have hecl : (session.world.environment session.frame.home).get? "ecl" =
      some (.function "ecl" (.builtin .evaluate)) := rfl
  have hout : (session.world.environment session.frame.home).get? "out" =
      some (.function "out" (.builtin .out)) := rfl
  obtain ⟨-, -, _, _, -, -, -, rfl, -, rfl, -, hsame⟩ :=
    session.engine.evaluated_call_eq_direct hecl hout hname hfree hlimit
  rw [htext] at hsame
  exact ⟨hdirect, hsame.trans hdirect⟩

end Engine

end CallScript
