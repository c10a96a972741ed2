import CallScript.Proofs.Expression.Lexicon
import CallScript.Proofs.Program.Rendering
import Mathlib.Algebra.Group.Nat.Even

/-!
# Literals are what their readers take them for

The scanners decide what a literal is, and other functions make a value of it later: number literals
are read as numbers, string literals lose their quotation marks, and escapes are resolved.  These
functions are given every literal that a scanner takes and none that they cannot read, so what they
do with other texts never happens (`literal_defaults_unused`).

A quotation mark inside of a string literal stands after an odd number of backslashes
(`Encloses.escaped`), and the closing one after an even number: each character and each escape of a
literal leaves the number of backslashes right before a place odd or even as it was
(`odd_backslashes_append`).
-/

namespace CallScript

open Pattern
open scoped Computability

/-! ## Numbers -/

theorem takeSign_number {text : List Char} (h : text ∈ (1 + sign) * numeral) :
    ∃ negative c cs, takeSign text = (negative, c :: cs) ∧ isMantissaChar c = true ∧
      c :: cs ∈ numeral := by
  obtain ⟨signs, hsigns, text, htext, rfl⟩ := Language.mem_mul.1 h
  obtain ⟨c, cs, rfl, hc⟩ := head_numeral htext
  rcases mem_one_add.1 hsigns with rfl | ⟨mark, rfl | rfl, rfl⟩
  · exact ⟨false, c, cs, takeSign_of_isMantissaChar hc cs, hc, htext⟩
  · exact ⟨false, c, cs, rfl, hc, htext⟩
  · exact ⟨true, c, cs, rfl, hc, htext⟩

/-- The text of a number token is read as a number. -/
theorem exists_readNumber {text : List Char} (h : text ∈ (1 + sign) * numeral) :
    ∃ x, readNumber text = some x ∧ x.isNaN = false := by
  obtain ⟨negative, c, cs, hsign, hc, hnumeral⟩ := takeSign_number h
  exact ⟨_, readNumber_of_takeSign hsign hc (takes_numeral.whole hnumeral),
    isNaN_withSign negative (Decimal.isNaN_toFloat _)⟩

/-- A numeral is read as the double nearest to it. -/
theorem readNumber_numeral {text : List Char} (h : text ∈ numeral) :
    readNumber text = some (numeralValue text) := by
  obtain ⟨c, cs, rfl, hc⟩ := head_numeral h
  exact readNumber_of_takeSign (takeSign_of_isMantissaChar hc cs) hc (takes_numeral.whole h)

/-! ## Backslashes -/

/-- How many backslashes a text ends with. -/
def backslashes (cs : List Char) : Nat :=
  (cs.reverse.takeWhile (· = '\\')).length

/-- A text that is put in front changes nothing if it ends with an even number of backslashes, even
where only backslashes follow it. -/
theorem odd_backslashes_append {front : List Char} (hfront : Even (backslashes front))
    (cs : List Char) : Odd (backslashes (front ++ cs)) ↔ Odd (backslashes cs) := by
  rw [backslashes, List.reverse_append, List.takeWhile_append]
  split
  · next hall =>
    have hcs : backslashes cs = cs.reverse.length := hall
    have hfront' : (front.reverse.takeWhile (· = '\\')).length = backslashes front := rfl
    rw [List.length_append, hfront', hcs, Nat.odd_add]
    exact iff_true_right hfront
  · rfl

theorem even_backslashes_append {front cs : List Char} (hfront : Even (backslashes front)) :
    Even (backslashes (front ++ cs)) ↔ Even (backslashes cs) := by
  rw [← Nat.not_odd_iff_even, ← Nat.not_odd_iff_even, odd_backslashes_append hfront]

theorem even_backslashes_plain {c : Char} (hc : c ≠ '\\') : Even (backslashes [c]) := by
  simp [backslashes, hc]

theorem even_backslashes_escape (c : Char) : Even (backslashes ['\\', c]) := by
  by_cases hc : c = '\\'
  · subst hc
    decide
  · simp [backslashes, hc]

/-! ## String literals -/

/-- A text that consists of quotation marks and what stands between them: characters of one line,
where each further mark is escaped and the last one is not. -/
structure Encloses (mark : Char) (text inner : List Char) : Prop where
  text_eq : text = mark :: (inner ++ [mark])
  line : '\n' ∉ inner
  escaped : ∀ before after, inner = before ++ mark :: after → Odd (backslashes before)
  closed : Even (backslashes inner)

/-- The characters and escapes that string literals are made of. -/
inductive StringUnit (mark : Char) : List Char → Prop where
  | plain {c : Char} (hmark : c ≠ mark) (hslash : c ≠ '\\') (hline : c ≠ '\n') : StringUnit mark [c]
  | escape {c : Char} (hline : c ≠ '\n') : StringUnit mark ['\\', c]

theorem stringUnit_of_mem {mark : Char} {unit : List Char}
    (h : unit ∈ oneOf (fun c => c ≠ mark ∧ c ≠ '\\' ∧ c ≠ '\n') +
      oneOf (· = '\\') * oneOf (· ≠ '\n')) : StringUnit mark unit := by
  rcases h with ⟨c, ⟨hmark, hslash, hline⟩, rfl⟩ | h
  · exact .plain hmark hslash hline
  · obtain ⟨_, _, rfl, rfl, c, hline, rfl⟩ := mem_oneOf_mul.1 h
    exact .escape hline

namespace StringUnit

variable {mark : Char} {unit : List Char}

theorem not_mem_line (h : StringUnit mark unit) : '\n' ∉ unit := by
  cases h with
  | plain _ _ hline => simpa using hline.symm
  | escape hline => simpa using hline.symm

theorem even_backslashes (h : StringUnit mark unit) : Even (backslashes unit) := by
  cases h with
  | plain _ hslash _ => exact even_backslashes_plain hslash
  | escape _ => exact even_backslashes_escape _

/-- A quotation mark is no plain character, so it stands after the backslash of an escape. -/
theorem odd_backslashes_before (h : StringUnit mark unit) (hslash : mark ≠ '\\')
    {before after : List Char} (hunit : unit = before ++ mark :: after) :
    Odd (backslashes before) := by
  cases h with
  | plain hmark _ _ =>
    have hmem : mark ∈ before ++ mark :: after := by simp
    rw [← hunit, List.mem_singleton] at hmem
    exact absurd hmem.symm hmark
  | escape _ =>
    rcases List.cons_eq_append_iff.1 hunit with ⟨rfl, heq⟩ | ⟨before, rfl, heq⟩
    · exact absurd (List.cons.inj heq).1 hslash
    · rcases List.cons_eq_append_iff.1 heq with ⟨rfl, -⟩ | ⟨before, -, heq⟩
      · decide
      · simp at heq

end StringUnit

/-- What stands between the quotation marks of a literal is as it should be. -/
theorem encloses_of_mem_inside {mark : Char} (hslash : mark ≠ '\\') {inner : List Char}
    (h : inner ∈ inside mark) : Encloses mark (mark :: (inner ++ [mark])) inner := by
  obtain ⟨units, rfl, hunits⟩ := Language.mem_kstar.1 h
  clear h
  induction units with
  | nil => exact ⟨rfl, by simp, by simp, by decide⟩
  | cons unit units ih =>
    obtain ⟨hunit, hunits⟩ := List.forall_mem_cons.1 hunits
    have hrest := ih hunits
    have hunit := stringUnit_of_mem hunit
    refine ⟨rfl, ?_, fun before after hsplit => ?_, ?_⟩
    · exact List.not_mem_append hunit.not_mem_line hrest.line
    · rcases List.append_eq_append_iff.1 hsplit with ⟨more, rfl, hcs⟩ | ⟨more, heq, hcs⟩
      · exact (odd_backslashes_append hunit.even_backslashes more).2
          (hrest.escaped more after hcs)
      · cases more with
        | nil => exact absurd (hrest.escaped [] after hcs.symm) (by decide)
        | cons d more =>
          obtain ⟨rfl, -⟩ := List.cons.inj hcs
          exact hunit.odd_backslashes_before hslash heq
    · exact (even_backslashes_append hunit.even_backslashes).2 hrest.closed

/-! ## Literals of programs -/

namespace Program

namespace Tree

mutual

/-- The number and string literals in an argument, in order. -/
def Argument.literals : Argument → List Argument
  | .number lexeme => [.number lexeme]
  | .string lexeme => [.string lexeme]
  | .name _ => []
  | .call c => c.literals
  | .block b => b.literals

/-- The number and string literals in arguments, in order. -/
def Argument.listLiterals : List Argument → List Argument
  | [] => []
  | argument :: arguments => argument.literals ++ Argument.listLiterals arguments

/-- The number and string literals in a call, in order. -/
def Call.literals : Call → List Argument
  | ⟨_, arguments, _⟩ => Argument.listLiterals arguments

/-- The number and string literals in calls, in order. -/
def Call.listLiterals : List Call → List Argument
  | [] => []
  | call :: calls => call.literals ++ Call.listLiterals calls

/-- The number and string literals in a block, in order. -/
def Block.literals : Block → List Argument
  | ⟨calls, _⟩ => Call.listLiterals calls

end

theorem Argument.listLiterals_eq_flatMap (arguments : List Argument) :
    Argument.listLiterals arguments = arguments.flatMap Argument.literals :=
  eq_flatMap_of_cons rfl (fun _ _ => rfl) arguments

theorem Call.listLiterals_eq_flatMap (calls : List Call) :
    Call.listLiterals calls = calls.flatMap Call.literals :=
  eq_flatMap_of_cons rfl (fun _ _ => rfl) calls

end Tree

/-- The number and string literals in a phrase, in order. -/
def Phrase.literals : Phrase → List Tree.Argument
  | .block tree => tree.literals
  | .calls trees => Tree.Call.listLiterals trees
  | .call tree => tree.literals
  | .arguments trees => Tree.Argument.listLiterals trees
  | .argument tree => tree.literals

/-- The literal that a token is. -/
def literal? (token : Placed Token) : Option Tree.Argument :=
  match token.item with
  | .number text => some (.number ⟨text, token.span⟩)
  | .string text => some (.string ⟨text, token.span⟩)
  | _ => none

/-- The literals of a phrase are those of its tokens. -/
theorem Derives.literals {phrase : Phrase} {tokens : List (Placed Token)}
    (h : Derives phrase tokens) : phrase.literals = tokens.filterMap literal? := by
  induction h with
  | nextCall _ _ _ ihs ih =>
    simp only [Phrase.literals, Tree.Call.listLiterals_eq_flatMap] at ihs ih ⊢
    simp [literal?, List.filterMap_cons, ihs, ih]
  | nextArgument _ _ _ ihs ih =>
    simp only [Phrase.literals, Tree.Argument.listLiterals_eq_flatMap] at ihs ih ⊢
    simp [literal?, List.filterMap_cons, ihs, ih]
  | _ =>
    simp_all [Phrase.literals, Tree.Block.literals, Tree.Call.literals, Tree.Call.listLiterals,
      Tree.Argument.literals, Tree.Argument.listLiterals, literal?, List.filterMap_cons]

theorem mem_of_literal? {token : Placed Token} {literal : Tree.Argument} {text : List Char}
    (h : literal? token = some literal) (htext : Spelled token.item text) :
    (∃ lexeme, literal = .number lexeme ∧ lexeme.text.toList ∈ (1 + sign) * numeral) ∨
      ∃ lexeme, literal = .string lexeme ∧ lexeme.text.toList ∈ stringLiteral '\x22' := by
  obtain ⟨item, span⟩ := token
  cases htext with
  | @mark item hmark =>
    simp only [Token.marks, List.mem_cons, List.not_mem_nil, or_false] at hmark
    rcases hmark with rfl | rfl | rfl | rfl | rfl | rfl <;> cases h
  | string hliteral =>
    cases h
    exact .inr ⟨_, rfl, by rwa [String.toList_ofList]⟩
  | number hnumber =>
    cases h
    exact .inl ⟨_, rfl, by rwa [String.toList_ofList]⟩
  | name => cases h

/-- The literals of a parsed program are as the lexicon says. -/
theorem mem_of_literal {source : String} {tree : Tree.Block} (h : parse source = .ok tree)
    {literal : Tree.Argument} (hliteral : literal ∈ tree.literals) :
    (∃ lexeme, literal = .number lexeme ∧ lexeme.text.toList ∈ (1 + sign) * numeral) ∨
      ∃ lexeme, literal = .string lexeme ∧ lexeme.text.toList ∈ stringLiteral '\x22' := by
  obtain ⟨tokens, hscan, hderives, -⟩ := parse_eq_ok_iff.1 h
  have hall : tree.literals = tokens.filterMap literal? := hderives.literals
  rw [hall] at hliteral
  obtain ⟨token, htoken, hsome⟩ := List.mem_filterMap.1 hliteral
  obtain ⟨text, -, hspelled⟩ :=
    (Lexicon.describes fits_piece).slice? source tokens hscan token htoken
  exact mem_of_literal? hsome hspelled

theorem Lexeme.contents_eq {lexeme : Lexeme} {inner : List Char}
    (h : Encloses '\x22' lexeme.text.toList inner) : lexeme.contents = String.ofList inner := by
  simp [Lexeme.contents, h.text_eq]

end Program

/-! ## Escapes -/

namespace Expression

namespace Token

/-- What the inside of a string literal stands for, unless its last character is a backslash that
nothing follows. -/
def unescape? : List Char → Option (List Char)
  | [] => some []
  | '\\' :: [] => none
  | '\\' :: c :: cs =>
    match unescapeChar? c with
    | some d => (unescape? cs).map (d :: ·)
    | none => (unescape? cs).map ('\\' :: c :: ·)
  | c :: cs => (unescape? cs).map (c :: ·)

/-- Escapes can be resolved to the end unless the text ends with an odd number of backslashes. -/
theorem unescape?_eq (cs : List Char) :
    unescape? cs = if Even (backslashes cs) then some (unescape cs) else none := by
  fun_induction unescape cs with
  | case1 => rfl
  | case2 => rfl
  | case3 c cs d hc ih =>
    have heven : Even (backslashes ('\\' :: c :: cs)) ↔ Even (backslashes cs) :=
      even_backslashes_append (even_backslashes_escape c)
    simp only [unescape?, hc, ih, heven]
    split <;> rfl
  | case4 c cs hc ih =>
    have heven : Even (backslashes ('\\' :: c :: cs)) ↔ Even (backslashes cs) :=
      even_backslashes_append (even_backslashes_escape c)
    simp only [unescape?, hc, ih, heven]
    split <;> rfl
  | case5 c cs hsingle hescape ih =>
    have hc : c ≠ '\\' := by
      rintro rfl
      cases cs with
      | nil => exact hsingle rfl rfl
      | cons d cs => exact hescape d cs rfl rfl
    have heven : Even (backslashes (c :: cs)) ↔ Even (backslashes cs) :=
      even_backslashes_append (even_backslashes_plain hc)
    rw [unescape?]
    · simp only [ih, heven]
      split <;> rfl
    · exact hsingle
    · exact hescape

end Token

open Token

theorem readNumber_of_spelled {x : Float} {text : List Char} (h : Spelled (.number x) text) :
    readNumber text = some x ∧ x.isNaN = false := by
  cases h with
  | keyword h => simp [keywords] at h
  | mark h => simp [longMarks, shortMarks] at h
  | number h => exact ⟨readNumber_numeral h, Decimal.isNaN_toFloat _⟩

theorem encloses_of_spelled {contents : String} {text : List Char}
    (h : Spelled (.string contents) text) :
    ∃ mark inner, (mark = '\x22' ∨ mark = '\x27') ∧ Encloses mark text inner ∧
      contents = String.ofList (unescape inner) := by
  cases h with
  | keyword h => simp [keywords] at h
  | mark h => simp [longMarks, shortMarks] at h
  | @string mark inner text hmark hinner htext =>
    have hslash : mark ≠ '\\' := by rcases hmark with rfl | rfl <;> decide
    exact ⟨mark, inner, hmark, encloses_of_mem_inside hslash hinner, by rw [htext.eq_unescape]⟩

end Expression

/-- What the functions that make values of literals do with other texts never happens.  Every number
literal of a parsed program is read as a number, and every string literal is a text between two
quotation marks, which it loses.  Every number literal that the scanner of expressions takes is
read, and in every string literal of a scanned expression escapes are resolved to the end. -/
theorem literal_defaults_unused :
    (∀ source tree, Program.parse source = .ok tree →
      (∀ lexeme, .number lexeme ∈ tree.literals → ∃ x,
        readNumber lexeme.text.toList = some x ∧ x.isNaN = false ∧ lexeme.value = x) ∧
      ∀ lexeme, .string lexeme ∈ tree.literals → ∃ inner,
        Encloses '\x22' lexeme.text.toList inner ∧ lexeme.contents = String.ofList inner) ∧
    (∀ cs lexeme rest, takeNumeral? cs = some (lexeme, rest) →
      readNumber lexeme = some (numeralValue lexeme)) ∧
    ∀ source tokens, Expression.scan source = .ok tokens → ∀ token ∈ tokens,
      ∃ lexeme, token.span.slice? source.toList = some lexeme ∧
        (∀ x, token.item = .number x → readNumber lexeme = some x ∧ x.isNaN = false) ∧
        ∀ contents, token.item = .string contents → ∃ mark inner,
          (mark = '\x22' ∨ mark = '\x27') ∧ Encloses mark lexeme inner ∧
          contents = String.ofList (Expression.Token.unescape inner) ∧
          Expression.Token.unescape? inner = some (Expression.Token.unescape inner) := by
  refine ⟨fun source tree h => ⟨fun lexeme hliteral => ?_, fun lexeme hliteral => ?_⟩,
    fun cs lexeme rest htake => readNumber_numeral (takes_numeral.split htake).2,
    fun source tokens h token htoken => ?_⟩
  · rcases Program.mem_of_literal h hliteral with ⟨_, heq, hnumber⟩ | ⟨_, heq, -⟩
    · cases heq
      obtain ⟨x, hread, hnan⟩ := exists_readNumber hnumber
      exact ⟨x, hread, hnan, by rw [Program.Lexeme.value, hread, Option.getD_some]⟩
    · cases heq
  · rcases Program.mem_of_literal h hliteral with ⟨_, heq, -⟩ | ⟨_, heq, hstring⟩
    · cases heq
    · cases heq
      obtain ⟨inner, hinner, htext⟩ := mem_stringLiteral.1 hstring
      have hencloses := htext ▸ encloses_of_mem_inside (by decide) hinner
      exact ⟨inner, hencloses, Program.Lexeme.contents_eq hencloses⟩
  · obtain ⟨lexeme, hslice, hspelled⟩ :=
      (Lexicon.describes Expression.fits_piece).slice? source tokens h token htoken
    refine ⟨lexeme, hslice, fun x hx => ?_, fun contents hcontents => ?_⟩
    · exact Expression.readNumber_of_spelled (hx ▸ hspelled)
    · obtain ⟨mark, inner, hmark, hencloses, htext⟩ :=
        Expression.encloses_of_spelled (hcontents ▸ hspelled)
      refine ⟨mark, inner, hmark, hencloses, htext, ?_⟩
      rw [Expression.Token.unescape?_eq, if_pos hencloses.closed]

/-- A signed number and a string with three backslashes before a quotation mark in a program, and a
string with both kinds of backslashes in an expression. -/
theorem literal_defaults_unused_escapes :
    (∃ tree, Program.parse "\x7bf(-.5E+01, \x7bg(\"a\\\\\\\"\")\x7d)\x7d" = .ok tree ∧
      tree.literals = [.number ⟨"-.5E+01", ⟨3, 10⟩⟩, .string ⟨"\"a\\\\\\\"\"", ⟨15, 22⟩⟩] ∧
      (∃ x, readNumber "-.5E+01".toList = some x ∧ x.isNaN = false) ∧
      ∃ inner, Encloses '\x22' "\"a\\\\\\\"\"".toList inner) ∧
    ∃ tokens, Expression.scan ".5+'it\\'s\\\\'" = .ok tokens ∧
      ∃ token ∈ tokens, token.item = .string "it's\\" ∧ ∃ mark inner lexeme,
        token.span.slice? ".5+'it\\'s\\\\'".toList = some lexeme ∧ Encloses mark lexeme inner ∧
        Expression.Token.unescape? inner = some (Expression.Token.unescape inner) := by
  constructor
  · let tree : Program.Tree.Block := ⟨[⟨⟨"f", ⟨1, 2⟩⟩, [.number ⟨"-.5E+01", ⟨3, 10⟩⟩,
      .block ⟨[⟨⟨"g", ⟨13, 14⟩⟩, [.string ⟨"\"a\\\\\\\"\"", ⟨15, 22⟩⟩], ⟨13, 23⟩⟩], ⟨12, 24⟩⟩],
      ⟨1, 25⟩⟩], ⟨0, 26⟩⟩
    have hparse : Program.parse "\x7bf(-.5E+01, \x7bg(\"a\\\\\\\"\")\x7d)\x7d" = .ok tree := rfl
    obtain ⟨hnumbers, hstrings⟩ := literal_defaults_unused.1 _ tree hparse
    obtain ⟨x, hread, hnan, -⟩ := hnumbers _ List.mem_cons_self
    obtain ⟨inner, hinner, -⟩ := hstrings _ (List.mem_cons_of_mem _ List.mem_cons_self)
    exact ⟨tree, hparse, rfl, ⟨x, hread, hnan⟩, inner, hinner⟩
  · let token : Placed Expression.Token := ⟨.string "it's\\", ⟨3, 12⟩⟩
    let tokens := [⟨.number (numeralValue ['.', '5']), ⟨0, 2⟩⟩, ⟨.plus, ⟨2, 3⟩⟩, token]
    have hscan : Expression.scan ".5+'it\\'s\\\\'" = .ok tokens := rfl
    have hmem : token ∈ tokens := by simp [tokens]
    obtain ⟨lexeme, hslice, -, hstring⟩ := literal_defaults_unused.2.2 _ tokens hscan token hmem
    obtain ⟨mark, inner, -, hencloses, -, hunescape⟩ := hstring _ rfl
    exact ⟨tokens, hscan, token, hmem, rfl, mark, inner, lexeme, hslice, hencloses, hunescape⟩

end CallScript
