import CallScript.Expression.Token
import CallScript.Proofs.Program.Lexicon

/-!
# The lexicon of expressions

The texts of tokens and separators of expressions, said with patterns and without the scanner
(`lexicon`).  A word that is a keyword is no name, and a string literal stands for the text that its
escapes give (`Denotes`).  Both scanners of the library do what their lexicons say
(`scanners_describe`).
-/

namespace CallScript

open Pattern
open scoped Computability

namespace Expression

namespace Token

/-- The tokens that are words. -/
def keywords : List Token :=
  [.true_, .false_, .none_, .and_, .or_, .not_, .in_, .is_, .if_, .else_, .for_, .lambda_]

/-- The operators and delimiters of one character. -/
def shortMarks : List Token :=
  [.plus, .minus, .star, .slash, .percent, .at_, .caret, .ampersand, .pipe, .tilde, .less, .greater,
    .equal, .openParen, .closeParen, .openBracket, .closeBracket, .openBrace, .closeBrace, .comma,
    .colon, .dot]

/-- The operators of two characters. -/
def longMarks : List Token :=
  [.doubleStar, .doubleSlash, .shiftLeft, .shiftRight, .lessEqual, .greaterEqual, .equalEqual,
    .notEqual]

end Token

open Token

/-- What the inside of a string literal stands for.  An escape stands for one character; a backslash
before any other character stays. -/
inductive Denotes : List Char → List Char → Prop where
  | nil : Denotes [] []
  | plain {c : Char} {cs text : List Char} (hc : c ≠ '\\') (h : Denotes cs text) :
    Denotes (c :: cs) (c :: text)
  | escape {c d : Char} {cs text : List Char} (hc : unescapeChar? c = some d)
    (h : Denotes cs text) : Denotes ('\\' :: c :: cs) (d :: text)
  | kept {c : Char} {cs text : List Char} (hc : unescapeChar? c = none) (h : Denotes cs text) :
    Denotes ('\\' :: c :: cs) ('\\' :: c :: text)

/-- The texts of a token of expressions. -/
inductive Spelled : Token → List Char → Prop where
  | keyword {token : Token} (h : token ∈ keywords) : Spelled token token.text.toList
  | mark {token : Token} (h : token ∈ longMarks ++ shortMarks) : Spelled token token.text.toList
  | number {text : List Char} (h : text ∈ numeral) : Spelled (.number (numeralValue text)) text
  | string {mark : Char} {inner text : List Char} (hmark : mark = '\x22' ∨ mark = '\x27')
    (hinner : inner ∈ inside mark) (htext : Denotes inner text) :
    Spelled (.string (String.ofList text)) (mark :: (inner ++ [mark]))
  | name {text : List Char} (h : text ∈ word)
    (hfree : ∀ token ∈ keywords, token.text.toList ≠ text) :
    Spelled (.name (String.ofList text)) text

/-! ## String literals -/

theorem unescape_cons {c : Char} (hc : c ≠ '\\') (cs : List Char) :
    unescape (c :: cs) = c :: unescape cs := by
  rw [unescape]
  · exact fun h => absurd h hc
  · exact fun _ _ h => absurd h hc

theorem denotes_unescape {mark : Char} {inner : List Char} (h : inner ∈ inside mark) :
    Denotes inner (unescape inner) := by
  obtain ⟨units, rfl, hunits⟩ := Language.mem_kstar.1 h
  induction units with
  | nil => exact .nil
  | cons unit units ih =>
    obtain ⟨hunit, hunits⟩ := List.forall_mem_cons.1 hunits
    have hrest := ih hunits (Language.mem_kstar.2 ⟨units, rfl, hunits⟩)
    rcases hunit with ⟨c, ⟨-, hslash, -⟩, rfl⟩ | hunit
    · rw [List.flatten_cons, List.singleton_append, unescape_cons hslash]
      exact .plain hslash hrest
    · obtain ⟨_, _, rfl, rfl, c, -, rfl⟩ := mem_oneOf_mul.1 hunit
      rw [List.flatten_cons, List.cons_append, List.singleton_append, unescape]
      cases hc : unescapeChar? c with
      | some d => exact .escape hc hrest
      | none => exact .kept hc hrest

theorem Denotes.eq_unescape {inner text : List Char} (h : Denotes inner text) :
    text = unescape inner := by
  induction h with
  | nil => rfl
  | plain hc _ ih => rw [unescape_cons hc, ih]
  | escape hc _ ih => rw [unescape, hc, ih]
  | kept hc _ ih => rw [unescape, hc, ih]

theorem ofString_stringLiteral (mark : Char) (inner : List Char) :
    ofString (mark :: (inner ++ [mark])) = .string (String.ofList (unescape inner)) := by
  simp [ofString]

theorem spelled_ofString {mark : Char} (hmark : mark = '\x22' ∨ mark = '\x27') {text : List Char}
    (h : text ∈ stringLiteral mark) : Spelled (ofString text) text := by
  obtain ⟨inner, hinner, rfl⟩ := mem_stringLiteral.1 h
  rw [ofString_stringLiteral]
  exact .string hmark hinner (denotes_unescape hinner)

theorem piece_string {mark : Char} (hmark : mark = '\x22' ∨ mark = '\x27') {inner : List Char}
    (h : inner ∈ inside mark) (rest : List Char) :
    Token.piece mark (inner ++ mark :: rest) =
      .token (.string (String.ofList (unescape inner))) (mark :: (inner ++ [mark])) rest := by
  rw [← ofString_stringLiteral mark]
  rcases hmark with rfl | rfl
  · have hscan := scanString_inside (by decide : '\x22' ≠ '\\') h rest
    simp [Token.piece, isGap, isNameStart, Piece.ofString, hscan]
  · have hscan := scanString_inside (by decide : '\x27' ≠ '\\') h rest
    simp [Token.piece, isGap, isNameStart, Piece.ofString, hscan]

/-! ## Words -/

theorem keyword_mem_word {token : Token} (h : token ∈ keywords) : token.text.toList ∈ word := by
  have hall : ∀ token ∈ keywords, (token.text.toList.head?.any isNameStart &&
      token.text.toList.tail.all isNameChar) = true := by decide
  have htoken := hall token h
  cases htext : token.text.toList with
  | nil => simp [htext] at htoken
  | cons c cs =>
    simp only [htext, List.head?_cons, Option.any_some, List.tail_cons, Bool.and_eq_true,
      List.all_eq_true] at htoken
    exact mem_word.2 ⟨c, cs, rfl, htoken⟩

theorem ofWord_text {token : Token} (h : token ∈ keywords) : ofWord token.text = token := by
  simp only [keywords, List.mem_cons, List.not_mem_nil, or_false] at h
  rcases h with rfl | rfl | rfl | rfl | rfl | rfl | rfl | rfl | rfl | rfl | rfl | rfl <;> rfl

theorem ofWord_of_ne {word : String} (h : ∀ token ∈ keywords, token.text ≠ word) :
    ofWord word = .name word := by
  unfold ofWord
  split
  · exact absurd rfl (h .true_ (by simp [keywords]))
  · exact absurd rfl (h .false_ (by simp [keywords]))
  · exact absurd rfl (h .none_ (by simp [keywords]))
  · exact absurd rfl (h .and_ (by simp [keywords]))
  · exact absurd rfl (h .or_ (by simp [keywords]))
  · exact absurd rfl (h .not_ (by simp [keywords]))
  · exact absurd rfl (h .in_ (by simp [keywords]))
  · exact absurd rfl (h .is_ (by simp [keywords]))
  · exact absurd rfl (h .if_ (by simp [keywords]))
  · exact absurd rfl (h .else_ (by simp [keywords]))
  · exact absurd rfl (h .for_ (by simp [keywords]))
  · exact absurd rfl (h .lambda_ (by simp [keywords]))
  · rfl

theorem spelled_ofWord {text : List Char} (h : text ∈ word) :
    Spelled (ofWord (String.ofList text)) text := by
  by_cases hkey : ∃ token ∈ keywords, token.text.toList = text
  · obtain ⟨token, htoken, rfl⟩ := hkey
    rw [String.ofList_toList, ofWord_text htoken]
    exact .keyword htoken
  · have hfree : ∀ token ∈ keywords, token.text.toList ≠ text :=
      fun token htoken heq => hkey ⟨token, htoken, heq⟩
    rw [ofWord_of_ne fun token htoken heq => hfree token htoken (by rw [heq, String.toList_ofList])]
    exact .name h hfree

theorem piece_nameStart {c : Char} (hc : isNameStart c = true) (cs : List Char) :
    Token.piece c cs = .token (ofWord (String.ofList (c :: cs.takeWhile isNameChar)))
      (c :: cs.takeWhile isNameChar) (cs.dropWhile isNameChar) := by
  rw [Token.piece, if_neg (Program.not_isGap rfl hc), if_pos hc]

theorem takesWhole_word {text : List Char} (h : text ∈ word) :
    Lexicon.TakesWhole Token.piece (ofWord (String.ofList text)) text := by
  obtain ⟨c, cs, rfl, hc, hcs⟩ := mem_word.1 h
  refine ⟨c, cs, rfl, ?_⟩
  rw [piece_nameStart hc, List.takeWhile_eq_self_iff.2 hcs, List.dropWhile_eq_nil_iff.2 hcs]

theorem piece_numeral {c : Char} (hc : isMantissaChar c = true) {cs lexeme rest : List Char}
    (h : takeNumeral? (c :: cs) = some (lexeme, rest)) :
    Token.piece c cs = .token (.number (numeralValue lexeme)) lexeme rest := by
  have hquote : ¬(c = '\x22' || c = '\x27') = true := by
    intro hquote
    simp only [Bool.or_eq_true, decide_eq_true_eq] at hquote
    rcases hquote with rfl | rfl <;> exact absurd hc (by decide)
  rw [Token.piece, if_neg (Program.not_isGap rfl hc),
    if_neg (not_isNameStart_of_isMantissaChar hc), if_neg hquote, h]

/-! ## Operators and delimiters -/

/-- Operators and delimiters start with characters of their own, but for the point. -/
theorem mark_head {token : Token} (h : token ∈ longMarks ++ shortMarks) :
    ∃ c cs, token.text.toList = c :: cs ∧ Token.piece c cs = .token token (c :: cs) [] ∧
      isGap c = false ∧ isNameStart c = false ∧ c ≠ '\x22' ∧ c ≠ '\x27' ∧
      (isMantissaChar c = true → cs = []) := by
  simp only [longMarks, shortMarks, List.cons_append, List.nil_append, List.mem_cons,
    List.not_mem_nil, or_false] at h
  rcases h with rfl | rfl | rfl | rfl | rfl | rfl | rfl | rfl | rfl | rfl | rfl | rfl | rfl | rfl |
    rfl | rfl | rfl | rfl | rfl | rfl | rfl | rfl | rfl | rfl | rfl | rfl | rfl | rfl | rfl |
    rfl <;> exact ⟨_, _, rfl, rfl, by decide, by decide, by decide, by decide, by decide⟩

theorem ofMark?_eq_some {c : Char} {cs lexeme rest : List Char} {token : Token}
    (h : ofMark? c cs = some (token, lexeme, rest)) :
    token ∈ longMarks ++ shortMarks ∧ lexeme = token.text.toList ∧ c :: cs = lexeme ++ rest := by
  unfold ofMark? at h
  split at h <;> cases h <;> exact ⟨by simp [longMarks, shortMarks], rfl, rfl⟩

theorem length_pos_of_mark {token : Token} (h : token ∈ longMarks ++ shortMarks) :
    1 ≤ token.text.toList.length := by
  obtain ⟨c, cs, htext, -⟩ := mark_head h
  simp [htext]

/-- The characters that are operators or delimiters. -/
def shortChars : List Char :=
  ['+', '-', '*', '/', '%', '@', '^', '&', '|', '~', '<', '>', '=', '(', ')', '[', ']', '\x7b',
    '\x7d', ',', ':', '.']

theorem exists_shortChar {token : Token} (h : token ∈ shortMarks) :
    ∃ c ∈ shortChars, token.text.toList = [c] := by
  have hall : ∀ token ∈ shortMarks, token.text.toList ∈ shortChars.map ([·]) := by decide
  obtain ⟨c, hc, hchar⟩ := List.mem_map.1 (hall token h)
  exact ⟨c, hc, hchar.symm⟩

theorem not_mem_of_ofMark?_eq_none {c : Char} {cs : List Char} (h : ofMark? c cs = none) :
    c ∉ shortChars := by
  unfold ofMark? at h
  split at h <;> cases h
  simp_all [shortChars]

/-- Where a text starts with an operator or a delimiter, the longest is taken. -/
theorem exists_ofMark? {token : Token} (h : token ∈ longMarks ++ shortMarks) {c : Char}
    {cs : List Char} (htext : token.text.toList <+: c :: cs) :
    ∃ other lexeme rest, ofMark? c cs = some (other, lexeme, rest) ∧
      token.text.toList.length ≤ lexeme.length := by
  obtain ⟨more, hmore⟩ := htext
  rcases List.mem_append.1 h with hlong | hshort
  · simp only [longMarks, List.mem_cons, List.not_mem_nil, or_false] at hlong
    rcases hlong with rfl | rfl | rfl | rfl | rfl | rfl | rfl | rfl <;> cases hmore <;>
      exact ⟨_, _, _, rfl, by decide⟩
  · cases hmark : ofMark? c cs with
    | none =>
      obtain ⟨d, hd, hchar⟩ := exists_shortChar hshort
      rw [hchar] at hmore
      cases hmore
      exact absurd hd (not_mem_of_ofMark?_eq_none hmark)
    | some found =>
      obtain ⟨other, lexeme, rest⟩ := found
      obtain ⟨hmem, rfl, -⟩ := ofMark?_eq_some hmark
      obtain ⟨d, -, hchar⟩ := exists_shortChar hshort
      refine ⟨other, _, rest, rfl, ?_⟩
      rw [hchar]
      exact length_pos_of_mark hmem

/-! ## The lexicon -/

namespace Spelled

variable {token : Token} {text : List Char}

/-- The first character tells what kind of token a text can be. -/
theorem front (h : Spelled token text) {c : Char} {cs : List Char} (htext : text <+: c :: cs) :
    (isNameStart c = true ∧ text ∈ word) ∨ (isMantissaChar c = true ∧ text ∈ numeral) ∨
      ((c = '\x22' ∨ c = '\x27') ∧ text ∈ stringLiteral c) ∨
      ∃ mark ∈ longMarks ++ shortMarks, text = mark.text.toList := by
  have hword (h : text ∈ word) : isNameStart c = true := by
    obtain ⟨d, ds, rfl, hd, -⟩ := mem_word.1 h
    cases head_eq_of_isPrefix htext
    exact hd
  cases h with
  | keyword h => exact .inl ⟨hword (keyword_mem_word h), keyword_mem_word h⟩
  | mark h => exact .inr (.inr (.inr ⟨token, h, rfl⟩))
  | number h =>
    obtain ⟨d, ds, rfl, hd⟩ := head_numeral h
    cases head_eq_of_isPrefix htext
    exact .inr (.inl ⟨hd, h⟩)
  | string hmark hinner _ =>
    cases head_eq_of_isPrefix htext
    exact .inr (.inr (.inl ⟨hmark, mem_stringLiteral.2 ⟨_, hinner, rfl⟩⟩))
  | name h _ => exact .inl ⟨hword h, h⟩

theorem not_isGap (h : Spelled token text) {c : Char} {cs : List Char}
    (htext : text <+: c :: cs) : ¬isGap c = true := by
  rcases h.front htext with ⟨hc, -⟩ | ⟨hc, -⟩ | ⟨rfl | rfl, -⟩ | ⟨mark, hmark, rfl⟩
  · exact Program.not_isGap rfl hc
  · exact Program.not_isGap rfl hc
  · decide
  · decide
  · obtain ⟨d, ds, hd, -, hgap, -⟩ := mark_head hmark
    rw [hd] at htext
    cases head_eq_of_isPrefix htext
    simp [hgap]

/-- The scanner takes the text of a token as a whole. -/
theorem takesWhole (h : Spelled token text) : Lexicon.TakesWhole Token.piece token text := by
  cases h with
  | keyword h =>
    have hwhole := takesWhole_word (keyword_mem_word h)
    rwa [String.ofList_toList, ofWord_text h] at hwhole
  | mark h =>
    obtain ⟨c, cs, htext, hpiece, -⟩ := mark_head h
    rw [htext]
    exact ⟨c, cs, rfl, hpiece⟩
  | number h =>
    obtain ⟨c, cs, rfl, hc⟩ := head_numeral h
    exact ⟨c, cs, rfl, piece_numeral hc (takes_numeral.whole h)⟩
  | @string mark inner text hmark hinner htext =>
    refine ⟨mark, inner ++ [mark], rfl, ?_⟩
    obtain rfl := htext.eq_unescape
    exact piece_string hmark hinner []
  | name h hfree =>
    have hwhole := takesWhole_word h
    rwa [ofWord_of_ne fun token htoken heq =>
      hfree token htoken (by rw [heq, String.toList_ofList])] at hwhole

end Spelled

/-- The tokens and separators of expressions. -/
def lexicon : Lexicon Token where
  Spells := Spelled
  Separates := (· ∈ oneOf (isGap ·))
  spells_ne_nil h := h.takesWhole.ne_nil
  separates_ne_nil := by
    rintro _ ⟨c, -, rfl⟩
    simp
  spells_unique h h' := h.takesWhole.unique h'.takesWhole
  separates_unique := by
    rintro _ _ _ hfirst ⟨more, rfl⟩ ⟨c, -, rfl⟩ ⟨d, -, rfl⟩
    rw [head_eq_of_isPrefix hfirst]
  apart := by
    rintro token first _ _ hfirst ⟨more, rfl⟩ hspells ⟨d, hd, rfl⟩
    exact hspells.not_isGap hfirst hd

theorem not_blank_of_not_isGap {c : Char} {text cs : List Char} (hc : ¬isGap c = true)
    (htext : text <+: c :: cs) : ¬lexicon.Separates text := by
  rintro ⟨d, hd, rfl⟩
  cases head_eq_of_isPrefix htext
  exact hc hd

theorem fits_nameStart {c : Char} (hc : isNameStart c = true) (cs : List Char) :
    lexicon.Fits (c :: cs) (Token.piece c cs) := by
  rw [piece_nameStart hc]
  refine ⟨congrArg _ List.takeWhile_append_dropWhile.symm,
    spelled_ofWord (takeWhile_mem_word hc cs), fun other text htext h => ?_⟩
  rw [List.cons_append, List.takeWhile_append_dropWhile] at htext
  rcases h.front htext with ⟨-, hword⟩ | ⟨hfront, -⟩ | ⟨rfl | rfl, -⟩ | ⟨mark, hmark, rfl⟩
  · exact length_le_of_word hword htext
  · exact absurd hc (not_isNameStart_of_isMantissaChar hfront)
  · exact absurd hc (by decide)
  · exact absurd hc (by decide)
  · obtain ⟨d, ds, hd, -, -, hname, -⟩ := mark_head hmark
    rw [hd] at htext
    cases head_eq_of_isPrefix htext
    rw [hc] at hname
    cases hname

theorem fits_quote {c : Char} (hc : c = '\x22' ∨ c = '\x27') (cs : List Char) :
    lexicon.Fits (c :: cs) (.ofString ofString c cs) := by
  have hslash : c ≠ '\\' := by rcases hc with rfl | rfl <;> decide
  have hgap : ¬isGap c = true := by rcases hc with rfl | rfl <;> decide
  have honly (token : Token) (text : List Char) (htext : text <+: c :: cs)
      (h : Spelled token text) : text ∈ stringLiteral c := by
    rcases h.front htext with ⟨hstart, -⟩ | ⟨hfront, -⟩ | ⟨-, hliteral⟩ | ⟨mark, hmark, rfl⟩
    · rcases hc with rfl | rfl <;> exact absurd hstart (by decide)
    · rcases hc with rfl | rfl <;> exact absurd hfront (by decide)
    · exact hliteral
    · obtain ⟨d, ds, hd, -, -, -, hdouble, hsingle, -⟩ := mark_head hmark
      rw [hd] at htext
      cases head_eq_of_isPrefix htext
      exact absurd hc (not_or.2 ⟨hdouble, hsingle⟩)
  exact Lexicon.fits_ofString hslash (fun _ => spelled_ofString hc) honly
    fun _ => not_blank_of_not_isGap hgap

/-- Every piece of an expression is one that the lexicon has. -/
theorem fits_piece (c : Char) (cs : List Char) : lexicon.Fits (c :: cs) (Token.piece c cs) := by
  by_cases hgap : isGap c = true
  · rw [Token.piece, if_pos hgap]
    exact Lexicon.fits_blanks (fun c hc => ⟨c, hc, rfl⟩) hgap
  by_cases hname : isNameStart c = true
  · exact fits_nameStart hname cs
  by_cases hquote : c = '\x22' ∨ c = '\x27'
  · rw [Token.piece, if_neg hgap, if_neg hname, if_pos (by simpa using hquote)]
    exact fits_quote hquote cs
  -- What is left is a numeral, an operator or a delimiter, or stuck.
  have hrest {token : Token} {text : List Char} (htext : text <+: c :: cs)
      (h : Spelled token text) :
      text ∈ numeral ∨ ∃ mark ∈ longMarks ++ shortMarks, text = mark.text.toList := by
    rcases h.front htext with ⟨hstart, -⟩ | ⟨-, hnumeral⟩ | ⟨hmark, -⟩ | hmark
    · exact absurd hstart hname
    · exact .inl hnumeral
    · exact absurd hmark hquote
    · exact .inr hmark
  rw [Token.piece, if_neg hgap, if_neg hname, if_neg (by simpa using hquote)]
  split
  · next lexeme rest htake =>
    obtain ⟨hsplit, hlexeme⟩ := takes_numeral.split htake
    refine ⟨hsplit, .number hlexeme, fun other text htext h => ?_⟩
    rw [← hsplit] at htext
    rcases hrest htext h with hnumeral | ⟨mark, hmark, rfl⟩
    · exact takes_numeral.length_le htake hnumeral htext
    · -- Of the operators and delimiters only the point starts as numerals do.
      obtain ⟨d, ds, hd, -, -, -, -, -, hpoint⟩ := mark_head hmark
      obtain ⟨c', cs', rfl, hfront⟩ := head_numeral hlexeme
      rw [hd] at htext ⊢
      obtain ⟨rfl, -⟩ := List.cons.inj hsplit
      cases head_eq_of_isPrefix htext
      simp [hpoint hfront]
  · next htake =>
    split
    · next token lexeme rest hmark =>
      obtain ⟨hmem, rfl, hsplit⟩ := ofMark?_eq_some hmark
      refine ⟨hsplit, .mark hmem, fun other text htext h => ?_⟩
      rw [← hsplit] at htext
      rcases hrest htext h with hnumeral | ⟨mark, hother, rfl⟩
      · exact absurd hnumeral (takes_numeral.not_mem htake htext)
      · obtain ⟨_, _, _, hmark', hlength⟩ := exists_ofMark? hother htext
        cases hmark.symm.trans hmark'
        exact hlength
    · next hmark =>
      refine Lexicon.fits_stray fun text htext => ⟨not_blank_of_not_isGap hgap htext, ?_⟩
      intro token h
      rcases hrest htext h with hnumeral | ⟨mark, hother, rfl⟩
      · exact takes_numeral.not_mem htake htext hnumeral
      · obtain ⟨_, _, _, hmark', -⟩ := exists_ofMark? hother htext
        rw [hmark] at hmark'
        cases hmark'

end Expression

/-- Both scanners cut every text as their lexicons say. -/
theorem scanners_describe :
    Program.lexicon.Describes Program.scan ∧ Expression.lexicon.Describes Expression.scan :=
  ⟨Lexicon.describes Program.fits_piece, Lexicon.describes Expression.fits_piece⟩

end CallScript
