import CallScript.Proofs.Text.Patterns

/-!
# The lexicon of programs

The texts of tokens and separators of programs, said with patterns and without the scanner
(`lexicon`).  Every piece that the scanner cuts off is one that the lexicon has (`fits_piece`).
-/

namespace CallScript

open Pattern
open scoped Computability

namespace Program

namespace Token

/-- The tokens that are one character. -/
def marks : List Token :=
  [.openBrace, .closeBrace, .openParen, .closeParen, .semicolon, .comma]

end Token

/-- The texts of a token of programs. -/
inductive Spelled : Token → List Char → Prop where
  | mark {token : Token} (h : token ∈ Token.marks) : Spelled token token.text.toList
  | string {text : List Char} (h : text ∈ stringLiteral '\x22') :
    Spelled (.string (String.ofList text)) text
  | number {text : List Char} (h : text ∈ (1 + sign) * numeral) :
    Spelled (.number (String.ofList text)) text
  | name {text : List Char} (h : text ∈ word) : Spelled (.name (String.ofList text)) text

/-- The characters that are tokens. -/
def markChars : List Char :=
  ['\x7b', '\x7d', '(', ')', ';', ',']

/-- A sign, a digit or the point: what numbers start with. -/
def isNumberFront (c : Char) : Bool :=
  isMantissaChar c || c = '+' || c = '-'

/-- A character that a token starts with. -/
def isTokenStart (c : Char) : Bool :=
  markChars.contains c || c = '\x22' || isNumberFront c || isNameStart c

theorem not_isNameStart_of_isNumberFront {c : Char} (h : isNumberFront c = true) :
    ¬isNameStart c = true := by
  simp only [isNumberFront, Bool.or_eq_true, decide_eq_true_eq] at h
  rcases h with (h | rfl) | rfl
  · exact not_isNameStart_of_isMantissaChar h
  · decide
  · decide

theorem exists_mark {c : Char} (h : c ∈ markChars) : ∃ token ∈ Token.marks,
    token.text.toList = [c] ∧ ∀ cs, Token.piece c cs = .mark token c cs := by
  simp only [markChars, List.mem_cons, List.not_mem_nil, or_false] at h
  rcases h with rfl | rfl | rfl | rfl | rfl | rfl
  · exact ⟨.openBrace, by decide, rfl, fun _ => rfl⟩
  · exact ⟨.closeBrace, by decide, rfl, fun _ => rfl⟩
  · exact ⟨.openParen, by decide, rfl, fun _ => rfl⟩
  · exact ⟨.closeParen, by decide, rfl, fun _ => rfl⟩
  · exact ⟨.semicolon, by decide, rfl, fun _ => rfl⟩
  · exact ⟨.comma, by decide, rfl, fun _ => rfl⟩

theorem exists_markChar {token : Token} (h : token ∈ Token.marks) :
    ∃ c ∈ markChars, token.text.toList = [c] ∧ Token.piece c [] = .token token [c] [] := by
  simp only [Token.marks, List.mem_cons, List.not_mem_nil, or_false] at h
  rcases h with rfl | rfl | rfl | rfl | rfl | rfl
  · exact ⟨'\x7b', by decide, rfl, rfl⟩
  · exact ⟨'\x7d', by decide, rfl, rfl⟩
  · exact ⟨'(', by decide, rfl, rfl⟩
  · exact ⟨')', by decide, rfl, rfl⟩
  · exact ⟨';', by decide, rfl, rfl⟩
  · exact ⟨',', by decide, rfl, rfl⟩

theorem head_number {text : List Char} (h : text ∈ (1 + sign) * numeral) :
    ∃ c cs, text = c :: cs ∧ isNumberFront c = true := by
  obtain ⟨signs, hsigns, text, htext, rfl⟩ := Language.mem_mul.1 h
  rcases mem_one_add.1 hsigns with rfl | ⟨c, rfl | rfl, rfl⟩
  · obtain ⟨c, cs, rfl, hc⟩ := head_numeral htext
    exact ⟨c, cs, rfl, by simp [isNumberFront, hc]⟩
  · exact ⟨'+', text, rfl, rfl⟩
  · exact ⟨'-', text, rfl, rfl⟩

namespace Spelled

variable {token : Token} {text : List Char}

/-- The first character tells what kind of token a text can be. -/
theorem front (h : Spelled token text) {c : Char} {cs : List Char} (htext : text <+: c :: cs) :
    (c ∈ markChars ∧ text = [c]) ∨ (c = '\x22' ∧ text ∈ stringLiteral '\x22') ∨
      (isNumberFront c = true ∧ text ∈ (1 + sign) * numeral) ∨
      (isNameStart c = true ∧ text ∈ word) := by
  cases h with
  | mark h =>
    obtain ⟨d, hd, hchar, -⟩ := exists_markChar h
    rw [hchar] at htext ⊢
    cases head_eq_of_isPrefix htext
    exact .inl ⟨hd, rfl⟩
  | string h =>
    obtain ⟨rfl, -⟩ := scanString_of_stringLiteral (by decide) h htext
    exact .inr (.inl ⟨rfl, h⟩)
  | number h =>
    obtain ⟨d, ds, rfl, hd⟩ := head_number h
    cases head_eq_of_isPrefix htext
    exact .inr (.inr (.inl ⟨hd, h⟩))
  | name h =>
    obtain ⟨d, ds, rfl, hd, -⟩ := mem_word.1 h
    cases head_eq_of_isPrefix htext
    exact .inr (.inr (.inr ⟨hd, h⟩))

theorem isTokenStart (h : Spelled token text) {c : Char} {cs : List Char}
    (htext : text <+: c :: cs) : isTokenStart c = true := by
  rcases h.front htext with ⟨hc, -⟩ | ⟨rfl, -⟩ | ⟨hc, -⟩ | ⟨hc, -⟩
  · simp [Program.isTokenStart, hc]
  · rfl
  · simp [Program.isTokenStart, hc]
  · simp [Program.isTokenStart, hc]

/-- The scanner takes the text of a token as a whole. -/
theorem takesWhole (h : Spelled token text) : Lexicon.TakesWhole Token.piece token text := by
  cases h with
  | mark h =>
    obtain ⟨c, -, hchar, hpiece⟩ := exists_markChar h
    rw [hchar]
    exact ⟨c, [], rfl, hpiece⟩
  | string h =>
    obtain ⟨inner, hinner, rfl⟩ := mem_stringLiteral.1 h
    refine ⟨'\x22', inner ++ ['\x22'], rfl, ?_⟩
    simp only [Token.piece, Piece.ofString, scanString_inside (by decide) hinner []]
  | number h =>
    obtain ⟨c, cs, rfl, hc⟩ := head_number h
    refine ⟨c, cs, rfl, ?_⟩
    rw [piece_of_not_mem_specials (not_mem_specials rfl hc), if_neg (not_isGap rfl hc),
      if_neg (not_isNameStart_of_isNumberFront hc), takes_number.whole h]
  | name h =>
    obtain ⟨c, cs, rfl, hc, hcs⟩ := mem_word.1 h
    refine ⟨c, cs, rfl, ?_⟩
    rw [piece_nameStart hc, List.takeWhile_eq_self_iff.2 hcs, List.dropWhile_eq_nil_iff.2 hcs]

end Spelled

/-- A blank or a comment. -/
def separator : Language Char :=
  oneOf (isGap ·) + comment

/-- A blank or a slash: what separators start with. -/
def isSeparatorStart (c : Char) : Bool :=
  isGap c || c = '/'

theorem separator_head {text : List Char} (h : text ∈ separator) :
    ∃ c cs, text = c :: cs ∧ isSeparatorStart c = true := by
  rcases h with ⟨c, hc, rfl⟩ | ⟨body, -, rfl⟩
  · exact ⟨c, [], rfl, by simp [isSeparatorStart, hc]⟩
  · exact ⟨'/', _, rfl, rfl⟩

theorem not_isSeparatorStart {p : Char → Bool}
    (hgap : [' ', '\t', '\n', '\r', '\x0c'].any p = false) (hslash : p '/' = false) {c : Char}
    (h : p c = true) : isSeparatorStart c = false := by
  have hc : isGap c = false := by simpa using not_isGap hgap h
  have hne : c ≠ '/' := by
    rintro rfl
    rw [hslash] at h
    cases h
  simp [isSeparatorStart, hc, hne]

theorem not_separator_of_isTokenStart {c : Char} {text cs : List Char} (hc : isTokenStart c = true)
    (htext : text <+: c :: cs) : text ∉ separator := by
  intro h
  obtain ⟨d, ds, rfl, hd⟩ := separator_head h
  cases head_eq_of_isPrefix htext
  rw [not_isSeparatorStart rfl rfl hc] at hd
  cases hd

/-- The tokens and separators of programs. -/
def lexicon : Lexicon Token where
  Spells := Spelled
  Separates := (· ∈ separator)
  spells_ne_nil h := h.takesWhole.ne_nil
  separates_ne_nil h := by
    obtain ⟨c, cs, rfl, -⟩ := separator_head h
    exact List.cons_ne_nil c cs
  spells_unique h h' := h.takesWhole.unique h'.takesWhole
  separates_unique := by
    intro first other text hfirst hother
    rintro (⟨c, hc, rfl⟩ | hcomment) (⟨d, hd, rfl⟩ | hcomment')
    · obtain ⟨more, rfl⟩ := hfirst
      rw [head_eq_of_isPrefix hother]
    · obtain ⟨ds, -, -, rfl, -, -⟩ := takeComment?_of_comment hcomment' hother
      cases head_eq_of_isPrefix hfirst
      exact absurd hc (by decide)
    · obtain ⟨ds, -, -, rfl, -, -⟩ := takeComment?_of_comment hcomment hfirst
      cases head_eq_of_isPrefix hother
      exact absurd hd (by decide)
    · obtain ⟨ds, taken, rest, rfl, htake, rfl⟩ := takeComment?_of_comment hcomment hfirst
      obtain ⟨ds', taken', rest', heq, htake', rfl⟩ := takeComment?_of_comment hcomment' hother
      cases heq
      cases htake.symm.trans htake'
      rfl
  apart := by
    intro token first other text hfirst hother hspells
    obtain ⟨c, cs, rfl, -⟩ := hspells.takesWhole
    obtain ⟨more, rfl⟩ := hfirst
    have hstart := hspells.isTokenStart (List.prefix_refl (c :: cs))
    exact not_separator_of_isTokenStart hstart hother

theorem mem_specials {c : Char} : c ∈ specials ↔ c ∈ markChars ∨ c = '\x22' ∨ c = '/' := by
  simp [specials, markChars, or_assoc]

theorem fits_markChar {c : Char} (hc : c ∈ markChars) (cs : List Char) :
    lexicon.Fits (c :: cs) (Token.piece c cs) := by
  obtain ⟨token, htoken, hchar, hpiece⟩ := exists_mark hc
  rw [hpiece]
  refine ⟨rfl, hchar ▸ .mark htoken, fun other text htext h => ?_⟩
  have hspecial : c ∈ specials := mem_specials.2 (.inl hc)
  rcases h.front htext with ⟨-, rfl⟩ | ⟨rfl, -⟩ | ⟨hfront, -⟩ | ⟨hstart, -⟩
  · exact Nat.le_refl _
  · exact absurd hc (by decide)
  · exact absurd hspecial (not_mem_specials rfl hfront)
  · exact absurd hspecial (not_mem_specials rfl hstart)

theorem fits_quote (cs : List Char) : lexicon.Fits ('\x22' :: cs) (Token.piece '\x22' cs) := by
  have honly (token : Token) (text : List Char) (htext : text <+: '\x22' :: cs)
      (h : Spelled token text) : text ∈ stringLiteral '\x22' := by
    rcases h.front htext with ⟨hmark, -⟩ | ⟨-, hliteral⟩ | ⟨hfront, -⟩ | ⟨hstart, -⟩
    · exact absurd hmark (by decide)
    · exact hliteral
    · exact absurd hfront (by decide)
    · exact absurd hstart (by decide)
  exact Lexicon.fits_ofString (L := lexicon) (by decide) (fun _ h => Spelled.string h) honly
    fun _ => not_separator_of_isTokenStart rfl

/-- No token starts with a slash, so a text that does is a comment or stuck. -/
theorem fits_slash (cs : List Char) : lexicon.Fits ('/' :: cs) (Token.piece '/' cs) := by
  have hstuck (h : ∀ text, text <+: '/' :: cs → text ∉ comment) : lexicon.Stuck ('/' :: cs) := by
    refine fun text htext => ⟨?_, fun _ hspells => absurd (hspells.isTokenStart htext) (by decide)⟩
    rintro (⟨d, hd, rfl⟩ | hcomment)
    · cases head_eq_of_isPrefix htext
      exact absurd hd (by decide)
    · exact h text htext hcomment
  unfold Token.piece
  simp only
  split
  · next cs =>
    split
    · next body rest htake =>
      have happend := Token.append_of_takeComment? htake
      obtain ⟨inner, hinner, rfl⟩ := exists_of_takeComment? htake
      refine ⟨by simp [← happend], by simp, [_], (List.flatten_singleton).symm, ?_⟩
      rw [List.forall_mem_singleton]
      exact .inr ⟨inner, hinner, rfl⟩
    · next htake =>
      refine ⟨[], (List.append_nil _).symm, by simp, hstuck fun text htext h => ?_⟩
      obtain ⟨ds, taken, rest, heq, htaken, -⟩ := takeComment?_of_comment h htext
      cases heq
      rw [htake] at htaken
      cases htaken
  · next hopen =>
    refine Lexicon.fits_stray (hstuck fun text htext h => ?_)
    obtain ⟨ds, taken, rest, heq, -, -⟩ := takeComment?_of_comment h htext
    cases heq
    exact hopen ds rfl

theorem fits_nameStart {c : Char} (hc : isNameStart c = true) (cs : List Char) :
    lexicon.Fits (c :: cs) (Token.piece c cs) := by
  rw [piece_nameStart hc]
  refine ⟨congrArg _ List.takeWhile_append_dropWhile.symm, .name (takeWhile_mem_word hc cs),
    fun other text htext h => ?_⟩
  rw [List.cons_append, List.takeWhile_append_dropWhile] at htext
  rcases h.front htext with ⟨-, rfl⟩ | ⟨rfl, -⟩ | ⟨hfront, -⟩ | ⟨-, hword⟩
  · simp
  · exact absurd hc (by decide)
  · exact absurd hc (not_isNameStart_of_isNumberFront hfront)
  · exact length_le_of_word hword htext

/-- Every piece of a program is one that the lexicon has. -/
theorem fits_piece (c : Char) (cs : List Char) : lexicon.Fits (c :: cs) (Token.piece c cs) := by
  by_cases hspecial : c ∈ specials
  · rcases mem_specials.1 hspecial with hmark | rfl | rfl
    · exact fits_markChar hmark cs
    · exact fits_quote cs
    · exact fits_slash cs
  by_cases hgap : isGap c = true
  · rw [piece_gapChar hgap]
    exact Lexicon.fits_blanks (fun c hc => .inl ⟨c, hc, rfl⟩) hgap
  by_cases hname : isNameStart c = true
  · exact fits_nameStart hname cs
  -- What is left is a number, or stuck: no other text starts with such a character.
  have hnumber {token : Token} {text : List Char} (htext : text <+: c :: cs)
      (h : Spelled token text) : text ∈ (1 + sign) * numeral := by
    rcases h.front htext with ⟨hmark, -⟩ | ⟨rfl, -⟩ | ⟨-, hnumber⟩ | ⟨hstart, -⟩
    · exact absurd (mem_specials.2 (.inl hmark)) hspecial
    · exact absurd (mem_specials.2 (.inr (.inl rfl))) hspecial
    · exact hnumber
    · exact absurd hstart hname
  rw [piece_of_not_mem_specials hspecial, if_neg hgap, if_neg hname]
  split
  · next lexeme rest htake =>
    obtain ⟨hsplit, hlexeme⟩ := takes_number.split htake
    refine ⟨hsplit, .number hlexeme, fun other text htext h => ?_⟩
    rw [← hsplit] at htext
    exact takes_number.length_le htake (hnumber htext h) htext
  · next htake =>
    refine Lexicon.fits_stray fun text htext => ⟨?_, fun token h => ?_⟩
    · rintro (⟨d, hd, rfl⟩ | hcomment)
      · cases head_eq_of_isPrefix htext
        exact hgap hd
      · obtain ⟨ds, -, -, heq, -, -⟩ := takeComment?_of_comment hcomment htext
        cases heq
        exact hspecial (by decide)
    · exact takes_number.not_mem htake htext (hnumber htext h)

end Program

end CallScript
