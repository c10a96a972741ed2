import CallScript.Program.Token
import CallScript.Proofs.Decimal.Text

/-!
# Scanning programs

The scanner cuts a text into pieces that make it up (`Token.piece_cuts`), so the tokens of a text
are those of its first piece and of the rest (`items_of_token`, `items_of_gap`, `items_of_bad`).  A
name or a string literal that has been scanned is scanned again wherever its text stands
(`rescans_of_items`), and so is the text of a finite number (`scans_numberText`).
-/

namespace CallScript

/-! ## Scanning without places -/

/-- What a piece takes off the front of a text and what it leaves make up the text. -/
def Piece.Cuts {τ : Type} (text : List Char) : Piece τ → Prop
  | .token _ lexeme rest => lexeme ++ rest = text ∧ lexeme ≠ []
  | .gap lexeme rest => lexeme ++ rest = text ∧ lexeme ≠ []
  | .bad _ _ => True

/-- The tokens of a scan without their places, if there are tokens. -/
def scanItems {τ : Type} : Except SyntaxError (List (Placed τ)) → Option (List τ)
  | .ok tokens => some (tokens.map Placed.item)
  | .error _ => none

section

variable {τ : Type} {piece : Char → List Char → Piece τ}

theorem length_lt_of_append {text lexeme rest : List Char}
    (h : lexeme ++ rest = text ∧ lexeme ≠ []) : rest.length < text.length := by
  obtain ⟨rfl, hne⟩ := h
  have := List.length_pos_iff.2 hne
  simp
  omega

theorem scanItems_scanFrom_token {c : Char} {cs lexeme rest : List Char} {token : τ}
    (h : piece c cs = .token token lexeme rest) (fuel start : ℕ) :
    scanItems (scanFrom piece (fuel + 1) start (c :: cs)) =
      (scanItems (scanFrom piece fuel (start + byteLength lexeme) rest)).map (token :: ·) := by
  rw [scanFrom, h]
  cases hrest : scanFrom piece fuel (start + byteLength lexeme) rest <;>
    simp [hrest, scanItems, bind, Except.bind, pure, Except.pure]

/-- The tokens of a text depend neither on where it stands nor on the fuel. -/
theorem scanItems_scanFrom_eq (hcuts : ∀ c cs, (piece c cs).Cuts (c :: cs)) {fuel fuel' : ℕ}
    (start start' : ℕ) {cs : List Char} (h : cs.length ≤ fuel) (h' : cs.length ≤ fuel') :
    scanItems (scanFrom piece fuel start cs) = scanItems (scanFrom piece fuel' start' cs) := by
  induction fuel generalizing fuel' start start' cs with
  | zero =>
    rw [List.length_eq_zero_iff.1 (Nat.le_zero.1 h)]
    cases fuel' <;> rfl
  | succ fuel ih =>
    cases cs with
    | nil => cases fuel' <;> rfl
    | cons c cs =>
      obtain ⟨fuel', rfl⟩ : ∃ n, fuel' = n + 1 := ⟨fuel' - 1, by simp at h'; omega⟩
      have hpiece := hcuts c cs
      cases hcase : piece c cs with
      | token token lexeme rest =>
        rw [hcase] at hpiece
        have hlt := length_lt_of_append hpiece
        rw [scanItems_scanFrom_token hcase, scanItems_scanFrom_token hcase]
        exact congrArg _ (ih _ _ (by omega) (by omega))
      | gap lexeme rest =>
        rw [hcase] at hpiece
        have hlt := length_lt_of_append hpiece
        rw [scanFrom, scanFrom, hcase]
        exact ih _ _ (by omega) (by omega)
      | bad cause lexeme =>
        rw [scanFrom, scanFrom, hcase]
        rfl

end

/-! ## String literals -/

theorem StringEnd.push_eq_closed {cs body rest : List Char} {e : StringEnd}
    (h : e.push cs = .closed body rest) : ∃ inner, e = .closed inner rest ∧ body = cs ++ inner := by
  cases e with
  | closed inner rest' =>
    cases h
    exact ⟨inner, rfl, rfl⟩
  | broken => cases h

theorem scanString_cons {mark c : Char} (hc : c ≠ '\\') (cs : List Char) :
    scanString mark (c :: cs) =
      if c = mark then .closed [c] cs
      else if c = '\n' then .broken []
      else (scanString mark cs).push [c] := by
  rw [scanString]
  · exact fun h => absurd h hc
  · exact fun _ _ h => absurd h hc

/-- A closed string literal ends with its mark, and is cut off the same way before any text. -/
theorem scanString_eq_closed {mark : Char} {cs body rest : List Char}
    (h : scanString mark cs = .closed body rest) :
    body ++ rest = cs ∧ (∃ inner, body = inner ++ [mark]) ∧
      ∀ more, scanString mark (body ++ more) = .closed body more := by
  fun_induction scanString mark cs generalizing body rest with
  | case1 => cases h
  | case2 => cases h
  | case3 => cases h
  | case4 c cs hc ih =>
    obtain ⟨tail, htail, rfl⟩ := StringEnd.push_eq_closed h
    obtain ⟨hcat, ⟨inner, rfl⟩, hmore⟩ := ih htail
    refine ⟨by simp [← hcat], ⟨'\\' :: c :: inner, rfl⟩, fun more => ?_⟩
    simp only [List.cons_append, List.nil_append, scanString, if_neg hc, hmore]
    rfl
  | case5 cs hsingle hescape =>
    have hplain : mark ≠ '\\' := fun h => by cases cs <;> grind
    cases h
    refine ⟨rfl, ⟨[], rfl⟩, fun more => ?_⟩
    rw [List.singleton_append, scanString_cons hplain, if_pos rfl]
  | case6 => cases h
  | case7 c cs hsingle hescape hmark hbreak ih =>
    have hplain : c ≠ '\\' := fun h => by cases cs <;> grind
    obtain ⟨tail, htail, rfl⟩ := StringEnd.push_eq_closed h
    obtain ⟨hcat, ⟨inner, rfl⟩, hmore⟩ := ih htail
    refine ⟨by simp [← hcat], ⟨c :: inner, rfl⟩, fun more => ?_⟩
    rw [List.append_assoc, List.singleton_append, scanString_cons hplain, if_neg hmark,
      if_neg hbreak, hmore]
    rfl

/-! ## Numerals -/

theorem append_of_takeDigits {cs digits rest : List Char} (h : takeDigits cs = (digits, rest)) :
    digits ++ rest = cs := by
  cases h
  exact List.takeWhile_append_dropWhile

theorem append_of_takeExponent {cs exponent rest : List Char}
    (h : takeExponent cs = (exponent, rest)) : exponent ++ rest = cs := by
  unfold takeExponent at h
  split at h
  · split at h
    · split at h
      · split at h
        · cases h
          rfl
        · next hdigits =>
          cases h
          simp [append_of_takeDigits hdigits]
      · split at h
        · cases h
          rfl
        · next hdigits =>
          cases h
          simp [append_of_takeDigits hdigits]
    · cases h
      rfl
  · cases h
    rfl

theorem append_of_takeMantissa? {cs mantissa rest : List Char}
    (h : takeMantissa? cs = some (mantissa, rest)) : mantissa ++ rest = cs ∧ mantissa ≠ [] := by
  unfold takeMantissa? at h
  split at h
  · next hwhole =>
    split at h
    · cases h
    · next hfraction =>
      cases h
      simp [← append_of_takeDigits hwhole, append_of_takeDigits hfraction]
  · cases h
  · next hwhole =>
    cases h
    simp [← append_of_takeDigits hwhole, append_of_takeDigits rfl]
  · next hnone _ hwhole =>
    cases h
    exact ⟨append_of_takeDigits hwhole, hnone⟩

theorem append_of_takeNumeral? {cs numeral rest : List Char}
    (h : takeNumeral? cs = some (numeral, rest)) : numeral ++ rest = cs ∧ numeral ≠ [] := by
  simp only [takeNumeral?, Option.bind_eq_bind, Option.bind_eq_some_iff] at h
  obtain ⟨⟨mantissa, between⟩, hmantissa, h⟩ := h
  obtain ⟨rfl, hne⟩ := append_of_takeMantissa? hmantissa
  have hexponent : (takeExponent between).1 ++ (takeExponent between).2 = between :=
    append_of_takeExponent rfl
  cases h
  exact ⟨by simp [hexponent], by simp [hne]⟩

namespace Program

namespace Token

theorem append_of_takeNumber? {cs number rest : List Char}
    (h : takeNumber? cs = some (number, rest)) : number ++ rest = cs ∧ number ≠ [] := by
  unfold takeNumber? at h
  split at h
  · obtain ⟨⟨numeral, _⟩, hnumeral, h⟩ := Option.map_eq_some_iff.1 h
    cases h
    exact ⟨congrArg _ (append_of_takeNumeral? hnumeral).1, by simp⟩
  · obtain ⟨⟨numeral, _⟩, hnumeral, h⟩ := Option.map_eq_some_iff.1 h
    cases h
    exact ⟨congrArg _ (append_of_takeNumeral? hnumeral).1, by simp⟩
  · exact append_of_takeNumeral? h

theorem append_of_takeComment? {cs body rest : List Char}
    (h : takeComment? cs = some (body, rest)) : body ++ rest = cs := by
  fun_induction takeComment? cs generalizing body with
  | case1 => cases h
  | case2 =>
    cases h
    rfl
  | case3 c cs _ ih =>
    obtain ⟨⟨inner, _⟩, hinner, h⟩ := Option.map_eq_some_iff.1 h
    cases h
    exact congrArg _ (ih hinner)

/-- The pieces of a program make it up. -/
theorem piece_cuts (c : Char) (cs : List Char) : (piece c cs).Cuts (c :: cs) := by
  unfold piece
  split
  · exact ⟨rfl, by simp⟩
  · exact ⟨rfl, by simp⟩
  · exact ⟨rfl, by simp⟩
  · exact ⟨rfl, by simp⟩
  · exact ⟨rfl, by simp⟩
  · exact ⟨rfl, by simp⟩
  · unfold Piece.ofString
    split
    · next hclosed => exact ⟨congrArg _ (scanString_eq_closed hclosed).1, by simp⟩
    · trivial
  · split
    · split
      · next hcomment => exact ⟨by simp [append_of_takeComment? hcomment], by simp⟩
      · trivial
    · trivial
  · split
    · exact ⟨congrArg _ List.takeWhile_append_dropWhile, by simp⟩
    · split
      · exact ⟨congrArg _ List.takeWhile_append_dropWhile, by simp⟩
      · split
        · next hnumber => exact append_of_takeNumber? hnumber
        · trivial

end Token

/-- The tokens of a program text without their places; `none` if it cannot be scanned. -/
def items (cs : List Char) : Option (List Token) :=
  scanItems (scanFrom Token.piece cs.length 0 cs)

@[simp] theorem items_nil : items [] = some [] := rfl

theorem items_of_token {c : Char} {cs lexeme rest : List Char} {token : Token}
    (h : Token.piece c cs = .token token lexeme rest) :
    items (c :: cs) = (items rest).map (token :: ·) := by
  have hcuts := Token.piece_cuts c cs
  rw [h] at hcuts
  have hlt := length_lt_of_append hcuts
  rw [items, List.length_cons, scanItems_scanFrom_token h, items,
    scanItems_scanFrom_eq Token.piece_cuts _ 0 (Nat.le_of_lt_succ hlt) le_rfl]

theorem items_of_gap {c : Char} {cs lexeme rest : List Char}
    (h : Token.piece c cs = .gap lexeme rest) : items (c :: cs) = items rest := by
  have hcuts := Token.piece_cuts c cs
  rw [h] at hcuts
  have hlt := length_lt_of_append hcuts
  rw [items, List.length_cons, scanFrom, h]
  exact scanItems_scanFrom_eq Token.piece_cuts _ 0 (Nat.le_of_lt_succ hlt) le_rfl

theorem items_of_bad {c : Char} {cs lexeme : List Char} {cause : SyntaxError.Cause}
    (h : Token.piece c cs = .bad cause lexeme) : items (c :: cs) = none := by
  rw [items, List.length_cons, scanFrom, h]
  rfl

/-! ## Blanks, marks and words -/

/-- A character of a name, or a point: what may continue a name or a number. -/
def isWordChar (c : Char) : Bool :=
  isNameChar c || c = '.'

/-- The characters that no blank, name or number starts with: marks, and those that open string
literals and comments. -/
def specials : List Char :=
  ['\x7b', '\x7d', '(', ')', ';', ',', '\x22', '/']

theorem not_mem_specials {p : Char → Bool} (hp : specials.any p = false) {c : Char}
    (h : p c = true) : c ∉ specials :=
  fun hc => List.any_eq_false.1 hp c hc h

theorem piece_of_not_mem_specials {c : Char} (h : c ∉ specials) (cs : List Char) :
    Token.piece c cs =
      if isGap c then .gap (c :: cs.takeWhile isGap) (cs.dropWhile isGap)
      else if isNameStart c then
        .token (.name (String.ofList (c :: cs.takeWhile isNameChar)))
          (c :: cs.takeWhile isNameChar) (cs.dropWhile isNameChar)
      else match Token.takeNumber? (c :: cs) with
        | some (lexeme, rest) => .token (.number (String.ofList lexeme)) lexeme rest
        | none => .stray c := by
  simp only [specials, List.mem_cons, List.not_mem_nil, or_false, not_or] at h
  unfold Token.piece
  split
  case h_9 => rfl
  all_goals simp at h

theorem not_isGap {p : Char → Bool} (hp : [' ', '\t', '\n', '\r', '\x0c'].any p = false)
    {c : Char} (h : p c = true) : ¬isGap c = true := by
  intro hc
  simp only [isGap, Bool.or_eq_true, decide_eq_true_eq] at hc
  have hmem : c ∈ [' ', '\t', '\n', '\r', '\x0c'] := by simpa [or_assoc] using hc
  exact List.any_eq_false.1 hp c hmem h

theorem piece_gapChar {c : Char} (h : isGap c = true) (cs : List Char) :
    Token.piece c cs = .gap (c :: cs.takeWhile isGap) (cs.dropWhile isGap) := by
  rw [piece_of_not_mem_specials (not_mem_specials rfl h), if_pos h]

theorem piece_nameStart {c : Char} (h : isNameStart c = true) (cs : List Char) :
    Token.piece c cs = .token (.name (String.ofList (c :: cs.takeWhile isNameChar)))
      (c :: cs.takeWhile isNameChar) (cs.dropWhile isNameChar) := by
  rw [piece_of_not_mem_specials (not_mem_specials rfl h), if_neg (not_isGap rfl h),
    if_pos h]

/-- Blanks before a text change nothing. -/
theorem items_space (cs : List Char) : items (' ' :: cs) = items cs := by
  rw [items_of_gap (piece_gapChar rfl cs)]
  cases cs with
  | nil => rfl
  | cons c cs =>
    by_cases hc : isGap c = true
    · rw [List.dropWhile_cons_of_pos hc, items_of_gap (piece_gapChar hc cs)]
    · rw [List.dropWhile_cons_of_neg hc]

theorem not_isNameStart_of_isDigit {c : Char} (h : isDigit c = true) : ¬isNameStart c = true := by
  intro hname
  simp only [isDigit, isNameStart, Bool.and_eq_true, Bool.or_eq_true, decide_eq_true_eq] at h hname
  rcases hname with (⟨hlow, -⟩ | ⟨hlow, -⟩) | rfl
  · exact absurd (Char.le_trans hlow h.2) (by decide)
  · exact absurd (Char.le_trans hlow h.2) (by decide)
  · exact absurd h.2 (by decide)

/-- A digit or a minus sign: what numbers are written with at the front. -/
def isNumberStart (c : Char) : Bool :=
  isDigit c || c = '-'

theorem piece_numberStart {c : Char} (h : isNumberStart c = true) (cs : List Char) :
    Token.piece c cs = match Token.takeNumber? (c :: cs) with
      | some (lexeme, rest) => .token (.number (String.ofList lexeme)) lexeme rest
      | none => .stray c := by
  have hname : ¬isNameStart c = true := by
    simp only [isNumberStart, Bool.or_eq_true, decide_eq_true_eq] at h
    rcases h with h | rfl
    · exact not_isNameStart_of_isDigit h
    · decide
  rw [piece_of_not_mem_specials (not_mem_specials rfl h), if_neg (not_isGap rfl h),
    if_neg hname]

/-! ## Texts that are scanned as one token -/

/-- A text that is scanned as one token before any text that cannot continue a word. -/
def Scans (cs : List Char) (token : Token) : Prop :=
  ∀ rest, Apart isWordChar rest → items (cs ++ rest) = (items rest).map (token :: ·)

theorem scans_name {name : String} {c : Char} {cs : List Char} (h : name.toList = c :: cs)
    (hc : isNameStart c = true) (hcs : ∀ d ∈ cs, isNameChar d = true) :
    Scans name.toList (.name name) := by
  intro rest hrest
  obtain ⟨htake, hdrop⟩ := span_append hcs (hrest.imp fun d hd => by
    simp only [isWordChar, Bool.or_eq_false_iff] at hd
    exact hd.1)
  have hpiece := piece_nameStart hc (cs ++ rest)
  rw [htake, hdrop, ← h, String.ofList_toList] at hpiece
  rw [h, List.cons_append, items_of_token hpiece]

theorem scans_string {body rest : List Char} {cs : List Char}
    (h : scanString '\x22' cs = .closed body rest) :
    Scans ('\x22' :: body) (.string (String.ofList ('\x22' :: body))) := by
  intro more _
  have hpiece : Token.piece '\x22' (body ++ more) =
      .token (.string (String.ofList ('\x22' :: body))) ('\x22' :: body) more := by
    simp only [Token.piece, Piece.ofString, (scanString_eq_closed h).2.2 more]
  rw [List.cons_append, items_of_token hpiece]

theorem takeNumber?_of_isMantissaChar {c : Char} (h : isMantissaChar c = true) (cs : List Char) :
    Token.takeNumber? (c :: cs) = takeNumeral? (c :: cs) := by
  unfold Token.takeNumber?
  split
  · next heq =>
    cases heq
    exact absurd h (by decide)
  · next heq =>
    cases heq
    exact absurd h (by decide)
  · rfl

/-- A finite number at the front of a text is cut off as it was written. -/
theorem takeNumber?_numberText {x : Float} (hx : x.isFinite = true) {rest : List Char}
    (hrest : Apart isNumeralChar rest) :
    (∃ c cs, (numberText x).toList = c :: cs ∧ isNumberStart c = true) ∧
      Token.takeNumber? ((numberText x).toList ++ rest) = some ((numberText x).toList, rest) := by
  obtain ⟨negative, body, value, htext, hspells, -⟩ := exists_spells_numberText hx
  have htake := hspells.take rest hrest
  obtain ⟨d, ds, rfl, hdigit⟩ := hspells.head
  rw [htext]
  cases negative
  · refine ⟨⟨d, ds, rfl, by simp [isNumberStart, hdigit]⟩, ?_⟩
    have hmantissa : isMantissaChar d = true := by simp [isMantissaChar, hdigit]
    exact (takeNumber?_of_isMantissaChar hmantissa (ds ++ rest)).trans htake
  · refine ⟨⟨'-', d :: ds, rfl, rfl⟩, ?_⟩
    change Option.map _ (takeNumeral? (d :: ds ++ rest)) = _
    rw [htake]
    rfl

/-- What cannot continue a word cannot continue a number. -/
theorem isNumeralChar_of_isWordChar {c : Char} (h : isWordChar c = false) :
    isNumeralChar c = false := by
  simp only [isWordChar, isNameChar, isNumeralChar, isMantissaChar, isDigit, Bool.or_eq_false_iff,
    decide_eq_false_iff_not] at h ⊢
  refine ⟨⟨⟨h.1.2, h.2⟩, ?_⟩, ?_⟩
  · rintro rfl
    exact absurd h.1.1 (by decide)
  · rintro rfl
    exact absurd h.1.1 (by decide)

/-- The text of a finite number is scanned as a number. -/
theorem scans_numberText {x : Float} (hx : x.isFinite = true) :
    Scans (numberText x).toList (.number (numberText x)) := by
  intro rest hrest
  obtain ⟨⟨c, cs, htext, hstart⟩, hnumber⟩ :=
    takeNumber?_numberText hx (hrest.imp fun _ => isNumeralChar_of_isWordChar)
  have hpiece := piece_numberStart hstart (cs ++ rest)
  rw [← List.cons_append, ← htext, hnumber] at hpiece
  simp only [String.ofList_toList] at hpiece
  rw [htext, List.cons_append, items_of_token hpiece]

/-- A minus sign without digits is no token. -/
theorem items_minusInfinity (rest : List Char) : items ("-inf".toList ++ rest) = none := by
  have hminus : isNumberStart '-' = true := rfl
  exact items_of_bad (piece_numberStart hminus ('i' :: 'n' :: 'f' :: rest))

/-! ## Scanned tokens are scanned again -/

/-- A token whose text is scanned as that token, a string literal being between its marks.  Of a
number nothing is asked. -/
def Token.Rescans : Token → Prop
  | .name text => Scans text.toList (.name text)
  | .string text =>
    (∃ inner, text.toList = '\x22' :: (inner ++ ['\x22'])) ∧ Scans text.toList (.string text)
  | _ => True

theorem rescans_of_piece {c : Char} {cs lexeme rest : List Char} {token : Token}
    (h : Token.piece c cs = .token token lexeme rest) : token.Rescans := by
  unfold Token.piece at h
  split at h
  case h_7 =>
    unfold Piece.ofString at h
    split at h
    · next hclosed =>
      cases h
      obtain ⟨inner, rfl⟩ := (scanString_eq_closed hclosed).2.1
      refine ⟨⟨inner, String.toList_ofList⟩, ?_⟩
      rw [String.toList_ofList]
      exact scans_string hclosed
    · cases h
  case h_8 =>
    split at h
    · split at h <;> cases h
    · cases h
  case h_9 =>
    split at h
    · cases h
    · split at h
      · next hstart =>
        cases h
        exact scans_name String.toList_ofList hstart (List.all_eq_true.1 List.all_takeWhile)
      · split at h
        · cases h
          trivial
        · cases h
  all_goals
    cases h
    trivial

/-- Every name and string literal of a text is scanned again wherever it stands. -/
theorem rescans_of_items {cs : List Char} {tokens : List Token} (h : items cs = some tokens) :
    ∀ token ∈ tokens, token.Rescans := by
  induction hn : cs.length using Nat.strong_induction_on generalizing cs tokens with
  | _ n ih =>
    subst hn
    cases cs with
    | nil =>
      cases h
      simp
    | cons c cs =>
      have hcuts := Token.piece_cuts c cs
      cases hpiece : Token.piece c cs with
      | token first lexeme rest =>
        rw [hpiece] at hcuts
        rw [items_of_token hpiece, Option.map_eq_some_iff] at h
        obtain ⟨more, hmore, rfl⟩ := h
        intro token htoken
        rcases List.mem_cons.1 htoken with rfl | htoken
        · exact rescans_of_piece hpiece
        · exact ih _ (length_lt_of_append hcuts) hmore rfl token htoken
      | gap lexeme rest =>
        rw [hpiece] at hcuts
        rw [items_of_gap hpiece] at h
        exact ih _ (length_lt_of_append hcuts) h rfl
      | bad cause lexeme =>
        rw [items_of_bad hpiece] at h
        cases h

end Program

end CallScript
