import CallScript.Proofs.Engine.Bridge
import CallScript.Value.Text

/-!
# Printed values are literals

The text that `Value.repr` gives for data, which is everything but functions and numbers that are
not finite, reads as an expression again, and that expression is the literal of the value
(`Value.parse_repr`).  A `Phrase` has a text if the text is cut into tokens that the grammar derives
the phrase from, wherever something follows that cannot continue it; the texts of items, of entries
and of displays are made from the texts inside them.
-/

namespace CallScript

open Pattern
open scoped Computability

/-! ## Quoted texts -/

theorem quoteMark_eq (cs : List Char) : quoteMark cs = '\x22' ∨ quoteMark cs = '\x27' := by
  unfold quoteMark
  split
  · exact .inl rfl
  · exact .inr rfl

theorem quoteChar_mem (mark c : Char) : quoteChar mark c ∈
    oneOf (fun c => c ≠ mark ∧ c ≠ '\\' ∧ c ≠ '\n') + oneOf (· = '\\') * oneOf (· ≠ '\n') := by
  have hescaped {d : Char} (hd : d ≠ '\n') :
      ['\\', d] ∈ (oneOf (· = '\\') * oneOf (· ≠ '\n') : Language Char) :=
    mem_oneOf_mul.2 ⟨'\\', [d], rfl, rfl, d, hd, rfl⟩
  unfold quoteChar
  split
  · exact .inr (hescaped (by decide))
  · exact .inr (hescaped (by decide))
  · exact .inr (hescaped (by decide))
  · exact .inr (hescaped (by decide))
  · next hslash hline _ _ =>
    by_cases hc : c = mark
    · rw [if_pos hc]
      exact .inr (hescaped hline)
    · rw [if_neg hc]
      exact .inl ⟨c, ⟨hc, hslash, hline⟩, rfl⟩

theorem denotes_quoteChar {mark : Char} (hmark : mark = '\x22' ∨ mark = '\x27') (c : Char)
    {cs text : List Char} (h : Expression.Denotes cs text) :
    Expression.Denotes (quoteChar mark c ++ cs) (c :: text) := by
  unfold quoteChar
  split
  · exact .escape rfl h
  · exact .escape rfl h
  · exact .escape rfl h
  · exact .escape rfl h
  · next hslash _ _ _ =>
    by_cases hc : c = mark
    · rw [if_pos hc]
      refine .escape ?_ h
      rcases hmark with rfl | rfl <;> rw [hc] <;> rfl
    · rw [if_neg hc]
      exact .plain hslash h

/-- A quoted text is the inside of a string literal that stands for the text. -/
theorem quoted_inside {mark : Char} (hmark : mark = '\x22' ∨ mark = '\x27') (cs : List Char) :
    cs.flatMap (quoteChar mark) ∈ inside mark ∧
    Expression.Denotes (cs.flatMap (quoteChar mark)) cs := by
  induction cs with
  | nil => exact ⟨nil_mem_inside mark, .nil⟩
  | cons c cs ih =>
    rw [List.flatMap_cons]
    exact ⟨append_mem_inside (quoteChar_mem mark c) ih.1, denotes_quoteChar hmark c ih.2⟩

/-! ## Texts of phrases -/

namespace Expression

theorem longest_quoted (cs rest : List Char) :
    lexicon.Longest (.string (String.ofList cs)) (quotedChars cs) rest := by
  have hmark := quoteMark_eq cs
  obtain ⟨hinside, hdenotes⟩ := quoted_inside hmark cs
  have hpiece := piece_string hmark hinside rest
  rw [← hdenotes.eq_unescape] at hpiece
  exact (fits_piece (quoteMark cs) _).longest hpiece

theorem longest_keyword {token : Token} (h : token ∈ Token.keywords) {rest : List Char}
    (hrest : Apart isNameChar rest) : lexicon.Longest token token.text.toList rest := by
  have hlongest := longest_word (keyword_mem_word h) hrest
  rwa [ofWord_text h] at hlongest

/-- A text is cut into tokens of a phrase wherever something follows that cannot continue it. -/
def Phrase.HasText (phrase : Phrase) (text : List Char) : Prop :=
  ∃ own : List Token,
    (∀ {rest : List Char} {items : List Token}, Apart Program.isPlainChar rest →
      lexicon.Consists rest items → lexicon.Consists (text ++ rest) (own ++ items)) ∧
    ∀ tokens : Input, tokens.map Placed.item = own → Derives phrase tokens

namespace Phrase

theorem hasText_none : (expression .test .none).HasText "None".toList := by
  refine ⟨[.none_], fun {rest _} hrest h => ?_, fun tokens htokens => ?_⟩
  · have hname : Apart isNameChar rest := hrest.imp (by simp +contextual [Program.isPlainChar])
    have hlongest : lexicon.Longest .none_ "None".toList rest :=
      longest_keyword (by simp [Token.keywords]) hname
    exact h.token hlongest
  · obtain ⟨⟨_, s⟩, rfl, rfl⟩ := List.map_eq_singleton_iff.1 htokens
    exact (Derives.none_ s).loosen (by decide)

theorem hasText_literal (l : NumberLiteral) : (expression .test l.expr).HasText l.chars :=
  ⟨l.tokens, consists_literal l, fun _ => derives_literal l⟩

theorem hasText_string (s : String) : (expression .test (.string s)).HasText
    (quotedChars s.toList) := by
  refine ⟨[.string s], fun hrest h => ?_, fun tokens htokens => ?_⟩
  · have hlongest := longest_quoted s.toList
    rw [String.ofList_toList] at hlongest
    exact h.token (hlongest _)
  · obtain ⟨⟨_, span⟩, rfl, rfl⟩ := List.map_eq_singleton_iff.1 htokens
    exact (Derives.string (.lastString s span)).loosen (by decide)

theorem HasText.entry {key value : Expr} {keyText valueText : List Char}
    (hk : (expression .test key).HasText keyText)
    (hv : (expression .test value).HasText valueText) :
    (Phrase.entry key value).HasText (keyText ++ [':', ' '] ++ valueText) := by
  obtain ⟨keyOwn, hkeyCut, hkey⟩ := hk
  obtain ⟨valueOwn, hvalueCut, hvalue⟩ := hv
  refine ⟨keyOwn ++ .colon :: valueOwn, fun hrest h => ?_, fun tokens htokens => ?_⟩
  · have hcolon := ((hvalueCut hrest h).gap separates_blank).token
      ((fits_piece ':' _).longest rfl)
    simpa using hkeyCut (apart_cons (by decide)) hcolon
  · obtain ⟨first, _, rfl, hfirst, hmore⟩ := List.map_eq_append_iff.1 htokens
    obtain ⟨⟨_, s⟩, last, rfl, rfl, hlast⟩ := List.map_eq_cons_iff.1 hmore
    exact .entry s (hkey first hfirst) (hvalue last hlast)

/-- Phrases with commas and blanks between them. -/
theorem HasText.items {α : Type} {phrase : α → Phrase} {text : α → List Char} {as : List α}
    (hne : as ≠ []) (h : ∀ a ∈ as, (phrase a).HasText (text a)) :
    (Phrase.items (as.map phrase)).HasText ([',', ' '].intercalate (as.map text)) := by
  induction as with
  | nil => exact absurd rfl hne
  | cons a as ih =>
    obtain ⟨own, hcut, hderives⟩ := h a List.mem_cons_self
    cases as with
    | nil =>
      refine ⟨own, fun hrest hitems => ?_, fun tokens htokens => .firstItem (hderives _ htokens)⟩
      simpa using hcut hrest hitems
    | cons b as =>
      obtain ⟨more, hmoreCut, hmore⟩ := ih (by simp) fun b hb => h b (.tail _ hb)
      refine ⟨own ++ .comma :: more, fun hrest hitems => ?_, fun tokens htokens => ?_⟩
      · have hcomma := ((hmoreCut hrest hitems).gap separates_blank).token
          ((fits_piece ',' _).longest rfl)
        have hall := hcut (apart_cons (by decide)) hcomma
        simpa [List.intercalate_cons_cons] using hall
      · obtain ⟨first, _, rfl, hfirst, hrest⟩ := List.map_eq_append_iff.1 htokens
        obtain ⟨⟨_, s⟩, last, rfl, rfl, hlast⟩ := List.map_eq_cons_iff.1 hrest
        exact (hderives first hfirst).item_cons s (hmore last hlast)

/-- Phrases with commas and blanks between them, or none, between two delimiters. -/
theorem HasText.display {α : Type} {phrase : α → Phrase} {text : α → List Char} {as : List α}
    (h : ∀ a ∈ as, (phrase a).HasText (text a)) {e : Expr} {opening closing : Char}
    {openToken closeToken : Token}
    (hopen : ∀ cs, Token.piece opening cs = .token openToken [opening] cs)
    (hclose : ∀ cs, Token.piece closing cs = .token closeToken [closing] cs)
    (hplain : Program.isPlainChar closing = false)
    (hempty : as = [] → ∀ s s' : Span,
      Derives (.expression .atom e) [⟨openToken, s⟩, ⟨closeToken, s'⟩])
    (hitems : ∀ (s s' : Span) (inner : Input), Derives (.items (as.map phrase)) inner →
      Derives (.expression .atom e) (⟨openToken, s⟩ :: (inner ++ [⟨closeToken, s'⟩]))) :
    (expression .test e).HasText
      (opening :: [',', ' '].intercalate (as.map text) ++ [closing]) := by
  -- Between the delimiters there is nothing or a list of items.
  have hinner : ∃ own : List Token,
      (∀ {rest : List Char} {items : List Token}, Apart Program.isPlainChar rest →
        lexicon.Consists rest items →
        lexicon.Consists ([',', ' '].intercalate (as.map text) ++ rest) (own ++ items)) ∧
      ∀ (s s' : Span) (inner : Input), inner.map Placed.item = own →
        Derives (.expression .atom e) (⟨openToken, s⟩ :: (inner ++ [⟨closeToken, s'⟩])) := by
    by_cases hne : as = []
    · refine ⟨[], fun _ hitems => ?_, fun s s' inner hown => ?_⟩
      · rwa [hne]
      · rw [List.map_eq_nil_iff.1 hown]
        exact hempty hne s s'
    · obtain ⟨own, hcut, hderives⟩ := HasText.items hne h
      exact ⟨own, hcut, fun s s' inner hown => hitems s s' inner (hderives inner hown)⟩
  obtain ⟨own, hcut, hderives⟩ := hinner
  refine ⟨openToken :: (own ++ [closeToken]), fun hrest hitems => ?_, fun tokens htokens => ?_⟩
  · have hend := hitems.token ((fits_piece closing _).longest (hclose _))
    have hbody := hcut (apart_cons hplain) hend
    simpa using hbody.token ((fits_piece opening _).longest (hopen _))
  · obtain ⟨⟨_, s⟩, _, rfl, rfl, hbody⟩ := List.map_eq_cons_iff.1 htokens
    obtain ⟨inner, _, rfl, hown, hlast⟩ := List.map_eq_append_iff.1 hbody
    obtain ⟨⟨_, s'⟩, rfl, rfl⟩ := List.map_eq_singleton_iff.1 hlast
    exact (hderives s s' inner hown).loosen (by decide)

end Phrase

end Expression

/-! ## Data -/

namespace Value

/-- A value that is made of nothing but finite numbers, strings, lists and mappings. -/
inductive IsData : Value → Prop where
  | none : IsData .none
  | number {x : Float} (hx : x.isFinite = true) : IsData (.number x)
  | string (s : String) : IsData (.string s)
  | list {xs : List Value} (h : ∀ x ∈ xs, IsData x) : IsData (.list xs)
  | mapping {v : Value} {es : Bindings} (hv : v.entries? = some es)
    (h : ∀ e ∈ es, IsData e.2) : IsData v

end Value

/-- Whether the sign bit of a number is set. -/
def signBit (x : Float) : Bool :=
  2 ^ 63 ≤ x.toBits.toNat

/-- The literal of a number: one with the sign bit is the negative of its absolute value. -/
def numberExpr (x : Float) : Expr :=
  if signBit x then .unary .neg (.number x.abs) else .number x

namespace Value

mutual

/-- The literal of a value; functions have none, and `None` stands for them. -/
def literal : Value → Expr
  | .none => .none
  | .number x => numberExpr x
  | .string s => .string s
  | .list items => .list (itemLiterals items)
  | .map entries => .dict (entryLiterals entries)
  | .view entries => .dict (entryLiterals entries)
  | .callable _ => .none
  | .function _ _ => .none

/-- The literals of the items of a list. -/
def itemLiterals : List Value → List Expr
  | [] => []
  | item :: items => literal item :: itemLiterals items

/-- The literals of the keys and values of a mapping. -/
def entryLiterals : Bindings → List (Expr × Expr)
  | [] => []
  | (key, value) :: entries => (.string key, literal value) :: entryLiterals entries

end

mutual

/-- A value with every mapping in it in the form that environments store. -/
def stored : Value → Value
  | .list items => .list (storedItems items)
  | .map entries => .map (storedEntries entries)
  | .view entries => .map (storedEntries entries)
  | value => value

/-- The items of a list with every mapping in them as stored. -/
def storedItems : List Value → List Value
  | [] => []
  | item :: items => stored item :: storedItems items

/-- The entries of a mapping with every mapping in them as stored. -/
def storedEntries : Bindings → Bindings
  | [] => []
  | (key, value) :: entries => (key, stored value) :: storedEntries entries

end

end Value

namespace Expr

mutual

/-- The value that a literal stands for; `None` for any other expression. -/
def literalValue : Expr → Value
  | .number x => .number x
  | .unary .neg (.number x) => .number (-x)
  | .string s => .string s
  | .list items => .list (literalValues items)
  | .dict entries => .map (literalEntries entries)
  | _ => .none

/-- The values of the items of a list display. -/
def literalValues : List Expr → List Value
  | [] => []
  | item :: items => literalValue item :: literalValues items

/-- The entries of a dict display whose keys are string literals. -/
def literalEntries : List (Expr × Expr) → Bindings
  | (.string key, value) :: entries => (key, literalValue value) :: literalEntries entries
  | _ => []

end

end Expr

/-! ## Numbers -/

theorem signBit_of_finite {x : Float} {negative : Bool} {m : ℕ} {e : ℤ}
    (h : Binary.ofFloat x = .finite negative m e) : signBit x = negative := by
  have hlt : x.toBits.toNat < 2 ^ 64 := x.toBits.toNat_lt
  have hsign : negative = (x.toBits.toNat / 2 ^ 63 % 2 == 1) := by
    simp only [Binary.ofFloat, Binary.ofBits, Nat.shiftRight_eq_div_pow] at h
    split at h
    · split at h <;> cases h
    · split at h <;> cases h <;> rfl
  rw [hsign, signBit, Bool.eq_iff_iff, decide_eq_true_iff, beq_iff_eq]
  omega

/-- The text of a finite number is a literal, and the literal stands for the number. -/
theorem exists_numberLiteral {x : Float} (hx : x.isFinite = true) :
    ∃ l : NumberLiteral, l.chars = (numberText x).toList ∧ l.expr = numberExpr x ∧ l.value = x := by
  obtain ⟨negative, m, e, hbits⟩ := Binary.isFinite_iff.1 hx
  obtain ⟨body, value, htext, hspells, habs, hvalue⟩ := spells_numberText hbits
  have htake := hspells.take [] (apart_nil _)
  rw [List.append_nil] at htake
  refine ⟨⟨negative, body, (takes_numeral.split htake).2⟩, ?_, ?_, hvalue⟩
  · rw [htext, NumberLiteral.chars]
    cases negative <;> rfl
  · rw [NumberLiteral.expr, numberExpr, signBit_of_finite hbits]
    cases negative with
    | true => simp [habs]
    | false => simpa [withSign] using hvalue

theorem NumberLiteral.literalValue_expr (l : NumberLiteral) :
    l.expr.literalValue = .number l.value := by
  unfold expr value
  cases l.negative <;> rfl

namespace Value

/-! ## Lists and mappings as items between commas -/

theorem itemLiterals_eq (xs : List Value) : itemLiterals xs = xs.map literal := by
  induction xs with
  | nil => rfl
  | cons x xs ih => rw [itemLiterals, ih, List.map_cons]

theorem entryLiterals_eq (es : Bindings) :
    entryLiterals es = es.map fun e => (.string e.1, e.2.literal) := by
  induction es with
  | nil => rfl
  | cons e es ih => rw [entryLiterals, ih, List.map_cons]

theorem itemsChars_eq (xs : List Value) :
    itemsChars xs = [',', ' '].intercalate (xs.map reprChars) := by
  induction xs with
  | nil => rfl
  | cons x xs ih =>
    cases xs with
    | nil => simp [itemsChars, moreItemsChars]
    | cons y ys =>
      rw [List.map_cons, List.map_cons, List.intercalate_cons_cons, ← List.map_cons, ← ih]
      simp [itemsChars, moreItemsChars]

/-- The text of a key and a value. -/
def entryText (e : String × Value) : List Char :=
  quotedChars e.1.toList ++ [':', ' '] ++ e.2.reprChars

theorem IsData.entriesChars_cons {e : String × Value} (h : e.2.IsData) (es : Bindings) :
    entriesChars (e :: es) = entryText e ++ moreEntriesChars es := by
  obtain ⟨key, value⟩ := e
  cases value with
  | callable c =>
    cases h with
    | mapping hv => cases hv
  | _ => rfl

theorem IsData.moreEntriesChars_cons {e : String × Value} (h : e.2.IsData) (es : Bindings) :
    moreEntriesChars (e :: es) = [',', ' '] ++ entriesChars (e :: es) := by
  obtain ⟨key, value⟩ := e
  cases value with
  | callable c =>
    cases h with
    | mapping hv => cases hv
  | _ => simp [moreEntriesChars, entriesChars]

theorem entriesChars_eq {es : Bindings} (h : ∀ e ∈ es, e.2.IsData) :
    entriesChars es = [',', ' '].intercalate (es.map entryText) := by
  induction es with
  | nil => rfl
  | cons e es ih =>
    have hrest := ih fun e he => h e (.tail _ he)
    rw [(h e List.mem_cons_self).entriesChars_cons]
    cases es with
    | nil => simp [moreEntriesChars]
    | cons e' es =>
      rw [List.map_cons, List.map_cons, List.intercalate_cons_cons, ← List.map_cons, ← hrest,
        (h e' (.tail _ List.mem_cons_self)).moreEntriesChars_cons, List.append_assoc]

/-! ## Reading printed data -/

open Expression

theorem hasText_list {xs : List Value}
    (h : ∀ x ∈ xs, (Phrase.expression .test x.literal).HasText x.reprChars) :
    (Phrase.expression .test (.list (xs.map literal))).HasText
      ('[' :: [',', ' '].intercalate (xs.map reprChars) ++ [']']) := by
  refine .display h (fun _ => rfl) (fun _ => rfl) (by decide) ?_ fun s s' inner hinner => ?_
  · rintro rfl s s'
    exact .emptyList s s'
  · refine .list s s' ?_
    rwa [Phrase.tests, List.map_map]

theorem hasText_dict {es : Bindings}
    (h : ∀ e ∈ es, (Phrase.expression .test e.2.literal).HasText e.2.reprChars) :
    (Phrase.expression .test (.dict (es.map fun e => (.string e.1, e.2.literal)))).HasText
      ('\x7b' :: [',', ' '].intercalate (es.map entryText) ++ ['\x7d']) := by
  have hentries : ∀ e ∈ es,
      (Phrase.entry (.string e.1) e.2.literal).HasText (entryText e) :=
    fun e he => (Phrase.hasText_string e.1).entry (h e he)
  refine .display hentries (fun _ => rfl) (fun _ => rfl) (by decide) ?_ fun s s' inner hinner => ?_
  · rintro rfl s s'
    exact .emptyDict s s'
  · refine .dict s s' ?_
    rwa [Phrase.entries, List.map_map]

/-- The text of data is the text of its literal. -/
theorem IsData.hasText {v : Value} (hv : v.IsData) :
    (Phrase.expression .test v.literal).HasText v.reprChars := by
  induction hv with
  | none => exact Phrase.hasText_none
  | number hx =>
    obtain ⟨l, hchars, hexpr, -⟩ := exists_numberLiteral hx
    have hl := Phrase.hasText_literal l
    rwa [hchars, hexpr] at hl
  | string s => exact Phrase.hasText_string s
  | @list xs _ ih =>
    have hlist := hasText_list ih
    rwa [← itemLiterals_eq, ← itemsChars_eq] at hlist
  | @mapping v es hes hdata ih =>
    have hdict := hasText_dict ih
    rw [← entryLiterals_eq, ← entriesChars_eq hdata] at hdict
    cases v <;> cases hes <;> exact hdict

/-- Printed data is cut into tokens, and the grammar derives the literal from them. -/
theorem IsData.scan_repr {v : Value} (hv : v.IsData) :
    ∃ tokens, Expression.scan v.repr = .ok tokens ∧
      Derives (.expression .input v.literal) tokens := by
  obtain ⟨own, hcut, hderives⟩ := hv.hasText
  have hall := hcut (apart_nil _) Lexicon.consists_nil
  rw [List.append_nil, List.append_nil] at hall
  obtain ⟨tokens, hmunches, hitems⟩ := hall 0
  refine ⟨tokens, ?_, (hderives tokens hitems).loosen (by decide)⟩
  refine (Lexicon.scan_eq_ok_iff fits_piece _ _).2 ?_
  rwa [repr, String.toList_ofList]

/-! ## What a literal stands for -/

theorem literalValues_itemLiterals {xs : List Value}
    (h : ∀ x ∈ xs, x.literal.literalValue = x.stored) :
    Expr.literalValues (itemLiterals xs) = storedItems xs := by
  induction xs with
  | nil => rfl
  | cons x xs ih =>
    obtain ⟨hx, hxs⟩ := List.forall_mem_cons.1 h
    rw [itemLiterals, Expr.literalValues, storedItems, hx, ih hxs]

theorem literalEntries_entryLiterals {es : Bindings}
    (h : ∀ e ∈ es, e.2.literal.literalValue = e.2.stored) :
    Expr.literalEntries (entryLiterals es) = storedEntries es := by
  induction es with
  | nil => rfl
  | cons e es ih =>
    obtain ⟨he, hes⟩ := List.forall_mem_cons.1 h
    rw [entryLiterals, Expr.literalEntries, storedEntries, he, ih hes]

/-- The literal of data stands for the data, but for the form of the mappings in it. -/
theorem IsData.literalValue_literal {v : Value} (hv : v.IsData) :
    v.literal.literalValue = v.stored := by
  induction hv with
  | none => rfl
  | @number x hx =>
    obtain ⟨l, -, hexpr, hvalue⟩ := exists_numberLiteral hx
    show (numberExpr x).literalValue = .number x
    rw [← hexpr, l.literalValue_expr, hvalue]
  | string s => rfl
  | list _ ih => exact congrArg Value.list (literalValues_itemLiterals ih)
  | @mapping v es hes _ ih =>
    have hentries := congrArg Value.map (literalEntries_entryLiterals ih)
    cases v <;> cases hes <;> exact hentries

/-- Printed data that is not too long is read as its literal, and data that is printed alike is the
same but for the form of the mappings in it. -/
theorem parse_repr {v : Value} (hv : v.IsData) :
    ((∀ tokens, Expression.scan v.repr = .ok tokens → tokens.length ≤ Expression.tokenLimit) →
      Expression.parse v.repr = .ok v.literal) ∧
    ∀ w : Value, w.IsData → w.repr = v.repr → w.stored = v.stored := by
  obtain ⟨tokens, hscan, hderives⟩ := hv.scan_repr
  have hfuel : 4 * tokens.length + 4 ≤ Expression.parseFuel tokens.length := by
    unfold Expression.parseFuel
    omega
  have hwhole := (Expression.whole_eq_ok_iff hfuel).2 hderives
  constructor
  · intro hlimit
    rw [Expression.parse, hscan]
    exact Expression.parseTokens_eq_ok_iff_whole.2 ⟨hlimit tokens hscan, hwhole⟩
  · intro w hw hrepr
    obtain ⟨tokens', hscan', hderives'⟩ := hw.scan_repr
    rw [hrepr, hscan] at hscan'
    cases hscan'
    have hwhole' := (Expression.whole_eq_ok_iff hfuel).2 hderives'
    have hliteral : v.literal = w.literal :=
      congrArg Prod.fst (Except.ok.inj (hwhole.symm.trans hwhole'))
    rw [← hw.literalValue_literal, ← hv.literalValue_literal, hliteral]

/-- A list with a negative zero, and with a mapping that has quotation marks, a backslash and a line
break in its texts. -/
def nestedSample (mapping : Bindings → Value) : Value :=
  .list [.number (-0.0), mapping [("it's", .string "\\\n\x22"), ("", .map [])], .none]

theorem nestedSample_isData {mapping : Bindings → Value}
    (h : ∀ es, (mapping es).entries? = some es) : (nestedSample mapping).IsData := by
  refine .list ?_
  simp only [List.forall_mem_cons, List.not_mem_nil]
  refine ⟨.number (by decide), .mapping (h _) ?_, .none, by simp⟩
  simp only [List.forall_mem_cons, List.not_mem_nil]
  exact ⟨.string _, .mapping rfl (by simp), by simp⟩

theorem parse_repr_nested :
    Expression.parse (nestedSample .view).repr = .ok (.list [
      .unary .neg (.number (-0.0 : Float).abs),
      .dict [(.string "it's", .string "\\\n\x22"), (.string "", .dict [])], .none]) ∧
    (nestedSample .map).stored = (nestedSample .view).stored := by
  have hview : (nestedSample .view).IsData := nestedSample_isData fun _ => rfl
  have hmap : (nestedSample .map).IsData := nestedSample_isData fun _ => rfl
  have hlength : ∀ tokens, Expression.scan (nestedSample .view).repr = .ok tokens →
      tokens.length ≤ Expression.tokenLimit := by
    have hcount : (Expression.scan (nestedSample .view).repr).toOption.all
        (·.length ≤ Expression.tokenLimit) = true := by decide +kernel
    intro tokens hscan
    simpa [hscan, Except.toOption] using hcount
  have hsign : signBit (-0.0) = true := by decide
  obtain ⟨hparse, hsame⟩ := parse_repr hview
  refine ⟨?_, hsame _ hmap rfl⟩
  rw [hparse hlength]
  simp [nestedSample, literal, itemLiterals, entryLiterals, numberExpr, hsign]

end Value

end CallScript
