import CallScript.Proofs.Program.Lexicon
import CallScript.Proofs.Program.Rendering

/-!
# Layout

Blanks and comments put in before or after tokens of a program change neither its tokens nor what it
means (`scan_of_inserted`).  A token with the longest text keeps it: a longer text in the changed
program has no character that a separator starts with (`Inserted.isPrefix`), so it would have stood
in the program before.
-/

namespace CallScript

open Pattern
open scoped Computability

namespace Program

/-- The offsets right before and right after tokens, and the ends of the text. -/
def IsBoundary (source : String) (tokens : List (Placed Token)) (offset : Nat) : Prop :=
  offset = 0 ∨ offset = byteLength source.toList ∨
    ∃ token ∈ tokens, offset = token.span.start ∨ offset = token.span.stop

/-- A text that starts at byte `start`, and the same text with blanks and comments put in at some
places. -/
inductive Inserted (places : Nat → Prop) : Nat → List Char → List Char → Prop where
  | nil (start : Nat) : Inserted places start [] []
  | char (c : Char) {start : Nat} {cs changed : List Char}
    (h : Inserted places (start + c.utf8Size) cs changed) :
    Inserted places start (c :: cs) (c :: changed)
  | insert {start : Nat} {cs text more changed : List Char} (hplace : places start)
    (htext : text ∈ separator) (h : Inserted places start cs more)
    (hchanged : changed = text ++ more) : Inserted places start cs changed

namespace Inserted

variable {places : Nat → Prop} {start : Nat} {cs changed : List Char}

/-- What has been put in before the first character, and what follows. -/
theorem exists_parts (h : Inserted places start cs changed) :
    ∃ parts more, changed = List.flatten parts ++ more ∧ (∀ part ∈ parts, part ∈ separator) ∧
      (¬places start → parts = []) ∧ ((cs = [] ∧ more = []) ∨
        ∃ c ds ds', cs = c :: ds ∧ more = c :: ds' ∧
          Inserted places (start + c.utf8Size) ds ds') := by
  induction h with
  | nil start => exact ⟨[], [], rfl, nofun, fun _ => rfl, .inl ⟨rfl, rfl⟩⟩
  | @char c start cs changed h _ =>
    exact ⟨[], c :: changed, rfl, nofun, fun _ => rfl, .inr ⟨c, cs, changed, rfl, rfl, h⟩⟩
  | @insert start cs text more changed hplace htext h hchanged ih =>
    obtain ⟨parts, rest, rfl, hparts, -, hrest⟩ := ih
    refine ⟨text :: parts, rest, ?_, List.forall_mem_cons.2 ⟨htext, hparts⟩,
      fun hnot => absurd hplace hnot, hrest⟩
    rw [hchanged, List.flatten_cons, List.append_assoc]

/-- Nothing is put in where there is no place for it. -/
theorem append_of_not {first : List Char} (h : Inserted places start (first ++ cs) changed)
    (hplaces : ∀ p, places p → p < start ∨ start + byteLength first ≤ p) :
    ∃ more, changed = first ++ more ∧ Inserted places (start + byteLength first) cs more := by
  induction first generalizing start changed with
  | nil => exact ⟨changed, rfl, h⟩
  | cons c first ih =>
    have hsize := c.utf8Size_pos
    have hnot : ¬places start := fun hplace => by
      have := hplaces start hplace
      rw [byteLength_cons] at this
      omega
    obtain ⟨parts, more, rfl, -, hparts, ⟨hnil, -⟩ | ⟨d, ds, ds', heq, rfl, hrest⟩⟩ :=
      h.exists_parts
    · cases hnil
    · cases heq
      rw [hparts hnot]
      obtain ⟨more, rfl, hmore⟩ := ih hrest fun p hp => by
        have := hplaces p hp
        rw [byteLength_cons] at this
        omega
      refine ⟨more, rfl, ?_⟩
      rwa [byteLength_cons, ← Nat.add_assoc]

/-- Without places inside a first part, separators are put in before it and after it only. -/
theorem append {first : List Char} (hne : first ≠ [])
    (h : Inserted places start (first ++ cs) changed)
    (hplaces : ∀ p, places p → p ≤ start ∨ start + byteLength first ≤ p) :
    ∃ parts more, changed = List.flatten parts ++ (first ++ more) ∧
      (∀ part ∈ parts, part ∈ separator) ∧
      Inserted places (start + byteLength first) cs more := by
  obtain ⟨c, first, rfl⟩ := List.exists_cons_of_ne_nil hne
  have hsize := c.utf8Size_pos
  obtain ⟨parts, more, rfl, hparts, -, ⟨hnil, -⟩ | ⟨d, ds, ds', heq, rfl, hrest⟩⟩ :=
    h.exists_parts
  · cases hnil
  · cases heq
    obtain ⟨more, rfl, hmore⟩ := hrest.append_of_not fun p hp => by
      have := hplaces p hp
      rw [byteLength_cons] at this
      omega
    refine ⟨parts, more, rfl, hparts, ?_⟩
    rwa [byteLength_cons, ← Nat.add_assoc]

end Inserted

/-! ## Longest texts stay longest -/

/-- A text that no separator interrupts has not been interrupted by one. -/
theorem Inserted.isPrefix {places : Nat → Prop} {start : Nat} {cs changed text : List Char}
    (h : Inserted places start cs changed) (htext : text <+: changed)
    (hchars : ∀ c ∈ text, isSeparatorStart c = false) : text <+: cs := by
  induction h generalizing text with
  | nil start => exact htext
  | char c h ih =>
    rcases List.prefix_cons_iff.1 htext with rfl | ⟨rest, rfl, hrest⟩
    · exact List.nil_prefix
    · have hrest' := ih hrest fun d hd => hchars d (List.mem_cons_of_mem _ hd)
      exact List.cons_prefix_cons.2 ⟨rfl, hrest'⟩
  | insert hplace hsep h hchanged ih =>
    obtain ⟨c, cs, rfl, hc⟩ := separator_head hsep
    rw [hchanged, List.cons_append] at htext
    rcases List.prefix_cons_iff.1 htext with rfl | ⟨rest, rfl, -⟩
    · exact List.nil_prefix
    · rw [hchars c List.mem_cons_self] at hc
      cases hc

/-- A character of a number or a name. -/
def isPlainChar (c : Char) : Bool :=
  isNameChar c || c = '.' || c = '+' || c = '-'

theorem isPlainChar_of_isDigits {cs : List Char} (h : IsDigits cs) :
    ∀ c ∈ cs, isPlainChar c = true := by
  intro c hc
  have hdigit := h c hc
  simp only [isDigit] at hdigit
  simp [isPlainChar, isNameChar, hdigit]

theorem isPlainChar_of_word {text : List Char} (h : text ∈ word) :
    ∀ c ∈ text, isPlainChar c = true := by
  obtain ⟨c, cs, rfl, hc, hcs⟩ := mem_word.1 h
  refine List.forall_mem_cons.2 ⟨?_, fun d hd => ?_⟩
  · simp [isPlainChar, isNameChar, hc]
  · simp [isPlainChar, hcs d hd]

theorem isPlainChar_of_mantissa {text : List Char} (h : text ∈ mantissa) :
    ∀ c ∈ text, isPlainChar c = true := by
  rcases mem_mantissa.1 h with
    ⟨whole, hwhole, rfl | ⟨fraction, hfraction, rfl⟩⟩ | ⟨fraction, hfraction, rfl⟩
  · exact isPlainChar_of_isDigits (mem_digits.1 hwhole).2
  · refine List.forall_mem_append.2 ⟨isPlainChar_of_isDigits (mem_digits.1 hwhole).2, ?_⟩
    exact List.forall_mem_cons.2 ⟨rfl, isPlainChar_of_isDigits hfraction⟩
  · exact List.forall_mem_cons.2 ⟨rfl, isPlainChar_of_isDigits (mem_digits.1 hfraction).2⟩

theorem isPlainChar_of_sign {text : List Char} (h : text ∈ 1 + sign) :
    ∀ c ∈ text, isPlainChar c = true := by
  rcases mem_one_add.1 h with rfl | ⟨c, rfl | rfl, rfl⟩
  · exact nofun
  · simp [isPlainChar]
  · simp [isPlainChar]

theorem isPlainChar_of_number {text : List Char} (h : text ∈ (1 + sign) * numeral) :
    ∀ c ∈ text, isPlainChar c = true := by
  obtain ⟨signs, hsigns, _, hnumeral, rfl⟩ := Language.mem_mul.1 h
  obtain ⟨front, hfront, back, hback, rfl⟩ := Language.mem_mul.1 hnumeral
  refine List.forall_mem_append.2 ⟨isPlainChar_of_sign hsigns,
    List.forall_mem_append.2 ⟨isPlainChar_of_mantissa hfront, ?_⟩⟩
  rcases mem_one_add.1 hback with rfl | hback
  · exact nofun
  · obtain ⟨mark, signs, ds, rfl, hmark, hsigns, hds⟩ := mem_exponent.1 hback
    refine List.forall_mem_cons.2 ⟨?_, List.forall_mem_append.2 ⟨isPlainChar_of_sign hsigns, ?_⟩⟩
    · rcases hmark with rfl | rfl <;> rfl
    · exact isPlainChar_of_isDigits (mem_digits.1 hds).2

/-- Separators put in after a token leave its text the longest. -/
theorem Inserted.longest {places : Nat → Prop} {start : Nat} {cs changed lexeme : List Char}
    {token : Token} (h : Inserted places start cs changed)
    (hlexeme : lexicon.Longest token lexeme cs) : lexicon.Longest token lexeme changed where
  spells := hlexeme.spells
  length_le other text htext hspells := by
    have hplain (hchars : ∀ c ∈ text, isPlainChar c = true) : text.length ≤ lexeme.length := by
      rcases prefix_append_iff.1 htext with hshort | ⟨extra, rfl, hextra⟩
      · exact hshort.length_le
      · have hcs : extra <+: cs := h.isPrefix hextra fun c hc =>
          not_isSeparatorStart rfl rfl (hchars c (List.mem_append_right _ hc))
        exact hlexeme.length_le other _ ((List.prefix_append_right_inj lexeme).2 hcs) hspells
    obtain ⟨c, ds, rfl, -⟩ := Spelled.takesWhole hlexeme.spells
    rcases Spelled.front hspells htext with ⟨-, rfl⟩ | ⟨rfl, hliteral⟩ | ⟨-, hnumber⟩ | ⟨-, hword⟩
    · simp
    · -- The token is a string literal too, and a text starts with one literal at most.
      have hlexeme' : '\x22' :: ds ∈ stringLiteral '\x22' := by
        rcases Spelled.front hlexeme.spells (List.prefix_refl _) with
          ⟨hmark, -⟩ | ⟨-, hliteral⟩ | ⟨hfront, -⟩ | ⟨hstart, -⟩
        · exact absurd hmark (by decide)
        · exact hliteral
        · exact absurd hfront (by decide)
        · exact absurd hstart (by decide)
      rw [stringLiteral_unique (by decide) hliteral hlexeme' htext (List.prefix_append _ _)]
    · exact hplain (isPlainChar_of_number hnumber)
    · exact hplain (isPlainChar_of_word hword)

/-! ## Programs with other layout -/

/-- Separators put in before or after tokens leave the tokens what they are. -/
theorem Inserted.munches {places : Nat → Prop} {start : Nat} {text rest changed : List Char}
    {tokens : List (Placed Token)} (h : lexicon.Munches start text tokens rest) (hrest : rest = [])
    (hinserted : Inserted places start text changed)
    (hplaces : ∀ p, places p → p ≤ start ∨ p = start + byteLength text ∨
      ∃ token ∈ tokens, p = token.span.start ∨ p = token.span.stop) (start' : Nat) :
    ∃ tokens', lexicon.Munches start' changed tokens' [] ∧
      tokens'.map Placed.item = tokens.map Placed.item := by
  induction h generalizing changed start' with
  | done start rest =>
    subst hrest
    obtain ⟨parts, more, rfl, hparts, -, ⟨-, rfl⟩ | ⟨c, ds, ds', hnil, -⟩⟩ :=
      hinserted.exists_parts
    · exact ⟨[], .gaps hparts (.done _ _), rfl⟩
    · cases hnil
  | @gap start text first cs rest tokens htext hfirst h ih =>
    subst htext
    have hafter (p : Nat) (hp : places p) : p ≤ start ∨ start + byteLength first ≤ p := by
      rcases hplaces p hp with hle | rfl | ⟨token, htoken, hspan⟩
      · exact .inl hle
      · exact .inr (by rw [byteLength_append]; omega)
      · have := h.start_le token htoken
        exact .inr (by omega)
    obtain ⟨parts, more, rfl, hparts, hmore⟩ :=
      hinserted.append (lexicon.separates_ne_nil hfirst) hafter
    obtain ⟨tokens', hmunches, hitems⟩ := ih hrest hmore
      (fun p hp => by
        rcases hplaces p hp with hle | heq | htoken
        · exact .inl (by omega)
        · exact .inr (.inl (by rw [heq, byteLength_append, Nat.add_assoc]))
        · exact .inr (.inr htoken))
      (start' + byteLength parts.flatten + byteLength first)
    exact ⟨tokens', .gaps hparts (.gap rfl hfirst hmunches), hitems⟩
  | @token start text lexeme cs rest token tokens htext hlexeme h ih =>
    subst htext
    have hafter (p : Nat) (hp : places p) : p ≤ start ∨ start + byteLength lexeme ≤ p := by
      rcases hplaces p hp with hle | rfl | ⟨token, htoken, hspan⟩
      · exact .inl hle
      · exact .inr (by rw [byteLength_append]; omega)
      · rcases List.mem_cons.1 htoken with rfl | htoken
        · simp only at hspan
          omega
        · have := h.start_le token htoken
          exact .inr (by omega)
    obtain ⟨parts, more, rfl, hparts, hmore⟩ :=
      hinserted.append (lexicon.spells_ne_nil hlexeme.spells) hafter
    obtain ⟨tokens', hmunches, hitems⟩ := ih hrest hmore
      (fun p hp => by
        rcases hplaces p hp with hle | heq | ⟨token, htoken, hspan⟩
        · exact .inl (by omega)
        · exact .inr (.inl (by rw [heq, byteLength_append, Nat.add_assoc]))
        · rcases List.mem_cons.1 htoken with rfl | htoken
          · simp only at hspan
            exact .inl (by omega)
          · exact .inr (.inr ⟨token, htoken, hspan⟩))
      (start' + byteLength parts.flatten + byteLength lexeme)
    refine ⟨_, .gaps hparts (.token rfl (hmore.longest hlexeme) hmunches), ?_⟩
    rw [List.map_cons, List.map_cons, hitems]

theorem Token.mapNumber_id (token : Token) : token.mapNumber id = token := by
  cases token <;> rfl

/-- A program text with the tokens of another is parsed if that is, as the same program. -/
theorem exists_parse_of_items {source changed : String} {tokens tokens' : List (Placed Token)}
    (hscan : scan source = .ok tokens) (hscan' : scan changed = .ok tokens')
    (hitems : tokens'.map Placed.item = tokens.map Placed.item) {tree : Tree.Block}
    (h : parse source = .ok tree) :
    ∃ tree', parse changed = .ok tree' ∧ Block.ofTree tree' = Block.ofTree tree := by
  obtain ⟨found, hfound, hderives, hnesting⟩ := parse_eq_ok_iff.1 h
  cases hscan.symm.trans hfound
  have hmap : tokens'.map Placed.item = tokens.map fun token => token.item.mapNumber id := by
    simp only [Token.mapNumber_id]
    exact hitems
  obtain ⟨_, hderives', ⟨heq, hn⟩⟩ := hderives.exists_alike_mapNumber (fun _ _ _ _ => rfl) hmap
  exact ⟨_, parse_eq_ok_iff.2 ⟨tokens', hscan', hderives', hn ▸ hnesting⟩, heq⟩

/-- What a program means depends on its tokens only. -/
theorem parse_eq_of_items {source changed : String} {tokens tokens' : List (Placed Token)}
    (hscan : scan source = .ok tokens) (hscan' : scan changed = .ok tokens')
    (hitems : tokens'.map Placed.item = tokens.map Placed.item) :
    (parse changed).toOption.map Block.ofTree = (parse source).toOption.map Block.ofTree := by
  cases hparse : parse source with
  | ok tree =>
    obtain ⟨tree', hparse', heq⟩ := exists_parse_of_items hscan hscan' hitems hparse
    rw [hparse']
    exact congrArg some heq
  | error e =>
    cases hparse' : parse changed with
    | ok tree' =>
      obtain ⟨tree, hok, -⟩ := exists_parse_of_items hscan' hscan hitems.symm hparse'
      rw [hparse] at hok
      cases hok
    | error e' => rfl

/-- Blanks and comments put in before or after tokens, or at the ends, change neither the tokens of
a program, nor whether it is parsed, nor the block it stands for. -/
theorem scan_of_inserted {source changed : String} {tokens : List (Placed Token)}
    (h : scan source = .ok tokens)
    (hinserted : Inserted (IsBoundary source tokens) 0 source.toList changed.toList) :
    (∃ tokens', scan changed = .ok tokens' ∧
      tokens'.map Placed.item = tokens.map Placed.item) ∧
    (parse changed).toOption.map Block.ofTree = (parse source).toOption.map Block.ofTree := by
  have hmunches := (Lexicon.scan_eq_ok_iff fits_piece source tokens).1 h
  have hplaces (p : Nat) (hp : IsBoundary source tokens p) :
      p ≤ 0 ∨ p = 0 + byteLength source.toList ∨
        ∃ token ∈ tokens, p = token.span.start ∨ p = token.span.stop := by
    rcases hp with rfl | rfl | htoken
    · exact .inl (Nat.le_refl 0)
    · exact .inr (.inl (Nat.zero_add _).symm)
    · exact .inr (.inr htoken)
  obtain ⟨tokens', hmunches', hitems⟩ := Inserted.munches hmunches rfl hinserted hplaces 0
  have hscan' : scan changed = .ok tokens' :=
    (Lexicon.scan_eq_ok_iff fits_piece changed tokens').2 hmunches'
  exact ⟨⟨tokens', hscan', hitems⟩, parse_eq_of_items h hscan' hitems⟩

/-- A comment before a number that ends in a point, a blank after it and a comment at the end. -/
theorem scan_of_inserted_around_number :
    (∃ tokens', scan "\x7bf(/***/1. )\x7d/*/*/" = .ok tokens' ∧
      tokens'.map Placed.item = [.openBrace, .name "f", .openParen, .number "1.", .closeParen,
        .closeBrace]) ∧
    (parse "\x7bf(/***/1. )\x7d/*/*/").toOption.map Block.ofTree =
      (parse "\x7bf(1.)\x7d").toOption.map Block.ofTree := by
  let tokens : List (Placed Token) := [⟨.openBrace, ⟨0, 1⟩⟩, ⟨.name "f", ⟨1, 2⟩⟩,
    ⟨.openParen, ⟨2, 3⟩⟩, ⟨.number "1.", ⟨3, 5⟩⟩, ⟨.closeParen, ⟨5, 6⟩⟩, ⟨.closeBrace, ⟨6, 7⟩⟩]
  have hscan : scan "\x7bf(1.)\x7d" = .ok tokens := rfl
  have hplace (p : Nat) (hp : p ∈ tokens.flatMap fun token => [token.span.start, token.span.stop]) :
      IsBoundary "\x7bf(1.)\x7d" tokens p := by
    obtain ⟨token, htoken, hspan⟩ := List.mem_flatMap.1 hp
    exact .inr (.inr ⟨token, htoken, by simpa using hspan⟩)
  have hinserted : Inserted (IsBoundary "\x7bf(1.)\x7d" tokens) 0 "\x7bf(1.)\x7d".toList
      "\x7bf(/***/1. )\x7d/*/*/".toList :=
    .char '\x7b' (.char 'f' (.char '(' (.insert (hplace 3 (by decide))
      (.inr ⟨['*'], by decide, rfl⟩) (.char '1' (.char '.' (.insert (hplace 5 (by decide))
        (.inl ⟨' ', rfl, rfl⟩) (.char ')' (.char '\x7d' (.insert (hplace 7 (by decide))
          (.inr ⟨['/'], by decide, rfl⟩) (.nil 7) rfl))) rfl))) rfl)))
  exact scan_of_inserted hscan hinserted

end Program

end CallScript
