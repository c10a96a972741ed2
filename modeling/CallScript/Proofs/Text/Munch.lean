import CallScript.Text.Scan

/-!
# Longest match

A lexicon says which texts are tokens and which texts stand between tokens.  It says nothing about
how a text is cut: `Lexicon.Munches` does, by taking at each place a separator or the token with the
longest text of all.  A scanner whose pieces fit a lexicon finds exactly these tokens, and stops at
the first place where the lexicon has neither (`Lexicon.describes`).
-/

namespace CallScript

theorem byteLength_pos {cs : List Char} (h : cs ≠ []) : 0 < byteLength cs := by
  obtain ⟨c, cs, rfl⟩ := List.exists_cons_of_ne_nil h
  have := c.utf8Size_pos
  rw [byteLength_cons]
  omega

/-- A span with other offsets. -/
def Span.mapOffsets (f : Nat → Nat) (span : Span) : Span :=
  ⟨f span.start, f span.stop⟩

/-- Something at another place. -/
def Placed.mapOffsets {α : Type} (f : Nat → Nat) (placed : Placed α) : Placed α :=
  ⟨placed.item, placed.span.mapOffsets f⟩

/-- The texts that a language is made of. -/
structure Lexicon (τ : Type) where
  /-- The texts of a token. -/
  Spells : τ → List Char → Prop
  /-- The texts between tokens that consist of no shorter ones. -/
  Separates : List Char → Prop
  spells_ne_nil : ∀ {token text}, Spells token text → text ≠ []
  separates_ne_nil : ∀ {text}, Separates text → text ≠ []
  /-- No text is that of two tokens. -/
  spells_unique : ∀ {token other text}, Spells token text → Spells other text → token = other
  /-- A text starts with one separator at most. -/
  separates_unique : ∀ {first other text}, first <+: text → other <+: text →
    Separates first → Separates other → first = other
  /-- No text starts both with a token and with a separator. -/
  apart : ∀ {token first other text}, first <+: text → other <+: text →
    Spells token first → ¬Separates other

namespace Lexicon

variable {τ : Type} (L : Lexicon τ)

/-- A token with a text in front of `rest`, where no token has a longer one. -/
structure Longest (token : τ) (lexeme rest : List Char) : Prop where
  spells : L.Spells token lexeme
  length_le : ∀ other text, text <+: lexeme ++ rest → L.Spells other text →
    text.length ≤ lexeme.length

/-- A text that starts neither with a token nor with a separator. -/
def Stuck (text : List Char) : Prop :=
  ∀ first, first <+: text → ¬L.Separates first ∧ ∀ token, ¬L.Spells token first

/-- A text that starts at byte `start` is cut into separators and tokens up to `rest`; each token
has the longest text that stands at its place, and the span of that text. -/
inductive Munches : Nat → List Char → List (Placed τ) → List Char → Prop where
  | done (start : Nat) (rest : List Char) : Munches start rest [] rest
  | gap {start : Nat} {text first cs rest : List Char} {tokens : List (Placed τ)}
    (htext : text = first ++ cs) (hfirst : L.Separates first)
    (h : Munches (start + byteLength first) cs tokens rest) : Munches start text tokens rest
  | token {start : Nat} {text lexeme cs rest : List Char} {token : τ} {tokens : List (Placed τ)}
    (htext : text = lexeme ++ cs) (hlexeme : L.Longest token lexeme cs)
    (h : Munches (start + byteLength lexeme) cs tokens rest) :
    Munches start text (⟨token, ⟨start, start + byteLength lexeme⟩⟩ :: tokens) rest

variable {L}

theorem stuck_nil : L.Stuck [] := by
  intro first hfirst
  cases List.prefix_nil.1 hfirst
  exact ⟨fun h => L.separates_ne_nil h rfl, fun _ h => L.spells_ne_nil h rfl⟩

theorem Longest.unique {token other : τ} {lexeme text rest more : List Char}
    (h : L.Longest token lexeme rest) (h' : L.Longest other text more)
    (heq : lexeme ++ rest = text ++ more) : token = other ∧ lexeme = text ∧ rest = more := by
  have htext : text <+: lexeme ++ rest := heq ▸ List.prefix_append text more
  have hlexeme : lexeme <+: text ++ more := heq ▸ List.prefix_append lexeme rest
  have hlength : lexeme.length = text.length :=
    Nat.le_antisymm (h'.length_le token lexeme hlexeme h.spells)
      (h.length_le other text htext h'.spells)
  obtain ⟨rfl, rfl⟩ := List.append_inj heq hlength
  exact ⟨L.spells_unique h.spells h'.spells, rfl, rfl⟩

/-- What is longest in front of a text is longest in front of the first part of it. -/
theorem Longest.take {token : τ} {lexeme rest more : List Char}
    (h : L.Longest token lexeme (rest ++ more)) : L.Longest token lexeme rest where
  spells := h.spells
  length_le other text htext := by
    refine h.length_le other text ?_
    rw [← List.append_assoc]
    exact htext.trans (List.prefix_append _ _)

namespace Munches

variable {start : Nat} {text rest : List Char} {tokens : List (Placed τ)}

/-- A text is cut in one way only. -/
theorem unique (h : L.Munches start text tokens rest) (hrest : L.Stuck rest)
    {tokens' : List (Placed τ)} {rest' : List Char} (h' : L.Munches start text tokens' rest')
    (hrest' : L.Stuck rest') : tokens = tokens' ∧ rest = rest' := by
  induction h generalizing tokens' with
  | done start text =>
    cases h' with
    | done => exact ⟨rfl, rfl⟩
    | @gap _ _ first cs _ _ htext hfirst h =>
      exact absurd hfirst (hrest first (htext ▸ List.prefix_append first cs)).1
    | @token _ _ lexeme cs _ token _ htext hlexeme h =>
      have hstart : lexeme <+: text := htext ▸ List.prefix_append lexeme cs
      exact absurd hlexeme.spells ((hrest lexeme hstart).2 token)
  | @gap start text first cs rest tokens htext hfirst h ih =>
    have hstart : first <+: text := htext ▸ List.prefix_append first cs
    cases h' with
    | done => exact absurd hfirst (hrest' first hstart).1
    | @gap _ _ other cs' _ _ htext' hother h' =>
      have hother' : other <+: text := htext' ▸ List.prefix_append other cs'
      obtain rfl := L.separates_unique hstart hother' hfirst hother
      obtain rfl := List.append_cancel_left (htext.symm.trans htext')
      exact ih hrest h'
    | @token _ _ lexeme cs' _ token _ htext' hlexeme h' =>
      have hlexeme' : lexeme <+: text := htext' ▸ List.prefix_append lexeme cs'
      exact absurd hfirst (L.apart hlexeme' hstart hlexeme.spells)
  | @token start text lexeme cs rest token tokens htext hlexeme h ih =>
    have hstart : lexeme <+: text := htext ▸ List.prefix_append lexeme cs
    cases h' with
    | done => exact absurd hlexeme.spells ((hrest' lexeme hstart).2 token)
    | @gap _ _ other cs' _ _ htext' hother h' =>
      have hother' : other <+: text := htext' ▸ List.prefix_append other cs'
      exact absurd hother (L.apart hstart hother' hlexeme.spells)
    | @token _ _ lexeme' cs' _ token' tokens' htext' hlexeme' h' =>
      obtain ⟨rfl, rfl, rfl⟩ := hlexeme.unique hlexeme' (htext.symm.trans htext')
      obtain ⟨rfl, rfl⟩ := ih hrest h'
      exact ⟨rfl, rfl⟩

/-- What has been cut is cut the same way on its own. -/
theorem exists_before (h : L.Munches start text tokens rest) :
    ∃ before, text = before ++ rest ∧ L.Munches start before tokens [] := by
  induction h with
  | done start rest => exact ⟨[], rfl, .done start []⟩
  | @gap start text first cs rest tokens htext hfirst h ih =>
    obtain ⟨before, rfl, hbefore⟩ := ih
    exact ⟨first ++ before, by rw [htext, List.append_assoc], .gap rfl hfirst hbefore⟩
  | @token start text lexeme cs rest token tokens htext hlexeme h ih =>
    obtain ⟨before, rfl, hbefore⟩ := ih
    exact ⟨lexeme ++ before, by rw [htext, List.append_assoc], .token rfl hlexeme.take hbefore⟩

theorem gaps {parts : List (List Char)} (hparts : ∀ part ∈ parts, L.Separates part)
    (h : L.Munches (start + byteLength parts.flatten) text tokens rest) :
    L.Munches start (parts.flatten ++ text) tokens rest := by
  induction parts generalizing start with
  | nil => exact h
  | cons part parts ih =>
    rw [List.flatten_cons, byteLength_append, ← Nat.add_assoc] at h
    refine .gap ?_ (hparts part List.mem_cons_self)
      (ih (fun part hpart => hparts part (List.mem_cons_of_mem _ hpart)) h)
    rw [List.flatten_cons, List.append_assoc]

end Munches

/-! ## Places of tokens -/

namespace Munches

variable {start : Nat} {text rest : List Char} {tokens : List (Placed τ)}

/-- The tokens of a text start and end in it. -/
theorem start_le (h : L.Munches start text tokens rest) :
    ∀ token ∈ tokens, start ≤ token.span.start ∧ start ≤ token.span.stop := by
  induction h with
  | done start rest => exact fun _ => nofun
  | gap htext hfirst h ih =>
    intro token htoken
    have := ih token htoken
    omega
  | token htext hlexeme h ih =>
    intro token htoken
    rcases List.mem_cons.1 htoken with rfl | htoken
    · exact ⟨Nat.le_refl _, Nat.le_add_right _ _⟩
    · have := ih token htoken
      omega

/-- The tokens of a text stand one after another, and none of them is empty. -/
theorem ordered (h : L.Munches start text tokens rest) :
    (tokens.Pairwise fun a b => a.span.stop ≤ b.span.start) ∧
      ∀ token ∈ tokens, token.span.start < token.span.stop := by
  induction h with
  | done start rest => exact ⟨.nil, fun _ => nofun⟩
  | gap htext hfirst h ih => exact ih
  | token htext hlexeme h ih =>
    refine ⟨List.pairwise_cons.2 ⟨fun other hother => (h.start_le other hother).1, ih.1⟩, ?_⟩
    refine List.forall_mem_cons.2 ⟨?_, ih.2⟩
    exact Nat.lt_add_of_pos_right (byteLength_pos (L.spells_ne_nil hlexeme.spells))

/-- A text without tokens consists of separators. -/
theorem exists_parts (h : L.Munches start text [] rest) :
    ∃ parts, text = List.flatten parts ++ rest ∧ ∀ part ∈ parts, L.Separates part := by
  generalize hnone : ([] : List (Placed τ)) = none at h
  induction h with
  | done start rest => exact ⟨[], rfl, fun _ => nofun⟩
  | @gap start text first cs rest tokens htext hfirst h ih =>
    obtain ⟨parts, rfl, hparts⟩ := ih hnone
    refine ⟨first :: parts, ?_, List.forall_mem_cons.2 ⟨hfirst, hparts⟩⟩
    rw [htext, List.flatten_cons, List.append_assoc]
  | token => cases hnone

/-- Before the first token of a text stand separators. -/
theorem exists_leading {first : Placed τ} (h : L.Munches start text (first :: tokens) rest) :
    ∃ parts cs, text = List.flatten parts ++ cs ∧ (∀ part ∈ parts, L.Separates part) ∧
      first.span.start = start + byteLength parts.flatten ∧
      L.Munches first.span.start cs (first :: tokens) rest := by
  generalize hall : first :: tokens = all at h
  induction h with
  | done => cases hall
  | @gap start text gap cs rest all htext hgap h ih =>
    obtain ⟨parts, more, rfl, hparts, hstart, hmore⟩ := ih hall
    refine ⟨gap :: parts, more, ?_, List.forall_mem_cons.2 ⟨hgap, hparts⟩, ?_, hmore⟩
    · rw [htext, List.flatten_cons, List.append_assoc]
    · rw [hstart, List.flatten_cons, byteLength_append, Nat.add_assoc]
  | @token start text lexeme cs rest item tokens htext hlexeme h ih =>
    cases hall
    exact ⟨[], text, rfl, fun _ => nofun, rfl, .token htext hlexeme h⟩

/-- A text can be cut off right after one of its tokens. -/
theorem exists_upto {before after : List (Placed τ)} {last : Placed τ}
    (h : L.Munches start text (before ++ last :: after) rest) :
    ∃ first cs, text = first ++ cs ∧ last.span.stop = start + byteLength first ∧
      L.Munches start first (before ++ [last]) [] ∧ L.Munches last.span.stop cs after rest := by
  generalize hall : before ++ last :: after = all at h
  induction h generalizing before with
  | done => simp at hall
  | @gap start text gap cs rest all htext hgap h ih =>
    obtain ⟨first, more, rfl, hstop, hfirst, hmore⟩ := ih hall
    refine ⟨gap ++ first, more, ?_, ?_, .gap rfl hgap hfirst, hmore⟩
    · rw [htext, List.append_assoc]
    · rw [hstop, byteLength_append, Nat.add_assoc]
  | @token start text lexeme cs rest item tokens htext hlexeme h ih =>
    rcases List.append_eq_cons_iff.1 hall with ⟨rfl, heq⟩ | ⟨before, rfl, rfl⟩
    · cases heq
      have hall : L.Longest item lexeme ([] ++ cs) := hlexeme
      refine ⟨lexeme, cs, htext, rfl, ?_, h⟩
      exact .token (List.append_nil _).symm hall.take (.done _ _)
    · obtain ⟨first, more, rfl, hstop, hfirst, hmore⟩ := ih rfl
      refine ⟨lexeme ++ first, more, ?_, ?_, .token rfl hlexeme.take hfirst, hmore⟩
      · rw [htext, List.append_assoc]
      · rw [hstop, byteLength_append, Nat.add_assoc]

/-- Tokens in a row are cut the same way out of the text from the first of them to the last. -/
theorem exists_between {before own after : List (Placed τ)}
    (h : L.Munches start text (before ++ (own ++ after)) rest) {first last : Placed τ}
    (hfirst : own.head? = some first) (hlast : own.getLast? = some last) :
    ∃ ahead cs behind, text = ahead ++ (cs ++ behind) ∧
      first.span.start = start + byteLength ahead ∧
      last.span.stop = first.span.start + byteLength cs ∧ L.Munches first.span.start cs own [] := by
  obtain ⟨skipped, tail, rfl, htail⟩ : ∃ skipped tail, text = skipped ++ tail ∧
      L.Munches (start + byteLength skipped) tail (own ++ after) rest := by
    rcases List.eq_nil_or_concat before with rfl | ⟨before, final, rfl⟩
    · exact ⟨[], text, rfl, h⟩
    · rw [List.concat_eq_append, List.append_assoc, List.singleton_append] at h
      obtain ⟨skipped, tail, htext, hstop, -, htail⟩ := h.exists_upto
      exact ⟨skipped, tail, htext, hstop ▸ htail⟩
  obtain ⟨more, rfl⟩ := List.head?_eq_some_iff.1 hfirst
  obtain ⟨parts, tail, rfl, -, hstart, htail⟩ := htail.exists_leading
  obtain ⟨front, hfront⟩ := List.getLast?_eq_some_iff.1 hlast
  have htail' : L.Munches first.span.start tail (front ++ last :: after) rest := by
    rw [← List.singleton_append, ← List.append_assoc, ← hfront]
    exact htail
  obtain ⟨cs, behind, rfl, hstop, hcs, -⟩ := htail'.exists_upto
  refine ⟨skipped ++ parts.flatten, cs, behind, ?_, ?_, hstop, hfront ▸ hcs⟩
  · rw [List.append_assoc]
  · rw [hstart, byteLength_append, Nat.add_assoc]

/-- A text is cut the same way wherever it stands. -/
theorem moved {n : Nat} (h : L.Munches (start + n) text tokens rest) :
    L.Munches start text (tokens.map (Placed.mapOffsets (· - n))) rest := by
  generalize hfrom : start + n = place at h
  induction h generalizing start with
  | done place rest => exact .done start rest
  | gap htext hfirst h ih => exact .gap htext hfirst (ih (by omega))
  | @token place text lexeme cs rest item tokens htext hlexeme h ih =>
    have hspan : (⟨item, ⟨place, place + byteLength lexeme⟩⟩ : Placed τ).mapOffsets (· - n) =
        ⟨item, ⟨start, start + byteLength lexeme⟩⟩ := by
      simp only [Placed.mapOffsets, Span.mapOffsets, Placed.mk.injEq, Span.mk.injEq, true_and]
      omega
    rw [List.map_cons, hspan]
    exact .token htext hlexeme (ih (by omega))

end Munches

/-! ## Tokens without their places -/

variable (L) in
/-- A text is cut into separators and the tokens of these items. -/
def Consists (text : List Char) (items : List τ) : Prop :=
  ∀ start, ∃ tokens, L.Munches start text tokens [] ∧ tokens.map Placed.item = items

theorem consists_nil : L.Consists [] [] :=
  fun start => ⟨[], .done start [], rfl⟩

namespace Consists

variable {cs : List Char} {items : List τ}

theorem gap {first : List Char} (hfirst : L.Separates first) (h : L.Consists cs items) :
    L.Consists (first ++ cs) items := by
  intro start
  obtain ⟨tokens, hcs, hitems⟩ := h (start + byteLength first)
  exact ⟨tokens, .gap rfl hfirst hcs, hitems⟩

theorem token {token : τ} {lexeme : List Char} (hlexeme : L.Longest token lexeme cs)
    (h : L.Consists cs items) : L.Consists (lexeme ++ cs) (token :: items) := by
  intro start
  obtain ⟨tokens, hcs, hitems⟩ := h (start + byteLength lexeme)
  exact ⟨_ :: tokens, .token rfl hlexeme hcs, congrArg (token :: ·) hitems⟩

end Consists

/-! ## Spans -/

theorem splitBytes_append (taken rest : List Char) :
    splitBytes (byteLength taken) (taken ++ rest) = some (taken, rest) := by
  induction taken with
  | nil => simp [splitBytes]
  | cons c taken ih =>
    have hsize : 0 < c.utf8Size := c.utf8Size_pos
    obtain ⟨n, hn⟩ : ∃ n, byteLength (c :: taken) = n + 1 :=
      ⟨c.utf8Size - 1 + byteLength taken, by rw [byteLength_cons]; omega⟩
    rw [hn, List.cons_append, splitBytes]
    rw [byteLength_cons] at hn
    have hrest : n + 1 - c.utf8Size = byteLength taken := by omega
    rw [if_pos (by omega), hrest, ih]
    rfl

/-- A span covers the text that it was made for. -/
theorem slice?_append (before taken rest : List Char) :
    (⟨byteLength before, byteLength before + byteLength taken⟩ : Span).slice?
      (before ++ (taken ++ rest)) = some taken := by
  have hstart := splitBytes_append before (taken ++ rest)
  have hstop := splitBytes_append taken rest
  have hguard : guard (byteLength before ≤ byteLength before + byteLength taken) = some () :=
    if_pos (Nat.le_add_right _ _)
  rw [Span.slice?, hguard, hstart]
  simp only [Nat.add_sub_cancel_left, Option.bind_eq_bind, Option.bind_some, hstop]
  rfl

/-- The span of a token covers its text. -/
theorem Munches.slice? {start : Nat} {text rest : List Char} {tokens : List (Placed τ)}
    (h : L.Munches start text tokens rest) {before : List Char}
    (hbefore : byteLength before = start) :
    ∀ token ∈ tokens, ∃ lexeme, token.span.slice? (before ++ text) = some lexeme ∧
      L.Spells token.item lexeme := by
  induction h generalizing before with
  | done start rest => exact fun _ => nofun
  | @gap start text first cs rest tokens htext hfirst h ih =>
    have hafter : byteLength (before ++ first) = start + byteLength first := by
      rw [byteLength_append, hbefore]
    rw [htext, ← List.append_assoc]
    exact ih hafter
  | @token start text lexeme cs rest token tokens htext hlexeme h ih =>
    have hafter : byteLength (before ++ lexeme) = start + byteLength lexeme := by
      rw [byteLength_append, hbefore]
    intro found hfound
    rcases List.mem_cons.1 hfound with rfl | hfound
    · refine ⟨lexeme, ?_, hlexeme.spells⟩
      subst hbefore htext
      exact slice?_append before lexeme cs
    · rw [htext, ← List.append_assoc]
      exact ih hafter found hfound

/-! ## Scanners -/

/-- A scanner takes a text as one token. -/
def TakesWhole (piece : Char → List Char → Piece τ) (token : τ) (text : List Char) : Prop :=
  ∃ c cs, text = c :: cs ∧ piece c cs = .token token text []

theorem TakesWhole.unique {piece : Char → List Char → Piece τ} {token other : τ} {text : List Char}
    (h : TakesWhole piece token text) (h' : TakesWhole piece other text) : token = other := by
  obtain ⟨c, cs, rfl, hpiece⟩ := h
  obtain ⟨_, _, heq, hpiece'⟩ := h'
  cases heq
  cases hpiece.symm.trans hpiece'
  rfl

theorem TakesWhole.ne_nil {piece : Char → List Char → Piece τ} {token : τ} {text : List Char}
    (h : TakesWhole piece token text) : text ≠ [] := by
  obtain ⟨c, cs, rfl, -⟩ := h
  exact List.cons_ne_nil c cs

variable (L)

/-- A piece at the front of a text as the lexicon has it: a token with the longest text, or
separators; characters that are no piece only where the lexicon has none. -/
def Fits (text : List Char) : Piece τ → Prop
  | .token token lexeme rest => text = lexeme ++ rest ∧ L.Longest token lexeme rest
  | .gap lexeme rest => text = lexeme ++ rest ∧ lexeme ≠ [] ∧
      ∃ parts : List (List Char), lexeme = parts.flatten ∧ ∀ part ∈ parts, L.Separates part
  | .bad _ lexeme => ∃ rest, text = lexeme ++ rest ∧ lexeme ≠ [] ∧ L.Stuck text

/-- What a scan of a text that starts at byte `start` reports: its tokens, or the first characters
at which the lexicon has nothing. -/
def Reports (start : Nat) (text : List Char) : Except SyntaxError (List (Placed τ)) → Prop
  | .ok tokens => L.Munches start text tokens []
  | .error e => ∃ before bad after tokens, text = before ++ (bad ++ after) ∧ bad ≠ [] ∧
      L.Stuck (bad ++ after) ∧ L.Munches start text tokens (bad ++ after) ∧
      e.span = ⟨start + byteLength before, start + byteLength before + byteLength bad⟩

variable {L}

theorem Reports.gap {start : Nat} {parts : List (List Char)} {text : List Char}
    {result : Except SyntaxError (List (Placed τ))} (hparts : ∀ part ∈ parts, L.Separates part)
    (h : L.Reports (start + byteLength parts.flatten) text result) :
    L.Reports start (parts.flatten ++ text) result := by
  cases result with
  | ok tokens => exact Munches.gaps hparts h
  | error e =>
    obtain ⟨before, bad, after, tokens, rfl, hbad, hstuck, hmunches, hspan⟩ := h
    refine ⟨parts.flatten ++ before, bad, after, tokens, ?_, hbad, hstuck,
      hmunches.gaps hparts, ?_⟩
    · rw [List.append_assoc]
    · rw [hspan, byteLength_append, ← Nat.add_assoc]

theorem Reports.token {start : Nat} {token : τ} {lexeme text : List Char}
    {result : Except SyntaxError (List (Placed τ))} (hlexeme : L.Longest token lexeme text)
    (h : L.Reports (start + byteLength lexeme) text result) :
    L.Reports start (lexeme ++ text)
      (result.map (⟨token, ⟨start, start + byteLength lexeme⟩⟩ :: ·)) := by
  cases result with
  | ok tokens => exact Munches.token rfl hlexeme h
  | error e =>
    obtain ⟨before, bad, after, tokens, rfl, hbad, hstuck, hmunches, hspan⟩ := h
    refine ⟨lexeme ++ before, bad, after, _, ?_, hbad, hstuck, Munches.token rfl hlexeme hmunches,
      ?_⟩
    · rw [List.append_assoc]
    · rw [hspan, byteLength_append, ← Nat.add_assoc]

section

variable {piece : Char → List Char → Piece τ} (hfits : ∀ c cs, L.Fits (c :: cs) (piece c cs))
include hfits

/-- With enough fuel a scan reports what it should. -/
theorem reports_scanFrom {fuel start : Nat} {text : List Char} (h : text.length ≤ fuel) :
    L.Reports start text (scanFrom piece fuel start text) := by
  induction fuel generalizing start text with
  | zero =>
    cases List.length_eq_zero_iff.1 (Nat.le_zero.1 h)
    exact .done start []
  | succ fuel ih =>
    cases text with
    | nil => exact .done start []
    | cons c cs =>
      have hpiece := hfits c cs
      rw [scanFrom]
      cases hcase : piece c cs with
      | token token lexeme rest =>
        rw [hcase] at hpiece
        obtain ⟨htext, hlexeme⟩ := hpiece
        have hpos := List.length_pos_iff.2 (L.spells_ne_nil hlexeme.spells)
        rw [htext, List.length_append] at h
        rw [htext]
        exact (ih (by omega)).token hlexeme
      | gap lexeme rest =>
        rw [hcase] at hpiece
        obtain ⟨htext, hne, parts, rfl, hparts⟩ := hpiece
        have hpos := List.length_pos_iff.2 hne
        rw [htext, List.length_append] at h
        rw [htext]
        exact (ih (by omega)).gap hparts
      | bad cause lexeme =>
        rw [hcase] at hpiece
        obtain ⟨rest, htext, hne, hstuck⟩ := hpiece
        rw [htext] at hstuck ⊢
        exact ⟨[], lexeme, rest, [], rfl, hne, hstuck, .done _ _, rfl⟩

theorem reports_scan (source : String) : L.Reports 0 source.toList (scan piece source) :=
  reports_scanFrom hfits (Nat.le_refl _)

theorem scan_eq_ok_iff (source : String) (tokens : List (Placed τ)) :
    scan piece source = .ok tokens ↔ L.Munches 0 source.toList tokens [] := by
  have hreports := reports_scan hfits source
  constructor
  · intro h
    rw [h] at hreports
    exact hreports
  · intro h
    cases hscan : scan piece source with
    | ok found =>
      rw [hscan] at hreports
      rw [(h.unique stuck_nil hreports stuck_nil).1]
    | error e =>
      rw [hscan] at hreports
      obtain ⟨before, bad, after, found, -, hbad, hstuck, hmunches, -⟩ := hreports
      have hnil := (h.unique stuck_nil hmunches hstuck).2
      exact absurd (List.append_eq_nil_iff.1 hnil.symm).1 hbad

end

/-- A scanner that does what a lexicon says.  It finds tokens exactly if the text can be cut into
separators and tokens with the longest texts; the span of each token covers its text.  Otherwise it
reports, with a span that ends between characters, the first place where the lexicon has nothing;
the text before that place can be scanned on its own. -/
structure Describes (L : Lexicon τ)
    (scan : String → Except SyntaxError (List (Placed τ))) : Prop where
  ok_iff : ∀ source tokens, scan source = .ok tokens ↔ L.Munches 0 source.toList tokens []
  slice? : ∀ source tokens, scan source = .ok tokens → ∀ token ∈ tokens,
    ∃ lexeme, token.span.slice? source.toList = some lexeme ∧ L.Spells token.item lexeme
  error : ∀ source e, scan source = .error e → ∃ before bad after tokens,
    source.toList = before ++ (bad ++ after) ∧ bad ≠ [] ∧
    e.span = ⟨byteLength before, byteLength before + byteLength bad⟩ ∧
    L.Munches 0 source.toList tokens (bad ++ after) ∧ L.Stuck (bad ++ after) ∧
    scan (String.ofList before) = .ok tokens

/-- A scanner whose pieces fit a lexicon does what the lexicon says. -/
theorem describes {piece : Char → List Char → Piece τ}
    (hfits : ∀ c cs, L.Fits (c :: cs) (piece c cs)) : L.Describes (scan piece) where
  ok_iff := scan_eq_ok_iff hfits
  slice? source tokens h := ((scan_eq_ok_iff hfits source tokens).1 h).slice? byteLength_nil
  error source e h := by
    have hreports := reports_scan hfits source
    rw [h] at hreports
    obtain ⟨before, bad, after, tokens, htext, hbad, hstuck, hmunches, hspan⟩ := hreports
    rw [Nat.zero_add] at hspan
    refine ⟨before, bad, after, tokens, htext, hbad, hspan, hmunches, hstuck, ?_⟩
    obtain ⟨taken, htaken, halone⟩ := hmunches.exists_before
    rw [htext] at htaken
    rw [scan_eq_ok_iff hfits, String.toList_ofList, List.append_cancel_right htaken]
    exact halone

end Lexicon

end CallScript
