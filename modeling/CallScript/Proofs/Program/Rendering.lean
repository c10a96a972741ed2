import CallScript.Program.Block
import CallScript.Proofs.Program.Parsing
import CallScript.Proofs.Program.Scanning

/-!
# Rendered programs read back

A program text that is parsed and rendered consists of the tokens it consisted of before, except for
its numbers (`Derives.items_chars`): a finite number is written as a number with the same value, an
infinity as a name or as nothing a program may contain.  So the rendered program is the same program
if its numbers are finite, and has lost a number otherwise (`parse_render_iff`).
-/

namespace CallScript

/-! ## Numbers in a block -/

mutual

/-- The numbers in an argument, in order. -/
def Argument.numbers : Argument → List Float
  | .number value => [value]
  | .string _ => []
  | .name _ => []
  | .call c => c.numbers
  | .block b => b.numbers

/-- The numbers in arguments, in order. -/
def Argument.listNumbers : List Argument → List Float
  | [] => []
  | argument :: arguments => argument.numbers ++ Argument.listNumbers arguments

/-- The numbers in a call, in order. -/
def Call.numbers : Call → List Float
  | ⟨_, arguments⟩ => Argument.listNumbers arguments

/-- The numbers in calls, in order. -/
def Call.listNumbers : List Call → List Float
  | [] => []
  | call :: calls => call.numbers ++ Call.listNumbers calls

/-- The numbers in a block, in order. -/
def Block.numbers : Block → List Float
  | ⟨calls⟩ => Call.listNumbers calls

end

theorem Argument.listNumbers_eq_flatMap (arguments : List Argument) :
    Argument.listNumbers arguments = arguments.flatMap Argument.numbers :=
  eq_flatMap_of_cons rfl (fun _ _ => rfl) arguments

theorem Call.listNumbers_eq_flatMap (calls : List Call) :
    Call.listNumbers calls = calls.flatMap Call.numbers :=
  eq_flatMap_of_cons rfl (fun _ _ => rfl) calls

theorem Argument.listOfTree_eq_map (trees : List Program.Tree.Argument) :
    Argument.listOfTree trees = trees.map Argument.ofTree :=
  eq_map_of_cons rfl (fun _ _ => rfl) trees

theorem Call.listOfTree_eq_map (trees : List Program.Tree.Call) :
    Call.listOfTree trees = trees.map Call.ofTree :=
  eq_map_of_cons rfl (fun _ _ => rfl) trees

theorem Argument.moreChars_eq_flatMap (arguments : List Argument) :
    Argument.moreChars arguments = arguments.flatMap fun argument => ',' :: ' ' :: argument.chars :=
  eq_flatMap_of_cons rfl (fun _ _ => rfl) arguments

theorem Call.moreChars_eq_flatMap (calls : List Call) :
    Call.moreChars calls = calls.flatMap fun call => ';' :: ' ' :: call.chars :=
  eq_flatMap_of_cons rfl (fun _ _ => rfl) calls

theorem Argument.listChars_concat {arguments : List Argument} (h : arguments ≠ [])
    (argument : Argument) :
    Argument.listChars (arguments ++ [argument]) =
      Argument.listChars arguments ++ ',' :: ' ' :: argument.chars := by
  obtain ⟨first, arguments, rfl⟩ := List.exists_cons_of_ne_nil h
  simp [Argument.listChars, Argument.moreChars_eq_flatMap]

theorem Call.listChars_concat {calls : List Call} (h : calls ≠ []) (call : Call) :
    Call.listChars (calls ++ [call]) = Call.listChars calls ++ ';' :: ' ' :: call.chars := by
  obtain ⟨first, calls, rfl⟩ := List.exists_cons_of_ne_nil h
  simp [Call.listChars, Call.moreChars_eq_flatMap]

namespace Program

/-! ## Phrases without layout -/

/-- A phrase as it is rendered. -/
def Phrase.chars : Phrase → List Char
  | .block tree => (Block.ofTree tree).chars
  | .calls trees => Call.listChars (Call.listOfTree trees)
  | .call tree => (Call.ofTree tree).chars
  | .arguments trees => Argument.listChars (Argument.listOfTree trees)
  | .argument tree => (Argument.ofTree tree).chars

/-- The numbers in a phrase, in order. -/
def Phrase.numbers : Phrase → List Float
  | .block tree => (Block.ofTree tree).numbers
  | .calls trees => Call.listNumbers (Call.listOfTree trees)
  | .call tree => (Call.ofTree tree).numbers
  | .arguments trees => Argument.listNumbers (Argument.listOfTree trees)
  | .argument tree => (Argument.ofTree tree).numbers

/-- Phrases that differ in their layout only. -/
inductive Phrase.Alike : Phrase → Phrase → Prop where
  | block {tree tree' : Tree.Block} (h : Block.ofTree tree' = Block.ofTree tree)
    (hn : tree'.nesting = tree.nesting) : Alike (.block tree) (.block tree')
  | calls {trees trees' : List Tree.Call} (h : Call.listOfTree trees' = Call.listOfTree trees)
    (hn : Tree.Call.listNesting trees' = Tree.Call.listNesting trees) :
    Alike (.calls trees) (.calls trees')
  | call {tree tree' : Tree.Call} (h : Call.ofTree tree' = Call.ofTree tree)
    (hn : tree'.nesting = tree.nesting) : Alike (.call tree) (.call tree')
  | arguments {trees trees' : List Tree.Argument}
    (h : Argument.listOfTree trees' = Argument.listOfTree trees)
    (hn : Tree.Argument.listNesting trees' = Tree.Argument.listNesting trees) :
    Alike (.arguments trees) (.arguments trees')
  | argument {tree tree' : Tree.Argument} (h : Argument.ofTree tree' = Argument.ofTree tree)
    (hn : tree'.nesting = tree.nesting) : Alike (.argument tree) (.argument tree')

/-- The number that a text is read as. -/
def numberOf (text : String) : Float :=
  (readNumber text.toList).getD (0.0 / 0.0)

/-- The value of a number token. -/
def number? : Token → Option Float
  | .number text => some (numberOf text)
  | _ => none

/-- The numbers of a phrase are those of its tokens. -/
theorem Derives.numbers {phrase : Phrase} {tokens : List (Placed Token)}
    (h : Derives phrase tokens) :
    phrase.numbers = tokens.filterMap fun token => number? token.item := by
  induction h with
  | nextCall _ _ _ ihs ih =>
    simp only [Phrase.numbers, Call.listOfTree_eq_map, Call.listNumbers_eq_flatMap] at ihs ih ⊢
    simp [number?, ihs, ih]
  | nextArgument _ _ _ ihs ih =>
    simp only [Phrase.numbers, Argument.listOfTree_eq_map,
      Argument.listNumbers_eq_flatMap] at ihs ih ⊢
    simp [number?, ihs, ih]
  | number lexeme => rfl
  | _ =>
    simp_all [Phrase.numbers, Block.ofTree, Call.ofTree, Call.listOfTree, Argument.ofTree,
      Argument.listOfTree, Block.numbers, Call.numbers, Call.listNumbers, Argument.numbers,
      Argument.listNumbers, number?]

/-! ## Tokens of a rendered program -/

/-- Tokens and the tokens after them, if there are both. -/
def joined (before after : Option (List Token)) : Option (List Token) :=
  before.bind fun tokens => after.map (tokens ++ ·)

@[simp] theorem joined_some_nil (after : Option (List Token)) :
    joined (some []) after = after := by
  cases after <;> rfl

@[simp] theorem joined_assoc (before between after : Option (List Token)) :
    joined (joined before between) after = joined before (joined between after) := by
  cases before <;> cases between <;> cases after <;> simp [joined]

/-- The token a number is rendered as; a negative infinity is rendered as none. -/
def numberToken? (x : Float) : Option Token :=
  match Binary.ofFloat x with
  | .finite _ _ _ => some (.number (numberText x))
  | .infinite true => none
  | _ => some (.name (numberText x))

/-- The token that stands for a token in the rendered program. -/
def rendered? : Token → Option Token
  | .number text => numberToken? (numberOf text)
  | token => some token

/-- The tokens that are rendered for tokens. -/
def renderedAll? : List (Placed Token) → Option (List Token)
  | [] => some []
  | token :: tokens => joined ((rendered? token.item).map ([·])) (renderedAll? tokens)

@[simp] theorem renderedAll?_append (before after : List (Placed Token)) :
    renderedAll? (before ++ after) = joined (renderedAll? before) (renderedAll? after) := by
  induction before with
  | nil => simp [renderedAll?, joined]
  | cons token before ih => simp [renderedAll?, ih]

/-- The text of a number is scanned as the token it is rendered as. -/
theorem items_numberText (x : Float) {rest : List Char} (hrest : Apart isWordChar rest) :
    items ((numberText x).toList ++ rest) =
      joined ((numberToken? x).map ([·])) (items rest) := by
  unfold numberToken?
  split
  · next negative m e hx =>
    exact scans_numberText (Binary.isFinite_iff.2 ⟨negative, m, e, hx⟩) rest hrest
  · next hx =>
    rw [numberText, hx]
    exact items_minusInfinity rest
  · next hfinite hinfinite =>
    have hname : Scans (numberText x).toList (.name (numberText x)) := by
      unfold numberText
      split
      · exact scans_name rfl rfl (List.all_eq_true.1 rfl)
      · next negative hx =>
        cases negative
        · exact scans_name rfl rfl (List.all_eq_true.1 rfl)
        · exact absurd hx hinfinite
      · next negative m e hx => exact absurd hx (hfinite negative m e)
    exact hname rest hrest

/-- Each mark is one token, whatever follows it. -/
theorem items_marks (cs : List Char) :
    items ('\x7b' :: cs) = joined (some [.openBrace]) (items cs) ∧
    items ('\x7d' :: cs) = joined (some [.closeBrace]) (items cs) ∧
    items ('(' :: cs) = joined (some [.openParen]) (items cs) ∧
    items (')' :: cs) = joined (some [.closeParen]) (items cs) ∧
    items (';' :: cs) = joined (some [.semicolon]) (items cs) ∧
    items (',' :: cs) = joined (some [.comma]) (items cs) :=
  ⟨items_of_token rfl, items_of_token rfl, items_of_token rfl, items_of_token rfl,
    items_of_token rfl, items_of_token rfl⟩

theorem Token.Rescans.items_name {text : String} (h : (Token.name text).Rescans) (rest : List Char)
    (hrest : Apart isWordChar rest) :
    items (text.toList ++ rest) = joined (some [.name text]) (items rest) :=
  h rest hrest

/-- A scanned string literal is rendered as it was written. -/
theorem Token.Rescans.items_string {lexeme : Lexeme} (h : (Token.string lexeme.text).Rescans)
    (rest : List Char) (hrest : Apart isWordChar rest) :
    items ('\x22' :: lexeme.contents.toList ++ ['\x22'] ++ rest) =
      joined (some [.string lexeme.text]) (items rest) := by
  obtain ⟨⟨inner, hinner⟩, hscans⟩ := h
  have hcontents : lexeme.contents.toList = inner := by
    simp [Lexeme.contents, hinner]
  have htext : '\x22' :: lexeme.contents.toList ++ ['\x22'] = lexeme.text.toList := by
    rw [hcontents, hinner, List.cons_append]
  rw [htext]
  exact hscans rest hrest

/-- A rendered phrase consists of the tokens that are rendered for its tokens. -/
theorem Derives.items_chars {phrase : Phrase} {tokens : List (Placed Token)}
    (h : Derives phrase tokens) (hscans : ∀ token ∈ tokens, token.item.Rescans) {rest : List Char}
    (hrest : Apart isWordChar rest) :
    items (phrase.chars ++ rest) = joined (renderedAll? tokens) (items rest) := by
  -- The text of a phrase is followed by a mark of the phrase around it, or by nothing.
  induction h generalizing rest with
  | emptyBlock =>
    simp [Phrase.chars, Block.ofTree, Block.chars, Call.listOfTree, Call.listChars, items_marks,
      renderedAll?, rendered?]
  | block _ _ _ ih =>
    have hbody := @ih (fun token ht => hscans token (by simp [ht])) ('\x7d' :: rest)
      (apart_cons rfl)
    simp only [Phrase.chars] at hbody
    simp [Phrase.chars, Block.ofTree, Block.chars, hbody, items_marks, renderedAll?, rendered?]
  | firstCall _ ih =>
    have hcall := ih hscans hrest
    simp only [Phrase.chars] at hcall
    simp [Phrase.chars, Call.listOfTree, Call.listChars, Call.moreChars, hcall]
  | @nextCall _ calls call _ _ hs _ ihs ih =>
    have hcall := @ih (fun token ht => hscans token (by simp [ht])) rest hrest
    have hcalls := @ihs (fun token ht => hscans token (by simp [ht]))
      (';' :: ' ' :: ((Call.ofTree call).chars ++ rest)) (apart_cons rfl)
    have hne : calls.map Call.ofTree ≠ [] := by cases hs <;> simp
    simp only [Phrase.chars, Call.listOfTree_eq_map] at hcall hcalls ⊢
    simp [Call.listChars_concat hne, hcalls, items_marks, items_space, hcall, renderedAll?,
      rendered?]
  | emptyCall =>
    have hname := (hscans _ List.mem_cons_self).items_name ('(' :: ')' :: rest) (apart_cons rfl)
    simp [Phrase.chars, Call.ofTree, Call.chars, Argument.listOfTree, Argument.listChars, hname,
      items_marks, renderedAll?, rendered?]
  | @call _ _ _ arguments _ _ ih =>
    have hname := (hscans _ List.mem_cons_self).items_name
      ('(' :: (Argument.listChars (Argument.listOfTree arguments) ++ ')' :: rest)) (apart_cons rfl)
    have hbody := @ih (fun token ht => hscans token (by simp [ht])) (')' :: rest) (apart_cons rfl)
    simp only [Phrase.chars] at hbody
    simp [Phrase.chars, Call.ofTree, Call.chars, hname, hbody, items_marks, renderedAll?,
      rendered?]
  | firstArgument _ ih =>
    have hargument := ih hscans hrest
    simp only [Phrase.chars] at hargument
    simp [Phrase.chars, Argument.listOfTree, Argument.listChars, Argument.moreChars, hargument]
  | @nextArgument _ arguments argument _ _ hs _ ihs ih =>
    have hargument := @ih (fun token ht => hscans token (by simp [ht])) rest hrest
    have harguments := @ihs (fun token ht => hscans token (by simp [ht]))
      (',' :: ' ' :: ((Argument.ofTree argument).chars ++ rest)) (apart_cons rfl)
    have hne : arguments.map Argument.ofTree ≠ [] := by cases hs <;> simp
    simp only [Phrase.chars, Argument.listOfTree_eq_map] at hargument harguments ⊢
    simp [Argument.listChars_concat hne, harguments, items_marks, items_space, hargument,
      renderedAll?, rendered?]
  | number lexeme =>
    have hnumber := items_numberText lexeme.value hrest
    simp only [Phrase.chars, Argument.ofTree, Argument.chars, renderedAll?, rendered?, joined_assoc,
      joined_some_nil]
    exact hnumber
  | string =>
    have hstring := (hscans _ List.mem_cons_self).items_string rest hrest
    simp only [Phrase.chars, Argument.ofTree, Argument.chars, hstring]
    rfl
  | name =>
    have hname := (hscans _ List.mem_cons_self).items_name rest hrest
    simp only [Phrase.chars, Argument.ofTree, Argument.chars, hname]
    rfl
  | callArgument _ ih => exact ih hscans hrest
  | blockArgument _ ih => exact ih hscans hrest

/-! ## Programs with finite numbers -/

/-- The token that stands for a token in a rendered program with finite numbers. -/
def rendered : Token → Token
  | .number text => .number (numberText (numberOf text))
  | token => token

/-- Whether a token is no number or a finite one. -/
def IsFinite (token : Token) : Prop :=
  ∀ x, number? token = some x → x.isFinite = true

theorem rendered?_of_isFinite {token : Token} (h : IsFinite token) :
    rendered? token = some (rendered token) := by
  cases token with
  | number text =>
    obtain ⟨negative, m, e, hbits⟩ := Binary.isFinite_iff.1 (h (numberOf text) rfl)
    simp [rendered?, rendered, numberToken?, hbits]
  | _ => rfl

theorem renderedAll?_of_isFinite {tokens : List (Placed Token)}
    (h : ∀ token ∈ tokens, IsFinite token.item) :
    renderedAll? tokens = some (tokens.map fun token => rendered token.item) := by
  induction tokens with
  | nil => rfl
  | cons token tokens ih =>
    rw [renderedAll?, rendered?_of_isFinite (h token List.mem_cons_self),
      ih fun token ht => h token (List.mem_cons_of_mem _ ht)]
    rfl

/-- The value of a finite number is kept in its text. -/
theorem value_numberText {x : Float} (hx : x.isFinite = true) (span : Span) :
    (⟨numberText x, span⟩ : Lexeme).value = x := by
  rw [Lexeme.value, readNumber_numberText hx, Option.getD_some]

theorem map_item_eq_cons {tokens : List (Placed Token)} {item : Token} {items : List Token}
    (h : tokens.map Placed.item = item :: items) :
    ∃ span rest, tokens = ⟨item, span⟩ :: rest ∧ rest.map Placed.item = items := by
  obtain ⟨⟨_, span⟩, rest, rfl, rfl, hrest⟩ := List.map_eq_cons_iff.1 h
  exact ⟨span, rest, rfl, hrest⟩

theorem map_item_eq_singleton {tokens : List (Placed Token)} {item : Token}
    (h : tokens.map Placed.item = [item]) : ∃ span, tokens = [⟨item, span⟩] := by
  obtain ⟨span, rest, rfl, hrest⟩ := map_item_eq_cons h
  exact ⟨span, by rw [List.map_eq_nil_iff.1 hrest]⟩

/-- A token, with another text if it is a number. -/
def Token.mapNumber (f : String → String) : Token → Token
  | .number text => .number (f text)
  | token => token

theorem rendered_eq_mapNumber (token : Token) :
    rendered token = token.mapNumber fun text => numberText (numberOf text) := by
  cases token <;> rfl

/-- Tokens that differ from the tokens of a phrase in the texts of their numbers and not in the
values are those of a phrase that differs in its layout only. -/
theorem Derives.exists_alike_mapNumber {phrase : Phrase} {tokens tokens' : List (Placed Token)}
    {f : String → String} (h : Derives phrase tokens)
    (hsame : ∀ token ∈ tokens, ∀ text, token.item = .number text →
      numberOf (f text) = numberOf text)
    (ht : tokens'.map Placed.item = tokens.map fun token => token.item.mapNumber f) :
    ∃ phrase', Derives phrase' tokens' ∧ phrase.Alike phrase' := by
  induction h generalizing tokens' with
  | emptyBlock =>
    obtain ⟨opening', _, rfl, hclosing⟩ := map_item_eq_cons ht
    obtain ⟨closing', rfl⟩ := map_item_eq_singleton hclosing
    exact ⟨_, .emptyBlock opening' closing', .block rfl rfl⟩
  | block _ _ _ ih =>
    rw [List.map_cons, List.map_append] at ht
    obtain ⟨opening', _, rfl, hinside⟩ := map_item_eq_cons ht
    obtain ⟨body', _, rfl, hbody, hclosing⟩ := List.map_eq_append_iff.1 hinside
    obtain ⟨closing', rfl⟩ := map_item_eq_singleton hclosing
    obtain ⟨_, hd, (_ | ⟨hc, hn⟩)⟩ := ih (fun token ht => hsame token (by simp [ht])) hbody
    refine ⟨_, .block opening' closing' hd, .block ?_ ?_⟩
    · rw [Block.ofTree, Block.ofTree, hc]
    · rw [Tree.Block.nesting, Tree.Block.nesting, hn]
  | firstCall _ ih =>
    obtain ⟨_, hd, (_ | _ | ⟨hc, hn⟩)⟩ := ih hsame ht
    refine ⟨_, .firstCall hd, .calls ?_ ?_⟩
    · simp only [Call.listOfTree, hc]
    · simp only [Tree.Call.listNesting, hn]
  | nextCall _ _ _ ihs ih =>
    rw [List.map_append] at ht
    obtain ⟨before', _, rfl, hbefore, hafter⟩ := List.map_eq_append_iff.1 ht
    obtain ⟨semicolon', _, rfl, hcall⟩ := map_item_eq_cons hafter
    obtain ⟨_, hds, (_ | ⟨hcs, hns⟩)⟩ :=
      ihs (fun token ht => hsame token (by simp [ht])) hbefore
    obtain ⟨_, hd, (_ | _ | ⟨hc, hn⟩)⟩ :=
      ih (fun token ht => hsame token (by simp [ht])) hcall
    refine ⟨_, .nextCall semicolon' hds hd, .calls ?_ ?_⟩
    · simp only [Call.listOfTree_eq_map] at hcs ⊢
      rw [List.map_append, List.map_append, hcs, List.map_singleton, List.map_singleton, hc]
    · simp only [Tree.Call.listNesting_eq_foldr, foldr_max_concat, hn] at hns ⊢
      rw [hns]
  | emptyCall name =>
    obtain ⟨name', _, rfl, hparens⟩ := map_item_eq_cons ht
    obtain ⟨opening', _, rfl, hclosing⟩ := map_item_eq_cons hparens
    obtain ⟨closing', rfl⟩ := map_item_eq_singleton hclosing
    exact ⟨_, .emptyCall ⟨name.text, name'⟩ opening' closing', .call rfl rfl⟩
  | call name _ _ _ ih =>
    rw [List.map_cons, List.map_cons, List.map_append] at ht
    obtain ⟨name', _, rfl, hparens⟩ := map_item_eq_cons ht
    obtain ⟨opening', _, rfl, hinside⟩ := map_item_eq_cons hparens
    obtain ⟨body', _, rfl, hbody, hclosing⟩ := List.map_eq_append_iff.1 hinside
    obtain ⟨closing', rfl⟩ := map_item_eq_singleton hclosing
    obtain ⟨_, hd, (_ | _ | _ | ⟨hc, hn⟩)⟩ :=
      ih (fun token ht => hsame token (by simp [ht])) hbody
    refine ⟨_, .call ⟨name.text, name'⟩ opening' closing' hd, .call ?_ ?_⟩
    · rw [Call.ofTree, Call.ofTree, hc]
    · rw [Tree.Call.nesting, Tree.Call.nesting, hn]
  | firstArgument _ ih =>
    obtain ⟨_, hd, (_ | _ | _ | _ | ⟨hc, hn⟩)⟩ := ih hsame ht
    refine ⟨_, .firstArgument hd, .arguments ?_ ?_⟩
    · simp only [Argument.listOfTree, hc]
    · simp only [Tree.Argument.listNesting, hn]
  | nextArgument _ _ _ ihs ih =>
    rw [List.map_append] at ht
    obtain ⟨before', _, rfl, hbefore, hafter⟩ := List.map_eq_append_iff.1 ht
    obtain ⟨comma', _, rfl, hargument⟩ := map_item_eq_cons hafter
    obtain ⟨_, hds, (_ | _ | _ | ⟨hcs, hns⟩)⟩ :=
      ihs (fun token ht => hsame token (by simp [ht])) hbefore
    obtain ⟨_, hd, (_ | _ | _ | _ | ⟨hc, hn⟩)⟩ :=
      ih (fun token ht => hsame token (by simp [ht])) hargument
    refine ⟨_, .nextArgument comma' hds hd, .arguments ?_ ?_⟩
    · simp only [Argument.listOfTree_eq_map] at hcs ⊢
      rw [List.map_append, List.map_append, hcs, List.map_singleton, List.map_singleton, hc]
    · simp only [Tree.Argument.listNesting_eq_foldr, foldr_max_concat, hn] at hns ⊢
      rw [hns]
  | number lexeme =>
    obtain ⟨span, rfl⟩ := map_item_eq_singleton ht
    refine ⟨_, .number ⟨f lexeme.text, span⟩, .argument ?_ rfl⟩
    exact congrArg Argument.number (hsame _ List.mem_cons_self _ rfl)
  | string lexeme =>
    obtain ⟨span, rfl⟩ := map_item_eq_singleton ht
    exact ⟨_, .string ⟨lexeme.text, span⟩, .argument rfl rfl⟩
  | name lexeme =>
    obtain ⟨span, rfl⟩ := map_item_eq_singleton ht
    exact ⟨_, .name ⟨lexeme.text, span⟩, .argument rfl rfl⟩
  | callArgument _ ih =>
    obtain ⟨_, hd, (_ | _ | ⟨hc, hn⟩)⟩ := ih hsame ht
    refine ⟨_, .callArgument hd, .argument ?_ hn⟩
    rw [Argument.ofTree, Argument.ofTree, hc]
  | blockArgument _ ih =>
    obtain ⟨_, hd, ⟨hc, hn⟩⟩ := ih hsame ht
    refine ⟨_, .blockArgument hd, .argument ?_ hn⟩
    rw [Argument.ofTree, Argument.ofTree, hc]

/-- Tokens that are rendered for the tokens of a phrase with finite numbers are those of a phrase
that differs in its layout only. -/
theorem Derives.exists_alike {phrase : Phrase} {tokens tokens' : List (Placed Token)}
    (h : Derives phrase tokens) (hfinite : ∀ token ∈ tokens, IsFinite token.item)
    (ht : tokens'.map Placed.item = tokens.map fun token => rendered token.item) :
    ∃ phrase', Derives phrase' tokens' ∧ phrase.Alike phrase' := by
  simp only [rendered_eq_mapNumber] at ht
  refine h.exists_alike_mapNumber (fun token htoken text htext => ?_) ht
  have hx : (numberOf text).isFinite = true := hfinite token htoken _ (by rw [htext]; rfl)
  exact value_numberText hx ⟨0, 0⟩

/-! ## Whole programs -/

theorem items_eq_some_iff {source : String} {items' : List Token} :
    items source.toList = some items' ↔
      ∃ tokens, scan source = .ok tokens ∧ tokens.map Placed.item = items' := by
  have hitems : items source.toList = scanItems (scan source) := rfl
  rw [hitems]
  cases scan source <;> simp [scanItems]

theorem parse_eq_ok_iff {source : String} {tree : Tree.Block} :
    parse source = .ok tree ↔ ∃ tokens, scan source = .ok tokens ∧
      Derives (.block tree) tokens ∧ tree.nesting ≤ nestingLimit := by
  unfold parse
  cases hscan : scan source with
  | error cause => simp [bind, Except.bind]
  | ok tokens => simp [bind, Except.bind, parseTokens_iff_derives]

/-- A number is rendered as a number exactly if it is finite. -/
theorem number?_of_rendered? {token token' : Token} (h : rendered? token = some token') :
    number? token' = (number? token).filter Float.isFinite := by
  cases token with
  | number text =>
    by_cases hx : (numberOf text).isFinite = true
    · rw [rendered?_of_isFinite fun x hx' => by cases hx'; exact hx] at h
      cases h
      have hvalue : numberOf (numberText (numberOf text)) = numberOf text :=
        value_numberText hx ⟨0, 0⟩
      simp [rendered, number?, hvalue, Option.filter, hx]
    · simp only [rendered?, numberToken?] at h
      split at h
      · next negative m e hbits => exact absurd (Binary.isFinite_iff.2 ⟨negative, m, e, hbits⟩) hx
      · cases h
      · cases h
        simp [number?, Option.filter, hx]
  | _ =>
    cases h
    rfl

/-- Of the numbers in tokens, the finite ones are numbers in the tokens rendered for them. -/
theorem filterMap_number?_of_renderedAll? {tokens : List (Placed Token)} {items' : List Token}
    (h : renderedAll? tokens = some items') :
    items'.filterMap number? =
      (tokens.filterMap fun token => number? token.item).filter Float.isFinite := by
  induction tokens generalizing items' with
  | nil =>
    cases h
    rfl
  | cons token tokens ih =>
    simp only [renderedAll?, joined, Option.bind_eq_some_iff, Option.map_eq_some_iff] at h
    obtain ⟨_, ⟨first, hfirst, rfl⟩, more, hmore, rfl⟩ := h
    have hnumber := number?_of_rendered? hfirst
    rw [List.singleton_append, List.filterMap_cons, List.filterMap_cons, hnumber, ih hmore]
    cases hx : number? token.item with
    | none => rfl
    | some x => by_cases hf : x.isFinite = true <;> simp [Option.filter, hf]

/-- The tokens of a rendered program are those rendered for the tokens of the program. -/
theorem items_render {source : String} {tree : Tree.Block} {tokens : List (Placed Token)}
    (hscan : scan source = .ok tokens) (h : Derives (.block tree) tokens) :
    items (Block.ofTree tree).render.toList = renderedAll? tokens := by
  have hscans : ∀ token ∈ tokens, token.item.Rescans := fun token ht =>
    rescans_of_items (items_eq_some_iff.2 ⟨tokens, hscan, rfl⟩) _ (List.mem_map_of_mem ht)
  have hitems := h.items_chars hscans (apart_nil _)
  rw [List.append_nil] at hitems
  rw [Block.render, String.toList_ofList]
  refine hitems.trans ?_
  cases renderedAll? tokens <;> simp [joined]

/-- A program is read back from its rendering exactly if its numbers are finite; what is read back
has the finite numbers of the program. -/
theorem parse_render_iff {source : String} {tree : Tree.Block} (h : parse source = .ok tree) :
    ((∃ tree', parse (Block.ofTree tree).render = .ok tree' ∧
        Block.ofTree tree' = Block.ofTree tree) ↔
      ∀ x ∈ (Block.ofTree tree).numbers, x.isFinite = true) ∧
    ∀ tree', parse (Block.ofTree tree).render = .ok tree' →
      (Block.ofTree tree').numbers = (Block.ofTree tree).numbers.filter Float.isFinite := by
  obtain ⟨tokens, hscan, hderives, hnesting⟩ := parse_eq_ok_iff.1 h
  have hnumbers : (Block.ofTree tree).numbers = tokens.filterMap fun token => number? token.item :=
    hderives.numbers
  have hlost (tree' : Tree.Block) (h' : parse (Block.ofTree tree).render = .ok tree') :
      (Block.ofTree tree').numbers = (Block.ofTree tree).numbers.filter Float.isFinite := by
    obtain ⟨tokens', hscan', hderives', -⟩ := parse_eq_ok_iff.1 h'
    have hitems := items_eq_some_iff.2 ⟨tokens', hscan', rfl⟩
    rw [items_render hscan hderives] at hitems
    have hnumbers' : (Block.ofTree tree').numbers =
        tokens'.filterMap fun token => number? token.item := hderives'.numbers
    rw [hnumbers, hnumbers', ← filterMap_number?_of_renderedAll? hitems, List.filterMap_map]
    rfl
  refine ⟨⟨?_, fun hfinite => ?_⟩, hlost⟩
  · rintro ⟨tree', h', heq⟩
    have hfilter := hlost tree' h'
    rw [heq] at hfilter
    exact List.filter_eq_self.1 hfilter.symm
  · have htokens : ∀ token ∈ tokens, IsFinite token.item := fun token ht x hx =>
      hfinite x (by rw [hnumbers]; exact List.mem_filterMap.2 ⟨token, ht, hx⟩)
    have hitems := items_render hscan hderives
    rw [renderedAll?_of_isFinite htokens] at hitems
    obtain ⟨tokens', hscan', hmap⟩ := items_eq_some_iff.1 hitems
    obtain ⟨_, hderives', ⟨heq, hn⟩⟩ := hderives.exists_alike htokens hmap
    exact ⟨_, parse_eq_ok_iff.2 ⟨tokens', hscan', hderives', hn ▸ hnesting⟩, heq⟩

/-- A program that is read back from its rendering, and one with a number too large to be. -/
theorem parse_render_iff_half_and_infinity :
    (∃ tree, parse "\x7b f(-.50,\"a\\\"\", \x7bg(x)\x7d) \x7d" = .ok tree ∧
      ∃ tree', parse (Block.ofTree tree).render = .ok tree' ∧
        Block.ofTree tree' = Block.ofTree tree) ∧
    ∃ tree, parse "\x7bf(1e999, 2)\x7d" = .ok tree ∧
      ¬∃ tree', parse (Block.ofTree tree).render = .ok tree' ∧
        Block.ofTree tree' = Block.ofTree tree := by
  constructor
  · let tree : Tree.Block := ⟨[⟨⟨"f", ⟨2, 3⟩⟩, [.number ⟨"-.50", ⟨4, 8⟩⟩,
      .string ⟨"\"a\\\"\"", ⟨9, 14⟩⟩,
      .block ⟨[⟨⟨"g", ⟨17, 18⟩⟩, [.name ⟨"x", ⟨19, 20⟩⟩], ⟨17, 21⟩⟩], ⟨16, 22⟩⟩], ⟨2, 23⟩⟩],
      ⟨0, 25⟩⟩
    have hparse : parse "\x7b f(-.50,\"a\\\"\", \x7bg(x)\x7d) \x7d" = .ok tree := rfl
    have hfinite : ∀ x ∈ (Block.ofTree tree).numbers, x.isFinite = true := by decide +kernel
    exact ⟨tree, hparse, (parse_render_iff hparse).1.2 hfinite⟩
  · let tree : Tree.Block := ⟨[⟨⟨"f", ⟨1, 2⟩⟩, [.number ⟨"1e999", ⟨3, 8⟩⟩,
      .number ⟨"2", ⟨10, 11⟩⟩], ⟨1, 12⟩⟩], ⟨0, 13⟩⟩
    have hparse : parse "\x7bf(1e999, 2)\x7d" = .ok tree := rfl
    have hinfinite : ¬∀ x ∈ (Block.ofTree tree).numbers, x.isFinite = true := by decide +kernel
    exact ⟨tree, hparse, mt (parse_render_iff hparse).1.1 hinfinite⟩

end Program

end CallScript
