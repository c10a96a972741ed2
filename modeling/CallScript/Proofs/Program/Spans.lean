import CallScript.Proofs.Program.Lexicon
import CallScript.Proofs.Program.Rendering

/-!
# Spans of concrete trees

Every node of a concrete tree is derived from tokens in a row (`Node.Contains.exists_reads`), and
its span runs from the first of them to the last.  Tokens stand one after another in the text, so
the spans of a tree are nested as its nodes are.  The text of a span is cut into the same tokens on
its own (`Lexicon.Munches.exists_between`), so a block that is cut out of a program is parsed as the
block it was there (`parse_spans`).
-/

namespace CallScript.Program

open scoped Computability

/-! ## Trees at other places -/

/-- A lexeme at another place. -/
def Lexeme.mapOffsets (f : Nat → Nat) (lexeme : Lexeme) : Lexeme :=
  ⟨lexeme.text, lexeme.span.mapOffsets f⟩

namespace Tree

mutual

/-- An argument at another place. -/
def Argument.mapOffsets (f : Nat → Nat) : Argument → Argument
  | .number lexeme => .number (lexeme.mapOffsets f)
  | .string lexeme => .string (lexeme.mapOffsets f)
  | .name lexeme => .name (lexeme.mapOffsets f)
  | .call c => .call (c.mapOffsets f)
  | .block b => .block (b.mapOffsets f)

/-- Arguments at other places. -/
def Argument.listMapOffsets (f : Nat → Nat) : List Argument → List Argument
  | [] => []
  | argument :: arguments => argument.mapOffsets f :: Argument.listMapOffsets f arguments

/-- A call at another place. -/
def Call.mapOffsets (f : Nat → Nat) : Call → Call
  | ⟨name, arguments, span⟩ =>
    ⟨name.mapOffsets f, Argument.listMapOffsets f arguments, span.mapOffsets f⟩

/-- Calls at other places. -/
def Call.listMapOffsets (f : Nat → Nat) : List Call → List Call
  | [] => []
  | call :: calls => call.mapOffsets f :: Call.listMapOffsets f calls

/-- A block at another place. -/
def Block.mapOffsets (f : Nat → Nat) : Block → Block
  | ⟨calls, span⟩ => ⟨Call.listMapOffsets f calls, span.mapOffsets f⟩

end

/-- A block that stands `n` bytes further on. -/
def Block.shift (n : Nat) (block : Block) : Block :=
  block.mapOffsets (· + n)

mutual

theorem Argument.nesting_mapOffsets (f : Nat → Nat) :
    ∀ argument : Argument, (argument.mapOffsets f).nesting = argument.nesting
  | .number _ => rfl
  | .string _ => rfl
  | .name _ => rfl
  | .call c => Call.nesting_mapOffsets f c
  | .block b => Block.nesting_mapOffsets f b

theorem Argument.listNesting_mapOffsets (f : Nat → Nat) : ∀ arguments : List Argument,
    Argument.listNesting (Argument.listMapOffsets f arguments) = Argument.listNesting arguments
  | [] => rfl
  | argument :: arguments =>
    congrArg₂ max (Argument.nesting_mapOffsets f argument)
      (Argument.listNesting_mapOffsets f arguments)

theorem Call.nesting_mapOffsets (f : Nat → Nat) :
    ∀ call : Call, (call.mapOffsets f).nesting = call.nesting
  | ⟨_, arguments, _⟩ => congrArg (· + 1) (Argument.listNesting_mapOffsets f arguments)

theorem Call.listNesting_mapOffsets (f : Nat → Nat) : ∀ calls : List Call,
    Call.listNesting (Call.listMapOffsets f calls) = Call.listNesting calls
  | [] => rfl
  | call :: calls =>
    congrArg₂ max (Call.nesting_mapOffsets f call) (Call.listNesting_mapOffsets f calls)

theorem Block.nesting_mapOffsets (f : Nat → Nat) :
    ∀ block : Block, (block.mapOffsets f).nesting = block.nesting
  | ⟨calls, _⟩ => congrArg (· + 1) (Call.listNesting_mapOffsets f calls)

end

theorem Argument.listMapOffsets_eq_map (f : Nat → Nat) (arguments : List Argument) :
    Argument.listMapOffsets f arguments = arguments.map (Argument.mapOffsets f) :=
  eq_map_of_cons rfl (fun _ _ => rfl) arguments

theorem Call.listMapOffsets_eq_map (f : Nat → Nat) (calls : List Call) :
    Call.listMapOffsets f calls = calls.map (Call.mapOffsets f) :=
  eq_map_of_cons rfl (fun _ _ => rfl) calls

end Tree

/-- A phrase at another place. -/
def Phrase.mapOffsets (f : Nat → Nat) : Phrase → Phrase
  | .block tree => .block (tree.mapOffsets f)
  | .calls trees => .calls (Tree.Call.listMapOffsets f trees)
  | .call tree => .call (tree.mapOffsets f)
  | .arguments trees => .arguments (Tree.Argument.listMapOffsets f trees)
  | .argument tree => .argument (tree.mapOffsets f)

/-- The grammar does not look at places. -/
theorem Derives.mapOffsets {phrase : Phrase} {tokens : List (Placed Token)}
    (h : Derives phrase tokens) (f : Nat → Nat) :
    Derives (phrase.mapOffsets f) (tokens.map (Placed.mapOffsets f)) := by
  induction h with
  | emptyBlock opening closing => exact .emptyBlock (opening.mapOffsets f) (closing.mapOffsets f)
  | block opening closing h ih =>
    rw [List.map_cons, List.map_append]
    exact .block (opening.mapOffsets f) (closing.mapOffsets f) ih
  | firstCall h ih => exact .firstCall ih
  | nextCall semicolon hs h ihs ih =>
    rw [List.map_append, Phrase.mapOffsets, Tree.Call.listMapOffsets_eq_map, List.map_append,
      ← Tree.Call.listMapOffsets_eq_map]
    exact .nextCall (semicolon.mapOffsets f) ihs ih
  | emptyCall name opening closing =>
    exact .emptyCall (name.mapOffsets f) (opening.mapOffsets f) (closing.mapOffsets f)
  | call name opening closing h ih =>
    rw [List.map_cons, List.map_cons, List.map_append]
    exact .call (name.mapOffsets f) (opening.mapOffsets f) (closing.mapOffsets f) ih
  | firstArgument h ih => exact .firstArgument ih
  | nextArgument comma hs h ihs ih =>
    rw [List.map_append, Phrase.mapOffsets, Tree.Argument.listMapOffsets_eq_map, List.map_append,
      ← Tree.Argument.listMapOffsets_eq_map]
    exact .nextArgument (comma.mapOffsets f) ihs ih
  | number lexeme => exact .number (lexeme.mapOffsets f)
  | string lexeme => exact .string (lexeme.mapOffsets f)
  | name lexeme => exact .name (lexeme.mapOffsets f)
  | callArgument h ih => exact .callArgument ih
  | blockArgument h ih => exact .blockArgument ih

theorem Derives.unique {tree tree' : Tree.Block} {tokens : List (Placed Token)}
    (h : Derives (.block tree) tokens) (h' : Derives (.block tree') tokens) : tree = tree' := by
  have hrun := State.run_initial_eq_done_iff.2 h
  rw [State.run_initial_eq_done_iff.2 h'] at hrun
  cases hrun
  rfl

/-! ## Nodes -/

namespace Tree

/-- A node of a concrete tree. -/
inductive Node where
  | leaf (lexeme : Lexeme)
  | call (call : Call)
  | block (block : Block)

namespace Node

/-- The part of the program a node stands in. -/
def span : Node → Span
  | .leaf lexeme => lexeme.span
  | .call c => c.span
  | .block b => b.span

/-- The node that an argument is. -/
def ofArgument : Argument → Node
  | .number lexeme => .leaf lexeme
  | .string lexeme => .leaf lexeme
  | .name lexeme => .leaf lexeme
  | .call c => .call c
  | .block b => .block b

/-- The nodes right below a node, in order. -/
def children : Node → List Node
  | .leaf _ => []
  | .call c => .leaf c.name :: c.arguments.map ofArgument
  | .block b => b.calls.map .call

/-- A node and the nodes below it at any depth. -/
inductive Contains (root : Node) : Node → Prop where
  | root : Contains root root
  | child {node inner : Node} (h : Contains root node) (hinner : inner ∈ node.children) :
    Contains root inner

/-- How deep the brackets in a node are nested. -/
def nesting : Node → Nat
  | .leaf _ => 0
  | .call c => c.nesting
  | .block b => b.nesting

theorem nesting_ofArgument (argument : Argument) :
    (ofArgument argument).nesting = argument.nesting := by
  cases argument <;> simp [ofArgument, nesting, Argument.nesting]

theorem Contains.nesting_le {root node : Node} (h : root.Contains node) :
    node.nesting ≤ root.nesting := by
  induction h with
  | root => exact Nat.le_refl _
  | @child node inner _ hinner ih =>
    refine Nat.le_trans ?_ ih
    cases node with
    | leaf => cases hinner
    | call c =>
      obtain ⟨name, arguments, span⟩ := c
      rcases List.mem_cons.1 hinner with rfl | hinner
      · exact Nat.zero_le _
      · obtain ⟨argument, hargument, rfl⟩ := List.mem_map.1 hinner
        rw [nesting_ofArgument, nesting, Call.nesting, Argument.listNesting_eq_foldr]
        exact Nat.le_succ_of_le (le_foldr_max Argument.nesting hargument)
    | block b =>
      obtain ⟨calls, span⟩ := b
      obtain ⟨call, hcall, rfl⟩ := List.mem_map.1 hinner
      rw [nesting, nesting, Block.nesting, Call.listNesting_eq_foldr]
      exact Nat.le_succ_of_le (le_foldr_max Call.nesting hcall)

/-! ## Tokens of nodes -/

/-- The tokens a node is read from. -/
def Reads : Node → List (Placed Token) → Prop
  | .leaf lexeme, tokens => ∃ token, tokens = [token] ∧ lexeme? token = some lexeme
  | .call c, tokens => Derives (.call c) tokens
  | .block b, tokens => Derives (.block b) tokens

theorem reads_ofArgument {argument : Argument} {tokens : List (Placed Token)}
    (h : Derives (.argument argument) tokens) : (ofArgument argument).Reads tokens := by
  cases h with
  | number lexeme => exact ⟨_, rfl, rfl⟩
  | string lexeme => exact ⟨_, rfl, rfl⟩
  | name lexeme => exact ⟨_, rfl, rfl⟩
  | callArgument h => exact h
  | blockArgument h => exact h

/-- Nodes in a row and the tokens they are read from, with a mark between any two. -/
inductive ReadsList (mark : Token) : List Node → List (Placed Token) → Prop where
  | nil : ReadsList mark [] []
  | first {node : Node} {tokens : List (Placed Token)} (h : node.Reads tokens) :
    ReadsList mark [node] tokens
  | next (span : Span) {nodes : List Node} {node : Node} {before tokens : List (Placed Token)}
    (hs : ReadsList mark nodes before) (h : node.Reads tokens) :
    ReadsList mark (nodes ++ [node]) (before ++ ⟨mark, span⟩ :: tokens)

end Node

end Tree

theorem Derives.readsList_arguments {arguments : List Tree.Argument}
    {tokens : List (Placed Token)} (h : Derives (.arguments arguments) tokens) :
    Tree.Node.ReadsList .comma (arguments.map Tree.Node.ofArgument) tokens := by
  generalize hphrase : Phrase.arguments arguments = phrase at h
  induction h generalizing arguments with
  | firstArgument h =>
    cases hphrase
    exact .first (Tree.Node.reads_ofArgument h)
  | nextArgument comma hs h ihs =>
    cases hphrase
    rw [List.map_append]
    exact .next comma (ihs rfl) (Tree.Node.reads_ofArgument h)
  | _ => cases hphrase

theorem Derives.readsList_calls {calls : List Tree.Call} {tokens : List (Placed Token)}
    (h : Derives (.calls calls) tokens) :
    Tree.Node.ReadsList .semicolon (calls.map .call) tokens := by
  generalize hphrase : Phrase.calls calls = phrase at h
  induction h generalizing calls with
  | firstCall h =>
    cases hphrase
    exact .first h
  | nextCall semicolon hs h ihs =>
    cases hphrase
    rw [List.map_append]
    exact .next semicolon (ihs rfl) h
  | _ => cases hphrase

/-- A call is its name and, between parentheses, its arguments. -/
theorem Derives.exists_parens {call : Tree.Call} {tokens : List (Placed Token)}
    (h : Derives (.call call) tokens) : ∃ opening body closing,
      tokens = ⟨.name call.name.text, call.name.span⟩ :: ⟨.openParen, opening⟩ ::
        (body ++ [⟨.closeParen, closing⟩]) ∧
      call.span = ⟨call.name.span.start, closing.stop⟩ ∧ Balanced body ∧
      Tree.Node.ReadsList .comma (call.arguments.map Tree.Node.ofArgument) body := by
  cases h with
  | emptyCall name opening closing => exact ⟨opening, [], closing, rfl, rfl, balanced_nil, .nil⟩
  | call name opening closing h =>
    exact ⟨opening, _, closing, rfl, rfl, h.balanced, h.readsList_arguments⟩

/-- A block is its calls between braces. -/
theorem Derives.exists_braces {block : Tree.Block} {tokens : List (Placed Token)}
    (h : Derives (.block block) tokens) : ∃ opening body closing,
      tokens = ⟨.openBrace, opening⟩ :: (body ++ [⟨.closeBrace, closing⟩]) ∧
      block.span = ⟨opening.start, closing.stop⟩ ∧ Balanced body ∧
      Tree.Node.ReadsList .semicolon (block.calls.map .call) body := by
  cases h with
  | emptyBlock opening closing => exact ⟨opening, [], closing, rfl, rfl, balanced_nil, .nil⟩
  | block opening closing h =>
    exact ⟨opening, _, closing, rfl, rfl, h.balanced, h.readsList_calls⟩

namespace Tree.Node

variable {node : Node} {tokens : List (Placed Token)}

/-- The span of a node runs from its first token to its last. -/
theorem Reads.ends (h : node.Reads tokens) :
    ∃ first last, tokens.head? = some first ∧ tokens.getLast? = some last ∧
      node.span = ⟨first.span.start, last.span.stop⟩ := by
  cases node with
  | leaf lexeme =>
    obtain ⟨token, rfl, hlexeme⟩ := h
    refine ⟨token, token, rfl, rfl, ?_⟩
    obtain ⟨item, span⟩ := token
    cases item <;> cases hlexeme <;> rfl
  | call c =>
    obtain ⟨opening, body, closing, rfl, hspan, -, -⟩ := Derives.exists_parens h
    refine ⟨⟨.name c.name.text, c.name.span⟩, ⟨.closeParen, closing⟩, rfl, ?_, hspan⟩
    exact List.getLast?_eq_some_iff.2 ⟨_ :: _ :: body, rfl⟩
  | block b =>
    obtain ⟨opening, body, closing, rfl, hspan, -, -⟩ := Derives.exists_braces h
    refine ⟨⟨.openBrace, opening⟩, ⟨.closeBrace, closing⟩, rfl, ?_, hspan⟩
    exact List.getLast?_eq_some_iff.2 ⟨_ :: body, rfl⟩

/-- Each of some nodes in a row is read from tokens in a row. -/
theorem ReadsList.exists_reads {mark : Token} {nodes : List Node}
    (h : ReadsList mark nodes tokens) :
    ∀ node ∈ nodes, ∃ own, own <:+: tokens ∧ node.Reads own := by
  induction h with
  | nil => exact fun _ => nofun
  | @first node tokens h =>
    exact List.forall_mem_singleton.2 ⟨tokens, List.infix_rfl, h⟩
  | @next span nodes node before tokens hs h ih =>
    refine List.forall_mem_append.2 ⟨fun other hother => ?_, List.forall_mem_singleton.2 ?_⟩
    · obtain ⟨own, hown, hreads⟩ := ih other hother
      exact ⟨own, hown.trans (List.prefix_append _ _).isInfix, hreads⟩
    · refine ⟨tokens, List.IsSuffix.isInfix ?_, h⟩
      exact (List.suffix_cons _ tokens).trans (List.suffix_append _ _)

/-- The nodes right below a node are read from tokens of it. -/
theorem Reads.child (h : node.Reads tokens) :
    ∀ inner ∈ node.children, ∃ own, own <:+: tokens ∧ inner.Reads own := by
  cases node with
  | leaf => exact fun _ => nofun
  | call c =>
    obtain ⟨opening, body, closing, rfl, -, -, hbody⟩ := Derives.exists_parens h
    refine List.forall_mem_cons.2 ⟨⟨[_], ⟨[], _, rfl⟩, _, rfl, rfl⟩, fun inner hinner => ?_⟩
    obtain ⟨own, hown, hreads⟩ := hbody.exists_reads inner hinner
    exact ⟨own, hown.trans ⟨[_, _], [_], rfl⟩, hreads⟩
  | block b =>
    obtain ⟨opening, body, closing, rfl, -, -, hbody⟩ := Derives.exists_braces h
    intro inner hinner
    obtain ⟨own, hown, hreads⟩ := hbody.exists_reads inner hinner
    exact ⟨own, hown.trans ⟨[_], [_], rfl⟩, hreads⟩

/-- Every node at any depth is read from tokens in a row. -/
theorem Contains.exists_reads {root : Node} (hroot : root.Reads tokens) (h : root.Contains node) :
    ∃ own, own <:+: tokens ∧ node.Reads own := by
  induction h with
  | root => exact ⟨tokens, List.infix_rfl, hroot⟩
  | child _ hinner ih =>
    obtain ⟨own, hown, hreads⟩ := ih
    obtain ⟨part, hpart, hreads⟩ := hreads.child _ hinner
    exact ⟨part, hpart.trans hown, hreads⟩

end Tree.Node

/-! ## Nodes inside nodes -/

/-- Tokens one after another, none of them empty. -/
structure Ordered (tokens : List (Placed Token)) : Prop where
  pairwise : tokens.Pairwise fun a b => a.span.stop ≤ b.span.start
  pos : ∀ token ∈ tokens, token.span.start < token.span.stop

namespace Ordered

variable {tokens own : List (Placed Token)}

theorem sublist (h : Ordered tokens) (hown : own.Sublist tokens) : Ordered own where
  pairwise := h.pairwise.sublist hown
  pos token htoken := h.pos token (hown.subset htoken)

theorem stop_le {before after : List (Placed Token)} (h : Ordered (before ++ after))
    {a b : Placed Token} (ha : a ∈ before) (hb : b ∈ after) : a.span.stop ≤ b.span.start :=
  (List.pairwise_append.1 h.pairwise).2.2 a ha b hb

end Ordered

namespace Tree.Node

/-- Nodes one after another inside a span.  They touch neither its ends nor one another. -/
structure Inside (nodes : List Node) (outer : Span) : Prop where
  bounds : ∀ node ∈ nodes, outer.start < node.span.start ∧ node.span.start < node.span.stop ∧
    node.span.stop < outer.stop
  apart : nodes.Pairwise fun a b => a.span.stop < b.span.start

/-- A node reaches from the start of one of its tokens to the end of another. -/
theorem Reads.span_mem {node : Node} {own : List (Placed Token)} (h : node.Reads own)
    (hown : Ordered own) : (∃ token ∈ own, token.span.start = node.span.start) ∧
      (∃ token ∈ own, token.span.stop = node.span.stop) ∧ node.span.start < node.span.stop := by
  obtain ⟨first, last, hfirst, hlast, hspan⟩ := h.ends
  obtain ⟨more, rfl⟩ := List.head?_eq_some_iff.1 hfirst
  have hmem : last ∈ first :: more := List.mem_of_getLast? hlast
  have hpos := hown.pos first List.mem_cons_self
  refine ⟨⟨first, List.mem_cons_self, by rw [hspan]⟩, ⟨last, hmem, by rw [hspan]⟩, ?_⟩
  rw [hspan]
  rcases List.mem_cons.1 hmem with rfl | hmore
  · exact hpos
  · have hafter := hown.stop_le (List.mem_singleton_self first) hmore
    have hlast' := hown.pos last hmem
    exact Nat.lt_of_lt_of_le hpos (Nat.le_trans hafter (Nat.le_of_lt hlast'))

theorem ReadsList.inside {mark : Token} {nodes : List Node} {body : List (Placed Token)}
    (h : ReadsList mark nodes body) (hbody : Ordered body) {outer : Span}
    (hstart : ∀ token ∈ body, outer.start < token.span.start)
    (hstop : ∀ token ∈ body, token.span.stop < outer.stop) : Inside nodes outer := by
  constructor
  · intro node hnode
    obtain ⟨own, hown, hreads⟩ := h.exists_reads node hnode
    obtain ⟨⟨first, hfirst, hs⟩, ⟨last, hlast, he⟩, hpos⟩ :=
      hreads.span_mem (hbody.sublist hown.sublist)
    refine ⟨?_, hpos, ?_⟩
    · rw [← hs]
      exact hstart first (hown.subset hfirst)
    · rw [← he]
      exact hstop last (hown.subset hlast)
  · clear hstart hstop
    induction h with
    | nil => exact .nil
    | first => exact List.pairwise_singleton _ _
    | @next span nodes node before tokens hs h ih =>
      have hbefore := hbody.sublist (List.sublist_append_left _ _)
      have hafter := hbody.sublist (List.sublist_append_right before _)
      refine List.pairwise_append.2 ⟨ih hbefore, List.pairwise_singleton _ _, fun a ha b hb => ?_⟩
      obtain rfl := List.mem_singleton.1 hb
      obtain ⟨own, hown, hreads⟩ := hs.exists_reads a ha
      obtain ⟨-, ⟨last, hlast, hlast'⟩, -⟩ := hreads.span_mem (hbefore.sublist hown.sublist)
      obtain ⟨⟨first, hfirst, hfirst'⟩, -, -⟩ :=
        h.span_mem (hafter.sublist (List.sublist_cons_self _ _))
      -- The mark stands between the two nodes.
      have hleft := hbody.stop_le (hown.subset hlast) List.mem_cons_self
      have hright := hafter.stop_le (List.mem_singleton_self _) hfirst
      have hmark := hafter.pos _ List.mem_cons_self
      omega

end Tree.Node

/-! ## Nodes and their text -/

theorem spelled_closeParen {text : List Char} (h : Spelled .closeParen text) : text = [')'] := by
  cases h
  rfl

theorem spelled_openBrace {text : List Char} (h : Spelled .openBrace text) : text = ['\x7b'] := by
  cases h
  rfl

theorem spelled_closeBrace {text : List Char} (h : Spelled .closeBrace text) :
    text = ['\x7d'] := by
  cases h
  rfl

theorem spelled_of_lexeme? {token : Placed Token} {lexeme : Lexeme} {text : List Char}
    (h : lexeme? token = some lexeme) (htext : Spelled token.item text) :
    lexeme.span = token.span ∧ text = lexeme.text.toList := by
  obtain ⟨item, span⟩ := token
  cases htext with
  | @mark item hmark =>
    simp only [Token.marks, List.mem_cons, List.not_mem_nil, or_false] at hmark
    rcases hmark with rfl | rfl | rfl | rfl | rfl | rfl <;> cases h
  | string =>
    cases h
    exact ⟨rfl, String.toList_ofList.symm⟩
  | number =>
    cases h
    exact ⟨rfl, String.toList_ofList.symm⟩
  | name =>
    cases h
    exact ⟨rfl, String.toList_ofList.symm⟩

/-- Tokens that stand after the first `n` bytes, moved back and forth. -/
theorem map_mapOffsets_of_le {tokens : List (Placed Token)} {n : Nat}
    (h : ∀ token ∈ tokens, n ≤ token.span.start ∧ n ≤ token.span.stop) :
    (tokens.map (Placed.mapOffsets (· - n))).map (Placed.mapOffsets (· + n)) = tokens := by
  have hsame : ∀ token ∈ tokens,
      ((token.mapOffsets (· - n)).mapOffsets (· + n) : Placed Token) = id token := by
    rintro ⟨item, start, stop⟩ htoken
    obtain ⟨hstart, hstop⟩ := h _ htoken
    simp only [Placed.mapOffsets, Span.mapOffsets, id, Placed.mk.injEq, Span.mk.injEq, true_and]
    exact ⟨Nat.sub_add_cancel hstart, Nat.sub_add_cancel hstop⟩
  rw [List.map_map]
  exact (List.map_congr_left hsame).trans (List.map_id tokens)

/-- A block that is cut out of a program is parsed as what it was there. -/
theorem parse_slice {source : String} {tokens own : List (Placed Token)} {block : Tree.Block}
    (hscan : scan source = .ok tokens) (hown : own <:+: tokens) (h : Derives (.block block) own)
    (hnesting : block.nesting ≤ nestingLimit) :
    ∃ tree, parse (block.span.text source) = .ok tree ∧ tree.shift block.span.start = block := by
  obtain ⟨before, after, rfl⟩ := hown
  have hmunches := (Lexicon.scan_eq_ok_iff fits_piece source _).1 hscan
  rw [List.append_assoc] at hmunches
  have hreads : (Tree.Node.block block).Reads own := h
  obtain ⟨first, last, hfirst, hlast, hspan⟩ := hreads.ends
  replace hspan : block.span = ⟨first.span.start, last.span.stop⟩ := hspan
  obtain ⟨ahead, cs, behind, htext, hstart, hstop, hcs⟩ := hmunches.exists_between hfirst hlast
  rw [Nat.zero_add] at hstart
  have hslice : block.span.text source = String.ofList cs := by
    rw [hspan, hstop, hstart, Span.text, htext, Lexicon.slice?_append, Option.getD_some]
  have hback := map_mapOffsets_of_le hcs.start_le
  -- The tokens of the slice are those of the block, counted from its start.
  rw [← Nat.zero_add first.span.start] at hcs
  have hscan' : scan (String.ofList cs) =
      .ok (own.map (Placed.mapOffsets (· - first.span.start))) := by
    refine (Lexicon.scan_eq_ok_iff fits_piece _ _).2 ?_
    rw [String.toList_ofList]
    exact hcs.moved
  have hderives := h.mapOffsets (· - first.span.start)
  refine ⟨block.mapOffsets (· - first.span.start), ?_, ?_⟩
  · rw [hslice]
    refine parse_eq_ok_iff.2 ⟨_, hscan', hderives, ?_⟩
    rw [Tree.Block.nesting_mapOffsets]
    exact hnesting
  · have hforth := hderives.mapOffsets (· + first.span.start)
    rw [hback] at hforth
    rw [hspan]
    exact Derives.unique hforth h

namespace Tree.Node

/-- What a node says about the text it was read from, whose tokens are given.  A leaf has the text
of its span.  A call reaches from its name to the parenthesis that closes it, a block from brace to
brace, with the nodes below in order inside.  The text of a block is parsed as that block. -/
def Faithful (source : String) (tokens : List (Placed Token)) : Node → Prop
  | .leaf lexeme => lexeme.span.slice? source.toList = some lexeme.text.toList
  | .call c =>
    (∃ opening body closing, ⟨.name c.name.text, c.name.span⟩ :: ⟨.openParen, opening⟩ ::
        (body ++ [⟨.closeParen, closing⟩]) <:+: tokens ∧ Balanced body ∧
      closing.slice? source.toList = some [')'] ∧
      c.span = ⟨c.name.span.start, closing.stop⟩) ∧
    c.name.span.start < c.name.span.stop ∧ c.name.span.stop < c.span.stop ∧
    Inside (c.arguments.map ofArgument) ⟨c.name.span.stop, c.span.stop⟩
  | .block b =>
    (∃ opening body closing, ⟨.openBrace, opening⟩ ::
        (body ++ [⟨.closeBrace, closing⟩]) <:+: tokens ∧ Balanced body ∧
      opening.slice? source.toList = some ['\x7b'] ∧
      closing.slice? source.toList = some ['\x7d'] ∧
      b.span = ⟨opening.start, closing.stop⟩) ∧
    Inside (b.calls.map .call) b.span ∧
    ∃ tree, parse (b.span.text source) = .ok tree ∧ tree.shift b.span.start = b

section

variable {source : String} {tokens own : List (Placed Token)}
  (hscan : scan source = .ok tokens) (hown : own <:+: tokens)
include hscan hown

theorem exists_slice? {token : Placed Token} (h : token ∈ own) :
    ∃ text, token.span.slice? source.toList = some text ∧ Spelled token.item text :=
  (Lexicon.describes fits_piece).slice? source tokens hscan token (hown.subset h)

theorem ordered_of_scan : Ordered own := by
  obtain ⟨hpairwise, hpos⟩ := ((Lexicon.scan_eq_ok_iff fits_piece source tokens).1 hscan).ordered
  exact Ordered.sublist ⟨hpairwise, hpos⟩ hown.sublist

theorem faithful_leaf {lexeme : Lexeme} (h : (leaf lexeme).Reads own) :
    (leaf lexeme).Faithful source tokens := by
  obtain ⟨token, rfl, hlexeme⟩ := h
  obtain ⟨text, hslice, hspelled⟩ := exists_slice? hscan hown (List.mem_singleton_self token)
  obtain ⟨hspan, rfl⟩ := spelled_of_lexeme? hlexeme hspelled
  rw [Faithful, hspan, hslice]

theorem faithful_call {c : Call} (h : (call c).Reads own) : (call c).Faithful source tokens := by
  have hordered := ordered_of_scan hscan hown
  obtain ⟨opening, body, closing, rfl, hspan, hbalanced, hbody⟩ := Derives.exists_parens h
  have hclosing : (⟨.closeParen, closing⟩ : Placed Token) ∈ body ++ [⟨.closeParen, closing⟩] :=
    List.mem_append_right _ (List.mem_singleton_self _)
  obtain ⟨text, hslice, hspelled⟩ := exists_slice? hscan hown
    (List.mem_cons_of_mem _ (List.mem_cons_of_mem _ hclosing))
  rw [spelled_closeParen hspelled] at hslice
  -- The name, the opening parenthesis, the arguments and the closing parenthesis follow in order.
  have hname := hordered.pos _ List.mem_cons_self
  have hopening := hordered.pos _ (List.mem_cons_of_mem _ List.mem_cons_self)
  have hafterName := hordered.stop_le (List.mem_singleton_self _) List.mem_cons_self
  have hparens := hordered.sublist (List.sublist_cons_self _ _)
  have hinside (token : Placed Token) (htoken : token ∈ body ++ [⟨.closeParen, closing⟩]) :
      opening.stop ≤ token.span.start := hparens.stop_le (List.mem_singleton_self _) htoken
  have hafter := hparens.sublist (List.sublist_cons_self _ _)
  have hclose := hafter.pos _ hclosing
  have hgap := hinside _ hclosing
  simp only at hname hopening hafterName hclose hgap
  refine ⟨⟨opening, body, closing, hown, hbalanced, hslice, hspan⟩, hname, ?_, ?_⟩
  · rw [hspan]
    simp only
    omega
  · refine hbody.inside (hafter.sublist (List.sublist_append_left _ _)) (fun token htoken => ?_)
      fun token htoken => ?_
    · have := hinside token (List.mem_append_left _ htoken)
      simp only
      omega
    · have hbefore := hafter.stop_le htoken (List.mem_singleton_self _)
      rw [hspan]
      simp only at hbefore ⊢
      omega

theorem faithful_block {b : Block} (h : (block b).Reads own) (hnesting : b.nesting ≤ nestingLimit) :
    (block b).Faithful source tokens := by
  have hordered := ordered_of_scan hscan hown
  have hparse := parse_slice hscan hown h hnesting
  obtain ⟨opening, body, closing, rfl, hspan, hbalanced, hbody⟩ := Derives.exists_braces h
  have hclosing : (⟨.closeBrace, closing⟩ : Placed Token) ∈ body ++ [⟨.closeBrace, closing⟩] :=
    List.mem_append_right _ (List.mem_singleton_self _)
  obtain ⟨first, hfirst, hspelled⟩ := exists_slice? hscan hown List.mem_cons_self
  rw [spelled_openBrace hspelled] at hfirst
  obtain ⟨last, hlast, hspelled⟩ := exists_slice? hscan hown (List.mem_cons_of_mem _ hclosing)
  rw [spelled_closeBrace hspelled] at hlast
  refine ⟨⟨opening, body, closing, hown, hbalanced, hfirst, hlast, hspan⟩, ?_, hparse⟩
  have hafter := hordered.sublist (List.sublist_cons_self _ _)
  refine hbody.inside (hafter.sublist (List.sublist_append_left _ _)) (fun token htoken => ?_)
    fun token htoken => ?_
  · have hopening := hordered.pos _ List.mem_cons_self
    have hinside := hordered.stop_le (List.mem_singleton_self _) (List.mem_append_left _ htoken)
    rw [hspan]
    simp only at hopening hinside ⊢
    omega
  · have hclose := hafter.pos _ hclosing
    have hbefore := hafter.stop_le htoken (List.mem_singleton_self _)
    rw [hspan]
    simp only at hclose hbefore ⊢
    omega

end

end Tree.Node

/-- Around the tokens of a program stand only separators. -/
theorem exists_separators {source : String} {tokens : List (Placed Token)}
    {first last : Placed Token} (hscan : scan source = .ok tokens) (hfirst : tokens.head? = some first)
    (hlast : tokens.getLast? = some last) :
    ∃ before inside after, source.toList = before ++ (inside ++ after) ∧ before ∈ separator∗ ∧
      after ∈ separator∗ ∧ first.span.start = byteLength before ∧
      last.span.stop = byteLength before + byteLength inside := by
  have hmunches := (Lexicon.scan_eq_ok_iff fits_piece source tokens).1 hscan
  obtain ⟨more, rfl⟩ := List.head?_eq_some_iff.1 hfirst
  obtain ⟨ahead, cs, htext, hahead, hstart, hcs⟩ := hmunches.exists_leading
  obtain ⟨front, hfront⟩ := List.getLast?_eq_some_iff.1 hlast
  rw [hfront] at hcs
  obtain ⟨inside, tail, rfl, hstop, -, htail⟩ := hcs.exists_upto
  obtain ⟨behind, rfl, hbehind⟩ := htail.exists_parts
  rw [Nat.zero_add] at hstart
  rw [List.append_nil] at htext
  refine ⟨ahead.flatten, inside, behind.flatten, htext, ?_, ?_, hstart, hstart ▸ hstop⟩
  · exact Language.mem_kstar.2 ⟨ahead, rfl, hahead⟩
  · exact Language.mem_kstar.2 ⟨behind, rfl, hbehind⟩

/-- The spans of a parsed program are faithful.  Around the program stand only blanks and comments;
the nodes at any depth have the text, the ends and the places of what they were read from, and the
text of every block is parsed on its own as that block. -/
theorem parse_spans {source : String} {tree : Tree.Block} (h : parse source = .ok tree) :
    (∃ before inside after, source.toList = before ++ (inside ++ after) ∧ before ∈ separator∗ ∧
      after ∈ separator∗ ∧
      tree.span = ⟨byteLength before, byteLength before + byteLength inside⟩) ∧
    ∃ tokens, scan source = .ok tokens ∧
      ∀ node, (Tree.Node.block tree).Contains node → node.Faithful source tokens := by
  obtain ⟨tokens, hscan, hderives, hnesting⟩ := parse_eq_ok_iff.1 h
  have hreads : (Tree.Node.block tree).Reads tokens := hderives
  refine ⟨?_, tokens, hscan, fun node hnode => ?_⟩
  · obtain ⟨first, last, hfirst, hlast, hspan⟩ := hreads.ends
    obtain ⟨before, inside, after, htext, hbefore, hafter, hstart, hstop⟩ :=
      exists_separators hscan hfirst hlast
    rw [hstart, hstop] at hspan
    exact ⟨before, inside, after, htext, hbefore, hafter, hspan⟩
  · obtain ⟨own, hown, hnode'⟩ := hnode.exists_reads hreads
    cases node with
    | leaf lexeme => exact Tree.Node.faithful_leaf hscan hown hnode'
    | call c => exact Tree.Node.faithful_call hscan hown hnode'
    | block b =>
      exact Tree.Node.faithful_block hscan hown hnode' (hnode.nesting_le.trans hnesting)

/-- A block inside a call, after a comment and a string whose characters are not all one byte. -/
theorem parse_spans_inner_block :
    let source := "/*é*/\x7bf(\"ü\", \x7bg()\x7d)\x7d "
    let inner : Tree.Block := ⟨[⟨⟨"g", ⟨16, 17⟩⟩, [], ⟨16, 19⟩⟩], ⟨15, 20⟩⟩
    ∃ tree, parse source = .ok tree ∧ (Tree.Node.block tree).Contains (.block inner) ∧
      (∃ tokens, scan source = .ok tokens ∧ (Tree.Node.block inner).Faithful source tokens) ∧
      ∃ tree', parse (inner.span.text source) = .ok tree' ∧ tree'.shift 15 = inner := by
  intro source inner
  let tree : Tree.Block := ⟨[⟨⟨"f", ⟨7, 8⟩⟩, [.string ⟨"\"ü\"", ⟨9, 13⟩⟩, .block inner],
    ⟨7, 21⟩⟩], ⟨6, 22⟩⟩
  have hscan : scan source = .ok [⟨.openBrace, ⟨6, 7⟩⟩, ⟨.name "f", ⟨7, 8⟩⟩, ⟨.openParen, ⟨8, 9⟩⟩,
      ⟨.string "\"ü\"", ⟨9, 13⟩⟩, ⟨.comma, ⟨13, 14⟩⟩, ⟨.openBrace, ⟨15, 16⟩⟩, ⟨.name "g", ⟨16, 17⟩⟩,
      ⟨.openParen, ⟨17, 18⟩⟩, ⟨.closeParen, ⟨18, 19⟩⟩, ⟨.closeBrace, ⟨19, 20⟩⟩,
      ⟨.closeParen, ⟨20, 21⟩⟩, ⟨.closeBrace, ⟨21, 22⟩⟩] := by
    decide +kernel
  have hparse : parse source = .ok tree := by
    rw [parse, hscan]
    rfl
  have hcontains : (Tree.Node.block tree).Contains (.block inner) := by
    refine .child (.child .root (List.mem_singleton_self _)) ?_
    exact List.mem_cons_of_mem _ (List.mem_cons_of_mem _ List.mem_cons_self)
  obtain ⟨tokens, hscan, hfaithful⟩ := (parse_spans hparse).2
  have hinner := hfaithful _ hcontains
  exact ⟨tree, hparse, hcontains, ⟨tokens, hscan, hinner⟩, hinner.2.2⟩

end CallScript.Program
