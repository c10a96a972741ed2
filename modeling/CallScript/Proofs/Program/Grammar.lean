import CallScript.Program.Parser

/-!
# The grammar of programs

`Derives` is the grammar with the trees it gives: each constructor is one production, and the spans
of the tree are those of the tokens.  A derivation keeps the texts of its tokens in order
(`Derives.lexemes`), its brackets are balanced (`Derives.balanced`), and the nesting of its tree is
the greatest depth of brackets among the tokens (`Derives.nesting_le_iff`).
-/

namespace CallScript

/-! ## Functions on lists of trees

A function on trees stands beside one on lists of them, since arguments and calls are lists.  Each
of these is a `map`, a `flatMap` or a maximum, so that the lemmas about those apply to it. -/

section Lists

variable {α β : Type}

theorem eq_map_of_cons {f : α → β} {g : List α → List β} (hnil : g [] = [])
    (hcons : ∀ a as, g (a :: as) = f a :: g as) (as : List α) : g as = as.map f := by
  induction as with
  | nil => exact hnil
  | cons a as ih => rw [hcons, ih, List.map_cons]

theorem eq_flatMap_of_cons {f : α → List β} {g : List α → List β} (hnil : g [] = [])
    (hcons : ∀ a as, g (a :: as) = f a ++ g as) (as : List α) : g as = as.flatMap f := by
  induction as with
  | nil => exact hnil
  | cons a as ih => rw [hcons, ih, List.flatMap_cons]

theorem eq_foldr_max_of_cons {f : α → Nat} {g : List α → Nat} (hnil : g [] = 0)
    (hcons : ∀ a as, g (a :: as) = max (f a) (g as)) (as : List α) :
    g as = (as.map f).foldr max 0 := by
  induction as with
  | nil => exact hnil
  | cons a as ih => rw [hcons, ih, List.map_cons, List.foldr_cons]

theorem foldr_max_concat (f : α → Nat) (as : List α) (a : α) :
    ((as ++ [a]).map f).foldr max 0 = max ((as.map f).foldr max 0) (f a) := by
  rw [List.map_append, List.foldr_append, List.map_cons, List.map_nil, List.foldr_cons,
    List.foldr_nil, Nat.max_comm, List.foldr_assoc]

theorem le_foldr_max (f : α → Nat) {as : List α} {a : α} (h : a ∈ as) :
    f a ≤ (as.map f).foldr max 0 := by
  induction as with
  | nil => cases h
  | cons first as ih =>
    rcases List.mem_cons.1 h with rfl | h
    · exact Nat.le_max_left _ _
    · exact Nat.le_trans (ih h) (Nat.le_max_right _ _)

end Lists

namespace Program

/-! ## Trees -/

namespace Tree

mutual

/-- How deep the brackets in an argument are nested. -/
def Argument.nesting : Argument → Nat
  | .number _ => 0
  | .string _ => 0
  | .name _ => 0
  | .call c => c.nesting
  | .block b => b.nesting

/-- How deep the brackets in arguments are nested. -/
def Argument.listNesting : List Argument → Nat
  | [] => 0
  | argument :: arguments => max argument.nesting (Argument.listNesting arguments)

/-- How deep the brackets in a call are nested. -/
def Call.nesting : Call → Nat
  | ⟨_, arguments, _⟩ => Argument.listNesting arguments + 1

/-- How deep the brackets in calls are nested. -/
def Call.listNesting : List Call → Nat
  | [] => 0
  | call :: calls => max call.nesting (Call.listNesting calls)

/-- How deep the brackets in a block are nested. -/
def Block.nesting : Block → Nat
  | ⟨calls, _⟩ => Call.listNesting calls + 1

end

mutual

/-- The names and literals in an argument, in order. -/
def Argument.lexemes : Argument → List Lexeme
  | .number lexeme => [lexeme]
  | .string lexeme => [lexeme]
  | .name lexeme => [lexeme]
  | .call c => c.lexemes
  | .block b => b.lexemes

/-- The names and literals in arguments, in order. -/
def Argument.listLexemes : List Argument → List Lexeme
  | [] => []
  | argument :: arguments => argument.lexemes ++ Argument.listLexemes arguments

/-- The names and literals in a call, in order. -/
def Call.lexemes : Call → List Lexeme
  | ⟨name, arguments, _⟩ => name :: Argument.listLexemes arguments

/-- The names and literals in calls, in order. -/
def Call.listLexemes : List Call → List Lexeme
  | [] => []
  | call :: calls => call.lexemes ++ Call.listLexemes calls

/-- The names and literals in a block, in order. -/
def Block.lexemes : Block → List Lexeme
  | ⟨calls, _⟩ => Call.listLexemes calls

end

theorem Argument.listNesting_eq_foldr (arguments : List Argument) :
    Argument.listNesting arguments = (arguments.map Argument.nesting).foldr max 0 :=
  eq_foldr_max_of_cons rfl (fun _ _ => rfl) arguments

theorem Call.listNesting_eq_foldr (calls : List Call) :
    Call.listNesting calls = (calls.map Call.nesting).foldr max 0 :=
  eq_foldr_max_of_cons rfl (fun _ _ => rfl) calls

theorem Argument.listLexemes_eq_flatMap (arguments : List Argument) :
    Argument.listLexemes arguments = arguments.flatMap Argument.lexemes :=
  eq_flatMap_of_cons rfl (fun _ _ => rfl) arguments

theorem Call.listLexemes_eq_flatMap (calls : List Call) :
    Call.listLexemes calls = calls.flatMap Call.lexemes :=
  eq_flatMap_of_cons rfl (fun _ _ => rfl) calls

end Tree

/-! ## Derivations -/

/-- What the grammar derives: a nonterminal and the tree it stands for. -/
inductive Phrase where
  | block (tree : Tree.Block)
  /-- One or more calls. -/
  | calls (trees : List Tree.Call)
  | call (tree : Tree.Call)
  /-- One or more arguments. -/
  | arguments (trees : List Tree.Argument)
  | argument (tree : Tree.Argument)

/-- The tokens a phrase consists of, by the productions of the grammar. -/
inductive Derives : Phrase → List (Placed Token) → Prop where
  | emptyBlock (opening closing : Span) :
    Derives (.block ⟨[], ⟨opening.start, closing.stop⟩⟩)
      [⟨.openBrace, opening⟩, ⟨.closeBrace, closing⟩]
  | block (opening closing : Span) {calls : List Tree.Call} {body : List (Placed Token)}
    (h : Derives (.calls calls) body) :
    Derives (.block ⟨calls, ⟨opening.start, closing.stop⟩⟩)
      (⟨.openBrace, opening⟩ :: (body ++ [⟨.closeBrace, closing⟩]))
  | firstCall {call : Tree.Call} {tokens : List (Placed Token)} (h : Derives (.call call) tokens) :
    Derives (.calls [call]) tokens
  | nextCall (semicolon : Span) {calls : List Tree.Call} {call : Tree.Call}
    {before tokens : List (Placed Token)} (hs : Derives (.calls calls) before)
    (h : Derives (.call call) tokens) :
    Derives (.calls (calls ++ [call])) (before ++ ⟨.semicolon, semicolon⟩ :: tokens)
  | emptyCall (name : Lexeme) (opening closing : Span) :
    Derives (.call ⟨name, [], ⟨name.span.start, closing.stop⟩⟩)
      [⟨.name name.text, name.span⟩, ⟨.openParen, opening⟩, ⟨.closeParen, closing⟩]
  | call (name : Lexeme) (opening closing : Span) {arguments : List Tree.Argument}
    {body : List (Placed Token)} (h : Derives (.arguments arguments) body) :
    Derives (.call ⟨name, arguments, ⟨name.span.start, closing.stop⟩⟩)
      (⟨.name name.text, name.span⟩ :: ⟨.openParen, opening⟩ ::
        (body ++ [⟨.closeParen, closing⟩]))
  | firstArgument {argument : Tree.Argument} {tokens : List (Placed Token)}
    (h : Derives (.argument argument) tokens) : Derives (.arguments [argument]) tokens
  | nextArgument (comma : Span) {arguments : List Tree.Argument} {argument : Tree.Argument}
    {before tokens : List (Placed Token)} (hs : Derives (.arguments arguments) before)
    (h : Derives (.argument argument) tokens) :
    Derives (.arguments (arguments ++ [argument])) (before ++ ⟨.comma, comma⟩ :: tokens)
  | number (lexeme : Lexeme) :
    Derives (.argument (.number lexeme)) [⟨.number lexeme.text, lexeme.span⟩]
  | string (lexeme : Lexeme) :
    Derives (.argument (.string lexeme)) [⟨.string lexeme.text, lexeme.span⟩]
  | name (lexeme : Lexeme) :
    Derives (.argument (.name lexeme)) [⟨.name lexeme.text, lexeme.span⟩]
  | callArgument {call : Tree.Call} {tokens : List (Placed Token)}
    (h : Derives (.call call) tokens) : Derives (.argument (.call call)) tokens
  | blockArgument {block : Tree.Block} {tokens : List (Placed Token)}
    (h : Derives (.block block) tokens) : Derives (.argument (.block block)) tokens

namespace Phrase

/-- How deep the brackets in a phrase are nested. -/
def nesting : Phrase → Nat
  | .block tree => tree.nesting
  | .calls trees => Tree.Call.listNesting trees
  | .call tree => tree.nesting
  | .arguments trees => Tree.Argument.listNesting trees
  | .argument tree => tree.nesting

/-- The names and literals in a phrase, in order. -/
def lexemes : Phrase → List Lexeme
  | .block tree => tree.lexemes
  | .calls trees => Tree.Call.listLexemes trees
  | .call tree => tree.lexemes
  | .arguments trees => Tree.Argument.listLexemes trees
  | .argument tree => tree.lexemes

end Phrase

/-- The text of a token that carries one. -/
def lexeme? (token : Placed Token) : Option Lexeme :=
  match token.item with
  | .string text => some ⟨text, token.span⟩
  | .number text => some ⟨text, token.span⟩
  | .name text => some ⟨text, token.span⟩
  | _ => none

theorem Derives.lexemes {phrase : Phrase} {tokens : List (Placed Token)}
    (h : Derives phrase tokens) : phrase.lexemes = tokens.filterMap lexeme? := by
  induction h with
  | nextCall _ _ _ ihs ih =>
    simp only [Phrase.lexemes, Tree.Call.listLexemes_eq_flatMap] at ihs ih ⊢
    simp [lexeme?, List.filterMap_cons, ihs, ih]
  | nextArgument _ _ _ ihs ih =>
    simp only [Phrase.lexemes, Tree.Argument.listLexemes_eq_flatMap] at ihs ih ⊢
    simp [lexeme?, List.filterMap_cons, ihs, ih]
  | _ =>
    simp_all [Phrase.lexemes, Tree.Block.lexemes, Tree.Call.lexemes, Tree.Call.listLexemes,
      Tree.Argument.lexemes, Tree.Argument.listLexemes, lexeme?, List.filterMap_cons]

/-! ## Brackets -/

/-- What a token adds to the depth of brackets. -/
def Token.weight : Token → Int
  | .openBrace => 1
  | .openParen => 1
  | .closeBrace => -1
  | .closeParen => -1
  | _ => 0

/-- How many brackets tokens open, less those they close. -/
def depth (tokens : List (Placed Token)) : Int :=
  tokens.foldr (fun token opened => token.item.weight + opened) 0

@[simp] theorem depth_nil : depth [] = 0 := rfl

@[simp] theorem depth_cons (token : Placed Token) (tokens : List (Placed Token)) :
    depth (token :: tokens) = token.item.weight + depth tokens := rfl

@[simp] theorem depth_append (tokens more : List (Placed Token)) :
    depth (tokens ++ more) = depth tokens + depth more := by
  induction tokens with
  | nil => simp
  | cons token tokens ih => simp [ih, Int.add_assoc]

/-- Tokens that close what they open and nothing else. -/
structure Balanced (tokens : List (Placed Token)) : Prop where
  depth_eq : depth tokens = 0
  nonneg : ∀ before, before <+: tokens → 0 ≤ depth before

/-- Tokens that never open more than `n` brackets at a time. -/
def Within (n : Int) (tokens : List (Placed Token)) : Prop :=
  ∀ before, before <+: tokens → depth before ≤ n

/-- The first tokens of two lists in a row are the first tokens of one, or that and first tokens of
the other. -/
theorem prefix_append_iff {α : Type} {before xs ys : List α} :
    before <+: xs ++ ys ↔ before <+: xs ∨ ∃ more, before = xs ++ more ∧ more <+: ys := by
  constructor
  · rintro ⟨after, h⟩
    rcases List.append_eq_append_iff.1 h with ⟨rest, rfl, rfl⟩ | ⟨rest, rfl, rfl⟩
    · exact .inl ⟨rest, rfl⟩
    · exact .inr ⟨rest, rfl, _, rfl⟩
  · rintro (⟨rest, rfl⟩ | ⟨more, rfl, rest, rfl⟩)
    · exact ⟨rest ++ ys, by simp⟩
    · exact ⟨rest, by simp⟩

theorem forall_prefix_cons {α : Type} {p : List α → Prop} {x : α} {xs : List α} :
    (∀ before, before <+: x :: xs → p before) ↔ p [] ∧ ∀ rest, rest <+: xs → p (x :: rest) := by
  constructor
  · intro h
    exact ⟨h [] List.nil_prefix, fun rest hr => h _ ((List.prefix_cons_inj x).2 hr)⟩
  · rintro ⟨hnil, hcons⟩ before hb
    rcases List.prefix_cons_iff.1 hb with rfl | ⟨rest, rfl, hr⟩
    · exact hnil
    · exact hcons rest hr

theorem balanced_nil : Balanced [] where
  depth_eq := rfl
  nonneg before hb := by simp [List.prefix_nil.1 hb]

theorem Balanced.append {tokens more : List (Placed Token)} (h : Balanced tokens)
    (hm : Balanced more) : Balanced (tokens ++ more) where
  depth_eq := by simp [h.depth_eq, hm.depth_eq]
  nonneg before hb := by
    rcases prefix_append_iff.1 hb with hb | ⟨rest, rfl, hr⟩
    · exact h.nonneg before hb
    · simpa [h.depth_eq] using hm.nonneg rest hr

theorem within_append {n : Int} {tokens more : List (Placed Token)} (h : Balanced tokens) :
    Within n (tokens ++ more) ↔ Within n tokens ∧ Within n more := by
  constructor
  · intro hw
    refine ⟨fun before hb => hw before (prefix_append_iff.2 (.inl hb)), fun before hb => ?_⟩
    simpa [h.depth_eq] using hw (tokens ++ before) (prefix_append_iff.2 (.inr ⟨before, rfl, hb⟩))
  · rintro ⟨ht, hm⟩ before hb
    rcases prefix_append_iff.1 hb with hb | ⟨rest, rfl, hr⟩
    · exact ht before hb
    · simpa [h.depth_eq] using hm rest hr

theorem Within.nonneg {n : Int} {tokens : List (Placed Token)} (h : Within n tokens) : 0 ≤ n :=
  h [] List.nil_prefix

theorem within_nil {n : Int} : Within n [] ↔ 0 ≤ n :=
  ⟨Within.nonneg, fun hn before hb => by simpa [List.prefix_nil.1 hb] using hn⟩

section Neutral

variable {token : Placed Token} (ht : token.item.weight = 0)
include ht

theorem balanced_singleton : Balanced [token] where
  depth_eq := by simp [ht]
  nonneg before hb := by
    rcases List.prefix_cons_iff.1 hb with rfl | ⟨rest, rfl, hr⟩
    · simp
    · simp [ht, List.prefix_nil.1 hr]

theorem within_singleton {n : Int} : Within n [token] ↔ 0 ≤ n := by
  refine ⟨Within.nonneg, fun hn before hb => ?_⟩
  rcases List.prefix_cons_iff.1 hb with rfl | ⟨rest, rfl, hr⟩
  · simpa
  · simpa [ht, List.prefix_nil.1 hr]

/-- A token between brackets adds nothing to their depth. -/
theorem within_cons {n : Int} {tokens : List (Placed Token)} :
    Within n (token :: tokens) ↔ Within n tokens := by
  rw [← List.singleton_append, within_append (balanced_singleton ht), within_singleton ht]
  exact and_iff_right_of_imp Within.nonneg

end Neutral

section Enclosed

variable {opening closing : Placed Token} {body : List (Placed Token)}
  (ho : opening.item.weight = 1) (hc : closing.item.weight = -1) (hb : Balanced body)
include ho hc hb

theorem Balanced.enclosed : Balanced (opening :: (body ++ [closing])) where
  depth_eq := by simp [ho, hc, hb.depth_eq]
  nonneg before hp := by
    rcases List.prefix_cons_iff.1 hp with rfl | ⟨rest, rfl, hr⟩
    · simp
    · rcases List.prefix_concat_iff.1 hr with rfl | hr
      · simp [ho, hc, hb.depth_eq]
      · have := hb.nonneg rest hr
        simp only [depth_cons, ho]
        omega

theorem within_enclosed {n : Int} : Within n (opening :: (body ++ [closing])) ↔
    Within (n - 1) body := by
  constructor
  · intro hw before hp
    have hin : opening :: before <+: opening :: (body ++ [closing]) :=
      List.prefix_cons_iff.2 (.inr ⟨before, rfl, List.prefix_concat_iff.2 (.inr hp)⟩)
    have := hw _ hin
    simp only [depth_cons, ho] at this
    omega
  · intro hw before hp
    have hn := hw.nonneg
    rcases List.prefix_cons_iff.1 hp with rfl | ⟨rest, rfl, hr⟩
    · simp only [depth_nil]
      omega
    · rcases List.prefix_concat_iff.1 hr with rfl | hr
      · simp only [depth_cons, depth_append, depth_nil, ho, hc, hb.depth_eq]
        omega
      · have := hw rest hr
        simp only [depth_cons, ho]
        omega

end Enclosed

namespace Derives

variable {phrase : Phrase} {tokens : List (Placed Token)}

theorem balanced (h : Derives phrase tokens) : Balanced tokens := by
  induction h with
  | emptyBlock => exact balanced_nil.enclosed rfl rfl
  | block _ _ _ ih => exact ih.enclosed rfl rfl
  | firstCall _ ih => exact ih
  | nextCall _ _ _ ihs ih => exact ihs.append ((balanced_singleton rfl).append ih)
  | emptyCall => exact (balanced_singleton rfl).append (balanced_nil.enclosed rfl rfl)
  | call _ _ _ _ ih => exact (balanced_singleton rfl).append (ih.enclosed rfl rfl)
  | firstArgument _ ih => exact ih
  | nextArgument _ _ _ ihs ih => exact ihs.append ((balanced_singleton rfl).append ih)
  | number => exact balanced_singleton rfl
  | string => exact balanced_singleton rfl
  | name => exact balanced_singleton rfl
  | callArgument _ ih => exact ih
  | blockArgument _ ih => exact ih

/-- Brackets are nested as deep in the tree as they are among the tokens. -/
theorem nesting_le_iff (h : Derives phrase tokens) (n : Int) :
    (phrase.nesting : Int) ≤ n ↔ Within n tokens := by
  have hsucc (k : Nat) (n : Int) : ((k + 1 : Nat) : Int) ≤ n ↔ (k : Int) ≤ n - 1 := by omega
  have hmax (k l : Nat) (n : Int) :
      ((max k l : Nat) : Int) ≤ n ↔ (k : Int) ≤ n ∧ (l : Int) ≤ n := by
    omega
  induction h generalizing n with
  | emptyBlock =>
    exact (hsucc 0 n).trans (within_nil.symm.trans (within_enclosed rfl rfl balanced_nil).symm)
  | block _ _ h ih =>
    exact (hsucc _ n).trans ((ih (n - 1)).trans (within_enclosed rfl rfl h.balanced).symm)
  | firstCall _ ih => simpa [Phrase.nesting, Tree.Call.listNesting] using ih n
  | nextCall _ hs _ ihs ih =>
    rw [within_append hs.balanced, within_cons rfl]
    rw [Phrase.nesting, Tree.Call.listNesting_eq_foldr, foldr_max_concat,
      ← Tree.Call.listNesting_eq_foldr, hmax]
    exact and_congr (ihs n) (ih n)
  | emptyCall =>
    refine Iff.trans ?_ (within_cons rfl).symm
    exact (hsucc 0 n).trans (within_nil.symm.trans (within_enclosed rfl rfl balanced_nil).symm)
  | call _ _ _ h ih =>
    refine Iff.trans ?_ (within_cons rfl).symm
    exact (hsucc _ n).trans ((ih (n - 1)).trans (within_enclosed rfl rfl h.balanced).symm)
  | firstArgument _ ih => simpa [Phrase.nesting, Tree.Argument.listNesting] using ih n
  | nextArgument _ hs _ ihs ih =>
    rw [within_append hs.balanced, within_cons rfl]
    rw [Phrase.nesting, Tree.Argument.listNesting_eq_foldr, foldr_max_concat,
      ← Tree.Argument.listNesting_eq_foldr, hmax]
    exact and_congr (ihs n) (ih n)
  | number => exact (within_singleton rfl).symm
  | string => exact (within_singleton rfl).symm
  | name => exact (within_singleton rfl).symm
  | callArgument _ ih => exact ih n
  | blockArgument _ ih => exact ih n

end Derives

end Program

end CallScript
