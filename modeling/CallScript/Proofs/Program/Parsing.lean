import CallScript.Proofs.Program.Grammar

/-!
# The parser and the grammar

A run of the parser over tokens ends in the state of a whole program exactly if the grammar derives
that program from them (`State.run_initial_eq_done_iff`).  One direction follows the derivation, the
other keeps for every state the tokens it has read (`State.Covers`).  The parser decides between
states by the next token alone, so no tokens have two trees.
-/

namespace CallScript.Program

namespace State

/-! ## Runs -/

/-- The state after tokens; `none` if no program starts so. -/
def run : State → List (Placed Token) → Option State
  | state, [] => some state
  | state, token :: tokens => (state.step token).bind fun next => next.run tokens

@[simp] theorem run_nil (state : State) : state.run [] = some state := rfl

@[simp] theorem run_cons (state : State) (token : Placed Token) (tokens : List (Placed Token)) :
    state.run (token :: tokens) = (state.step token).bind fun next => next.run tokens := rfl

@[simp] theorem run_append (state : State) (tokens more : List (Placed Token)) :
    state.run (tokens ++ more) = (state.run tokens).bind fun next => next.run more := by
  induction tokens generalizing state with
  | nil => rfl
  | cons token tokens ih => cases h : state.step token <;> simp [h, ih]

theorem parseFrom_eq_ok_iff (state : State) (stop : Nat) (tokens : List (Placed Token))
    (tree : Tree.Block) :
    parseFrom state stop tokens = .ok tree ↔ state.run tokens = some (.done tree) := by
  induction tokens generalizing state stop with
  | nil => cases state <;> simp [parseFrom]
  | cons token tokens ih => cases h : state.step token <;> simp [parseFrom, h, ih]

/-! ## Derivations are read -/

/-- The state after an argument of the call `name` that follows `arguments`. -/
def afterArgument (name : Lexeme) (arguments : List Tree.Argument) (outer : CallContext) :
    Tree.Argument → State
  | .name lexeme => .word lexeme name arguments outer
  | argument => .call name (argument :: arguments) .filled outer

/-- The state after the arguments of the call `name`, which are kept in reverse. -/
def afterArguments (name : Lexeme) (outer : CallContext) : List Tree.Argument → State
  | [] => .call name [] .opened outer
  | argument :: arguments => afterArgument name arguments outer argument

theorem step_afterArguments_closeParen (name : Lexeme) (outer : CallContext)
    (arguments : List Tree.Argument) (span : Span) :
    (afterArguments name outer arguments).step ⟨.closeParen, span⟩ =
      some (finishCall name arguments outer span) := by
  rcases arguments with _ | ⟨_ | _ | _ | _ | _, _⟩ <;> rfl

theorem step_afterArguments_comma (name : Lexeme) (outer : CallContext)
    {arguments : List Tree.Argument} (h : arguments ≠ []) (span : Span) :
    (afterArguments name outer arguments).step ⟨.comma, span⟩ =
      some (.call name arguments .separated outer) := by
  rcases arguments with _ | ⟨_ | _ | _ | _ | _, _⟩ <;> first | contradiction | rfl

/-- Where an item may stand, a name starts a call of a block. -/
theorem step_block_name {progress : Progress} (hp : progress ≠ .filled) (start : Nat)
    (calls : List Tree.Call) (outer : BlockContext) (text : String) (span : Span) :
    (block start calls progress outer).step ⟨.name text, span⟩ =
      some (.callName ⟨text, span⟩ (.statement start calls outer)) := by
  cases progress <;> first | rfl | contradiction

/-- Where an item may stand, a token that does not close the call starts an argument. -/
theorem step_call_start {progress : Progress} (hp : progress ≠ .filled) (name : Lexeme)
    (arguments : List Tree.Argument) (outer : CallContext) {token : Placed Token}
    (ht : token.item ≠ .closeParen) :
    (call name arguments progress outer).step token =
      stepArgument name arguments outer token.span token.item := by
  obtain ⟨item, span⟩ := token
  cases progress <;> cases item <;> first | rfl | contradiction

end State

/-- What a parser does with the tokens of a phrase where the phrase may stand. -/
def Phrase.Read : Phrase → List (Placed Token) → Prop
  | .block tree, tokens =>
    State.initial.run tokens = some (.done tree) ∧
    ∀ name arguments progress outer, progress ≠ Progress.filled →
      (State.call name arguments progress outer).run tokens =
        some (.call name (.block tree :: arguments) .filled outer)
  | .calls trees, tokens => ∀ start outer,
    (State.block start [] .opened outer).run tokens =
      some (.block start trees.reverse .filled outer)
  | .call tree, tokens =>
    (∀ start calls progress outer, progress ≠ Progress.filled →
      (State.block start calls progress outer).run tokens =
        some (.block start (tree :: calls) .filled outer)) ∧
    ∀ name arguments progress outer, progress ≠ Progress.filled →
      (State.call name arguments progress outer).run tokens =
        some (.call name (.call tree :: arguments) .filled outer)
  | .arguments trees, tokens => ∀ name outer,
    (State.call name [] .opened outer).run tokens =
      some (State.afterArguments name outer trees.reverse)
  | .argument tree, tokens => ∀ name arguments progress outer, progress ≠ Progress.filled →
    (State.call name arguments progress outer).run tokens =
      some (State.afterArgument name arguments outer tree)

namespace Derives

open State

theorem arguments_ne_nil {trees : List Tree.Argument} {tokens : List (Placed Token)}
    (h : Derives (.arguments trees) tokens) : trees ≠ [] := by
  cases h <;> simp

/-- A call is read where a statement or an argument may start, if its arguments are read. -/
theorem read_call {name : Lexeme} {opening closing : Span} {arguments : List Tree.Argument}
    {body : List (Placed Token)}
    (h : ∀ outer, (State.call name [] .opened outer).run body =
      some (afterArguments name outer arguments.reverse)) :
    (Phrase.call ⟨name, arguments, ⟨name.span.start, closing.stop⟩⟩).Read
      (⟨.name name.text, name.span⟩ :: ⟨.openParen, opening⟩ ::
        (body ++ [⟨.closeParen, closing⟩])) := by
  have hinside (outer : CallContext) :
      (State.call name [] .opened outer).run (body ++ [⟨.closeParen, closing⟩]) =
        some (closeCall ⟨name, arguments, ⟨name.span.start, closing.stop⟩⟩ outer) := by
    simp [h, step_afterArguments_closeParen, finishCall]
  refine ⟨fun start calls progress outer hp => ?_, fun caller before progress outer hp => ?_⟩
  · rw [run_cons, step_block_name hp]
    exact hinside (.statement start calls outer)
  · rw [run_cons, step_call_start hp caller before outer (by simp)]
    exact hinside (.argument caller before outer)

theorem read_block {opening closing : Span} {calls : List Tree.Call} {body : List (Placed Token)}
    {progress : Progress} (hp : progress ≠ .separated)
    (h : ∀ start outer, (State.block start [] .opened outer).run body =
      some (.block start calls.reverse progress outer)) :
    (Phrase.block ⟨calls, ⟨opening.start, closing.stop⟩⟩).Read
      (⟨.openBrace, opening⟩ :: (body ++ [⟨.closeBrace, closing⟩])) := by
  have hclose (start : Nat) (outer : BlockContext) :
      (State.block start calls.reverse progress outer).step ⟨.closeBrace, closing⟩ =
        some (closeBlock ⟨calls, ⟨start, closing.stop⟩⟩ outer) := by
    cases progress <;> first | contradiction | simp [step, stepBlock]
  have hinside (start : Nat) (outer : BlockContext) :
      (State.block start [] .opened outer).run (body ++ [⟨.closeBrace, closing⟩]) =
        some (closeBlock ⟨calls, ⟨start, closing.stop⟩⟩ outer) := by
    simp [h, hclose]
  refine ⟨hinside opening.start .root, fun name arguments progress outer hp => ?_⟩
  rw [run_cons, step_call_start hp name arguments outer (by simp)]
  exact hinside opening.start (.argument name arguments outer)

/-- A token that is an argument is read where an argument may start. -/
theorem read_single {token : Placed Token} {tree : Tree.Argument} (ht : token.item ≠ .closeParen)
    (h : ∀ name arguments outer, stepArgument name arguments outer token.span token.item =
      some (afterArgument name arguments outer tree)) : (Phrase.argument tree).Read [token] := by
  intro name arguments progress outer hp
  rw [run_cons, step_call_start hp name arguments outer ht, h]
  rfl

/-- The parser reads what the grammar derives. -/
theorem read {phrase : Phrase} {tokens : List (Placed Token)} (h : Derives phrase tokens) :
    phrase.Read tokens := by
  induction h with
  | emptyBlock =>
    have hbody (start : Nat) (outer : BlockContext) : (State.block start [] .opened outer).run [] =
      some (.block start [].reverse .opened outer) := rfl
    exact read_block (by simp) hbody
  | block _ _ _ ih => exact read_block (by simp) ih
  | firstCall _ ih => exact fun start outer => ih.1 start [] .opened outer (by simp)
  | nextCall _ _ _ ihs ih =>
    intro start outer
    rw [run_append, ihs start outer, List.reverse_concat]
    exact ih.1 start _ .separated outer (by simp)
  | emptyCall name =>
    have hbody (outer : CallContext) : (State.call name [] .opened outer).run [] =
      some (afterArguments name outer [].reverse) := rfl
    exact read_call hbody
  | call _ _ _ _ ih => exact read_call (ih _)
  | firstArgument _ ih => exact fun name outer => ih name [] .opened outer (by simp)
  | nextArgument comma hs _ ihs ih =>
    intro name outer
    have hsep := step_afterArguments_comma name outer
      (List.reverse_ne_nil_iff.2 hs.arguments_ne_nil) comma
    rw [run_append, ihs name outer, Option.bind_some, run_cons, hsep, List.reverse_concat]
    exact ih name _ .separated outer (by simp)
  | number => exact read_single (by simp) fun _ _ _ => rfl
  | string => exact read_single (by simp) fun _ _ _ => rfl
  | name => exact read_single (by simp) fun _ _ _ => rfl
  | callArgument _ ih => exact ih.2
  | blockArgument _ ih => exact ih.2

end Derives

/-! ## What states have read -/

/-- How items, kept in reverse, and the separators between them make up tokens: `derives` says how
the items do that are not followed by a separator. -/
def Progress.Reads {α : Type} (derives : List α → List (Placed Token) → Prop) (mark : Token) :
    Progress → List α → List (Placed Token) → Prop
  | .opened, items, body => items = [] ∧ body = []
  | .filled, items, body => derives items.reverse body
  | .separated, items, body =>
    ∃ before span, body = before ++ [⟨mark, span⟩] ∧ derives items.reverse before

/-- Tokens between the parentheses of a call that is being read. -/
def Progress.ReadsArguments : Progress → List Tree.Argument → List (Placed Token) → Prop :=
  Progress.Reads (fun trees => Derives (.arguments trees)) .comma

/-- Tokens between the braces of a block that is being read. -/
def Progress.ReadsCalls : Progress → List Tree.Call → List (Placed Token) → Prop :=
  Progress.Reads (fun trees => Derives (.calls trees)) .semicolon

mutual

/-- The tokens before a block. -/
inductive BlockContext.Covers : BlockContext → List (Placed Token) → Prop where
  | root : BlockContext.Covers .root []
  | argument {name : Lexeme} {arguments : List Tree.Argument} {outer : CallContext}
    {before body : List (Placed Token)} {progress : Progress} (opening : Span)
    (houter : outer.Covers before) (hread : progress.ReadsArguments arguments body)
    (hopen : progress ≠ .filled) :
    BlockContext.Covers (.argument name arguments outer)
      (before ++ ⟨.name name.text, name.span⟩ :: ⟨.openParen, opening⟩ :: body)

/-- The tokens before a call. -/
inductive CallContext.Covers : CallContext → List (Placed Token) → Prop where
  | statement {calls : List Tree.Call} {outer : BlockContext} {before body : List (Placed Token)}
    {progress : Progress} (opening : Span) (houter : outer.Covers before)
    (hread : progress.ReadsCalls calls body) (hopen : progress ≠ .filled) :
    CallContext.Covers (.statement opening.start calls outer)
      (before ++ ⟨.openBrace, opening⟩ :: body)
  | argument {name : Lexeme} {arguments : List Tree.Argument} {outer : CallContext}
    {before body : List (Placed Token)} {progress : Progress} (opening : Span)
    (houter : outer.Covers before) (hread : progress.ReadsArguments arguments body)
    (hopen : progress ≠ .filled) :
    CallContext.Covers (.argument name arguments outer)
      (before ++ ⟨.name name.text, name.span⟩ :: ⟨.openParen, opening⟩ :: body)

end

/-- The tokens a state has read. -/
inductive State.Covers : State → List (Placed Token) → Prop where
  | initial : Covers .initial []
  | block {calls : List Tree.Call} {outer : BlockContext} {before body : List (Placed Token)}
    {progress : Progress} (opening : Span) (houter : outer.Covers before)
    (hread : progress.ReadsCalls calls body) :
    Covers (.block opening.start calls progress outer) (before ++ ⟨.openBrace, opening⟩ :: body)
  | callName {name : Lexeme} {outer : CallContext} {before : List (Placed Token)}
    (houter : outer.Covers before) :
    Covers (.callName name outer) (before ++ [⟨.name name.text, name.span⟩])
  | call {name : Lexeme} {arguments : List Tree.Argument} {outer : CallContext}
    {before body : List (Placed Token)} {progress : Progress} (opening : Span)
    (houter : outer.Covers before) (hread : progress.ReadsArguments arguments body) :
    Covers (.call name arguments progress outer)
      (before ++ ⟨.name name.text, name.span⟩ :: ⟨.openParen, opening⟩ :: body)
  | word {lexeme name : Lexeme} {arguments : List Tree.Argument} {outer : CallContext}
    {before : List (Placed Token)}
    (houter : (CallContext.argument name arguments outer).Covers before) :
    Covers (.word lexeme name arguments outer)
      (before ++ [⟨.name lexeme.text, lexeme.span⟩])
  | done {tree : Tree.Block} {tokens : List (Placed Token)} (h : Derives (.block tree) tokens) :
    Covers (.done tree) tokens

/-- An item where one may stand. -/
theorem Progress.Reads.fill {α : Type} {derives : List α → List (Placed Token) → Prop}
    {mark : Token} {item : α} {tokens : List (Placed Token)} (first : derives [item] tokens)
    (next : ∀ span items before, derives items before →
      derives (items ++ [item]) (before ++ ⟨mark, span⟩ :: tokens))
    {progress : Progress} {items : List α} {body : List (Placed Token)}
    (h : progress.Reads derives mark items body) (hopen : progress ≠ .filled) :
    Progress.filled.Reads derives mark (item :: items) (body ++ tokens) := by
  cases progress with
  | opened =>
    obtain ⟨rfl, rfl⟩ := h
    exact first
  | filled => contradiction
  | separated =>
    obtain ⟨before, span, rfl, hbefore⟩ := h
    simpa [Progress.Reads] using next span _ _ hbefore

theorem Progress.ReadsArguments.fill {progress : Progress} {arguments : List Tree.Argument}
    {body tokens : List (Placed Token)} {argument : Tree.Argument}
    (h : progress.ReadsArguments arguments body) (hopen : progress ≠ .filled)
    (ha : Derives (.argument argument) tokens) :
    Progress.filled.ReadsArguments (argument :: arguments) (body ++ tokens) :=
  Progress.Reads.fill (.firstArgument ha) (fun span _ _ hs => .nextArgument span hs ha) h hopen

theorem Progress.ReadsCalls.fill {progress : Progress} {calls : List Tree.Call}
    {body tokens : List (Placed Token)} {call : Tree.Call} (h : progress.ReadsCalls calls body)
    (hopen : progress ≠ .filled) (hc : Derives (.call call) tokens) :
    Progress.filled.ReadsCalls (call :: calls) (body ++ tokens) :=
  Progress.Reads.fill (.firstCall hc) (fun span _ _ hs => .nextCall span hs hc) h hopen

/-- A call whose closing parenthesis comes. -/
theorem Progress.ReadsArguments.close {progress : Progress} {arguments : List Tree.Argument}
    {body : List (Placed Token)} (h : progress.ReadsArguments arguments body)
    (hclosed : progress ≠ .separated) (name : Lexeme) (opening closing : Span) :
    Derives (.call ⟨name, arguments.reverse, ⟨name.span.start, closing.stop⟩⟩)
      (⟨.name name.text, name.span⟩ :: ⟨.openParen, opening⟩ ::
        (body ++ [⟨.closeParen, closing⟩])) := by
  cases progress with
  | opened =>
    obtain ⟨rfl, rfl⟩ := h
    exact .emptyCall name opening closing
  | filled => exact .call name opening closing h
  | separated => contradiction

/-- A block whose closing brace comes. -/
theorem Progress.ReadsCalls.close {progress : Progress} {calls : List Tree.Call}
    {body : List (Placed Token)} (h : progress.ReadsCalls calls body)
    (hclosed : progress ≠ .separated) (opening closing : Span) :
    Derives (.block ⟨calls.reverse, ⟨opening.start, closing.stop⟩⟩)
      (⟨.openBrace, opening⟩ :: (body ++ [⟨.closeBrace, closing⟩])) := by
  cases progress with
  | opened =>
    obtain ⟨rfl, rfl⟩ := h
    exact .emptyBlock opening closing
  | filled => exact .block opening closing h
  | separated => contradiction

theorem BlockContext.Covers.close {outer : BlockContext} {before tokens : List (Placed Token)}
    (h : outer.Covers before) {tree : Tree.Block} (ht : Derives (.block tree) tokens) :
    (State.closeBlock tree outer).Covers (before ++ tokens) := by
  cases h with
  | root => exact .done ht
  | argument opening houter hread hopen =>
    have hfill := hread.fill hopen (.blockArgument ht)
    simpa [State.closeBlock] using State.Covers.call opening houter hfill

theorem CallContext.Covers.close {outer : CallContext} {before tokens : List (Placed Token)}
    (h : outer.Covers before) {tree : Tree.Call} (ht : Derives (.call tree) tokens) :
    (State.closeCall tree outer).Covers (before ++ tokens) := by
  cases h with
  | statement opening houter hread hopen =>
    have hfill := hread.fill hopen ht
    simpa [State.closeCall] using State.Covers.block opening houter hfill
  | argument opening houter hread hopen =>
    have hfill := hread.fill hopen (.callArgument ht)
    simpa [State.closeCall] using State.Covers.call opening houter hfill

namespace State

theorem stepBlock_covers {calls : List Tree.Call} {outer : BlockContext}
    {before body : List (Placed Token)} {progress : Progress} {opening span : Span} {item : Token}
    {next : State} (houter : outer.Covers before) (hread : progress.ReadsCalls calls body)
    (h : stepBlock opening.start calls outer span progress item = some next) :
    next.Covers (before ++ ⟨.openBrace, opening⟩ :: body ++ [⟨item, span⟩]) := by
  have hname (hopen : progress ≠ .filled) (text : String) :
      (callName ⟨text, span⟩ (.statement opening.start calls outer)).Covers
        (before ++ ⟨.openBrace, opening⟩ :: body ++ [⟨.name text, span⟩]) :=
    .callName (.statement opening houter hread hopen)
  have hclose (hclosed : progress ≠ .separated) :
      (closeBlock ⟨calls.reverse, ⟨opening.start, span.stop⟩⟩ outer).Covers
        (before ++ ⟨.openBrace, opening⟩ :: body ++ [⟨.closeBrace, span⟩]) := by
    simpa using houter.close (hread.close hclosed opening span)
  cases progress <;> cases item <;> simp only [stepBlock, Option.some.injEq, reduceCtorEq] at h <;>
    subst h
  case opened.closeBrace => exact hclose (by simp)
  case opened.name => exact hname (by simp) _
  case filled.closeBrace => exact hclose (by simp)
  case filled.semicolon =>
    have hsep : Progress.separated.ReadsCalls calls (body ++ [⟨.semicolon, span⟩]) :=
      ⟨body, span, rfl, hread⟩
    simpa using Covers.block opening houter hsep
  case separated.name => exact hname (by simp) _

theorem stepArgument_covers {name : Lexeme} {arguments : List Tree.Argument} {outer : CallContext}
    {before body : List (Placed Token)} {progress : Progress} {opening span : Span} {item : Token}
    {next : State} (houter : outer.Covers before) (hread : progress.ReadsArguments arguments body)
    (hopen : progress ≠ .filled)
    (h : stepArgument name arguments outer span item = some next) :
    next.Covers (before ++ ⟨.name name.text, name.span⟩ :: ⟨.openParen, opening⟩ :: body ++
      [⟨item, span⟩]) := by
  cases item <;> simp only [stepArgument, Option.some.injEq, reduceCtorEq] at h <;> subst h
  case openBrace =>
    have hcontext : (BlockContext.argument name arguments outer).Covers _ :=
      .argument opening houter hread hopen
    have hbody : Progress.opened.ReadsCalls [] [] := ⟨rfl, rfl⟩
    exact .block span hcontext hbody
  case string text =>
    have hfill := hread.fill hopen (.string ⟨text, span⟩)
    simpa using Covers.call opening houter hfill
  case number text =>
    have hfill := hread.fill hopen (.number ⟨text, span⟩)
    simpa using Covers.call opening houter hfill
  case name text => exact .word (.argument opening houter hread hopen)

theorem stepCall_covers {name : Lexeme} {arguments : List Tree.Argument} {outer : CallContext}
    {before body : List (Placed Token)} {progress : Progress} {opening span : Span} {item : Token}
    {next : State} (houter : outer.Covers before) (hread : progress.ReadsArguments arguments body)
    (h : stepCall name arguments outer span progress item = some next) :
    next.Covers (before ++ ⟨.name name.text, name.span⟩ :: ⟨.openParen, opening⟩ :: body ++
      [⟨item, span⟩]) := by
  have hclose (hclosed : progress ≠ .separated) : (finishCall name arguments outer span).Covers
      (before ++ ⟨.name name.text, name.span⟩ :: ⟨.openParen, opening⟩ :: body ++
        [⟨.closeParen, span⟩]) := by
    simpa [finishCall] using houter.close (hread.close hclosed name opening span)
  unfold stepCall at h
  split at h
  · cases h
    exact hclose (by simp)
  · cases h
    exact hclose (by simp)
  · cases h
    have hsep : Progress.separated.ReadsArguments arguments (body ++ [⟨.comma, span⟩]) :=
      ⟨body, span, rfl, hread⟩
    simpa using Covers.call opening houter hsep
  · exact stepArgument_covers houter hread (by simp) h
  · exact stepArgument_covers houter hread (by simp) h
  · cases h

/-- A token that a state accepts is added to what it covers. -/
theorem Covers.step {state next : State} {tokens : List (Placed Token)} {token : Placed Token}
    (hc : state.Covers tokens) (h : state.step token = some next) :
    next.Covers (tokens ++ [token]) := by
  obtain ⟨item, span⟩ := token
  cases hc with
  | initial =>
    cases item <;> simp only [State.step, Option.some.injEq, reduceCtorEq] at h
    subst h
    have hbody : Progress.opened.ReadsCalls [] [] := ⟨rfl, rfl⟩
    exact .block span .root hbody
  | block opening houter hread => exact stepBlock_covers houter hread h
  | @callName name outer before houter =>
    cases item <;> simp only [State.step, Option.some.injEq, reduceCtorEq] at h
    subst h
    have hbody : Progress.opened.ReadsArguments [] [] := ⟨rfl, rfl⟩
    simpa using Covers.call span houter hbody
  | call opening houter hread => exact stepCall_covers houter hread h
  | @word lexeme name arguments outer before hcontext =>
    by_cases hparen : item = .openParen
    · subst hparen
      cases h
      have hbody : Progress.opened.ReadsArguments [] [] := ⟨rfl, rfl⟩
      simpa using Covers.call span hcontext hbody
    · have h : stepCall name (.name lexeme :: arguments) outer span .filled item = some next := by
        cases item <;> first | contradiction | exact h
      cases hcontext with
      | argument opening houter hread hopen =>
        have hfill := hread.fill hopen (.name lexeme)
        simpa using stepCall_covers houter hfill h
  | done => cases h

theorem Covers.run {state next : State} {tokens more : List (Placed Token)}
    (hc : state.Covers tokens) (h : state.run more = some next) : next.Covers (tokens ++ more) := by
  induction more generalizing state tokens with
  | nil =>
    cases h
    simpa using hc
  | cons token more ih =>
    rw [run_cons] at h
    obtain ⟨middle, hstep, hrun⟩ := Option.bind_eq_some_iff.1 h
    simpa using ih (hc.step hstep) hrun

/-- The parser comes to a whole program exactly on its derivations. -/
theorem run_initial_eq_done_iff {tokens : List (Placed Token)} {tree : Tree.Block} :
    initial.run tokens = some (.done tree) ↔ Derives (.block tree) tokens := by
  constructor
  · intro h
    cases Covers.initial.run h with
    | done hd => exact hd
  · intro h
    exact h.read.1

end State

/-! ## The counter of brackets -/

/-- The number of open brackets that `tooDeep?` counts after tokens: closing brackets that close
nothing are ignored. -/
def openAfter (depth : Nat) : List (Placed Token) → Nat
  | [] => depth
  | token :: tokens =>
    match token.item with
    | .openBrace | .openParen => openAfter (depth + 1) tokens
    | .closeBrace | .closeParen => openAfter (depth - 1) tokens
    | _ => openAfter depth tokens

theorem tooDeep?_append (d : Nat) (before after : List (Placed Token)) :
    tooDeep? d (before ++ after) =
      (tooDeep? d before).or (tooDeep? (openAfter d before) after) := by
  induction before generalizing d with
  | nil => rfl
  | cons token before ih =>
    obtain ⟨item, span⟩ := token
    cases item <;> simp only [List.cons_append, tooDeep?, openAfter, ih]
    all_goals split <;> simp

/-- Nothing is too deep exactly if the counter stays within the limit. -/
theorem tooDeep?_eq_none_iff {d : Nat} (hd : d ≤ nestingLimit) (tokens : List (Placed Token)) :
    tooDeep? d tokens = none ↔ ∀ before, before <+: tokens → openAfter d before ≤ nestingLimit := by
  induction tokens generalizing d with
  | nil => simp [tooDeep?, openAfter, hd]
  | cons token tokens ih =>
    rw [forall_prefix_cons, and_iff_right (show openAfter d [] ≤ nestingLimit from hd)]
    have hopen : (if nestingLimit < d + 1 then some token else tooDeep? (d + 1) tokens) = none ↔
        ∀ rest, rest <+: tokens → openAfter (d + 1) rest ≤ nestingLimit := by
      split
      · next hlimit =>
        refine ⟨nofun, fun h => ?_⟩
        exact absurd (h [] List.nil_prefix) (Nat.not_le.2 hlimit)
      · next hlimit => exact ih (Nat.not_lt.1 hlimit)
    obtain ⟨item, span⟩ := token
    cases item
    case openBrace => exact hopen
    case openParen => exact hopen
    case closeBrace => exact ih (by omega)
    case closeParen => exact ih (by omega)
    all_goals exact ih hd

/-- Where no bracket is closed that is not open, the counter is the depth of brackets. -/
theorem openAfter_eq_depth {d : Nat} {tokens : List (Placed Token)}
    (h : ∀ before, before <+: tokens → 0 ≤ d + depth before) :
    (openAfter d tokens : Int) = d + depth tokens := by
  induction tokens generalizing d with
  | nil => simp [openAfter]
  | cons token tokens ih =>
    obtain ⟨-, h⟩ := forall_prefix_cons.1 h
    have hfirst := h [] List.nil_prefix
    -- The counter after the token is the depth after it, and the rest is counted from there.
    have hstep (next : Nat) (hnext : (next : Int) = d + token.item.weight)
        (hafter : openAfter d (token :: tokens) = openAfter next tokens) :
        (openAfter d (token :: tokens) : Int) = d + depth (token :: tokens) := by
      have hrest : ∀ rest, rest <+: tokens → 0 ≤ next + depth rest := fun rest hr => by
        have := h rest hr
        rw [depth_cons] at this
        omega
      rw [hafter, ih hrest, depth_cons]
      omega
    obtain ⟨item, span⟩ := token
    simp only [depth_cons, depth_nil] at hfirst
    cases item
    case openBrace => exact hstep (d + 1) (by simp [Token.weight]) rfl
    case openParen => exact hstep (d + 1) (by simp [Token.weight]) rfl
    case closeBrace => exact hstep (d - 1) (by simp [Token.weight] at hfirst ⊢; omega) rfl
    case closeParen => exact hstep (d - 1) (by simp [Token.weight] at hfirst ⊢; omega) rfl
    all_goals exact hstep d (by simp [Token.weight]) rfl

theorem Derives.openAfter_eq {tree : Tree.Block} {before after : List (Placed Token)}
    (h : Derives (.block tree) (before ++ after)) : (openAfter 0 before : Int) = depth before := by
  have hopen (first : List (Placed Token)) (hf : first <+: before) :
      0 ≤ ((0 : Nat) : Int) + depth first := by
    simpa using h.balanced.nonneg first (hf.trans (List.prefix_append before after))
  simpa using openAfter_eq_depth hopen

/-- In the tokens of a program nothing is too deep exactly if its tree is not. -/
theorem Derives.tooDeep?_eq_none_iff {tree : Tree.Block} {tokens : List (Placed Token)}
    (h : Derives (.block tree) tokens) :
    tooDeep? 0 tokens = none ↔ tree.nesting ≤ nestingLimit := by
  rw [Program.tooDeep?_eq_none_iff (Nat.zero_le _)]
  have hnesting := h.nesting_le_iff nestingLimit
  simp only [Phrase.nesting, Int.ofNat_le] at hnesting
  rw [hnesting]
  refine forall_congr' fun before => imp_congr_right fun hprefix => ?_
  obtain ⟨after, rfl⟩ := hprefix
  rw [← h.openAfter_eq, Int.ofNat_le]

theorem parseTokens_iff_derives {tokens : List (Placed Token)} {tree : Tree.Block} :
    parseTokens tokens = .ok tree ↔
      Derives (.block tree) tokens ∧ tree.nesting ≤ nestingLimit := by
  have hparse : parseFrom .initial 0 tokens = .ok tree ↔ Derives (.block tree) tokens := by
    rw [State.parseFrom_eq_ok_iff, State.run_initial_eq_done_iff]
  unfold parseTokens
  cases hdeep : tooDeep? 0 tokens with
  | none =>
    exact ⟨fun h => ⟨hparse.1 h, (hparse.1 h).tooDeep?_eq_none_iff.1 hdeep⟩, fun h => hparse.2 h.1⟩
  | some token =>
    refine ⟨nofun, fun h => ?_⟩
    rw [h.1.tooDeep?_eq_none_iff.2 h.2] at hdeep
    cases hdeep

/-- The parser gives exactly the trees of the grammar that are not nested too deep; no tokens have
two trees; and in the tokens of a tree, which has their texts in order, the counter of brackets is
the depth of brackets. -/
theorem parseTokens_eq_ok_iff (tokens : List (Placed Token)) :
    (∀ tree, parseTokens tokens = .ok tree ↔
      Derives (.block tree) tokens ∧ tree.nesting ≤ nestingLimit) ∧
    (∀ tree tree', Derives (.block tree) tokens → Derives (.block tree') tokens → tree = tree') ∧
    ∀ tree, Derives (.block tree) tokens →
      tree.lexemes = tokens.filterMap lexeme? ∧
      (∀ n : Nat, tree.nesting ≤ n ↔ Within n tokens) ∧
      ∀ before after, tokens = before ++ after →
        tooDeep? 0 tokens = (tooDeep? 0 before).or (tooDeep? (openAfter 0 before) after) ∧
        (openAfter 0 before : Int) = depth before := by
  refine ⟨fun tree => parseTokens_iff_derives, fun tree tree' h h' => ?_,
    fun tree h => ⟨h.lexemes, fun n => ?_, ?_⟩⟩
  · have hrun := State.run_initial_eq_done_iff.2 h
    rw [State.run_initial_eq_done_iff.2 h'] at hrun
    cases hrun
    rfl
  · rw [← h.nesting_le_iff]
    exact Int.ofNat_le.symm
  · rintro before after rfl
    exact ⟨tooDeep?_append 0 before after, h.openAfter_eq⟩

/-- The program `{f(g(x))}` and its tokens. -/
theorem parseTokens_eq_ok_iff_nested_call :
    let tokens : List (Placed Token) := [⟨.openBrace, ⟨0, 1⟩⟩, ⟨.name "f", ⟨1, 2⟩⟩,
      ⟨.openParen, ⟨2, 3⟩⟩, ⟨.name "g", ⟨3, 4⟩⟩, ⟨.openParen, ⟨4, 5⟩⟩, ⟨.name "x", ⟨5, 6⟩⟩,
      ⟨.closeParen, ⟨6, 7⟩⟩, ⟨.closeParen, ⟨7, 8⟩⟩, ⟨.closeBrace, ⟨8, 9⟩⟩]
    let tree : Tree.Block := ⟨[⟨⟨"f", ⟨1, 2⟩⟩, [.call ⟨⟨"g", ⟨3, 4⟩⟩, [.name ⟨"x", ⟨5, 6⟩⟩],
      ⟨3, 7⟩⟩], ⟨1, 8⟩⟩], ⟨0, 9⟩⟩
    parseTokens tokens = .ok tree ∧ Derives (.block tree) tokens ∧
      tree.lexemes = tokens.filterMap lexeme? ∧ Within 3 tokens ∧ ¬Within 2 tokens := by
  intro tokens tree
  have hparse : parseTokens tokens = .ok tree := rfl
  have hderives := (((parseTokens_eq_ok_iff tokens).1 tree).1 hparse).1
  obtain ⟨hlexemes, hnesting, -⟩ := (parseTokens_eq_ok_iff tokens).2.2 tree hderives
  refine ⟨hparse, hderives, hlexemes, (hnesting 3).1 ?_, fun h => absurd ((hnesting 2).2 h) ?_⟩
  · decide
  · decide

end CallScript.Program
