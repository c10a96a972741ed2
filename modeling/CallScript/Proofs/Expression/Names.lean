import CallScript.Engine.Step
import CallScript.Proofs.Expression.Completeness
import CallScript.Proofs.Expression.Lexicon

/-!
# The names in an expression

`Expr.LooksUp p` says that every name which the evaluation of an expression can look up satisfies
`p`.  A tree may hold any text in the place of a name; what a text is read as holds only names that
can be written (`readExpression_looksUp`).
-/

namespace CallScript

mutual

/-- Every name that the evaluation of an expression can look up satisfies `p`. -/
def Expr.LooksUp (p : String → Prop) : Expr → Prop
  | .name name => p name
  | .binary _ left right => left.LooksUp p ∧ right.LooksUp p
  | .unary _ operand => operand.LooksUp p
  | .call callee operands => callee.LooksUp p ∧ Operand.listLooksUp p operands
  | .subscript value index => value.LooksUp p ∧ index.LooksUp p
  | _ => True

/-- Every name that the evaluation of operands can look up satisfies `p`. -/
def Operand.listLooksUp (p : String → Prop) : List Operand → Prop
  | .positional value :: operands => value.LooksUp p ∧ Operand.listLooksUp p operands
  | _ => True

end

mutual

theorem Expr.looksUp_of_forall {p : String → Prop} (h : ∀ name, p name) :
    ∀ expr : Expr, expr.LooksUp p
  | .name name => h name
  | .binary _ left right => ⟨left.looksUp_of_forall h, right.looksUp_of_forall h⟩
  | .unary _ operand => operand.looksUp_of_forall h
  | .call callee operands => ⟨callee.looksUp_of_forall h, Operand.listLooksUp_of_forall h operands⟩
  | .subscript value index => ⟨value.looksUp_of_forall h, index.looksUp_of_forall h⟩
  | .number .. | .string .. | .bool .. | .none | .boolean .. | .compare .. | .conditional ..
  | .lambda .. | .member .. | .slice .. | .list .. | .tuple .. | .dict .. | .set ..
  | .comprehension .. | .assign .. => trivial

theorem Operand.listLooksUp_of_forall {p : String → Prop} (h : ∀ name, p name) :
    ∀ operands : List Operand, Operand.listLooksUp p operands
  | [] => trivial
  | .positional value :: operands =>
    ⟨value.looksUp_of_forall h, Operand.listLooksUp_of_forall h operands⟩
  | .keyword .. :: _ | .starred .. :: _ | .doubleStarred .. :: _ => trivial

end

namespace Expression

open Pattern

/-- A name that can be written in an expression. -/
def IsName (name : String) : Prop :=
  name.toList ∈ word ∧ ∀ token ∈ Token.keywords, token.text ≠ name

/-- Every name that the evaluation of a phrase can look up satisfies `p`. -/
def Phrase.LooksUp (p : String → Prop) : Phrase → Prop
  | .expression _ value => value.LooksUp p
  | .index value => value.LooksUp p
  | .operand given => Operand.listLooksUp p [given]
  | .items phrases => ∀ given, .operand given ∈ phrases → Operand.listLooksUp p [given]
  | _ => True

theorem listLooksUp_of_forall_mem {p : String → Prop} {operands : List Operand}
    (h : ∀ operand ∈ operands, Operand.listLooksUp p [operand]) :
    Operand.listLooksUp p operands := by
  induction operands with
  | nil => trivial
  | cons operand operands ih =>
    cases operand with
    | positional value =>
      exact ⟨(h _ List.mem_cons_self).1, ih fun o ho => h o (List.mem_cons_of_mem _ ho)⟩
    | _ => trivial

theorem Level.looksUp_of_operator? {p : String → Prop} {level : Level} {token : Token}
    {combine : Expr → Expr → Expr} (h : level.operator? token = some combine) {l r : Expr}
    (hl : l.LooksUp p) (hr : r.LooksUp p) : (combine l r).LooksUp p := by
  unfold Level.operator? at h
  split at h <;> cases h <;> first | exact ⟨hl, hr⟩ | trivial

/-- The names in a phrase stand among its tokens. -/
theorem Derives.looksUp {p : String → Prop} {phrase : Phrase} {tokens : Input}
    (h : Derives phrase tokens)
    (hp : ∀ token ∈ tokens, ∀ name, token.item = .name name → p name) : phrase.LooksUp p := by
  induction h with
  | unit _ _ ih => exact ih hp
  | join _ hoperator _ _ ihl ihr =>
    rw [List.forall_mem_append, List.forall_mem_cons] at hp
    exact Level.looksUp_of_operator? hoperator (ihl hp.1) (ihr hp.2.2)
  | not s _ ih | negative s _ ih | positive s _ ih | inverted s _ ih =>
    rw [List.forall_mem_cons] at hp
    exact ih hp.2
  | power s _ _ ihb ihe =>
    rw [List.forall_mem_append, List.forall_mem_cons] at hp
    exact ⟨ihb hp.1, ihe hp.2.2⟩
  | emptyCall s s' _ ih =>
    rw [List.forall_mem_append] at hp
    exact ⟨ih hp.1, trivial⟩
  | call s s' _ _ ih ihg =>
    rw [List.forall_mem_append, List.forall_mem_cons, List.forall_mem_append] at hp
    exact ⟨ih hp.1, listLooksUp_of_forall_mem fun o ho => ihg hp.2.2.1 o (List.mem_map_of_mem ho)⟩
  | subscript s s' _ _ ih ihi =>
    rw [List.forall_mem_append, List.forall_mem_cons, List.forall_mem_append] at hp
    exact ⟨ih hp.1, ihi hp.2.2.1⟩
  | positional _ ih => exact ⟨ih hp, trivial⟩
  | plainIndex _ ih => exact ih hp
  | variable_ x s => exact hp _ List.mem_cons_self x rfl
  | parenthesized s s' _ ih =>
    rw [List.forall_mem_cons, List.forall_mem_append] at hp
    exact ih hp.2.1
  | firstItem _ ih =>
    intro operand ho
    cases List.mem_singleton.1 ho
    exact ih hp
  | nextItem s _ _ ihs ih =>
    rw [List.forall_mem_append, List.forall_mem_cons] at hp
    intro operand ho
    rcases List.mem_append.1 ho with ho | ho
    · exact ihs hp.1 operand ho
    · cases List.mem_singleton.1 ho
      exact ih hp.2.2
  | _ => trivial

theorem Spelled.isName {name : String} {text : List Char} (h : Spelled (.name name) text) :
    IsName name := by
  generalize htoken : Token.name name = token at h
  cases h with
  | keyword hmem =>
    subst htoken
    simp [Token.keywords] at hmem
  | mark hmem =>
    subst htoken
    simp [Token.longMarks, Token.shortMarks] at hmem
  | number | string => cases htoken
  | name hword hfree =>
    cases htoken
    rw [IsName, String.toList_ofList]
    exact ⟨hword, fun token hmem hname => hfree token hmem (by rw [hname, String.toList_ofList])⟩

end Expression

/-- What a text is read as looks up only names that can be written. -/
theorem readExpression_looksUp {source : String} {expr : Expr}
    (h : readExpression source = .ok expr) : expr.LooksUp Expression.IsName := by
  have hparse : Expression.parse source = .ok expr := by
    unfold readExpression at h
    split at h
    · cases h
    · next parsed hparsed =>
      split at h <;> cases h
      exact hparsed
  unfold Expression.parse at hparse
  cases hscan : Expression.scan source with
  | error e => simp [hscan, bind, Except.bind] at hparse
  | ok tokens =>
    simp only [hscan, bind, Except.bind] at hparse
    obtain ⟨-, hwhole⟩ := Expression.parseTokens_eq_ok_iff_whole.1 hparse
    obtain ⟨used, rfl, hderives⟩ := Expression.reads_whole _ _ _ _ hwhole
    rw [List.append_nil] at hscan
    have hmunches := (Lexicon.scan_eq_ok_iff Expression.fits_piece _ _).1 hscan
    refine hderives.looksUp fun token htoken name hname => ?_
    obtain ⟨text, -, hspells⟩ := hmunches.slice? byteLength_nil _ htoken
    exact Expression.Spelled.isName (hname ▸ hspells)

end CallScript
