import CallScript.Proofs.Expression.Grammar

/-!
# What the expression parser reads

Whatever a parser reads from the front of the tokens is a phrase of the grammar, and the value it
gives is the value of the phrase (`reads_whole`).  `Parser.Sound` says so of one parser; the lemmas
below follow the parsers from the parts of a phrase to the whole.
-/

namespace CallScript.Expression

namespace Parser

variable {α β : Type} {p : Parser α} {input rest : Input}

theorem map_eq_ok_iff {f : α → β} {b : β} :
    map f p input = .ok (b, rest) ↔ ∃ a, p input = .ok (a, rest) ∧ f a = b := by
  unfold map
  cases p input with
  | error => simp
  | ok result =>
    obtain ⟨a, rest'⟩ := result
    simp only [Except.ok.injEq, Prod.mk.injEq]
    constructor
    · rintro ⟨rfl, rfl⟩
      exact ⟨a, ⟨rfl, rfl⟩, rfl⟩
    · rintro ⟨a', ⟨rfl, rfl⟩, rfl⟩
      exact ⟨rfl, rfl⟩

theorem andThen_eq_ok_iff {f : α → Parser β} {b : β} :
    andThen p f input = .ok (b, rest) ↔
      ∃ a middle, p input = .ok (a, middle) ∧ f a middle = .ok (b, rest) := by
  unfold andThen
  cases p input with
  | error => simp
  | ok result =>
    obtain ⟨a, middle⟩ := result
    simp only [Except.ok.injEq, Prod.mk.injEq]
    constructor
    · intro h
      exact ⟨a, middle, ⟨rfl, rfl⟩, h⟩
    · rintro ⟨a', middle', ⟨rfl, rfl⟩, h⟩
      exact h

theorem token_eq_ok_iff {accept : Token → Option α} {a : α} :
    token accept input = .ok (a, rest) ↔ ∃ t, input = t :: rest ∧ accept t.item = some a := by
  cases input with
  | nil => simp [token]
  | cons t tokens =>
    cases h : accept t.item with
    | none => simp [token, h]
    | some found =>
      simp only [token, h, Except.ok.injEq, Prod.mk.injEq, List.cons.injEq]
      constructor
      · rintro ⟨rfl, rfl⟩
        exact ⟨t, ⟨rfl, rfl⟩, h⟩
      · rintro ⟨_, ⟨rfl, rfl⟩, ha⟩
        exact ⟨Option.some.inj (h.symm.trans ha), rfl⟩

theorem before_eq_ok_iff {closing : Token → Bool} {a : α} :
    before closing p input = .ok (a, rest) ↔
      ∃ t, p input = .ok (a, t :: rest) ∧ closing t.item = true := by
  unfold before
  simp only [andThen_eq_ok_iff, map_eq_ok_iff, token_eq_ok_iff]
  constructor
  · rintro ⟨a', middle, hp, ⟨⟩, ⟨t, rfl, ht⟩, rfl⟩
    exact ⟨t, hp, by simpa using ht⟩
  · rintro ⟨t, hp, ht⟩
    exact ⟨a, _, hp, (), ⟨t, rfl, by simp [ht]⟩, rfl⟩

/-- What a parser reads is derived, and it reads nothing else. -/
def Sound (p : Parser α) (derives : α → Input → Prop) : Prop :=
  ∀ input a rest, p input = .ok (a, rest) → ∃ used, input = used ++ rest ∧ derives a used

/-- What a parser reads is a phrase of a level. -/
abbrev Reads (level : Level) (p : Parser Expr) : Prop :=
  Sound p fun e => Derives (.expression level e)

theorem Sound.andThen_eq_ok {derives : α → Input → Prop} (hp : Sound p derives)
    {f : α → Parser β} {b : β} (h : andThen p f input = .ok (b, rest)) :
    ∃ a used middle, input = used ++ middle ∧ derives a used ∧ f a middle = .ok (b, rest) := by
  obtain ⟨a, middle, ha, hb⟩ := andThen_eq_ok_iff.1 h
  obtain ⟨used, rfl, hused⟩ := hp _ _ _ ha
  exact ⟨a, used, middle, rfl, hused, hb⟩

theorem Sound.map_eq_ok {derives : α → Input → Prop} (hp : Sound p derives) {f : α → β} {b : β}
    (h : map f p input = .ok (b, rest)) :
    ∃ a used, input = used ++ rest ∧ derives a used ∧ f a = b := by
  obtain ⟨a, ha, hb⟩ := map_eq_ok_iff.1 h
  obtain ⟨used, rfl, hused⟩ := hp _ _ _ ha
  exact ⟨a, used, rfl, hused, hb⟩

theorem reads_stop (level : Level) : Reads level stop := nofun

theorem Reads.unit {level tighter : Level} {p : Parser Expr} (hnext : level.next? = some tighter)
    (h : Reads tighter p) : Reads level p := by
  intro input e rest hp
  obtain ⟨used, rfl, hd⟩ := h _ _ _ hp
  exact ⟨used, rfl, .unit hnext hd⟩

/-! ## Repetitions -/

section Chains

variable {level tighter : Level} {operand : Parser Expr} (hnext : level.next? = some tighter)
  (hoperand : Reads tighter operand)
include hnext hoperand

theorem sound_chainFrom (fuel : Nat) {left : Expr} {before : Input}
    (hleft : Derives (.expression level left) before) :
    Sound (chainFrom operand level.operator? fuel left)
      fun e used => Derives (.expression level e) (before ++ used) := by
  induction fuel generalizing left before with
  | zero =>
    rintro input e rest ⟨⟩
    exact ⟨[], rfl, by simpa using hleft⟩
  | succ fuel ih =>
    intro input e rest h
    unfold chainFrom at h
    split at h
    · cases h
      exact ⟨[], rfl, by simpa using hleft⟩
    · next t tokens =>
      split at h
      · next combine hcombine =>
        obtain ⟨right, used, middle, rfl, hused, hrest⟩ := hoperand.andThen_eq_ok h
        obtain ⟨more, rfl, hmore⟩ := ih (.join hnext hcombine hleft hused) _ _ _ hrest
        exact ⟨t :: (used ++ more), by simp, by simpa using hmore⟩
      · cases h
        exact ⟨[], rfl, by simpa using hleft⟩

theorem reads_chain (fuel : Nat) : Reads level (chain fuel level.operator? operand) := by
  intro input e rest h
  obtain ⟨left, before, middle, rfl, hbefore, hrest⟩ := hoperand.andThen_eq_ok h
  obtain ⟨used, rfl, hused⟩ :=
    sound_chainFrom hnext hoperand fuel (.unit hnext hbefore) _ _ _ hrest
  exact ⟨before ++ used, by simp, hused⟩

end Chains

end Parser

open Expression.Parser

theorem Derives.item_cons {phrase : Phrase} {tokens : Input} (h : Derives phrase tokens) (s : Span)
    {phrases : List Phrase} {more : Input} (hmore : Derives (.items phrases) more) :
    Derives (.items (phrase :: phrases)) (tokens ++ ⟨.comma, s⟩ :: more) := by
  generalize hitems : Phrase.items phrases = items at hmore
  induction hmore generalizing phrases with
  | firstItem hlast =>
    cases hitems
    exact .nextItem s (.firstItem h) hlast
  | nextItem s' _ hlast ih _ =>
    cases hitems
    simpa using Derives.nextItem s' (ih rfl) hlast
  | _ => cases hitems

theorem sound_commaList {α : Type} {item : Parser α} {phrase : α → Phrase}
    (hitem : Sound item fun a => Derives (phrase a)) (fuel : Nat) :
    Sound (commaList item fuel) fun as => Derives (.items (as.map phrase)) := by
  induction fuel with
  | zero => exact nofun
  | succ fuel ih =>
    intro input as rest h
    unfold commaList at h
    obtain ⟨first, used, middle, rfl, hused, hrest⟩ := hitem.andThen_eq_ok h
    split at hrest
    · next s tokens =>
      obtain ⟨items, more, rfl, hmore, rfl⟩ := ih.map_eq_ok hrest
      exact ⟨used ++ ⟨.comma, s⟩ :: more, by simp, hused.item_cons s hmore⟩
    · cases hrest
      exact ⟨used, rfl, .firstItem hused⟩

/-! ## Comparisons -/

theorem comparison?_sound {input rest : Input} {op : CompareOp}
    (h : comparison? input = some (.ok (op, rest))) :
    ∃ sign, input = sign ++ rest ∧ Comparison op sign := by
  unfold comparison? at h
  split at h <;> cases h
  · exact ⟨[_], rfl, .equal _⟩
  · exact ⟨[_], rfl, .notEqual _⟩
  · exact ⟨[_], rfl, .less _⟩
  · exact ⟨[_], rfl, .lessEqual _⟩
  · exact ⟨[_], rfl, .greater _⟩
  · exact ⟨[_], rfl, .greaterEqual _⟩
  · exact ⟨[_], rfl, .isIn _⟩
  · exact ⟨[_, _], rfl, .notIn _ _⟩
  · exact ⟨[_, _], rfl, .isNot _ _⟩
  · exact ⟨[_], rfl, .is _⟩

section Comparisons

variable {operand : Parser Expr} (hoperand : Reads .bitOr operand)
include hoperand

theorem sound_comparisons (fuel : Nat) : Sound (comparisons operand fuel) fun cs used =>
    cs = [] ∧ used = [] ∨ Derives (.comparisons cs) used := by
  induction fuel with
  | zero =>
    rintro input cs rest ⟨⟩
    exact ⟨[], rfl, .inl ⟨rfl, rfl⟩⟩
  | succ fuel ih =>
    intro input cs rest h
    unfold comparisons at h
    split at h
    · cases h
      exact ⟨[], rfl, .inl ⟨rfl, rfl⟩⟩
    · cases h
    · next op tokens hop =>
      obtain ⟨sign, rfl, hsign⟩ := comparison?_sound hop
      obtain ⟨right, used, middle, rfl, hused, hrest⟩ := hoperand.andThen_eq_ok h
      obtain ⟨others, more, rfl, ⟨rfl, rfl⟩ | hmore, rfl⟩ := ih.map_eq_ok hrest
      · exact ⟨sign ++ used, by simp, .inr (.lastComparison hsign hused)⟩
      · exact ⟨sign ++ (used ++ more), by simp, .inr (.moreComparisons hsign hused hmore)⟩

theorem reads_comparisonChain (fuel : Nat) : Reads .comparison (comparisonChain fuel operand) := by
  intro input e rest h
  obtain ⟨left, used, middle, rfl, hused, hrest⟩ := hoperand.andThen_eq_ok h
  obtain ⟨cs, more, rfl, ⟨rfl, rfl⟩ | hmore, rfl⟩ :=
    (sound_comparisons hoperand fuel).map_eq_ok hrest
  · exact ⟨used, by simp, .unit rfl hused⟩
  · have hcompared : compared left cs = .compare left cs := by cases hmore <;> rfl
    exact ⟨used ++ more, by simp, hcompared ▸ .compare hused hmore⟩

end Comparisons

/-! ## Closing tokens -/

theorem eq_closeParen {t : Token} (h : isCloseParen t = true) : t = .closeParen := by
  cases t <;> trivial

theorem eq_closeBracket {t : Token} (h : isCloseBracket t = true) : t = .closeBracket := by
  cases t <;> trivial

theorem eq_closeBrace {t : Token} (h : isCloseBrace t = true) : t = .closeBrace := by
  cases t <;> trivial

theorem eq_colon {t : Token} (h : isColon t = true) : t = .colon := by
  cases t <;> trivial

theorem eq_in {t : Token} (h : isIn t = true) : t = .in_ := by
  cases t <;> trivial

theorem eq_else {t : Token} (h : isElse t = true) : t = .else_ := by
  cases t <;> trivial

/-- What stands before a closing token is read, and the token after it. -/
theorem Parser.Sound.before {α : Type} {p : Parser α} {derives : α → Input → Prop}
    (h : Sound p derives) {closing : Token → Bool} {mark : Token}
    (hclosing : ∀ {t}, closing t = true → t = mark) :
    Sound (Parser.before closing p)
      fun a used => ∃ s tokens, used = tokens ++ [⟨mark, s⟩] ∧ derives a tokens := by
  intro input a rest hp
  obtain ⟨⟨t, s⟩, hread, ht⟩ := before_eq_ok_iff.1 hp
  obtain ⟨tokens, rfl, hd⟩ := h _ _ _ hread
  obtain rfl : t = mark := hclosing ht
  exact ⟨tokens ++ [⟨t, s⟩], by simp, s, tokens, rfl, hd⟩

theorem sound_name : Sound name fun word used => ∃ s, used = [⟨.name word, s⟩] := by
  intro input word rest h
  obtain ⟨⟨t, s⟩, rfl, ht⟩ := token_eq_ok_iff.1 h
  cases t <;> cases ht
  exact ⟨[_], rfl, s, rfl⟩

/-! ## Displays -/

section Displays

variable {test orTest : Parser Expr}

theorem sound_tests (ht : Reads .test test) (fuel : Nat) :
    Sound (commaList test fuel) fun es => Derives (.tests es) :=
  sound_commaList ht fuel

theorem sound_entries (ht : Reads .test test) (fuel : Nat) :
    Sound (commaList (entry test) fuel) fun entries => Derives (.entries entries) := by
  refine sound_commaList (fun input e rest h => ?_) fuel
  obtain ⟨key, _, middle, rfl, ⟨s, tokens, rfl, hkey⟩, hrest⟩ :=
    (ht.before eq_colon).andThen_eq_ok h
  obtain ⟨value, more, rfl, hvalue, rfl⟩ := ht.map_eq_ok hrest
  exact ⟨tokens ++ ⟨.colon, s⟩ :: more, by simp, .entry s hkey hvalue⟩

theorem sound_parenthesized (ht : Reads .test test) (fuel : Nat) (s : Span) :
    Sound (parenthesized test fuel)
      fun e used => Derives (.expression .atom e) (⟨.openParen, s⟩ :: used) := by
  intro input e rest h
  unfold parenthesized at h
  split at h
  · cases h
    exact ⟨[_], rfl, .emptyTuple s _⟩
  · next hne =>
    obtain ⟨first, used, middle, rfl, hused, hrest⟩ := ht.andThen_eq_ok h
    unfold parenthesizedRest at hrest
    split at hrest
    · next s' tokens =>
      cases hrest
      exact ⟨used ++ [⟨.closeParen, s'⟩], by simp, .parenthesized s s' hused⟩
    · next s' s'' tokens =>
      cases hrest
      exact ⟨used ++ [⟨.comma, s'⟩, ⟨.closeParen, s''⟩], by simp, .singleton s s' s'' hused⟩
    · next s' tokens _ =>
      obtain ⟨items, _, rfl, ⟨s'', more, rfl, hmore⟩, rfl⟩ :=
        ((sound_tests ht fuel).before eq_closeParen).map_eq_ok hrest
      exact ⟨used ++ ⟨.comma, s'⟩ :: (more ++ [⟨.closeParen, s''⟩]), by simp,
        .tuple s s' s'' hused hmore⟩
    · cases hrest

theorem sound_dictRest (ht : Reads .test test) (fuel : Nat) {s : Span} {first : Expr × Expr}
    {used : Input} (hfirst : Derives (.entry first.1 first.2) used) :
    Sound (dictRest test fuel first)
      fun e more => Derives (.expression .atom e) (⟨.openBrace, s⟩ :: (used ++ more)) := by
  intro input e rest h
  unfold dictRest at h
  split at h
  · next s' tokens =>
    cases h
    have hentries : Derives (.entries [first]) used := .firstItem hfirst
    exact ⟨[⟨.closeBrace, s'⟩], rfl, .dict s s' hentries⟩
  · next s' tokens =>
    obtain ⟨items, _, rfl, ⟨s'', more, rfl, hmore⟩, rfl⟩ :=
      ((sound_entries ht fuel).before eq_closeBrace).map_eq_ok h
    have hentries : Derives (.entries (first :: items)) _ := hfirst.item_cons s' hmore
    refine ⟨⟨.comma, s'⟩ :: (more ++ [⟨.closeBrace, s''⟩]), by simp, ?_⟩
    simpa using Derives.dict s s'' hentries
  · cases h

theorem sound_braced (ht : Reads .test test) (fuel : Nat) (s : Span) : Sound (braced test fuel)
    fun e used => Derives (.expression .atom e) (⟨.openBrace, s⟩ :: used) := by
  intro input e rest h
  unfold braced at h
  split at h
  · cases h
    exact ⟨[_], rfl, .emptyDict s _⟩
  · next hne =>
    obtain ⟨first, used, middle, rfl, hused, hrest⟩ := ht.andThen_eq_ok h
    unfold bracedRest at hrest
    split at hrest
    · next s' tokens =>
      cases hrest
      have hitems : Derives (.tests [first]) used := .firstItem hused
      exact ⟨used ++ [⟨.closeBrace, s'⟩], by simp, .set s s' hitems⟩
    · next s' tokens =>
      obtain ⟨items, _, rfl, ⟨s'', more, rfl, hmore⟩, rfl⟩ :=
        ((sound_tests ht fuel).before eq_closeBrace).map_eq_ok hrest
      have hitems : Derives (.tests (first :: items)) _ := hused.item_cons s' hmore
      refine ⟨used ++ ⟨.comma, s'⟩ :: (more ++ [⟨.closeBrace, s''⟩]), by simp, ?_⟩
      simpa using Derives.set s s'' hitems
    · next s' tokens =>
      obtain ⟨value, more, middle, rfl, hvalue, hlast⟩ := ht.andThen_eq_ok hrest
      obtain ⟨last, rfl, hlast⟩ :=
        sound_dictRest ht fuel (.entry s' hused hvalue) _ _ _ hlast
      exact ⟨used ++ ⟨.colon, s'⟩ :: (more ++ last), by simp, by simpa using hlast⟩
    · cases hrest

theorem sound_conditions (ho : Reads .orTest orTest) (fuel : Nat) :
    Sound (conditions orTest fuel) fun cs => Derives (.conditions cs) := by
  induction fuel with
  | zero =>
    rintro input cs rest ⟨⟩
    exact ⟨[], rfl, .noCondition⟩
  | succ fuel ih =>
    intro input cs rest h
    unfold conditions at h
    split at h
    · next s tokens =>
      obtain ⟨c, used, middle, rfl, hused, hrest⟩ := ho.andThen_eq_ok h
      obtain ⟨others, more, rfl, hmore, rfl⟩ := ih.map_eq_ok hrest
      exact ⟨⟨.if_, s⟩ :: (used ++ more), by simp, .condition s hused hmore⟩
    · cases h
      exact ⟨[], rfl, .noCondition⟩

theorem sound_comprehension (ho : Reads .orTest orTest) (fuel : Nat) {s s' : Span} {result : Expr}
    {used : Input} (hresult : Derives (.expression .test result) used) :
    Sound (comprehension orTest fuel result) fun e more =>
      Derives (.expression .atom e) (⟨.openBracket, s⟩ :: (used ++ ⟨.for_, s'⟩ :: more)) := by
  intro input e rest h
  obtain ⟨target, _, middle, rfl, ⟨s₃, _, rfl, s₂, rfl⟩, hsource⟩ :=
    (sound_name.before eq_in).andThen_eq_ok h
  obtain ⟨source, more, middle, rfl, hmore, hconditions⟩ := ho.andThen_eq_ok hsource
  obtain ⟨cs, _, rfl, ⟨s₄, last, rfl, hlast⟩, rfl⟩ :=
    ((sound_conditions ho fuel).before eq_closeBracket).map_eq_ok hconditions
  refine ⟨⟨.name target, s₂⟩ :: ⟨.in_, s₃⟩ :: (more ++ (last ++ [⟨.closeBracket, s₄⟩])),
    by simp, ?_⟩
  exact .comprehension target s s' s₂ s₃ s₄ hresult hmore hlast

theorem sound_bracketed (ht : Reads .test test) (ho : Reads .orTest orTest) (fuel : Nat)
    (s : Span) : Sound (bracketed test orTest fuel)
      fun e used => Derives (.expression .atom e) (⟨.openBracket, s⟩ :: used) := by
  intro input e rest h
  unfold bracketed at h
  split at h
  · cases h
    exact ⟨[_], rfl, .emptyList s _⟩
  · next hne =>
    obtain ⟨first, used, middle, rfl, hused, hrest⟩ := ht.andThen_eq_ok h
    unfold bracketedRest at hrest
    split at hrest
    · next s' tokens =>
      cases hrest
      have hitems : Derives (.tests [first]) used := .firstItem hused
      exact ⟨used ++ [⟨.closeBracket, s'⟩], by simp, .list s s' hitems⟩
    · next s' tokens =>
      obtain ⟨items, _, rfl, ⟨s'', more, rfl, hmore⟩, rfl⟩ :=
        ((sound_tests ht fuel).before eq_closeBracket).map_eq_ok hrest
      have hitems : Derives (.tests (first :: items)) _ := hused.item_cons s' hmore
      refine ⟨used ++ ⟨.comma, s'⟩ :: (more ++ [⟨.closeBracket, s''⟩]), by simp, ?_⟩
      simpa using Derives.list s s'' hitems
    · next s' tokens =>
      obtain ⟨more, rfl, hmore⟩ := sound_comprehension ho fuel hused _ _ _ hrest
      exact ⟨used ++ ⟨.for_, s'⟩ :: more, by simp, hmore⟩
    · cases hrest

theorem moreStrings_sound (input : Input) : ∃ used, input = used ++ (moreStrings input).2 ∧
    ∀ text s, Derives (.strings (text ++ (moreStrings input).1)) (⟨.string text, s⟩ :: used) := by
  fun_induction moreStrings input with
  | case1 text' s' rest texts last hrest ih =>
    rw [hrest] at ih
    obtain ⟨used, rfl, hused⟩ := ih
    exact ⟨⟨.string text', s'⟩ :: used, rfl, fun text s => .moreStrings text s (hused text' s')⟩
  | case2 rest =>
    exact ⟨[], rfl, fun text s => by simpa using Derives.lastString text s⟩

theorem reads_atom (ht : Reads .test test) (ho : Reads .orTest orTest) (fuel : Nat) :
    Reads .atom (atom test orTest fuel) := by
  intro input e rest h
  unfold atom at h
  split at h
  · cases h
    exact ⟨[_], rfl, .number _ _⟩
  · next text s tokens =>
    cases h
    obtain ⟨used, htokens, hused⟩ := moreStrings_sound tokens
    exact ⟨⟨.string text, s⟩ :: used, congrArg _ htokens, .string (hused text s)⟩
  · cases h
    exact ⟨[_], rfl, .true_ _⟩
  · cases h
    exact ⟨[_], rfl, .false_ _⟩
  · cases h
    exact ⟨[_], rfl, .none_ _⟩
  · cases h
    exact ⟨[_], rfl, .variable_ _ _⟩
  · next s tokens =>
    obtain ⟨used, rfl, hused⟩ := sound_parenthesized ht fuel s _ _ _ h
    exact ⟨⟨.openParen, s⟩ :: used, rfl, hused⟩
  · next s tokens =>
    obtain ⟨used, rfl, hused⟩ := sound_bracketed ht ho fuel s _ _ _ h
    exact ⟨⟨.openBracket, s⟩ :: used, rfl, hused⟩
  · next s tokens =>
    obtain ⟨used, rfl, hused⟩ := sound_braced ht fuel s _ _ _ h
    exact ⟨⟨.openBrace, s⟩ :: used, rfl, hused⟩
  · cases h

end Displays

/-! ## Primaries -/

section Primaries

variable {test orTest : Parser Expr} (ht : Reads .test test)
include ht

theorem sound_operand : Sound (operand test) fun given => Derives (.operand given) := by
  intro input given rest h
  unfold operand at h
  split at h
  · next word s s' tokens =>
    obtain ⟨e, used, rfl, hused, rfl⟩ := ht.map_eq_ok h
    exact ⟨⟨.name word, s⟩ :: ⟨.equal, s'⟩ :: used, rfl, .keyword word s s' hused⟩
  · next s tokens =>
    obtain ⟨e, used, rfl, hused, rfl⟩ := ht.map_eq_ok h
    exact ⟨⟨.star, s⟩ :: used, rfl, .starred s hused⟩
  · next s tokens =>
    obtain ⟨e, used, rfl, hused, rfl⟩ := ht.map_eq_ok h
    exact ⟨⟨.doubleStar, s⟩ :: used, rfl, .doubleStarred s hused⟩
  · obtain ⟨e, used, rfl, hused, rfl⟩ := ht.map_eq_ok h
    exact ⟨used, rfl, .positional hused⟩

theorem sound_operands (fuel : Nat) {f : Expr} {tokens : Input} (s : Span)
    (hf : Derives (.expression .primary f) tokens) : Sound (operands test fuel) fun given used =>
      Derives (.expression .primary (.call f given)) (tokens ++ ⟨.openParen, s⟩ :: used) := by
  intro input given rest h
  unfold operands at h
  split at h
  · next s' tokens =>
    cases h
    exact ⟨[⟨.closeParen, s'⟩], rfl, .emptyCall s s' hf⟩
  · have hoperands : Sound (commaList (operand test) fuel) fun os => Derives (.operands os) :=
      sound_commaList (sound_operand ht) fuel
    obtain ⟨_, rfl, s', body, rfl, hbody⟩ := (hoperands.before eq_closeParen) _ _ _ h
    exact ⟨body ++ [⟨.closeParen, s'⟩], rfl, .call s s' hf hbody⟩

theorem sound_slicePart : Sound (slicePart test) fun part => Derives (.optional part) := by
  intro input part rest h
  unfold slicePart at h
  split at h
  · cases h
    exact ⟨[], rfl, .missing⟩
  · cases h
    exact ⟨[], rfl, .missing⟩
  · obtain ⟨e, used, rfl, hused, rfl⟩ := ht.map_eq_ok h
    exact ⟨used, rfl, .present hused⟩

theorem sound_sliceAfter {l : Option Expr} {lower : Input} (s : Span)
    (hl : Derives (.optional l) lower) : Sound (sliceAfter test l) fun e used =>
      ∃ s' body, used = body ++ [⟨.closeBracket, s'⟩] ∧
        Derives (.index e) (lower ++ ⟨.colon, s⟩ :: body) := by
  intro input e rest h
  obtain ⟨u, upper, middle, rfl, hu, hrest⟩ := (sound_slicePart ht).andThen_eq_ok h
  unfold sliceRest at hrest
  split at hrest
  · next s' tokens =>
    cases hrest
    exact ⟨upper ++ [⟨.closeBracket, s'⟩], by simp, s', upper, rfl, .slice s hl hu⟩
  · next s' tokens =>
    obtain ⟨t, _, rfl, ⟨s'', step, rfl, hstep⟩, rfl⟩ :=
      ((sound_slicePart ht).before eq_closeBracket).map_eq_ok hrest
    exact ⟨upper ++ ⟨.colon, s'⟩ :: (step ++ [⟨.closeBracket, s''⟩]), by simp, s'',
      upper ++ ⟨.colon, s'⟩ :: step, by simp, .steppedSlice s s' hl hu hstep⟩
  · cases hrest

theorem sound_index : Sound (index test) fun e used =>
    ∃ s body, used = body ++ [⟨.closeBracket, s⟩] ∧ Derives (.index e) body := by
  intro input e rest h
  unfold index at h
  split at h
  · next s tokens =>
    obtain ⟨_, rfl, s', body, rfl, hbody⟩ := sound_sliceAfter ht s .missing _ _ _ h
    exact ⟨⟨.colon, s⟩ :: (body ++ [⟨.closeBracket, s'⟩]), rfl, s', ⟨.colon, s⟩ :: body, rfl, hbody⟩
  · next hne =>
    obtain ⟨first, used, middle, rfl, hused, hrest⟩ := ht.andThen_eq_ok h
    unfold indexRest at hrest
    split at hrest
    · next s tokens =>
      cases hrest
      exact ⟨used ++ [⟨.closeBracket, s⟩], by simp, s, used, rfl, .plainIndex hused⟩
    · next s tokens =>
      obtain ⟨_, rfl, s', body, rfl, hbody⟩ :=
        sound_sliceAfter ht s (.present hused) _ _ _ hrest
      exact ⟨used ++ ⟨.colon, s⟩ :: (body ++ [⟨.closeBracket, s'⟩]), by simp, s',
        used ++ ⟨.colon, s⟩ :: body, by simp, hbody⟩
    · cases hrest

theorem sound_suffixes (fuel count : Nat) {value : Expr} {before : Input}
    (hvalue : Derives (.expression .primary value) before) :
    Sound (suffixes test fuel count value)
      fun e used => Derives (.expression .primary e) (before ++ used) := by
  induction count generalizing value before with
  | zero =>
    rintro input e rest ⟨⟩
    exact ⟨[], rfl, by simpa using hvalue⟩
  | succ count ih =>
    intro input e rest h
    unfold suffixes at h
    split at h
    · next s tokens =>
      obtain ⟨given, used, middle, rfl, hused, hrest⟩ :=
        (sound_operands ht fuel s hvalue).andThen_eq_ok h
      obtain ⟨more, rfl, hmore⟩ := ih hused _ _ _ hrest
      exact ⟨⟨.openParen, s⟩ :: (used ++ more), by simp, by simpa using hmore⟩
    · next s tokens =>
      obtain ⟨i, _, middle, rfl, ⟨s', body, rfl, hbody⟩, hrest⟩ := (sound_index ht).andThen_eq_ok h
      obtain ⟨more, rfl, hmore⟩ := ih (.subscript s s' hvalue hbody) _ _ _ hrest
      exact ⟨⟨.openBracket, s⟩ :: (body ++ ⟨.closeBracket, s'⟩ :: more), by simp,
        by simpa using hmore⟩
    · next s tokens =>
      obtain ⟨field, _, middle, rfl, ⟨s', rfl⟩, hrest⟩ := sound_name.andThen_eq_ok h
      obtain ⟨more, rfl, hmore⟩ := ih (.member field s s' hvalue) _ _ _ hrest
      exact ⟨⟨.dot, s⟩ :: ⟨.name field, s'⟩ :: more, rfl, by simpa using hmore⟩
    · cases h
      exact ⟨[], rfl, by simpa using hvalue⟩

theorem reads_primary (ho : Reads .orTest orTest) (fuel : Nat) :
    Reads .primary (primary test orTest fuel) := by
  intro input e rest h
  obtain ⟨value, before, middle, rfl, hbefore, hrest⟩ := (reads_atom ht ho fuel).andThen_eq_ok h
  obtain ⟨used, rfl, hused⟩ := sound_suffixes ht fuel fuel (.unit rfl hbefore) _ _ _ hrest
  exact ⟨before ++ used, by simp, hused⟩

theorem reads_power {factor : Parser Expr} (ho : Reads .orTest orTest) (hf : Reads .factor factor)
    (fuel : Nat) : Reads .power (andThen (primary test orTest fuel) (powerRest factor)) := by
  intro input e rest h
  obtain ⟨base, used, middle, rfl, hbase, hrest⟩ := (reads_primary ht ho fuel).andThen_eq_ok h
  unfold powerRest at hrest
  split at hrest
  · next s tokens =>
    obtain ⟨exponent, more, rfl, hmore, rfl⟩ := hf.map_eq_ok hrest
    exact ⟨used ++ ⟨.doubleStar, s⟩ :: more, by simp, .power s hbase hmore⟩
  · cases hrest
    exact ⟨used, rfl, .unit rfl hbase⟩

end Primaries

/-! ## The recursive levels -/

theorem reads_binaryLevels (fuel : Nat) {factor : Parser Expr} (hf : Reads .factor factor) :
    Reads .bitOr (binaryLevels fuel factor) := by
  rw [binaryLevels, bitOrOperator_eq, bitXorOperator_eq, bitAndOperator_eq, shiftOperator_eq,
    sumOperator_eq, productOperator_eq]
  refine reads_chain rfl (reads_chain rfl (reads_chain rfl ?_ fuel) fuel) fuel
  exact reads_chain rfl (reads_chain rfl (reads_chain rfl hf fuel) fuel) fuel

theorem sound_parameters (fuel : Nat) {s : Span} : Sound (parameters fuel) fun names used =>
    ∀ e tokens, Derives (.expression .test e) tokens →
      Derives (.expression .test (.lambda names e)) (⟨.lambda_, s⟩ :: (used ++ tokens)) := by
  have hnames : Sound (commaList name fuel) fun names => Derives (.names names) :=
    sound_commaList (fun input word rest h => by
      obtain ⟨used, rfl, s, rfl⟩ := sound_name _ _ _ h
      exact ⟨_, rfl, .name word s⟩) fuel
  intro input names rest h
  unfold parameters at h
  split at h
  · next s' tokens =>
    cases h
    exact ⟨[⟨.colon, s'⟩], rfl, fun e tokens he => .emptyLambda s s' he⟩
  · obtain ⟨_, rfl, s', used, rfl, hused⟩ := (hnames.before eq_colon) _ _ _ h
    exact ⟨used ++ [⟨.colon, s'⟩], rfl,
      fun e tokens he => by simpa using Derives.lambda s s' hused he⟩

theorem reads_conditionalRest {orTest test : Parser Expr} (ho : Reads .orTest orTest)
    (ht : Reads .test test) : Reads .test (andThen orTest (conditionalRest orTest test)) := by
  intro input e rest h
  obtain ⟨body, used, middle, rfl, hused, hrest⟩ := ho.andThen_eq_ok h
  unfold conditionalRest at hrest
  split at hrest
  · next s tokens =>
    obtain ⟨c, _, middle, rfl, ⟨s', condition, rfl, hc⟩, hlast⟩ :=
      (ho.before eq_else).andThen_eq_ok hrest
    obtain ⟨e, orElse, rfl, he, rfl⟩ := ht.map_eq_ok hlast
    exact ⟨used ++ ⟨.if_, s⟩ :: (condition ++ ⟨.else_, s'⟩ :: orElse), by simp,
      .conditional s s' hused hc he⟩
  · cases hrest
    exact ⟨used, rfl, .unit rfl hused⟩

/-- The parsers of the recursive levels at a fuel read phrases of their levels. -/
structure ReadsAt (fuel : Nat) : Prop where
  test : Reads .test (test fuel)
  orTest : Reads .orTest (orTest fuel)
  notTest : Reads .notTest (notTest fuel)
  factor : Reads .factor (factor fuel)

namespace ReadsAt

variable {fuel : Nat} (h : ReadsAt fuel)
include h

theorem test_succ : Reads .test (Expression.test (fuel + 1)) := by
  intro input e rest hp
  unfold Expression.test at hp
  split at hp
  · next s tokens =>
    obtain ⟨names, used, middle, rfl, hused, hrest⟩ := (sound_parameters fuel).andThen_eq_ok hp
    obtain ⟨body, more, rfl, hmore, rfl⟩ := h.test.map_eq_ok hrest
    exact ⟨⟨.lambda_, s⟩ :: (used ++ more), by simp, hused body more hmore⟩
  · exact reads_conditionalRest h.orTest h.test _ _ _ hp

theorem orTest_succ : Reads .orTest (Expression.orTest (fuel + 1)) := by
  unfold Expression.orTest
  rw [orOperator_eq, andOperator_eq]
  exact reads_chain rfl (reads_chain rfl h.notTest fuel) fuel

theorem notTest_succ : Reads .notTest (Expression.notTest (fuel + 1)) := by
  intro input e rest hp
  unfold Expression.notTest at hp
  split at hp
  · next s tokens =>
    obtain ⟨e, used, rfl, hused, rfl⟩ := h.notTest.map_eq_ok hp
    exact ⟨⟨.not_, s⟩ :: used, rfl, .not s hused⟩
  · have hcomparison := reads_comparisonChain (reads_binaryLevels fuel h.factor) fuel
    exact hcomparison.unit rfl _ _ _ hp

theorem factor_succ : Reads .factor (Expression.factor (fuel + 1)) := by
  intro input e rest hp
  unfold Expression.factor at hp
  split at hp
  · cases hp
  · next t tokens =>
    split at hp
    · next op hop =>
      obtain ⟨e, used, rfl, hused, rfl⟩ := h.factor.map_eq_ok hp
      obtain ⟨t, s⟩ := t
      refine ⟨⟨t, s⟩ :: used, rfl, ?_⟩
      cases t <;> cases hop
      · exact .positive s hused
      · exact .negative s hused
      · exact .inverted s hused
    · exact (reads_power h.test h.orTest h.factor fuel).unit rfl _ _ _ hp

end ReadsAt

theorem readsAt (fuel : Nat) : ReadsAt fuel := by
  induction fuel with
  | zero => exact ⟨reads_stop _, reads_stop _, reads_stop _, reads_stop _⟩
  | succ fuel ih => exact ⟨ih.test_succ, ih.orTest_succ, ih.notTest_succ, ih.factor_succ⟩

theorem reads_whole (fuel : Nat) : Reads .input (whole fuel) := by
  intro input e rest h
  unfold whole at h
  split at h
  · next target s s' tokens =>
    obtain ⟨e, used, rfl, hused, rfl⟩ := (readsAt fuel).test.map_eq_ok h
    exact ⟨⟨.name target, s⟩ :: ⟨.equal, s'⟩ :: used, rfl, .assign target s s' hused⟩
  · exact (readsAt fuel).test.unit rfl _ _ _ h

end CallScript.Expression
