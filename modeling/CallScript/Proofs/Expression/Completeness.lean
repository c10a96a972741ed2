import CallScript.Proofs.Expression.Reading

/-!
# Every phrase is read

The phrases that are read in parts one after the other, from calls and subscripts up to whole
expressions, and with them all phrases of the grammar (`Derives.reads`).  With the other direction
(`reads_whole`) the parser accepts the phrases of the grammar and nothing else, and a list of tokens
has one tree at most (`parse_eq_ok_iff_derives`).
-/

namespace CallScript.Expression

open Expression.Parser

/-! ## Calls, subscripts and attributes -/

namespace Level

theorem Reads.primary_of_atom {e : Expr} {tokens : Input} (h : atom.Reads e tokens) :
    primary.Reads e tokens := by
  intro n rest hn hrest
  exact ⟨n, Nat.le_add_right _ _, andThen_of_ok (h.ok hn hrest)⟩

/-- A suffix of a primary takes one round of the loop. -/
theorem Reads.suffix {v e : Expr} {tokens suffix : Input} (h : primary.Reads v tokens)
    (hstops : ∀ rest, Stops .atom (suffix ++ rest)) (hpos : 0 < suffix.length)
    (hsuffix : ∀ n k rest, 4 * suffix.length ≤ n →
      suffixes (Expression.test n) n (k + 1) v (suffix ++ rest) =
        suffixes (Expression.test n) n k e rest) :
    primary.Reads e (tokens ++ suffix) := by
  intro n rest hn _
  rw [List.length_append] at hn
  obtain ⟨k, hk, hparse⟩ := h n (suffix ++ rest) (by omega) (hstops rest)
  simp only [fuel] at hk
  obtain ⟨k, rfl⟩ : ∃ m, k = m + 1 := ⟨k - 1, by omega⟩
  refine ⟨k, by simp only [fuel, List.length_append]; omega, ?_⟩
  rw [List.append_assoc, hparse]
  exact hsuffix n k rest (by omega)

theorem Reads.emptyCall {f : Expr} {tokens : Input} (h : primary.Reads f tokens) (s s' : Span) :
    primary.Reads (.call f []) (tokens ++ [⟨.openParen, s⟩, ⟨.closeParen, s'⟩]) :=
  h.suffix (fun _ => stops_of_joins? rfl (by decide) _) (by simp) fun _ _ _ _ => rfl

theorem Reads.member {v : Expr} {tokens : Input} (h : primary.Reads v tokens) (field : String)
    (s s' : Span) :
    primary.Reads (.member v field) (tokens ++ [⟨.dot, s⟩, ⟨.name field, s'⟩]) :=
  h.suffix (fun _ => stops_of_joins? rfl (by decide) _) (by simp) fun _ _ _ _ => rfl

theorem Reads.subscript {v i : Expr} {tokens body : Input} (h : primary.Reads v tokens)
    (s s' : Span) (hi : (Phrase.index i).Read body) : primary.Reads (.subscript v i)
      (tokens ++ ⟨.openBracket, s⟩ :: (body ++ [⟨.closeBracket, s'⟩])) := by
  refine h.suffix (fun _ => stops_of_joins? rfl (by decide) _) (by simp) fun n k rest hn => ?_
  simp only [List.length_cons, List.length_append] at hn
  simp only [List.cons_append, List.append_assoc, List.nil_append]
  exact andThen_of_ok (hi n s' rest (by omega))

theorem Reads.call {f : Expr} {given : List Operand} {tokens body : Input}
    (h : primary.Reads f tokens) (s s' : Span)
    (hg : Separated (fun o => (Phrase.operand o).Read) given body) : primary.Reads (.call f given)
      (tokens ++ ⟨.openParen, s⟩ :: (body ++ [⟨.closeParen, s'⟩])) := by
  refine h.suffix (fun _ => stops_of_joins? rfl (by decide) _) (by simp) fun n k rest hn => ?_
  simp only [List.length_cons, List.length_append] at hn
  simp only [List.cons_append, List.append_assoc, List.nil_append]
  have hlist : commaList (operand (Expression.test n)) n (body ++ ⟨.closeParen, s'⟩ :: rest) =
      .ok (given, ⟨.closeParen, s'⟩ :: rest) := by
    refine hg.commaList_eq ?_ (by omega) (Nat.le_refl _) rfl (by simp) rest
    intro o used t rest ho hused ht
    exact ho.2 n t rest (by omega) ht
  have hoperands : operands (Expression.test n) n (body ++ ⟨.closeParen, s'⟩ :: rest) =
      .ok (given, rest) := by
    obtain ⟨o, first, others, rfl, ⟨t, more, rfl, hne⟩, -⟩ := hg.exists_first
    unfold operands
    split
    · next heq =>
      cases heq
      exact absurd rfl hne
    · exact before_of_ok hlist rfl
  exact andThen_of_ok hoperands

end Level

section Slices

variable {l u : Option Expr} {lower upper tokens : Input} {e : Expr} {n : Nat}

theorem slicePart_of_opens {test : Parser Expr} {input : Input} (h : Opens .test input) :
    slicePart test input = map some test input := by
  obtain ⟨t, rest, opened, rfl, ho, -⟩ := h
  unfold slicePart
  split
  · next heq =>
    cases heq
    cases ho
  · next heq =>
    cases heq
    cases ho
  · rfl

theorem index_of_opens {test : Parser Expr} {input : Input} (h : Opens .test input) :
    index test input = andThen test (indexRest test) input := by
  obtain ⟨t, rest, opened, rfl, ho, -⟩ := h
  unfold index
  split
  · next heq =>
    cases heq
    cases ho
  · rfl

theorem slicePart_eq (h : (Phrase.optional u).Read upper) (hn : 4 * upper.length + 4 ≤ n)
    {t : Placed Token} (ht : t.item = .colon ∨ t.item = .closeBracket) (rest : Input) :
    slicePart (test n) (upper ++ t :: rest) = .ok (u, t :: rest) := by
  obtain ⟨t, s⟩ := t
  obtain ⟨rfl, rfl⟩ | ⟨e, rfl, hopens, he⟩ := h
  · obtain rfl | rfl := ht <;> rfl
  · rw [slicePart_of_opens (hopens.append _)]
    refine map_of_ok (he.before_token hn ?_ rest)
    obtain rfl | rfl := ht <;> rfl

theorem index_of_lower (h : (Phrase.optional l).Read lower) (hn : 4 * lower.length + 4 ≤ n)
    (s : Span) (rest : Input) :
    index (test n) (lower ++ ⟨.colon, s⟩ :: rest) = sliceAfter (test n) l rest := by
  obtain ⟨rfl, rfl⟩ | ⟨e, rfl, hopens, he⟩ := h
  · rfl
  · rw [index_of_opens (hopens.append _), andThen_of_ok (he.before_token hn rfl rest)]
    rfl

theorem Phrase.Read.plainIndex (h : (Phrase.expression .test e).Read tokens) :
    (Phrase.index e).Read tokens := by
  intro n s rest hn
  rw [index_of_opens (h.1.append _), andThen_of_ok (h.2.before_token hn rfl rest)]
  rfl

theorem Phrase.Read.slice (s : Span) (hl : (Phrase.optional l).Read lower)
    (hu : (Phrase.optional u).Read upper) :
    (Phrase.index (.slice l u none)).Read (lower ++ ⟨.colon, s⟩ :: upper) := by
  intro n s' rest hn
  simp only [List.length_cons, List.length_append] at hn
  rw [List.append_assoc, List.cons_append, index_of_lower hl (by omega), sliceAfter,
    andThen_of_ok (slicePart_eq hu (by omega) (.inr rfl) rest)]
  rfl

theorem Phrase.Read.steppedSlice (s s' : Span) {t : Option Expr} {step : Input}
    (hl : (Phrase.optional l).Read lower) (hu : (Phrase.optional u).Read upper)
    (ht : (Phrase.optional t).Read step) : (Phrase.index (.slice l u t)).Read
      (lower ++ ⟨.colon, s⟩ :: (upper ++ ⟨.colon, s'⟩ :: step)) := by
  intro n s'' rest hn
  simp only [List.length_cons, List.length_append] at hn
  simp only [List.cons_append, List.append_assoc]
  rw [index_of_lower hl (by omega), sliceAfter,
    andThen_of_ok (slicePart_eq hu (by omega) (.inl rfl) _)]
  exact map_of_ok (before_of_ok (slicePart_eq ht (by omega) (.inr rfl) rest) rfl)

end Slices

/-! ## Signs, powers and comparisons -/

/-- No token joins at the level of signs, which stand in front only. -/
theorem Stops.factor_of_power {rest : Input} (h : Stops .power rest) : Stops .factor rest := by
  cases rest with
  | nil => trivial
  | cons token rest =>
    intro joined hjoined
    have hlt := h joined hjoined
    have hne : joined ≠ .factor := by
      rintro rfl
      obtain ⟨t, s⟩ := token
      cases t <;> cases hjoined
    cases joined with
    | factor => exact absurd rfl hne
    | power | primary | atom => exact absurd hlt (by decide)
    | _ => decide

namespace Level

theorem Reads.power_of_primary {e : Expr} {tokens : Input} (h : primary.Reads e tokens) :
    power.Reads e tokens := by
  refine reads_of_ok rfl fun n rest hn hrest => ?_
  have hbase : primary.parser n (tokens ++ rest) = .ok (e, rest) := h.ok hn (hrest.mono (by decide))
  show andThen (primary.parser n) _ _ = _
  rw [andThen_of_ok hbase]
  unfold powerRest
  split
  · exact absurd (hrest .power rfl) (by decide)
  · rfl

theorem Reads.raised {b e : Expr} {base exponent : Input} (s : Span) (hb : primary.Reads b base)
    (he : factor.Reads e exponent) :
    power.Reads (.binary .pow b e) (base ++ ⟨.doubleStar, s⟩ :: exponent) := by
  refine reads_of_ok rfl fun n rest hn hrest => ?_
  simp only [List.length_cons, List.length_append, reserve] at hn
  have hbase : primary.parser n (base ++ ⟨.doubleStar, s⟩ :: (exponent ++ rest)) =
      .ok (b, ⟨.doubleStar, s⟩ :: (exponent ++ rest)) :=
    hb.ok (by simp only [reserve]; omega) (stops_of_joins? rfl (by decide) _)
  have hexponent : Expression.factor n (exponent ++ rest) = .ok (e, rest) :=
    he.ok (n := n) (by simp only [reserve]; omega) hrest.factor_of_power
  rw [List.append_assoc, List.cons_append]
  show andThen (primary.parser n) _ _ = _
  rw [andThen_of_ok hbase]
  exact map_of_ok hexponent

theorem Reads.factor_of_power {e : Expr} {tokens : Input} (h : power.Reads e tokens)
    (hopens : Opens .power tokens) : factor.Reads e tokens := by
  refine reads_of_ok rfl fun n rest hn hrest => ?_
  obtain ⟨n, rfl⟩ : ∃ m, n = m + 1 := ⟨n - 1, by simp only [reserve] at hn; omega⟩
  have hpower : power.parser n (tokens ++ rest) = .ok (e, rest) :=
    h.ok (by simp only [reserve] at hn ⊢; omega) (hrest.mono (by decide))
  obtain ⟨t, more, opened, rfl, ho, hle⟩ := hopens
  have hsign : signOperator t.item = none := by
    obtain ⟨t, s⟩ := t
    cases t <;> first | rfl | (cases ho; exact absurd hle (by decide))
  show Expression.factor (n + 1) (t :: (more ++ rest)) = _
  simp only [Expression.factor, hsign]
  exact hpower

theorem Reads.sign {op : UnaryOp} {e : Expr} {tokens : Input} {t : Placed Token}
    (hop : signOperator t.item = some op) (h : factor.Reads e tokens) :
    factor.Reads (.unary op e) (t :: tokens) := by
  refine reads_of_ok rfl fun n rest hn hrest => ?_
  simp only [List.length_cons, reserve] at hn
  obtain ⟨n, rfl⟩ : ∃ m, n = m + 1 := ⟨n - 1, by omega⟩
  have hfactor : Expression.factor n (tokens ++ rest) = .ok (e, rest) :=
    h.ok (n := n) (by simp only [reserve]; omega) hrest
  show Expression.factor (n + 1) (t :: (tokens ++ rest)) = _
  simp only [Expression.factor, hop]
  exact map_of_ok hfactor

end Level

theorem comparison?_of_comparison {op : CompareOp} {sign input : Input} (h : Comparison op sign)
    (hopens : Opens .bitOr input) : comparison? (sign ++ input) = some (.ok (op, input)) := by
  obtain ⟨⟨t, s⟩, rest, opened, rfl, ho, hle⟩ := hopens
  cases h with
  | is =>
    -- a `not` here would make it the other comparison, but it opens no operand
    cases t <;> first | rfl | (cases ho; exact absurd hle (by decide))
  | _ => rfl

theorem comparison?_of_stops {rest : Input} (h : Stops .comparison rest) :
    comparison? rest = none := by
  unfold comparison?
  split <;> first | rfl | exact absurd (h .comparison rfl) (by decide)

theorem comparisons_of_stops {operand : Parser Expr} {rest : Input} (h : Stops .comparison rest)
    (k : Nat) : comparisons operand k rest = .ok ([], rest) := by
  cases k with
  | zero => rfl
  | succ k => simp only [comparisons, comparison?_of_stops h]

theorem Comparison.stops {op : CompareOp} {sign : Input} (h : Comparison op sign) (rest : Input) :
    Stops .bitOr (sign ++ rest) := by
  cases h <;> exact stops_of_joins? rfl (by decide) _

theorem Comparison.length_pos {op : CompareOp} {sign : Input} (h : Comparison op sign) :
    0 < sign.length := by
  cases h <;> simp

section Comparisons

variable {op : CompareOp} {e : Expr} {sign tokens : Input}

/-- One comparison is read in front of others. -/
theorem comparisons_append (hop : Comparison op sign)
    (h : (Phrase.expression .bitOr e).Read tokens) {n k : Nat}
    (hn : 4 * (sign.length + tokens.length) + 1 ≤ n) {rest rest' : Input}
    {cs : List (CompareOp × Expr)} (hstops : Stops .bitOr rest)
    (hrest : comparisons (Level.bitOr.parser n) k rest = .ok (cs, rest')) :
    comparisons (Level.bitOr.parser n) (k + 1) (sign ++ (tokens ++ rest)) =
      .ok ((op, e) :: cs, rest') := by
  have hright : Level.bitOr.parser n (tokens ++ rest) = .ok (e, rest) :=
    h.2.ok (by simp only [Level.reserve]; omega) hstops
  simp only [comparisons, comparison?_of_comparison hop (h.1.append rest)]
  rw [andThen_of_ok hright]
  exact map_of_ok hrest

theorem Phrase.Read.lastComparison (hop : Comparison op sign)
    (h : (Phrase.expression .bitOr e).Read tokens) :
    (Phrase.comparisons [(op, e)]).Read (sign ++ tokens) := by
  refine ⟨fun rest => ?_, fun n k rest hn hk hrest => ?_⟩
  · rw [List.append_assoc]
    exact hop.stops _
  · have hpos := hop.length_pos
    rw [List.length_append] at hn hk
    obtain ⟨k, rfl⟩ : ∃ m, k = m + 1 := ⟨k - 1, by omega⟩
    rw [List.append_assoc]
    exact comparisons_append hop h hn (hrest.mono (by decide)) (comparisons_of_stops hrest k)

theorem Phrase.Read.moreComparisons {cs : List (CompareOp × Expr)} {more : Input}
    (hop : Comparison op sign) (h : (Phrase.expression .bitOr e).Read tokens)
    (hs : (Phrase.comparisons cs).Read more) :
    (Phrase.comparisons ((op, e) :: cs)).Read (sign ++ (tokens ++ more)) := by
  refine ⟨fun rest => ?_, fun n k rest hn hk hrest => ?_⟩
  · rw [List.append_assoc]
    exact hop.stops _
  · have hpos := hop.length_pos
    simp only [List.length_append] at hn hk
    obtain ⟨k, rfl⟩ : ∃ m, k = m + 1 := ⟨k - 1, by omega⟩
    simp only [List.append_assoc]
    exact comparisons_append hop h (by omega) (hs.1 rest)
      (hs.2 n k rest (by omega) (by omega) hrest)

end Comparisons

namespace Level

theorem Reads.comparison_of_bitOr {e : Expr} {tokens : Input} (h : bitOr.Reads e tokens) :
    comparison.Reads e tokens := by
  refine reads_of_ok rfl fun n rest hn hrest => ?_
  have hleft : bitOr.parser n (tokens ++ rest) = .ok (e, rest) :=
    h.ok hn (hrest.mono (by decide))
  show comparisonChain n (bitOr.parser n) _ = _
  rw [comparisonChain, andThen_of_ok hleft]
  exact map_of_ok (comparisons_of_stops hrest n)

theorem Reads.compare {e : Expr} {cs : List (CompareOp × Expr)} {left right : Input}
    (hl : bitOr.Reads e left) (hr : (Phrase.comparisons cs).Read right) (hne : cs ≠ []) :
    comparison.Reads (.compare e cs) (left ++ right) := by
  refine reads_of_ok rfl fun n rest hn hrest => ?_
  simp only [List.length_append, reserve] at hn
  have hleft : bitOr.parser n (left ++ (right ++ rest)) = .ok (e, right ++ rest) :=
    hl.ok (by simp only [reserve]; omega) (hr.1 rest)
  have hright := hr.2 n n rest (by omega) (by omega) hrest
  have hcompared : compared e cs = .compare e cs := by
    cases cs with
    | nil => exact absurd rfl hne
    | cons => rfl
  rw [List.append_assoc, ← hcompared]
  show comparisonChain n (bitOr.parser n) _ = _
  rw [comparisonChain, andThen_of_ok hleft]
  exact map_of_ok hright

theorem Reads.notTest_of_comparison {e : Expr} {tokens : Input} (h : comparison.Reads e tokens)
    (hopens : Opens .comparison tokens) : notTest.Reads e tokens := by
  refine reads_of_ok rfl fun n rest hn hrest => ?_
  simp only [reserve] at hn
  obtain ⟨n, rfl⟩ : ∃ m, n = m + 1 := ⟨n - 1, by omega⟩
  have hcomparison : comparison.parser n (tokens ++ rest) = .ok (e, rest) :=
    h.ok (by simp only [reserve]; omega) (hrest.mono (by decide))
  obtain ⟨t, more, opened, rfl, ho, hle⟩ := hopens
  show Expression.notTest (n + 1) (t :: (more ++ rest)) = _
  unfold Expression.notTest
  split
  · next heq =>
    cases heq
    cases ho
    exact absurd hle (by decide)
  · rw [binaryLevels, bitOrOperator_eq, bitXorOperator_eq, bitAndOperator_eq, shiftOperator_eq,
      sumOperator_eq, productOperator_eq]
    exact hcomparison

theorem Reads.not {e : Expr} {tokens : Input} (s : Span) (h : notTest.Reads e tokens) :
    notTest.Reads (.unary .not e) (⟨.not_, s⟩ :: tokens) := by
  refine reads_of_ok rfl fun n rest hn hrest => ?_
  simp only [List.length_cons, reserve] at hn
  obtain ⟨n, rfl⟩ : ∃ m, n = m + 1 := ⟨n - 1, by omega⟩
  exact map_of_ok (h.ok (n := n) (by simp only [reserve]; omega) hrest)

/-! ## Conditional expressions, lambdas and assignments -/

theorem test_of_opens {n : Nat} {input : Input} (h : Opens .orTest input) :
    Expression.test (n + 1) input =
      andThen (Expression.orTest n) (conditionalRest (Expression.orTest n) (Expression.test n))
        input := by
  obtain ⟨t, rest, opened, rfl, ho, hle⟩ := h
  simp only [Expression.test]
  split
  · next heq =>
    cases heq
    cases ho
    exact absurd hle (by decide)
  · rfl

theorem Reads.test_of_orTest {e : Expr} {tokens : Input} (h : orTest.Reads e tokens)
    (hopens : Opens .orTest tokens) : test.Reads e tokens := by
  refine reads_of_ok rfl fun n rest hn hrest => ?_
  simp only [reserve] at hn
  obtain ⟨n, rfl⟩ : ∃ m, n = m + 1 := ⟨n - 1, by omega⟩
  have hbody : Expression.orTest n (tokens ++ rest) = .ok (e, rest) :=
    h.ok (n := n) (by simp only [reserve]; omega) (hrest.mono (by decide))
  show Expression.test (n + 1) _ = _
  rw [test_of_opens (hopens.append _), andThen_of_ok hbody]
  unfold conditionalRest
  split
  · exact absurd (hrest .test rfl) (by decide)
  · rfl

theorem Reads.conditional {b c e : Expr} {body condition orElse : Input} (s s' : Span)
    (hb : orTest.Reads b body) (hopens : Opens .orTest body) (hc : orTest.Reads c condition)
    (he : test.Reads e orElse) : test.Reads (.conditional c b e)
      (body ++ ⟨.if_, s⟩ :: (condition ++ ⟨.else_, s'⟩ :: orElse)) := by
  refine reads_of_ok rfl fun n rest hn hrest => ?_
  simp only [List.length_append, List.length_cons, reserve] at hn
  obtain ⟨n, rfl⟩ : ∃ m, n = m + 1 := ⟨n - 1, by omega⟩
  simp only [List.append_assoc, List.cons_append]
  have hbody : ∀ more, Expression.orTest n (body ++ ⟨.if_, s⟩ :: more) =
      .ok (b, ⟨.if_, s⟩ :: more) := fun more =>
    hb.ok (n := n) (by simp only [reserve]; omega) (stops_of_joins? rfl (by decide) _)
  have hcondition : ∀ more, Expression.orTest n (condition ++ ⟨.else_, s'⟩ :: more) =
      .ok (c, ⟨.else_, s'⟩ :: more) := fun more =>
    hc.ok (n := n) (by simp only [reserve]; omega) (stops_of_joins?_eq_none rfl _ _)
  have horElse : Expression.test n (orElse ++ rest) = .ok (e, rest) :=
    he.ok (n := n) (by simp only [reserve]; omega) hrest
  show Expression.test (n + 1) _ = _
  rw [test_of_opens (hopens.append _), andThen_of_ok (hbody _), conditionalRest,
    andThen_of_ok (before_of_ok (hcondition _) rfl)]
  exact map_of_ok horElse

theorem Reads.emptyLambda {e : Expr} {tokens : Input} (s s' : Span) (h : test.Reads e tokens) :
    test.Reads (.lambda [] e) (⟨.lambda_, s⟩ :: ⟨.colon, s'⟩ :: tokens) := by
  refine reads_of_ok rfl fun n rest hn hrest => ?_
  simp only [List.length_cons, reserve] at hn
  obtain ⟨n, rfl⟩ : ∃ m, n = m + 1 := ⟨n - 1, by omega⟩
  exact map_of_ok (h.ok (n := n) (by simp only [reserve]; omega) hrest)

theorem Reads.lambda {names : List String} {e : Expr} {parameters tokens : Input} (s s' : Span)
    (hn : Separated (fun word => (Phrase.name word).Read) names parameters)
    (h : test.Reads e tokens) : test.Reads (.lambda names e)
      (⟨.lambda_, s⟩ :: (parameters ++ ⟨.colon, s'⟩ :: tokens)) := by
  refine reads_of_ok rfl fun n rest hfuel hrest => ?_
  simp only [List.length_append, List.length_cons, reserve] at hfuel
  obtain ⟨n, rfl⟩ : ∃ m, n = m + 1 := ⟨n - 1, by omega⟩
  have hnames : commaList name n (parameters ++ ⟨.colon, s'⟩ :: (tokens ++ rest)) =
      .ok (names, ⟨.colon, s'⟩ :: (tokens ++ rest)) := by
    refine hn.commaList_eq ?_ (by omega) (Nat.le_refl _) rfl (by simp) _
    rintro word _ t rest ⟨s, rfl⟩ - -
    rfl
  have hparameters : Expression.parameters n (parameters ++ ⟨.colon, s'⟩ :: (tokens ++ rest)) =
      .ok (names, tokens ++ rest) := by
    obtain ⟨word, first, others, rfl, s'', rfl⟩ := hn.exists_first
    exact before_of_ok hnames rfl
  rw [List.cons_append, List.append_assoc, List.cons_append]
  show andThen (Expression.parameters n) _ _ = _
  rw [andThen_of_ok hparameters]
  exact map_of_ok (h.ok (n := n) (by simp only [reserve]; omega) hrest)

theorem Reads.of_next {level tighter : Level} (hnext : level.next? = some tighter)
    (hinput : level ≠ .input) {e : Expr} {tokens : Input}
    (h : (Phrase.expression tighter e).Read tokens) : level.Reads e tokens := by
  obtain ⟨hopens, h⟩ := h
  cases level with
  | input => exact absurd rfl hinput
  | test => cases hnext; exact h.test_of_orTest hopens
  | notTest => cases hnext; exact h.notTest_of_comparison hopens
  | comparison => cases hnext; exact h.comparison_of_bitOr
  | factor => cases hnext; exact h.factor_of_power hopens
  | power => cases hnext; exact h.power_of_primary
  | primary => cases hnext; exact h.primary_of_atom
  | atom => cases hnext
  | orTest | andTest | bitOr | bitXor | bitAnd | shift | sum | product =>
    cases hnext
    refine Reads.of_inner rfl h ?_
    obtain ⟨t, more, -, rfl, -⟩ := hopens
    simp

theorem reads_test_name (x : String) (s : Span) : test.Reads (.name x) [⟨.name x, s⟩] := by
  have hopens : ∀ level, Opens level [⟨.name x, s⟩] := fun level =>
    opens_cons rfl (by cases level <;> decide) []
  have hprimary := (reads_name x s).primary_of_atom
  have hfactor := hprimary.power_of_primary.factor_of_power (hopens _)
  have hbitOr : bitOr.Reads (.name x) [⟨.name x, s⟩] := by
    iterate 6 refine Reads.of_inner rfl ?_ Nat.one_pos
    exact hfactor
  have hnot := hbitOr.comparison_of_bitOr.notTest_of_comparison (hopens _)
  have hor : orTest.Reads (.name x) [⟨.name x, s⟩] := by
    iterate 2 refine Reads.of_inner rfl ?_ Nat.one_pos
    exact hnot
  exact hor.test_of_orTest (hopens _)

/-- A name and `=` start no expression of the level below assignments: the name alone would be
read. -/
theorem Reads.ne_assignment {e : Expr} {tokens : Input} (h : test.Reads e tokens) (x : String)
    (s s' : Span) (more : Input) : tokens ≠ ⟨.name x, s⟩ :: ⟨.equal, s'⟩ :: more := by
  rintro rfl
  obtain ⟨n, hn⟩ : ∃ n, 4 * (⟨.name x, s⟩ :: ⟨.equal, s'⟩ :: more : Input).length + 4 ≤ n :=
    ⟨_, Nat.le_refl _⟩
  have hall : Expression.test n (⟨.name x, s⟩ :: ⟨.equal, s'⟩ :: (more ++ [])) = .ok (e, []) :=
    h.ok (n := n) hn trivial
  have hname : Expression.test n (⟨.name x, s⟩ :: ⟨.equal, s'⟩ :: (more ++ [])) =
      .ok (.name x, ⟨.equal, s'⟩ :: (more ++ [])) := by
    refine (reads_test_name x s).ok (n := n) ?_ (stops_of_joins? rfl (by decide) _)
    simp only [List.length_cons, List.length_nil, reserve] at hn ⊢
    omega
  rw [hall] at hname
  cases hname

theorem append_ne_assignment {e : Expr} {tokens : Input}
    (h : (Phrase.expression .test e).Read tokens) {rest : Input}
    (hrest : ∀ s more, rest ≠ ⟨.equal, s⟩ :: more) (x : String) (s s' : Span)
    (more : Input) : tokens ++ rest ≠ ⟨.name x, s⟩ :: ⟨.equal, s'⟩ :: more := by
  obtain ⟨t, others, -, rfl, -⟩ := h.1
  intro heq
  cases others with
  | nil =>
    injection heq with _ heq
    exact hrest _ _ heq
  | cons t' others =>
    injection heq with ht heq
    injection heq with ht'
    exact h.2.ne_assignment x s s' others (by rw [ht, ht'])

theorem Reads.input_of_test {e : Expr} {tokens : Input}
    (h : (Phrase.expression .test e).Read tokens) : input.Reads e tokens := by
  refine reads_of_ok rfl fun n rest hn hrest => ?_
  have htest : Expression.test n (tokens ++ rest) = .ok (e, rest) :=
    h.2.ok (n := n) hn (hrest.mono (by decide))
  show whole n _ = _
  unfold whole
  split
  · next heq =>
    refine absurd heq (append_ne_assignment h ?_ _ _ _ _)
    rintro s more rfl
    exact absurd (hrest .input rfl) (by decide)
  · exact htest

theorem Reads.assign {e : Expr} {tokens : Input} (target : String) (s s' : Span)
    (h : test.Reads e tokens) :
    input.Reads (.assign target e) (⟨.name target, s⟩ :: ⟨.equal, s'⟩ :: tokens) := by
  refine reads_of_ok rfl fun n rest hn hrest => ?_
  simp only [List.length_cons, reserve] at hn
  exact map_of_ok (h.ok (n := n) (by simp only [reserve]; omega) (hrest.mono (by decide)))

end Level

/-! ## Operands -/

section Operands

variable {e : Expr} {tokens : Input}

theorem Phrase.Read.positional (h : (Phrase.expression .test e).Read tokens) :
    (Phrase.operand (.positional e)).Read tokens := by
  obtain ⟨t, more, opened, rfl, ho, -⟩ := h.1
  refine ⟨⟨t, more, rfl, fun hclose => by rw [hclose] at ho; cases ho⟩, fun n t' rest hn ht' => ?_⟩
  have htest := h.2.before_token hn ht' rest
  unfold Expression.operand
  split
  · next heq =>
    refine absurd heq (Level.append_ne_assignment h ?_ _ _ _ _)
    rintro s more' heq
    cases heq
    cases ht'
  · next heq =>
    cases heq
    cases ho
  · next heq =>
    cases heq
    cases ho
  · exact map_of_ok htest

theorem Phrase.Read.keyword (word : String) (s s' : Span) (h : Level.test.Reads e tokens) :
    (Phrase.operand (.keyword word e)).Read (⟨.name word, s⟩ :: ⟨.equal, s'⟩ :: tokens) := by
  refine ⟨⟨_, _, rfl, nofun⟩, fun n t rest hn ht => ?_⟩
  simp only [List.length_cons] at hn
  exact map_of_ok (h.before_token (by omega) ht rest)

theorem Phrase.Read.starred (s : Span) (h : Level.test.Reads e tokens) :
    (Phrase.operand (.starred e)).Read (⟨.star, s⟩ :: tokens) := by
  refine ⟨⟨_, _, rfl, nofun⟩, fun n t rest hn ht => ?_⟩
  simp only [List.length_cons] at hn
  exact map_of_ok (h.before_token (by omega) ht rest)

theorem Phrase.Read.doubleStarred (s : Span) (h : Level.test.Reads e tokens) :
    (Phrase.operand (.doubleStarred e)).Read (⟨.doubleStar, s⟩ :: tokens) := by
  refine ⟨⟨_, _, rfl, nofun⟩, fun n t rest hn ht => ?_⟩
  simp only [List.length_cons] at hn
  exact map_of_ok (h.before_token (by omega) ht rest)

end Operands

/-! ## Whole expressions -/

theorem Derives.comparisons_ne_nil {cs : List (CompareOp × Expr)} {tokens : Input}
    (h : Derives (.comparisons cs) tokens) : cs ≠ [] := by
  cases h <;> exact List.cons_ne_nil _ _

/-- Every phrase of the grammar is read. -/
theorem Derives.reads {phrase : Phrase} {tokens : Input} (h : Derives phrase tokens) :
    phrase.Reads tokens := by
  induction h with
  | @unit level tighter e tokens hnext h ih =>
    refine ⟨(Derives.unit hnext h).opens, ?_⟩
    by_cases hinput : level = .input
    · subst hinput
      cases hnext
      exact .input_of_test ih
    · exact .of_next hnext hinput ih
  | @join level tighter combine l r left right operator hnext hop hl hr ihl ihr =>
    have hinner := Level.next?_of_isChain (Level.isChain_of_operator? hop)
    obtain rfl : tighter = level.inner := Option.some.inj (hnext.symm.trans hinner)
    exact ⟨(Derives.join hnext hop hl hr).opens, ihl.2.join hop ihr.2⟩
  | assign target s s' h ih =>
    exact ⟨(Derives.assign target s s' h).opens, .assign target s s' ih.2⟩
  | conditional s s' hb hc he ihb ihc ihe =>
    exact ⟨(Derives.conditional s s' hb hc he).opens, .conditional s s' ihb.2 ihb.1 ihc.2 ihe.2⟩
  | emptyLambda s s' h ih => exact ⟨(Derives.emptyLambda s s' h).opens, .emptyLambda s s' ih.2⟩
  | lambda s s' hn h ihn ih =>
    exact ⟨(Derives.lambda s s' hn h).opens, .lambda s s' (Separated.of_map ihn) ih.2⟩
  | not s h ih => exact ⟨(Derives.not s h).opens, ih.2.not s⟩
  | compare hl hr ihl ihr =>
    exact ⟨(Derives.compare hl hr).opens, ihl.2.compare ihr hr.comparisons_ne_nil⟩
  | lastComparison hop _ ih => exact .lastComparison hop ih
  | moreComparisons hop _ _ ih ihs => exact .moreComparisons hop ih ihs
  | negative s h ih => exact ⟨(Derives.negative s h).opens, ih.2.sign rfl⟩
  | positive s h ih => exact ⟨(Derives.positive s h).opens, ih.2.sign rfl⟩
  | inverted s h ih => exact ⟨(Derives.inverted s h).opens, ih.2.sign rfl⟩
  | power s hb he ihb ihe => exact ⟨(Derives.power s hb he).opens, ihb.2.raised s ihe.2⟩
  | emptyCall s s' h ih => exact ⟨(Derives.emptyCall s s' h).opens, ih.2.emptyCall s s'⟩
  | call s s' h hg ih ihg =>
    exact ⟨(Derives.call s s' h hg).opens, ih.2.call s s' (Separated.of_map ihg)⟩
  | subscript s s' h hi ih ihi =>
    exact ⟨(Derives.subscript s s' h hi).opens, ih.2.subscript s s' ihi⟩
  | member field s s' h ih => exact ⟨(Derives.member field s s' h).opens, ih.2.member field s s'⟩
  | positional _ ih => exact .positional ih
  | keyword word s s' _ ih => exact .keyword word s s' ih.2
  | starred s _ ih => exact .starred s ih.2
  | doubleStarred s _ ih => exact .doubleStarred s ih.2
  | plainIndex _ ih => exact .plainIndex ih
  | slice s _ _ ihl ihu => exact .slice s ihl ihu
  | steppedSlice s s' _ _ _ ihl ihu iht => exact .steppedSlice s s' ihl ihu iht
  | missing => exact .inl ⟨rfl, rfl⟩
  | present _ ih => exact .inr ⟨_, rfl, ih⟩
  | number x s => exact ⟨(Derives.number x s).opens, Level.reads_number x s⟩
  | string h ih => exact ⟨(Derives.string h).opens, ih.string⟩
  | true_ s => exact ⟨(Derives.true_ s).opens, Level.reads_bool_true s⟩
  | false_ s => exact ⟨(Derives.false_ s).opens, Level.reads_bool_false s⟩
  | none_ s => exact ⟨(Derives.none_ s).opens, Level.reads_none s⟩
  | variable_ x s => exact ⟨(Derives.variable_ x s).opens, Level.reads_name x s⟩
  | lastString text s => exact Phrase.read_lastString text s
  | moreStrings text s _ ih => exact ih.moreStrings text s
  | emptyTuple s s' => exact ⟨(Derives.emptyTuple s s').opens, Level.reads_emptyTuple s s'⟩
  | parenthesized s s' h ih =>
    exact ⟨(Derives.parenthesized s s' h).opens, Level.reads_parenthesized s s' ih⟩
  | singleton s s' s'' h ih =>
    exact ⟨(Derives.singleton s s' s'' h).opens, Level.reads_singleton s s' s'' ih⟩
  | tuple s s' s'' h hs ih ihs =>
    exact ⟨(Derives.tuple s s' s'' h hs).opens,
      Level.reads_tuple s s' s'' ih (Separated.of_map ihs)⟩
  | emptyList s s' => exact ⟨(Derives.emptyList s s').opens, Level.reads_emptyList s s'⟩
  | list s s' hs ihs =>
    exact ⟨(Derives.list s s' hs).opens, Level.reads_list s s' (Separated.of_map ihs)⟩
  | comprehension target s₁ s₂ s₃ s₄ s₅ he hi hc ihe ihi ihc =>
    exact ⟨(Derives.comprehension target s₁ s₂ s₃ s₄ s₅ he hi hc).opens,
      Level.reads_comprehension target s₁ s₂ s₃ s₄ s₅ ihe ihi.2 ihc⟩
  | noCondition => exact Phrase.read_noCondition
  | condition s _ _ ih ihs => exact .condition s ih.2 ihs
  | emptyDict s s' => exact ⟨(Derives.emptyDict s s').opens, Level.reads_emptyDict s s'⟩
  | dict s s' hs ihs =>
    exact ⟨(Derives.dict s s' hs).opens, Level.reads_dict s s' (Separated.of_map ihs)⟩
  | set s s' hs ihs =>
    exact ⟨(Derives.set s s' hs).opens, Level.reads_set s s' (Separated.of_map ihs)⟩
  | entry s _ _ ihk ihv => exact ⟨_, _, s, rfl, ihk.1, ihk.2, ihv.2⟩
  | name word s => exact ⟨s, rfl⟩
  | firstItem _ ih => exact .one ih.read
  | nextItem s _ _ ihs ih => exact ihs.concat s ih.read

theorem whole_eq_ok_iff {tokens : Input} {n : Nat} (hn : 4 * tokens.length + 4 ≤ n) {e : Expr} :
    whole n tokens = .ok (e, []) ↔ Derives (.expression .input e) tokens := by
  constructor
  · intro h
    obtain ⟨used, rfl, hused⟩ := reads_whole n _ _ _ h
    rwa [List.append_nil]
  · intro h
    have hwhole : Level.input.parser n (tokens ++ []) = .ok (e, []) := h.reads.2.ok hn trivial
    rwa [List.append_nil] at hwhole

theorem parseTokens_eq_ok_iff_whole {tokens : Input} {e : Expr} : parseTokens tokens = .ok e ↔
    tokens.length ≤ tokenLimit ∧ whole (parseFuel tokens.length) tokens = .ok (e, []) := by
  unfold parseTokens
  split
  · next t ht =>
    have hlimit := (List.getElem?_eq_some_iff.1 ht).1
    simp only [reduceCtorEq, false_iff, not_and]
    omega
  · next hnone =>
    have hlimit := List.getElem?_eq_none_iff.1 hnone
    simp only [hlimit, true_and]
    split
    · next e' h => simp [h]
    · next e' rest hne h =>
      simp only [reduceCtorEq, false_iff, h]
      rintro ⟨⟩
      exact hne rfl
    · next rest h => simp [h]

/-- The parser accepts the phrases of the grammar up to the limit, each with its tree, and the
grammar gives a list of tokens one tree at most. -/
theorem parse_eq_ok_iff_derives :
    (∀ source e, parse source = .ok e ↔ ∃ tokens, scan source = .ok tokens ∧
      tokens.length ≤ tokenLimit ∧ Derives (.expression .input e) tokens) ∧
    (∀ tokens e, tokens.length ≤ tokenLimit →
      (parseTokens tokens = .ok e ↔ Derives (.expression .input e) tokens)) ∧
    ∀ tokens e e', Derives (.expression .input e) tokens →
      Derives (.expression .input e') tokens → e = e' := by
  have hwhole {tokens : Input} {e : Expr} :
      whole (parseFuel tokens.length) tokens = .ok (e, []) ↔ Derives (.expression .input e) tokens :=
    whole_eq_ok_iff (by unfold parseFuel; omega)
  refine ⟨fun source e => ?_, fun tokens e hlimit => ?_, fun tokens e e' h h' => ?_⟩
  · unfold parse
    cases scan source with
    | error => simp [bind, Except.bind]
    | ok tokens => simp [bind, Except.bind, parseTokens_eq_ok_iff_whole, hwhole]
  · rw [parseTokens_eq_ok_iff_whole, hwhole, and_iff_right hlimit]
  · have heq := (hwhole.2 h).symm.trans (hwhole.2 h')
    cases heq
    rfl

/-- The tokens of `-a ** -b not in c[:d]`. -/
def signedPowers : Input :=
  [⟨.minus, ⟨0, 1⟩⟩, ⟨.name "a", ⟨1, 2⟩⟩, ⟨.doubleStar, ⟨3, 5⟩⟩, ⟨.minus, ⟨6, 7⟩⟩,
    ⟨.name "b", ⟨7, 8⟩⟩, ⟨.not_, ⟨9, 12⟩⟩, ⟨.in_, ⟨13, 15⟩⟩, ⟨.name "c", ⟨16, 17⟩⟩,
    ⟨.openBracket, ⟨17, 18⟩⟩, ⟨.colon, ⟨18, 19⟩⟩, ⟨.name "d", ⟨19, 20⟩⟩,
    ⟨.closeBracket, ⟨20, 21⟩⟩]

theorem parse_eq_ok_iff_derives_signedPowers : signedPowers.length ≤ tokenLimit ∧
    Derives (.expression .input (.compare
      (.unary .neg (.binary .pow (.name "a") (.unary .neg (.name "b"))))
      [(.notIn, .subscript (.name "c") (.slice none (some (.name "d")) none))])) signedPowers :=
  ⟨by decide, (parse_eq_ok_iff_derives.2.1 _ _ (by decide)).1 rfl⟩

end CallScript.Expression
