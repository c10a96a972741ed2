import CallScript.Proofs.Json.Literals

/-!
# Written trees are read back

A tree with literals in the right places is read back from its compact text (`read_compact`).
-/

namespace CallScript.Json

open Pattern

/-- Trees whose numbers, strings and keys are literals. -/
inductive WellFormed : Json → Prop where
  | null : WellFormed .null
  | bool (value : Bool) : WellFormed (.bool value)
  | number {literal : String} (h : literal.toList ∈ jsonNumber) : WellFormed (.number literal)
  | string {literal : String} (h : literal.toList ∈ jsonString) : WellFormed (.string literal)
  | array {items : List Json} (h : ∀ item ∈ items, WellFormed item) : WellFormed (.array items)
  | object {members : List (String × Json)}
    (hkeys : ∀ member ∈ members, member.1.toList ∈ jsonString)
    (h : ∀ member ∈ members, WellFormed member.2) : WellFormed (.object members)

/-! ## Lengths -/

/-- A tree that puts at least one character before what follows it. -/
def Lengthens (json : Json) : Prop :=
  ∀ rest, rest.length < (json.putCompact rest).length

theorem length_putCompactItems {items : List Json} (h : ∀ item ∈ items, Lengthens item)
    (rest : List Char) : rest.length < (putCompactItems items rest).length := by
  induction items with
  | nil => exact Nat.lt_succ_self _
  | cons item items ih =>
    obtain ⟨hitem, hitems⟩ := List.forall_mem_cons.1 h
    have htail := ih hitems
    have hhead := hitem (putCompactItems items rest)
    rw [putCompactItems, List.length_cons]
    omega

theorem length_putString (literal : String) (rest : List Char) :
    rest.length < (putString literal rest).length := by
  simp only [putString, List.cons_append, List.length_cons, List.length_append]
  omega

theorem length_putCompactMembers {members : List (String × Json)}
    (h : ∀ member ∈ members, Lengthens member.2) (rest : List Char) :
    rest.length < (putCompactMembers members rest).length := by
  induction members with
  | nil => exact Nat.lt_succ_self _
  | cons member members ih =>
    obtain ⟨hmember, hmembers⟩ := List.forall_mem_cons.1 h
    have htail := ih hmembers
    have hvalue := hmember (putCompactMembers members rest)
    have hkey := length_putString member.1
      (':' :: member.2.putCompact (putCompactMembers members rest))
    rw [putCompactMembers]
    simp only [List.length_cons] at hkey ⊢
    omega

theorem WellFormed.lengthens {json : Json} (h : json.WellFormed) : json.Lengthens := by
  intro rest
  induction h generalizing rest with
  | null =>
    simp only [putCompact, List.length_append]
    exact Nat.lt_add_of_pos_left (by decide)
  | bool value =>
    simp only [putCompact, List.length_append]
    exact Nat.lt_add_of_pos_left (by cases value <;> decide)
  | number h =>
    obtain ⟨c, cs, heq, -⟩ := head_jsonNumber h
    rw [putCompact, heq]
    simp
  | string h => exact length_putString _ _
  | @array items _ ih =>
    cases items with
    | nil => simp [putCompact]
    | cons item items =>
      obtain ⟨hitem, hitems⟩ := List.forall_mem_cons.1 ih
      have htail := length_putCompactItems hitems rest
      have hhead := hitem (putCompactItems items rest)
      rw [putCompact, List.length_cons]
      omega
  | @object members _ _ ih =>
    cases members with
    | nil => simp [putCompact]
    | cons member members =>
      obtain ⟨hmember, hmembers⟩ := List.forall_mem_cons.1 ih
      have htail := length_putCompactMembers hmembers rest
      have hvalue := hmember (putCompactMembers members rest)
      have hkey := length_putString member.1
        (':' :: member.2.putCompact (putCompactMembers members rest))
      rw [putCompact]
      simp only [List.length_cons] at hkey ⊢
      omega

/-! ## Reading -/

/-- A tree that is taken off its text, before what cannot continue a number.  A bracket takes two
steps of fuel, one for the tree and one for the list inside of it, and anything else at most one. -/
def ReadsBack (json : Json) : Prop :=
  ∀ fuel rest, Apart isNumeralChar rest → 2 * (json.putCompact rest).length ≤ fuel →
    takeTree? fuel (json.putCompact rest) = some (json, rest)

theorem skipSpace_cons {c : Char} (h : isSpace c = false) (cs : List Char) :
    skipSpace (c :: cs) = c :: cs := by
  simp [skipSpace, h]

theorem apart_putCompactItems (items : List Json) (rest : List Char) :
    Apart isNumeralChar (putCompactItems items rest) := by
  cases items with
  | nil => exact apart_cons (by decide)
  | cons item items => exact apart_cons (by decide)

theorem apart_putCompactMembers (members : List (String × Json)) (rest : List Char) :
    Apart isNumeralChar (putCompactMembers members rest) := by
  cases members with
  | nil => exact apart_cons (by decide)
  | cons member members => exact apart_cons (by decide)

theorem takeItems?_putCompact {item : Json} {items : List Json}
    (h : ∀ json ∈ item :: items, json.WellFormed) (hread : ∀ json ∈ item :: items, json.ReadsBack)
    (fuel : ℕ) (rest : List Char)
    (hfuel : 2 * (item.putCompact (putCompactItems items rest)).length < fuel) :
    takeItems? fuel (item.putCompact (putCompactItems items rest)) =
      some (item :: items, rest) := by
  obtain ⟨fuel, rfl⟩ := Nat.exists_eq_add_one_of_ne_zero (by omega : fuel ≠ 0)
  induction items generalizing item fuel with
  | nil =>
    rw [takeItems?, hread item List.mem_cons_self fuel _ (apart_putCompactItems _ _) (by omega)]
    rfl
  | cons next items ih =>
    -- The item and the comma are at least two characters, so there is fuel left for the tail.
    have hshorter := (h item List.mem_cons_self).lengthens (putCompactItems (next :: items) rest)
    have hlength : (putCompactItems (next :: items) rest).length =
        (next.putCompact (putCompactItems items rest)).length + 1 := rfl
    obtain ⟨fuel, rfl⟩ := Nat.exists_eq_add_one_of_ne_zero (by omega : fuel ≠ 0)
    have htail := ih (fun json hj => h json (List.mem_cons_of_mem _ hj))
      (fun json hj => hread json (List.mem_cons_of_mem _ hj)) fuel (by omega)
    rw [takeItems?, hread item List.mem_cons_self _ _ (apart_putCompactItems _ _) (by omega)]
    simp only [putCompactItems, Option.bind_eq_bind, Option.bind_some]
    rw [skipSpace_cons (by decide)]
    simp [htail]

theorem takeMembers?_last {key : String} {value : Json} {fuel : ℕ} {cs rest : List Char}
    (hkey : key.toList ∈ jsonString) (h : takeTree? fuel cs = some (value, '\x7d' :: rest)) :
    takeMembers? (fuel + 1) (putString key (':' :: cs)) = some ([(key, value)], rest) := by
  rw [takeMembers?, putString, List.cons_append, skipSpace_cons (by decide)]
  simp only [takeString?_append hkey, Option.bind_eq_bind, Option.bind_some]
  rw [skipSpace_cons (by decide)]
  simp only [h, Option.bind_some]
  rw [skipSpace_cons (by decide)]
  simp

theorem takeMembers?_comma {key : String} {value : Json} {members : List (String × Json)} {fuel : ℕ}
    {cs more rest : List Char} (hkey : key.toList ∈ jsonString)
    (h : takeTree? fuel cs = some (value, ',' :: more))
    (hmore : takeMembers? fuel more = some (members, rest)) :
    takeMembers? (fuel + 1) (putString key (':' :: cs)) = some ((key, value) :: members, rest) := by
  rw [takeMembers?, putString, List.cons_append, skipSpace_cons (by decide)]
  simp only [takeString?_append hkey, Option.bind_eq_bind, Option.bind_some]
  rw [skipSpace_cons (by decide)]
  simp only [h, Option.bind_some]
  rw [skipSpace_cons (by decide)]
  simp [hmore]

theorem takeMembers?_putCompact {member : String × Json} {members : List (String × Json)}
    (hkeys : ∀ x ∈ member :: members, x.1.toList ∈ jsonString)
    (h : ∀ x ∈ member :: members, x.2.WellFormed) (hread : ∀ x ∈ member :: members, x.2.ReadsBack)
    (fuel : ℕ) (rest : List Char)
    (hfuel : 2 * (putString member.1
      (':' :: member.2.putCompact (putCompactMembers members rest))).length < fuel) :
    takeMembers? fuel (putString member.1
      (':' :: member.2.putCompact (putCompactMembers members rest))) =
        some (member :: members, rest) := by
  obtain ⟨fuel, rfl⟩ := Nat.exists_eq_add_one_of_ne_zero (by omega : fuel ≠ 0)
  induction members generalizing member fuel with
  | nil =>
    have hshorter := length_putString member.1
      (':' :: member.2.putCompact (putCompactMembers [] rest))
    rw [List.length_cons] at hshorter
    have htake := hread member List.mem_cons_self fuel (putCompactMembers [] rest)
      (apart_putCompactMembers _ _) (by omega)
    exact takeMembers?_last (hkeys member List.mem_cons_self) htake
  | cons next members ih =>
    have hshorter := length_putString member.1
      (':' :: member.2.putCompact (putCompactMembers (next :: members) rest))
    have hvalue := (h member List.mem_cons_self).lengthens
      (putCompactMembers (next :: members) rest)
    have hlength : (putCompactMembers (next :: members) rest).length = (putString next.1
        (':' :: next.2.putCompact (putCompactMembers members rest))).length + 1 := rfl
    rw [List.length_cons] at hshorter
    obtain ⟨fuel, rfl⟩ := Nat.exists_eq_add_one_of_ne_zero (by omega : fuel ≠ 0)
    have htail := ih (fun x hx => hkeys x (List.mem_cons_of_mem _ hx))
      (fun x hx => h x (List.mem_cons_of_mem _ hx))
      (fun x hx => hread x (List.mem_cons_of_mem _ hx)) fuel (by omega)
    have htake := hread member List.mem_cons_self (fuel + 1)
      (putCompactMembers (next :: members) rest) (apart_putCompactMembers _ _) (by omega)
    exact takeMembers?_comma (hkeys member List.mem_cons_self) htake htail

/-- The first character of a number is none of those that are read in another way. -/
theorem ne_of_head_jsonNumber {c d : Char} (hc : (isDigit c || c = '-') = true)
    (hd : (isDigit d || d = '-') = false) : c ≠ d := by
  rintro rfl
  exact absurd hc (by simp [hd])

theorem isSpace_of_head_jsonNumber {c : Char} (hc : (isDigit c || c = '-') = true) :
    isSpace c = false := by
  have hne {d : Char} (hd : (isDigit d || d = '-') = false) : c ≠ d := ne_of_head_jsonNumber hc hd
  simp [isSpace, hne (d := ' ') (by decide), hne (d := '\n') (by decide),
    hne (d := '\t') (by decide), hne (d := '\r') (by decide)]

theorem takeTree?_number {text rest : List Char} (h : text ∈ jsonNumber)
    (hrest : Apart isNumeralChar rest) (fuel : ℕ) :
    takeTree? (fuel + 1) (text ++ rest) = some (.number (String.ofList text), rest) := by
  have htake := takeLiteral?_append h hrest
  obtain ⟨c, cs, rfl, hc⟩ := head_jsonNumber h
  rw [List.cons_append] at htake ⊢
  rw [takeTree?, skipSpace_cons (isSpace_of_head_jsonNumber hc)]
  split
  case h_7 => rw [htake, Option.map_some]
  all_goals
    next heq => exact absurd (List.cons.inj heq).1 (ne_of_head_jsonNumber hc (by decide))

/-- A tree starts with no blank and no closing bracket. -/
theorem WellFormed.head {json : Json} (h : json.WellFormed) (rest : List Char) :
    ∃ c cs, json.putCompact rest = c :: cs ∧ isSpace c = false ∧ c ≠ ']' := by
  cases h with
  | null => exact ⟨_, _, rfl, by decide, by decide⟩
  | bool value => cases value <;> exact ⟨_, _, rfl, by decide, by decide⟩
  | number h =>
    obtain ⟨c, cs, heq, hc⟩ := head_jsonNumber h
    refine ⟨c, cs ++ rest, ?_, isSpace_of_head_jsonNumber hc, ne_of_head_jsonNumber hc (by decide)⟩
    rw [putCompact, heq, List.cons_append]
  | string h => exact ⟨_, _, rfl, by decide, by decide⟩
  | @array items h => cases items <;> exact ⟨_, _, rfl, by decide, by decide⟩
  | @object members hkeys h => cases members <;> exact ⟨_, _, rfl, by decide, by decide⟩

theorem readsBack_of_succ {json : Json} (hlength : json.Lengthens)
    (h : ∀ fuel rest, Apart isNumeralChar rest → 2 * (json.putCompact rest).length ≤ fuel + 1 →
      takeTree? (fuel + 1) (json.putCompact rest) = some (json, rest)) : json.ReadsBack := by
  intro fuel rest hrest hfuel
  have hpos := hlength rest
  obtain ⟨fuel, rfl⟩ := Nat.exists_eq_add_one_of_ne_zero (by omega : fuel ≠ 0)
  exact h fuel rest hrest hfuel

theorem WellFormed.readsBack {json : Json} (h : json.WellFormed) : json.ReadsBack := by
  induction h with
  | null => exact readsBack_of_succ WellFormed.null.lengthens fun _ _ _ _ => rfl
  | bool value =>
    refine readsBack_of_succ (WellFormed.bool value).lengthens fun _ _ _ _ => ?_
    cases value <;> rfl
  | number h =>
    refine readsBack_of_succ (WellFormed.number h).lengthens fun fuel rest hrest _ => ?_
    rw [putCompact, takeTree?_number h hrest, String.ofList_toList]
  | string h =>
    refine readsBack_of_succ (WellFormed.string h).lengthens fun fuel rest _ _ => ?_
    rw [takeTree?, putCompact, putString, List.cons_append, skipSpace_cons (by decide)]
    simp [takeString?_append h]
  | @array items h ih =>
    refine readsBack_of_succ (WellFormed.array h).lengthens fun fuel rest _ hfuel => ?_
    cases items with
    | nil => rfl
    | cons item items =>
      rw [putCompact, List.length_cons] at hfuel
      have hitems := takeItems?_putCompact h ih fuel rest (by omega)
      obtain ⟨c, cs, heq, hspace, hne⟩ :=
        (h item List.mem_cons_self).head (putCompactItems items rest)
      rw [putCompact, takeTree?, skipSpace_cons (by decide)]
      rw [heq] at hitems ⊢
      simp [skipSpace_cons hspace, hne, hitems]
  | @object members hkeys h ih =>
    refine readsBack_of_succ (WellFormed.object hkeys h).lengthens fun fuel rest _ hfuel => ?_
    cases members with
    | nil => rfl
    | cons member members =>
      rw [putCompact, List.length_cons] at hfuel
      have hmembers := takeMembers?_putCompact hkeys h ih fuel rest (by omega)
      rw [putCompact, takeTree?, skipSpace_cons (by decide)]
      rw [putString, List.cons_append] at hmembers ⊢
      simp [skipSpace_cons (c := '\x22') (by decide), hmembers]

/-- A well-formed tree is read back from its compact text. -/
theorem read_compact {json : Json} (h : json.WellFormed) : read json.compact = some json := by
  rw [read, compact, String.toList_ofList]
  have htake := h.readsBack (2 * (json.putCompact []).length + 2) [] (apart_nil _) (by omega)
  simp only [htake]
  rfl

end CallScript.Json
