import CallScript.Program.Json
import CallScript.Proofs.Json.Range
import CallScript.Proofs.Json.Reading

/-!
# Trees that blocks are written as

`Block.WrittenAs` relates a block to the trees it may be written as: `Block.toJson`
(`Block.writtenAs_toJson`), and what becomes of that tree when the tag and the value of arguments
change places and members with other names are added.  A value that stands before its tag is held as
a whole, so members that are added inside of it have to fit; all others may be anything.  With that,
a held value fits as a whole (`Argument.fits_of_isValue`).
-/

namespace CallScript

/-! ## Trees that blocks are written as -/

namespace Json

mutual

/-- How many arrays and objects stand inside each other in a tree. -/
def depth : Json → ℕ
  | .array items => itemsDepth items + 1
  | .object members => membersDepth members + 1
  | _ => 0

/-- How many arrays and objects stand inside each other in the trees of a list. -/
def itemsDepth : List Json → ℕ
  | [] => 0
  | item :: items => max item.depth (itemsDepth items)

/-- How many arrays and objects stand inside each other in the values of members. -/
def membersDepth : List (String × Json) → ℕ
  | [] => 0
  | (_, value) :: members => max value.depth (membersDepth members)

end

/-- An object with the given fields in their order, among members with other names.  The values of
these others have to fit `depth` if the object is part of a held value. -/
def Holds (depth : ℕ) (held : Bool) (fields : List (String × Json)) (json : Json) : Prop :=
  ∃ members named, json = .object members ∧ named? members = some named ∧
    named.filter (fun member => member.1 ∈ fields.map Prod.fst) = fields ∧
    (held = true → ∀ member ∈ named, member.1 ∉ fields.map Prod.fst → member.2.fits depth = true)

end Json

/-- An object with the tag of a kind and a value, which is held if it stands first. -/
def Argument.Tagged (depth : ℕ) (held : Bool) (kind : Argument.Kind) (IsValue : Bool → Json → Prop)
    (json : Json) : Prop :=
  ∃ value,
    IsValue held value ∧ json.Holds depth held [("type", .string kind.word), ("val", value)] ∨
    IsValue true value ∧ json.Holds depth held [("val", value), ("type", .string kind.word)]

mutual

/-- The trees that may stand as the value of an argument, where trees may be nested `depth` deep. -/
def Argument.IsValue (depth : ℕ) (held : Bool) : Argument → Json → Prop
  | .number x, value => value = .ofFloat x
  | .string text, value => value = .ofString text
  | .name name, value => value = .ofString name
  | .call c, value => c.WrittenAs depth held value
  | .block b, value => b.WrittenAs depth held value

/-- The lists of trees that arguments may be written as. -/
def Argument.ListWrittenAs (depth : ℕ) (held : Bool) : List Argument → List Json → Prop
  | [], items => items = []
  | argument :: arguments, items => ∃ first rest, items = first :: rest ∧
    Argument.Tagged (depth - 1) held argument.kind
      (fun held => argument.IsValue (depth - 1) held) first ∧
    Argument.ListWrittenAs depth held arguments rest

/-- The trees that a call may be written as. -/
def Call.WrittenAs (depth : ℕ) (held : Bool) : Call → Json → Prop
  | ⟨name, arguments⟩, json => ∃ items,
    json.Holds (depth - 1) held [("name", .ofString name), ("params", .array items)] ∧
      Argument.ListWrittenAs (depth - 2) held arguments items

/-- The lists of trees that calls may be written as. -/
def Call.ListWrittenAs (depth : ℕ) (held : Bool) : List Call → List Json → Prop
  | [], items => items = []
  | call :: calls, items => ∃ first rest, items = first :: rest ∧
    call.WrittenAs depth held first ∧ Call.ListWrittenAs depth held calls rest

/-- The trees that a block may be written as. -/
def Block.WrittenAs (depth : ℕ) (held : Bool) : Block → Json → Prop
  | ⟨calls⟩, json => ∃ items, json.Holds (depth - 1) held [("calls", .array items)] ∧
    Call.ListWrittenAs (depth - 2) held calls items

end

/-! ## Objects and their fields -/

namespace Json

/-- Looking up a key among the members that have one of some keys is looking it up among all. -/
theorem only?_eq_of_filter {named fields : List (String × Json)} {keys : List String} {key : String}
    (h : named.filter (fun member => member.1 ∈ keys) = fields) (hkey : key ∈ keys) :
    only? key named = only? key fields := by
  have hand (member : String × Json) :
      (decide (member.1 = key) && decide (member.1 ∈ keys)) = decide (member.1 = key) := by
    rw [Bool.and_eq_left_iff_imp]
    intro heq
    rw [of_decide_eq_true heq]
    exact decide_eq_true hkey
  rw [only?, only?, ← h, List.filter_filter]
  simp only [hand]

theorem only?_eq_of_filter_two {named : List (String × Json)} {key₁ key₂ : String}
    {value₁ value₂ : Json} (hne : key₁ ≠ key₂)
    (h : named.filter (fun member => member.1 ∈ [key₁, key₂]) = [(key₁, value₁), (key₂, value₂)]) :
    only? key₁ named = some value₁ ∧ only? key₂ named = some value₂ := by
  rw [only?_eq_of_filter h (by simp), only?_eq_of_filter h (by simp)]
  simp [only?, hne, hne.symm]

/-- The first of two fields in an object is the one that is found first. -/
theorem find?_eq_of_filter_two {named : List (String × Json)} {key₁ key₂ : String}
    {value₁ value₂ : Json} {p : String × Json → Bool}
    (hp : ∀ member, p member = decide (member.1 ∈ [key₁, key₂]))
    (h : named.filter (fun member => member.1 ∈ [key₁, key₂]) = [(key₁, value₁), (key₂, value₂)]) :
    named.find? p = some (key₁, value₁) := by
  rw [← List.head?_filter, funext hp, h, List.head?_cons]

section

variable {depth : ℕ} {held : Bool} {fields : List (String × Json)} {json : Json}

theorem membersFit_of_named? {members named : List (String × Json)}
    (h : named? members = some named) (hfit : ∀ member ∈ named, member.2.fits depth = true) :
    membersFit depth members = true := by
  induction members generalizing named with
  | nil => rfl
  | cons member members ih =>
    simp only [named?, List.mapM_cons, Option.bind_eq_bind, Option.bind_eq_some_iff,
      Option.map_eq_some_iff] at h
    obtain ⟨_, ⟨key, hkey, rfl⟩, more, hmore, heq⟩ := h
    cases heq
    obtain ⟨hvalue, hmembers⟩ := List.forall_mem_cons.1 hfit
    simp [membersFit, hkey, hvalue, ih hmore hmembers]

/-- An object in a held value fits if its fields do. -/
theorem Holds.fits (h : json.Holds depth true fields)
    (hfields : ∀ field ∈ fields, field.2.fits depth = true) : json.fits (depth + 1) = true := by
  obtain ⟨members, named, rfl, hnamed, hfilter, hothers⟩ := h
  rw [Json.fits]
  refine membersFit_of_named? hnamed fun member hmember => ?_
  by_cases hkey : member.1 ∈ fields.map Prod.fst
  · refine hfields member ?_
    rw [← hfilter, List.mem_filter]
    exact ⟨hmember, decide_eq_true hkey⟩
  · exact hothers rfl member hmember hkey

/-- A reader finds the value of the only field. -/
theorem Holds.fields?_one {key : String} {value : Json} (h : json.Holds depth held [(key, value)]) :
    json.fields? [key] = some [value] := by
  obtain ⟨members, named, rfl, hnamed, hfilter, -⟩ := h
  have hfirst : only? key named = some value := by
    rw [only?_eq_of_filter hfilter (by simp)]
    simp [only?]
  rw [fields?, hnamed]
  simp [hfirst]

/-- A reader finds the values of two fields. -/
theorem Holds.fields?_two {key₁ key₂ : String} {value₁ value₂ : Json} (hne : key₁ ≠ key₂)
    (h : json.Holds depth held [(key₁, value₁), (key₂, value₂)]) :
    json.fields? [key₁, key₂] = some [value₁, value₂] := by
  obtain ⟨members, named, rfl, hnamed, hfilter, -⟩ := h
  obtain ⟨hfirst, hsecond⟩ := only?_eq_of_filter_two hne hfilter
  rw [fields?, hnamed]
  simp [hfirst, hsecond]

end

end Json

namespace Argument

theorem ofWord?_word (kind : Kind) : Kind.ofWord? kind.word = some kind := by
  cases kind <;> decide +kernel

section

variable {depth : ℕ} {held : Bool} {kind : Kind} {IsValue : Bool → Json → Prop} {json : Json}

/-- A reader finds the kind and the value of a tagged object, and whether the value stands first. -/
theorem Tagged.parts? (h : Tagged depth held kind IsValue json) :
    ∃ value early, IsValue (held || early) value ∧
      Argument.parts? depth held json = some (kind, value, early) := by
  obtain ⟨value, ⟨hvalue, members, named, rfl, hnamed, hfilter, -⟩ |
    ⟨hvalue, members, named, rfl, hnamed, hfilter, -⟩⟩ := h
  · refine ⟨value, false, by simpa using hvalue, ?_⟩
    obtain ⟨htype, hval⟩ := Json.only?_eq_of_filter_two (by simp) hfilter
    have hfirst : named.find? (fun member => member.1 = "type" || member.1 = "val") =
        some ("type", .string kind.word) := Json.find?_eq_of_filter_two (by simp) hfilter
    simp [Argument.parts?, hnamed, htype, hval, hfirst, Kind.ofTag?, ofWord?_word]
  · refine ⟨value, true, by simpa using hvalue, ?_⟩
    obtain ⟨hval, htype⟩ := Json.only?_eq_of_filter_two (by simp) hfilter
    have hfirst : named.find? (fun member => member.1 = "type" || member.1 = "val") =
        some ("val", value) := Json.find?_eq_of_filter_two (by simp [or_comm]) hfilter
    simp [Argument.parts?, hnamed, htype, hval, hfirst, Kind.ofTag?, ofWord?_word]

/-- A tagged object in a held value fits if its value does. -/
theorem Tagged.fits (h : Tagged depth true kind IsValue json)
    (hvalue : ∀ value, IsValue true value → value.fits depth = true) :
    json.fits (depth + 1) = true := by
  have hword : (Json.string kind.word).fits depth = true := by
    rw [Json.fits]
    cases kind <;> decide +kernel
  obtain ⟨value, ⟨hv, hholds⟩ | ⟨hv, hholds⟩⟩ := h
  · exact hholds.fits (by simp [hword, hvalue value hv])
  · exact hholds.fits (by simp [hword, hvalue value hv])

end

end Argument

/-! ## Held values fit -/

namespace Json

theorem fits_ofString (depth : ℕ) (text : String) : (ofString text).fits depth = true := by
  rw [ofString, fits, decode?_flatMap_stringChar]
  rfl

theorem ofFloat_of_isFinite {x : Float} (h : x.isFinite = true) :
    ofFloat x = .number (jsonText x) := by
  obtain ⟨negative, m, e, hbits⟩ := Binary.isFinite_iff.1 h
  rw [ofFloat, hbits]

theorem ofFloat_of_not_isFinite {x : Float} (h : x.isFinite = false) : ofFloat x = .null := by
  unfold ofFloat
  split
  · next negative m e hbits =>
    exact absurd (Binary.isFinite_iff.2 ⟨negative, m, e, hbits⟩) (by simp [h])
  · rfl

theorem fits_ofFloat (depth : ℕ) (x : Float) : (ofFloat x).fits depth = true := by
  cases h : x.isFinite
  · rw [ofFloat_of_not_isFinite h, fits]
    all_goals exact nofun
  · rw [ofFloat_of_isFinite h, fits]
    exact (isSome_literalValue_jsonText h).2

end Json

@[simp] theorem Argument.depth_tagged (kind : Argument.Kind) (value : Json) :
    (Argument.tagged kind value).depth = value.depth + 1 := by
  simp [Argument.tagged, Json.depth, Json.membersDepth]

/-- The tree of an argument is an object. -/
theorem Argument.exists_depth_eq (argument : Argument) {depth : ℕ}
    (h : argument.toJson.depth ≤ depth) : ∃ k, depth = k + 1 := by
  refine ⟨depth - 1, ?_⟩
  cases argument <;> rw [Argument.toJson, Argument.depth_tagged] at h <;> omega

@[simp] theorem Call.depth_toJson (name : String) (arguments : List Argument) :
    (Call.toJson ⟨name, arguments⟩).depth =
      Json.itemsDepth (Argument.listToJson arguments) + 2 := by
  simp [Call.toJson, Json.ofString, Json.depth, Json.membersDepth]

@[simp] theorem Block.depth_toJson (calls : List Call) :
    (Block.toJson ⟨calls⟩).depth = Json.itemsDepth (Call.listToJson calls) + 2 := by
  simp [Block.toJson, Json.depth, Json.membersDepth]

mutual

/-- The value of an argument fits where it is held. -/
theorem Argument.fits_of_isValue : ∀ (argument : Argument) {depth : ℕ} {value : Json},
    argument.IsValue depth true value → argument.toJson.depth ≤ depth + 1 → value.fits depth = true
  | .number x, depth, value, h, _ => by
    rw [Argument.IsValue] at h
    rw [h, Json.fits_ofFloat]
  | .string text, depth, value, h, _ => by
    rw [Argument.IsValue] at h
    rw [h, Json.fits_ofString]
  | .name name, depth, value, h, _ => by
    rw [Argument.IsValue] at h
    rw [h, Json.fits_ofString]
  | .call c, depth, value, h, hdepth => by
    rw [Argument.toJson, Argument.depth_tagged] at hdepth
    exact Call.fits_of_writtenAs c h (by omega)
  | .block b, depth, value, h, hdepth => by
    rw [Argument.toJson, Argument.depth_tagged] at hdepth
    exact Block.fits_of_writtenAs b h (by omega)

theorem Argument.listFits_of_writtenAs : ∀ (arguments : List Argument) {depth : ℕ}
    {items : List Json}, Argument.ListWrittenAs depth true arguments items →
      Json.itemsDepth (Argument.listToJson arguments) ≤ depth → Json.itemsFit depth items = true
  | [], depth, items, h, hdepth => by
    rw [Argument.ListWrittenAs] at h
    rw [h, Json.itemsFit]
  | argument :: arguments, depth, items, h, hdepth => by
    obtain ⟨first, rest, rfl, hfirst, hrest⟩ := h
    obtain ⟨hargument, harguments⟩ := max_le_iff.1 hdepth
    obtain ⟨depth, rfl⟩ := argument.exists_depth_eq hargument
    have hfits : first.fits (depth + 1) = true :=
      hfirst.fits fun value hvalue => Argument.fits_of_isValue argument hvalue hargument
    rw [Json.itemsFit, hfits, Argument.listFits_of_writtenAs arguments hrest harguments,
      Bool.and_self]

theorem Call.fits_of_writtenAs : ∀ (call : Call) {depth : ℕ} {json : Json},
    call.WrittenAs depth true json → call.toJson.depth ≤ depth → json.fits depth = true
  | ⟨name, arguments⟩, depth, json, h, hdepth => by
    rw [Call.depth_toJson] at hdepth
    obtain ⟨depth, rfl⟩ : ∃ k, depth = k + 2 := ⟨depth - 2, by omega⟩
    obtain ⟨items, hholds, hitems⟩ := h
    have harray : (Json.array items).fits (depth + 1) = true :=
      Argument.listFits_of_writtenAs arguments hitems (by omega)
    exact hholds.fits (by simp [Json.fits_ofString, harray])

theorem Call.listFits_of_writtenAs : ∀ (calls : List Call) {depth : ℕ} {items : List Json},
    Call.ListWrittenAs depth true calls items →
      Json.itemsDepth (Call.listToJson calls) ≤ depth → Json.itemsFit depth items = true
  | [], depth, items, h, hdepth => by
    rw [Call.ListWrittenAs] at h
    rw [h, Json.itemsFit]
  | call :: calls, depth, items, h, hdepth => by
    obtain ⟨first, rest, rfl, hfirst, hrest⟩ := h
    obtain ⟨hcall, hcalls⟩ := max_le_iff.1 hdepth
    rw [Json.itemsFit, Call.fits_of_writtenAs call hfirst hcall,
      Call.listFits_of_writtenAs calls hrest hcalls, Bool.and_self]

theorem Block.fits_of_writtenAs : ∀ (block : Block) {depth : ℕ} {json : Json},
    block.WrittenAs depth true json → block.toJson.depth ≤ depth → json.fits depth = true
  | ⟨calls⟩, depth, json, h, hdepth => by
    rw [Block.depth_toJson] at hdepth
    obtain ⟨depth, rfl⟩ : ∃ k, depth = k + 2 := ⟨depth - 2, by omega⟩
    obtain ⟨items, hholds, hitems⟩ := h
    have harray : (Json.array items).fits (depth + 1) = true :=
      Call.listFits_of_writtenAs calls hitems (by omega)
    exact hholds.fits (by simp [harray])

end

/-! ## What is written for a block -/

namespace Json

/-- A text that is written as it is. -/
def IsPlain (text : String) : Prop :=
  text.toList.flatMap stringChar = text.toList

instance (text : String) : Decidable (IsPlain text) :=
  inferInstanceAs (Decidable (_ = _))

theorem IsPlain.decode? {text : String} (h : IsPlain text) : Json.decode? text = some text := by
  have hdecode := decode?_flatMap_stringChar text
  rwa [h, String.ofList_toList] at hdecode

theorem IsPlain.mem {text : String} (h : IsPlain text) : text.toList ∈ Pattern.jsonString :=
  h ▸ flatMap_stringChar_mem text.toList

theorem IsPlain.ofString {text : String} (h : IsPlain text) :
    Json.ofString text = .string text := by
  rw [Json.ofString, h, String.ofList_toList]

theorem named?_eq_self {members : List (String × Json)}
    (h : ∀ key ∈ members.map Prod.fst, IsPlain key) : named? members = some members := by
  induction members with
  | nil => rfl
  | cons member members ih =>
    obtain ⟨hkey, hkeys⟩ := List.forall_mem_cons.1 h
    have hmore := ih hkeys
    rw [named?] at hmore ⊢
    rw [List.mapM_cons, hmore]
    simp [hkey.decode?]

theorem holds_of_isPlain {depth : ℕ} {held : Bool} {members fields : List (String × Json)}
    (h : ∀ key ∈ members.map Prod.fst, IsPlain key)
    (hfields : members.filter (fun member => member.1 ∈ fields.map Prod.fst) = fields)
    (hothers : held = true → ∀ member ∈ members, member.1 ∉ fields.map Prod.fst →
      member.2.fits depth = true) : (Json.object members).Holds depth held fields :=
  ⟨members, members, rfl, named?_eq_self h, hfields, hothers⟩

/-- An object without other members. -/
theorem holds_object {fields : List (String × Json)} (h : ∀ key ∈ fields.map Prod.fst, IsPlain key)
    (depth : ℕ) (held : Bool) : (Json.object fields).Holds depth held fields := by
  refine holds_of_isPlain h ?_ fun _ member hmember hkey => ?_
  · rw [List.filter_eq_self]
    exact fun member hmember => decide_eq_true (List.mem_map_of_mem hmember)
  · exact absurd (List.mem_map_of_mem hmember) hkey

theorem wellFormed_object_nil : (Json.object []).WellFormed :=
  .object (by simp) (by simp)

theorem wellFormed_object_cons {key : String} {value : Json} {members : List (String × Json)}
    (hkey : IsPlain key) (hvalue : value.WellFormed)
    (h : (Json.object members).WellFormed) :
    (Json.object ((key, value) :: members)).WellFormed := by
  cases h with
  | object hkeys h =>
    exact .object (List.forall_mem_cons.2 ⟨hkey.mem, hkeys⟩)
      (List.forall_mem_cons.2 ⟨hvalue, h⟩)

theorem wellFormed_ofString (text : String) : (ofString text).WellFormed := by
  refine .string ?_
  rw [String.toList_ofList]
  exact flatMap_stringChar_mem _

theorem wellFormed_ofFloat (x : Float) : (ofFloat x).WellFormed := by
  cases h : x.isFinite
  · rw [ofFloat_of_not_isFinite h]
    exact .null
  · rw [ofFloat_of_isFinite h]
    exact .number (isSome_literalValue_jsonText h).1

end Json

namespace Argument

theorem tagged_self {depth : ℕ} {held : Bool} {kind : Kind} {IsValue : Bool → Json → Prop}
    {value : Json} (h : IsValue held value) :
    Tagged depth held kind IsValue (tagged kind value) := by
  have hkeys : ∀ key ∈ ["type", "val"], Json.IsPlain key := by decide +kernel
  refine ⟨value, .inl ⟨h, Json.holds_object ?_ depth held⟩⟩
  exact hkeys

theorem wellFormed_tagged (kind : Kind) {value : Json} (h : value.WellFormed) :
    (tagged kind value).WellFormed := by
  have hword : Json.IsPlain kind.word := by cases kind <;> decide +kernel
  exact Json.wellFormed_object_cons (by decide +kernel) (.string hword.mem)
    (Json.wellFormed_object_cons (by decide +kernel) h Json.wellFormed_object_nil)

end Argument

mutual

/-- Blocks are written as trees that they may be written as. -/
theorem Block.writtenAs_toJson : ∀ (block : Block) (depth : ℕ) (held : Bool),
    block.WrittenAs depth held block.toJson
  | ⟨calls⟩, depth, held => by
    have hkeys : ∀ key ∈ ["calls"], Json.IsPlain key := by decide +kernel
    refine ⟨_, Json.holds_object ?_ _ _, Call.listWrittenAs_listToJson calls _ held⟩
    exact hkeys

theorem Call.listWrittenAs_listToJson : ∀ (calls : List Call) (depth : ℕ) (held : Bool),
    Call.ListWrittenAs depth held calls (Call.listToJson calls)
  | [], _, _ => rfl
  | call :: calls, depth, held =>
    ⟨_, _, rfl, call.writtenAs_toJson depth held, Call.listWrittenAs_listToJson calls depth held⟩

theorem Call.writtenAs_toJson : ∀ (call : Call) (depth : ℕ) (held : Bool),
    call.WrittenAs depth held call.toJson
  | ⟨name, arguments⟩, depth, held => by
    have hkeys : ∀ key ∈ ["name", "params"], Json.IsPlain key := by decide +kernel
    refine ⟨_, Json.holds_object ?_ _ _, Argument.listWrittenAs_listToJson arguments _ held⟩
    exact hkeys

theorem Argument.listWrittenAs_listToJson : ∀ (arguments : List Argument) (depth : ℕ) (held : Bool),
    Argument.ListWrittenAs depth held arguments (Argument.listToJson arguments)
  | [], _, _ => rfl
  | argument :: arguments, depth, held =>
    ⟨_, _, rfl, argument.tagged_toJson (depth - 1) held,
      Argument.listWrittenAs_listToJson arguments depth held⟩

theorem Argument.tagged_toJson : ∀ (argument : Argument) (depth : ℕ) (held : Bool),
    Argument.Tagged depth held argument.kind (fun held => argument.IsValue depth held)
      argument.toJson
  | .number _, _, _ => Argument.tagged_self rfl
  | .string _, _, _ => Argument.tagged_self rfl
  | .name _, _, _ => Argument.tagged_self rfl
  | .call c, depth, held => Argument.tagged_self (c.writtenAs_toJson depth held)
  | .block b, depth, held => Argument.tagged_self (b.writtenAs_toJson depth held)

end

mutual

theorem Block.wellFormed_toJson : ∀ block : Block, block.toJson.WellFormed
  | ⟨calls⟩ => Json.wellFormed_object_cons (by decide +kernel)
    (.array (Call.listWellFormed_toJson calls)) Json.wellFormed_object_nil

theorem Call.listWellFormed_toJson : ∀ calls : List Call,
    ∀ item ∈ Call.listToJson calls, item.WellFormed
  | [] => nofun
  | call :: calls =>
    List.forall_mem_cons.2 ⟨call.wellFormed_toJson, Call.listWellFormed_toJson calls⟩

theorem Call.wellFormed_toJson : ∀ call : Call, call.toJson.WellFormed
  | ⟨name, arguments⟩ => Json.wellFormed_object_cons (by decide +kernel)
    (Json.wellFormed_ofString name) (Json.wellFormed_object_cons (by decide +kernel)
      (.array (Argument.listWellFormed_toJson arguments)) Json.wellFormed_object_nil)

theorem Argument.listWellFormed_toJson : ∀ arguments : List Argument,
    ∀ item ∈ Argument.listToJson arguments, item.WellFormed
  | [] => nofun
  | argument :: arguments =>
    List.forall_mem_cons.2 ⟨argument.wellFormed_toJson, Argument.listWellFormed_toJson arguments⟩

theorem Argument.wellFormed_toJson : ∀ argument : Argument, argument.toJson.WellFormed
  | .number x => Argument.wellFormed_tagged .number (Json.wellFormed_ofFloat x)
  | .string text => Argument.wellFormed_tagged .string (Json.wellFormed_ofString text)
  | .name name => Argument.wellFormed_tagged .name (Json.wellFormed_ofString name)
  | .call c => Argument.wellFormed_tagged .call c.wellFormed_toJson
  | .block b => Argument.wellFormed_tagged .block b.wellFormed_toJson

end

end CallScript
