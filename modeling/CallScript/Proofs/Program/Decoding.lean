import CallScript.Proofs.Program.Rendering
import CallScript.Proofs.Program.Written

/-!
# Blocks are read back from JSON

A block is read back from the text of every tree it may be written as if its numbers are finite,
with every number as the reader takes its text, and nothing is read back otherwise
(`Block.read?_of_writtenAs`).
-/

namespace CallScript

/-! ## Numbers as they are read -/

namespace Json

/-- The double that is read for the text of a double. -/
def reread (x : Float) : Float :=
  (literalValue (jsonText x)).getD x

theorem literalValue_jsonText {x : Float} (h : x.isFinite = true) :
    literalValue (jsonText x) = some (reread x) := by
  obtain ⟨y, hy⟩ := Option.isSome_iff_exists.1 (isSome_literalValue_jsonText h).2
  rw [reread, hy, Option.getD_some]

end Json

mutual

/-- An argument with each number replaced. -/
def Argument.mapNumbers (f : Float → Float) : Argument → Argument
  | .number x => .number (f x)
  | .string text => .string text
  | .name name => .name name
  | .call c => .call (c.mapNumbers f)
  | .block b => .block (b.mapNumbers f)

/-- Arguments with each number replaced. -/
def Argument.listMapNumbers (f : Float → Float) : List Argument → List Argument
  | [] => []
  | argument :: arguments => argument.mapNumbers f :: Argument.listMapNumbers f arguments

/-- A call with each number replaced. -/
def Call.mapNumbers (f : Float → Float) : Call → Call
  | ⟨name, arguments⟩ => ⟨name, Argument.listMapNumbers f arguments⟩

/-- Calls with each number replaced. -/
def Call.listMapNumbers (f : Float → Float) : List Call → List Call
  | [] => []
  | call :: calls => call.mapNumbers f :: Call.listMapNumbers f calls

/-- A block with each number replaced. -/
def Block.mapNumbers (f : Float → Float) : Block → Block
  | ⟨calls⟩ => ⟨Call.listMapNumbers f calls⟩

end

mutual

/-- Replacing numbers by themselves changes nothing. -/
theorem Argument.mapNumbers_eq_self {f : Float → Float} : ∀ argument : Argument,
    (∀ x ∈ argument.numbers, f x = x) → argument.mapNumbers f = argument
  | .number x, h => by rw [Argument.mapNumbers, h x (by simp [Argument.numbers])]
  | .string _, _ => rfl
  | .name _, _ => rfl
  | .call c, h => congrArg Argument.call (c.mapNumbers_eq_self h)
  | .block b, h => congrArg Argument.block (b.mapNumbers_eq_self h)

theorem Argument.listMapNumbers_eq_self {f : Float → Float} : ∀ arguments : List Argument,
    (∀ x ∈ Argument.listNumbers arguments, f x = x) →
      Argument.listMapNumbers f arguments = arguments
  | [], _ => rfl
  | argument :: arguments, h => by
    rw [Argument.listNumbers, List.forall_mem_append] at h
    rw [Argument.listMapNumbers, argument.mapNumbers_eq_self h.1,
      Argument.listMapNumbers_eq_self arguments h.2]

theorem Call.mapNumbers_eq_self {f : Float → Float} : ∀ call : Call,
    (∀ x ∈ call.numbers, f x = x) → call.mapNumbers f = call
  | ⟨name, arguments⟩, h => congrArg (Call.mk name) (Argument.listMapNumbers_eq_self arguments h)

theorem Call.listMapNumbers_eq_self {f : Float → Float} : ∀ calls : List Call,
    (∀ x ∈ Call.listNumbers calls, f x = x) → Call.listMapNumbers f calls = calls
  | [], _ => rfl
  | call :: calls, h => by
    rw [Call.listNumbers, List.forall_mem_append] at h
    rw [Call.listMapNumbers, call.mapNumbers_eq_self h.1, Call.listMapNumbers_eq_self calls h.2]

theorem Block.mapNumbers_eq_self {f : Float → Float} : ∀ block : Block,
    (∀ x ∈ block.numbers, f x = x) → block.mapNumbers f = block
  | ⟨calls⟩, h => congrArg Block.mk (Call.listMapNumbers_eq_self calls h)

end

/-! ## Reading trees -/

namespace Argument

/-- The argument of a kind that a value stands for. -/
def ofValue? (depth : ℕ) (held : Bool) (kind : Kind) (value : Json) : Option Argument := do
  match kind, value with
  | .number, .number literal => return .number (← Json.literalValue literal)
  | .string, .string literal => return .string (← Json.decode? literal)
  | .name, .string literal => return .name (← Json.decode? literal)
  | .call, value => return .call (← Call.ofJson? depth held value)
  | .block, value => return .block (← Block.ofJsonWithin? depth held value)
  | _, _ => none

/-- A tagged object is read as what its value stands for. -/
theorem Tagged.ofJson? {depth : ℕ} {held : Bool} {kind : Kind} {IsValue : Bool → Json → Prop}
    {json : Json} (h : Tagged depth held kind IsValue json)
    (hfits : ∀ value, IsValue true value → value.fits depth = true) :
    ∃ value held', IsValue held' value ∧
      Argument.ofJson? (depth + 1) held json = ofValue? depth held' kind value := by
  obtain ⟨value, early, hvalue, hparts⟩ := h.parts?
  have hguard : (!early || value.fits depth) = true := by
    cases early
    · rfl
    · exact hfits value (by simpa using hvalue)
  refine ⟨value, held || early, hvalue, ?_⟩
  rw [Argument.ofJson?, hparts]
  simp only [Option.bind_eq_bind, Option.bind_some, hguard, guard_true]
  rfl

end Argument

/-- What reading gives for something with the given numbers: what is expected if they are finite,
and nothing otherwise. -/
def ifFinite {α : Type} (numbers : List Float) (expected : α) : Option α :=
  if numbers.all Float.isFinite then some expected else none

theorem ifFinite_of_forall {α : Type} {numbers : List Float} (h : ∀ x ∈ numbers, x.isFinite = true)
    (expected : α) : ifFinite numbers expected = some expected :=
  if_pos (List.all_eq_true.2 h)

theorem exists_ifFinite_iff {α : Type} {numbers : List Float} {expected : α} :
    (∃ a, ifFinite numbers expected = some a) ↔ ∀ x ∈ numbers, x.isFinite = true := by
  refine ⟨?_, fun h => ⟨expected, ifFinite_of_forall h expected⟩⟩
  rintro ⟨a, ha⟩
  by_contra hall
  rw [ifFinite, if_neg (mt List.all_eq_true.1 hall)] at ha
  cases ha

theorem ifFinite_bind {α β : Type} (numbers : List Float) (a : α) (f : α → β) :
    (ifFinite numbers a).bind (fun a => some (f a)) = ifFinite numbers (f a) := by
  unfold ifFinite
  cases numbers.all Float.isFinite <;> rfl

theorem ifFinite_cons {α : Type} (numbers more : List Float) (a : α) (as : List α) :
    ((ifFinite numbers a).bind fun a => (ifFinite more as).bind fun as => some (a :: as)) =
      ifFinite (numbers ++ more) (a :: as) := by
  unfold ifFinite
  rw [List.all_append]
  cases numbers.all Float.isFinite <;> cases more.all Float.isFinite <;> rfl

mutual

/-- The value of an argument is read as the argument, its numbers as their texts are read.  How much
of the tree is held changes nothing, since what is held fits. -/
theorem Argument.ofValue?_eq : ∀ (argument : Argument) {depth : ℕ} {held : Bool} {value : Json},
    argument.IsValue depth held value → argument.toJson.depth ≤ depth + 1 →
      Argument.ofValue? depth held argument.kind value =
        ifFinite argument.numbers (argument.mapNumbers Json.reread)
  | .number x, depth, held, value, h, _ => by
    rw [Argument.IsValue] at h
    rw [h, Argument.numbers, Argument.mapNumbers]
    cases hx : x.isFinite
    · rw [Json.ofFloat_of_not_isFinite hx]
      simp [Argument.ofValue?, Argument.kind, ifFinite, hx]
    · rw [Json.ofFloat_of_isFinite hx]
      simp [Argument.ofValue?, Argument.kind, ifFinite, Json.literalValue_jsonText hx, hx]
  | .string text, depth, held, value, h, _ => by
    rw [Argument.IsValue] at h
    rw [h, Json.ofString]
    simp [Argument.ofValue?, Argument.kind, Json.decode?_flatMap_stringChar, Argument.numbers,
      Argument.mapNumbers, ifFinite]
  | .name name, depth, held, value, h, _ => by
    rw [Argument.IsValue] at h
    rw [h, Json.ofString]
    simp [Argument.ofValue?, Argument.kind, Json.decode?_flatMap_stringChar, Argument.numbers,
      Argument.mapNumbers, ifFinite]
  | .call c, depth, held, value, h, hdepth => by
    rw [Argument.toJson, Argument.depth_tagged] at hdepth
    have hc := Call.ofJson?_eq c h (by omega)
    simp only [Argument.ofValue?, Argument.kind, hc, Argument.numbers, Argument.mapNumbers]
    exact ifFinite_bind ..
  | .block b, depth, held, value, h, hdepth => by
    rw [Argument.toJson, Argument.depth_tagged] at hdepth
    have hb := Block.ofJsonWithin?_eq b h (by omega)
    simp only [Argument.ofValue?, Argument.kind, hb, Argument.numbers, Argument.mapNumbers]
    exact ifFinite_bind ..

theorem Argument.mapM_ofJson?_eq : ∀ (arguments : List Argument) {depth : ℕ} {held : Bool}
    {items : List Json}, Argument.ListWrittenAs depth held arguments items →
      Json.itemsDepth (Argument.listToJson arguments) ≤ depth →
      items.mapM (Argument.ofJson? depth held) = ifFinite (Argument.listNumbers arguments)
        (Argument.listMapNumbers Json.reread arguments)
  | [], depth, held, items, h, hdepth => by
    rw [Argument.ListWrittenAs] at h
    rw [h]
    rfl
  | argument :: arguments, depth, held, items, h, hdepth => by
    obtain ⟨first, rest, rfl, hfirst, hrest⟩ := h
    obtain ⟨hargument, harguments⟩ := max_le_iff.1 hdepth
    have hmore := Argument.mapM_ofJson?_eq arguments hrest harguments
    obtain ⟨depth, rfl⟩ := argument.exists_depth_eq hargument
    -- A value before its tag is read only if it fits, which it does by what may be added to it.
    obtain ⟨value, held', hvalue, heq⟩ := hfirst.ofJson? fun value hvalue =>
      Argument.fits_of_isValue argument hvalue hargument
    have hone : Argument.ofJson? (depth + 1) held first = _ :=
      heq.trans (Argument.ofValue?_eq argument hvalue hargument)
    rw [List.mapM_cons, hone, hmore]
    exact ifFinite_cons ..

theorem Call.ofJson?_eq : ∀ (call : Call) {depth : ℕ} {held : Bool} {json : Json},
    call.WrittenAs depth held json → call.toJson.depth ≤ depth →
      Call.ofJson? depth held json = ifFinite call.numbers (call.mapNumbers Json.reread)
  | ⟨name, arguments⟩, depth, held, json, h, hdepth => by
    rw [Call.depth_toJson] at hdepth
    obtain ⟨depth, rfl⟩ : ∃ k, depth = k + 2 := ⟨depth - 2, by omega⟩
    obtain ⟨items, hholds, hitems⟩ := h
    have harguments : items.mapM (Argument.ofJson? depth held) = _ :=
      Argument.mapM_ofJson?_eq arguments hitems (by omega)
    rw [Call.ofJson?, hholds.fields?_two (by decide), Json.ofString]
    simp only [Option.bind_eq_bind, Option.bind_some, Json.decode?_flatMap_stringChar, harguments]
    exact ifFinite_bind ..

theorem Call.mapM_ofJson?_eq : ∀ (calls : List Call) {depth : ℕ} {held : Bool}
    {items : List Json}, Call.ListWrittenAs depth held calls items →
      Json.itemsDepth (Call.listToJson calls) ≤ depth →
      items.mapM (Call.ofJson? depth held) = ifFinite (Call.listNumbers calls)
        (Call.listMapNumbers Json.reread calls)
  | [], depth, held, items, h, hdepth => by
    rw [Call.ListWrittenAs] at h
    rw [h]
    rfl
  | call :: calls, depth, held, items, h, hdepth => by
    obtain ⟨first, rest, rfl, hfirst, hrest⟩ := h
    obtain ⟨hcall, hcalls⟩ := max_le_iff.1 hdepth
    rw [List.mapM_cons, Call.ofJson?_eq call hfirst hcall, Call.mapM_ofJson?_eq calls hrest hcalls]
    exact ifFinite_cons ..

theorem Block.ofJsonWithin?_eq : ∀ (block : Block) {depth : ℕ} {held : Bool} {json : Json},
    block.WrittenAs depth held json → block.toJson.depth ≤ depth →
      Block.ofJsonWithin? depth held json = ifFinite block.numbers (block.mapNumbers Json.reread)
  | ⟨calls⟩, depth, held, json, h, hdepth => by
    rw [Block.depth_toJson] at hdepth
    obtain ⟨depth, rfl⟩ : ∃ k, depth = k + 2 := ⟨depth - 2, by omega⟩
    obtain ⟨items, hholds, hitems⟩ := h
    have hcalls : items.mapM (Call.ofJson? depth held) = _ :=
      Call.mapM_ofJson?_eq calls hitems (by omega)
    rw [Block.ofJsonWithin?, hholds.fields?_one]
    simp only [Option.bind_eq_bind, Option.bind_some, hcalls]
    exact ifFinite_bind ..

end

/-! ## Reading the text -/

namespace Block

/-- A block is read from the text of every tree that it may be written as. -/
theorem read?_compact {block : Block} {json : Json} (hdepth : block.toJson.depth ≤ Json.depthLimit)
    (h : block.WrittenAs Json.depthLimit false json) (hjson : json.WellFormed) :
    Block.read? json.compact = ifFinite block.numbers (block.mapNumbers Json.reread) := by
  rw [Block.read?, Json.read_compact hjson]
  exact Block.ofJsonWithin?_eq block h hdepth

/-- A block whose tree is not nested too deep is written as a tree it may be written as, and from
the text of each of these trees something is read just if all numbers of the block are finite: the
block, with each number replaced by what is read for its text. -/
theorem read?_of_writtenAs (block : Block) (hdepth : block.toJson.depth ≤ Json.depthLimit) :
    (block.WrittenAs Json.depthLimit false block.toJson ∧ block.toJson.WellFormed) ∧
    ∀ json, block.WrittenAs Json.depthLimit false json → json.WellFormed →
      ((∃ read, Block.read? json.compact = some read) ↔ ∀ x ∈ block.numbers, x.isFinite = true) ∧
      ((∀ x ∈ block.numbers, x.isFinite = true) →
        Block.read? json.compact = some (block.mapNumbers Json.reread) ∧
        (∀ x ∈ block.numbers, Json.literalValue (jsonText x) = some (Json.reread x)) ∧
        ((∀ x ∈ block.numbers, Json.literalValue (jsonText x) = some x) →
          Block.read? json.compact = some block)) := by
  refine ⟨⟨block.writtenAs_toJson _ _, block.wellFormed_toJson⟩, fun json h hjson => ?_⟩
  rw [read?_compact hdepth h hjson]
  refine ⟨exists_ifFinite_iff, fun hfinite => ?_⟩
  have hreread (x : Float) (hx : x ∈ block.numbers) := Json.literalValue_jsonText (hfinite x hx)
  rw [ifFinite_of_forall hfinite]
  refine ⟨rfl, hreread, fun hexact => congrArg some (block.mapNumbers_eq_self fun x hx => ?_)⟩
  exact Option.some.inj ((hreread x hx).symm.trans (hexact x hx))

/-- A value before its tag, with members that are added inside and outside of it, the one outside
beyond the range of doubles; inside, a string with characters that are escaped, and a number. -/
theorem read?_of_writtenAs_added_members :
    let arguments : List Argument := [.string "\"\\\n\x01 é", .number 0.1]
    let block : Block := ⟨[⟨"f", [.call ⟨"g", arguments⟩]⟩]⟩
    let value : Json := .object [("name", .string "g"), ("x", .array [.null]),
      ("params", .array (Argument.listToJson arguments))]
    let argument : Json := .object [("val", value), ("type", .string "call")]
    let call : Json := .object [("name", .string "f"), ("params", .array [argument])]
    let json : Json := .object [("y", .number "1e+999"), ("calls", .array [call])]
    block.toJson.depth ≤ Json.depthLimit ∧ block.WrittenAs Json.depthLimit false json ∧
      json.WellFormed ∧ (∀ x ∈ block.numbers, Json.literalValue (jsonText x) = some x) ∧
      Block.read? json.compact = some block := by
  intro arguments block value argument call json
  have hdepth : block.toJson.depth ≤ Json.depthLimit := by decide +kernel
  have hvalue : Call.WrittenAs 122 true ⟨"g", arguments⟩ value := by
    refine ⟨_, Json.holds_of_isPlain (by decide +kernel) ?_ (by decide +kernel),
      Argument.listWrittenAs_listToJson arguments _ _⟩
    rw [Json.IsPlain.ofString (by decide +kernel)]
    rfl
  have hcall : Call.WrittenAs 125 false ⟨"f", [.call ⟨"g", arguments⟩]⟩ call := by
    have hholds : argument.Holds 122 false _ := Json.holds_object (by decide +kernel) _ _
    refine ⟨[argument], ?_, argument, [], rfl, ⟨value, .inr ⟨hvalue, hholds⟩⟩, rfl⟩
    rw [Json.IsPlain.ofString (by decide +kernel)]
    exact Json.holds_object (by decide +kernel) _ _
  have hwritten : block.WrittenAs Json.depthLimit false json :=
    ⟨[call], Json.holds_of_isPlain (by decide +kernel) rfl nofun, call, [], rfl, hcall, rfl⟩
  have hjson : json.WellFormed := by
    have hplain {literal : String} (h : Json.IsPlain literal) : (Json.string literal).WellFormed :=
      .string h.mem
    have hlegible : Json.Legible ['1'] none ['e', '+', '9', '9', '9'] :=
      ⟨Pattern.mem_jsonWhole.2 (.inr ⟨'1', [], rfl, by decide, by simp [IsDigits, isDigit]⟩), nofun,
        .some (.inl rfl) (by simp) (by simp [IsDigits, isDigit]), by simp, by decide⟩
    have hvalue : value.WellFormed := by
      refine Json.wellFormed_object_cons (by decide +kernel) (hplain (by decide +kernel)) ?_
      refine Json.wellFormed_object_cons (by decide +kernel)
        (.array (List.forall_mem_singleton.2 .null)) ?_
      exact Json.wellFormed_object_cons (by decide +kernel)
        (.array (Argument.listWellFormed_toJson arguments)) Json.wellFormed_object_nil
    have hargument : argument.WellFormed :=
      Json.wellFormed_object_cons (by decide +kernel) hvalue (Json.wellFormed_object_cons
        (by decide +kernel) (hplain (by decide +kernel)) Json.wellFormed_object_nil)
    have hcall : call.WellFormed :=
      Json.wellFormed_object_cons (by decide +kernel) (hplain (by decide +kernel))
        (Json.wellFormed_object_cons (by decide +kernel)
          (.array (List.forall_mem_singleton.2 hargument)) Json.wellFormed_object_nil)
    exact Json.wellFormed_object_cons (by decide +kernel)
      (.number (Json.withPoint_mem false hlegible)) (Json.wellFormed_object_cons (by decide +kernel)
        (.array (List.forall_mem_singleton.2 hcall)) Json.wellFormed_object_nil)
  have hfinite : ∀ x ∈ [(0.1 : Float)], x.isFinite = true := by decide +kernel
  have hexact : ∀ x ∈ [(0.1 : Float)], Json.literalValue (jsonText x) = some x := by decide +kernel
  exact ⟨hdepth, hwritten, hjson, hexact,
    (((read?_of_writtenAs block hdepth).2 json hwritten hjson).2 hfinite).2.2 hexact⟩

/-- A number beyond the range of doubles cannot be added to a value that stands before its tag, but
it can be added to one that stands after its tag. -/
theorem read?_beyond_range_before_tag :
    let value : Json :=
      .object [("name", .string "g"), ("params", .array []), ("x", .number "1e999")]
    let tree (argument : List (String × Json)) : Json :=
      .object [("calls", .array [.object [("name", .string "f"),
        ("params", .array [.object argument])]])]
    Block.read? (tree [("val", value), ("type", .string "call")]).compact = none ∧
      (Block.read? (tree [("type", .string "call"), ("val", value)]).compact).map Block.render =
        some "\x7bf(g())\x7d" := by
  intro value tree
  exact ⟨Option.isNone_iff_eq_none.1 (by decide +kernel), by decide +kernel⟩

end Block

end CallScript
