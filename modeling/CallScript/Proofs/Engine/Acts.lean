import CallScript.Environment
import CallScript.Proofs.Value.Callables
import Mathlib.Data.Set.Card

/-!
# Environments as ordered maps

What is done with an environment is a list of acts: names are written and removed, and code looks at
what is bound (`Act`).  The acts alone tell what an environment lists and in which order
(`Environment.Records`): a name is listed if it has been written since it was last removed, with the
value that was written last, in the place of its first writing since then.  An act keeps this
(`Environment.Records.leads`), and all that is read from an environment agrees with it
(`Environment.Records.isOrderedMap`).
-/

namespace CallScript

/-! ## Entries with distinct keys -/

namespace Entries

variable {α : Type}

theorem keys_erase (name : String) (entries : List (String × α)) :
    keys (erase name entries) = (keys entries).erase name := by
  induction entries with
  | nil => rfl
  | cons entry entries ih =>
    obtain ⟨key, value⟩ := entry
    by_cases h : key = name
    · simp [erase, h]
    · simp [erase, h, ih]

theorem get?_erase (name query : String) {entries : List (String × α)}
    (h : (keys entries).Nodup) :
    get? query (erase name entries) = if name = query then none else get? query entries := by
  induction entries with
  | nil => simp [erase]
  | cons entry entries ih =>
    obtain ⟨key, value⟩ := entry
    rw [keys_cons, List.nodup_cons] at h
    by_cases hkey : key = name
    · subst hkey
      by_cases hquery : key = query
      · subst hquery
        simpa [erase] using get?_eq_none_iff.2 h.1
      · simp [erase, get?, hquery]
    · by_cases hquery : key = query
      · subst hquery
        simp [erase, get?, hkey, Ne.symm hkey]
      · simp [erase, get?, hkey, hquery, ih h.2]

theorem insert_of_notMem {name : String} {entries : List (String × α)} (h : name ∉ keys entries)
    (value : α) : insert name value entries = entries ++ [(name, value)] := by
  induction entries with
  | nil => rfl
  | cons entry entries ih =>
    simp only [keys_cons, List.mem_cons, not_or] at h
    simp [insert, Ne.symm h.1, ih h.2]

theorem extend_of_nodup {entries more : List (String × α)} (h : (keys (entries ++ more)).Nodup) :
    extend entries more = entries ++ more := by
  induction more generalizing entries with
  | nil => simp [extend]
  | cons entry more ih =>
    obtain ⟨key, value⟩ := entry
    have hnew : key ∉ keys entries := by
      intro hmem
      rw [keys, List.map_append, List.nodup_append] at h
      exact h.2.2 key hmem key (by simp) rfl
    rw [extend_cons, insert_of_notMem hnew, ih (by simpa using h), List.append_assoc,
      List.singleton_append]

theorem nodup_keys_extend (more : List (String × α)) {entries : List (String × α)}
    (h : (keys entries).Nodup) : (keys (extend entries more)).Nodup := by
  induction more generalizing entries with
  | nil => exact h
  | cons entry more ih => exact ih (nodup_keys_insert entry.1 entry.2 h)

end Entries

/-! ## Acts -/

/-- What is done with an environment. -/
inductive Act where
  /-- A name is bound to a value. -/
  | write (name : String) (value : Value)
  /-- A name is unbound. -/
  | removal (name : String)
  /-- Code sees the environment as it is then. -/
  | look (env : Environment)

namespace Act

/-- The act writes a name. -/
def Writes (act : Act) (name : String) : Prop :=
  ∃ value, act = .write name value

/-- The act writes or removes a name. -/
def Changes (act : Act) (name : String) : Prop :=
  act.Writes name ∨ act = .removal name

/-- Writes of every entry, in order. -/
def writes (bindings : Bindings) : List Act :=
  bindings.map fun (name, value) => .write name value

/-- One act was such as `p` says, after what was done before it, and none since has been such as `q`
says. -/
def Since (p : List Act → Act → Prop) (q : Act → Prop) (acts : List Act) : Prop :=
  ∃ before act after, acts = before ++ act :: after ∧ p before act ∧ ∀ later ∈ after, ¬q later

/-- A name has been written since it was last removed. -/
def Listed (acts : List Act) (name : String) : Prop :=
  Since (fun _ act => act.Writes name) (· = .removal name) acts

/-- A value has been written under a name that has been neither written nor removed since. -/
def LastWritten (acts : List Act) (name : String) (value : Value) : Prop :=
  Since (fun _ act => act = .write name value) (·.Changes name) acts

/-- The place among the acts at which a name was first written since it was last removed. -/
def FirstWritten (acts : List Act) (name : String) (place : Nat) : Prop :=
  Since (fun before act => act.Writes name ∧ ¬Listed before name ∧ before.length = place)
    (· = .removal name) acts

section Since

variable {p : List Act → Act → Prop} {q : Act → Prop} {acts : List Act} {act : Act}

theorem not_since_nil : ¬Since p q [] := by
  rintro ⟨before, act, after, h, -⟩
  simp at h

/-- The last act decides, unless it leaves the matter as it was. -/
theorem since_concat : Since p q (acts ++ [act]) ↔ p acts act ∨ ¬q act ∧ Since p q acts := by
  constructor
  · rintro ⟨before, found, after, heq, hp, hq⟩
    rcases List.eq_nil_or_concat' after with rfl | ⟨after, last, rfl⟩
    · obtain ⟨rfl, hact⟩ := List.append_inj' heq rfl
      cases hact
      exact .inl hp
    · rw [← List.cons_append, ← List.append_assoc] at heq
      obtain ⟨rfl, hact⟩ := List.append_inj' heq rfl
      cases hact
      refine .inr ⟨hq _ (by simp), before, found, after, rfl, hp, fun later hlater => ?_⟩
      exact hq later (List.mem_append_left _ hlater)
  · rintro (hp | ⟨hlast, before, found, after, rfl, hp, hq⟩)
    · exact ⟨acts, act, [], rfl, hp, by simp⟩
    · refine ⟨before, found, after ++ [act], by simp, hp, fun later hlater => ?_⟩
      rcases List.mem_append.1 hlater with hlater | hlater
      · exact hq later hlater
      · rwa [List.mem_singleton.1 hlater]

end Since

variable {acts : List Act} {name : String} {place : Nat}

theorem listed_write {other : String} {value : Value} :
    Listed (acts ++ [.write other value]) name ↔ name = other ∨ Listed acts name := by
  simp [Listed, since_concat, Writes, eq_comm]

theorem listed_removal {other : String} :
    Listed (acts ++ [.removal other]) name ↔ name ≠ other ∧ Listed acts name := by
  simp [Listed, since_concat, Writes, eq_comm]

theorem listed_look {env : Environment} : Listed (acts ++ [.look env]) name ↔ Listed acts name := by
  simp [Listed, since_concat, Writes]

namespace FirstWritten

theorem listed (h : FirstWritten acts name place) : Listed acts name := by
  obtain ⟨before, act, after, heq, hp, hq⟩ := h
  exact ⟨before, act, after, heq, hp.1, hq⟩

theorem lt_length (h : FirstWritten acts name place) : place < acts.length := by
  obtain ⟨before, act, after, rfl, ⟨-, -, rfl⟩, -⟩ := h
  simp

/-- What is done later changes the place of a name only if it removes the name. -/
theorem concat (h : FirstWritten acts name place) {act : Act} (hact : act ≠ .removal name) :
    FirstWritten (acts ++ [act]) name place :=
  since_concat.2 (.inr ⟨hact, h⟩)

/-- A name that is not listed is written at the end. -/
theorem last (h : ¬Listed acts name) (value : Value) :
    FirstWritten (acts ++ [.write name value]) name acts.length :=
  since_concat.2 (.inl ⟨⟨value, rfl⟩, h, rfl⟩)

end FirstWritten

/-- A listed name has one place. -/
theorem Listed.existsUnique_firstWritten (h : Listed acts name) :
    ∃! place, FirstWritten acts name place := by
  induction acts using List.reverseRecOn with
  | nil => exact absurd h not_since_nil
  | append_singleton acts act ih =>
    by_cases hlisted : Listed acts name
    · have hact : act ≠ .removal name := by
        rintro rfl
        exact (listed_removal.1 h).1 rfl
      obtain ⟨place, hplace, hunique⟩ := ih hlisted
      refine ⟨place, hplace.concat hact, fun other hother => ?_⟩
      rcases since_concat.1 hother with ⟨-, hnew, -⟩ | ⟨-, hother⟩
      · exact absurd hlisted hnew
      · exact hunique other hother
    · have hact : act.Writes name := (since_concat.1 h).resolve_right fun h => hlisted h.2
      obtain ⟨value, rfl⟩ := hact
      refine ⟨acts.length, .last hlisted value, fun other hother => ?_⟩
      rcases since_concat.1 hother with ⟨-, -, rfl⟩ | ⟨-, hother⟩
      · rfl
      · exact absurd (FirstWritten.listed hother) hlisted

theorem lastWritten_write {other : String} {written value : Value} :
    LastWritten (acts ++ [.write other written]) name value ↔
      if other = name then written = value else LastWritten acts name value := by
  by_cases h : other = name <;> simp [LastWritten, since_concat, Changes, Writes, h]

theorem lastWritten_removal {other : String} {value : Value} :
    LastWritten (acts ++ [.removal other]) name value ↔
      other ≠ name ∧ LastWritten acts name value := by
  simp [LastWritten, since_concat, Changes, Writes]

theorem lastWritten_look {env : Environment} {value : Value} :
    LastWritten (acts ++ [.look env]) name value ↔ LastWritten acts name value := by
  simp [LastWritten, since_concat, Changes, Writes]

/-- Of two names that are both listed, the first was first written, since it was last removed,
before the second was. -/
def Precedes (acts : List Act) (name name' : String) : Prop :=
  ∃ place place', FirstWritten acts name place ∧ FirstWritten acts name' place' ∧ place < place'

theorem Precedes.concat {name' : String} (h : Precedes acts name name') {act : Act}
    (hact : act ≠ .removal name) (hact' : act ≠ .removal name') :
    Precedes (acts ++ [act]) name name' := by
  obtain ⟨place, place', hplace, hplace', hlt⟩ := h
  exact ⟨place, place', hplace.concat hact, hplace'.concat hact', hlt⟩

end Act

/-! ## What an environment records -/

namespace Environment

open Act

variable {env env' : Environment} {acts past : List Act}

theorem names_define (env : Environment) (name : String) (value : Value) :
    (env.define name value).names =
      if name ∈ env.names then env.names else env.names ++ [name] :=
  Entries.keys_insert name value env.bindings

theorem names_remove (env : Environment) (name : String) :
    (env.remove name).names = env.names.erase name :=
  Entries.keys_erase name env.bindings

/-- An environment lists the names that have been written since they were last removed, with their
last values, in the order of their first writing since then. -/
structure Records (env : Environment) (acts : List Act) : Prop where
  nodup : env.names.Nodup
  mem_names : ∀ name, name ∈ env.names ↔ Listed acts name
  getRaw? : ∀ name value, env.getRaw? name = some value ↔ LastWritten acts name value
  ordered : env.names.Pairwise (Precedes acts)

namespace Records

theorem empty : Environment.empty.Records [] where
  nodup := List.nodup_nil
  mem_names name := by simp [names, Environment.empty, Listed, not_since_nil]
  getRaw? name value := by
    simp [Environment.getRaw?, Environment.empty, LastWritten, not_since_nil]
  ordered := List.Pairwise.nil

theorem define (h : env.Records acts) (name : String) (value : Value) :
    (env.define name value).Records (acts ++ [.write name value]) where
  nodup := Entries.nodup_keys_insert name value h.nodup
  mem_names other := by
    rw [listed_write, ← h.mem_names, names_define]
    split
    · next hmem => exact ⟨.inr, fun hother => hother.elim (fun heq => heq ▸ hmem) id⟩
    · rw [List.mem_append, List.mem_singleton, or_comm]
  getRaw? other found := by
    rw [lastWritten_write, ← h.getRaw?, Environment.getRaw?, Environment.define,
      Entries.get?_insert]
    split
    · rw [Option.some.injEq]
    · rfl
  ordered := by
    have hkeeps : env.names.Pairwise (Precedes (acts ++ [.write name value])) :=
      h.ordered.imp fun hprecedes => hprecedes.concat (by simp) (by simp)
    rw [names_define]
    split
    · exact hkeeps
    · next hnew =>
      refine List.pairwise_append.2 ⟨hkeeps, List.pairwise_singleton _ _, ?_⟩
      intro other hother last hlast
      obtain rfl := List.mem_singleton.1 hlast
      obtain ⟨place, hplace, -⟩ := ((h.mem_names other).1 hother).existsUnique_firstWritten
      have hlast : FirstWritten (acts ++ [.write last value]) last acts.length :=
        .last (fun hlisted => hnew ((h.mem_names last).2 hlisted)) value
      exact ⟨place, acts.length, hplace.concat (by simp), hlast, hplace.lt_length⟩

theorem remove (h : env.Records acts) (name : String) :
    (env.remove name).Records (acts ++ [.removal name]) where
  nodup := by
    rw [names_remove]
    exact h.nodup.erase name
  mem_names other := by
    rw [listed_removal, ← h.mem_names, names_remove, h.nodup.mem_erase_iff]
  getRaw? other found := by
    rw [lastWritten_removal, ← h.getRaw?, Environment.getRaw?, Environment.remove,
      Entries.get?_erase _ _ h.nodup]
    by_cases hname : name = other <;> simp [hname, Environment.getRaw?]
  ordered := by
    rw [names_remove]
    have hne : ∀ other ∈ env.names.erase name, Act.removal name ≠ .removal other := by
      intro other hother
      simpa [eq_comm] using (h.nodup.mem_erase_iff.1 hother).1
    refine (h.ordered.sublist List.erase_sublist).imp_of_mem fun hmem hmem' hprecedes => ?_
    exact hprecedes.concat (hne _ hmem) (hne _ hmem')

theorem look (h : env.Records acts) (seen : Environment) : env.Records (acts ++ [.look seen]) where
  nodup := h.nodup
  mem_names name := by rw [listed_look, h.mem_names]
  getRaw? name value := by rw [lastWritten_look, h.getRaw?]
  ordered := h.ordered.imp fun hprecedes => hprecedes.concat (by simp) (by simp)

end Records

/-- What is done with an environment leads from one state of it to another, and every look sees what
has come of the acts before it. -/
inductive Leads : Environment → List Act → Environment → Prop where
  | done (env : Environment) : Leads env [] env
  | write {env env' : Environment} {name : String} {value : Value} {acts : List Act}
    (h : Leads (env.define name value) acts env') : Leads env (.write name value :: acts) env'
  | removal {env env' : Environment} {name : String} {acts : List Act}
    (h : Leads (env.remove name) acts env') : Leads env (.removal name :: acts) env'
  | look {env env' : Environment} {acts : List Act} (h : Leads env acts env') :
    Leads env (.look env :: acts) env'

namespace Leads

theorem trans {env'' : Environment} {acts' : List Act} (h : Leads env acts env')
    (h' : Leads env' acts' env'') : Leads env (acts ++ acts') env'' := by
  induction h with
  | done => exact h'
  | write _ ih => exact .write (ih h')
  | removal _ ih => exact .removal (ih h')
  | look _ ih => exact .look (ih h')

theorem before_look {before after : List Act} {seen : Environment}
    (h : Leads env (before ++ .look seen :: after) env') : Leads env before seen := by
  induction before generalizing env with
  | nil =>
    cases h
    exact .done _
  | cons act before ih =>
    cases h with
    | write h => exact .write (ih h)
    | removal h => exact .removal (ih h)
    | look h => exact .look (ih h)

theorem writes (env : Environment) (bindings : Bindings) :
    Leads env (Act.writes bindings) (env.extend bindings) := by
  induction bindings generalizing env with
  | nil => exact .done env
  | cons entry bindings ih => exact .write (ih _)

/-- Bindings under different names are what writing them leads to. -/
theorem writes_empty {bindings : Bindings} (h : (Entries.keys bindings).Nodup) :
    Leads .empty (Act.writes bindings) ⟨bindings⟩ := by
  have hextend : Entries.extend [] bindings = bindings := Entries.extend_of_nodup h
  have hwrites := writes .empty bindings
  rwa [extend, Environment.empty, hextend] at hwrites

end Leads

/-- What is done with an environment is recorded in it. -/
theorem Records.leads (h : env.Records past) (hleads : Leads env acts env') :
    env'.Records (past ++ acts) := by
  induction hleads generalizing past with
  | done => simpa using h
  | write _ ih => simpa using ih (h.define _ _)
  | removal _ ih => simpa using ih (h.remove _)
  | look _ ih => simpa using ih (h.look _)

/-! ## What is read from an environment -/

/-- An environment that records what has been done, and all that is read from it. -/
structure IsOrderedMap (env : Environment) (acts : List Act) : Prop extends env.Records acts where
  place : ∀ name ∈ env.names, ∃! place, FirstWritten acts name place
  get? : ∀ name value, env.get? name = some value ↔
    ∃ stored, LastWritten acts name stored ∧ stored.wrap name = value
  contains : ∀ name, env.contains name = true ↔ Listed acts name
  size : env.size = {name | Listed acts name}.ncard
  /-- A name that is written again keeps its place. -/
  rewrite : ∀ name value, Listed acts name → (env.define name value).names = env.names
  append : ∀ name value, ¬Listed acts name → (env.define name value).names = env.names ++ [name]
  /-- The names other than the one removed keep their order. -/
  remove : ∀ name, (env.remove name).names = env.names.filter (· ≠ name)

theorem Records.isOrderedMap (h : env.Records acts) : env.IsOrderedMap acts where
  toRecords := h
  place name hname := ((h.mem_names name).1 hname).existsUnique_firstWritten
  get? name value := by
    simp only [Environment.get?, Option.map_eq_some_iff, h.getRaw?]
  contains name := by
    have hmem : env.contains name = true ↔ name ∈ env.names := by
      rw [Environment.contains, Entries.contains, Option.isSome_iff_ne_none, ne_eq,
        Entries.get?_eq_none_iff, not_not, names]
    rw [hmem, h.mem_names]
  size := by
    have hlisted : {name | Listed acts name} = (env.names.toFinset : Set String) := by
      ext name
      simp [h.mem_names]
    rw [hlisted, Set.ncard_coe_finset, List.toFinset_card_of_nodup h.nodup, names, Entries.keys,
      List.length_map, Environment.size]
  rewrite name value hlisted := by
    rw [names_define, if_pos ((h.mem_names name).2 hlisted)]
  append name value hnew := by
    rw [names_define, if_neg (mt (h.mem_names name).1 hnew)]
  remove name := by
    rw [names_remove, h.nodup.erase_eq_filter]
    simp [bne, beq_eq_decide]

end Environment

end CallScript
