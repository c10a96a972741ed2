import CallScript.Toml.Basic

/-!
# Tables of a TOML document

A document writes its tables piece by piece.  While it is read, a table remembers whether a header
or braces have written it (`implicit` is then false) and whether dotted keys have (`dotted`),
because what may still be added to it depends on that.
-/

namespace CallScript.Toml

mutual

/-- What a document has written under a key. -/
inductive Item where
  | value (value : Toml)
  | table (table : Table)
  /-- The tables of a repeated header: the latest one, and those before it, latest first. -/
  | tables (latest : Table) (earlier : List Table)

/-- A table while its document is read. -/
structure Table where
  /-- Only mentioned so far, on the way to other tables. -/
  implicit : Bool
  /-- Made by dotted keys. -/
  dotted : Bool
  entries : List (String × Item)

end

namespace Table

/-- A table that a header or braces write. -/
def blank : Table := ⟨false, false, []⟩

/-- Writes an item under a key. -/
def put (t : Table) (key : String) (item : Item) : Table :=
  { t with entries := Entries.insert key item t.entries }

/-- Writes an item under a key after all others. -/
def putLast (t : Table) (key : String) (item : Item) : Table :=
  { t with entries := Entries.erase key t.entries ++ [(key, item)] }

/-- Changes the table that a path leads to, making the tables missing on the way.  Dotted keys do
not lead through tables that are written already. -/
def modifyAt? (dotted : Bool) (f : Table → Option Table) : List String → Table → Option Table
  | [], t => f t
  | key :: path, t =>
    match Entries.get? key t.entries with
    | none => (modifyAt? dotted f path ⟨true, dotted, []⟩).map fun child => t.put key (.table child)
    | some (.value _) => none
    | some (.table child) =>
      if dotted && !child.implicit then none
      else (modifyAt? dotted f path child).map fun child => t.put key (.table child)
    | some (.tables latest earlier) =>
      (modifyAt? dotted f path latest).map fun latest => t.put key (.tables latest earlier)

/-- Writes a value under a dotted key.  The key is new, and the table it belongs to is made by
dotted keys just if there are dots. -/
def assign? (t : Table) (path : List String) (value : Toml) : Option Table :=
  match path.getLast? with
  | none => none
  | some key =>
    t.modifyAt? true (fun target =>
      if target.dotted == path.dropLast.isEmpty || Entries.contains key target.entries then none
      else some (target.put key (.value value))) path.dropLast

/-- Writes values under dotted keys in order. -/
def assignAll? (t : Table) (pairs : List (List String × Toml)) : Option Table :=
  pairs.foldlM (fun t (path, value) => t.assign? path value) t

/-- Writes the table of a header.  It may have been mentioned, but not written, and takes its place
where it is written. -/
def writeTable? (root : Table) (path : List String) (pairs : List (List String × Toml)) :
    Option Table :=
  match path.getLast? with
  | none => none
  | some key =>
    root.modifyAt? false (fun parent =>
      match Entries.get? key parent.entries with
      | none => (blank.assignAll? pairs).map fun t => parent.put key (.table t)
      | some (.table t) =>
        if t.implicit && !t.dotted then
          ({ t with implicit := false }.assignAll? pairs).map fun t => parent.putLast key (.table t)
        else none
      | some _ => none) path.dropLast

/-- Writes one more table of a repeated header. -/
def appendTable? (root : Table) (path : List String) (pairs : List (List String × Toml)) :
    Option Table :=
  match path.getLast? with
  | none => none
  | some key =>
    root.modifyAt? false (fun parent =>
      match Entries.get? key parent.entries with
      | none => (blank.assignAll? pairs).map fun t => parent.put key (.tables t [])
      | some (.tables latest earlier) =>
        (blank.assignAll? pairs).map fun t => parent.put key (.tables t (latest :: earlier))
      | some _ => none) path.dropLast

end Table

mutual

/-- The value an item stands for. -/
def Item.toToml : Item → Toml
  | .value v => v
  | .table t => t.toToml
  | .tables latest earlier => .array (Table.listToToml earlier [latest.toToml])

/-- The value a table stands for. -/
def Table.toToml : Table → Toml
  | ⟨_, _, entries⟩ => .table (Item.entriesToToml entries)

/-- The values of tables that are given latest first, in front of the values after them. -/
def Table.listToToml : List Table → List Toml → List Toml
  | [], after => after
  | t :: ts, after => Table.listToToml ts (t.toToml :: after)

/-- The entries that written entries stand for. -/
def Item.entriesToToml : List (String × Item) → List (String × Toml)
  | [] => []
  | (key, item) :: entries => (key, item.toToml) :: Item.entriesToToml entries

end

end CallScript.Toml
