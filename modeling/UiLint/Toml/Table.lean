import UiLint.Config.Datum

/-! Tables while a TOML document is read. A table remembers whether it has been defined by
a header of its own, since that can happen only once, and whether dotted keys made it. -/
namespace UiLint.Toml

mutual

/-- What a key stands for. -/
inductive Item where
  | value (datum : Datum)
  | table (table : Table)
  | array (tables : List Table)

/-- A table. It is implicit until a header defines it, and dotted if a dotted key made it. -/
inductive Table where
  | mk (isImplicit isDotted : Bool) (entries : List (String × Item))

end

namespace Table

def isImplicit : Table → Bool
  | mk isImplicit _ _ => isImplicit

def isDotted : Table → Bool
  | mk _ isDotted _ => isDotted

def entries : Table → List (String × Item)
  | mk _ _ entries => entries

/-- A table that has just been defined. -/
def fresh : Table := mk false false []

/-- The table with another item for a key. -/
def put (table : Table) (key : String) (item : Item) : Table :=
  mk table.isImplicit table.isDotted
    ((key, item) :: table.entries.filter (·.1 != key))

/-- Change the table that a path of keys leads to. Tables that are missing on the way are
made; of an array of tables the last is meant. Dotted keys do not lead into tables that
have been defined by a header. -/
def alter (dotted : Bool) (change : Table → Option Table) : List String → Table → Option Table
  | [], table => change table
  | key :: keys, table =>
    match table.entries.lookup key with
    | none =>
      (alter dotted change keys (mk true dotted [])).map fun inner => table.put key (.table inner)
    | some (.value _) => none
    | some (.array tables) =>
      match tables.getLast? with
      | none => none
      | some last =>
        (alter dotted change keys last).map fun inner =>
          table.put key (.array (tables.dropLast ++ [inner]))
    | some (.table inner) =>
      if dotted && !inner.isImplicit then none
      else (alter dotted change keys inner).map fun inner => table.put key (.table inner)

/-- Give a dotted key a value. The key must not have one yet, and a table that was not made
by dotted keys is not extended by them. -/
def assign (table : Table) (key : List String) (value : Datum) : Option Table :=
  match key.getLast? with
  | none => none
  | some last =>
    let above := key.dropLast
    table.alter true (fun inner =>
      if inner.isDotted == above.isEmpty then none
      else if (inner.entries.lookup last).isSome then none
      else some (inner.put last (.value value))) above

/-- Define a table by its header. -/
def define (table : Table) (key : List String) : Option Table :=
  match key.getLast? with
  | none => none
  | some last =>
    table.alter false (fun above =>
      match above.entries.lookup last with
      | none => some (above.put last (.table fresh))
      | some (.table inner) =>
        if inner.isImplicit && !inner.isDotted then
          some (above.put last (.table (mk false false inner.entries)))
        else none
      | some _ => none) key.dropLast

/-- Add a table to an array of tables by its header. -/
def append (table : Table) (key : List String) : Option Table :=
  match key.getLast? with
  | none => none
  | some last =>
    table.alter false (fun above =>
      match above.entries.lookup last with
      | none => some (above.put last (.array [fresh]))
      | some (.array tables) => some (above.put last (.array (tables ++ [fresh])))
      | some _ => none) key.dropLast

end Table

mutual

/-- An item as data. -/
def Item.toDatum : Item → Datum
  | .value datum => datum
  | .table table => table.toDatum
  | .array tables => .list (tablesToData tables)

/-- A table as data. -/
def Table.toDatum : Table → Datum
  | .mk _ _ entries => .table (entriesToData entries)

/-- The tables of an array as data. -/
def tablesToData : List Table → List Datum
  | [] => []
  | table :: tables => table.toDatum :: tablesToData tables

/-- The entries of a table as data. -/
def entriesToData : List (String × Item) → List (String × Datum)
  | [] => []
  | (key, item) :: entries => (key, item.toDatum) :: entriesToData entries

end

end UiLint.Toml
