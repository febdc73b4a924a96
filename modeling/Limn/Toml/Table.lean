import Limn.Value

/-! # Tables of a settings document

A TOML document is a tree of tables that grows statement by statement. A statement may add to a
table that an earlier one began, but not to everything: a value written out in full (a list or an
inline table) is *frozen* with all below it, and a table that has been *declared*, by its own header
or as part of a dotted key, cannot be declared again.

Dotted keys declare the tables on their way only once the next header is reached, so that the
statements under one header may share them.
-/

namespace Limn.Toml

abbrev Table := List (Value × Value)

/-- The names that lead from the root to a table or a value. -/
abbrev KeyPath := List String

/-- A dotted key: the tables on the way, and the last name. -/
structure Key where
  parents : KeyPath
  name : String
deriving DecidableEq, Repr

def Key.path (k : Key) : KeyPath :=
  k.parents ++ [k.name]

/-! ## Tables -/

/-- Change the table at the end of a path, making the tables on the way that are not there. With
`intoLists`, a list on the way stands for its last table. -/
def within (intoLists : Bool) (change : Table → Option Table) : KeyPath → Table → Option Table
  | [], t => change t
  | name :: path, t =>
    let store (v : Value) := Entries.put (.text name) v t
    match Entries.get? (.text name) t with
    | none => (within intoLists change path []).map fun inner => store (.map inner)
    | some (.map inner) => (within intoLists change path inner).map fun inner => store (.map inner)
    | some (.list items) =>
      match intoLists, items.getLast? with
      | true, some (.map inner) =>
        (within intoLists change path inner).map fun inner =>
          store (.list (items.dropLast ++ [.map inner]))
      | _, _ => none
    | some _ => none

def addEntry (name : String) (v : Value) (t : Table) : Option Table :=
  if (Entries.get? (.text name) t).isSome then none else some (Entries.put (.text name) v t)

/-- Add an empty table to the list under a name, which may be new. -/
def addItem (name : String) (t : Table) : Option Table :=
  match Entries.get? (.text name) t with
  | none => some (Entries.put (.text name) (.list [.map []]) t)
  | some (.list items) => some (Entries.put (.text name) (.list (items ++ [.map []])) t)
  | some _ => none

/-- Lists and tables are frozen once written out. -/
def isNest : Value → Bool
  | .list _ => true
  | .map _ => true
  | _ => false

/-! ## Documents -/

/-- A document so far: its tables, which of them are frozen or declared, which will be declared
with the next header, and the header in force. -/
structure Draft where
  table : Table := []
  frozen : List KeyPath := []
  declared : List KeyPath := []
  pending : List KeyPath := []
  header : KeyPath := []

namespace Draft

/-- A path is frozen when it or a path above it is. -/
def isFrozen (d : Draft) (path : KeyPath) : Bool :=
  d.frozen.any (·.isPrefixOf path)

/-- A path is declared only by itself. -/
def isDeclared (d : Draft) (path : KeyPath) : Bool :=
  d.declared.contains path

/-- Declare what is due with a new header. -/
def settle (d : Draft) : Draft :=
  { d with declared := d.declared ++ d.pending, pending := [] }

/-- Forget what is known of a path and everything below it. -/
def release (d : Draft) (path : KeyPath) : Draft :=
  { d with
    frozen := d.frozen.filter fun p => !path.isPrefixOf p
    declared := d.declared.filter fun p => !path.isPrefixOf p }

def assign (d : Draft) (key : Key) (v : Value) : Option Draft :=
  let onTheWay := (List.range key.parents.length).map fun i => d.header ++ key.parents.take (i + 1)
  let parent := d.header ++ key.parents
  if onTheWay.any d.isDeclared || d.isFrozen parent then none
  else do
    let table ← within true (addEntry key.name v) parent d.table
    return { d with
      table
      pending := d.pending ++ onTheWay
      frozen := if isNest v then (d.header ++ key.path) :: d.frozen else d.frozen }

def beginTable (d : Draft) (key : Key) : Option Draft :=
  let path := key.path
  if d.isDeclared path || d.isFrozen path then none
  else do
    let table ← within true some path d.table
    return { d with table, declared := path :: d.declared, header := path }

def beginItem (d : Draft) (key : Key) : Option Draft :=
  let path := key.path
  if d.isFrozen path then none
  else do
    let table ← within true (addItem key.name) key.parents d.table
    let d := d.release path
    return { d with table, declared := path :: d.declared, header := path }

/-- A pair of an inline table, which has no header and no lists to go into. -/
def assignInline (d : Draft) (key : Key) (v : Value) : Option Draft :=
  if d.isFrozen key.path then none
  else do
    let table ← within false (addEntry key.name v) key.parents d.table
    return { d with table, frozen := if isNest v then key.path :: d.frozen else d.frozen }

end Draft

end Limn.Toml
